import Mario.Lib.ByteMemory
import Mario.Mm.Vma

/-!
# Arguments of a new program

`getname`, `copy_one_arg`, `copy_args`, `prep_args` and `setup_arg_pages`. A page frame is known by
its number, and the answers of the page allocator are a list; an answer that is in use, or that is
missing, is the failure of the allocation. The result `none` stands for a call that does not
return: an assertion has failed, or the array of the strings has no end.
-/

namespace Mario.Fs.Exec

open Mario.Lib Mario.Lib.Bytes Mario.Mm Function

abbrev Byte := BitVec 8
abbrev Word := BitVec 32

def enoent : ℤ := 2
def e2big : ℤ := 7
def enomem : ℤ := 12
def efault : ℤ := 14
def enametoolong : ℤ := 36

def maxArgPages : ℕ := 32

def atVectorSize : ℕ := 32

/-! ## Page frames -/

/-- The page frames. -/
structure Frames where
  data : ℕ → ℕ → Byte
  /-- The frame is allocated. -/
  used : ℕ → Bool
  /-- `count` of `struct page`. -/
  count : ℕ → ℤ
  /-- The answers that the allocator will give. -/
  answers : List (Option ℕ)

/-- `alloc_page`. -/
def Frames.alloc (m : Frames) : Option ℕ × Frames :=
  match m.answers with
  | [] => (none, m)
  | none :: l => (none, { m with answers := l })
  | some g :: l =>
      if m.used g then (none, { m with answers := l })
      else (some g, { m with used := update m.used g true, answers := l })

/-- `free_page`. -/
def Frames.free (g : ℕ) (m : Frames) : Frames := { m with used := update m.used g false }

/-- `page_free`, with its assertion. -/
def Frames.pageFree (vir : ℕ) (m : Frames) : Option Frames :=
  if vir % pageSize = 0 then some (m.free (vir / pageSize)) else none

def Frames.getZeroPage (m : Frames) : Option ℕ × Frames :=
  match m.alloc with
  | (none, m) => (none, m)
  | (some g, m) =>
      (some g, { m with
        data := update m.data g fun _ => 0
        count := update m.count g 1 })

def Frames.putPage (g : ℕ) (m : Frames) : Frames :=
  let m' := { m with count := update m.count g (m.count g - 1) }
  if m'.count g = 0 then m'.free g else m'

/-- `memcpy` of `n` bytes, each within a page. -/
def Frames.memcpy (dst a src b n : ℕ) (m : Frames) : Frames :=
  { m with
    data := update m.data dst fun x =>
      if a ≤ x ∧ x < a + n then m.data src (b + (x - a)) else m.data dst x }

/-- Write a string with its NUL to the start of a page. -/
def Frames.putString (g : ℕ) (str : List Byte) (m : Frames) : Frames :=
  { m with
    data := update m.data g fun x =>
      if x ≤ str.length then str.getD x 0 else m.data g x }

/-! ## Strings of the caller -/

/-- What the call reads of its caller. -/
structure UserSpace where
  mem : Bytes
  areas : List Vma
  /-- `get_fs() == KERNEL_DS`. -/
  kernelDs : Bool
  /-- `rlim_cur` of `RLIMIT_STACK`. -/
  stackLimit : ℕ

def getMaxFilename (u : UserSpace) (address : Word) : Except ℤ ℕ :=
  if u.kernelDs then .ok 0
  else
    match u.areas.dropWhile fun v => v.vmEnd ≤ address.toNat with
    | [] => .error (-efault)
    | v :: l =>
        if address.toNat < v.vmStart ∨ v.vmFlags.read = false then .error (-efault)
        else if pageSize < v.vmEnd - address.toNat then .ok 0
        else if l.head?.any fun w => w.vmStart = v.vmEnd && w.vmFlags.read then .ok 0
        else .ok (v.vmEnd - address.toNat)

/-- The loop of `getname` with `c` in hand; `n` rounds are left. -/
def readName (mem : Bytes) : ℕ → Byte → Word → Option (List Byte)
  | 0, _, _ => none
  | n + 1, c, filename =>
      if mem filename = 0 then some [c]
      else (readName mem n (mem filename) (off filename 1)).map (c :: ·)

/-- `getname`: the frame with the string, and the string. -/
def getname (u : UserSpace) (filename : Word) (m : Frames) :
    Except ℤ (ℕ × List Byte) × Frames :=
  match getMaxFilename u filename with
  | .error e => (.error e, m)
  | .ok i =>
      if u.mem filename = 0 then (.error (-enoent), m)
      else
        match m.alloc with
        | (none, m) => (.error (-enomem), m)
        | (some g, m) =>
            let rounds := (if i = 0 then pageSize else i) - 1
            match readName u.mem rounds (u.mem filename) (off filename 1) with
            | some str => (.ok (g, str), m.putString g str)
            | none => (.error (if i = 0 then -enametoolong else -efault), m.free g)

/-- The loop of `verify_area` over the areas from the one that was found. -/
def verifyFrom (start size : ℕ) : List Vma → Bool
  | [] => false
  | v :: l =>
      if v.vmFlags.read = false then false
      else if size ≤ v.vmEnd - start then true
      else if l.head?.any fun w => v.vmEnd = w.vmStart then verifyFrom start size l
      else false

/-- `verify_area(VERIFY_READ, addr, size)`. -/
def verifyRead (u : UserSpace) (addr size : ℕ) : Bool :=
  if u.kernelDs then true
  else
    match u.areas.dropWhile fun v => v.vmEnd ≤ addr with
    | [] => false
    | v :: l =>
        if v.vmStart ≤ addr ∨ v.vmFlags.growsdown ∧ v.vmEnd - addr ≤ u.stackLimit then
          verifyFrom addr size (v :: l)
        else false

/-! ## The argument pages -/

/-- The part of `struct exec` that holds the arguments. -/
structure Args where
  frames : Frames
  argPage : ℕ → Option ℕ
  argP : ℕ
  /-- For every string, the page that `getname` has returned and the address given to `putname`. -/
  names : List (ℕ × ℕ)

/-- `putname(tmp)`, for the page that `getname` has returned. -/
def putname (g tmp : ℕ) (x : Args) : Option Args :=
  (x.frames.pageFree tmp).map fun m =>
    { x with frames := m, names := x.names ++ [(g, tmp)] }

/-- `copy_one_arg` after `getname`: the error, if any, and what it leaves to `putname`. -/
def copyString (g : ℕ) (str : List Byte) (x : Args) : Option ℤ × ℕ × Args :=
  let len := str.length + 1
  let tmp := g * pageSize
  let a := x.argP % pageSize
  let b := pageMask (a + pageSize)
  let c := x.argP / pageSize
  let d := (x.argPage c).getD 0
  if b ≤ a + len then
    let m := x.frames.memcpy d a g 0 (b - a)
    let x' := { x with frames := m, argP := x.argP + (b - a) }
    let tmp' := tmp + (b - a)
    if c = maxArgPages - 1 then (some (-e2big), tmp', x')
    else
      match m.getZeroPage with
      | (none, m) => (some (-enomem), tmp', { x' with frames := m })
      | (some p, m) =>
          let len' := len - (b - a)
          -- the rest may begin in the next frame, when the string has filled its page
          let m' := m.memcpy p 0 (tmp' / pageSize) (tmp' % pageSize) len'
          (none, tmp', { x' with
            frames := m', argPage := update x.argPage (c + 1) (some p)
            argP := x'.argP + len' })
  else (none, tmp, { x with frames := x.frames.memcpy d a g 0 len, argP := x.argP + len })

/-- `copy_one_arg`: the error or whether the string has been counted. -/
def copyOneArg (u : UserSpace) (p : Word) (x : Args) : Option (Except ℤ Bool × Args) :=
  match getname u p x.frames with
  | (.error e, m) =>
      let r : Except ℤ Bool :=
        if e = -enoent then .ok false else if e = -enomem then .error e else .error (-efault)
      some (r, { x with frames := m })
  | (.ok (g, str), m) =>
      let r := copyString g str { x with frames := m }
      (putname g r.2.1 r.2.2).map fun x => (r.1.elim (.ok true) .error, x)

/-- The loop of `copy_args`; `fuel` bounds the rounds that are followed. -/
def copyArgsLoop (u : UserSpace) : ℕ → Word → ℕ → Args → Option (Except ℤ ℕ × Args)
  | 0, _, _, _ => none
  | fuel + 1, arg, n, x =>
      if verifyRead u arg.toNat 4 then
        if get32 u.mem arg = 0 then some (.ok n, x)
        else
          (copyOneArg u (get32 u.mem arg) x).bind fun r =>
            match r with
            | (.error e, x) => some (.error e, x)
            | (.ok counted, x) =>
                copyArgsLoop u fuel (off arg 4) (if counted then n + 1 else n) x
      else some (.error (-efault), x)

/-- `copy_args`, with the number of the strings it has counted. -/
def copyArgs (u : UserSpace) (fuel : ℕ) (arg : Word) (x : Args) : Option (Except ℤ ℕ × Args) :=
  if arg = 0 then some (.ok 0, x) else copyArgsLoop u fuel arg 0 x

/-- `prep_args`, with `argc` and `envc`. -/
def prepArgs (u : UserSpace) (fuel : ℕ) (argv envp : Word) (m : Frames) :
    Option (Except ℤ (ℕ × ℕ) × Args) :=
  match m.getZeroPage with
  | (none, m) => some (.error (-enomem), ⟨m, fun _ => none, 0, []⟩)
  | (some g, m) =>
      let x : Args := ⟨m, update (fun _ => none) 0 (some g), 0, []⟩
      (copyArgs u fuel argv x).bind fun r =>
        match r with
        | (.error e, x) => some (.error e, x)
        | (.ok argc, x) =>
            (copyArgs u fuel envp x).map fun r =>
              match r with
              | (.error e, x) => (.error e, x)
              | (.ok envc, x) => (.ok (argc, envc), x)

/-! ## The new stack -/

def getNWord (argc envc : ℕ) : ℕ := 1 + (argc + 1) + (envc + 1) + atVectorSize * 2

/-- What the argument pages hold at an offset from the first. -/
def Args.byte (x : Args) (k : ℕ) : Byte :=
  x.frames.data ((x.argPage (k / pageSize)).getD 0) (k % pageSize)

def Args.nrPage (x : Args) : ℕ := x.argP / pageSize + 1

def Args.startStack (x : Args) : ℕ := kernelBase - x.nrPage * pageSize

/-- The user memory when the argument pages and the zeroed stack page have been set. -/
def Args.image (x : Args) : Bytes := fun a =>
  if x.startStack ≤ a.toNat ∧ a.toNat < kernelBase then x.byte (a.toNat - x.startStack) else 0

/-- `while (*(pc++)) ;`. -/
def skipString (m : Bytes) : ℕ → Word → Word
  | 0, pc => pc
  | fuel + 1, pc => if m pc = 0 then off pc 1 else skipString m fuel (off pc 1)

/-- A loop of `setup_arg_pages` over `n` strings, with the word of the end behind them. -/
def pointStrings : ℕ → Word → Word → Bytes → Bytes × Word × Word
  | 0, p2, pc, m => (put32 m p2 0, off p2 4, pc)
  | n + 1, p2, pc, m =>
      let m' := put32 m p2 pc
      pointStrings n (off p2 4) (skipString m' wordSize pc) m'

/-- What `setup_aux_vector` writes. -/
def auxWords (atPhdr atPhent atPhnum : Word) : List Word :=
  [3, atPhdr, 4, atPhent, 5, atPhnum, 6, 4096]

/-- The writes of `setup_arg_pages`. -/
def writeStack (argc envc : ℕ) (aux : List Word) (startStack : Word) (m : Bytes) : Bytes :=
  let p1 := startStack - BitVec.ofNat 32 (4 * getNWord argc envc)
  let m := put32 m p1 (BitVec.ofNat 32 argc)
  let (m, p2, pc) := pointStrings argc (off p1 4) startStack m
  let (m, p2, _) := pointStrings envc p2 pc m
  putWords m p2 aux

/-- `do_mmap` of an anonymous area over `len` bytes from `addr`: `do_munmap` empties the range when
an area overlaps it. -/
def mapOver (areas : List Vma) (addr len : ℕ) (kzalloc : Bool) (m : Bytes) : Bytes :=
  if kzalloc ∧ areas.any fun v => v.vmStart < addr + len && addr < v.vmEnd then
    fun a => if addr ≤ a.toNat ∧ a.toNat < addr + len then 0 else m a
  else m

/-- `setup_arg_pages`, when nothing fails before its calls of `do_mmap`: the user memory. -/
def setupArgPages (x : Args) (argc envc : ℕ) (aux : List Word) (areas : List Vma)
    (kzalloc : Bool × Bool) : Bytes :=
  let m := writeStack argc envc aux (BitVec.ofNat 32 x.startStack) x.image
  let m := mapOver areas x.startStack (kernelBase - x.startStack) kzalloc.1 m
  mapOver areas (x.startStack - pageSize) pageSize kzalloc.2 m

/-- What the environment of a call of `execve` decides. -/
structure Environment where
  frames : Frames
  /-- `AT_PHDR`, `AT_PHENT` and `AT_PHNUM` of the program. -/
  aux : Word × Word × Word
  /-- The areas of the program's segments. -/
  areas : List Vma
  kzalloc : Bool × Bool

/-- What a new program starts with. -/
structure NewStack where
  args : Args
  argc : ℕ
  envc : ℕ
  mem : Bytes
  esp : Word

/-- `execve` from `prep_args` on, when it succeeds. -/
def execArgs (u : UserSpace) (fuel : ℕ) (argv envp : Word) (e : Environment) : Option NewStack :=
  (prepArgs u fuel argv envp e.frames).bind fun r =>
    match r with
    | (.error _, _) => none
    | (.ok (argc, envc), x) =>
        if pageSize < getNWord argc envc * 4 then none
        else some
          { args := x, argc := argc, envc := envc
            mem := setupArgPages x argc envc (auxWords e.aux.1 e.aux.2.1 e.aux.2.2) e.areas e.kzalloc
            esp := BitVec.ofNat 32 (x.startStack - 4 * getNWord argc envc) }

end Mario.Fs.Exec
