import Mario.Fs.Files
import Mario.Fs.InodeRefs

/-!
# Calls that open files and fail

`do_pipe`, `do_socketpair` and `do_openat`, each from its beginning to its end, with what they take one after
another: descriptors, files, inodes, sockets and pages. The answers of the steps inside them are arbitrary: an
allocator gives memory or none, and the file systems and devices are a parameter. A call that fails an assertion
does not return, and a call does not begin with an answer that the allocators never give.
-/

namespace Mario.Fs.OpenErrors

open Function

open Mario.Fs.Files (File FileOps FilesStruct Inode nrOpen nrFile shortSize newInode pipeInode pipeRelease)
open Mario.Fs.Namei (Name FileSys Walk Result nesting leftOver)

def ebadf : ℤ := -9

def enomem : ℤ := -12

def enfile : ℤ := -23

def emfile : ℤ := -24

def eopnotsupp : ℤ := -95

def atFdcwd : ℤ := -100

/-- `O_CLOEXEC`, by the number of its bit. -/
def oCloexec : ℕ := 19

def afUnix : BitVec 32 := 1

def sockStream : BitVec 32 := 1

/-- `SOCK_NONBLOCK | SOCK_CLOEXEC`. -/
def sockFlags : BitVec 32 := 0x800 ||| 0x80000

/-- `struct unix_socket`. What is sent over a socket is left out: the calls destroy no socket that anybody has
sent to. -/
structure Endpoint where
  opens : ℕ
  /-- The other endpoint of `pair`. -/
  peer : Option ℕ
  deriving DecidableEq

/-- The inodes and what the file systems have besides. -/
structure Inodes (τ : Type*) where
  inode : ℕ → Inode
  rest : τ
  /-- An assertion has failed. -/
  hung : Bool

/-- The state of a task and of the tables that it shares with the others. -/
structure State (τ : Type*) where
  file : ℕ → File
  inode : ℕ → Inode
  files : FilesStruct
  /-- The sockets that are allocated. -/
  endpoint : ℕ → Option Endpoint
  rest : τ
  linkCount : ℤ

/-- What the open method of a device or of a FIFO sets in the file. -/
structure Opened where
  fPos : ℕ
  fOp : FileOps
  privateData : ℕ

/-- The methods of the file systems and of the files on them; an open method returns 0 or an error. -/
structure Methods (τ : Type*) where
  fs : FileSys (Inodes τ) ℕ
  iFop : Inodes τ → ℕ → FileOps
  openOp : Inodes τ → ℕ → Option (File → Inodes τ → Inodes τ × Opened × ℤ)

/-- How a call ends; `none` when it does not. -/
abbrev Outcome (τ α : Type*) := Option (State τ × Except ℤ α)

variable {τ : Type*}

/-! ## The tables -/

def setFile (f : ℕ) (x : File) (s : State τ) : State τ := { s with file := update s.file f x }

def setInode (i : ℕ) (x : Inode) (s : State τ) : State τ := { s with inode := update s.inode i x }

def setSlot (fd f : ℕ) (s : State τ) : State τ :=
  { s with files := { s.files with fd := update s.files.fd fd (some f) } }

/-- `FD_SET` and `FD_CLR` of `close_on_exec`. -/
def setCloseOnExec (fd : ℕ) (b : Bool) (s : State τ) : State τ :=
  { s with files := { s.files with closeOnExec := update s.files.closeOnExec fd b } }

def setEndpoint (k : ℕ) (x : Option Endpoint) (s : State τ) : State τ :=
  { s with endpoint := update s.endpoint k x }

/-- `next_fd`, and the search of the other calls. -/
def nextFd (start : ℕ) (s : State τ) : Option ℕ :=
  (List.range nrOpen).find? fun fd => start ≤ fd ∧ s.files.fd fd = none

/-- The two descriptors that `do_pipe` and `do_socketpair` find. -/
def twoFds (s : State τ) : Option (ℕ × ℕ) :=
  (nextFd 0 s).bind fun fd => (nextFd (fd + 1) s).map fun fd' => (fd, fd')

/-- The file that `get_empty_file` finds. -/
def emptyFile (s : State τ) : Option ℕ := (List.range nrFile).find? fun f => (s.file f).fCount = 0

/-- The two files that `get_two_empty_files` finds. -/
def twoEmptyFiles (s : State τ) : Option (ℕ × ℕ) :=
  match (List.range nrFile).filter fun f => (s.file f).fCount = 0 with
  | f :: g :: _ => some (f, g)
  | _ => none

def iput (i : ℕ) (s : State τ) : Option (State τ) :=
  if (s.inode i).iCount = 0 then none else some (setInode i (s.inode i).put s)

/-- `release_file` after the release method. -/
def finishFile (f : ℕ) (s : State τ) : Option (State τ) :=
  let s' := setFile f { s.file f with fCount := (s.file f).fCount - 1, fInode := none } s
  match (s.file f).fInode with
  | some i => iput i s'
  | none => some s'

def putFile (f : ℕ) (s : State τ) : Option (State τ) :=
  if (s.file f).fCount = 0 then none
  else if 1 < (s.file f).fCount then
    some (setFile f { s.file f with fCount := (s.file f).fCount - 1 } s)
  else finishFile f s

/-- `get_empty_inode` with the bits of its callers; `none` when the inode is in use. -/
def getEmptyInode (i : ℕ) (x : Inode) (s : State τ) : Option (State τ) :=
  if (s.inode i).iCount = 0 then some (setInode i x s) else none

/-! ## Pipes -/

/-- The last part of `do_pipe`. -/
def pipeFiles (i f g fd fd' : ℕ) (s : State τ) : State τ :=
  setInode i (pipeInode 2)
    (setFile g { s.file g with fInode := some i, fPos := 0, fFlags := 1, fOp := .writePipe, fMode := 2 }
      (setFile f { s.file f with fInode := some i, fPos := 0, fFlags := 0, fOp := .readPipe, fMode := 1 }
        (setSlot fd' g (setSlot fd f s))))

/-- `do_pipe`, with the answers of `get_pipe_inode` and of `ring_buffer_init`. -/
def doPipe (inode : Option ℕ) (page : Bool) (s : State τ) : Outcome τ (List ℕ) :=
  match inode with
  | none => some (s, .error enfile)
  | some i =>
      (getEmptyInode i (newInode .pipe true) s).bind fun s =>
        if page = false then (iput i s).map fun s => (s, .error enomem)
        else
          let s := setInode i (pipeInode 1) s
          match twoEmptyFiles s with
          | none => (iput i s).map fun s => (s, .error enfile)
          | some (f, g) =>
              let s := setFile g (s.file g).empty (setFile f (s.file f).empty s)
              match twoFds s with
              -- the loop over the descriptors returns, so that `fail_2` is never reached
              | none => some (s, .error emfile)
              | some (fd, fd') => some (pipeFiles i f g fd fd' s, .ok [fd, fd'])

/-! ## Socket pairs -/

def socketDestroy (k : ℕ) (s : State τ) : State τ := setEndpoint k none s

/-- `socket_alloc`, with the answers of `kzalloc` and of `ring_buffer_init`. -/
def socketAlloc (answer : Option (ℕ × Bool)) (s : State τ) : Option (State τ × Option ℕ) :=
  match answer with
  | none => some (s, none)
  | some (k, page) =>
      if (s.endpoint k).isSome then none
      else
        let s := setEndpoint k (some ⟨0, none⟩) s
        if page then some (setEndpoint k (some ⟨1, none⟩) s, some k) else some (socketDestroy k s, none)

def socketRelease (k : ℕ) (s : State τ) : Option (State τ) :=
  (s.endpoint k).bind fun x =>
    if x.opens = 0 then none
    else
      let s' := setEndpoint k (some { x with opens := x.opens - 1 }) s
      match x.peer with
      | none => if x.opens = 1 then some (socketDestroy k s') else some s'
      | some p =>
          (s.endpoint p).bind fun y =>
            if x.opens = 1 ∧ y.opens = 0 then some (socketDestroy p (socketDestroy k s')) else some s'

/-- `release_file(f, 1)`. -/
def releaseFile (f : ℕ) (s : State τ) : Option (State τ) :=
  if (s.file f).fCount = 0 then none
  else if 1 < (s.file f).fCount then
    some (setFile f { s.file f with fCount := (s.file f).fCount - 1 } s)
  else
    match (s.file f).fInode with
    | none => finishFile f s
    | some i =>
        if (s.file f).fOp = .socket then (socketRelease (s.file f).privateData s).bind (finishFile f)
        else (pipeRelease (s.file f).fOp (s.inode i)).bind fun x => finishFile f (setInode i x s)

/-- `socket_install`, with the answer of `get_socket_inode`; the result is its error. -/
def socketInstall (socket : ℕ) (type : BitVec 32) (fd : ℕ) (inode : Option ℕ) (s : State τ) :
    Option (State τ × Option ℤ) :=
  match emptyFile s with
  | none => some (s, some enfile)
  | some f =>
      let s := setFile f (s.file f).empty s
      match inode with
      | none => (putFile f s).map fun s => (s, some enfile)
      | some i =>
          (getEmptyInode i (newInode .socket false) s).map fun s =>
            let s := setFile f { s.file f with
              fInode := some i, fOp := .socket, privateData := socket, fMode := 3
              fFlags := (2 ||| (type &&& sockFlags)).toNat % shortSize } s
            let s := if type.getLsbD oCloexec then setCloseOnExec fd true s else s
            (setSlot fd f s, none)

/-- Release the file of a descriptor, if it has one. -/
def releaseSlot (fd : ℕ) (s : State τ) : Option (State τ) :=
  match s.files.fd fd with
  | some f => releaseFile f s
  | none => some s

/-- The end of `do_socketpair`, after a file that could not be installed. -/
def socketUndo (a b fd fd' : ℕ) (e : ℤ) (s : State τ) : Outcome τ (List ℕ) :=
  ((releaseSlot fd s).bind (releaseSlot fd')).map fun s =>
    if (s.files.fd fd).isNone ∧ (s.files.fd fd').isNone then
      (socketDestroy b (socketDestroy a s), .error e)
    else (s, .error e)

/-- What the allocators answer in `do_socketpair`: `socket_alloc` twice, `socket_pair_alloc`, and
`get_socket_inode` twice. -/
structure PairMemory where
  first : Option (ℕ × Bool)
  second : Option (ℕ × Bool)
  pair : Bool
  inode : Option ℕ
  inode' : Option ℕ

/-- Both sockets and their pair can be allocated. -/
def PairMemory.Enough (mem : PairMemory) : Prop :=
  (∃ k, mem.first = some (k, true)) ∧ (∃ k, mem.second = some (k, true)) ∧ mem.pair = true

/-- The last part of `do_socketpair`, with the sockets. -/
def socketPair (type : BitVec 32) (mem : PairMemory) (a b fd fd' : ℕ) (s : State τ) : Outcome τ (List ℕ) :=
  let s := setEndpoint b (some ⟨1, some a⟩) (setEndpoint a (some ⟨1, some b⟩) s)
  (socketInstall a type fd mem.inode s).bind fun r =>
    match r.2 with
    | some e => socketUndo a b fd fd' e r.1
    | none =>
        (socketInstall b type fd' mem.inode' r.1).bind fun r =>
          match r.2 with
          | some e => socketUndo a b fd fd' e r.1
          | none => some (r.1, .ok [fd, fd'])

/-- The arguments that `do_socketpair` accepts. -/
def Supported (domain type protocol : BitVec 32) : Prop :=
  domain = afUnix ∧ type &&& ~~~sockFlags = sockStream ∧ protocol = 0

instance (domain type protocol : BitVec 32) : Decidable (Supported domain type protocol) :=
  inferInstanceAs (Decidable (_ ∧ _ ∧ _))

def doSocketpair (domain type protocol : BitVec 32) (mem : PairMemory) (s : State τ) : Outcome τ (List ℕ) :=
  if ¬ Supported domain type protocol then some (s, .error eopnotsupp)
  else
    match twoFds s with
    | none => some (s, .error emfile)
    | some (fd, fd') =>
        (socketAlloc mem.first s).bind fun r => (socketAlloc mem.second r.1).bind fun r' =>
          match r.2, r'.2 with
          | some a, some b =>
              if mem.pair then socketPair type mem a b fd fd' r'.1
              else some (socketDestroy b (socketDestroy a r'.1), .error enomem)
          | some a, none => some (socketDestroy a r'.1, .error enomem)
          | none, some b => some (socketDestroy b r'.1, .error enomem)
          | none, none => some (r'.1, .error enomem)

/-! ## Opening a path -/

/-- `iref`, for the file systems. -/
def Inodes.iref (i : ℕ) (s : Inodes τ) : Inodes τ :=
  { s with inode := update s.inode i { s.inode i with iCount := (s.inode i).iCount + 1 } }

/-- `iput`, for the file systems. -/
def Inodes.iput (i : ℕ) (s : Inodes τ) : Inodes τ :=
  if (s.inode i).iCount = 0 then { s with hung := true }
  else { s with inode := update s.inode i (s.inode i).put }

/-- The file systems, with the references to inodes counted in the table. -/
def Methods.counting (m : Methods τ) : FileSys (Inodes τ) ℕ :=
  { m.fs with iref := Inodes.iref, iput := Inodes.iput }

/-- The counts of the inodes. -/
def Inodes.count (s : Inodes τ) (i : ℕ) : ℤ := (s.inode i).iCount

/-- The inodes, as the file systems see them. -/
def State.inodes (s : State τ) : Inodes τ := { inode := s.inode, rest := s.rest, hung := false }

/-- Put back what the file systems have changed. -/
def State.withInodes (t : Inodes τ) (s : State τ) : State τ := { s with inode := t.inode, rest := t.rest }

/-- `get_base_inode` of a path that is not empty; `below` are the inodes of the files that the words before the
table of descriptors point to. -/
def getBaseInode (m : Methods τ) (dirfd : ℤ) (below : ℤ → Option ℕ) (s : State τ) :
    Except ℤ (State τ × Option ℕ) :=
  if dirfd = atFdcwd then .ok (s, none)
  else if nrOpen ≤ dirfd then .error ebadf
  else
    let base := if dirfd < 0 then below dirfd
      else (s.files.fd dirfd.toNat).bind fun f => (s.file f).fInode
    match base with
    | none => .error ebadf
    | some i =>
        if m.fs.mode s.inodes i ≠ .dir then .error ebadf
        else .ok (s.withInodes (s.inodes.iref i), some i)

/-- What `open_namei` begins with. -/
def State.walk (s : State τ) : Walk (Inodes τ) := { fs := s.inodes, linkCount := s.linkCount, tooDeep := false }

def openNamei (m : Methods τ) (path : Name) (flags : ℕ) (base : Option ℕ) (s : State τ) : Outcome τ ℕ :=
  match Namei.openNamei m.counting (nesting s.linkCount) path flags base s.walk with
  | none => none
  | some (st, out) =>
      if st.fs.hung then none
      else
        match out with
        | .ok i => some ({ s.withInodes st.fs with linkCount := st.linkCount }, .ok i)
        | .err e => some ({ s.withInodes st.fs with linkCount := st.linkCount }, .error e)
        | .halt => none

/-- The flags that `do_openat` passes to `open_namei`. -/
def nameiFlags (flags : ℕ) : ℕ :=
  let flags' := if (flags + 1) % 4 ≠ 0 then flags + 1 else flags
  if flags'.testBit Namei.oTrunc ∨ flags'.testBit Namei.oCreat then flags' ||| 2 else flags'

/-- `do_openat` with a file, up to `open_namei`. -/
def openStart (f flags : ℕ) (s : State τ) : State τ :=
  setFile f { (s.file f).empty with fFlags := flags % shortSize, fMode := (flags + 1) % 4 } s

/-- `do_openat` with an inode, up to the open method. -/
def setFound (m : Methods τ) (f i : ℕ) (s : State τ) : State τ :=
  setFile f { s.file f with fInode := some i, fPos := 0, fOp := m.iFop s.inodes i } s

/-- `do_openat` after `open_namei`. -/
def openFound (m : Methods τ) (fd f i : ℕ) (s : State τ) : Outcome τ (List ℕ) :=
  let s := setFound m f i s
  let opened (s : State τ) : State τ :=
    setSlot fd f (setFile f { s.file f with
      -- `O_CREAT`, `O_EXCL`, `O_NOCTTY` and `O_TRUNC`
      fFlags := (s.file f).fFlags &&& (shortSize - 1 - 0o1700) } s)
  match m.openOp s.inodes i with
  | none => some (opened s, .ok [fd])
  | some g =>
      let r := g (s.file f) s.inodes
      let s := setFile f { s.file f with
        fPos := r.2.1.fPos, fOp := r.2.1.fOp, privateData := r.2.1.privateData } (s.withInodes r.1)
      if r.2.2 = 0 then some (opened s, .ok [fd])
      else (putFile f s).map fun s => (s, .error r.2.2)

def doOpenat (m : Methods τ) (dirfd : ℤ) (below : ℤ → Option ℕ) (path : Name) (flags : ℕ) (s : State τ) :
    Outcome τ (List ℕ) :=
  match nextFd 0 s with
  | none => some (s, .error emfile)
  | some fd =>
      let s := setCloseOnExec fd (flags.testBit oCloexec) s
      match emptyFile s with
      | none => some (s, .error enfile)
      | some f =>
          let s := openStart f flags s
          match getBaseInode m dirfd below s with
          | .error e => (putFile f s).map fun s => (s, .error e)
          | .ok (s, base) =>
              (openNamei m path (nameiFlags flags) base s).bind fun r =>
                match r.2 with
                | .error e => (putFile f r.1).map fun s => (s, .error e)
                | .ok i => openFound m fd f i r.1

/-! ## The calls -/

/-- A call, with the answers of the steps inside it. -/
inductive Request
  | pipe (inode : Option ℕ) (page : Bool)
  | socketpair (domain type protocol : BitVec 32) (mem : PairMemory)
  | openat (dirfd : ℤ) (below : ℤ → Option ℕ) (path : Name) (flags : ℕ)

/-- Run a call; the result are its descriptors. -/
def run (m : Methods τ) : Request → State τ → Outcome τ (List ℕ)
  | .pipe inode page => doPipe inode page
  | .socketpair domain type protocol mem => doSocketpair domain type protocol mem
  | .openat dirfd below path flags => doOpenat m dirfd below path flags

/-- The descriptors with their bits, the counts and the sockets are as before. -/
structure Restored (s s' : State τ) : Prop where
  fd : s'.files.fd = s.files.fd
  closeOnExec : s'.files.closeOnExec = s.files.closeOnExec
  used : ∀ f, (s'.file f).fCount ≠ 0 ↔ (s.file f).fCount ≠ 0
  fCount : ∀ f, (s'.file f).fCount = (s.file f).fCount
  iCount : ∀ i, (s'.inode i).iCount = (s.inode i).iCount
  endpoint : ∀ k, (s'.endpoint k).isSome = (s.endpoint k).isSome

/-! ## When an error restores the tables -/

/-- What the open method leaves over in the counts of the inodes. -/
def openedLeft (m : Methods τ) (f : ℕ) (s : State τ) (i : ℕ) : ℕ → ℤ :=
  let s := setFound m f i s
  match m.openOp s.inodes i with
  | none => 0
  | some g => (g (s.file f) s.inodes).1.count - s.inodes.count

/-- What the methods that `do_openat` calls leave over in the counts of the inodes. -/
def openLeft (m : Methods τ) (dirfd : ℤ) (below : ℤ → Option ℕ) (path : Name) (flags f : ℕ) (s : State τ) :
    ℕ → ℤ :=
  match getBaseInode m dirfd below (openStart f flags s) with
  | .error _ => 0
  | .ok (s, base) =>
      leftOver m.counting Inodes.count (nesting s.linkCount) path (nameiFlags flags) base s.walk +
        match openNamei m path (nameiFlags flags) base s with
        | some (s, .ok i) => openedLeft m f s i
        | _ => 0

/-- The calls that restore the tables when they fail. A pipe restores them unless it has its page and its files
and finds fewer than two descriptors; a socket pair unless it has installed its first file; an open one if the
bit of its descriptor is already as its flags say and its methods leave nothing over in the counts. -/
def Undone (m : Methods τ) (s : State τ) : Request → Prop
  | .pipe inode page => ¬ (inode.isSome ∧ page = true ∧ (twoEmptyFiles s).isSome ∧ twoFds s = none)
  | .socketpair domain type protocol mem =>
      ¬ (Supported domain type protocol ∧ (twoFds s).isSome ∧ mem.Enough ∧ (emptyFile s).isSome ∧
        mem.inode.isSome)
  | .openat dirfd below path flags =>
      ∀ fd, nextFd 0 s = some fd →
        s.files.closeOnExec fd = flags.testBit oCloexec ∧
          ∀ f, emptyFile s = some f →
            openLeft m dirfd below path flags f (setCloseOnExec fd (flags.testBit oCloexec) s) = 0

theorem Restored.refl (s : State τ) : Restored s s :=
  ⟨rfl, rfl, fun _ => Iff.rfl, fun _ => rfl, fun _ => rfl, fun _ => rfl⟩

@[simp] theorem put_iCount (x : Inode) : x.put.iCount = x.iCount - 1 := by
  unfold Files.Inode.put
  split_ifs with hone hpipe
  · simp only [hone]
  · simp only [hone]
  · rfl

theorem emptyFile_free {s : State τ} {f : ℕ} (h : emptyFile s = some f) : (s.file f).fCount = 0 := by
  simpa using List.find?_some h

@[simp] theorem emptyFile_setCloseOnExec (fd : ℕ) (b : Bool) (s : State τ) :
    emptyFile (setCloseOnExec fd b s) = emptyFile s := rfl

@[simp] theorem emptyFile_setEndpoint (k : ℕ) (x : Option Endpoint) (s : State τ) :
    emptyFile (setEndpoint k x s) = emptyFile s := rfl

theorem twoEmptyFiles_congr {s t : State τ} (h : s.file = t.file) : twoEmptyFiles s = twoEmptyFiles t := by
  unfold twoEmptyFiles
  rw [h]

theorem twoFds_congr {s t : State τ} (h : s.files.fd = t.files.fd) : twoFds s = twoFds t := by
  unfold twoFds nextFd
  rw [h]

@[simp] theorem twoEmptyFiles_setInode (i : ℕ) (x : Inode) (s : State τ) :
    twoEmptyFiles (setInode i x s) = twoEmptyFiles s := twoEmptyFiles_congr rfl

@[simp] theorem twoFds_setInode (i : ℕ) (x : Inode) (s : State τ) : twoFds (setInode i x s) = twoFds s :=
  twoFds_congr rfl

@[simp] theorem twoFds_setFile (f : ℕ) (x : File) (s : State τ) : twoFds (setFile f x s) = twoFds s :=
  twoFds_congr rfl

theorem nextFd_free {s : State τ} {start fd : ℕ} (h : nextFd start s = some fd) :
    s.files.fd fd = none ∧ start ≤ fd := by
  have := List.find?_some h
  simp only [decide_eq_true_eq] at this
  exact ⟨this.2, this.1⟩

theorem twoFds_free {s : State τ} {fd fd' : ℕ} (h : twoFds s = some (fd, fd')) :
    s.files.fd fd = none ∧ s.files.fd fd' = none := by
  obtain ⟨x, hx, h⟩ := Option.bind_eq_some_iff.mp h
  obtain ⟨y, hy, heq⟩ := Option.map_eq_some_iff.mp h
  cases heq
  exact ⟨(nextFd_free hx).1, (nextFd_free hy).1⟩

/-! ### Pipes -/

theorem restored_of_iput {s s' : State τ} {i : ℕ} {x : Inode} (hfree : (s.inode i).iCount = 0)
    (hone : x.iCount = 1) (h : iput i (setInode i x s) = some s') : Restored s s' := by
  unfold iput at h
  split_ifs at h
  cases h
  refine ⟨rfl, rfl, fun _ => Iff.rfl, fun _ => rfl, fun j => ?_, fun _ => rfl⟩
  rcases eq_or_ne j i with rfl | hne
  · simp only [setInode, update_self, put_iCount, hone, hfree]
  · simp only [setInode, update_of_ne hne]

theorem doPipe_restores_iff {inode : Option ℕ} {page : Bool} {s s' : State τ} {e : ℤ}
    (h : doPipe inode page s = some (s', .error e)) :
    Restored s s' ↔ ¬ (inode.isSome ∧ page = true ∧ (twoEmptyFiles s).isSome ∧ twoFds s = none) := by
  unfold doPipe at h
  cases inode with
  | none =>
    cases h
    exact iff_of_true (Restored.refl s) fun hall => by cases hall.1
  | some i =>
    obtain ⟨s₁, hempty, h⟩ := Option.bind_eq_some_iff.mp h
    unfold getEmptyInode at hempty
    split_ifs at hempty with hfree
    cases hempty
    split_ifs at h with hpage
    · obtain ⟨t, hput, heq⟩ := Option.map_eq_some_iff.mp h
      cases heq
      refine iff_of_true (restored_of_iput hfree rfl hput) fun hall => ?_
      rw [hpage] at hall
      cases hall.2.1
    · simp only [twoEmptyFiles_setInode, twoFds_setFile, twoFds_setInode] at h
      rcases hfiles : twoEmptyFiles s with - | ⟨f, g⟩
      · rw [hfiles] at h
        obtain ⟨t, hput, heq⟩ := Option.map_eq_some_iff.mp h
        cases heq
        have hsame : setInode i (pipeInode 1) (setInode i (newInode .pipe true) s) =
            setInode i (pipeInode 1) s := by
          simp only [setInode, update_idem]
        rw [hsame] at hput
        exact iff_of_true (restored_of_iput hfree rfl hput) fun hall => by cases hall.2.2.1
      · rw [hfiles] at h
        rcases hslots : twoFds s with - | ⟨fd, fd'⟩
        · rw [hslots] at h
          cases h
          refine iff_of_false (fun hres => ?_) fun hn => hn ⟨rfl, by simpa using hpage, rfl, rfl⟩
          have hcount := hres.iCount i
          simp only [setFile, setInode, update_self, pipeInode, hfree] at hcount
          cases hcount
        · rw [hslots] at h
          cases h

/-! ### Socket pairs -/

theorem socketAlloc_none {answer : Option (ℕ × Bool)} {s s' : State τ}
    (h : socketAlloc answer s = some (s', none)) : (¬ ∃ k, answer = some (k, true)) ∧ s' = s := by
  unfold socketAlloc at h
  rcases answer with - | ⟨k, page⟩
  · cases h
    refine ⟨?_, rfl⟩
    rintro ⟨k, hk⟩
    cases hk
  · dsimp only at h
    split_ifs at h with halloc hpage <;> cases h
    refine ⟨fun ⟨k', hk⟩ => hpage (Prod.mk.inj (Option.some.inj hk)).2, ?_⟩
    have hnone : s.endpoint k = none := by simpa using halloc
    simp only [socketDestroy, setEndpoint, update_idem, ← hnone, update_eq_self]

/-- A socket that has been allocated was not allocated before. -/
theorem socketAlloc_some {answer : Option (ℕ × Bool)} {s s' : State τ} {k : ℕ}
    (h : socketAlloc answer s = some (s', some k)) :
    answer = some (k, true) ∧ s.endpoint k = none ∧ s' = setEndpoint k (some ⟨1, none⟩) s := by
  unfold socketAlloc at h
  rcases answer with - | ⟨k', page⟩
  · cases h
  · dsimp only at h
    split_ifs at h with halloc hpage <;> cases h
    refine ⟨by rw [hpage], by simpa using halloc, ?_⟩
    simp only [setEndpoint, update_idem]

theorem iput_files {s s' : State τ} {i : ℕ} (h : iput i s = some s') :
    s'.files = s.files ∧ s'.endpoint = s.endpoint ∧ s'.file = s.file := by
  unfold iput at h
  split_ifs at h
  cases h
  exact ⟨rfl, rfl, rfl⟩

theorem finishFile_files {s s' : State τ} {f : ℕ} (h : finishFile f s = some s') :
    s'.files = s.files ∧ s'.endpoint = s.endpoint := by
  unfold finishFile at h
  cases hi : (s.file f).fInode with
  | none =>
    rw [hi] at h
    cases h
    exact ⟨rfl, rfl⟩
  | some i =>
    rw [hi] at h
    obtain ⟨hfiles, hendpoint, -⟩ := iput_files h
    exact ⟨hfiles, hendpoint⟩

theorem socketRelease_files {s s' : State τ} {k : ℕ} (h : socketRelease k s = some s') : s'.files = s.files := by
  unfold socketRelease at h
  obtain ⟨x, -, h⟩ := Option.bind_eq_some_iff.mp h
  by_cases hopens : x.opens = 0
  · rw [if_pos hopens] at h
    cases h
  rw [if_neg hopens] at h
  cases hpeer : x.peer with
  | none =>
    rw [hpeer] at h
    dsimp only at h
    split_ifs at h <;> cases h <;> rfl
  | some p =>
    rw [hpeer] at h
    obtain ⟨y, -, h⟩ := Option.bind_eq_some_iff.mp h
    split_ifs at h <;> cases h <;> rfl

theorem releaseSlot_files {s s' : State τ} {fd : ℕ} (h : releaseSlot fd s = some s') : s'.files = s.files := by
  unfold releaseSlot at h
  cases hslot : s.files.fd fd with
  | none =>
    rw [hslot] at h
    cases h
    rfl
  | some f =>
    rw [hslot] at h
    dsimp only [releaseFile] at h
    by_cases hzero : (s.file f).fCount = 0
    · rw [if_pos hzero] at h
      cases h
    rw [if_neg hzero] at h
    by_cases hmany : 1 < (s.file f).fCount
    · rw [if_pos hmany] at h
      cases h
      rfl
    · rw [if_neg hmany] at h
      cases hinode : (s.file f).fInode with
      | none =>
        rw [hinode] at h
        exact (finishFile_files h).1
      | some i =>
        rw [hinode] at h
        dsimp only at h
        split_ifs at h with hop
        · obtain ⟨t, hrelease, hfinish⟩ := Option.bind_eq_some_iff.mp h
          exact (finishFile_files hfinish).1.trans (socketRelease_files hrelease)
        · obtain ⟨x, -, hfinish⟩ := Option.bind_eq_some_iff.mp h
          exact (finishFile_files hfinish).1

/-- A file that cannot be installed leaves the tables as they were. -/
theorem socketInstall_error {k fd : ℕ} {type : BitVec 32} {inode : Option ℕ} {s s' : State τ} {e : ℤ}
    (h : socketInstall k type fd inode s = some (s', some e)) :
    ¬ ((emptyFile s).isSome ∧ inode.isSome) ∧ s'.files = s.files ∧ s'.endpoint = s.endpoint ∧
      s'.inode = s.inode ∧ ∀ f, (s'.file f).fCount = (s.file f).fCount := by
  unfold socketInstall at h
  cases hfile : emptyFile s with
  | none =>
    rw [hfile] at h
    cases h
    exact ⟨fun hall => (by cases hall.1), rfl, rfl, rfl, fun _ => rfl⟩
  | some f =>
    rw [hfile] at h
    cases inode with
    | none =>
      obtain ⟨t, hput, heq⟩ := Option.map_eq_some_iff.mp h
      cases heq
      simp only [putFile, finishFile, setFile, update_self, Files.File.empty, one_ne_zero, lt_irrefl,
        if_false, Option.some.injEq] at hput
      subst hput
      refine ⟨fun hall => (by cases hall.2), rfl, rfl, rfl, fun g => ?_⟩
      rcases eq_or_ne g f with rfl | hne
      · simp only [update_self, emptyFile_free hfile]
      · simp only [update_of_ne hne]
    | some i =>
      obtain ⟨t, -, heq⟩ := Option.map_eq_some_iff.mp h
      cases heq

theorem socketInstall_ok {k fd : ℕ} {type : BitVec 32} {inode : Option ℕ} {s s' : State τ}
    (h : socketInstall k type fd inode s = some (s', none)) :
    (emptyFile s).isSome ∧ inode.isSome ∧ (s'.files.fd fd).isSome := by
  unfold socketInstall at h
  cases hfile : emptyFile s with
  | none =>
    rw [hfile] at h
    cases h
  | some f =>
    rw [hfile] at h
    cases inode with
    | none =>
      obtain ⟨t, hput, heq⟩ := Option.map_eq_some_iff.mp h
      cases heq
    | some i =>
      obtain ⟨t, -, heq⟩ := Option.map_eq_some_iff.mp h
      cases heq
      refine ⟨rfl, rfl, ?_⟩
      simp only [setSlot, update_self, Option.isSome_some]

/-- Sockets that are destroyed again leave the tables as they were. -/
theorem restored_of_destroy {s t : State τ} {a b : ℕ} (ha : s.endpoint a = none) (hb : s.endpoint b = none)
    (hfiles : t.files = s.files) (hinode : t.inode = s.inode) (hfile : ∀ f, (t.file f).fCount = (s.file f).fCount)
    (hendpoint : ∀ k, k ≠ a → k ≠ b → t.endpoint k = s.endpoint k) :
    Restored s (socketDestroy b (socketDestroy a t)) := by
  refine ⟨congrArg FilesStruct.fd hfiles, congrArg FilesStruct.closeOnExec hfiles,
    fun f => not_congr (Eq.congr (hfile f) rfl), hfile, fun i => congrArg (fun g => (g i).iCount) hinode, fun k => ?_⟩
  simp only [socketDestroy, setEndpoint]
  rcases eq_or_ne k b with rfl | hkb
  · rw [update_self, hb]
  · rw [update_of_ne hkb]
    rcases eq_or_ne k a with rfl | hka
    · rw [update_self, ha]
    · rw [update_of_ne hka, hendpoint k hka hkb]

theorem restored_of_destroyed {s t : State τ} {a : ℕ} (ha : s.endpoint a = none)
    (hfiles : t.files = s.files) (hinode : t.inode = s.inode) (hfile : ∀ f, (t.file f).fCount = (s.file f).fCount)
    (hendpoint : ∀ k, k ≠ a → t.endpoint k = s.endpoint k) : Restored s (socketDestroy a t) := by
  have hidem : socketDestroy a (socketDestroy a t) = socketDestroy a t := by
    simp only [socketDestroy, setEndpoint, update_idem]
  rw [← hidem]
  exact restored_of_destroy ha ha hfiles hinode hfile fun k hk _ => hendpoint k hk

/-- The end of a socket pair whose files are to be installed. -/
theorem socketPair_restores_iff {type : BitVec 32} {mem : PairMemory} {a b fd fd' : ℕ} {s t s' : State τ} {e : ℤ}
    (ha : s.endpoint a = none) (hb : s.endpoint b = none) (hfd : s.files.fd fd = none) (hfd' : s.files.fd fd' = none)
    (ht : t = setEndpoint b (some ⟨1, none⟩) (setEndpoint a (some ⟨1, none⟩) s))
    (h : socketPair type mem a b fd fd' t = some (s', .error e)) :
    Restored s s' ↔ ¬ ((emptyFile s).isSome ∧ mem.inode.isSome) := by
  unfold socketPair at h
  obtain ⟨⟨t₁, err⟩, hfirst, h⟩ := Option.bind_eq_some_iff.mp h
  have hempty : emptyFile (setEndpoint b (some ⟨1, some a⟩) (setEndpoint a (some ⟨1, some b⟩) t)) = emptyFile s := by
    simp only [ht, emptyFile_setEndpoint]
  cases err with
  | some e' =>
    obtain ⟨hnot, hfiles, hendpoint, hinode, hcount⟩ := socketInstall_error hfirst
    rw [hempty] at hnot
    refine iff_of_true ?_ hnot
    have hfiles' : t₁.files = s.files := by rw [hfiles, ht]; rfl
    obtain ⟨u, hrelease, heq⟩ := Option.map_eq_some_iff.mp h
    have hu : u = t₁ := by
      obtain ⟨v, hv, hv'⟩ := Option.bind_eq_some_iff.mp hrelease
      simp only [releaseSlot, hfiles', hfd, Option.some.injEq] at hv
      subst hv
      simp only [releaseSlot, hfiles', hfd', Option.some.injEq] at hv'
      exact hv'.symm
    rw [hu, hfiles', hfd, hfd'] at heq
    cases heq
    refine restored_of_destroy ha hb hfiles' ?_ (fun f => ?_) fun k hka hkb => ?_
    · rw [hinode, ht]
      rfl
    · rw [hcount, ht]
      rfl
    · rw [hendpoint, ht]
      simp only [setEndpoint, update_of_ne hka, update_of_ne hkb]
  | none =>
    obtain ⟨hsome, hinode, hslot⟩ := socketInstall_ok hfirst
    rw [hempty] at hsome
    refine iff_of_false (fun hres => ?_) fun hnot => hnot ⟨hsome, hinode⟩
    obtain ⟨⟨t₂, err'⟩, hsecond, h⟩ := Option.bind_eq_some_iff.mp h
    cases err' with
    | none => cases h
    | some e' =>
      obtain ⟨-, hfiles, -⟩ := socketInstall_error hsecond
      obtain ⟨u, hrelease, heq⟩ := Option.map_eq_some_iff.mp h
      obtain ⟨v, hv, hu⟩ := Option.bind_eq_some_iff.mp hrelease
      have hsame : u.files = t₁.files :=
        (releaseSlot_files hu).trans ((releaseSlot_files hv).trans hfiles)
      have hleft : s'.files = u.files := by
        split_ifs at heq <;> cases heq <;> rfl
      rw [← hsame, ← hleft, hres.fd, hfd] at hslot
      cases hslot

theorem doSocketpair_restores_iff {domain type protocol : BitVec 32} {mem : PairMemory} {s s' : State τ} {e : ℤ}
    (h : doSocketpair domain type protocol mem s = some (s', .error e)) :
    Restored s s' ↔
      ¬ (Supported domain type protocol ∧ (twoFds s).isSome ∧ mem.Enough ∧ (emptyFile s).isSome ∧
        mem.inode.isSome) := by
  unfold doSocketpair at h
  by_cases hsupported : ¬ Supported domain type protocol
  · rw [if_pos hsupported] at h
    cases h
    exact iff_of_true (Restored.refl s) fun hall => hsupported hall.1
  rw [if_neg hsupported] at h
  rcases hfds : twoFds s with - | ⟨fd, fd'⟩
  · rw [hfds] at h
    cases h
    exact iff_of_true (Restored.refl s) fun hall => by cases hall.2.1
  rw [hfds] at h
  obtain ⟨⟨t, a⟩, hfirst, h⟩ := Option.bind_eq_some_iff.mp h
  obtain ⟨⟨u, b⟩, hsecond, h⟩ := Option.bind_eq_some_iff.mp h
  cases a with
  | none =>
    obtain ⟨hnot, rfl⟩ := socketAlloc_none hfirst
    refine iff_of_true ?_ fun hall => hnot hall.2.2.1.1
    cases b with
    | none =>
      obtain ⟨-, rfl⟩ := socketAlloc_none hsecond
      cases h
      exact Restored.refl _
    | some b =>
      obtain ⟨-, hb, rfl⟩ := socketAlloc_some hsecond
      cases h
      refine restored_of_destroyed hb rfl rfl (fun _ => rfl) fun k hk => ?_
      exact update_of_ne hk _ _
  | some a =>
    obtain ⟨hok, ha, rfl⟩ := socketAlloc_some hfirst
    cases b with
    | none =>
      obtain ⟨hnot, rfl⟩ := socketAlloc_none hsecond
      refine iff_of_true ?_ fun hall => hnot hall.2.2.1.2.1
      cases h
      refine restored_of_destroyed ha rfl rfl (fun _ => rfl) fun k hk => ?_
      exact update_of_ne hk _ _
    | some b =>
      obtain ⟨hok', hb, rfl⟩ := socketAlloc_some hsecond
      have hne : b ≠ a := by
        rintro rfl
        simp only [setEndpoint, update_self] at hb
        cases hb
      simp only [setEndpoint, update_of_ne hne] at hb
      dsimp only at h
      by_cases hpair : mem.pair = true
      · rw [if_pos hpair] at h
        obtain ⟨hfd, hfd'⟩ := twoFds_free hfds
        rw [socketPair_restores_iff ha hb hfd hfd' rfl h]
        refine not_congr ⟨fun hall => ⟨not_not.mp hsupported, rfl, ⟨⟨a, hok⟩, ⟨b, hok'⟩, hpair⟩, hall⟩, fun hall =>
          hall.2.2.2⟩
      · rw [if_neg hpair] at h
        cases h
        refine iff_of_true (restored_of_destroy ha hb rfl rfl (fun _ => rfl) fun k hka hkb => ?_) fun hall =>
          hpair hall.2.2.1.2.2
        simp only [setEndpoint, update_of_ne hka, update_of_ne hkb]

/-! ### Opening a path -/

/-- `put_file` of a file with one reference drops the reference of the file to its inode. -/
theorem putFile_last {s s' : State τ} {f : ℕ} (hone : (s.file f).fCount = 1) (h : putFile f s = some s') :
    s'.files = s.files ∧ s'.endpoint = s.endpoint ∧
      (∀ g, (s'.file g).fCount = if g = f then 0 else (s.file g).fCount) ∧
      ∀ i, s'.inodes.count i = s.inodes.count i - Namei.baseRef (s.file f).fInode i := by
  unfold putFile finishFile at h
  rw [if_neg (by omega), if_neg (by omega)] at h
  have hfile : ∀ (x : File) (g : ℕ), x.fCount = 0 →
      (update s.file f x g).fCount = if g = f then 0 else (s.file g).fCount := by
    intro x g hx
    split_ifs with hg
    · rw [hg, update_self, hx]
    · rw [update_of_ne hg]
  cases hi : (s.file f).fInode with
  | none =>
    rw [hi] at h
    cases h
    exact ⟨rfl, rfl, fun g => hfile _ g (by simp only [hone]), fun i => (sub_zero _).symm⟩
  | some i =>
    rw [hi] at h
    dsimp only [iput] at h
    split_ifs at h with hzero
    cases h
    refine ⟨rfl, rfl, fun g => hfile _ g (by simp only [hone]), fun j => ?_⟩
    simp only [State.inodes, Inodes.count, setInode, setFile, Namei.baseRef, Namei.one] at hzero ⊢
    rcases eq_or_ne j i with rfl | hne
    · rw [update_self, put_iCount, Pi.single_eq_same]
      omega
    · rw [update_of_ne hne, Pi.single_eq_of_ne hne, sub_zero]

/-- In an open that has its descriptor and its file, and nothing else of the tables but inodes. -/
structure Opening (s : State τ) (fd f : ℕ) (b : Bool) (t : State τ) : Prop where
  free : (s.file f).fCount = 0
  files : t.files = (setCloseOnExec fd b s).files
  endpoint : t.endpoint = s.endpoint
  one : (t.file f).fCount = 1
  file : ∀ g, g ≠ f → (t.file g).fCount = (s.file g).fCount

theorem Opening.start {s : State τ} {f : ℕ} (hfile : emptyFile s = some f) (fd flags : ℕ) (b : Bool) :
    Opening s fd f b (openStart f flags (setCloseOnExec fd b s)) where
  free := emptyFile_free hfile
  files := rfl
  endpoint := rfl
  one := by
    simp only [openStart, setFile, update_self]
    rfl
  file g hg := by
    simp only [openStart, setFile, update_of_ne hg]
    rfl

theorem Opening.next {s t t' : State τ} {fd f : ℕ} {b : Bool} (h : Opening s fd f b t) (hfiles : t'.files = t.files)
    (hendpoint : t'.endpoint = t.endpoint) (hfile : ∀ g, (t'.file g).fCount = (t.file g).fCount) :
    Opening s fd f b t' where
  free := h.free
  files := hfiles.trans h.files
  endpoint := hendpoint.trans h.endpoint
  one := (hfile f).trans h.one
  file g hg := (hfile g).trans (h.file g hg)

/-- The end of an open that fails with its file: what stays is the bit of the descriptor and what the methods
have left over. -/
theorem Opening.restored_iff {s t s' : State τ} {fd f : ℕ} {b : Bool} {left : ℕ → ℤ} (h : Opening s fd f b t)
    (hcount : t.inodes.count = s.inodes.count + Namei.baseRef (t.file f).fInode + left)
    (hput : putFile f t = some s') : Restored s s' ↔ s.files.closeOnExec fd = b ∧ left = 0 := by
  obtain ⟨hfiles', hendpoint', hfile', hcount'⟩ := putFile_last h.one hput
  rw [h.files] at hfiles'
  have hsame : ∀ g, (s'.file g).fCount = (s.file g).fCount := by
    intro g
    rw [hfile']
    split_ifs with hg
    · rw [hg, h.free]
    · exact h.file g hg
  have hleft : ∀ i, s'.inodes.count i = s.inodes.count i + left i := by
    intro i
    rw [hcount', hcount]
    simp only [Pi.add_apply]
    omega
  constructor
  · intro hres
    constructor
    · have hbit := hres.closeOnExec
      rw [hfiles'] at hbit
      have := congrFun hbit fd
      simp only [setCloseOnExec, update_self] at this
      exact this.symm
    · funext i
      have hi := hleft i
      have hsame' : s'.inodes.count i = s.inodes.count i := congrArg Int.ofNat (hres.iCount i)
      simp only [Pi.zero_apply]
      omega
  · rintro ⟨hbit, rfl⟩
    refine ⟨?_, ?_, fun g => not_congr (Eq.congr (hsame g) rfl), hsame, fun i => ?_, fun k => ?_⟩
    · rw [hfiles']
      rfl
    · rw [hfiles']
      simp only [setCloseOnExec, ← hbit, update_eq_self]
    · have hi := hleft i
      simp only [State.inodes, Inodes.count, Pi.zero_apply] at hi
      omega
    · rw [hendpoint', h.endpoint]

/-- A base directory is referenced for the walk that eats it. -/
theorem getBaseInode_ok {m : Methods τ} {dirfd : ℤ} {below : ℤ → Option ℕ} {s t : State τ} {base : Option ℕ}
    (h : getBaseInode m dirfd below s = .ok (t, base)) :
    t.files = s.files ∧ t.file = s.file ∧ t.endpoint = s.endpoint ∧
      t.inodes.count = s.inodes.count + Namei.baseRef base := by
  unfold getBaseInode at h
  by_cases hcwd : dirfd = atFdcwd
  · rw [if_pos hcwd] at h
    cases h
    exact ⟨rfl, rfl, rfl, (add_zero _).symm⟩
  rw [if_neg hcwd] at h
  by_cases hlarge : nrOpen ≤ dirfd
  · rw [if_pos hlarge] at h
    cases h
  rw [if_neg hlarge] at h
  dsimp only at h
  rcases hbase : (if dirfd < 0 then below dirfd
    else (s.files.fd dirfd.toNat).bind fun f => (s.file f).fInode) with - | i
  · rw [hbase] at h
    cases h
  · rw [hbase] at h
    dsimp only at h
    split_ifs at h with hmode
    cases h
    refine ⟨rfl, rfl, rfl, ?_⟩
    funext j
    simp only [State.inodes, State.withInodes, Inodes.iref, Inodes.count, Pi.add_apply, Namei.baseRef, Namei.one]
    rcases eq_or_ne j i with rfl | hne
    · rw [update_self, Pi.single_eq_same]
      exact Nat.cast_succ _
    · rw [update_of_ne hne, Pi.single_eq_of_ne hne, add_zero]

/-- `open_namei` changes the inodes only: it eats the base directory, and its methods may leave something over. -/
theorem openNamei_spec {m : Methods τ} {path : Name} {flags : ℕ} {base : Option ℕ} {s t : State τ}
    {r : Except ℤ ℕ} (h : openNamei m path flags base s = some (t, r)) :
    t.files = s.files ∧ t.file = s.file ∧ t.endpoint = s.endpoint ∧
      t.inodes.count = s.inodes.count - Namei.baseRef base + Namei.returned r +
        leftOver m.counting Inodes.count (nesting s.linkCount) path flags base s.walk := by
  unfold openNamei at h
  rcases hwalk : Namei.openNamei m.counting (nesting s.linkCount) path flags base s.walk with - | ⟨st, out⟩
  · rw [hwalk] at h
    cases h
  · rw [hwalk] at h
    dsimp only at h
    split_ifs at h with hhung
    have hcount : out ≠ .halt → st.fs.count = s.inodes.count - Namei.baseRef base + out.given Namei.one +
        leftOver m.counting Inodes.count (nesting s.linkCount) path flags base s.walk :=
      Namei.openNamei_count hwalk
    cases out with
    | ok i =>
      cases h
      exact ⟨rfl, rfl, rfl, hcount fun heq => by cases heq⟩
    | err e =>
      cases h
      exact ⟨rfl, rfl, rfl, hcount fun heq => by cases heq⟩
    | halt => cases h

theorem openFound_error {m : Methods τ} {s t s' : State τ} {fd fd' f i : ℕ} {b : Bool} {e : ℤ} {left : ℕ → ℤ}
    (hopening : Opening s fd f b t) (hcount : t.inodes.count = s.inodes.count + Namei.one i + left)
    (h : openFound m fd' f i t = some (s', .error e)) :
    Restored s s' ↔ s.files.closeOnExec fd = b ∧ left + openedLeft m f t i = 0 := by
  unfold openFound at h
  dsimp only at h
  cases hop : m.openOp (setFound m f i t).inodes i with
  | none =>
    rw [hop] at h
    cases h
  | some g =>
    rw [hop] at h
    dsimp only at h
    split_ifs at h with hok
    · cases h
    obtain ⟨u, hput, heq⟩ := Option.map_eq_some_iff.mp h
    cases heq
    refine Opening.restored_iff ?_ ?_ hput
    · refine hopening.next rfl rfl fun k => ?_
      simp only [setFile, setFound, State.withInodes]
      rcases eq_or_ne k f with rfl | hne
      · simp only [update_self]
      · simp only [update_of_ne hne]
    · have hleft : openedLeft m f t i = (g ((setFound m f i t).file f) (setFound m f i t).inodes).1.count -
          t.inodes.count := by
        unfold openedLeft
        dsimp only
        rw [hop]
        rfl
      have hinode : ((setFound m f i t).file f).fInode = some i := by
        simp only [setFound, setFile, update_self]
      rw [hleft, hcount]
      simp only [setFile, update_self, State.withInodes, hinode, Namei.baseRef]
      funext j
      simp only [Pi.add_apply, Pi.sub_apply, State.inodes, Inodes.count]
      omega

theorem doOpenat_restores_iff {m : Methods τ} {dirfd : ℤ} {below : ℤ → Option ℕ} {path : Name} {flags : ℕ}
    {s s' : State τ} {e : ℤ} (h : doOpenat m dirfd below path flags s = some (s', .error e)) :
    Restored s s' ↔ ∀ fd, nextFd 0 s = some fd →
      s.files.closeOnExec fd = flags.testBit oCloexec ∧
        ∀ f, emptyFile s = some f →
          openLeft m dirfd below path flags f (setCloseOnExec fd (flags.testBit oCloexec) s) = 0 := by
  unfold doOpenat at h
  cases hfd : nextFd 0 s with
  | none =>
    rw [hfd] at h
    cases h
    exact iff_of_true (Restored.refl s) fun fd heq => by cases heq
  | some fd =>
    rw [hfd] at h
    simp only [Option.some.injEq, forall_eq']
    dsimp only at h
    rw [emptyFile_setCloseOnExec] at h
    cases hfile : emptyFile s with
    | none =>
      rw [hfile] at h
      cases h
      constructor
      · intro hres
        have hbit := congrFun hres.closeOnExec fd
        simp only [setCloseOnExec, update_self] at hbit
        exact ⟨hbit.symm, fun f heq => by cases heq⟩
      · intro hall
        refine ⟨rfl, ?_, fun _ => Iff.rfl, fun _ => rfl, fun _ => rfl, fun _ => rfl⟩
        simp only [setCloseOnExec, ← hall.1, update_eq_self]
    | some f =>
      rw [hfile] at h
      simp only [Option.some.injEq, forall_eq']
      have hopening := Opening.start hfile fd flags (flags.testBit oCloexec)
      dsimp only at h
      unfold openLeft
      cases hbase : getBaseInode m dirfd below (openStart f flags (setCloseOnExec fd (flags.testBit oCloexec) s)) with
      | error e' =>
        rw [hbase] at h
        obtain ⟨t, hput, heq⟩ := Option.map_eq_some_iff.mp h
        cases heq
        refine hopening.restored_iff ?_ hput
        simp only [openStart, setFile, update_self, add_zero]
        exact (add_zero _).symm
      | ok r =>
        obtain ⟨t, base⟩ := r
        rw [hbase] at h
        obtain ⟨⟨u, r⟩, hwalk, h⟩ := Option.bind_eq_some_iff.mp h
        obtain ⟨hfiles, hfile', hend, hcount⟩ := getBaseInode_ok hbase
        obtain ⟨hfiles', hfile'', hend', hcount'⟩ := openNamei_spec hwalk
        have hopening' := hopening.next (hfiles'.trans hfiles) (hend'.trans hend) fun g => by
          rw [hfile'', hfile']
        have hinode : (u.file f).fInode = none := by
          rw [hfile'', hfile']
          simp only [openStart, setFile, update_self]
          rfl
        have hstart : (openStart f flags (setCloseOnExec fd (flags.testBit oCloexec) s)).inodes.count =
          s.inodes.count := rfl
        rw [hcount, hstart] at hcount'
        dsimp only
        rw [hwalk]
        cases r with
        | error e' =>
          obtain ⟨v, hput, heq⟩ := Option.map_eq_some_iff.mp h
          cases heq
          refine hopening'.restored_iff ?_ hput
          rw [hcount', hinode]
          simp only [Namei.returned, Namei.baseRef]
          abel
        | ok i =>
          refine openFound_error hopening' ?_ h
          rw [hcount']
          simp only [Namei.returned]
          abel

/-- **A call that fails restores the tables exactly when it is one that undoes what it has done.** -/
theorem run_restores_iff {m : Methods τ} {request : Request} {s s' : State τ} {e : ℤ}
    (h : run m request s = some (s', .error e)) : Restored s s' ↔ Undone m s request := by
  cases request with
  | pipe inode page => exact doPipe_restores_iff h
  | socketpair domain type protocol mem => exact doSocketpair_restores_iff h
  | openat dirfd below path flags => exact doOpenat_restores_iff h

/-- Methods of file systems that have no files. -/
def noFiles : Methods Unit where
  fs :=
    { mode := fun _ _ => .dir, root := fun _ => 0, pwd := fun _ => 0, isMounted := fun _ _ => false
      covered := fun _ _ => none, lookupOp := fun _ _ => none, createOp := fun _ _ => none, linkOp := fun _ _ => none
      target := fun _ _ s => (s, .error Namei.enoent), iref := Inodes.iref, iput := Inodes.iput
      down := fun _ s => s, up := fun _ s => s, truncate := fun _ s => s }
  iFop _ _ := .null
  openOp _ _ := none

/-- A task with one file behind all descriptors but the first, which is free. -/
def nearlyFull : State Unit where
  file f := ⟨0, 3, 2, if f = 5 then 255 else 0, if f = 5 then some 9 else none, .plain, 0⟩
  inode i := ⟨if i = 9 then 1 else 0, .plain, false, 0, 0, 0⟩
  files := ⟨fun fd => if fd = 0 then none else some 5, fun _ => false⟩
  endpoint _ := none
  rest := ()
  linkCount := 0

/-- A pipe in that task. -/
def pipeInFull : State Unit :=
  setFile 1 (nearlyFull.file 1).empty (setFile 0 (nearlyFull.file 0).empty (setInode 0 (pipeInode 1) nearlyFull))

theorem run_pipeInFull : run noFiles (.pipe (some 0) true) nearlyFull = some (pipeInFull, .error emfile) := by
  have hfiles : twoEmptyFiles nearlyFull = some (0, 1) := by decide +kernel
  have hfds : twoFds nearlyFull = none := by decide +kernel
  have hinode : (nearlyFull.inode 0).iCount = 0 := rfl
  have hone : setInode 0 (pipeInode 1) (setInode 0 (newInode .pipe true) nearlyFull) =
      setInode 0 (pipeInode 1) nearlyFull := by
    simp only [setInode, update_idem]
  simp only [run, doPipe, getEmptyInode, hinode, if_true, Option.bind_some, Bool.true_eq_false, if_false, hone]
  simp only [twoEmptyFiles_setInode, hfiles, twoFds_setFile, twoFds_setInode, hfds]
  rfl

theorem run_restores_iff_nearlyFull :
    Restored nearlyFull pipeInFull ↔ Undone noFiles nearlyFull (.pipe (some 0) true) :=
  run_restores_iff run_pipeInFull

/-- A pipe with one free descriptor keeps its inode and both its files. -/
theorem run_not_restored :
    ¬ ∀ (τ : Type) (m : Methods τ) (request : Request) (s s' : State τ) (e : ℤ),
      run m request s = some (s', .error e) → Restored s s' := by
  intro hall
  have hcount := (hall Unit noFiles _ _ _ _ run_pipeInFull).fCount 0
  simp only [pipeInFull, setFile] at hcount
  cases hcount

end Mario.Fs.OpenErrors
