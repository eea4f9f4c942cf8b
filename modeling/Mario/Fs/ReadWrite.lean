import Mario.Mm.VerifyArea
import Mathlib.Algebra.GroupWithZero.Nat

/-!
# Reading and writing vectors of buffers

`sys_read`, `sys_write`, `sys_readv` and `sys_writev` of `fs/read_write.c`. A kind of file is what its method
does with any list of user addresses, in the order in which bytes go to them or come from them; the state
holds the file, its position, user memory and whatever else the method works on. The entries of a vector are
the values that the loop finds, each read once from user memory.
-/

namespace Mario.Fs.ReadWrite

open Mario.Mm Mario.Paging

def nrOpen : ℕ := 256

/-- `-EBADF`, `-EFAULT` and `-EINVAL`. -/
def ebadf : ℤ := -9

def efault : ℤ := -14

def einval : ℤ := -22

/-- The value of an `int` that an addition leaves. -/
def toInt (n : ℤ) : ℤ := n.bmod 4294967296

/-- `f_op->read` or `f_op->write`: a negative answer is an error, and another one the number of bytes that have
been moved, from the first address on. -/
structure Method (σ : Type*) where
  call : σ → List ℕ → σ × ℤ
  call_le : ∀ s addrs, (call s addrs).2 ≤ addrs.length
  call_lt : ∀ s addrs, (call s addrs).2 < 2147483648

/-- The two methods of `struct file_operations`. -/
structure FileOps (σ : Type*) where
  read : Option (Method σ)
  write : Option (Method σ)

/-- `struct file`, as far as these calls look at it. -/
structure File (σ : Type*) where
  fInode : Option ℕ
  fMode : ℕ
  fOp : Option (FileOps σ)

/-- The current task: its descriptors, its segment registers, and its areas in each state. -/
structure Task (σ : Type*) where
  fd : ℕ → Option (File σ)
  kernel : Kernel
  ds : ℕ
  fs : ℕ
  areas : σ → List Vma

structure Iovec where
  iovBase : ℕ
  iovLen : ℕ

/-- The addresses of the bytes of a buffer. -/
def Iovec.addrs (b : Iovec) : List ℕ := List.range' b.iovBase b.iovLen

/-- Of the two families of calls, the one that is meant. -/
inductive Direction
  | read
  | write

/-- The test of `f_mode`. -/
def Direction.permitted (d : Direction) (fMode : ℕ) : Bool :=
  match d with
  | read => fMode.testBit 0
  | write => fMode.testBit 1

/-- What `verify_area` has to check. -/
def Direction.accessType (d : Direction) : AccessType :=
  match d with
  | read => .verifyWrite
  | write => .verifyRead

variable {σ : Type*}

/-- The method that is called. -/
def Direction.method (d : Direction) (fOp : Option (FileOps σ)) : Option (Method σ) :=
  match d with
  | read => fOp.bind FileOps.read
  | write => fOp.bind FileOps.write

/-- The checks of the descriptor, which all the calls begin with. -/
def checkFile (d : Direction) (current : Task σ) (fd : ℕ) : Except ℤ (Method σ) :=
  if nrOpen ≤ fd then .error ebadf
  else
    match current.fd fd with
    | none => .error ebadf
    | some f =>
        if f.fInode.isNone then .error ebadf
        else if !d.permitted f.fMode then .error ebadf
        else
          match d.method f.fOp with
          | none => .error einval
          | some m => .ok m

/-- `verify_area` accepts a buffer. -/
def allowed (d : Direction) (current : Task σ) (s : σ) (b : Iovec) : Bool :=
  verifyArea current.kernel current.ds current.fs (current.areas s) d.accessType b.iovBase b.iovLen

/-- What `sys_read` and `sys_write` have in common. -/
def sysTransfer (d : Direction) (current : Task σ) (fd : ℕ) (b : Iovec) (s : σ) : σ × ℤ :=
  match checkFile d current fd with
  | .error e => (s, e)
  | .ok m =>
      if b.iovLen = 0 then (s, 0)
      else if !allowed d current s b then (s, efault)
      else m.call s b.addrs

/-- The loop of `sys_readv` and `sys_writev`. -/
def transferLoop (d : Direction) (current : Task σ) (m : Method σ) :
    σ → ℤ → List Iovec → σ × ℤ
  | s, total, [] => (s, total)
  | s, total, b :: vec =>
      if b.iovBase = 0 ∨ b.iovLen = 0 then transferLoop d current m s total vec
      else if !allowed d current s b then (s, efault)
      else
        let r := m.call s b.addrs
        if r.2 < 0 then r else transferLoop d current m r.1 (toInt (total + r.2)) vec

/-- What `sys_readv` and `sys_writev` have in common. -/
def sysTransferv (d : Direction) (current : Task σ) (fd : ℕ) (vec : List Iovec) (s : σ) : σ × ℤ :=
  match checkFile d current fd with
  | .error e => (s, e)
  | .ok m => if vec.length = 0 then (s, 0) else transferLoop d current m s 0 vec

def sysRead (current : Task σ) (fd : ℕ) (b : Iovec) (s : σ) : σ × ℤ :=
  sysTransfer .read current fd b s

def sysWrite (current : Task σ) (fd : ℕ) (b : Iovec) (s : σ) : σ × ℤ :=
  sysTransfer .write current fd b s

def sysReadv (current : Task σ) (fd : ℕ) (vec : List Iovec) (s : σ) : σ × ℤ :=
  sysTransferv .read current fd vec s

def sysWritev (current : Task σ) (fd : ℕ) (vec : List Iovec) (s : σ) : σ × ℤ :=
  sysTransferv .write current fd vec s

/-! ## The concatenation of the buffers -/

/-- The number of bytes of the buffers. -/
def size (vec : List Iovec) : ℕ := (vec.map Iovec.iovLen).sum

@[simp] theorem size_nil : size [] = 0 := rfl

/-- One call of `sys_read` or `sys_write` whose buffer is the concatenation of the buffers. -/
def sysTransferAll (d : Direction) (current : Task σ) (fd : ℕ) (vec : List Iovec) (s : σ) : σ × ℤ :=
  match checkFile d current fd with
  | .error e => (s, e)
  | .ok m =>
      if size vec = 0 then (s, 0)
      else if !vec.all fun b => b.iovLen = 0 || allowed d current s b then (s, efault)
      else m.call s (vec.flatMap Iovec.addrs)

/-! ## The calls of the method -/

/-- One call of the method: the size of the buffer and the answer. -/
structure Call where
  asked : ℕ
  answer : ℤ

/-- The calls of the method that the loop makes. -/
def calls (d : Direction) (current : Task σ) (m : Method σ) : σ → List Iovec → List Call
  | _, [] => []
  | s, b :: vec =>
      if b.iovBase = 0 ∨ b.iovLen = 0 then calls d current m s vec
      else if !allowed d current s b then []
      else
        let r := m.call s b.addrs
        ⟨b.iovLen, r.2⟩ :: if r.2 < 0 then [] else calls d current m r.1 vec

/-- After bytes have been moved no buffer is refused and no call fails, after a short call nothing is moved, and
the number of bytes fits into an `int`. The arguments are the number of the bytes so far and whether a call has
been short. -/
def Clean (d : Direction) (current : Task σ) (m : Method σ) : σ → ℕ → Bool → List Iovec → Prop
  | _, moved, _, [] => moved < 2147483648
  | s, moved, short, b :: vec =>
      if b.iovBase = 0 ∨ b.iovLen = 0 then Clean d current m s moved short vec
      else if !allowed d current s b ∨ (m.call s b.addrs).2 < 0 then moved = 0
      else (short = true → (m.call s b.addrs).2 = 0) ∧
        Clean d current m (m.call s b.addrs).1 (moved + (m.call s b.addrs).2.toNat)
          (short || decide ((m.call s b.addrs).2 < b.iovLen)) vec

variable {d : Direction} {current : Task σ} {m : Method σ}

theorem size_lt (fd : ℕ) (vec : List Iovec) (s : σ)
    (h : (sysTransferAll d current fd vec s).2 = size vec) : size vec < 2147483648 := by
  unfold sysTransferAll at h
  cases hcheck : checkFile d current fd with
  | error e =>
    rw [hcheck] at h
    have hneg : e < 0 := by
      unfold checkFile at hcheck
      repeat' split at hcheck
      all_goals first
        | (cases hcheck; done)
        | (obtain rfl := Except.error.inj hcheck; decide)
    simp only at h
    omega
  | ok m =>
    rw [hcheck] at h
    simp only at h
    split_ifs at h with hsize hall
    · omega
    · simp only [efault] at h
      omega
    · have := m.call_lt s (vec.flatMap Iovec.addrs)
      omega

end Mario.Fs.ReadWrite
