import Mario.Lib.Totals

/-!
# Pseudo-terminals

The table of pairs, with the counts of open masters and slaves and the reference count of the terminal, and
the open files that refer to a pair. A fork copies the struct files of the parent's table one after the
other and opens every copy again. A step is one section under a lock, with the code around it; what a call
still has to do after it stands in the struct file that the call has to itself. Buffers, sessions, signals
and wake ups change no count and are left out, and so are the other files of the file table.
-/

namespace Mario.Fs.PtyDriver

open Mario.Lib

def nrPtys : ℕ := 32

def nrFile : ℕ := 1024

inductive PtyState
  | free
  | allocated
deriving DecidableEq

structure Pty where
  state : PtyState := .free
  masterOpen : ℕ := 0
  slaveOpen : ℕ := 0
  slaveLocked : Bool := false
  /-- The count of `tty`. -/
  count : ℕ := 0
  hungUp : Bool := false
deriving DecidableEq

/-- How far the call is that has a struct file to itself. -/
inductive Phase
  /-- There is no such call. -/
  | idle
  /-- Before the `open` of the file's operations takes a lock. -/
  | opening
  /-- In `pty_master_open`, which has taken slot `p` and not yet the lock of the pair. -/
  | allocated (p : ℕ)
  /-- In `copy_fd`, after the struct file `g` was copied. -/
  | copying (g : ℕ)
  /-- In `release_file`, which has seen the last reference. -/
  | closing
  /-- In `pty_release`, after the section under the lock of the pair. -/
  | closed (reusable : Bool)
deriving DecidableEq

structure File where
  fCount : ℕ := 0
  /-- The pair that `private_data` points to. -/
  privateData : Option ℕ := none
  /-- `FMODE_PTY_MASTER`. -/
  master : Bool := false
  phase : Phase := .idle
deriving DecidableEq

structure State where
  ptys : ℕ → Pty
  files : ℕ → File
  /-- For every fork, the files that are still to be copied. -/
  forks : List (List ℕ)
  /-- An assertion has failed. -/
  failed : Bool

def State.setPty (s : State) (p : ℕ) (x : Pty) : State := { s with ptys := Function.update s.ptys p x }

def State.setFile (s : State) (f : ℕ) (x : File) : State := { s with files := Function.update s.files f x }

def State.fail (s : State) : State := { s with failed := true }

/-! ## Opening -/

/-- `get_empty_file` for an open. -/
def openFile (s : State) (f : ℕ) : State := s.setFile f { fCount := 1, phase := .opening }

/-- `put_file` for the only reference to a file: nothing is released. -/
def putFile (s : State) (f : ℕ) : State :=
  s.setFile f { s.files f with fCount := (s.files f).fCount - 1, phase := .idle }

/-- `pty_master_open` under `pty_lock`: the first free slot is taken. -/
def ptyMasterOpen (s : State) (f : ℕ) : State :=
  match (List.range nrPtys).find? fun p => (s.ptys p).state = .free with
  | some p => (s.setPty p { s.ptys p with state := .allocated }).setFile f { s.files f with phase := .allocated p }
  | none => putFile s f

/-- `pty_master_open` under the lock of the pair. -/
def ptyMasterInit (s : State) (f p : ℕ) : State :=
  (s.setPty p { s.ptys p with masterOpen := 1, slaveOpen := 0, slaveLocked := true, count := 1, hungUp := false }).setFile f
    { s.files f with privateData := some p, master := true, phase := .idle }

def ptyBindSlave (s : State) (f p : ℕ) : State :=
  let pty := s.ptys p
  if pty.state ≠ .allocated ∨ pty.masterOpen = 0 ∨ pty.slaveLocked then putFile s f
  else (s.setPty p { pty with slaveOpen := pty.slaveOpen + 1, count := pty.count + 1 }).setFile f
    { s.files f with privateData := some p, phase := .idle }

/-! ## Copying -/

/-- `copy_fd` up to the `open` of the copy. The struct file `g` may be any file by now. A copy without a
pair is opened like a new file. -/
def copyFd (s : State) (f g : ℕ) : State :=
  s.setFile f { s.files g with
    fCount := 1, phase := if (s.files g).privateData = none then .opening else .copying g }

def ptyDupOpen (s : State) (f p : ℕ) : State :=
  let pty := s.ptys p
  if (s.files f).master then
    if pty.state ≠ .allocated ∨ pty.masterOpen = 0 then putFile s f
    else (s.setPty p { pty with masterOpen := pty.masterOpen + 1 }).setFile f { s.files f with phase := .idle }
  else if pty.state ≠ .allocated then putFile s f
  else (s.setPty p { pty with slaveOpen := pty.slaveOpen + 1, count := pty.count + 1 }).setFile f
    { s.files f with phase := .idle }

/-! ## Closing -/

/-- `release_file` up to the release of the file's operations. -/
def releaseFile (s : State) (f : ℕ) : State :=
  if 1 < (s.files f).fCount then s.setFile f { s.files f with fCount := (s.files f).fCount - 1 }
  else s.setFile f { s.files f with phase := .closing }

/-- `pty_release` for a master under the lock of the pair. -/
def ptyReleaseMaster (s : State) (f p : ℕ) : State :=
  let pty := s.ptys p
  if pty.masterOpen = 0 then s.fail
  else
    let pty := { pty with masterOpen := pty.masterOpen - 1 }
    if pty.masterOpen = 0 then
      if pty.count = 0 then s.fail
      else (s.setPty p { pty with count := pty.count - 1, hungUp := true }).setFile f
        { s.files f with phase := .closed (pty.slaveOpen = 0) }
    else (s.setPty p pty).setFile f { s.files f with phase := .closed false }

/-- `pty_release` for a slave under the lock of the pair. -/
def ptyReleaseSlave (s : State) (f p : ℕ) : State :=
  let pty := s.ptys p
  if pty.slaveOpen = 0 then s.fail
  else
    let pty := { pty with slaveOpen := pty.slaveOpen - 1 }
    if pty.count = 0 then s.fail
    else (s.setPty p { pty with count := pty.count - 1 }).setFile f
      { s.files f with phase := .closed (pty.masterOpen = 0 ∧ pty.slaveOpen = 0) }

def ptyRelease (s : State) (f p : ℕ) : State :=
  if (s.files f).master then ptyReleaseMaster s f p else ptyReleaseSlave s f p

/-- `pty_release` under `pty_lock`. -/
def ptyFree (s : State) (f p : ℕ) : State :=
  (s.setPty p { s.ptys p with state := .free }).setFile f { s.files f with phase := .closed false }

/-! ## Steps -/

inductive Label
  | openFile (f : ℕ)
  /-- The open fails before it comes to a pair. -/
  | openFails (f : ℕ)
  | ptyMasterOpen (f : ℕ)
  | ptyMasterInit (f : ℕ)
  | ptyBindSlave (f p : ℕ)
  /-- A descriptor is duplicated, or a call takes a reference. -/
  | fref (f : ℕ)
  | releaseFile (f : ℕ)
  | ptyRelease (f : ℕ)
  | ptyFree (f : ℕ)
  /-- `release_file` after the release of the file's operations. -/
  | releaseDone (f : ℕ)
  /-- `copy_files` reads the table of the parent. -/
  | copyFiles (l : List ℕ)
  /-- Fork `k` copies its next file, or finds the file table full. -/
  | copyFd (k : ℕ) (f : Option ℕ)
  | ptyDupOpen (f : ℕ)
  /-- `TIOCSPTLCK`. -/
  | ptyLock (f : ℕ) (locked : Bool)

/-- The file is open and no call has it to itself. -/
def File.isIdle (x : File) : Bool := 0 < x.fCount ∧ x.phase = .idle

/-- The step of a call. There is none when the call is not at that point, and none after a failed
assertion. -/
def exec (s : State) : Label → Option State
  | .openFile f => if ¬ s.failed ∧ f < nrFile ∧ (s.files f).fCount = 0 then some (openFile s f) else none
  | .openFails f => if ¬ s.failed ∧ f < nrFile ∧ (s.files f).phase = .opening then some (putFile s f) else none
  | .ptyMasterOpen f =>
    if ¬ s.failed ∧ f < nrFile ∧ (s.files f).phase = .opening then some (ptyMasterOpen s f) else none
  | .ptyMasterInit f =>
    match (s.files f).phase with
    | .allocated p => if ¬ s.failed ∧ f < nrFile then some (ptyMasterInit s f p) else none
    | _ => none
  | .ptyBindSlave f p =>
    if ¬ s.failed ∧ f < nrFile ∧ p < nrPtys ∧ (s.files f).phase = .opening then some (ptyBindSlave s f p) else none
  | .fref f =>
    if ¬ s.failed ∧ f < nrFile ∧ (s.files f).isIdle then
      some (s.setFile f { s.files f with fCount := (s.files f).fCount + 1 })
    else none
  | .releaseFile f => if ¬ s.failed ∧ f < nrFile ∧ (s.files f).isIdle then some (releaseFile s f) else none
  | .ptyRelease f =>
    match (s.files f).privateData with
    | some p => if ¬ s.failed ∧ f < nrFile ∧ (s.files f).phase = .closing then some (ptyRelease s f p) else none
    | none => none
  | .ptyFree f =>
    match (s.files f).privateData with
    | some p => if ¬ s.failed ∧ f < nrFile ∧ (s.files f).phase = .closed true then some (ptyFree s f p) else none
    | none => none
  | .releaseDone f =>
    if ¬ s.failed ∧ f < nrFile ∧ (s.files f).phase = .closed false then some (putFile s f) else none
  | .copyFiles l =>
    if ¬ s.failed ∧ ∀ g ∈ l, g < nrFile ∧ (s.files g).isIdle then some { s with forks := s.forks ++ [l] } else none
  | .copyFd k f? =>
    match s.forks[k]? with
    | some (g :: l) =>
      let s' : State := { s with forks := s.forks.set k l }
      match f? with
      | none => if ¬ s.failed then some s' else none
      | some f => if ¬ s.failed ∧ f < nrFile ∧ (s.files f).fCount = 0 then some (copyFd s' f g) else none
    | _ => none
  | .ptyDupOpen f =>
    match (s.files f).phase, (s.files f).privateData with
    | .copying _, some p => if ¬ s.failed ∧ f < nrFile then some (ptyDupOpen s f p) else none
    | _, _ => none
  | .ptyLock f locked =>
    match (s.files f).privateData with
    | some p =>
      if ¬ s.failed ∧ f < nrFile ∧ (s.files f).isIdle ∧ (s.files f).master then
        some (s.setPty p { s.ptys p with slaveLocked := locked })
      else none
    | none => none

def Step (s : State) (l : Label) (s' : State) : Prop := exec s l = some s'

/-- Nothing is open. -/
def boot : State := ⟨fun _ => {}, fun _ => {}, [], false⟩

/-- The last reference to a file is not dropped while a fork has the file still to copy, or has copied it
and not yet counted the copy. -/
def Good (s : State) : Label → Prop
  | .releaseFile g => (s.files g).fCount ≤ 1 →
      (∀ l ∈ s.forks, g ∉ l) ∧ ∀ f < nrFile, (s.files f).phase ≠ .copying g
  | _ => True

instance (s : State) (l : Label) : Decidable (Good s l) :=
  match l with
  | .releaseFile g => inferInstanceAs (Decidable ((s.files g).fCount ≤ 1 →
      (∀ l ∈ s.forks, g ∉ l) ∧ ∀ f < nrFile, (s.files f).phase ≠ .copying g))
  | .openFile _ | .openFails _ | .ptyMasterOpen _ | .ptyMasterInit _ | .ptyBindSlave .. | .fref _ | .ptyRelease _
  | .ptyFree _ | .releaseDone _ | .copyFiles _ | .copyFd .. | .ptyDupOpen _ | .ptyLock .. => isTrue trivial

/-! ## What is required -/

/-- A descriptor refers to a pair through the file: the file is open, or it is a copy that is yet to be opened. -/
def File.refers (x : File) (p : ℕ) : Prop :=
  0 < x.fCount ∧ x.privateData = some p ∧ (x.phase = .idle ∨ x.phase = .closing ∨ ∃ g, x.phase = .copying g)

/-- The file is an open master or an open slave of a pair. -/
def File.opens (x : File) (p : ℕ) (master : Bool) : Bool :=
  0 < x.fCount ∧ x.privateData = some p ∧ x.master = master ∧ (x.phase = .idle ∨ x.phase = .closing)

/-- The number of open masters or slaves of a pair. -/
def openFiles (s : State) (p : ℕ) (master : Bool) : ℕ := cells nrFile fun f => (s.files f).opens p master

/-- A call that takes or frees the slot is in progress. -/
def File.usesSlot (x : File) (p : ℕ) : Bool :=
  x.phase = .allocated p ∨ x.privateData = some p ∧ x.phase = .closed true

structure Sound (s : State) : Prop where
  masters : ∀ p, (s.ptys p).masterOpen = openFiles s p true
  slaves : ∀ p, (s.ptys p).slaveOpen = openFiles s p false
  /-- The reference count of the terminal. -/
  count : ∀ p, (s.ptys p).count = (s.ptys p).slaveOpen + if (s.ptys p).masterOpen = 0 then 0 else 1
  free : ∀ p, (s.ptys p).state = .free → (s.ptys p).masterOpen = 0 ∧ (s.ptys p).slaveOpen = 0
  freed : ∀ p, (∀ f < nrFile, (s.files f).usesSlot p = false) → (s.ptys p).masterOpen = 0 → (s.ptys p).slaveOpen = 0 →
    (s.ptys p).state = .free
  /-- A slot that a master has just taken is referred to by no other file. -/
  taken : ∀ f < nrFile, ∀ p, (s.files f).phase = .allocated p → ∀ g < nrFile, ¬ (s.files g).refers p
  asserted : s.failed = false

end Mario.Fs.PtyDriver
