import Mario.Fs.RingBuffer
import Mario.Lib.Runs
import Mathlib.Data.List.Count

/-!
# A pipe and its readers and writers

Any number of tasks open a FIFO, read and write it, hand copies of their files to children and close
them; an anonymous pipe is one whose two ends are open from the start. A step is a critical section of the lock of the pipe, or what a task
does without the lock. The runs are those of one pipe, up to the last `iput` of its inode. The
bytes that writes have accepted and those that reads have returned, in the order of the critical
sections, are not in the source.
-/

namespace Mario.Fs.Pipe

open Mario.Lib Function

variable {α : Type*}

/-- Which ends a file has; the methods of the file follow it. -/
inductive Mode
  | read
  | write
  | readWrite
  deriving DecidableEq

/-- The mode that `fifo_open` finds in `f_mode`. -/
def modeOf (fMode : ℕ) : Mode :=
  if fMode &&& 1 ≠ 0 ∧ fMode &&& 2 ≠ 0 then .readWrite else if fMode &&& 1 ≠ 0 then .read else .write

def Mode.reads : Mode → Bool
  | .read | .readWrite => true
  | .write => false

def Mode.writes : Mode → Bool
  | .write | .readWrite => true
  | .read => false

/-- A file on the pipe. -/
structure File where
  id : ℕ
  mode : Mode
  /-- The open is over. -/
  opened : Bool
  deriving DecidableEq

inductive Pc (α : Type*)
  | user
  /-- In `fifo_open`, before the test of `I_Pipe`. -/
  | opening (mode : Mode) (nonblock : Bool)
  /-- In `fifo_open`, before `init_pipe_inode_info`. -/
  | initialising (mode : Mode) (nonblock : Bool)
  /-- In `fifo_open`, before the lock. -/
  | linking (mode : Mode) (nonblock : Bool)
  /-- In `fifo_open`: in `sleep_on`. -/
  | waiting (id : ℕ) (mode : Mode)
  /-- In `fifo_open`, before the second lock. -/
  | waited (id : ℕ) (mode : Mode)
  /-- In `pipe_read`, before the test for signals. -/
  | reading (count : ℕ) (nonblock : Bool)
  /-- In `pipe_read`, before the lock. -/
  | readLocking (count : ℕ) (nonblock : Bool)
  /-- In `pipe_read`: in `sleep_on`. -/
  | readAsleep (count : ℕ) (nonblock : Bool)
  /-- In `pipe_write`, before the test for signals. -/
  | writing (src : List α) (nonblock : Bool)
  /-- In `pipe_write`, before the lock. -/
  | writeLocking (src : List α) (nonblock : Bool)
  /-- In `pipe_write`: in `sleep_on`. -/
  | writeAsleep (src : List α) (nonblock : Bool)

/-- `struct pipe_inode_info`, its files and the tasks. -/
structure State (α : Type*) where
  /-- `I_Pipe`. -/
  isPipe : Bool
  rb : RingBuffer α
  nReader : ℕ
  nWriter : ℕ
  waitRead : List ℕ
  waitWrite : List ℕ
  files : List File
  pc : ℕ → Pc α
  /-- The state of the task is `TASK_INTERRUPTIBLE`. -/
  asleep : ℕ → Bool
  /-- The task has a signal that it does not block. -/
  pending : ℕ → Bool
  accepted : List α
  returned : List α

def setPc (t : ℕ) (pc : Pc α) (s : State α) : State α := { s with pc := update s.pc t pc }

/-- `wake_up_interruptible` of `wait_read`. -/
def wakeRead (s : State α) : State α := { s with asleep := fun t => s.asleep t && t ∉ s.waitRead }

/-- `wake_up_interruptible` of `wait_write`. -/
def wakeWrite (s : State α) : State α := { s with asleep := fun t => s.asleep t && t ∉ s.waitWrite }

/-- `sleep_on` of `wait_read`, up to `schedule`. -/
def sleepRead (t : ℕ) (pc : Pc α) (s : State α) : State α :=
  setPc t pc { s with
    asleep := update s.asleep t true, waitRead := s.waitRead ++ [t] }

/-- `sleep_on` of `wait_write`, up to `schedule`. -/
def sleepWrite (t : ℕ) (pc : Pc α) (s : State α) : State α :=
  setPc t pc { s with
    asleep := update s.asleep t true, waitWrite := s.waitWrite ++ [t] }

/-- A signal comes. -/
def signal (t : ℕ) (s : State α) : State α :=
  { s with pending := update s.pending t true, asleep := update s.asleep t false }

/-- The critical section of `pipe_read`, with what it returns if it does not sleep. -/
def pipeRead (t count : ℕ) (nonblock : Bool) (s : State α) : Option ℤ × State α :=
  if s.rb.empty then
    if s.nWriter = 0 then (some 0, setPc t .user s)
    else if nonblock then (some (-11), setPc t .user s)
    else (none, sleepRead t (.readAsleep count nonblock) s)
  else
    let r := s.rb.read count
    (some r.1.length, setPc t .user
      (wakeWrite { s with rb := r.2, returned := s.returned ++ r.1 }))

/-- The critical section of `pipe_write`, with what it returns if it does not sleep. -/
def pipeWrite (t : ℕ) (src : List α) (nonblock : Bool) (s : State α) : Option ℤ × State α :=
  if s.nReader = 0 then (some (-32), setPc t .user (signal t s))
  else if s.rb.full then
    if nonblock then (some (-11), setPc t .user s)
    else (none, sleepWrite t (.writeAsleep src nonblock) s)
  else
    let r := s.rb.write src
    (some r.1, setPc t .user
      (wakeRead { s with rb := r.2, accepted := s.accepted ++ src.take r.1 }))

/-- The first critical section of `fifo_open`. -/
def fifoOpen (t id : ℕ) (mode : Mode) (nonblock : Bool) (s : State α) : State α :=
  match mode with
  | .readWrite =>
      setPc t .user (wakeWrite (wakeRead { s with
        nReader := s.nReader + 1, nWriter := s.nWriter + 1, files := ⟨id, mode, true⟩ :: s.files }))
  | .read =>
      let s' := wakeWrite { s with nReader := s.nReader + 1 }
      if s'.nWriter = 0 ∧ !nonblock then
        sleepRead t (.waiting id mode) { s' with files := ⟨id, mode, false⟩ :: s.files }
      else setPc t .user { s' with files := ⟨id, mode, true⟩ :: s.files }
  | .write =>
      let s' := wakeRead { s with nWriter := s.nWriter + 1 }
      if s'.nReader = 0 then
        if nonblock then setPc t .user { s' with nWriter := s'.nWriter - 1 }
        else sleepWrite t (.waiting id mode) { s' with files := ⟨id, mode, false⟩ :: s.files }
      else setPc t .user { s' with files := ⟨id, mode, true⟩ :: s.files }

/-- The second critical section of `fifo_open`; one that is interrupted closes the file. -/
def fifoOpened (t id : ℕ) (mode : Mode) (s : State α) : State α :=
  let file : File := ⟨id, mode, false⟩
  if s.pending t then
    setPc t .user (match mode with
      | .write => wakeRead { s with nWriter := s.nWriter - 1, files := s.files.erase file }
      | _ => wakeWrite { s with nReader := s.nReader - 1, files := s.files.erase file })
  else setPc t .user { s with files := ⟨id, mode, true⟩ :: s.files.erase file }

/-- `pipe_read_release`, `pipe_write_release` and `fifo_rdwr_release`; nothing when an assertion
fails. -/
def release (file : File) (s : State α) : Option (State α) :=
  let files := s.files.erase file
  match file.mode with
  | .read =>
      if 0 < s.nReader then some (wakeWrite { s with nReader := s.nReader - 1, files := files })
      else none
  | .write =>
      if 0 < s.nWriter then some (wakeRead { s with nWriter := s.nWriter - 1, files := files })
      else none
  | .readWrite =>
      some (wakeWrite (wakeRead { s with
        nReader := s.nReader - 1, nWriter := s.nWriter - 1, files := files }))

/-- A file is opened, or `copy_fd` counts the ends of a copy. -/
def withFile (file : File) (s : State α) : State α :=
  { s with
    nReader := s.nReader + file.mode.reads.toNat, nWriter := s.nWriter + file.mode.writes.toNat
    files := file :: s.files }

inductive Label (α : Type*)
  | open (t fMode : ℕ) (nonblock : Bool)
  | checkPipe (t : ℕ)
  /-- `init_pipe_inode_info`, when there is a page. -/
  | initPipe (t : ℕ) (page : Option (ℕ → α))
  | fifoOpen (t id : ℕ)
  /-- `sleep_on` returns. -/
  | wokenOpen (t : ℕ)
  | fifoOpened (t : ℕ)
  | read (t : ℕ) (file : File) (count : ℕ) (nonblock : Bool)
  | readSignal (t : ℕ)
  | pipeRead (t : ℕ)
  | wokenRead (t : ℕ)
  | write (t : ℕ) (file : File) (src : List α) (nonblock : Bool)
  | writeSignal (t : ℕ)
  | pipeWrite (t : ℕ)
  | wokenWrite (t : ℕ)
  | close (file : File)
  /-- `fork` copies a file. -/
  | copyFd (file : File) (id : ℕ)
  | signal (t : ℕ)
  /-- The task has handled its signals. -/
  | handled (t : ℕ)

/-- The next state. `sys_read` and `sys_write` do not pass on a count of 0. -/
def exec (s : State α) : Label α → Option (State α)
  | .open t fMode nonblock =>
      match s.pc t with
      | .user => some (setPc t (.opening (modeOf fMode) nonblock) s)
      | _ => none
  | .checkPipe t =>
      match s.pc t with
      | .opening mode nonblock =>
          some (setPc t (if s.isPipe then .linking mode nonblock else .initialising mode nonblock) s)
      | _ => none
  | .initPipe t page =>
      match s.pc t, page with
      | .initialising mode nonblock, some page =>
          some (setPc t (.linking mode nonblock) { s with
            isPipe := true, rb := RingBuffer.init page, nReader := 0, nWriter := 0, waitRead := []
            waitWrite := [] })
      | .initialising _ _, none => some (setPc t .user s)
      | _, _ => none
  | .fifoOpen t id =>
      match s.pc t with
      | .linking mode nonblock =>
          if s.files.all fun file => file.id ≠ id then some (fifoOpen t id mode nonblock s) else none
      | _ => none
  | .wokenOpen t =>
      match s.pc t with
      | .waiting id mode =>
          if s.asleep t then none
          else some (setPc t (.waited id mode) { s with
            waitRead := s.waitRead.erase t, waitWrite := s.waitWrite.erase t })
      | _ => none
  | .fifoOpened t =>
      match s.pc t with
      | .waited id mode => some (fifoOpened t id mode s)
      | _ => none
  | .read t file count nonblock =>
      match s.pc t with
      | .user =>
          if file ∈ s.files ∧ file.opened ∧ file.mode.reads ∧ 0 < count then
            some (setPc t (.reading count nonblock) s)
          else none
      | _ => none
  | .readSignal t =>
      match s.pc t with
      | .reading count nonblock =>
          some (setPc t (if s.pending t then .user else .readLocking count nonblock) s)
      | _ => none
  | .pipeRead t =>
      match s.pc t with
      | .readLocking count nonblock => some (pipeRead t count nonblock s).2
      | _ => none
  | .wokenRead t =>
      match s.pc t with
      | .readAsleep count nonblock =>
          if s.asleep t then none
          else some (setPc t (.reading count nonblock) { s with waitRead := s.waitRead.erase t })
      | _ => none
  | .write t file src nonblock =>
      match s.pc t with
      | .user =>
          if file ∈ s.files ∧ file.opened ∧ file.mode.writes ∧ 0 < src.length then
            some (setPc t (.writing src nonblock) s)
          else none
      | _ => none
  | .writeSignal t =>
      match s.pc t with
      | .writing src nonblock =>
          some (setPc t (if s.pending t then .user else .writeLocking src nonblock) s)
      | _ => none
  | .pipeWrite t =>
      match s.pc t with
      | .writeLocking src nonblock => some (pipeWrite t src nonblock s).2
      | _ => none
  | .wokenWrite t =>
      match s.pc t with
      | .writeAsleep src nonblock =>
          if s.asleep t then none
          else some (setPc t (.writing src nonblock) { s with waitWrite := s.waitWrite.erase t })
      | _ => none
  | .close file => if file ∈ s.files ∧ file.opened then release file s else none
  | .copyFd file id =>
      if file ∈ s.files ∧ file.opened ∧ s.files.all fun other => other.id ≠ id then
        some (withFile ⟨id, file.mode, true⟩ s)
      else none
  | .signal t => some (signal t s)
  | .handled t =>
      match s.pc t with
      | .user => some { s with pending := update s.pending t false }
      | _ => none

def Step (s : State α) (a : Label α) (s' : State α) : Prop := exec s a = some s'

/-- Nobody has opened the FIFO, or `do_pipe` has just made a pipe. -/
structure Initial (s : State α) : Prop where
  start : s.isPipe = false ∧ s.files = [] ∧ s.nReader = 0 ∧ s.nWriter = 0 ∧ s.rb.data = none ∨
    s.isPipe = true ∧ s.files = [⟨0, .read, true⟩, ⟨1, .write, true⟩] ∧ s.nReader = 1 ∧
      s.nWriter = 1 ∧ ∃ page, s.rb = RingBuffer.init page
  pc : ∀ t, s.pc t = .user
  accepted : s.accepted = []
  returned : s.returned = []

/-- A task sets up the pipe only if no other task has done it. -/
def Good (s : State α) : Label α → Prop
  | .initPipe _ _ => s.isPipe = false
  | _ => True

instance (s : State α) (a : Label α) : Decidable (Good s a) := by
  cases a <;> unfold Good <;> infer_instance

/-- Some file has a writer end. -/
def HasWriter (s : State α) : Prop := ∃ file ∈ s.files, file.mode.writes = true

/-- Some file has a reader end. -/
def HasReader (s : State α) : Prop := ∃ file ∈ s.files, file.mode.reads = true

/-- The pipe is a queue, and nobody sleeps who need not. -/
structure Queue (s : State α) : Prop where
  stream : s.accepted = s.returned ++ s.rb.contents
  eof : ∀ t count nonblock, s.pc t = .readLocking count nonblock →
    (pipeRead t count nonblock s).1 = some 0 → s.rb.contents = [] ∧ ¬ HasWriter s
  reader : ∀ t count nonblock, s.pc t = .readAsleep count nonblock → s.asleep t = true →
    s.rb.contents = [] ∧ HasWriter s
  writer : ∀ t src nonblock, s.pc t = .writeAsleep src nonblock → s.asleep t = true →
    RingBuffer.pageSize ≤ s.rb.contents.length ∧ HasReader s

/-! ## The invariant -/

/-- The task is in a part of the code that needs the pipe. -/
def inside : Pc α → Bool
  | .user | .opening _ _ | .initialising _ _ => false
  | _ => true

/-- The file that a task in `fifo_open` has. -/
def openerOf : Pc α → Option File
  | .waiting id mode | .waited id mode => some ⟨id, mode, false⟩
  | _ => none

/-- How much a task wants to read. -/
def countOf : Pc α → Option ℕ
  | .reading count _ | .readLocking count _ | .readAsleep count _ => some count
  | _ => none

/-- The readers that sleep have nothing to do. -/
def ReadersOk (s : State α) : Prop :=
  ∀ t count nonblock, s.pc t = .readAsleep count nonblock → s.asleep t = true →
    t ∈ s.waitRead ∧ s.rb.empty = true ∧ s.nWriter ≠ 0

/-- The writers that sleep have nothing to do. -/
def WritersOk (s : State α) : Prop :=
  ∀ t src nonblock, s.pc t = .writeAsleep src nonblock → s.asleep t = true →
    t ∈ s.waitWrite ∧ s.rb.full = true ∧ s.nReader ≠ 0

/-- The files and the counts of a pipe. -/
structure Ends (s : State α) : Prop where
  nReader : s.nReader = s.files.countP fun file => file.mode.reads
  nWriter : s.nWriter = s.files.countP fun file => file.mode.writes
  nodup : (s.files.map File.id).Nodup
  opener : ∀ t file, openerOf (s.pc t) = some file → file ∈ s.files ∧ file.mode ≠ .readWrite
  apart : ∀ t u file, openerOf (s.pc t) = some file → openerOf (s.pc u) = some file → t = u

/-- The pipe, its ends and its tasks. -/
structure Inv (s : State α) : Prop where
  made : s.isPipe = true → s.rb.WellFormed ∧ s.rb.size = RingBuffer.pageSize
  unmade : s.isPipe = false → s.files = [] ∧ s.rb.contents = []
  inside : ∀ t, inside (s.pc t) = true → s.isPipe = true
  count : ∀ t count, countOf (s.pc t) = some count → 0 < count
  stream : s.accepted = s.returned ++ s.rb.contents
  ends : Ends s
  readers : ReadersOk s
  writers : WritersOk s

variable {s s' : State α} {t fid : ℕ} {mode : Mode} {pc : Pc α}

/-- Sleeping readers that stay asleep are still right to do so. -/
theorem ReadersOk.mono (h : ReadersOk s)
    (hpc : ∀ u count nonblock, s'.pc u = .readAsleep count nonblock → s'.asleep u = true →
      s.pc u = .readAsleep count nonblock ∧ s.asleep u = true ∧ (u ∈ s.waitRead → u ∈ s'.waitRead))
    (hempty : s.rb.empty = true → s'.rb.empty = true) (hwriter : s.nWriter ≠ 0 → s'.nWriter ≠ 0) : ReadersOk s' := by
  intro u count nonblock hu hsleep
  obtain ⟨hpc', hsleep', hwait⟩ := hpc u count nonblock hu hsleep
  obtain ⟨hmem, hrb, hn⟩ := h u count nonblock hpc' hsleep'
  exact ⟨hwait hmem, hempty hrb, hwriter hn⟩

/-- A writer that sleeps has reason to as long as the buffer stays full and it stays in the queue. -/
theorem WritersOk.mono (h : WritersOk s)
    (hpc : ∀ u src nonblock, s'.pc u = .writeAsleep src nonblock → s'.asleep u = true →
      s.pc u = .writeAsleep src nonblock ∧ s.asleep u = true ∧ (u ∈ s.waitWrite → u ∈ s'.waitWrite))
    (hfull : s.rb.full = true → s'.rb.full = true) (hreader : s.nReader ≠ 0 → s'.nReader ≠ 0) : WritersOk s' := by
  intro u src nonblock hu hsleep
  obtain ⟨hpc', hsleep', hwait⟩ := hpc u src nonblock hu hsleep
  obtain ⟨hmem, hrb, hn⟩ := h u src nonblock hpc' hsleep'
  exact ⟨hwait hmem, hfull hrb, hreader hn⟩

/-- A wake-up of the whole queue leaves no reader asleep that is in it, so none at all. -/
theorem ReadersOk.woken (h : ReadersOk s)
    (hpc : ∀ u count nonblock, s'.pc u = .readAsleep count nonblock → s'.asleep u = true →
      s.pc u = .readAsleep count nonblock ∧ s.asleep u = true ∧ u ∉ s.waitRead) : ReadersOk s' := by
  intro u count nonblock hu hsleep
  obtain ⟨hpc', hsleep', hwait⟩ := hpc u count nonblock hu hsleep
  exact absurd (h u count nonblock hpc' hsleep').1 hwait

/-- The same for the writers. -/
theorem WritersOk.woken (h : WritersOk s)
    (hpc : ∀ u src nonblock, s'.pc u = .writeAsleep src nonblock → s'.asleep u = true →
      s.pc u = .writeAsleep src nonblock ∧ s.asleep u = true ∧ u ∉ s.waitWrite) : WritersOk s' := by
  intro u src nonblock hu hsleep
  obtain ⟨hpc', hsleep', hwait⟩ := hpc u src nonblock hu hsleep
  exact absurd (h u src nonblock hpc' hsleep').1 hwait

theorem setPc_pc (t : ℕ) (pc : Pc α) (s : State α) (u : ℕ) :
    (setPc t pc s).pc u = if u = t then pc else s.pc u := update_apply ..

/-- A task that opens no other end leaves the ends as they are. -/
theorem Ends.setPc (h : Ends s) (hopener : openerOf pc = none ∨ openerOf pc = openerOf (s.pc t)) :
    Ends (setPc t pc s) := by
  have hold : ∀ u file, openerOf ((Pipe.setPc t pc s).pc u) = some file →
      openerOf (s.pc u) = some file := by
    intro u file hu
    rw [setPc_pc] at hu
    split_ifs at hu with hut
    · rw [hut]
      rcases hopener with hnone | hsame
      · rw [hnone] at hu
        cases hu
      · rw [← hsame]
        exact hu
    · exact hu
  refine ⟨h.nReader, h.nWriter, h.nodup, ?_, ?_⟩
  · exact fun u file hu => h.opener u file (hold u file hu)
  · exact fun u v file hu hv => h.apart u v file (hold u file hu) (hold v file hv)

/-- A task may go on to any place where it does not sleep and opens no other end. -/
theorem Inv.go (h : Inv s) (hopener : openerOf pc = none ∨ openerOf pc = openerOf (s.pc t))
    (hinside : Pipe.inside pc = true → s.isPipe = true) (hcount : ∀ count, countOf pc = some count → 0 < count)
    (hasleep : (∀ count nonblock, pc ≠ .readAsleep count nonblock) ∧
      ∀ src nonblock, pc ≠ .writeAsleep src nonblock) : Inv (setPc t pc s) := by
  refine ⟨h.made, h.unmade, ?_, ?_, h.stream, h.ends.setPc hopener, ?_, ?_⟩
  · intro u hu
    rw [setPc_pc] at hu
    split_ifs at hu
    · exact hinside hu
    · exact h.inside u hu
  · intro u count hu
    rw [setPc_pc] at hu
    split_ifs at hu
    · exact hcount count hu
    · exact h.count u count hu
  · refine h.readers.mono ?_ id id
    intro u count nonblock hu hsleep
    rw [setPc_pc] at hu
    split_ifs at hu
    · exact absurd hu (hasleep.1 count nonblock)
    · exact ⟨hu, hsleep, id⟩
  · refine h.writers.mono ?_ id id
    intro u src nonblock hu hsleep
    rw [setPc_pc] at hu
    split_ifs at hu
    · exact absurd hu (hasleep.2 src nonblock)
    · exact ⟨hu, hsleep, id⟩

theorem Ends.congr (h : Ends s) (hfiles : s'.files = s.files) (hreader : s'.nReader = s.nReader)
    (hwriter : s'.nWriter = s.nWriter) (hpc : s'.pc = s.pc) : Ends s' := by
  refine ⟨?_, ?_, ?_, ?_, ?_⟩
  · rw [hreader, hfiles, h.nReader]
  · rw [hwriter, hfiles, h.nWriter]
  · rw [hfiles]
    exact h.nodup
  · rw [hpc, hfiles]
    exact h.opener
  · rw [hpc]
    exact h.apart

/-- Waking all readers keeps the invariant. -/
theorem Inv.wakeRead (h : Inv s) : Inv (wakeRead s) := by
  have hasleep : ∀ u, (Pipe.wakeRead s).asleep u = true → s.asleep u = true := by
    intro u hu
    simp only [Pipe.wakeRead, Bool.and_eq_true] at hu
    exact hu.1
  refine ⟨h.made, h.unmade, h.inside, h.count, h.stream, h.ends.congr rfl rfl rfl rfl, ?_, ?_⟩
  · exact h.readers.mono (fun u _ _ hu hsleep => ⟨hu, hasleep u hsleep, id⟩) id id
  · exact h.writers.mono (fun u _ _ hu hsleep => ⟨hu, hasleep u hsleep, id⟩) id id

/-- Waking all writers keeps it too. -/
theorem Inv.wakeWrite (h : Inv s) : Inv (wakeWrite s) := by
  have hasleep : ∀ u, (Pipe.wakeWrite s).asleep u = true → s.asleep u = true := by
    intro u hu
    simp only [Pipe.wakeWrite, Bool.and_eq_true] at hu
    exact hu.1
  refine ⟨h.made, h.unmade, h.inside, h.count, h.stream, h.ends.congr rfl rfl rfl rfl, ?_, ?_⟩
  · exact h.readers.mono (fun u _ _ hu hsleep => ⟨hu, hasleep u hsleep, id⟩) id id
  · exact h.writers.mono (fun u _ _ hu hsleep => ⟨hu, hasleep u hsleep, id⟩) id id

/-- A new end is counted by its mode. -/
theorem Inv.withFile {file : File} (h : Inv s) (hpipe : s.isPipe = true)
    (hfresh : file.id ∉ s.files.map File.id) : Inv (withFile file s) := by
  refine ⟨h.made, ?_, h.inside, h.count, h.stream, ⟨?_, ?_, ?_, ?_, ?_⟩, ?_, ?_⟩
  · intro hnot
    rw [show s.isPipe = false from hnot] at hpipe
    cases hpipe
  · change s.nReader + _ = _
    rw [h.ends.nReader, Pipe.withFile, List.countP_cons]
    cases file.mode.reads <;> rfl
  · change s.nWriter + _ = _
    rw [h.ends.nWriter, Pipe.withFile, List.countP_cons]
    cases file.mode.writes <;> rfl
  · exact List.nodup_cons.mpr ⟨hfresh, h.ends.nodup⟩
  · intro u f hu
    obtain ⟨hmem, hmode⟩ := h.ends.opener u f hu
    exact ⟨List.mem_cons_of_mem file hmem, hmode⟩
  · exact h.ends.apart
  · refine h.readers.mono (fun u _ _ hu hsleep => ⟨hu, hsleep, id⟩) id fun hn => ?_
    change s.nWriter + _ ≠ 0
    omega
  · refine h.writers.mono (fun u _ _ hu hsleep => ⟨hu, hsleep, id⟩) id fun hn => ?_
    change s.nReader + _ ≠ 0
    omega

/-- A file is closed. -/
def withoutFile (file : File) (s : State α) : State α :=
  { s with
    nReader := s.nReader - file.mode.reads.toNat, nWriter := s.nWriter - file.mode.writes.toNat
    files := s.files.erase file
    asleep := fun t => s.asleep t && !(file.mode.writes && t ∈ s.waitRead) &&
      !(file.mode.reads && t ∈ s.waitWrite) }

/-- The count of a mode goes down by one with an end of that mode. -/
theorem countP_erase_mode {file : File} (hfile : file ∈ s.files) (p : Mode → Bool) :
    (s.files.erase file).countP (fun f => p f.mode) = s.files.countP (fun f => p f.mode) - (p file.mode).toNat := by
  rw [List.countP_erase]
  cases p file.mode
  · simp
  · simp [hfile]

/-- An end that no task waits with is taken out of the counts. -/
theorem Inv.withoutFile {file : File} (h : Inv s) (hfile : file ∈ s.files)
    (hfree : ∀ u, openerOf (s.pc u) ≠ some file) : Inv (withoutFile file s) := by
  have hasleep : ∀ u, (Pipe.withoutFile file s).asleep u = true → s.asleep u = true ∧
      (file.mode.writes = true → u ∉ s.waitRead) ∧ (file.mode.reads = true → u ∉ s.waitWrite) := by
    intro u hu
    simp only [Pipe.withoutFile, Bool.and_eq_true, Bool.not_eq_true', Bool.and_eq_false_iff,
      decide_eq_false_iff_not] at hu
    refine ⟨hu.1.1, fun hw => ?_, fun hr => ?_⟩
    · exact hu.1.2.resolve_left (by simp [hw])
    · exact hu.2.resolve_left (by simp [hr])
  refine ⟨h.made, ?_, h.inside, h.count, h.stream, ⟨?_, ?_, ?_, ?_, ?_⟩, ?_, ?_⟩
  · intro hnot
    rw [(h.unmade hnot).1] at hfile
    cases hfile
  · exact (congrArg (· - _) h.ends.nReader).trans (countP_erase_mode hfile Mode.reads).symm
  · exact (congrArg (· - _) h.ends.nWriter).trans (countP_erase_mode hfile Mode.writes).symm
  · exact h.ends.nodup.sublist (List.erase_sublist.map _)
  · intro u f hu
    obtain ⟨hmem, hmode⟩ := h.ends.opener u f hu
    refine ⟨(List.mem_erase_of_ne ?_).mpr hmem, hmode⟩
    rintro rfl
    exact hfree u hu
  · exact h.ends.apart
  · cases hw : file.mode.writes with
    | true =>
      refine h.readers.woken fun u _ _ hu hsleep => ?_
      exact ⟨hu, (hasleep u hsleep).1, (hasleep u hsleep).2.1 hw⟩
    | false =>
      refine h.readers.mono (fun u _ _ hu hsleep => ⟨hu, (hasleep u hsleep).1, id⟩) id fun hn => ?_
      change s.nWriter - file.mode.writes.toNat ≠ 0
      rw [hw]
      exact hn
  · cases hr : file.mode.reads with
    | true =>
      refine h.writers.woken fun u _ _ hu hsleep => ?_
      exact ⟨hu, (hasleep u hsleep).1, (hasleep u hsleep).2.2 hr⟩
    | false =>
      refine h.writers.mono (fun u _ _ hu hsleep => ⟨hu, (hasleep u hsleep).1, id⟩) id fun hn => ?_
      change s.nReader - file.mode.reads.toNat ≠ 0
      rw [hr]
      exact hn

/-- A task lies down in `wait_read` where the buffer is empty and a writer is there. -/
theorem Inv.sleepRead (h : Inv s) (hpipe : s.isPipe = true)
    (hopener : openerOf pc = none ∨ openerOf pc = openerOf (s.pc t))
    (hcount : ∀ count, countOf pc = some count → 0 < count) (hasleep : ∀ src nonblock, pc ≠ .writeAsleep src nonblock)
    (hidle : ∀ count nonblock, pc = .readAsleep count nonblock →
      s.rb.empty = true ∧ s.nWriter ≠ 0) : Inv (sleepRead t pc s) := by
  have hpcs : ∀ u, (Pipe.sleepRead t pc s).pc u = if u = t then pc else s.pc u :=
    fun u => update_apply ..
  have hothers : ∀ u, u ≠ t → (Pipe.sleepRead t pc s).asleep u = s.asleep u :=
    fun u hu => update_of_ne hu ..
  refine ⟨h.made, h.unmade, fun _ _ => hpipe, ?_, h.stream, (h.ends.setPc hopener).congr rfl rfl rfl rfl, ?_, ?_⟩
  · intro u count hu
    rw [hpcs] at hu
    split_ifs at hu
    · exact hcount count hu
    · exact h.count u count hu
  · intro u count nonblock hu hsleep
    rw [hpcs] at hu
    split_ifs at hu with hut
    · obtain ⟨hempty, hwriter⟩ := hidle count nonblock hu
      refine ⟨?_, hempty, hwriter⟩
      change u ∈ s.waitRead ++ [t]
      simp [hut]
    · rw [hothers u hut] at hsleep
      obtain ⟨hmem, hempty, hwriter⟩ := h.readers u count nonblock hu hsleep
      exact ⟨List.mem_append_left _ hmem, hempty, hwriter⟩
  · refine h.writers.mono ?_ id id
    intro u src nonblock hu hsleep
    rw [hpcs] at hu
    split_ifs at hu with hut
    · exact absurd hu (hasleep src nonblock)
    · rw [hothers u hut] at hsleep
      exact ⟨hu, hsleep, id⟩

/-- A task lies down in `wait_write` where the buffer is full and a reader is there. -/
theorem Inv.sleepWrite (h : Inv s) (hpipe : s.isPipe = true)
    (hopener : openerOf pc = none ∨ openerOf pc = openerOf (s.pc t))
    (hcount : ∀ count, countOf pc = some count → 0 < count)
    (hasleep : ∀ count nonblock, pc ≠ .readAsleep count nonblock)
    (hidle : ∀ src nonblock, pc = .writeAsleep src nonblock →
      s.rb.full = true ∧ s.nReader ≠ 0) : Inv (sleepWrite t pc s) := by
  have hpcs : ∀ u, (Pipe.sleepWrite t pc s).pc u = if u = t then pc else s.pc u :=
    fun u => update_apply ..
  have hothers : ∀ u, u ≠ t → (Pipe.sleepWrite t pc s).asleep u = s.asleep u :=
    fun u hu => update_of_ne hu ..
  refine ⟨h.made, h.unmade, fun _ _ => hpipe, ?_, h.stream, (h.ends.setPc hopener).congr rfl rfl rfl rfl, ?_, ?_⟩
  · intro u count hu
    rw [hpcs] at hu
    split_ifs at hu
    · exact hcount count hu
    · exact h.count u count hu
  · refine h.readers.mono ?_ id id
    intro u count nonblock hu hsleep
    rw [hpcs] at hu
    split_ifs at hu with hut
    · exact absurd hu (hasleep count nonblock)
    · rw [hothers u hut] at hsleep
      exact ⟨hu, hsleep, id⟩
  · intro u src nonblock hu hsleep
    rw [hpcs] at hu
    split_ifs at hu with hut
    · obtain ⟨hfull, hreader⟩ := hidle src nonblock hu
      refine ⟨?_, hfull, hreader⟩
      change u ∈ s.waitWrite ++ [t]
      simp [hut]
    · rw [hothers u hut] at hsleep
      obtain ⟨hmem, hfull, hreader⟩ := h.writers u src nonblock hu hsleep
      exact ⟨List.mem_append_left _ hmem, hfull, hreader⟩

theorem Inv.signal (h : Inv s) (t : ℕ) : Inv (signal t s) := by
  have hasleep : ∀ u, (Pipe.signal t s).asleep u = true → s.asleep u = true := by
    intro u hu
    change update s.asleep t false u = true at hu
    rw [update_apply] at hu
    split_ifs at hu
    exact hu
  refine ⟨h.made, h.unmade, h.inside, h.count, h.stream, h.ends.congr rfl rfl rfl rfl, ?_, ?_⟩
  · exact h.readers.mono (fun u _ _ hu hsleep => ⟨hu, hasleep u hsleep, id⟩) id id
  · exact h.writers.mono (fun u _ _ hu hsleep => ⟨hu, hasleep u hsleep, id⟩) id id

theorem Inv.return (h : Inv s) (t : ℕ) : Inv (setPc t .user s) := by
  refine h.go (Or.inl rfl) ?_ ?_ ⟨?_, ?_⟩
  · exact fun hin => by cases hin
  · exact fun _ hcount => by cases hcount
  · exact fun _ _ => nofun
  · exact fun _ _ => nofun

/-- A read keeps the invariant: it wakes the writers when it takes bytes, and sleeps only
with nothing to take. -/
theorem Inv.pipeRead {count : ℕ} {nonblock : Bool} (h : Inv s)
    (ht : s.pc t = .readLocking count nonblock) : Inv (pipeRead t count nonblock s).2 := by
  have hpipe := h.inside t (by rw [ht]; rfl)
  have hpos := h.count t count (by rw [ht]; rfl)
  obtain ⟨hwf, hsize⟩ := h.made hpipe
  unfold Pipe.pipeRead
  split_ifs with hempty hwriter hnonblock
  · exact h.return t
  · exact h.return t
  · refine h.sleepRead hpipe (Or.inl rfl) ?_ (fun _ _ => nofun) fun _ _ _ => ⟨hempty, hwriter⟩
    intro count' hcount'
    rw [← Option.some.inj hcount']
    exact hpos
  · obtain ⟨hwf', hread, hrest, hsize'⟩ := hwf.read count
    refine Inv.return (s := Pipe.wakeWrite { s with
      rb := (s.rb.read count).2, returned := s.returned ++ (s.rb.read count).1 }) ?_ t
    refine ⟨fun _ => ⟨hwf', hsize'.trans hsize⟩, ?_, h.inside, h.count, ?_, h.ends.congr rfl rfl rfl rfl, ?_, ?_⟩
    · intro hnot
      rw [show s.isPipe = false from hnot] at hpipe
      cases hpipe
    · change s.accepted = (s.returned ++ (s.rb.read count).1) ++ (s.rb.read count).2.contents
      rw [hread, hrest, List.append_assoc, List.take_append_drop]
      exact h.stream
    · -- a reader that sleeps would contradict that there are bytes
      intro u count' nonblock' hu hsleep
      simp only [Pipe.wakeWrite, Bool.and_eq_true] at hsleep
      exact absurd (h.readers u count' nonblock' hu hsleep.1).2.1 hempty
    · refine h.writers.woken fun u _ _ hu hsleep => ?_
      simp only [Pipe.wakeWrite, Bool.and_eq_true, decide_eq_true_eq] at hsleep
      exact ⟨hu, hsleep.1, hsleep.2⟩

/-- A write keeps the invariant: it wakes the readers when it puts bytes, and sleeps only
with no room. -/
theorem Inv.pipeWrite {src : List α} {nonblock : Bool} (h : Inv s)
    (ht : s.pc t = .writeLocking src nonblock) : Inv (pipeWrite t src nonblock s).2 := by
  have hpipe := h.inside t (by rw [ht]; rfl)
  obtain ⟨hwf, hsize⟩ := h.made hpipe
  unfold Pipe.pipeWrite
  split_ifs with hreader hfull hnonblock
  · exact (h.signal t).return t
  · exact h.return t
  · exact h.sleepWrite hpipe (Or.inl rfl) (fun _ hcount => by cases hcount) (fun _ _ => nofun)
      fun _ _ _ => ⟨hfull, hreader⟩
  · obtain ⟨hwf', -, hcontents, hsize'⟩ := hwf.write src
    refine Inv.return (s := Pipe.wakeRead { s with
      rb := (s.rb.write src).2, accepted := s.accepted ++ src.take (s.rb.write src).1 }) ?_ t
    refine ⟨fun _ => ⟨hwf', hsize'.trans hsize⟩, ?_, h.inside, h.count, ?_, h.ends.congr rfl rfl rfl rfl, ?_, ?_⟩
    · intro hnot
      rw [show s.isPipe = false from hnot] at hpipe
      cases hpipe
    · change s.accepted ++ src.take (s.rb.write src).1 = s.returned ++ (s.rb.write src).2.contents
      rw [hcontents, ← List.append_assoc, h.stream]
    · refine h.readers.woken fun u _ _ hu hsleep => ?_
      simp only [Pipe.wakeRead, Bool.and_eq_true, decide_eq_true_eq] at hsleep
      exact ⟨hu, hsleep.1, hsleep.2⟩
    · -- a writer that sleeps would contradict that there is space
      intro u src' nonblock' hu hsleep
      simp only [Pipe.wakeRead, Bool.and_eq_true] at hsleep
      exact absurd (h.writers u src' nonblock' hu hsleep.1).2.1 hfull

/-- An end that is being opened is counted while its task waits for the other side. -/
theorem Inv.waiting (h : Inv s) (hpipe : s.isPipe = true) (hfresh : fid ∉ s.files.map File.id)
    (hmode : mode ≠ .readWrite) : Inv (Pipe.setPc t (.waited fid mode) (Pipe.withFile ⟨fid, mode, false⟩ s)) := by
  have hfile : Inv (Pipe.withFile ⟨fid, mode, false⟩ s) := h.withFile hpipe hfresh
  have hpcs := setPc_pc t (.waited fid mode) (Pipe.withFile ⟨fid, mode, false⟩ s)
  -- nobody else has the new file
  have hother : ∀ u, openerOf (s.pc u) ≠ some ⟨fid, mode, false⟩ := by
    intro u hu
    exact hfresh (List.mem_map.mpr ⟨_, (h.ends.opener u _ hu).1, rfl⟩)
  refine ⟨h.made, hfile.unmade, fun _ _ => hpipe, ?_, h.stream,
    ⟨hfile.ends.nReader, hfile.ends.nWriter, hfile.ends.nodup, ?_, ?_⟩, ?_, ?_⟩
  · intro u count hu
    rw [hpcs] at hu
    split_ifs at hu
    · cases hu
    · exact h.count u count hu
  · intro u f hu
    rw [hpcs] at hu
    split_ifs at hu
    · rw [← Option.some.inj hu]
      exact ⟨List.mem_cons_self, hmode⟩
    · exact hfile.ends.opener u f hu
  · intro u v f hu hv
    rw [hpcs] at hu hv
    split_ifs at hu hv with hut hvt hvt
    · rw [hut, hvt]
    · rw [← Option.some.inj hu] at hv
      exact absurd hv (hother v)
    · rw [← Option.some.inj hv] at hu
      exact absurd hu (hother u)
    · exact h.ends.apart u v f hu hv
  · refine hfile.readers.mono ?_ id id
    intro u count nonblock hu hsleep
    rw [hpcs] at hu
    split_ifs at hu
    exact ⟨hu, hsleep, id⟩
  · refine hfile.writers.mono ?_ id id
    intro u src nonblock hu hsleep
    rw [hpcs] at hu
    split_ifs at hu
    exact ⟨hu, hsleep, id⟩

theorem sleepRead_setPc (t : ℕ) (pc pc' : Pc α) (s : State α) : sleepRead t pc (setPc t pc' s) = sleepRead t pc s := by
  unfold sleepRead setPc
  simp only [update_idem]

theorem sleepWrite_setPc (t : ℕ) (pc pc' : Pc α) (s : State α) :
    sleepWrite t pc (setPc t pc' s) = sleepWrite t pc s := by
  unfold sleepWrite setPc
  simp only [update_idem]

/-- `fifo_open` keeps the invariant in each of its cases. -/
theorem Inv.fifoOpen {nonblock : Bool} (h : Inv s) (ht : s.pc t = .linking mode nonblock)
    (hfresh : fid ∉ s.files.map File.id) : Inv (fifoOpen t fid mode nonblock s) := by
  have hpipe := h.inside t (by rw [ht]; rfl)
  have hopen : ∀ mode, Inv (Pipe.withFile ⟨fid, mode, true⟩ s) := fun _ => h.withFile hpipe hfresh
  unfold Pipe.fifoOpen
  cases mode with
  | readWrite => exact ((hopen .readWrite).wakeRead.wakeWrite).return t
  | read =>
    dsimp only
    split_ifs
    · have hwait : Inv (Pipe.setPc t (.waited fid .read) (Pipe.withFile ⟨fid, .read, false⟩ s)) :=
        h.waiting hpipe hfresh (by simp)
      have hsleep : Inv (Pipe.sleepRead t (.waiting fid .read) (Pipe.wakeWrite
          (Pipe.setPc t (.waited fid .read) (Pipe.withFile ⟨fid, .read, false⟩ s)))) := by
        refine hwait.wakeWrite.sleepRead hpipe (Or.inr ?_) ?_ ?_ ?_
        · change _ = openerOf ((Pipe.setPc t _ _).pc t)
          rw [setPc_pc, if_pos rfl]
          rfl
        · exact fun _ hcount => by cases hcount
        · exact fun _ _ => nofun
        · exact fun _ _ hpc => by cases hpc
      exact (sleepRead_setPc t _ _ (Pipe.wakeWrite (Pipe.withFile ⟨fid, .read, false⟩ s))) ▸ hsleep
    · exact (hopen .read).wakeWrite.return t
  | write =>
    dsimp only
    split_ifs
    · exact h.wakeRead.return t
    · have hwait : Inv (Pipe.setPc t (.waited fid .write) (Pipe.withFile ⟨fid, .write, false⟩ s)) :=
        h.waiting hpipe hfresh (by simp)
      have hsleep : Inv (Pipe.sleepWrite t (.waiting fid .write) (Pipe.wakeRead
          (Pipe.setPc t (.waited fid .write) (Pipe.withFile ⟨fid, .write, false⟩ s)))) := by
        refine hwait.wakeRead.sleepWrite hpipe (Or.inr ?_) ?_ ?_ ?_
        · change _ = openerOf ((Pipe.setPc t _ _).pc t)
          rw [setPc_pc, if_pos rfl]
          rfl
        · exact fun _ hcount => by cases hcount
        · exact fun _ _ => nofun
        · exact fun _ _ hpc => by cases hpc
      exact (sleepWrite_setPc t _ _ (Pipe.wakeRead (Pipe.withFile ⟨fid, .write, false⟩ s))) ▸ hsleep
    · exact (hopen .write).wakeRead.return t

/-- An end that was being opened is open, with the same counts. -/
theorem Inv.opened (h : Inv s) (hfile : (⟨fid, mode, false⟩ : File) ∈ s.files)
    (hfree : ∀ u, openerOf (s.pc u) ≠ some ⟨fid, mode, false⟩) :
    Inv { s with files := ⟨fid, mode, true⟩ :: s.files.erase ⟨fid, mode, false⟩ } := by
  have hcount : ∀ p : Mode → Bool,
      (⟨fid, mode, true⟩ :: s.files.erase ⟨fid, mode, false⟩).countP (fun f => p f.mode) =
        s.files.countP fun f => p f.mode := by
    intro p
    rw [(List.perm_cons_erase hfile).countP_eq, List.countP_cons, List.countP_cons]
  have hnodup := ((List.perm_cons_erase hfile).map File.id).nodup_iff.mp h.ends.nodup
  refine ⟨h.made, ?_, h.inside, h.count, h.stream, ⟨?_, ?_, hnodup, ?_, h.ends.apart⟩, ?_, ?_⟩
  · intro hnot
    rw [(h.unmade hnot).1] at hfile
    cases hfile
  · exact h.ends.nReader.trans (hcount Mode.reads).symm
  · exact h.ends.nWriter.trans (hcount Mode.writes).symm
  · intro u f hu
    obtain ⟨hmem, hmode⟩ := h.ends.opener u f hu
    refine ⟨List.mem_cons_of_mem _ ((List.mem_erase_of_ne ?_).mpr hmem), hmode⟩
    rintro rfl
    exact hfree u hu
  · exact h.readers
  · exact h.writers

/-- So does its rest, when the other side has come. -/
theorem Inv.fifoOpened (h : Inv s) (ht : s.pc t = .waited fid mode) : Inv (fifoOpened t fid mode s) := by
  have hopener : openerOf (s.pc t) = some ⟨fid, mode, false⟩ := by rw [ht]; rfl
  obtain ⟨hfile, hmode⟩ := h.ends.opener t _ hopener
  have hout := h.return t
  have hfree : ∀ u, openerOf ((Pipe.setPc t .user s).pc u) ≠ some ⟨fid, mode, false⟩ := by
    intro u hu
    rw [setPc_pc] at hu
    split_ifs at hu with hut
    · cases hu
    · exact hut (h.ends.apart u t _ hu hopener)
  unfold Pipe.fifoOpened
  dsimp only
  split_ifs
  · have hwithout := hout.withoutFile hfile hfree
    cases mode with
    | readWrite => exact absurd rfl hmode
    | read =>
      convert hwithout using 1
      simp [Pipe.withoutFile, Pipe.setPc, Pipe.wakeWrite, Mode.reads, Mode.writes]
      rfl
    | write =>
      convert hwithout using 1
      simp [Pipe.withoutFile, Pipe.setPc, Pipe.wakeRead, Mode.reads, Mode.writes]
      rfl
  · exact hout.opened hfile hfree

/-- A release finds its end counted, so its assertion holds. -/
theorem Inv.release {file : File} (h : Inv s) (hfile : file ∈ s.files) (hopened : file.opened = true)
    (hrelease : release file s = some s') : Inv s' := by
  have hfree : ∀ u, openerOf (s.pc u) ≠ some file := by
    intro u hu
    cases hpc : s.pc u with
    | waiting id mode | waited id mode =>
      rw [hpc, openerOf, Option.some.injEq] at hu
      rw [← hu] at hopened
      cases hopened
    | _ =>
      rw [hpc] at hu
      cases hu
  have hwithout := h.withoutFile hfile hfree
  unfold Pipe.release at hrelease
  dsimp only at hrelease
  split at hrelease
  all_goals
    rename_i hmode
    try split_ifs at hrelease
    cases hrelease
    convert hwithout using 1
    simp [Pipe.withoutFile, Pipe.wakeWrite, Pipe.wakeRead, hmode, Mode.reads, Mode.writes]

/-- A pipe that is set up the first time has no ends and nobody in its queues. -/
theorem Inv.initPipe {page : ℕ → α} {nonblock : Bool} (h : Inv s) (hnot : s.isPipe = false) :
    Inv (setPc t (.linking mode nonblock) { s with
      isPipe := true, rb := RingBuffer.init page, nReader := 0, nWriter := 0, waitRead := []
      waitWrite := [] }) := by
  obtain ⟨hfiles, hcontents⟩ := h.unmade hnot
  have houtside : ∀ u, Pipe.inside (s.pc u) = false := by
    intro u
    by_contra hin
    rw [h.inside u (by simpa using hin)] at hnot
    cases hnot
  have hbase : Inv { s with
      isPipe := true, rb := RingBuffer.init page, nReader := 0, nWriter := 0, waitRead := []
      waitWrite := [] } := by
    refine ⟨fun _ => ⟨RingBuffer.init_wellFormed page, rfl⟩, nofun, fun _ _ => rfl, h.count, ?_,
      ⟨?_, ?_, h.ends.nodup, h.ends.opener, h.ends.apart⟩, ?_, ?_⟩
    · change s.accepted = s.returned ++ (RingBuffer.init page).contents
      rw [h.stream, hcontents, RingBuffer.contents_init]
    · change 0 = s.files.countP _
      rw [hfiles]
      rfl
    · change 0 = s.files.countP _
      rw [hfiles]
      rfl
    · intro u count nonblock hu
      have := houtside u
      rw [show s.pc u = _ from hu] at this
      cases this
    · intro u src nonblock hu
      have := houtside u
      rw [show s.pc u = _ from hu] at this
      cases this
  exact hbase.go (Or.inl rfl) (fun _ => rfl) (fun _ hcount => by cases hcount) ⟨fun _ _ => nofun, fun _ _ => nofun⟩

theorem Inv.woken (h : Inv s) (hawake : s.asleep t = false) (waitRead waitWrite : List ℕ)
    (hread : ∀ u, u ≠ t → u ∈ s.waitRead → u ∈ waitRead) (hwrite : ∀ u, u ≠ t → u ∈ s.waitWrite → u ∈ waitWrite) :
    Inv { s with waitRead := waitRead, waitWrite := waitWrite } := by
  have hne : ∀ u, s.asleep u = true → u ≠ t := by
    rintro u hu rfl
    rw [hawake] at hu
    cases hu
  refine ⟨h.made, h.unmade, h.inside, h.count, h.stream, h.ends.congr rfl rfl rfl rfl, ?_, ?_⟩
  · exact h.readers.mono (fun u _ _ hu hsleep => ⟨hu, hsleep, hread u (hne u hsleep)⟩) id id
  · exact h.writers.mono (fun u _ _ hu hsleep => ⟨hu, hsleep, hwrite u (hne u hsleep)⟩) id id

/-- Each step that meets the condition keeps the invariant. -/
theorem Inv.step {a : Label α} (h : Inv s) (hgood : Good s a) (hstep : Step s a s') : Inv s' := by
  cases a with
  | «open» t fMode nonblock =>
    dsimp only [Step, exec] at hstep
    split at hstep
    · cases hstep
      exact h.go (Or.inl rfl) (fun hin => by cases hin) (fun _ hcount => by cases hcount)
        ⟨fun _ _ => nofun, fun _ _ => nofun⟩
    · cases hstep
  | checkPipe t =>
    dsimp only [Step, exec] at hstep
    split at hstep
    · cases hstep
      split_ifs with hpipe
      · exact h.go (Or.inl rfl) (fun _ => hpipe) (fun _ hcount => by cases hcount) ⟨fun _ _ => nofun, fun _ _ => nofun⟩
      · exact h.go (Or.inl rfl) (fun hin => by cases hin) (fun _ hcount => by cases hcount)
          ⟨fun _ _ => nofun, fun _ _ => nofun⟩
    · cases hstep
  | initPipe t page =>
    dsimp only [Step, exec] at hstep
    split at hstep
    · cases hstep
      exact h.initPipe hgood
    · cases hstep
      exact h.return t
    · cases hstep
  | fifoOpen t id =>
    dsimp only [Step, exec] at hstep
    split at hstep
    · rename_i mode nonblock hpc
      split_ifs at hstep with hfresh
      cases hstep
      refine h.fifoOpen hpc ?_
      simpa [List.all_eq_true] using hfresh
    · cases hstep
  | wokenOpen t =>
    dsimp only [Step, exec] at hstep
    split at hstep
    · rename_i id mode hpc
      split_ifs at hstep with hasleep
      cases hstep
      have hwoken := h.woken (t := t) (by simpa using hasleep) (s.waitRead.erase t)
        (s.waitWrite.erase t) (fun u hu => (List.mem_erase_of_ne hu).mpr)
        fun u hu => (List.mem_erase_of_ne hu).mpr
      refine hwoken.go (Or.inr ?_) ?_ (fun _ hcount => by cases hcount) ⟨fun _ _ => nofun, fun _ _ => nofun⟩
      · rw [hpc]
        rfl
      · exact fun _ => h.inside t (by rw [hpc]; rfl)
    · cases hstep
  | fifoOpened t =>
    dsimp only [Step, exec] at hstep
    split at hstep
    · rename_i hpc
      cases hstep
      exact h.fifoOpened hpc
    · cases hstep
  | read t file count nonblock =>
    dsimp only [Step, exec] at hstep
    split at hstep
    · split_ifs at hstep with hlegal
      cases hstep
      refine h.go (Or.inl rfl) (fun _ => ?_) ?_ ⟨fun _ _ => nofun, fun _ _ => nofun⟩
      · by_contra hnot
        rw [(h.unmade (by simpa using hnot)).1] at hlegal
        simp at hlegal
      · intro count' hcount
        rw [← Option.some.inj hcount]
        exact hlegal.2.2.2
    · cases hstep
  | readSignal t =>
    dsimp only [Step, exec] at hstep
    split at hstep
    · rename_i count nonblock hpc
      cases hstep
      split_ifs
      · exact h.return t
      · refine h.go (Or.inl rfl) (fun _ => h.inside t (by rw [hpc]; rfl)) ?_ ⟨fun _ _ => nofun, fun _ _ => nofun⟩
        exact fun count' hcount => h.count t count' (by rw [hpc]; exact hcount)
    · cases hstep
  | pipeRead t =>
    dsimp only [Step, exec] at hstep
    split at hstep
    · rename_i hpc
      cases hstep
      exact h.pipeRead hpc
    · cases hstep
  | wokenRead t =>
    dsimp only [Step, exec] at hstep
    split at hstep
    · rename_i count nonblock hpc
      split_ifs at hstep with hasleep
      cases hstep
      have hwoken := h.woken (t := t) (by simpa using hasleep) (s.waitRead.erase t) s.waitWrite
        (fun u hu => (List.mem_erase_of_ne hu).mpr) fun u _ hu => hu
      refine hwoken.go (Or.inl rfl) (fun _ => h.inside t (by rw [hpc]; rfl)) ?_ ⟨fun _ _ => nofun, fun _ _ => nofun⟩
      exact fun count' hcount => h.count t count' (by rw [hpc]; exact hcount)
    · cases hstep
  | write t file src nonblock =>
    dsimp only [Step, exec] at hstep
    split at hstep
    · split_ifs at hstep with hlegal
      cases hstep
      refine h.go (Or.inl rfl) (fun _ => ?_) (fun _ hcount => by cases hcount) ⟨fun _ _ => nofun, fun _ _ => nofun⟩
      by_contra hnot
      rw [(h.unmade (by simpa using hnot)).1] at hlegal
      simp at hlegal
    · cases hstep
  | writeSignal t =>
    dsimp only [Step, exec] at hstep
    split at hstep
    · rename_i src nonblock hpc
      cases hstep
      split_ifs
      · exact h.return t
      · exact h.go (Or.inl rfl) (fun _ => h.inside t (by rw [hpc]; rfl))
          (fun _ hcount => by cases hcount) ⟨fun _ _ => nofun, fun _ _ => nofun⟩
    · cases hstep
  | pipeWrite t =>
    dsimp only [Step, exec] at hstep
    split at hstep
    · rename_i hpc
      cases hstep
      exact h.pipeWrite hpc
    · cases hstep
  | wokenWrite t =>
    dsimp only [Step, exec] at hstep
    split at hstep
    · rename_i src nonblock hpc
      split_ifs at hstep with hasleep
      cases hstep
      have hwoken := h.woken (t := t) (by simpa using hasleep) s.waitRead (s.waitWrite.erase t)
        (fun u _ hu => hu) fun u hu => (List.mem_erase_of_ne hu).mpr
      exact hwoken.go (Or.inl rfl) (fun _ => h.inside t (by rw [hpc]; rfl))
        (fun _ hcount => by cases hcount) ⟨fun _ _ => nofun, fun _ _ => nofun⟩
    · cases hstep
  | close file =>
    dsimp only [Step, exec] at hstep
    split_ifs at hstep with hlegal
    exact h.release hlegal.1 hlegal.2 hstep
  | copyFd file id =>
    dsimp only [Step, exec] at hstep
    split_ifs at hstep with hlegal
    cases hstep
    obtain ⟨hfile, -, hfresh⟩ := hlegal
    refine h.withFile ?_ (by simpa using hfresh)
    by_contra hnot
    rw [(h.unmade (by simpa using hnot)).1] at hfile
    cases hfile
  | signal t =>
    cases hstep
    exact h.signal t
  | handled t =>
    dsimp only [Step, exec] at hstep
    split at hstep
    · cases hstep
      exact ⟨h.made, h.unmade, h.inside, h.count, h.stream, h.ends.congr rfl rfl rfl rfl, h.readers, h.writers⟩
    · cases hstep

theorem Initial.inv (h : Initial s) : Inv s := by
  have hpc : ∀ u, openerOf (s.pc u) = none ∧ countOf (s.pc u) = none := by
    intro u
    rw [h.pc]
    exact ⟨rfl, rfl⟩
  have hends : ∀ u file, openerOf (s.pc u) ≠ some file := by
    intro u file hu
    rw [(hpc u).1] at hu
    cases hu
  refine ⟨?_, ?_, ?_, ?_, ?_, ⟨?_, ?_, ?_, ?_, ?_⟩, ?_, ?_⟩
  · intro hpipe
    obtain ⟨hnot, -⟩ | ⟨-, -, -, -, page, hrb⟩ := h.start
    · rw [hpipe] at hnot
      cases hnot
    · rw [hrb]
      exact ⟨RingBuffer.init_wellFormed page, rfl⟩
  · intro hnot
    obtain ⟨-, hfiles, -, -, hdata⟩ | ⟨hpipe, -⟩ := h.start
    · exact ⟨hfiles, by rw [RingBuffer.contents, hdata]⟩
    · rw [hpipe] at hnot
      cases hnot
  · intro u hu
    rw [h.pc] at hu
    cases hu
  · intro u count hu
    rw [(hpc u).2] at hu
    cases hu
  · rw [h.accepted, h.returned]
    obtain ⟨-, -, -, -, hdata⟩ | ⟨-, -, -, -, page, hrb⟩ := h.start
    · rw [RingBuffer.contents, hdata]
      rfl
    · rw [hrb]
      rfl
  · obtain ⟨-, hfiles, hn, -⟩ | ⟨-, hfiles, hn, -⟩ := h.start
    · rw [hfiles, hn]
      rfl
    · rw [hfiles, hn]
      rfl
  · obtain ⟨-, hfiles, -, hn, -⟩ | ⟨-, hfiles, -, hn, -⟩ := h.start
    · rw [hfiles, hn]
      rfl
    · rw [hfiles, hn]
      rfl
  · obtain ⟨-, hfiles, -⟩ | ⟨-, hfiles, -⟩ := h.start
    · simp [hfiles]
    · simp [hfiles]
  · exact fun u file hu => absurd hu (hends u file)
  · exact fun u v file hu => absurd hu (hends u file)
  · intro u count nonblock hu
    rw [h.pc] at hu
    cases hu
  · intro u src nonblock hu
    rw [h.pc] at hu
    cases hu

/-! ## The queue -/

theorem Inv.hasWriter (h : Inv s) : HasWriter s ↔ s.nWriter ≠ 0 := by
  rw [h.ends.nWriter, ← Nat.pos_iff_ne_zero, List.countP_pos_iff]
  rfl

theorem Inv.hasReader (h : Inv s) : HasReader s ↔ s.nReader ≠ 0 := by
  rw [h.ends.nReader, ← Nat.pos_iff_ne_zero, List.countP_pos_iff]
  rfl

/-- The invariant has what is promised of the bytes and of the sleepers. -/
theorem Inv.queue (h : Inv s) : Queue s := by
  refine ⟨h.stream, ?_, ?_, ?_⟩
  · intro t count nonblock hpc hret
    obtain ⟨hwf, -⟩ := h.made (h.inside t (by rw [hpc]; rfl))
    have hpos := h.count t count (by rw [hpc]; rfl)
    unfold Pipe.pipeRead at hret
    split_ifs at hret with hempty hwriter hnonblock
    · refine ⟨hwf.empty_iff.mp hempty, fun hhas => ?_⟩
      exact h.hasWriter.mp hhas hwriter
    · simp at hret
    · -- bytes are there, and some are wanted
      exfalso
      obtain ⟨-, hread, -⟩ := hwf.read count
      simp only [Option.some.injEq, hread, List.length_take] at hret
      have hlen : s.rb.contents.length ≠ 0 := by
        intro hzero
        exact hempty (hwf.empty_iff.mpr (List.length_eq_zero_iff.mp hzero))
      omega
  · intro t count nonblock hpc hsleep
    obtain ⟨hwf, -⟩ := h.made (h.inside t (by rw [hpc]; rfl))
    obtain ⟨-, hempty, hwriter⟩ := h.readers t count nonblock hpc hsleep
    exact ⟨hwf.empty_iff.mp hempty, h.hasWriter.mpr hwriter⟩
  · intro t src nonblock hpc hsleep
    obtain ⟨hwf, hsize⟩ := h.made (h.inside t (by rw [hpc]; rfl))
    obtain ⟨-, hfull, hreader⟩ := h.writers t src nonblock hpc hsleep
    rw [← hsize]
    exact ⟨hwf.full_iff.mp hfull, h.hasReader.mpr hreader⟩

/-- When a FIFO is set up only once, a pipe is a queue of bytes, and its readers and writers sleep
only while they have to. -/
theorem pipe_queue (s₀ : State α) (hinit : Initial s₀) (labs : List (Label α)) (s : State α)
    (hrun : Run (Guarded Good Step) s₀ labs s) : Queue s :=
  (hrun.invariant (P := Inv) hinit.inv fun hu hstep => hu.step hstep.1 hstep.2).queue

/-- A FIFO that nobody has opened. -/
def boot : State ℕ :=
  { isPipe := false
    rb := ⟨none, 0, 0, 0, 0⟩
    nReader := 0
    nWriter := 0
    waitRead := []
    waitWrite := []
    files := []
    pc := fun _ => .user
    asleep := fun _ => false
    pending := fun _ => false
    accepted := []
    returned := [] }

theorem boot_initial : Initial boot :=
  ⟨Or.inl ⟨rfl, rfl, rfl, rfl, rfl⟩, fun _ => rfl, rfl, rfl⟩

/-- A task opens the FIFO for reading and waits for another one that opens it for writing. It waits for
the bytes that the other one writes and reads two of them. The writer's file is copied and closed. -/
def both : List (Label ℕ) :=
  [.open 1 1 false, .checkPipe 1, .initPipe 1 (some fun _ => 0), .fifoOpen 1 0, .open 2 2 false, .checkPipe 2,
    .fifoOpen 2 1, .wokenOpen 1, .fifoOpened 1, .read 1 ⟨0, .read, true⟩ 2 false, .readSignal 1, .pipeRead 1,
    .write 2 ⟨1, .write, true⟩ [5, 6, 7] false, .writeSignal 2, .pipeWrite 2, .wokenRead 1, .readSignal 1,
    .pipeRead 1, .copyFd ⟨1, .write, true⟩ 2, .close ⟨1, .write, true⟩]

theorem both_replays : (replay Good exec boot both).isSome := by decide +kernel

/-- The state in which one byte is left. -/
def oneLeft : State ℕ := (replay Good exec boot both).get both_replays

theorem both_run : Run (Guarded Good Step) boot both oneLeft :=
  run_of_replay (Option.some_get both_replays).symm

/-- Two tasks have the pipe; the sleeping reader gets the byte, and one end is closed. -/
theorem pipe_queue_both :
    Initial boot ∧ Run (Guarded Good Step) boot both oneLeft ∧ oneLeft.rb.contents = [7] ∧
      Queue oneLeft :=
  ⟨boot_initial, both_run, by decide +kernel, pipe_queue boot boot_initial both oneLeft both_run⟩

/-- Two tasks open the FIFO at the same time, and the second one sets it up again when the first
one has written a byte. -/
def setUpTwice : List (Label ℕ) :=
  [.open 1 3 false, .open 2 3 false, .checkPipe 1, .checkPipe 2, .initPipe 1 (some fun _ => 0),
    .fifoOpen 1 0, .write 1 ⟨0, .readWrite, true⟩ [7] false, .writeSignal 1, .pipeWrite 1,
    .initPipe 2 (some fun _ => 0)]

theorem setUpTwice_replays : (replay (fun _ _ => True) exec boot setUpTwice).isSome := by
  decide +kernel

/-- The state in which the byte is lost. -/
def byteLost : State ℕ := (replay (fun _ _ => True) exec boot setUpTwice).get setUpTwice_replays

theorem setUpTwice_run : Run Step boot setUpTwice byteLost :=
  (run_of_replay (Option.some_get setUpTwice_replays).symm).mono fun _ _ _ hstep => hstep.2

/-- A second `init_pipe_inode_info` empties a buffer with a byte in it. -/
theorem setUpTwice_not_queue :
    ¬ ∀ (s₀ : State ℕ), Initial s₀ → ∀ labs s, Run Step s₀ labs s → Queue s := by
  intro h
  have hstream := (h boot boot_initial setUpTwice byteLost setUpTwice_run).stream
  exact absurd hstream (by decide +kernel)

/-! ## The ends -/

/-- The counts are those of the open ends, so that no close fails its assertion, and a reader and
a writer do not wait for each other. -/
structure EndsOk (s : State α) : Prop where
  nReader : s.nReader = s.files.countP fun file => file.mode.reads
  nWriter : s.nWriter = s.files.countP fun file => file.mode.writes
  closes : ∀ file ∈ s.files, (release file s).isSome
  awake : ∀ t u count src n m, s.pc t = .readAsleep count n → s.pc u = .writeAsleep src m →
    s.asleep t = true → s.asleep u = false

/-- The invariant has what is promised of the ends. -/
theorem Inv.endsOk (h : Inv s) : EndsOk s := by
  refine ⟨h.ends.nReader, h.ends.nWriter, fun file hin => ?_, fun t u count src n m ht hu hsleep => ?_⟩
  · have hreader : file.mode.reads = true → 0 < s.nReader := fun hmode =>
      h.ends.nReader ▸ List.countP_pos_iff.mpr ⟨file, hin, hmode⟩
    have hwriter : file.mode.writes = true → 0 < s.nWriter := fun hmode =>
      h.ends.nWriter ▸ List.countP_pos_iff.mpr ⟨file, hin, hmode⟩
    unfold Pipe.release
    cases hmode : file.mode <;> simp_all [Mode.reads, Mode.writes]
  · by_contra hawake
    have hempty := (h.queue.reader t count n ht hsleep).1
    have hfull := (h.queue.writer u src m hu (Bool.eq_true_of_not_eq_false hawake)).1
    rw [hempty] at hfull
    cases hfull

/-- In every run in which no task sets up a pipe that is set up already. -/
theorem pipe_ends (s₀ : State α) (hinit : Initial s₀) (labs : List (Label α)) (s : State α)
    (hrun : Run (Guarded Good Step) s₀ labs s) : EndsOk s :=
  (hrun.invariant (P := Inv) hinit.inv fun hu hstep => hu.step hstep.1 hstep.2).endsOk

theorem pipe_ends_both : oneLeft.nReader = 1 ∧ EndsOk oneLeft :=
  ⟨by decide +kernel, pipe_ends boot boot_initial both oneLeft both_run⟩

end Mario.Fs.Pipe
