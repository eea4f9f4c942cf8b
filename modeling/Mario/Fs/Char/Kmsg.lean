import Mario.Kernel.LogRing

/-!
# Readers of /dev/kmsg

Open files of `fs/char/kmsg.c`, used by one call at a time, next to stores into the log and clear operations.
A call of `kmsg_read` tests the log under its lock, and sleeps on `kmsg_wait` without giving a wake-up away;
`logbuf_store` wakes the sleepers after it has released the lock. What a reader is told is kept beside it.
-/

namespace Mario.Fs.Kmsg

open Mario.Lib Mario.Kernel.Logbuf

/-- How far a call of `kmsg_read` is. -/
inductive Phase
  | idle
  /-- In the loop of `logbuf_read_wait`. -/
  | testing (count : ℕ) (nonblock : Bool)
  /-- In `sleep_on`. -/
  | asleep (count : ℕ) (nonblock : Bool)
  /-- `memcpy_tofs` is next, and then the cursor is set. -/
  | copying (nextSeq : ℕ)
  /-- The call returns `-EPIPE`, and the cursor is to be set. -/
  | overrun
  deriving DecidableEq

/-- An open file, with what it has given to its reader. -/
structure Reader where
  /-- `(uint32_t) f->f_pos`. -/
  pos : ℕ
  phase : Phase
  /-- Which message, counted from the first of all, the reader starts from. -/
  start : ℕ
  /-- The lines it has read since then, and the sizes of its buffers. -/
  lines : List (ℕ × List Byte)
  /-- How many messages there were before the one that had the number 0 when the cursor was set. -/
  base : ℕ
  /-- `-EAGAIN` was returned though there was a newer record. -/
  refused : Bool

/-- Which message the reader is to read next. -/
def Reader.want (r : Reader) : ℕ := r.start + r.lines.length

structure State where
  log : Log
  /-- Calls of `wake_up_all` that are still to come. -/
  wakes : ℕ
  readers : List Reader
  /-- All messages. -/
  messages : List LogRecord
  /-- How many messages there were at the last clear operation. -/
  base : ℕ

/-- The first message that is in the log. -/
def State.first (s : State) : ℕ := s.messages.length - s.log.logCount

/-- The size of the array in `kmsg_read`. -/
def lineMax : ℕ := logLineMax + 64

inductive Label
  | store (jiffies prio : BitVec 32) (text : Option (List Byte))
  | wakeUpAll
  | clear
  | formatSyslog (size : ℕ) (clearing : Bool)
  | openFile
  | seekSet (i : ℕ)
  | seekEnd (i : ℕ)
  | read (i count : ℕ) (nonblock : Bool)
  /-- A round of `logbuf_read_wait`, where a signal may be pending. -/
  | test (i : ℕ) (signal : Bool)
  /-- A signal wakes the reader. -/
  | interrupt (i : ℕ)
  | finish (i : ℕ)

/-- The wake-up of one reader. -/
def Reader.wake (r : Reader) : Reader :=
  match r.phase with
  | .asleep count nonblock => { r with phase := .testing count nonblock }
  | _ => r

/-- A round of `logbuf_read_wait`. -/
def test (s : State) (r : Reader) (count : ℕ) (nonblock signal : Bool) : Reader :=
  if signal then { r with phase := .idle }
  else
    let size := if count < lineMax then count else lineMax
    match readSeqLocked s.log r.pos size with
    | .error _ => { r with phase := .overrun }
    | .ok ([], _) =>
        if nonblock then
          { r with
            phase := .idle
            refused := r.refused || (s.log.logCount ≠ 0 && r.want ≠ s.messages.length) }
        else { r with phase := .asleep count nonblock }
    | .ok (b :: line, nextSeq) =>
        { r with
          phase := .copying nextSeq, lines := r.lines ++ [(count, b :: line)], base := s.base }

/-- The cursor is set to a number, and the reader starts from a message. -/
def Reader.moveTo (r : Reader) (s : State) (pos start : ℕ) : Reader :=
  { r with pos := pos, phase := .idle, start := start, lines := [], base := s.base }

/-- The end of `kmsg_read`. -/
def finish (s : State) (r : Reader) : Option Reader :=
  match r.phase with
  | .copying nextSeq => some { r with pos := nextSeq, phase := .idle }
  | .overrun => some (r.moveTo s (oldestSeqLocked s.log) s.first)
  | _ => none

/-- One reader changes. -/
def State.setReader (s : State) (i : ℕ) (r : Reader) : State :=
  { s with readers := s.readers.set i r }

/-- The messages before a clear operation have lost their numbers. -/
def State.cleared (s : State) (log : Log) : State :=
  { s with log := log, base := s.messages.length }

/-- A step. `sys_read` and `sys_readv` return early for a count of 0. -/
def exec (s : State) : Label → Option State
  | .store jiffies prio (some (b :: text)) =>
      some { s with
        log := logbufStore s.log jiffies prio (some (b :: text))
        messages := s.messages ++ [recordOf s.log.logNextSeq jiffies prio (b :: text)]
        wakes := s.wakes + 1 }
  | .store jiffies prio text => some { s with log := logbufStore s.log jiffies prio text }
  | .wakeUpAll =>
      if s.wakes = 0 then none
      else some { s with wakes := s.wakes - 1, readers := s.readers.map Reader.wake }
  | .clear => some (s.cleared (logbufClear s.log))
  | .formatSyslog size clearing =>
      let log := (logbufFormatSyslog s.log size clearing).2
      some (if clearing then s.cleared log else { s with log := log })
  | .openFile =>
      some { s with readers := s.readers ++
        [{ pos := oldestSeqLocked s.log, phase := .idle, start := s.first, lines := []
           base := s.base, refused := false }] }
  | .seekSet i => do
      let r ← s.readers[i]?
      if r.phase = .idle then
        some (s.setReader i (r.moveTo s (oldestSeqLocked s.log) s.first))
      else none
  | .seekEnd i => do
      let r ← s.readers[i]?
      if r.phase = .idle then
        some (s.setReader i (r.moveTo s s.log.logNextSeq s.messages.length))
      else none
  | .read i count nonblock => do
      let r ← s.readers[i]?
      if r.phase = .idle ∧ count ≠ 0 then
        some (s.setReader i { r with phase := .testing count nonblock })
      else none
  | .test i signal => do
      let r ← s.readers[i]?
      match r.phase with
      | .testing count nonblock => some (s.setReader i (test s r count nonblock signal))
      | _ => none
  | .interrupt i => do
      let r ← s.readers[i]?
      some (s.setReader i r.wake)
  | .finish i => do
      let r ← s.readers[i]?
      let r ← finish s r
      some (s.setReader i r)

def Step (s : State) (a : Label) (t : State) : Prop := exec s a = some t

/-- After `logbuf_init`. -/
structure Initial (s : State) : Prop where
  log : ∃ log, s.log = logbufInit log
  wakes : s.wakes = 0
  readers : s.readers = []
  messages : s.messages = []
  base : s.base = 0

end Mario.Fs.Kmsg
