import Mario.Fs.Char.TtyLines

/-!
# Polling the master of a pty

`pty_master_poll` wants room for three bytes before it says that the master can write. No echo is longer, so a byte that
is written then is taken.
-/

namespace Mario.Fs.Terminal

/-- A pair: `slave_open` beside what the terminal needs. -/
structure Pair extends Pty where
  slaveOpen : ℕ

/-- `POLLIN`, `POLLOUT` and the two bits that are set together. -/
structure PollMask where
  pollin : Bool
  pollout : Bool
  pollhup : Bool

def ptyMasterPoll (p : Pair) : PollMask where
  pollin := !p.output.empty
  pollhup := p.output.empty && p.slaveOpen == 0
  pollout := p.slaveOpen != 0 && !p.tty.hungUp && !p.tty.readBuf.full && decide (3 ≤ p.output.space)

/-- `pty_master_read` without waiting. -/
def ptyMasterRead (p : Pair) (count : ℕ) : Except Errno (List UInt8) × Pair :=
  if p.output.empty then (.error (if p.slaveOpen = 0 then .eio else .eagain), p)
  else (.ok (p.output.read count).1, { p with output := (p.output.read count).2 })

/-- `pty_master_write` without waiting, with the number of bytes so far. -/
def ptyMasterWrite : Pair → ℕ → List UInt8 → Except Errno ℕ × Pair
  | p, i, [] => (.ok i, p)
  | p, i, c :: buf =>
      let stop (e : Errno) : Except Errno ℕ := if i ≠ 0 then .ok i else .error e
      if p.slaveOpen = 0 then (stop .eio, p)
      else
        let r := ttyReceiveCAtomic p.tty c p.output
        let p := { p with tty := r.1, output := r.2.1 }
        match r.2.2.err with
        | none => ptyMasterWrite p (i + 1) buf
        | some e => (stop e, p)

/-- What happens to a pair. -/
inductive PairEvent
  | terminal (e : Event)
  | masterWrite (buf : List UInt8)
  /-- `set_termios`. -/
  | setTermios (t : Termios)
  /-- `TCFLSH` of the input. -/
  | flush
  /-- `TIOCSPGRP`, or a new controlling session. -/
  | setPgrp (pgrp : ℤ)
  | slaveOpen
  | slaveClose
  /-- `pty_master_open`, when the pair has become free. -/
  | masterOpen

def Pair.step (p : Pair) : PairEvent → Pair
  | .terminal e => { p with toPty := p.toPty.step e }
  | .masterWrite buf => (ptyMasterWrite p 0 buf).2
  | .setTermios t => { p with tty := { p.tty with termios := t } }
  | .flush => { p with tty := { p.tty with readBuf := p.tty.readBuf.clear } }
  | .setPgrp n => { p with tty := { p.tty with pgrp := n } }
  | .slaveOpen => { p with slaveOpen := p.slaveOpen + 1, tty := { p.tty with count := p.tty.count + 1 } }
  | .slaveClose => { p with slaveOpen := p.slaveOpen - 1, tty := { p.tty with count := p.tty.count - 1 } }
  | .masterOpen =>
      { p with
        slaveOpen := 0
        masterOpen := true
        output := p.output.clear
        tty := { count := 1, hungUp := false, termios := defaultTermios, pgrp := 0, readBuf := p.tty.readBuf.clear } }

/-- A pair that has not been opened. -/
def closedPair (page page' : ℕ → UInt8) : Pair where
  tty := { count := 0, hungUp := false, termios := defaultTermios, pgrp := 0, readBuf := .init page }
  output := .init page'
  masterOpen := false
  slaveOpen := 0

variable {p : Pair} {s : Pty} {c : UInt8}

theorem ptyMasterWrite_sound (h : p.toPty.Sound) (i : ℕ) (buf : List UInt8) :
    (ptyMasterWrite p i buf).2.toPty.Sound := by
  induction buf generalizing p i with
  | nil => exact h
  | cons c buf ih =>
    have hstep : (p.toPty.step (.receiveAtomic c)).Sound := (receiveAtomic_eq_edited h c).1.sound
    rw [ptyMasterWrite]
    by_cases hopen : p.slaveOpen = 0
    · rw [if_pos hopen]
      exact h
    · rw [if_neg hopen]
      dsimp only
      cases (ttyReceiveCAtomic p.tty c p.output).2.2.err with
      | none => exact ih hstep (i + 1)
      | some e => exact hstep

theorem Pair.step_sound (h : p.toPty.Sound) (e : PairEvent) : (p.step e).toPty.Sound := by
  cases e with
  | terminal e => exact (h.step e).1
  | masterWrite buf => exact ptyMasterWrite_sound h 0 buf
  | setTermios t => exact ⟨h.read, h.readSize, h.output, h.outputSize⟩
  | flush => exact ⟨h.read.clear.1, h.readSize, h.output, h.outputSize⟩
  | setPgrp n => exact ⟨h.read, h.readSize, h.output, h.outputSize⟩
  | slaveOpen => exact ⟨h.read, h.readSize, h.output, h.outputSize⟩
  | slaveClose => exact ⟨h.read, h.readSize, h.output, h.outputSize⟩
  | masterOpen => exact ⟨h.read.clear.1, h.readSize, h.output.clear.1, h.outputSize⟩

theorem run_sound (page page' : ℕ → UInt8) (events : List PairEvent) :
    (events.foldl Pair.step (closedPair page page')).toPty.Sound := by
  have hinit : (closedPair page page').toPty.Sound :=
    ⟨RingBuffer.init_wellFormed page, rfl, RingBuffer.init_wellFormed page', rfl⟩
  generalize closedPair page page' = p at hinit
  induction events generalizing p with
  | nil => exact hinit
  | cons e events ih => exact ih _ (p.step_sound hinit e)

/-- With room for a byte and three bytes of echo a byte is taken, or the terminal is not open. -/
theorem receiveAtomic_ne_eagain (h : s.Sound) (hfull : s.tty.readBuf.full = false) (hspace : 3 ≤ s.output.space) (c : UInt8) :
    (ttyReceiveCAtomic s.tty c s.output).2.2.err ≠ some .eagain := by
  intro herr
  have hlen := h.read.len
  have hne : s.tty.readBuf.len ≠ s.tty.readBuf.size := by simpa [RingBuffer.full] using hfull
  obtain ⟨rb, bytes, effects, hd, hecho, -, -⟩ := discipline_ok s.tty.termios s.tty.pgrp c (show s.tty.readBuf.len < s.tty.readBuf.size by omega)
  obtain ⟨-, -, hreason⟩ := (ttyReceiveCAtomic_atomic h.read (by rw [h.readSize]; decide) h.output c).1 herr
  rcases hreason with ⟨hagain, -⟩ | ⟨q, hq, hshort⟩
  · rw [hd] at hagain
    cases hagain
  · obtain rfl := Except.ok.inj (hd.symm.trans hq)
    rw [← process_eq] at hshort
    exact absurd hecho (Nat.not_le.mpr (Nat.lt_of_le_of_lt hspace hshort))

/-- What poll says of the master is so: a byte is not refused for lack of room, and a read gets bytes. -/
theorem master_poll_sound (page page' : ℕ → UInt8) (events : List PairEvent) :
    let p := events.foldl Pair.step (closedPair page page')
    ((ptyMasterPoll p).pollout = true → ∀ c, (ptyMasterWrite p 0 [c]).1 ≠ .error .eagain) ∧
      ((ptyMasterPoll p).pollin = true → ∀ count, 0 < count →
        ∃ l p', ptyMasterRead p count = (.ok l, p') ∧ l ≠ []) := by
  have hsound := run_sound page page' events
  generalize events.foldl Pair.step (closedPair page page') = p at hsound
  constructor
  · intro hpoll c
    simp only [ptyMasterPoll, Bool.and_eq_true, bne_iff_ne, Bool.not_eq_true', decide_eq_true_eq] at hpoll
    obtain ⟨⟨⟨hopen, -⟩, hfull⟩, hspace⟩ := hpoll
    have hne := receiveAtomic_ne_eagain hsound hfull hspace c
    rw [ptyMasterWrite, if_neg hopen]
    dsimp only
    cases herr : (ttyReceiveCAtomic p.tty c p.output).2.2.err with
    | none =>
      intro heq
      cases heq
    | some e =>
      rw [herr] at hne
      intro heq
      exact hne (congrArg some (Except.error.inj heq))
  · intro hpoll count hcount
    have hne : ¬ p.output.empty = true := by simpa [ptyMasterPoll] using hpoll
    refine ⟨(p.output.read count).1, _, if_neg hne, ?_⟩
    rw [(hsound.output.read count).2.1]
    intro hnil
    have hcontents := mt hsound.output.empty_iff.mpr hne
    rw [List.take_eq_nil_iff] at hnil
    exact hnil.elim (by omega) hcontents

end Mario.Fs.Terminal
