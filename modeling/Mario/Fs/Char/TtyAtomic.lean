import Mario.Fs.Char.TtyInput
import Mario.Fs.RingQueue

/-!
# A byte that does not fit leaves nothing

`tty_receive_c_atomic` takes back a byte of its read buffer before it knows whether the echo fits, and writes it
again when it does not. The byte is then in its old cell, so the master can try the same byte once more.
-/

namespace Mario.Fs

namespace RingBuffer

open Mario.Lib

variable {α : Type*} {rb : RingBuffer α}

theorem pop_of_none (h : rb.pop.1 = none) : rb.pop.2 = rb := by
  unfold pop at h ⊢
  rcases hdata : rb.data with - | data
  · rfl
  · rw [hdata] at h
    dsimp only at h ⊢
    split_ifs at h ⊢
    rfl

theorem copy_self (data : ℕ → α) (p : ℕ) : copy data p [data p] = data := by
  funext q
  unfold copy
  split_ifs with hle
  · rcases Nat.eq_or_lt_of_le hle with rfl | hlt
    · rw [Nat.sub_self]
      rfl
    · rw [List.getElem?_eq_none (by rw [List.length_singleton]; omega)]
      rfl
  · rfl

theorem store_self {data : ℕ → α} {p size : ℕ} (h : p < size) : store size data p [data p] = data := by
  have htake : [data p].take (size - p) = [data p] := List.take_of_length_le (by rw [List.length_singleton]; omega)
  have hdrop : [data p].drop (size - p) = [] := List.drop_eq_nil_of_le (by rw [List.length_singleton]; omega)
  rw [store, htake, hdrop, copy_self]
  funext q
  unfold copy
  split_ifs <;> rfl

/-- A byte that is taken back and written again is where it was. -/
theorem WellFormed.write_pop {b : α} (h : WellFormed rb) (hsize : rb.size ≤ 2 ^ 32) (hpop : rb.pop.1 = some b) :
    (rb.pop.2.write [b]).2 = rb := by
  obtain ⟨data, hdata⟩ := Option.isSome_iff_exists.mp h.data
  have hlen : rb.len ≠ 0 := by
    intro hzero
    rw [RingBuffer.pop, hdata] at hpop
    simp only [empty, hzero, decide_true, if_pos] at hpop
    cases hpop
  have hne : rb.empty ≠ true := by simpa [empty] using hlen
  have hle := h.len
  have htail := h.tail
  have hhead := h.pop_head hsize hlen
  have hlt : (rb.tail + (rb.len - 1)) % rb.size < rb.size := Nat.mod_lt _ (by omega)
  have hpopped : rb.pop = (some (data ((rb.tail + (rb.len - 1)) % rb.size)),
      { rb with head := (rb.tail + (rb.len - 1)) % rb.size, len := rb.len - 1 }) := by
    rw [RingBuffer.pop, hdata]
    simp only [if_neg hne, hhead]
  rw [hpopped] at hpop ⊢
  cases hpop
  have hwf : WellFormed { rb with head := (rb.tail + (rb.len - 1)) % rb.size, len := rb.len - 1 } :=
    ⟨h.data, h.size, rfl, h.tail, by dsimp only; omega⟩
  have hone : min [data ((rb.tail + (rb.len - 1)) % rb.size)].length
      (space { rb with head := (rb.tail + (rb.len - 1)) % rb.size, len := rb.len - 1 }) = 1 := by
    simp only [List.length_singleton, space]
    omega
  rw [hwf.write_eq hdata, hone, if_neg (by decide)]
  rw [List.take_of_length_le (by rw [List.length_singleton]), store_self hlt]
  obtain ⟨k, hk⟩ := h.size
  have hlast : ((rb.tail + (rb.len - 1)) % rb.size + 1) % rb.size = rb.head := by
    rw [h.head, Nat.mod_add_mod, show rb.tail + (rb.len - 1) + 1 = rb.tail + rb.len by omega]
  have hcount : rb.len - 1 + 1 = rb.len := by omega
  simp only [hlast, hcount, ← hdata]

end RingBuffer

namespace Terminal

variable {tty : Tty} {output : RingBuffer UInt8} {c : UInt8} {popped : Option UInt8} {rb : RingBuffer UInt8}
  {push wake : Bool} {sig : Option Signal} {lflag : Flags} {r : Tty × RingBuffer UInt8 × Answer}

/-- The buffers are as before, nobody is woken and no signal is sent. -/
structure Untouched (tty : Tty) (output : RingBuffer UInt8) (r : Tty × RingBuffer UInt8 × Answer) : Prop where
  sameTty : r.1 = tty
  sameOutput : r.2.1 = output
  wakeRead : r.2.2.wakeRead = false
  signal : r.2.2.signal = none

/-- The call says that there is no room, and nothing has happened, so that the byte can be tried again. The read
buffer is full, or the echo does not fit. -/
structure Refused (tty : Tty) (output : RingBuffer UInt8) (c : UInt8) (r : Tty × RingBuffer UInt8 × Answer) : Prop where
  untouched : Untouched tty output r
  again : ∀ output', ttyReceiveCAtomic r.1 c output' = ttyReceiveCAtomic tty c output'
  reason : discipline tty.termios tty.pgrp tty.readBuf c = .error .eagain ∧ tty.readBuf.full = true ∨
    ∃ q, discipline tty.termios tty.pgrp tty.readBuf c = .ok q ∧
      output.space < (q.2.1.flatMap (ttyOutputChar tty.termios)).length

/-- The call takes the byte as the line discipline says, and all of the echo is behind the output. -/
structure Taken (tty : Tty) (output : RingBuffer UInt8) (c : UInt8) (r : Tty × RingBuffer UInt8 × Answer) : Prop where
  taken : ∃ rb bytes effects, discipline tty.termios tty.pgrp tty.readBuf c = .ok (rb, bytes, effects) ∧
    r.1 = tty.setReadBuf rb ∧ r.2.2.effects = effects ∧
    r.2.1.contents = output.contents ++ bytes.flatMap (ttyOutputChar tty.termios)
  wellFormed : r.2.1.WellFormed
  size : r.2.1.size = output.size

/-- Nothing is stored where the byte that was taken back can be written again. -/
theorem commit_eagain (hnone : popped = none → rb = tty.readBuf)
    (hsome : ∀ b, popped = some b → (rb.write [b]).2 = tty.readBuf) (hpush : push = true → popped = none)
    (h : (commit tty output sig lflag c popped rb push wake).2.2.err = some .eagain) :
    Untouched tty output (commit tty output sig lflag c popped rb push wake) := by
  unfold commit at h ⊢
  by_cases hfull : push = true ∧ rb.full = true
  · rw [if_pos hfull, hnone (hpush hfull.1)]
    exact ⟨rfl, rfl, rfl, rfl⟩
  · rw [if_neg hfull] at h ⊢
    dsimp only at h ⊢
    by_cases hspace : output.space < (process tty.termios.oflag (echoBytes tty.termios lflag c popped)).length
    · rw [if_pos hspace]
      cases popped with
      | none =>
        rw [hnone rfl]
        exact ⟨rfl, rfl, rfl, rfl⟩
      | some b =>
        dsimp only
        rw [hsome b rfl]
        exact ⟨rfl, rfl, rfl, rfl⟩
    · rw [if_neg hspace] at h
      cases h

theorem commit_eagain_of_none (h : (commit tty output sig lflag c none tty.readBuf push wake).2.2.err = some .eagain) :
    Untouched tty output (commit tty output sig lflag c none tty.readBuf push wake) :=
  commit_eagain (fun _ => rfl) (fun b hb => by cases hb) (fun _ => rfl) h

theorem commit_eagain_of_pop (hread : tty.readBuf.WellFormed) (hsize : tty.readBuf.size ≤ 2 ^ 32)
    (h : (commit tty output sig lflag c tty.readBuf.pop.1 tty.readBuf.pop.2 false wake).2.2.err = some .eagain) :
    Untouched tty output (commit tty output sig lflag c tty.readBuf.pop.1 tty.readBuf.pop.2 false wake) :=
  commit_eagain RingBuffer.pop_of_none (fun _ hb => hread.write_pop hsize hb) (fun hpush => by cases hpush) h

theorem ttyReceiveCAtomic_untouched (hread : tty.readBuf.WellFormed) (hsize : tty.readBuf.size ≤ 2 ^ 32)
    (h : (ttyReceiveCAtomic tty c output).2.2.err = some .eagain) :
    Untouched tty output (ttyReceiveCAtomic tty c output) := by
  revert h
  unfold ttyReceiveCAtomic
  have hraised : (if has tty.termios.lflag isig = true then
        if c = tty.termios.cc vintr then some .sigint
        else if c = tty.termios.cc vquit then some .sigquit
        else if c = tty.termios.cc vsusp then some .sigtstp
        else none
      else none) = raised tty.termios c := rfl
  by_cases hdead : tty.count = 0 ∨ tty.hungUp = true
  · rw [if_pos hdead]
    intro h
    cases h
  · rw [if_neg hdead]
    dsimp only
    rw [hraised]
    cases hsig : raised tty.termios c with
    | some signal =>
      rw [Option.isSome_some, if_pos rfl]
      exact commit_eagain_of_none
    | none =>
      rw [Option.isSome_none, if_neg (by decide)]
      by_cases hign : c = cr ∧ has tty.termios.iflag igncr
      · rw [if_pos hign]
        exact commit_eagain_of_none
      · rw [if_neg hign]
        generalize (if c = cr then if has tty.termios.iflag icrnl then nl else c
          else if c = nl ∧ has tty.termios.iflag inlcr then cr else c) = c'
        by_cases herase : has tty.termios.lflag icanon ∧ c' = tty.termios.cc verase
        · rw [if_pos herase]
          by_cases hempty : tty.readBuf.empty = true
          · rw [if_pos hempty]
            exact commit_eagain_of_none
          · rw [if_neg hempty]
            exact commit_eagain_of_pop hread hsize
        · rw [if_neg herase]
          by_cases hline : has tty.termios.lflag icanon ∧
              (c' = tty.termios.cc veof ∨ c' = nl ∨ c' = cr ∨ c' = tty.termios.cc veol)
          · rw [if_pos hline]
            exact commit_eagain_of_none
          · rw [if_neg hline]
            exact commit_eagain_of_none

/-- The full read buffer is the only thing that the line discipline refuses. -/
theorem discipline_error {t : Termios} {pgrp : ℤ} {e : Errno} (h : discipline t pgrp rb c = .error e) :
    discipline t pgrp rb c = .error .eagain ∧ rb.full = true := by
  revert h
  unfold discipline
  cases raised t c with
  | some signal =>
    intro h
    cases h
  | none =>
    cases translated t c with
    | none =>
      intro h
      cases h
    | some c =>
      dsimp only
      by_cases herase : has t.lflag icanon ∧ c = t.cc verase
      · rw [if_pos herase]
        intro h
        cases h
      · rw [if_neg herase]
        cases hfull : rb.full with
        | true =>
          rw [if_pos rfl]
          exact fun _ => ⟨rfl, rfl⟩
        | false =>
          rw [if_neg (by decide)]
          intro h
          cases h

/-- A byte that finds no room for itself or for its echo leaves the buffers as they were, and the echo of a byte that
is taken is complete. -/
theorem ttyReceiveCAtomic_atomic (hread : tty.readBuf.WellFormed) (hsize : tty.readBuf.size ≤ 2 ^ 32)
    (houtput : output.WellFormed) (c : UInt8) :
    ((ttyReceiveCAtomic tty c output).2.2.err = some .eagain →
      Refused tty output c (ttyReceiveCAtomic tty c output)) ∧
    ((ttyReceiveCAtomic tty c output).2.2.err = none → Taken tty output c (ttyReceiveCAtomic tty c output)) := by
  let s : Pty := { tty := tty, output := output, masterOpen := true }
  have hlive : (ttyReceiveCAtomic tty c output).2.2.err ≠ some .eio → tty.count ≠ 0 ∧ tty.hungUp = false := by
    intro h
    by_contra hdead
    refine h ?_
    rw [ttyReceiveCAtomic, if_pos (by grind)]
    rfl
  constructor
  · intro h
    have huntouched := ttyReceiveCAtomic_untouched hread hsize h
    refine ⟨huntouched, fun output' => by rw [huntouched.sameTty], ?_⟩
    obtain ⟨hcount, hup⟩ := hlive (by rw [h]; simp)
    have hcall : receiveAtomic s c = .error .eagain := by
      rw [receiveAtomic, settle, h]
    rw [receiveAtomic_eq (s := s) hcount hup] at hcall
    cases hd : discipline tty.termios tty.pgrp tty.readBuf c with
    | error e => exact Or.inl (hd ▸ discipline_error hd)
    | ok q =>
      refine Or.inr ⟨q, rfl, ?_⟩
      have hq : discipline s.tty.termios s.tty.pgrp s.tty.readBuf c = .ok q := hd
      rw [hq, Except.bind] at hcall
      rw [← process_eq]
      by_contra hspace
      rw [if_neg hspace] at hcall
      cases hcall
  · intro h
    obtain ⟨hcount, hup⟩ := hlive (by rw [h]; simp)
    have hcall : receiveAtomic s c = .ok ({ s with
        tty := (ttyReceiveCAtomic tty c output).1, output := (ttyReceiveCAtomic tty c output).2.1 },
        (ttyReceiveCAtomic tty c output).2.2.effects) := by
      rw [receiveAtomic, settle, h]
    obtain ⟨-, rb, bytes, effects, hd, hfits, heq⟩ := receiveAtomic_ok hup hcall
    have hw : Wrote (s.setReadBuf rb) _ (stored s rb _) := wrote_stored houtput hfits
    obtain ⟨hstate, heffects⟩ := Prod.mk.inj heq
    rw [← hstate] at hw
    refine ⟨⟨rb, bytes, effects, hd, hw.tty, heffects, ?_⟩, hw.wellFormed, hw.size⟩
    rw [← process_eq]
    exact hw.contents

/-- A terminal with a letter in its read buffer. -/
def typedTty : Tty := freshPty.tty.setReadBuf (freshPty.tty.readBuf.write [97]).2

/-- An output buffer with no room. -/
def fullOutput : RingBuffer UInt8 where
  data := some fun _ => 46
  size := RingBuffer.pageSize
  head := 0
  tail := 0
  len := RingBuffer.pageSize

/-- The letter is erased when there is room for the echo, and stays when there is none. -/
theorem ttyReceiveCAtomic_atomic_erase :
    Refused typedTty fullOutput del (ttyReceiveCAtomic typedTty del fullOutput) ∧
      Taken typedTty (.init fun _ => 0) del (ttyReceiveCAtomic typedTty del (.init fun _ => 0)) :=
  ⟨(ttyReceiveCAtomic_atomic ((RingBuffer.init_wellFormed _).write _).1 (by decide)
      ⟨rfl, ⟨12, rfl⟩, rfl, by decide, by decide⟩ del).1 (by decide),
    (ttyReceiveCAtomic_atomic ((RingBuffer.init_wellFormed _).write _).1 (by decide)
      (RingBuffer.init_wellFormed _) del).2 (by decide)⟩

end Terminal

end Mario.Fs
