import Mario.Fs.Char.Kmsg
import Mario.Lib.Runs

/-!
# What the readers of /dev/kmsg obtain

A reader whose cursor still stands for the message that it is to read next obtains that message, or waits when
there is none. After a clear operation, or when the message has been dropped, the cursor is an old number, and
the reader is told so unless the number is in use again.
-/

namespace Mario.Fs.Kmsg

open Mario.Lib Mario.Kernel.Logbuf

/-- What a reader was given: the messages from its starting point on, each once and cut at the size of the
buffer only. It does not sleep while there is a newer record, unless a wake-up is on its way. -/
structure Served (s : State) (r : Reader) : Prop where
  lines : ∀ k count line, r.lines[k]? = some (count, line) →
    ∃ x, s.messages[r.start + k]? = some x ∧ line = (formatKmsgLine x.header x.text).take count
  waiting : ∀ count nonblock, r.phase = .asleep count nonblock → s.wakes = 0 →
    s.log.logCount = 0 ∨ r.want = s.messages.length
  refused : r.refused = false

def Safe (s : State) : Prop := ∀ r ∈ s.readers, Served s r

/-- The message that the reader wants was dropped, or the messages have other numbers now. -/
def Outdated (s : State) (r : Reader) : Prop :=
  r.want < s.first ∨ (s.base - r.base) % wordSize ≠ 0

instance (s : State) (r : Reader) : Decidable (Outdated s r) :=
  inferInstanceAs (Decidable (_ ∨ _))

/-- A record has the number, or the next one will have it. -/
def InUse (s : State) (seq : ℕ) : Prop :=
  seq = s.log.logNextSeq ∨ ∃ x ∈ records s.log, x.header.seq = seq

instance (s : State) (seq : ℕ) : Decidable (InUse s seq) := inferInstanceAs (Decidable (_ ∨ _))

/-- The number in an outdated cursor is not in use when the log is tested. -/
def Good (s : State) : Label → Prop
  | .test i false =>
      match s.readers[i]? with
      | some r => s.log.logCount ≠ 0 → Outdated s r → ¬ InUse s r.pos
      | none => True
  | _ => True

instance (s : State) (a : Label) : Decidable (Good s a) := by
  unfold Good
  split
  · split
    · infer_instance
    · infer_instance
  · infer_instance

/-! ## Lines -/

theorem formatKmsgLine_length {x : LogRecord} (h : x.Valid) : (formatKmsgLine x.header x.text).length ≤ lineMax := by
  have hprio := digits_length 10 x.header.prio
  have hseq := digits_length 10 x.header.seq
  have husec := digits_length 20 x.header.usec
  have hflags := digits_length 10 x.header.flags
  have htext := h.text
  simp only [formatKmsgLine, appendU32, appendU64, List.length_append, List.length_reverse,
    List.length_take, List.length_cons, List.length_nil]
  unfold lineMax logLineMax at *
  omega

theorem formatKmsgLine_pos (h : LogHeader) (text : List Byte) : 0 < (formatKmsgLine h text).length := by
  simp [formatKmsgLine]

/-! ## Numbers -/

theorem sub32_mod {a d : ℕ} (hd : d < wordSize) : sub32 ((a + d) % wordSize) (a % wordSize) = d := by
  unfold sub32 wordSize at *
  omega

/-- The number in the cursor, once the call is at its end. -/
def Reader.cursor (r : Reader) : ℕ :=
  match r.phase with
  | .copying nextSeq => nextSeq
  | _ => r.pos

/-- The invariant of a reader. -/
structure ReaderInv (s : State) (r : Reader) : Prop where
  served : Served s r
  want : r.want ≤ s.messages.length
  base : r.base ≤ s.base
  base_want : r.base ≤ r.want
  cursor : r.cursor = (r.want - r.base) % wordSize
  count : ∀ count nonblock, r.phase = .testing count nonblock ∨ r.phase = .asleep count nonblock →
    count ≠ 0

/-- The log holds the last messages, and their numbers count from the last clear operation on. -/
structure Inv (s : State) : Prop where
  log : Represents s.log (s.messages.drop s.first)
  retained : s.log.logCount ≤ s.messages.length
  base : s.base ≤ s.first
  nextSeq : s.log.logNextSeq = (s.messages.length - s.base) % wordSize
  seq : ∀ a x, s.base ≤ a → s.messages[a]? = some x → x.header.seq = (a - s.base) % wordSize
  reader : ∀ r ∈ s.readers, ReaderInv s r

variable {s t : State} {r : Reader} {count i : ℕ} {nonblock signal : Bool}

theorem Inv.count_lt (h : Inv s) : s.log.logCount < wordSize / 2 := by
  have hlength := length_le_total (s.messages.drop s.first)
  rw [← h.log.used, ← h.log.count] at hlength
  have hle := h.log.le
  have hlt : logBufLen < wordSize / 2 := by decide
  omega

/-- The number of a message in the log is not the next one, and not the number of another one. -/
theorem Inv.number_inj (h : Inv s) {a b : ℕ} (ha : s.first ≤ a) (hb : a ≤ b)
    (hlength : b ≤ s.messages.length) (heq : (a - s.base) % wordSize = (b - s.base) % wordSize) : a = b := by
  have hcount := h.count_lt
  have hbase := h.base
  have hretained := h.retained
  unfold State.first at *
  unfold wordSize at *
  omega

theorem Inv.readSeq_message (h : Inv s) {size : ℕ} {x : LogRecord} (hfirst : s.first ≤ r.want)
    (hx : s.messages[r.want]? = some x) (hpos : r.pos = (r.want - s.base) % wordSize) :
    readSeqLocked s.log r.pos size = .ok ((formatKmsgLine x.header x.text).take size,
      (r.want + 1 - s.base) % wordSize) := by
  have hbase := h.base
  have hlt : r.want < s.messages.length := (List.getElem?_eq_some_iff.mp hx).1
  have hxseq : x.header.seq = (r.want - s.base) % wordSize := h.seq r.want x (by omega) hx
  have hnext : r.pos ≠ s.log.logNextSeq := by
    intro heq
    rw [hpos, h.nextSeq] at heq
    have := h.number_inj hfirst hlt.le (Nat.le_refl _) heq
    omega
  have hlog := h.log
  cases hl : s.messages.drop s.first with
  | nil =>
    have hlength : s.messages.length ≤ s.first := List.drop_eq_nil_iff.mp hl
    omega
  | cons x₀ l =>
    rw [hl] at hlog
    have hx₀ : s.messages[s.first]? = some x₀ := by
      rw [← Nat.add_zero s.first, ← List.getElem?_drop, hl, List.getElem?_cons_zero]
    -- the cursor is less than half of all numbers ahead of the oldest record
    have hdistance : sub32 r.pos x₀.header.seq = r.want - s.first := by
      have hsum : r.want - s.base = s.first - s.base + (r.want - s.first) := by omega
      have hcount := h.count_lt
      have hretained := h.retained
      rw [h.seq s.first x₀ hbase hx₀, hpos, hsum]
      refine sub32_mod ?_
      unfold State.first at *
      omega
    have hnear : ¬ wordSize / 2 ≤ sub32 r.pos x₀.header.seq := by
      have hcount := h.count_lt
      have hretained := h.retained
      rw [hdistance]
      unfold State.first at *
      omega
    have hfind : (x₀ :: l).find? (fun y => y.header.seq = r.pos) = some x := by
      rw [← hl, List.find?_eq_some_iff_getElem]
      constructor
      · rw [hxseq, hpos]
        exact decide_eq_true rfl
      · refine ⟨r.want - s.first, by rw [List.length_drop]; omega, ?_, ?_⟩
        · have hget := (List.getElem?_eq_some_iff.mp hx).2
          simp only [List.getElem_drop, Nat.add_sub_cancel' hfirst, hget]
        · intro j hj
          have hbefore : s.first + j < s.messages.length := by omega
          have hj' := h.seq (s.first + j) _ (by omega) (List.getElem?_eq_getElem hbefore)
          simp only [List.getElem_drop, hj', hpos, Bool.not_eq_true', decide_eq_false_iff_not]
          intro heq
          have := h.number_inj (by omega) (by omega) hlt.le heq
          omega
    rw [hlog.readSeq, if_neg hnext, if_neg hnear, hfind]
    dsimp only
    rw [hxseq, Nat.mod_add_mod]
    congr 3
    omega

theorem Inv.readSeq_end (h : Inv s) {size : ℕ} (hwant : r.want = s.messages.length)
    (hpos : r.pos = (r.want - s.base) % wordSize) : readSeqLocked s.log r.pos size = .ok ([], r.pos) := by
  rw [readSeqLocked, if_pos]
  right
  rw [hpos, hwant, h.nextSeq]

theorem Inv.readSeq_outdated (h : Inv s) {size : ℕ} (hcount : s.log.logCount ≠ 0)
    (hpos : ¬ InUse s r.pos) : readSeqLocked s.log r.pos size = .error .EPIPE := by
  have hlog := h.log
  have hrecords := hlog.records_eq
  unfold InUse at hpos
  rw [hrecords] at hpos
  push Not at hpos
  cases hl : s.messages.drop s.first with
  | nil =>
    rw [hl] at hlog
    exact absurd hlog.count hcount
  | cons x₀ l =>
    rw [hl] at hlog hpos
    have hfind : (x₀ :: l).find? (fun y => y.header.seq = r.pos) = none := by
      rw [List.find?_eq_none]
      intro y hy
      simpa using hpos.2 y hy
    rw [hlog.readSeq, if_neg hpos.1, hfind]
    split_ifs <;> rfl

/-! ## Readers -/

/-- What is kept of a reader when more messages come and old ones go. -/
theorem ReaderInv.mono (h : ReaderInv s r) {l : List LogRecord}
    (hmessages : t.messages = s.messages ++ l) (hbase : s.base ≤ t.base)
    (hwaiting : ∀ count nonblock, r.phase = .asleep count nonblock → t.wakes = 0 →
      t.log.logCount = 0 ∨ r.want = t.messages.length) : ReaderInv t r := by
  constructor
  · constructor
    · intro k count line hk
      obtain ⟨x, hx, hline⟩ := h.served.lines k count line hk
      refine ⟨x, ?_, hline⟩
      rw [hmessages, List.getElem?_append_left (List.getElem?_eq_some_iff.mp hx).1]
      exact hx
    · exact hwaiting
    · exact h.served.refused
  · rw [hmessages, List.length_append]
    exact h.want.trans (Nat.le_add_right _ _)
  · exact h.base.trans hbase
  · exact h.base_want
  · exact h.cursor
  · exact h.count

/-- A reader that is in no call and has not set its cursor anew. -/
theorem ReaderInv.setPhase (h : ReaderInv s r) {phase : Phase}
    (hcursor : (Reader.cursor { r with phase := phase }) = r.cursor)
    (hwaiting : ∀ count nonblock, phase = .asleep count nonblock → s.wakes = 0 →
      s.log.logCount = 0 ∨ r.want = s.messages.length)
    (hcount : ∀ count nonblock, phase = .testing count nonblock ∨ phase = .asleep count nonblock →
      count ≠ 0) : ReaderInv s { r with phase := phase } := by
  constructor
  · exact ⟨h.served.lines, hwaiting, h.served.refused⟩
  · exact h.want
  · exact h.base
  · exact h.base_want
  · rw [hcursor]
    exact h.cursor
  · exact hcount

theorem ReaderInv.wake (h : ReaderInv s r) : ReaderInv s r.wake := by
  unfold Reader.wake
  split
  · rename_i count nonblock hphase
    refine h.setPhase ?_ (by simp) ?_
    · simp only [Reader.cursor, hphase]
    · intro count' nonblock' hcount
      obtain ⟨rfl, rfl⟩ : count = count' ∧ nonblock = nonblock' := by simpa using hcount
      exact h.count count nonblock (Or.inr hphase)
  · exact h

theorem Reader.wake_not_asleep (r : Reader) (count : ℕ) (nonblock : Bool) : r.wake.phase ≠ .asleep count nonblock := by
  unfold Reader.wake
  split
  · simp
  · rename_i hphase
    exact hphase count nonblock

/-- A reader whose cursor has been set to the number of a message, or to the next number. -/
theorem Inv.moveTo (h : Inv s) {pos start : ℕ} (hfirst : s.first ≤ start)
    (hlength : start ≤ s.messages.length) (hpos : pos = (start - s.base) % wordSize)
    (hrefused : r.refused = false) : ReaderInv s (r.moveTo s pos start) := by
  have hbase := h.base
  constructor
  · refine ⟨?_, ?_, hrefused⟩
    · intro k count line hk
      exact absurd hk (by simp [Reader.moveTo])
    · intro count nonblock hphase
      exact absurd hphase (by simp [Reader.moveTo])
  · exact hlength
  · exact Nat.le_refl _
  · exact hbase.trans hfirst
  · exact hpos
  · intro count nonblock hphase
    exact absurd hphase (by simp [Reader.moveTo])

theorem Inv.oldestSeq (h : Inv s) : oldestSeqLocked s.log = (s.first - s.base) % wordSize := by
  have hlog := h.log
  cases hl : s.messages.drop s.first with
  | nil =>
    rw [hl] at hlog
    have hcount : s.log.logCount = 0 := hlog.count
    rw [oldestSeqLocked, if_pos hcount, h.nextSeq, State.first, hcount, Nat.sub_zero]
  | cons x₀ l =>
    rw [hl] at hlog
    have hx₀ : s.messages[s.first]? = some x₀ := by
      rw [← Nat.add_zero s.first, ← List.getElem?_drop, hl, List.getElem?_cons_zero]
    rw [hlog.oldestSeq]
    exact h.seq s.first x₀ h.base hx₀

/-- The reader waits, or is told to come again, when there is nothing newer. -/
theorem ReaderInv.test_nothing (h : ReaderInv s r) (hphase : r.phase = .testing count nonblock)
    (hnone : s.log.logCount = 0 ∨ r.want = s.messages.length)
    (hread : ∀ size, readSeqLocked s.log r.pos size = .ok ([], r.pos)) :
    ReaderInv s (test s r count nonblock false) := by
  have hcursor : r.cursor = r.pos := by simp only [Reader.cursor, hphase]
  have hcount : count ≠ 0 := h.count count nonblock (Or.inl hphase)
  unfold test
  simp only [hread, Bool.false_eq_true, if_false]
  cases nonblock with
  | true =>
    have hrefused : (r.refused || (s.log.logCount ≠ 0 && r.want ≠ s.messages.length)) = r.refused := by
      rcases hnone with hzero | hend
      · simp [hzero]
      · simp [hend]
    rw [if_pos rfl]
    rw [hrefused]
    exact h.setPhase hcursor.symm (by simp) (by simp)
  | false =>
    rw [if_neg Bool.false_ne_true]
    refine h.setPhase hcursor.symm (fun _ _ _ _ => hnone) ?_
    intro count' nonblock' hcount'
    obtain ⟨rfl, -⟩ : count = count' ∧ false = nonblock' := by simpa using hcount'
    exact hcount

theorem ReaderInv.test_overrun (h : ReaderInv s r) (hphase : r.phase = .testing count nonblock)
    (hread : ∀ size, readSeqLocked s.log r.pos size = .error .EPIPE) : ReaderInv s (test s r count nonblock false) := by
  have hcursor : r.cursor = r.pos := by simp only [Reader.cursor, hphase]
  unfold test
  simp only [hread, Bool.false_eq_true, if_false]
  exact h.setPhase hcursor.symm (by simp) (by simp)

theorem Inv.test_message (h : Inv s) (hr : ReaderInv s r) (hphase : r.phase = .testing count nonblock)
    {x : LogRecord} (hfirst : s.first ≤ r.want) (hx : s.messages[r.want]? = some x)
    (hpos : r.pos = (r.want - s.base) % wordSize) : ReaderInv s (test s r count nonblock false) := by
  have hbase := h.base
  have hlt : r.want < s.messages.length := (List.getElem?_eq_some_iff.mp hx).1
  have hcount : count ≠ 0 := hr.count count nonblock (Or.inl hphase)
  have hvalid : x.Valid := by
    refine h.log.valid x (List.mem_of_getElem? (i := r.want - s.first) ?_)
    rw [List.getElem?_drop, Nat.add_sub_cancel' hfirst]
    exact hx
  -- the array of the call cuts no line
  have hcut : (formatKmsgLine x.header x.text).take (if count < lineMax then count else lineMax) =
      (formatKmsgLine x.header x.text).take count := by
    have hlength := formatKmsgLine_length hvalid
    split_ifs with hsmall
    · rfl
    · rw [List.take_of_length_le hlength, List.take_of_length_le (by omega)]
  have hread : readSeqLocked s.log r.pos (if count < lineMax then count else lineMax) =
      .ok ((formatKmsgLine x.header x.text).take (if count < lineMax then count else lineMax),
        (r.want + 1 - s.base) % wordSize) := h.readSeq_message hfirst hx hpos
  rw [hcut] at hread
  have hline : 0 < ((formatKmsgLine x.header x.text).take count).length := by
    have := formatKmsgLine_pos x.header x.text
    rw [List.length_take]
    omega
  unfold test
  simp only [hread, Bool.false_eq_true, if_false]
  cases hcons : (formatKmsgLine x.header x.text).take count with
  | nil => rw [hcons] at hline; exact absurd hline (Nat.lt_irrefl 0)
  | cons b line =>
    have hwant : ∀ phase base, Reader.want
        { r with phase := phase, lines := r.lines ++ [(count, b :: line)], base := base } = r.want + 1 := by
      intro phase base
      simp only [Reader.want, List.length_append, List.length_singleton, Nat.add_assoc]
    constructor
    · constructor
      · intro k count' line' hk
        rcases Nat.lt_or_ge k r.lines.length with hold | hnew
        · rw [List.getElem?_append_left hold] at hk
          exact hr.served.lines k count' line' hk
        · rw [List.getElem?_append_right hnew] at hk
          obtain ⟨hzero, hget⟩ := List.getElem?_eq_some_iff.mp hk
          rw [List.length_singleton] at hzero
          obtain rfl : k = r.lines.length := by omega
          simp only [Nat.sub_self, List.getElem_cons_zero, Prod.mk.injEq] at hget
          obtain ⟨rfl, rfl⟩ := hget
          exact ⟨x, hx, hcons.symm⟩
      · intro count' nonblock' hasleep
        exact absurd hasleep (by simp)
      · exact hr.served.refused
    · rw [hwant]
      omega
    · exact Nat.le_refl _
    · rw [hwant]
      dsimp only
      omega
    · rw [hwant]
      rfl
    · intro count' nonblock' htesting
      exact absurd htesting (by simp)

theorem Inv.test (h : Inv s) (hr : ReaderInv s r) (hphase : r.phase = .testing count nonblock)
    (hgood : signal = false → s.log.logCount ≠ 0 → Outdated s r → ¬ InUse s r.pos) :
    ReaderInv s (test s r count nonblock signal) := by
  have hcursor : r.cursor = r.pos := by simp only [Reader.cursor, hphase]
  cases signal with
  | true =>
    unfold Kmsg.test
    rw [if_pos rfl]
    exact hr.setPhase hcursor.symm (by simp) (by simp)
  | false =>
    by_cases hempty : s.log.logCount = 0
    · refine hr.test_nothing hphase (Or.inl hempty) fun size => ?_
      rw [readSeqLocked, if_pos (Or.inl hempty)]
    · by_cases houtdated : Outdated s r
      · have hpos := hgood rfl hempty houtdated
        exact hr.test_overrun hphase fun size => h.readSeq_outdated hempty hpos
      · -- the cursor stands for the next message
        rw [Outdated, not_or, not_not, Nat.not_lt] at houtdated
        obtain ⟨hfirst, hsame⟩ := houtdated
        have hpos : r.pos = (r.want - s.base) % wordSize := by
          have hbase := h.base
          have hrbase := hr.base
          have hrcursor := hr.cursor
          rw [hcursor] at hrcursor
          have hsum : r.want - r.base = r.want - s.base + (s.base - r.base) := by omega
          rw [hrcursor, hsum, Nat.add_mod, hsame, Nat.add_zero, Nat.mod_mod]
        rcases Nat.lt_or_ge r.want s.messages.length with hlt | hge
        · exact h.test_message hr hphase hfirst (List.getElem?_eq_getElem hlt) hpos
        · have hend : r.want = s.messages.length := by
            have := hr.want
            omega
          exact hr.test_nothing hphase (Or.inr hend) fun size => h.readSeq_end hend hpos

theorem Inv.finish (h : Inv s) (hr : ReaderInv s r) {r' : Reader} (hfinish : finish s r = some r') :
    ReaderInv s r' := by
  unfold Kmsg.finish at hfinish
  split at hfinish
  · rename_i nextSeq hphase
    cases hfinish
    have hcursor : r.cursor = nextSeq := by simp only [Reader.cursor, hphase]
    constructor
    · refine ⟨hr.served.lines, ?_, hr.served.refused⟩
      intro count nonblock hasleep
      exact absurd hasleep (by simp)
    · exact hr.want
    · exact hr.base
    · exact hr.base_want
    · rw [← hcursor]
      exact hr.cursor
    · intro count nonblock htesting
      exact absurd htesting (by simp)
  · cases hfinish
    exact h.moveTo (Nat.le_refl _) (Nat.sub_le _ _) h.oldestSeq hr.served.refused
  · exact absurd hfinish (by simp)

/-! ## Steps -/

theorem Inv.setReader (h : Inv s) (hr : ReaderInv s r) : Inv (s.setReader i r) := by
  have hkeep : ∀ r', ReaderInv s r' → ReaderInv (s.setReader i r) r' := by
    intro r' hr
    exact hr.mono (List.append_nil _).symm (Nat.le_refl _) hr.served.waiting
  constructor
  · exact h.log
  · exact h.retained
  · exact h.base
  · exact h.nextSeq
  · exact h.seq
  · intro r' hr'
    rcases List.mem_or_eq_of_mem_set hr' with hold | rfl
    · exact hkeep r' (h.reader r' hold)
    · exact hkeep r' hr

theorem Inv.store (h : Inv s) (jiffies prio : BitVec 32) (b : Byte) (text : List Byte) :
    Inv { s with
      log := logbufStore s.log jiffies prio (some (b :: text))
      messages := s.messages ++ [recordOf s.log.logNextSeq jiffies prio (b :: text)]
      wakes := s.wakes + 1 } := by
  obtain ⟨k, hk, hrep, hseq, -⟩ := h.log.store jiffies prio (List.cons_ne_nil b text) rfl
  have hbase := h.base
  have hretained := h.retained
  have hcount := hrep.count
  have hfirst_le : s.first ≤ s.messages.length := Nat.sub_le _ _
  rw [List.length_drop] at hk
  simp only [List.length_append, List.length_drop, List.length_singleton] at hcount
  have hfirst : s.messages.length + 1 -
      (logbufStore s.log jiffies prio (some (b :: text))).logCount = s.first + k := by
    unfold State.first at *
    omega
  have hlength : (s.messages ++ [recordOf s.log.logNextSeq jiffies prio (b :: text)]).length =
      s.messages.length + 1 := by
    rw [List.length_append, List.length_singleton]
  constructor
  · simp only [State.first, hlength]
    rw [hfirst, List.drop_append_of_le_length (by omega), ← List.drop_drop]
    exact hrep
  · dsimp only
    rw [hlength]
    omega
  · simp only [State.first, hlength]
    omega
  · dsimp only
    rw [hlength, hseq, h.nextSeq, Nat.mod_add_mod]
    congr 1
    omega
  · intro a x ha hx
    rcases Nat.lt_or_ge a s.messages.length with hold | hnew
    · rw [List.getElem?_append_left hold] at hx
      exact h.seq a x ha hx
    · rw [List.getElem?_append_right hnew] at hx
      obtain ⟨hzero, hget⟩ := List.getElem?_eq_some_iff.mp hx
      rw [List.length_singleton] at hzero
      obtain rfl : a = s.messages.length := by omega
      simp only [Nat.sub_self, List.getElem_cons_zero] at hget
      rw [← hget, ← h.nextSeq]
      rfl
  · intro r hr
    refine (h.reader r hr).mono rfl (Nat.le_refl _) ?_
    intro count nonblock _ hwakes
    exact absurd hwakes (Nat.succ_ne_zero _)

theorem Inv.cleared (h : Inv s) : Inv (s.cleared (logbufClear s.log)) := by
  have hbase : s.base ≤ s.messages.length := h.base.trans (Nat.sub_le _ _)
  constructor
  · have hnone : (s.cleared (logbufClear s.log)).messages.drop
        (s.cleared (logbufClear s.log)).first = [] := List.drop_length
    rw [hnone]
    exact Mario.Kernel.Logbuf.cleared h.log.ready
  · exact Nat.zero_le _
  · exact Nat.le_refl _
  · simp [State.cleared, logbufClear]
  · intro a x ha hx
    have hlt : a < s.messages.length := (List.getElem?_eq_some_iff.mp hx).1
    exact absurd ha (Nat.not_le_of_lt hlt)
  · intro r hr
    exact (h.reader r hr).mono (List.append_nil _).symm hbase fun _ _ _ _ => Or.inl rfl

theorem Inv.wakeUpAll (h : Inv s) : Inv { s with wakes := s.wakes - 1, readers := s.readers.map Reader.wake } := by
  constructor
  · exact h.log
  · exact h.retained
  · exact h.base
  · exact h.nextSeq
  · exact h.seq
  · intro r' hr'
    obtain ⟨r, hr, rfl⟩ := List.mem_map.mp hr'
    refine (h.reader r hr).wake.mono (List.append_nil _).symm (Nat.le_refl _) ?_
    intro count nonblock hasleep
    exact absurd hasleep (r.wake_not_asleep count nonblock)

theorem Inv.openFile (h : Inv s) (hr : ReaderInv s r) : Inv { s with readers := s.readers ++ [r] } := by
  have hkeep : ∀ r', ReaderInv s r' → ReaderInv { s with readers := s.readers ++ [r] } r' := by
    intro r' hr'
    exact hr'.mono (List.append_nil _).symm (Nat.le_refl _) hr'.served.waiting
  constructor
  · exact h.log
  · exact h.retained
  · exact h.base
  · exact h.nextSeq
  · exact h.seq
  · intro r' hr'
    rcases List.mem_append.mp hr' with hold | hnew
    · exact hkeep r' (h.reader r' hold)
    · obtain rfl := List.mem_singleton.mp hnew
      exact hkeep r' hr

theorem Inv.step {a : Label} (h : Inv s) (hgood : Good s a) (hstep : Step s a t) : Inv t := by
  cases a with
  | store jiffies prio text =>
    match text with
    | none =>
      cases hstep
      exact h
    | some [] =>
      have hsame : logbufStore s.log jiffies prio (some []) = s.log := by
        simp [logbufStore]
      cases hstep
      rw [hsame]
      exact h
    | some (b :: text) =>
      cases hstep
      exact h.store jiffies prio b text
  | wakeUpAll =>
    simp only [Step, exec] at hstep
    split_ifs at hstep
    cases hstep
    exact h.wakeUpAll
  | clear =>
    cases hstep
    exact h.cleared
  | formatSyslog size clearing =>
    cases hstep
    cases clearing with
    | false => exact h
    | true => exact h.cleared
  | openFile =>
    cases hstep
    refine h.openFile ?_
    exact h.moveTo (r := ⟨0, .idle, 0, [], 0, false⟩) (Nat.le_refl _) (Nat.sub_le _ _) h.oldestSeq rfl
  | seekSet i =>
    obtain ⟨r, hr, hnext⟩ := Option.bind_eq_some_iff.mp hstep
    split_ifs at hnext
    cases hnext
    have hinv := h.reader r (List.mem_of_getElem? hr)
    exact h.setReader (h.moveTo (Nat.le_refl _) (Nat.sub_le _ _) h.oldestSeq hinv.served.refused)
  | seekEnd i =>
    obtain ⟨r, hr, hnext⟩ := Option.bind_eq_some_iff.mp hstep
    split_ifs at hnext
    cases hnext
    have hinv := h.reader r (List.mem_of_getElem? hr)
    exact h.setReader (h.moveTo (Nat.sub_le _ _) (Nat.le_refl _) h.nextSeq hinv.served.refused)
  | read i count nonblock =>
    obtain ⟨r, hr, hnext⟩ := Option.bind_eq_some_iff.mp hstep
    split_ifs at hnext with hidle
    cases hnext
    have hinv := h.reader r (List.mem_of_getElem? hr)
    refine h.setReader (hinv.setPhase ?_ (by simp) ?_)
    · simp only [Reader.cursor, hidle.1]
    · intro count' nonblock' htesting
      obtain ⟨rfl, -⟩ : count = count' ∧ nonblock = nonblock' := by simpa using htesting
      exact hidle.2
  | test i signal =>
    obtain ⟨r, hr, hnext⟩ := Option.bind_eq_some_iff.mp hstep
    split at hnext
    · rename_i count nonblock hphase
      cases hnext
      refine h.setReader (h.test (h.reader r (List.mem_of_getElem? hr)) hphase ?_)
      rintro rfl
      simpa only [Good, hr] using hgood
    · exact absurd hnext (by simp)
  | interrupt i =>
    obtain ⟨r, hr, hnext⟩ := Option.bind_eq_some_iff.mp hstep
    cases hnext
    exact h.setReader (h.reader r (List.mem_of_getElem? hr)).wake
  | finish i =>
    obtain ⟨r, hr, hrest⟩ := Option.bind_eq_some_iff.mp hstep
    obtain ⟨r', hfinish, hnext⟩ := Option.bind_eq_some_iff.mp hrest
    cases hnext
    exact h.setReader (h.finish (h.reader r (List.mem_of_getElem? hr)) hfinish)

theorem Initial.inv (h : Initial s) : Inv s := by
  obtain ⟨log, hlog⟩ := h.log
  constructor
  · rw [hlog, h.messages, List.drop_nil]
    exact initialized log
  · rw [hlog]
    exact Nat.zero_le _
  · rw [h.base]
    exact Nat.zero_le _
  · rw [hlog, h.messages, h.base]
    rfl
  · intro a x _ hx
    rw [h.messages] at hx
    exact absurd hx (by simp)
  · intro r hr
    rw [h.readers] at hr
    exact absurd hr List.not_mem_nil

/-- Every reader obtains the messages from its starting point on, each once and in order, is told when it was
overrun, and never waits while there is a newer record, as long as no outdated cursor is a number in use. -/
theorem readers_served (s₀ : State) (h₀ : Initial s₀) (labs : List Label) (s : State)
    (hrun : Run (Guarded Good Step) s₀ labs s) : Safe s := by
  have hinv : Inv s := by
    refine hrun.invariant h₀.inv ?_
    intro u v a hu hstep
    exact hu.step hstep.1 hstep.2
  intro r hr
  exact (hinv.reader r hr).served

/-! ## Runs -/

def initState : State where
  log := logbufInit
    { logBuf := fun _ => 0, logHead := 0, logTail := 0, logCount := 0, logUsed := 0
      logNextSeq := 0, logbufReady := false }
  wakes := 0
  readers := []
  messages := []
  base := 0

theorem initState_initial : Initial initState := ⟨⟨_, rfl⟩, rfl, rfl, rfl, rfl⟩

/-- Two readers sleep until the second message comes and both get it. One of them is told about a clear operation. -/
def followed : List Label :=
  [.openFile, .store 0 6 (some [65]), .openFile, .wakeUpAll, .read 0 100 false, .test 0 false, .finish 0,
    .read 1 100 false, .test 1 false, .finish 1, .read 0 3 false, .read 1 100 false, .test 0 false, .test 1 false,
    .store 7 6 (some [66]), .wakeUpAll, .test 1 false, .test 0 false, .finish 0, .finish 1,
    .clear, .store 9 6 (some [67]), .wakeUpAll, .read 0 100 true, .test 0 false, .finish 0,
    .read 0 100 true, .test 0 false, .finish 0]

theorem followed_replays : (replay Good exec initState followed).isSome := by
  decide +kernel

/-- Both readers are served, and they want different numbers at the end. -/
theorem readers_served_followed :
    Initial initState ∧ ∃ s, Run (Guarded Good Step) initState followed s ∧
      s.readers.map Reader.want = [3, 2] ∧ Safe s := by
  have hrun : Run (Guarded Good Step) initState followed
      ((replay Good exec initState followed).get followed_replays) :=
    run_of_replay (Option.some_get followed_replays).symm
  exact ⟨initState_initial, _, hrun, by decide +kernel,
    readers_served initState initState_initial _ _ hrun⟩

/-- One message is read, and another one is stored after a clear operation: its number is 0, and the reader
waits for 1. -/
def renumbered : List Label :=
  [.openFile, .store 0 6 (some [65]), .wakeUpAll, .read 0 100 false, .test 0 false, .finish 0,
    .clear, .store 0 6 (some [66]), .wakeUpAll, .read 0 100 false, .test 0 false]

theorem renumbered_replays : (replay (fun _ _ => True) exec initState renumbered).isSome := by
  decide +kernel

/-- The reader sleeps although there is a message that it has not read. -/
theorem reader_stuck :
    ¬ ∀ (s₀ : State), Initial s₀ → ∀ labs s, Run Step s₀ labs s → Safe s := by
  intro h
  have hrun : Run (Partial (fun _ _ => True) exec) initState renumbered
      ((replay (fun _ _ => True) exec initState renumbered).get renumbered_replays) :=
    run_of_replay (Option.some_get renumbered_replays).symm
  have hsafe := h initState initState_initial _ _ (hrun.mono fun _ _ _ hstep => hstep.2)
  have hserved := hsafe _ (List.getElem_mem (n := 0) (by decide +kernel))
  have hwaits := hserved.waiting 100 false (by decide +kernel) (by decide +kernel)
  exact absurd hwaits (by decide +kernel)

end Mario.Fs.Kmsg
