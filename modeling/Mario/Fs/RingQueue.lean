import Mario.Fs.RingBuffer

/-!
# Ring buffers are bounded queues

The operations of `lib/ring_buffer.c` in any order. A ring buffer answers as a list with room for a page would, to which
bytes are added behind and from which they are taken on both sides.
-/

namespace Mario.Fs.RingBuffer

open Mario.Lib

variable {α : Type*} {rb : RingBuffer α} {l : List α}

/-- `ring_buffer_clear`. -/
def clear (rb : RingBuffer α) : RingBuffer α := { rb with head := 0, tail := 0, len := 0 }

/-- `ring_buffer_avail`. -/
def avail (rb : RingBuffer α) : ℕ := rb.len

/-! ## Taking back -/

theorem WellFormed.pop_head (h : WellFormed rb) (hsize : rb.size ≤ 2 ^ 32) (hlen : rb.len ≠ 0) :
    (rb.head + 2 ^ 32 - 1) &&& (rb.size - 1) = (rb.tail + (rb.len - 1)) % rb.size := by
  obtain ⟨k, hk⟩ := h.size
  have hdvd : rb.size ∣ 2 ^ 32 := by
    rw [hk] at hsize ⊢
    exact Nat.pow_dvd_pow 2 ((Nat.pow_le_pow_iff_right (by decide)).mp hsize)
  obtain ⟨m, hm⟩ := hdvd
  rw [h.and_mask, h.head, Nat.add_sub_assoc (by decide), Nat.mod_add_mod,
    show rb.tail + rb.len + (2 ^ 32 - 1) = rb.tail + (rb.len - 1) + 2 ^ 32 by omega, hm, Nat.add_mul_mod_self_left]

theorem WellFormed.pop (h : WellFormed rb) (hsize : rb.size ≤ 2 ^ 32) :
    WellFormed rb.pop.2 ∧ rb.pop.1 = (contents rb).getLast? ∧ contents rb.pop.2 = (contents rb).dropLast ∧
      rb.pop.2.size = rb.size := by
  obtain ⟨data, hdata⟩ := Option.isSome_iff_exists.mp h.data
  have hlength := h.contents_length
  unfold RingBuffer.pop
  rw [hdata]
  dsimp only
  by_cases hempty : rb.empty = true
  · have hnil := h.empty_iff.mp hempty
    rw [if_pos hempty]
    refine ⟨h, ?_, ?_, rfl⟩
    · rw [hnil, List.getLast?_nil]
    · dsimp only
      rw [hnil, List.dropLast_nil]
  · have hlen : rb.len ≠ 0 := by simpa [empty] using hempty
    have hle := h.len
    have hcontents : contents rb = segment rb.size data rb.tail rb.len := by rw [contents, hdata]
    rw [if_neg hempty, h.pop_head hsize hlen]
    refine ⟨⟨rfl, h.size, rfl, h.tail, by dsimp only; omega⟩, ?_, ?_, rfl⟩
    · rw [List.getLast?_eq_getElem?, hlength, List.getElem?_eq_getElem (by omega)]
      simp [hcontents, Lib.segment]
    · rw [contents, List.dropLast_eq_take, hlength, hcontents, segment_take (Nat.sub_le _ _)]

theorem WellFormed.clear (h : WellFormed rb) : WellFormed rb.clear ∧ contents rb.clear = [] := by
  obtain ⟨data, hdata⟩ := Option.isSome_iff_exists.mp h.data
  refine ⟨⟨h.data, h.size, ?_, ?_, Nat.zero_le _⟩, ?_⟩
  · exact (Nat.zero_mod _).symm
  · exact Nat.lt_of_le_of_lt (Nat.zero_le _) h.tail
  · simp [contents, RingBuffer.clear, hdata, Lib.segment]

/-! ## Any operations -/

/-- A call, with the bytes to be written and the number of bytes to be read. -/
inductive Op (α : Type*)
  | write (src : List α)
  | read (count : ℕ)
  | pop
  | clear

/-- What a call returns, and the bytes that it gives. -/
inductive Answer (α : Type*)
  | written (n : ℕ)
  | bytes (l : List α)
  | popped (b : Option α)
  | done

def exec (rb : RingBuffer α) : Op α → Answer α × RingBuffer α
  | .write src => (.written (rb.write src).1, (rb.write src).2)
  | .read count => (.bytes (rb.read count).1, (rb.read count).2)
  | .pop => (.popped rb.pop.1, rb.pop.2)
  | .clear => (.done, rb.clear)

/-- A queue with room for some bytes, from which bytes are taken at both ends. -/
def queue (capacity : ℕ) (l : List α) : Op α → Answer α × List α
  | .write src => (.written (min src.length (capacity - l.length)), l ++ src.take (capacity - l.length))
  | .read count => (.bytes (l.take count), l.drop count)
  | .pop => (.popped l.getLast?, l.dropLast)
  | .clear => (.done, [])

/-- The answers to calls that are made one after the other, and the state then. -/
def answers {σ : Type*} (step : σ → Op α → Answer α × σ) : σ → List (Op α) → List (Answer α) × σ
  | s, [] => ([], s)
  | s, op :: ops =>
      let r := answers step (step s op).2 ops
      ((step s op).1 :: r.1, r.2)

/-- A ring buffer of a page holds a queue. -/
structure Holds (rb : RingBuffer α) (l : List α) : Prop where
  wellFormed : WellFormed rb
  size : rb.size = pageSize
  contents : contents rb = l

theorem Holds.exec (h : Holds rb l) (op : Op α) :
    (rb.exec op).1 = (queue pageSize l op).1 ∧ Holds (rb.exec op).2 (queue pageSize l op).2 := by
  have hsize := h.size
  obtain rfl := h.contents
  cases op with
  | write src =>
    obtain ⟨hwf, hn, hcontents, hsame⟩ := h.wellFormed.write src
    rw [hsize] at hn
    refine ⟨congrArg Answer.written hn, hwf, hsame.trans hsize, hcontents.trans ?_⟩
    rw [hn, Nat.min_comm, ← List.take_take, List.take_length]
    rfl
  | read count =>
    obtain ⟨hwf, hl, hcontents, hsame⟩ := h.wellFormed.read count
    exact ⟨congrArg Answer.bytes hl, hwf, hsame.trans hsize, hcontents⟩
  | pop =>
    obtain ⟨hwf, hb, hcontents, hsame⟩ := h.wellFormed.pop (by rw [hsize]; decide)
    exact ⟨congrArg Answer.popped hb, hwf, hsame.trans hsize, hcontents⟩
  | clear =>
    obtain ⟨hwf, hcontents⟩ := h.wellFormed.clear
    exact ⟨rfl, hwf, hsize, hcontents⟩

/-- A ring buffer and the list that it holds answer alike, and the counts and the indices agree after every call. -/
structure Alike (rb : RingBuffer α) (l : List α) : Prop where
  contents : contents rb = l
  counts : space rb + avail rb = pageSize
  head : rb.head = (rb.tail + rb.len) % rb.size

theorem Holds.alike (h : Holds rb l) : Alike rb l := by
  refine ⟨h.contents, ?_, h.wellFormed.head⟩
  have hle := h.wellFormed.len
  rw [space, avail, h.size] at *
  omega

theorem Holds.answers (h : Holds rb l) (ops : List (Op α)) :
    (answers RingBuffer.exec rb ops).1 = (answers (queue pageSize) l ops).1 ∧
      Holds (answers RingBuffer.exec rb ops).2 (answers (queue pageSize) l ops).2 := by
  induction ops generalizing rb l with
  | nil => exact ⟨rfl, h⟩
  | cons op ops ih =>
    obtain ⟨hanswer, hnext⟩ := h.exec op
    obtain ⟨hrest, hlast⟩ := ih hnext
    exact ⟨congrArg₂ List.cons hanswer hrest, hlast⟩

/-- After `ring_buffer_init` a ring buffer is a bounded queue, whatever is called. -/
theorem answers_eq_queue (page : ℕ → α) (ops : List (Op α)) :
    (answers exec (init page) ops).1 = (answers (queue pageSize) [] ops).1 ∧
      Alike (answers exec (init page) ops).2 (answers (queue pageSize) [] ops).2 := by
  have hinit : Holds (init page) [] := ⟨init_wellFormed page, rfl, contents_init page⟩
  obtain ⟨hanswers, hlast⟩ := hinit.answers ops
  exact ⟨hanswers, hlast.alike⟩

end Mario.Fs.RingBuffer
