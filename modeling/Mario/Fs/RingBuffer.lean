import Mario.Lib.Circular
import Mathlib.Data.Nat.Bitwise

/-!
# Ring buffers

`ring_buffer_write` and `ring_buffer_read` as functions. Under the invariant a ring buffer is a
queue: what is written is added to its contents, and what is read is taken from their front.
-/

namespace Mario.Fs

open Mario.Lib

/-- `struct ring_buffer`; there are no data before `ring_buffer_init` and after
`ring_buffer_destroy`. -/
structure RingBuffer (α : Type*) where
  data : Option (ℕ → α)
  size : ℕ
  head : ℕ
  tail : ℕ
  len : ℕ

namespace RingBuffer

variable {α : Type*}

def pageSize : ℕ := 4096

/-- `ring_buffer_init`, on a page with some bytes in it. -/
def init (page : ℕ → α) : RingBuffer α :=
  { data := some page, size := pageSize, head := 0, tail := 0, len := 0 }

/-- `ring_buffer_destroy`. -/
def destroy (rb : RingBuffer α) : RingBuffer α := { rb with data := none }

/-- `ring_buffer_space`. -/
def space (rb : RingBuffer α) : ℕ := rb.size - rb.len

/-- `ring_buffer_empty`. -/
def empty (rb : RingBuffer α) : Bool := rb.len = 0

/-- `ring_buffer_full`. -/
def full (rb : RingBuffer α) : Bool := rb.len = rb.size

/-- `ring_buffer_write`. -/
def write (src : List α) (rb : RingBuffer α) : ℕ × RingBuffer α :=
  match rb.data with
  | none => (0, rb)
  | some data =>
      let canWrite := min src.length (space rb)
      if canWrite = 0 then (0, rb)
      else
        let chunk1 := if rb.head + canWrite ≤ rb.size then canWrite else rb.size - rb.head
        let data := copy data rb.head (src.take chunk1)
        let data := if chunk1 < canWrite then
            copy data 0 ((src.drop chunk1).take (canWrite - chunk1))
          else data
        (canWrite, { rb with
          data := some data, head := (rb.head + canWrite) &&& (rb.size - 1)
          len := rb.len + canWrite })

/-- `ring_buffer_read`. -/
def read (count : ℕ) (rb : RingBuffer α) : List α × RingBuffer α :=
  match rb.data with
  | none => ([], rb)
  | some data =>
      let canRead := min count rb.len
      if canRead = 0 then ([], rb)
      else
        let chunk1 := if rb.tail + canRead ≤ rb.size then canRead else rb.size - rb.tail
        let rest := if chunk1 < canRead then slice data 0 (canRead - chunk1) else []
        (slice data rb.tail chunk1 ++ rest,
          { rb with tail := (rb.tail + canRead) &&& (rb.size - 1), len := rb.len - canRead })

/-- `ring_buffer_pop` takes back the byte that was written last. The index is a number of 32 bits. -/
def pop (rb : RingBuffer α) : Option α × RingBuffer α :=
  match rb.data with
  | none => (none, rb)
  | some data =>
      if rb.empty then (none, rb)
      else
        let head := (rb.head + 2 ^ 32 - 1) &&& (rb.size - 1)
        (some (data head), { rb with head := head, len := rb.len - 1 })

/-- The bytes that have been written and not yet read. -/
def contents (rb : RingBuffer α) : List α :=
  match rb.data with
  | none => []
  | some data => segment rb.size data rb.tail rb.len

/-- The indices of a ring buffer. -/
structure WellFormed (rb : RingBuffer α) : Prop where
  data : rb.data.isSome = true
  size : ∃ k, rb.size = 2 ^ k
  head : rb.head = (rb.tail + rb.len) % rb.size
  tail : rb.tail < rb.size
  len : rb.len ≤ rb.size

variable {rb : RingBuffer α} {src : List α} {count : ℕ}

theorem init_wellFormed (page : ℕ → α) : WellFormed (init page) :=
  ⟨rfl, ⟨12, rfl⟩, rfl, Nat.succ_pos _, Nat.zero_le _⟩

theorem contents_init (page : ℕ → α) : contents (init page) = [] := rfl

theorem WellFormed.contents_length (h : WellFormed rb) : (contents rb).length = rb.len := by
  obtain ⟨data, hdata⟩ := Option.isSome_iff_exists.mp h.data
  rw [contents, hdata]
  exact segment_length

theorem WellFormed.empty_iff (h : WellFormed rb) : empty rb = true ↔ contents rb = [] := by
  rw [empty, decide_eq_true_eq, ← h.contents_length, List.length_eq_zero_iff]

theorem WellFormed.full_iff (h : WellFormed rb) : full rb = true ↔ rb.size ≤ (contents rb).length := by
  have hlen := h.len
  rw [full, decide_eq_true_eq, h.contents_length]
  omega

theorem WellFormed.and_mask (h : WellFormed rb) (n : ℕ) : n &&& (rb.size - 1) = n % rb.size := by
  obtain ⟨k, hk⟩ := h.size
  rw [hk, Nat.and_two_pow_sub_one_eq_mod]

theorem WellFormed.head_lt (h : WellFormed rb) : rb.head < rb.size := by
  rw [h.head]
  have := h.tail
  exact Nat.mod_lt _ (by omega)

theorem WellFormed.write_eq {data : ℕ → α} (h : WellFormed rb) (hdata : rb.data = some data) :
    rb.write src = if min src.length (space rb) = 0 then (0, rb) else
      (min src.length (space rb), { rb with
        data := some (store rb.size data rb.head (src.take (min src.length (space rb))))
        head := (rb.head + min src.length (space rb)) % rb.size
        len := rb.len + min src.length (space rb) }) := by
  have hstored := @copies_eq_store _ src data _ _ _ _ h.head_lt (Nat.min_le_left src.length (space rb)) rfl
  unfold RingBuffer.write
  simp only [hdata, hstored, h.and_mask]

theorem WellFormed.read_eq {data : ℕ → α} (h : WellFormed rb) (hdata : rb.data = some data) :
    rb.read count = if min count rb.len = 0 then ([], rb) else
      (segment rb.size data rb.tail (min count rb.len), { rb with
        tail := (rb.tail + min count rb.len) % rb.size, len := rb.len - min count rb.len }) := by
  have hsegment := @slices_eq_segment _ data _ _ _ _ h.tail ((Nat.min_le_right count rb.len).trans h.len) rfl
  unfold RingBuffer.read
  simp only [hdata, hsegment, h.and_mask]

theorem WellFormed.write (h : WellFormed rb) (src : List α) :
    WellFormed (rb.write src).2 ∧ (rb.write src).1 = min src.length (rb.size - (contents rb).length) ∧
      contents (rb.write src).2 = contents rb ++ src.take (rb.write src).1 ∧ (rb.write src).2.size = rb.size := by
  obtain ⟨data, hdata⟩ := Option.isSome_iff_exists.mp h.data
  have hlen := h.len
  rw [h.contents_length, h.write_eq hdata]
  by_cases hzero : min src.length (space rb) = 0
  · rw [if_pos hzero]
    refine ⟨h, hzero.symm, ?_, rfl⟩
    rw [List.take_zero, List.append_nil]
  · rw [if_neg hzero]
    have hspace : min src.length (space rb) ≤ rb.size - rb.len := Nat.min_le_right ..
    have hlist : (src.take (min src.length (space rb))).length = min src.length (space rb) :=
      List.length_take_of_le (Nat.min_le_left _ _)
    refine ⟨⟨rfl, h.size, ?_, h.tail, ?_⟩, rfl, ?_, rfl⟩
    · dsimp only
      rw [h.head, Nat.mod_add_mod, Nat.add_assoc]
    · dsimp only
      omega
    · simp only [contents, hdata]
      have hstored := segment_append_store (d := data) h.tail
        (l := src.take (min src.length (space rb))) (by omega : rb.len + _ ≤ rb.size)
      rwa [hlist, ← h.head] at hstored

theorem WellFormed.read (h : WellFormed rb) (count : ℕ) :
    WellFormed (rb.read count).2 ∧ (rb.read count).1 = (contents rb).take count ∧
      contents (rb.read count).2 = (contents rb).drop count ∧ (rb.read count).2.size = rb.size := by
  obtain ⟨data, hdata⟩ := Option.isSome_iff_exists.mp h.data
  have hlen := h.len
  have hcontents : contents rb = segment rb.size data rb.tail rb.len := by rw [contents, hdata]
  -- taking more than there is takes what there is
  have hmin : ∀ l : List α, l.length = rb.len →
      l.take count = l.take (min count rb.len) ∧ l.drop count = l.drop (min count rb.len) := by
    intro l hl
    rw [← hl, List.take_eq_take_min, List.drop_eq_drop_min]
    exact ⟨rfl, rfl⟩
  obtain ⟨htake, hdrop⟩ := hmin _ h.contents_length
  rw [htake, hdrop, h.read_eq hdata]
  by_cases hzero : min count rb.len = 0
  · rw [if_pos hzero, hzero]
    exact ⟨h, rfl, rfl, rfl⟩
  · rw [if_neg hzero, hcontents, segment_take (Nat.min_le_right _ _), segment_drop (Nat.min_le_right _ _)]
    refine ⟨⟨h.data, h.size, ?_, ?_, ?_⟩, rfl, ?_, rfl⟩
    · dsimp only
      rw [h.head, Nat.mod_add_mod]
      congr 1
      omega
    · have := h.tail
      exact Nat.mod_lt _ (by omega)
    · dsimp only
      omega
    · simp only [contents, hdata]

/-- Two reads leave what one leaves. -/
theorem WellFormed.read_read (h : WellFormed rb) (k n : ℕ) : ((rb.read k).2.read n).2 = (rb.read (k + n)).2 := by
  obtain ⟨data, hdata⟩ := Option.isSome_iff_exists.mp h.data
  have hfirst := @WellFormed.read_eq _ rb k data h hdata
  have hboth := @WellFormed.read_eq _ rb (k + n) data h hdata
  by_cases hk : min k rb.len = 0
  · rw [if_pos hk] at hfirst
    have hmin : min (k + n) rb.len = min n rb.len := by omega
    rw [hfirst, hboth, hmin, h.read_eq hdata]
  · rw [if_neg hk] at hfirst
    have hwf := (h.read k).1
    rw [if_neg (show ¬ min (k + n) rb.len = 0 by omega)] at hboth
    rw [hfirst] at hwf
    rw [hfirst, hboth, @WellFormed.read_eq _ _ n data hwf hdata]
    have hsum : min k rb.len + min n (rb.len - min k rb.len) = min (k + n) rb.len := by omega
    dsimp only
    split_ifs with hn
    · rw [← hsum, hn, Nat.add_zero]
    · rw [← hsum, Nat.mod_add_mod, Nat.add_assoc, Nat.sub_sub]

end RingBuffer

end Mario.Fs
