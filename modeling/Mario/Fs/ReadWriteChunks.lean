import Mario.Fs.ReadWrite
import Mario.Fs.RingBuffer
import Mathlib.Data.ENat.Lattice

/-!
# When a vector is transferred like one buffer

What a kind of file gives or takes comes in chunks: a call moves no more than is left of the first
one, and behind the last one every call answers the same. A regular file has one chunk, which ends with the
file, a pipe has what is in its ring, `/dev/zero` has one without an end, and a terminal has one for each line.
-/

namespace Mario.Fs.ReadWrite

open Mario.Mm Mario.Paging

variable {σ : Type*} {d : Direction} {current : Task σ} {m : Method σ} {s : σ}

/-- A method moves bytes in chunks. -/
structure Method.Chunked (m : Method σ) (current : Task σ) (chunks : σ → List ℕ∞) (last : σ → ℤ) : Prop where
  pos : ∀ s, ∀ c ∈ chunks s, c ≠ 0
  last_le : ∀ s, last s ≤ 0
  /-- A call leaves the areas of the caller. -/
  areas : ∀ s addrs, current.areas (m.call s addrs).1 = current.areas s
  last_call : ∀ s addrs, last (m.call s addrs).1 = last s
  /-- Behind the last chunk nothing is moved. -/
  empty : ∀ s addrs, chunks s = [] → addrs ≠ [] → addrs.length < 2147483648 →
    (m.call s addrs).2 = last s ∧ chunks (m.call s addrs).1 = []
  /-- A call moves what is left of the first chunk, as far as its buffer goes. -/
  first : ∀ s c cs addrs, chunks s = c :: cs → addrs ≠ [] → addrs.length < 2147483648 →
    (m.call s addrs).2 = (min (addrs.length : ℕ∞) c).toNat ∧
      chunks (m.call s addrs).1 = if addrs.length < c then (c - addrs.length) :: cs else cs
  /-- Within a chunk, two calls are one. -/
  join : ∀ s c cs a b, chunks s = c :: cs → a ≠ [] → b ≠ [] → ((a.length + b.length : ℕ) : ℕ∞) ≤ c →
    a.length + b.length < 2147483648 → (m.call s (a ++ b)).1 = (m.call (m.call s a).1 b).1

/-- The buffers that the loop does not skip. -/
def used (vec : List Iovec) : List Iovec := vec.filter fun b => ¬ (b.iovBase = 0 ∨ b.iovLen = 0)

/-- No chunk ends within a buffer that others follow, except the last one when every call behind it
answers zero; and less than 2^31 bytes are moved, `moved` of them before. -/
def Fits (last : ℤ) : ℕ → List ℕ∞ → List ℕ → Prop
  | moved, _, [] => moved < 2147483648
  | moved, [], _ :: _ => last = 0 ∧ moved < 2147483648
  | moved, c :: cs, n :: lens =>
      if n < c then Fits last (moved + n) ((c - n) :: cs) lens
      else if n = c then Fits last (moved + n) cs lens
      else (lens = [] ∨ cs = [] ∧ last = 0) ∧ moved + c.toNat < 2147483648

/-- The buffers that are not skipped, and that have sizes which an `int` holds. -/
def Plain (l : List Iovec) : Prop := ∀ b ∈ l, ¬ (b.iovBase = 0 ∨ b.iovLen = 0) ∧ b.iovLen < 2147483648

section

variable {chunks : σ → List ℕ∞} {last : σ → ℤ} (hm : m.Chunked current chunks last)
include hm

end

abbrev Byte := BitVec 8

/-- The caller's memory. -/
abbrev Memory := ℕ → Byte

/-- Write bytes to addresses. -/
def store (mem : Memory) (addrs : List ℕ) (bytes : List Byte) : Memory :=
  (addrs.zip bytes).foldl (fun mem p => Function.update mem p.1 p.2) mem

theorem store_append {mem : Memory} {a b : List ℕ} {x y : List Byte} (h : x.length = a.length) :
    store mem (a ++ b) (x ++ y) = store (store mem a x) b y := by
  rw [store, List.zip_append h.symm, List.foldl_append]
  rfl

/-- What a read method takes its bytes from. -/
structure Source (τ : Type*) where
  left : τ → List Byte
  skip : ℕ → τ → τ
  left_lt : ∀ t, (left t).length < 2147483648
  left_skip : ∀ n t, left (skip n t) = (left t).drop n
  skip_skip : ∀ k n t, skip n (skip k t) = skip (k + n) t

variable {τ : Type*}

/-- A read method that takes the bytes that are left, and answers `last` when there are none; a size
that an `int` does not hold is answered with `large`, or taken as it is. -/
def Source.read (S : Source τ) (large : Option ℤ) (last : ℤ) (hlarge : ∀ e ∈ large, e ≤ 0) (hlast : last ≤ 0) :
    Method (τ × Memory) where
  call s addrs :=
    let n := min addrs.length (S.left s.1).length
    if h : 2147483648 ≤ addrs.length ∧ large.isSome then (s, large.get h.2)
    else if S.left s.1 = [] then (s, last)
    else ((S.skip n s.1, store s.2 addrs ((S.left s.1).take n)), n)
  call_le s addrs := by
    dsimp only
    split_ifs with h
    · have hle := hlarge _ (Option.get_mem h.2)
      dsimp only
      omega
    · dsimp only
      omega
    · dsimp only
      omega
  call_lt s addrs := by
    have hlt := S.left_lt s.1
    dsimp only
    split_ifs with h
    · have hle := hlarge _ (Option.get_mem h.2)
      dsimp only
      omega
    · dsimp only
      omega
    · dsimp only
      omega

/-- The chunk of a source. -/
def Source.chunks (S : Source τ) (s : τ × Memory) : List ℕ∞ := if S.left s.1 = [] then [] else [((S.left s.1).length : ℕ∞)]

/-- The bytes of a file, with the position. -/
structure Contents where
  bytes : List Byte
  pos : ℕ
  bytes_lt : bytes.length < 2147483648

/-- What `generic_file_read` and `fb_read` read. -/
def fileSource : Source Contents where
  left t := t.bytes.drop t.pos
  skip n t := { t with pos := t.pos + n }
  left_lt t := by
    have hlt := t.bytes_lt
    rw [List.length_drop]
    omega
  left_skip n t := by rw [List.drop_drop]
  skip_skip k n t := by rw [Nat.add_assoc]

/-- `generic_file_read`, when the page cache gets its pages. -/
def genericFileRead : Method (Contents × Memory) := fileSource.read (some 0) 0 (by simp) le_rfl

/-- `fb_read`. -/
def fbRead : Method (Contents × Memory) := fileSource.read (some einval) 0 (by simp [einval]) le_rfl

/-- What `pipe_read` reads. -/
def pipeSource : Source { rb : RingBuffer Byte // rb.WellFormed ∧ rb.size = RingBuffer.pageSize } where
  left rb := rb.1.contents
  skip n rb := ⟨(rb.1.read n).2, (rb.2.1.read n).1, (rb.2.1.read n).2.2.2.trans rb.2.2⟩
  left_lt rb := by
    have hlen := rb.2.1.len
    rw [rb.2.1.contents_length]
    rw [rb.2.2] at hlen
    exact lt_of_le_of_lt hlen (by decide)
  left_skip n rb := (rb.2.1.read n).2.2.1
  skip_skip k n rb := Subtype.ext (rb.2.1.read_read k n)

/-- `pipe_read` of a file with `O_NONBLOCK`, with or without writers. -/
def pipeRead (writers : Bool) : Method ({ rb : RingBuffer Byte // rb.WellFormed ∧ rb.size = RingBuffer.pageSize } × Memory) :=
  pipeSource.read none (if writers then -11 else 0) (by simp) (by split_ifs <;> decide)

/-- `zero_read`; a size that an `int` does not hold is a negative answer. -/
def zeroRead : Method Memory where
  call mem addrs :=
    if 2147483648 ≤ addrs.length then (mem, min (toInt addrs.length) (-1))
    else (store mem addrs (addrs.map fun _ => 0), addrs.length)
  call_le mem addrs := by
    split_ifs
    · dsimp only
      omega
    · exact le_rfl
  call_lt mem addrs := by
    split_ifs
    · dsimp only
      omega
    · dsimp only
      omega

/-- `full_write`. -/
def fullWrite : Method Memory where
  call mem _ := (mem, -28)
  call_le mem addrs := by
    dsimp only
    omega
  call_lt mem addrs := show (-28 : ℤ) < 2147483648 by decide

theorem zeroRead_chunked {current : Task Memory} (hareas : ∀ s t, current.areas s = current.areas t) :
    zeroRead.Chunked current (fun _ => [⊤]) fun _ => 0 := by
  refine ⟨fun s c hc => ?_, fun _ => le_rfl, fun s addrs => hareas _ _, fun _ _ => rfl, fun s addrs hs => ?_,
    fun s c cs addrs hs hne hlt => ?_, fun s c cs a b _ _ _ _ hlt => ?_⟩
  · rw [List.mem_singleton.mp hc]
    exact ENat.top_ne_zero
  · cases hs
  · cases hs
    simp only [zeroRead, if_neg (Nat.not_le.mpr hlt)]
    simp
  · have ha : ¬ 2147483648 ≤ a.length := by omega
    have hb : ¬ 2147483648 ≤ b.length := by omega
    simp only [zeroRead, List.length_append, if_neg (Nat.not_le.mpr hlt), if_neg ha, if_neg hb, List.map_append]
    exact store_append (List.length_map _)

theorem fullWrite_chunked {current : Task Memory} : fullWrite.Chunked current (fun _ => []) fun _ => -28 :=
  ⟨fun _ _ hc => absurd hc List.not_mem_nil, fun _ => by decide, fun _ _ => rfl, fun _ _ => rfl,
    fun _ _ _ _ _ => ⟨rfl, rfl⟩, fun _ _ _ _ hs => (by cases hs), fun _ _ _ _ _ hs => (by cases hs)⟩

/-! ## Two buffers -/

/-- A task with one page of its own, which has opened a file for reading. -/
def reader {σ : Type*} (m : Method σ) : Task σ where
  fd fd := if fd = 3 then some ⟨some 1, 1, some ⟨some m, none⟩⟩ else none
  kernel := stackKernel
  ds := 0x10
  fs := 0x23
  areas _ := [area 1 0x5000 0x6000 false]

end Mario.Fs.ReadWrite
