import Mario.Lib.LinkedList
import Mario.Mm.Kmalloc
import Mathlib.Data.List.Perm.Subperm
import Mathlib.Data.List.Range

/-!
# Safety of the bucket allocator

Between calls every board is consistent on its own (`BoardOk`): its free list
holds each of its blocks that no caller has, once. Every bucket's list holds the
boards of the bucket with a free block, once. `kfree` unlinks a board that has
become entirely free by setting the head of the bucket's list to the board's
successor, which is right only when the board is the head, and a size from which
`kmalloc` cannot count up to the end of the redzone gets a small block; `Good`
leaves both out, and under it the allocator is safe in every run.
-/

namespace Mario.Kmalloc

open Mario.Lib Function

/-- The block addresses of a board at `b` of bucket `k`. -/
def slots (b k : ℕ) : List ℕ :=
  (List.range (bucket k).nblocks).map (fun i => b + boardHeaderSize + i * (bucket k).blockSize)

/-- What callers rely on. A live allocation lies inside a board that is allocated
from the page allocator, past every header, and overlaps no other one; the list
of a bucket has exactly the boards with a free block, each once. -/
structure Sound (s : State) : Prop where
  inside : ∀ a ∈ s.live, ∃ p ∈ s.heap.pages, p.1 ≤ a.1 ∧ a.1 + a.2 ≤ p.1 + pageSize * 2 ^ p.2
  clear : ∀ a ∈ s.live, ∀ p ∈ s.heap.pages,
    (a.1 + a.2 ≤ p.1 ∨ p.1 + boardHeaderSize ≤ a.1) ∧
      ∀ x ∈ slots p.1 (s.heap.board p.1).bucket, a.1 + a.2 ≤ x ∨ x + userOffset ≤ a.1
  disjoint : s.live.Pairwise (fun a b => a.1 + a.2 ≤ b.1 ∨ b.1 + b.2 ≤ a.1)
  lists : ∀ k < buckets.length, ∃ l : List ℕ,
    Linked (fun b => (s.heap.board b).next) 0 (s.heap.firstfree k) l ∧ l.Nodup ∧
      ∀ b, b ∈ l ↔ (∃ o, (b, o) ∈ s.heap.pages) ∧ (s.heap.board b).bucket = k ∧
        0 < (s.heap.board b).nfree
  /-- No assertion of `kfree` fails. -/
  freed : ∀ a ∈ s.live, (kfree a.1 s.heap).isSome = true

/-- The condition under which `kfree` unlinks the right board: when the freed
block is the last one in use on its board, that board has no free block yet or
is the first of its bucket's list. -/
def FreesHead (h : Heap) (ptr : ℕ) : Prop :=
  let b := (h.block (ptr - userOffset)).board
  let hd := h.board b
  hd.nfree + 1 = (bucket hd.bucket).nblocks → hd.nfree = 0 ∨ h.firstfree hd.bucket = b

/-- The size of the block that is asked for does not wrap, and `kfree` unlinks the right board. -/
def Good (s : State) : Op → Prop
  | .malloc size _ => size + redzoneSize < wordSize
  | .free ptr => FreesHead s.heap ptr
  | .store _ _ => True

instance (s : State) : ∀ op, Decidable (Good s op)
  | .malloc size _ => inferInstanceAs (Decidable (size + redzoneSize < wordSize))
  | .free ptr => inferInstanceAs (Decidable
      ((s.heap.board (s.heap.block (ptr - userOffset)).board).nfree + 1 =
        (bucket (s.heap.board (s.heap.block (ptr - userOffset)).board).bucket).nblocks →
      (s.heap.board (s.heap.block (ptr - userOffset)).board).nfree = 0 ∨
        s.heap.firstfree (s.heap.board (s.heap.block (ptr - userOffset)).board).bucket =
          (s.heap.block (ptr - userOffset)).board))
  | .store _ _ => isTrue trivial

/-! ## The bucket table -/

theorem bucket_size {k : ℕ} (hk : k < buckets.length) :
    boardHeaderSize + (bucket k).nblocks * (bucket k).blockSize = pageSize * 2 ^ (bucket k).order := by
  revert k; decide

theorem bucket_bounds {k : ℕ} (hk : k < buckets.length) :
    userOffset < (bucket k).blockSize ∧ 0 < (bucket k).nblocks ∧ (bucket k).nblocks < wordSize := by
  revert k; decide

theorem bucket_small {k : ℕ} (hk : k < buckets.length) : (bucket k).blockSize < wordSize := by
  revert k; decide

theorem findBucket_some {size k : ℕ} (hsmall : size + redzoneSize < wordSize) (h : findBucket size = some k) :
    k < buckets.length ∧ size + redzoneSize + userOffset ≤ (bucket k).blockSize := by
  obtain ⟨hk, hsize, _⟩ := List.findIdx?_eq_some_iff_getElem.mp h
  have hbounds := bucket_bounds hk
  have heq : bucket k = buckets[k] := by
    simp only [bucket, List.getD_eq_getElem?_getD, List.getElem?_eq_getElem hk, Option.getD_some]
  rw [heq] at hbounds ⊢
  have hfit := of_decide_eq_true hsize
  rw [Nat.mod_eq_of_lt hsmall] at hfit
  exact ⟨hk, by omega⟩

/-! ## Block addresses -/

theorem mem_slots {b k x : ℕ} : x ∈ slots b k ↔
    ∃ i < (bucket k).nblocks, x = b + boardHeaderSize + i * (bucket k).blockSize := by
  simp only [slots, List.mem_map, List.mem_range]
  constructor
  · rintro ⟨i, hi, rfl⟩
    exact ⟨i, hi, rfl⟩
  · rintro ⟨i, hi, rfl⟩
    exact ⟨i, hi, rfl⟩

/-- A block lies inside its board, after the board's header. -/
theorem slot_inside {b k x : ℕ} (hk : k < buckets.length) (hx : x ∈ slots b k) :
    b + boardHeaderSize ≤ x ∧ x + (bucket k).blockSize ≤ b + pageSize * 2 ^ (bucket k).order := by
  obtain ⟨i, hi, rfl⟩ := mem_slots.mp hx
  have hsize := bucket_size hk
  have hmul : (i + 1) * (bucket k).blockSize ≤ (bucket k).nblocks * (bucket k).blockSize :=
    Nat.mul_le_mul_right _ hi
  rw [Nat.add_mul, Nat.one_mul] at hmul
  omega

theorem slots_apart {b k x y : ℕ} (hx : x ∈ slots b k) (hy : y ∈ slots b k) (hne : x ≠ y) :
    x + (bucket k).blockSize ≤ y ∨ y + (bucket k).blockSize ≤ x := by
  obtain ⟨i, _, rfl⟩ := mem_slots.mp hx
  obtain ⟨j, _, rfl⟩ := mem_slots.mp hy
  rcases Nat.lt_trichotomy i j with hij | rfl | hij
  · have hmul : (i + 1) * (bucket k).blockSize ≤ j * (bucket k).blockSize :=
      Nat.mul_le_mul_right _ hij
    rw [Nat.add_mul, Nat.one_mul] at hmul
    omega
  · exact absurd rfl hne
  · have hmul : (j + 1) * (bucket k).blockSize ≤ i * (bucket k).blockSize :=
      Nat.mul_le_mul_right _ hij
    rw [Nat.add_mul, Nat.one_mul] at hmul
    omega

theorem slots_nodup {b k : ℕ} (hk : k < buckets.length) : (slots b k).Nodup := by
  refine List.Nodup.map_on ?_ List.nodup_range
  intro i _ j _ heq
  have hpos : 0 < (bucket k).blockSize := by have := bucket_bounds hk; omega
  exact Nat.eq_of_mul_eq_mul_right hpos (by omega)

@[simp] theorem slots_length (b k : ℕ) : (slots b k).length = (bucket k).nblocks := by
  simp [slots]

/-! ## One board -/

/-- A board at `b` of order `o` is consistent with the pointers the callers hold. -/
structure BoardOk (h : Heap) (ptrs : List ℕ) (b o : ℕ) : Prop where
  bucket_lt : (h.board b).bucket < buckets.length
  order_eq : (bucket (h.board b).bucket).order = o
  owner : ∀ x ∈ slots b (h.board b).bucket, (h.block x).board = b
  free : ∃ l : List ℕ, Linked (fun x => (h.block x).next) 0 (h.board b).firstfree l ∧
    l.Nodup ∧ l.length = (h.board b).nfree ∧
      ∀ x, x ∈ l ↔ x ∈ slots b (h.board b).bucket ∧ x + userOffset ∉ ptrs

/-- A board is untouched by writes to other boards' headers and blocks, and by
allocations and frees of other boards' blocks. -/
theorem BoardOk.frame {h h' : Heap} {ptrs ptrs' : List ℕ} {b o : ℕ} (hok : BoardOk h ptrs b o)
    (hhead : (h'.board b).nfree = (h.board b).nfree ∧
      (h'.board b).firstfree = (h.board b).firstfree ∧
      (h'.board b).bucket = (h.board b).bucket)
    (hblock : ∀ x ∈ slots b (h.board b).bucket, (h'.block x).board = (h.block x).board ∧
      (x + userOffset ∉ ptrs → (h'.block x).next = (h.block x).next))
    (hptrs : ∀ x ∈ slots b (h.board b).bucket, x + userOffset ∈ ptrs' ↔ x + userOffset ∈ ptrs) :
    BoardOk h' ptrs' b o := by
  obtain ⟨hn, hf, hbk⟩ := hhead
  obtain ⟨l, hl, hnodup, hlen, hmem⟩ := hok.free
  refine ⟨by rw [hbk]; exact hok.bucket_lt, by rw [hbk]; exact hok.order_eq, ?_, l, ?_, hnodup,
    by rw [hn]; exact hlen, ?_⟩
  · intro x hx
    rw [hbk] at hx
    rw [(hblock x hx).1]
    exact hok.owner x hx
  · rw [hf]
    refine hl.congr (fun x hx => ?_)
    exact (hblock x ((hmem x).mp hx).1).2 ((hmem x).mp hx).2
  · intro x
    rw [hmem x, hbk]
    constructor
    · rintro ⟨hx, hp⟩
      exact ⟨hx, fun h => hp ((hptrs x hx).mp h)⟩
    · rintro ⟨hx, hp⟩
      exact ⟨hx, fun h => hp ((hptrs x hx).mpr h)⟩

theorem BoardOk.nfree_le {h : Heap} {ptrs : List ℕ} {b o : ℕ} (hok : BoardOk h ptrs b o) :
    (h.board b).nfree ≤ (bucket (h.board b).bucket).nblocks := by
  obtain ⟨l, _, hnodup, hlen, hmem⟩ := hok.free
  have hsub : l ⊆ slots b (h.board b).bucket := fun x hx => ((hmem x).mp hx).1
  have := (hnodup.subperm hsub).length_le
  rwa [hlen, slots_length] at this

theorem BoardOk.unused {h : Heap} {ptrs : List ℕ} {b o x : ℕ} (hok : BoardOk h ptrs b o)
    (hfull : (h.board b).nfree = (bucket (h.board b).bucket).nblocks)
    (hx : x ∈ slots b (h.board b).bucket) : x + userOffset ∉ ptrs := by
  obtain ⟨l, _, hnodup, hlen, hmem⟩ := hok.free
  have hsub : l ⊆ slots b (h.board b).bucket := fun y hy => ((hmem y).mp hy).1
  have hperm := (hnodup.subperm hsub).perm_of_length_le (by rw [hlen, slots_length, hfull])
  exact ((hmem x).mp (hperm.mem_iff.mpr hx)).2

/-- A block in use on the board means that not all of its blocks are free. -/
theorem BoardOk.nfree_lt {h : Heap} {ptrs : List ℕ} {b o x : ℕ} (hok : BoardOk h ptrs b o)
    (hx : x ∈ slots b (h.board b).bucket) (hused : x + userOffset ∈ ptrs) :
    (h.board b).nfree < (bucket (h.board b).bucket).nblocks :=
  lt_of_le_of_ne hok.nfree_le (fun hfull => hok.unused hfull hx hused)

/-! ## The whole heap -/

/-- The list of bucket `k` has exactly the boards of the bucket with a free block. -/
def ListOk (h : Heap) (k : ℕ) : Prop :=
  ∃ l : List ℕ, Linked (fun b => (h.board b).next) 0 (h.firstfree k) l ∧ l.Nodup ∧
    ∀ b, b ∈ l ↔ (∃ o, (b, o) ∈ h.pages) ∧ (h.board b).bucket = k ∧ 0 < (h.board b).nfree

/-- Two boards, given by address and order, do not overlap. -/
def Apart (p q : ℕ × ℕ) : Prop :=
  p.1 + pageSize * 2 ^ p.2 ≤ q.1 ∨ q.1 + pageSize * 2 ^ q.2 ≤ p.1

/-- A block that is handed out, as `kfree` wants it. -/
structure Marked (x : BlockHeader) (size : ℕ) : Prop where
  magic : x.magic = magicAlloc
  size : x.size = size
  redzone : x.redzone = redzoneValue

/-- The invariant, without the clause that no board is entirely free. -/
structure Core (h : Heap) (live : List (ℕ × ℕ)) : Prop where
  apart : h.pages.Pairwise Apart
  nonzero : ∀ p ∈ h.pages, p.1 ≠ 0
  boards : ∀ p ∈ h.pages, BoardOk h (live.map Prod.fst) p.1 p.2
  held : ∀ a ∈ live, ∃ p ∈ h.pages, ∃ x ∈ slots p.1 (h.board p.1).bucket,
    a.1 = x + userOffset ∧ a.2 + redzoneSize + userOffset ≤ (bucket (h.board p.1).bucket).blockSize ∧
      Marked (h.block x) a.2
  nodup : (live.map Prod.fst).Nodup
  lists : ∀ k < buckets.length, ListOk h k

/-- No board other than possibly `e` is entirely free. -/
def NotFull (h : Heap) (e : ℕ) : Prop :=
  ∀ p ∈ h.pages, p.1 ≠ e → (h.board p.1).nfree < (bucket (h.board p.1).bucket).nblocks

/-- The invariant between calls. -/
structure Inv (s : State) : Prop where
  core : Core s.heap s.live
  notFull : ∀ e, NotFull s.heap e

private theorem apart_symm : Std.Symm Apart := ⟨fun _ _ h => h.symm⟩

private theorem pages_pos (o : ℕ) : 0 < pageSize * 2 ^ o :=
  Nat.mul_pos (by decide) (Nat.two_pow_pos o)

/-- `kfree` up to the point where an entirely free board is dropped. -/
private def giveBlock (ptr : ℕ) (h : Heap) : Heap :=
  linkBoard (h.block (ptr - userOffset)).board (putBlock (ptr - userOffset) h)

namespace Core

variable {h : Heap} {live : List (ℕ × ℕ)}

theorem apart_of_ne (hc : Core h live) {p q : ℕ × ℕ} (hp : p ∈ h.pages) (hq : q ∈ h.pages)
    (hne : p ≠ q) : Apart p q :=
  haveI := apart_symm
  hc.apart.forall hp hq hne

theorem eq_of_fst (hc : Core h live) {p q : ℕ × ℕ} (hp : p ∈ h.pages) (hq : q ∈ h.pages) (heq : p.1 = q.1) : p = q := by
  by_contra hne
  have hpos := pages_pos p.2
  have hpos' := pages_pos q.2
  rcases hc.apart_of_ne hp hq hne with h | h <;> omega

theorem eq_of_slot (hc : Core h live) {p q : ℕ × ℕ} (hp : p ∈ h.pages) (hq : q ∈ h.pages)
    {x : ℕ} (hx : x ∈ slots p.1 (h.board p.1).bucket) (hx' : x ∈ slots q.1 (h.board q.1).bucket) : p = q := by
  by_contra hne
  have hbp := hc.boards p hp
  have hbq := hc.boards q hq
  have hip := slot_inside hbp.bucket_lt hx
  have hiq := slot_inside hbq.bucket_lt hx'
  rw [hbp.order_eq] at hip
  rw [hbq.order_eq] at hiq
  have hsp := bucket_bounds hbp.bucket_lt
  have hsq := bucket_bounds hbq.bucket_lt
  rcases hc.apart_of_ne hp hq hne with h | h <;> omega

theorem kfree_eq (hc : Core h live) {ptr size : ℕ} (hlive : (ptr, size) ∈ live) :
    kfree ptr h = some (dropBoard (h.block (ptr - userOffset)).board (giveBlock ptr h)) := by
  obtain ⟨p, hp, x, -, hax, hsize, hmark⟩ := hc.held _ hlive
  obtain rfl : ptr = x + userOffset := hax
  have hbucket := (bucket_small (hc.boards p hp).bucket_lt)
  rw [kfree, Nat.add_sub_cancel, if_pos, giveBlock, Nat.add_sub_cancel]
  refine ⟨by simp [userOffset], hmark.magic, hmark.redzone, ?_⟩
  rw [hmark.size]
  dsimp only at hsize
  omega

theorem sound (hc : Core h live) : Sound ⟨h, live⟩ := by
  refine ⟨?_, ?_, ?_, hc.lists, fun a ha => by rw [hc.kfree_eq ha]; rfl⟩
  · intro a ha
    obtain ⟨p, hp, x, hx, hax, hsize, -⟩ := hc.held a ha
    have hin := slot_inside (hc.boards p hp).bucket_lt hx
    rw [(hc.boards p hp).order_eq] at hin
    exact ⟨p, hp, by omega, by omega⟩
  · intro a ha q hq
    obtain ⟨p, hp, x, hx, hax, hsize, -⟩ := hc.held a ha
    have hin := slot_inside (hc.boards p hp).bucket_lt hx
    rw [(hc.boards p hp).order_eq] at hin
    have hpos := pages_pos q.2
    by_cases hpq : p = q
    · subst hpq
      refine ⟨Or.inr (by omega), fun y hy => ?_⟩
      by_cases hxy : x = y
      · exact Or.inr (by omega)
      · rcases slots_apart hx hy hxy with h | h <;> omega
    · have hbq := hc.boards q hq
      have hhead := bucket_size hbq.bucket_lt
      rw [hbq.order_eq] at hhead
      have hap := hc.apart_of_ne hp hq hpq
      unfold Apart at hap
      refine ⟨by omega, fun y hy => ?_⟩
      have hiny := slot_inside hbq.bucket_lt hy
      rw [hbq.order_eq] at hiny
      have hsy := bucket_bounds hbq.bucket_lt
      omega
  · refine List.Pairwise.imp_of_mem ?_ (List.pairwise_map.mp hc.nodup)
    intro a b ha hb hne
    obtain ⟨p, hp, x, hx, hax, hsa, -⟩ := hc.held a ha
    obtain ⟨q, hq, y, hy, hby, hsb, -⟩ := hc.held b hb
    have hinx := slot_inside (hc.boards p hp).bucket_lt hx
    have hiny := slot_inside (hc.boards q hq).bucket_lt hy
    rw [(hc.boards p hp).order_eq] at hinx
    rw [(hc.boards q hq).order_eq] at hiny
    by_cases hpq : p = q
    · subst hpq
      rcases slots_apart hx hy (by omega) with h | h <;> omega
    · have hap := hc.apart_of_ne hp hq hpq
      unfold Apart at hap
      omega

end Core

/-! ## A new board -/

/-- Addresses of `n` blocks of one size, in order. -/
private def blockRow (size blk n : ℕ) : List ℕ := (List.range n).map (fun j => blk + j * size)

private theorem blockRow_succ (size blk n : ℕ) : blockRow size blk (n + 1) = blk :: blockRow size (blk + size) n := by
  simp only [blockRow, List.range_succ_eq_map, List.map_cons, List.map_map, Nat.zero_mul, Nat.add_zero]
  congr 1
  refine List.map_congr_left (fun j _ => ?_)
  simp only [Function.comp, Nat.succ_eq_add_one, Nat.add_mul, Nat.one_mul]
  omega

theorem chainBlocks_of_notMem {board size i blk x : ℕ} {mem : ℕ → BlockHeader}
    (hx : x ∉ blockRow size blk (i + 1)) : chainBlocks board size i blk mem x = mem x := by
  induction i generalizing blk mem with
  | zero =>
    rw [blockRow_succ, List.mem_cons, not_or] at hx
    rw [chainBlocks, update_of_ne hx.1]
  | succ i ih =>
    rw [blockRow_succ, List.mem_cons, not_or] at hx
    rw [chainBlocks, ih hx.2, update_of_ne hx.1]

theorem chainBlocks_board {board size i blk x : ℕ} {mem : ℕ → BlockHeader}
    (hx : x ∈ blockRow size blk (i + 1)) : (chainBlocks board size i blk mem x).board = board := by
  induction i generalizing blk mem with
  | zero =>
    have hblk : x = blk := by simpa [blockRow] using hx
    simp [chainBlocks, hblk]
  | succ i ih =>
    rw [chainBlocks]
    by_cases hrest : x ∈ blockRow size (blk + size) (i + 1)
    · exact ih hrest
    · have hblk : x = blk := by
        rw [blockRow_succ, List.mem_cons] at hx
        exact hx.resolve_right hrest
      rw [chainBlocks_of_notMem hrest, hblk, update_self]

/-- The loop of `alloc_board` chains the blocks in address order. -/
theorem chainBlocks_linked {board size i blk : ℕ} {mem : ℕ → BlockHeader} (hsize : 0 < size) (hblk : blk ≠ 0) :
    Linked (fun x => (chainBlocks board size i blk mem x).next) 0 blk (blockRow size blk (i + 1)) := by
  induction i generalizing blk mem with
  | zero => simp [blockRow, Linked, chainBlocks, hblk]
  | succ i ih =>
    rw [blockRow_succ]
    have hnot : blk ∉ blockRow size (blk + size) (i + 1) := by
      intro hmem
      obtain ⟨j, _, hj⟩ := List.mem_map.mp hmem
      omega
    have hnext : (chainBlocks board size (i + 1) blk mem blk).next = blk + size := by
      rw [chainBlocks, chainBlocks_of_notMem hnot, update_self]
    refine ⟨rfl, hblk, ?_⟩
    simp only [hnext]
    exact ih (by omega)

/-- The heap after `alloc_board` has put a new board at the head of bucket `k`. -/
private def withBoard (k got : ℕ) (h : Heap) : Heap where
  firstfree := update h.firstfree k got
  board := update h.board got
    ⟨(bucket k).nblocks, got + boardHeaderSize, k, h.firstfree k⟩
  block := chainBlocks got (bucket k).blockSize ((bucket k).nblocks - 1)
    (got + boardHeaderSize) h.block
  pages := (got, (bucket k).order) :: h.pages

section NewBoard

variable {h : Heap} {live : List (ℕ × ℕ)} {k got : ℕ}

private theorem blockRow_slots (hk : k < buckets.length) :
    blockRow (bucket k).blockSize (got + boardHeaderSize) ((bucket k).nblocks - 1 + 1) = slots got k := by
  rw [Nat.sub_add_cancel (bucket_bounds hk).2.1]
  rfl

private theorem fresh_ne (hfresh : FreshPages h.pages got (bucket k).order) : ∀ p ∈ h.pages, p.1 ≠ got := by
  intro p hp heq
  have hpos := pages_pos p.2
  have hpos' := pages_pos (bucket k).order
  rcases hfresh.2 p hp with h | h <;> omega

private theorem fresh_slots (hc : Core h live) (hk : k < buckets.length)
    (hfresh : FreshPages h.pages got (bucket k).order) :
    ∀ p ∈ h.pages, ∀ x ∈ slots p.1 (h.board p.1).bucket, x ∉ slots got k := by
  intro p hp x hx hx'
  have hbp := hc.boards p hp
  have hip := slot_inside hbp.bucket_lt hx
  have hiq := slot_inside hk hx'
  have hsp := bucket_bounds hbp.bucket_lt
  have hsk := bucket_bounds hk
  rw [hbp.order_eq] at hip
  rcases hfresh.2 p hp with hside | hside <;> omega

/-- A new board is consistent: all its blocks are free and no caller has one. -/
private theorem withBoard_new (hc : Core h live) (hk : k < buckets.length)
    (hfresh : FreshPages h.pages got (bucket k).order) :
    BoardOk (withBoard k got h) (live.map Prod.fst) got (bucket k).order := by
  have hsz := bucket_bounds hk
  have hhead : (withBoard k got h).board got =
      ⟨(bucket k).nblocks, got + boardHeaderSize, k, h.firstfree k⟩ := update_self ..
  have hunheld : ∀ x ∈ slots got k, x + userOffset ∉ live.map Prod.fst := by
    intro x hx hmem
    obtain ⟨a, ha, hax⟩ := List.mem_map.mp hmem
    obtain ⟨p, hp, y, hy, hay, _⟩ := hc.held a ha
    exact fresh_slots hc hk hfresh p hp y hy (by rwa [show y = x by omega])
  refine ⟨by rw [hhead]; exact hk, by rw [hhead], ?_, slots got k, ?_, slots_nodup hk, ?_, ?_⟩
  · intro x hx
    rw [hhead] at hx
    exact chainBlocks_board (by rwa [blockRow_slots hk])
  · rw [hhead, ← blockRow_slots hk]
    exact chainBlocks_linked (by omega) (by simp only [boardHeaderSize]; omega)
  · rw [hhead, slots_length]
  · intro x
    rw [hhead]
    exact ⟨fun hx => ⟨hx, hunheld x hx⟩, fun hx => hx.1⟩

/-- The bucket lists after a new board has come to an empty one. -/
private theorem withBoard_lists (hc : Core h live) (hk : k < buckets.length)
    (hempty : h.firstfree k = 0) (hfresh : FreshPages h.pages got (bucket k).order) :
    ∀ j < buckets.length, ListOk (withBoard k got h) j := by
  intro j hj
  obtain ⟨l, hl, hnodup, hmem⟩ := hc.lists j hj
  have hnotin : got ∉ l := by
    intro hin
    obtain ⟨⟨o, ho⟩, _⟩ := (hmem got).mp hin
    exact fresh_ne hfresh _ ho rfl
  have hkeep : ∀ b, b ≠ got → ((∃ o, (b, o) ∈ (withBoard k got h).pages) ↔
      ∃ o, (b, o) ∈ h.pages) := by
    intro b hb
    simp [withBoard, hb]
  have hboard : ∀ b, b ≠ got → (withBoard k got h).board b = h.board b := fun b hb =>
    update_of_ne hb ..
  have hhead : (withBoard k got h).board got =
      ⟨(bucket k).nblocks, got + boardHeaderSize, k, h.firstfree k⟩ := update_self ..
  by_cases hjk : j = k
  · subst hjk
    have hnil : l = [] := by
      rw [hempty] at hl
      exact hl.eq_nil
    subst hnil
    refine ⟨[got], ?_, by simp, ?_⟩
    · simp [Linked, withBoard, hfresh.1, hempty]
    · intro b
      by_cases hb : b = got
      · subst hb
        simp [(bucket_bounds hk).2.1, withBoard]
      · have hno := (hmem b).mpr.mt (List.not_mem_nil)
        rw [List.mem_singleton, hboard b hb, hkeep b hb]
        exact ⟨fun heq => absurd heq hb, fun hin => absurd hin hno⟩
  · refine ⟨l, ?_, hnodup, ?_⟩
    · have hfirst : (withBoard k got h).firstfree j = h.firstfree j :=
        update_of_ne hjk ..
      rw [hfirst]
      refine hl.congr (fun b hb => ?_)
      rw [hboard b (fun heq => hnotin (heq ▸ hb))]
    · intro b
      by_cases hb : b = got
      · subst hb
        rw [hhead]
        exact ⟨fun hin => absurd hin hnotin, fun hin => absurd hin.2.1.symm hjk⟩
      · rw [hmem b, hboard b hb, hkeep b hb]

private theorem withBoard_core (hc : Core h live) (hk : k < buckets.length)
    (hempty : h.firstfree k = 0) (hfresh : FreshPages h.pages got (bucket k).order) :
    Core (withBoard k got h) live := by
  have hboard : ∀ p ∈ h.pages, (withBoard k got h).board p.1 = h.board p.1 := fun p hp =>
    update_of_ne (fresh_ne hfresh p hp) ..
  refine ⟨?_, ?_, ?_, ?_, hc.nodup, withBoard_lists hc hk hempty hfresh⟩
  · exact List.pairwise_cons.mpr ⟨fun p hp => hfresh.2 p hp, hc.apart⟩
  · intro p hp
    rcases List.mem_cons.mp hp with rfl | hp
    · exact hfresh.1
    · exact hc.nonzero p hp
  · intro p hp
    rcases List.mem_cons.mp hp with rfl | hp
    · exact withBoard_new hc hk hfresh
    · refine (hc.boards p hp).frame ?_ ?_ (fun _ _ => Iff.rfl)
      · rw [hboard p hp]
        exact ⟨rfl, rfl, rfl⟩
      · intro x hx
        have hblock : (withBoard k got h).block x = h.block x :=
          chainBlocks_of_notMem (by
            rw [blockRow_slots hk]
            exact fresh_slots hc hk hfresh p hp x hx)
        rw [hblock]
        exact ⟨rfl, fun _ => rfl⟩
  · intro a ha
    obtain ⟨p, hp, x, hx, hax, hsize, hmark⟩ := hc.held a ha
    have hblock : (withBoard k got h).block x = h.block x :=
      chainBlocks_of_notMem (by
        rw [blockRow_slots hk]
        exact fresh_slots hc hk hfresh p hp x hx)
    refine ⟨p, List.mem_cons_of_mem _ hp, x, ?_, hax, ?_, hblock ▸ hmark⟩
    · rwa [hboard p hp]
    · rwa [hboard p hp]

end NewBoard

/-- Making sure that a bucket has a board keeps the invariant. The board found
at the head of the list is the only one that can be entirely free. -/
theorem ensureBoard_core {h : Heap} {live : List (ℕ × ℕ)} {k got : ℕ} (hc : Core h live)
    (hfull : ∀ e, NotFull h e) (hk : k < buckets.length) (hgot : got = 0 ∨ FreshPages h.pages got (bucket k).order) :
    Core (ensureBoard k got h) live ∧
      ((ensureBoard k got h).firstfree k = 0 → ∀ e, NotFull (ensureBoard k got h) e) ∧
      NotFull (ensureBoard k got h) ((ensureBoard k got h).firstfree k) := by
  by_cases hempty : h.firstfree k = 0
  swap
  · simp only [ensureBoard, if_neg hempty]
    exact ⟨hc, fun _ => hfull, hfull _⟩
  by_cases hzero : got = 0
  · have hsame : ensureBoard k got h = h := by
      have hup : update h.firstfree k 0 = h.firstfree := by
        rw [← hempty, update_eq_self]
      simp only [ensureBoard, if_pos hempty, allocBoard, if_pos hzero, hup]
    rw [hsame]
    exact ⟨hc, fun _ => hfull, hfull _⟩
  have hfresh := hgot.resolve_left hzero
  have hheap : ensureBoard k got h = withBoard k got h := by
    simp only [ensureBoard, if_pos hempty, allocBoard, if_neg hzero, withBoard]
  have hfirst : (withBoard k got h).firstfree k = got := update_self ..
  rw [hheap, hfirst]
  refine ⟨withBoard_core hc hk hempty hfresh, fun h => absurd h hzero, ?_⟩
  intro p hp hpe
  rcases List.mem_cons.mp hp with rfl | hp
  · exact absurd rfl hpe
  · have hboard : (withBoard k got h).board p.1 = h.board p.1 := update_of_ne hpe ..
    rw [hboard]
    exact hfull got p hp hpe

/-! ## Taking a block -/

/-- The head of a bucket's list is a board of that bucket with a free block. -/
theorem Core.head {h : Heap} {live : List (ℕ × ℕ)} {k : ℕ} (hc : Core h live)
    (hk : k < buckets.length) (hhead : h.firstfree k ≠ 0) :
    (∃ o, (h.firstfree k, o) ∈ h.pages) ∧ (h.board (h.firstfree k)).bucket = k ∧
      0 < (h.board (h.firstfree k)).nfree := by
  obtain ⟨l, hl, _, hmem⟩ := hc.lists k hk
  obtain ⟨l', rfl, _⟩ := hl.exists_cons hhead
  exact (hmem _).mp List.mem_cons_self

private theorem takeBlock_lists {h h' : Heap} {b : ℕ} (hlists : ∀ k < buckets.length, ListOk h k)
    (hb : (∃ o, (b, o) ∈ h.pages) ∧ 0 < (h.board b).nfree)
    (hfirstb : h.firstfree (h.board b).bucket = b) (hpages : h'.pages = h.pages)
    (hother : ∀ c, c ≠ b → h'.board c = h.board c) (hbucket : (h'.board b).bucket = (h.board b).bucket)
    (hnext : (h'.board b).next = (h.board b).next)
    (hfirst : ∀ k, h'.firstfree k =
      if (h'.board b).nfree = 0 ∧ k = (h.board b).bucket then (h.board b).next
      else h.firstfree k) :
    ∀ k < buckets.length, ListOk h' k := by
  intro k hk
  obtain ⟨l, hl, hnodup, hmem⟩ := hlists k hk
  have hnexts : ∀ c, (h'.board c).next = (h.board c).next := by
    intro c
    by_cases hcb : c = b
    · rw [hcb, hnext]
    · rw [hother c hcb]
  have hbuckets : ∀ c, (h'.board c).bucket = (h.board c).bucket := by
    intro c
    by_cases hcb : c = b
    · rw [hcb, hbucket]
    · rw [hother c hcb]
  by_cases hcase : (h'.board b).nfree = 0 ∧ k = (h.board b).bucket
  · obtain ⟨hzero, rfl⟩ := hcase
    have hin : b ∈ l := (hmem b).mpr ⟨hb.1, rfl, hb.2⟩
    have hb0 : b ≠ 0 := by
      rintro rfl
      rw [hfirstb] at hl
      rw [hl.eq_nil] at hin
      exact List.not_mem_nil hin
    rw [hfirstb] at hl
    obtain ⟨l', rfl, hl'⟩ := hl.exists_cons hb0
    obtain ⟨hnotin, hnodup'⟩ := List.nodup_cons.mp hnodup
    refine ⟨l', ?_, hnodup', ?_⟩
    · rw [hfirst, if_pos ⟨hzero, rfl⟩]
      exact hl'.congr (fun c _ => hnexts c)
    · intro c
      by_cases hcb : c = b
      · subst hcb
        rw [hzero]
        exact ⟨fun hin => absurd hin hnotin, fun hin => absurd hin.2.2 (lt_irrefl 0)⟩
      · rw [hother c hcb, hpages, ← hmem c, List.mem_cons, or_iff_right hcb]
  · refine ⟨l, ?_, hnodup, ?_⟩
    · rw [hfirst, if_neg hcase]
      exact hl.congr (fun c _ => hnexts c)
    · intro c
      rw [hmem c, hpages, hbuckets]
      by_cases hcb : c = b
      · subst hcb
        by_cases hkb : (h.board c).bucket = k
        · have hpos : 0 < (h'.board c).nfree := Nat.pos_of_ne_zero (fun hz => hcase ⟨hz, hkb.symm⟩)
          simp only [hpos, hb.2]
        · simp only [hkb, false_and]
      · rw [hother c hcb]

/-- Taking the first free block of a board keeps the invariant, and leaves no
board entirely free. -/
theorem takeBlock_core {h : Heap} {live : List (ℕ × ℕ)} {k size : ℕ} (hc : Core h live)
    (hk : k < buckets.length) (hhead : h.firstfree k ≠ 0) (hfull : NotFull h (h.firstfree k))
    (hsize : size + redzoneSize + userOffset ≤ (bucket k).blockSize) :
    (takeBlock k size h).2 ≠ 0 ∧
      Core (takeBlock k size h).1 (((takeBlock k size h).2, size) :: live) ∧
        ∀ e, NotFull (takeBlock k size h).1 e := by
  obtain ⟨⟨o, hpage⟩, hbucket, hnfree⟩ := hc.head hk hhead
  generalize hb : h.firstfree k = b at *
  have hok : BoardOk h (live.map Prod.fst) b o := hc.boards _ hpage
  have hle := hok.nfree_le
  obtain ⟨l, hl, hnodup, hlen, hmem⟩ := hok.free
  have hne : (h.board b).firstfree ≠ 0 := by
    intro hzero
    rw [hzero] at hl
    rw [hl.eq_nil] at hlen
    simp only [List.length_nil] at hlen
    omega
  obtain ⟨l', rfl, hl'⟩ := hl.exists_cons hne
  generalize hblk : (h.board b).firstfree = blk at *
  obtain ⟨hslot, hfree⟩ := (hmem blk).mp List.mem_cons_self
  obtain ⟨hnotin, hnodup'⟩ := List.nodup_cons.mp hnodup
  have hbounds := bucket_bounds hok.bucket_lt
  have hdec : ((h.board b).nfree + (wordSize - 1)) % wordSize = (h.board b).nfree - 1 := by
    simp only [wordSize] at hbounds ⊢
    omega
  have hsmall : size + redzoneSize < wordSize := by
    have hblock := bucket_small hk
    omega
  have hr : takeBlock k size h = ({ h with
      firstfree := if (h.board b).nfree - 1 = 0 then
        update h.firstfree k (h.board b).next else h.firstfree
      board := update h.board b { h.board b with
        nfree := (h.board b).nfree - 1, firstfree := (h.block blk).next }
      block := update h.block blk
        { h.block blk with magic := magicAlloc, size := size, redzone := redzoneValue } },
      blk + userOffset) := by
    simp only [takeBlock, hb, hblk, hdec, BlockHeader.setRedzone, if_pos hsmall]
  rw [hr]
  have hptr : blk + userOffset ≠ 0 := by simp only [userOffset]; omega
  -- the links between the blocks are not written
  have hlinks : ∀ x, (update h.block blk
      { h.block blk with magic := magicAlloc, size := size, redzone := redzoneValue } x).board = (h.block x).board ∧
        (update h.block blk
          { h.block blk with magic := magicAlloc, size := size, redzone := redzoneValue } x).next =
            (h.block x).next := by
    intro x
    by_cases hx : x = blk
    · simp [hx]
    · simp [update_of_ne hx]
  refine ⟨hptr, ⟨hc.apart, hc.nonzero, ?_, ?_, ?_, ?_⟩, ?_⟩
  · intro p hp
    by_cases hpb : p.1 = b
    · have hpeq : p = (b, o) := hc.eq_of_fst hp hpage hpb
      subst hpeq
      refine ⟨?_, ?_, ?_, l', ?_, hnodup', ?_, ?_⟩
      · simpa using hok.bucket_lt
      · simpa using hok.order_eq
      · intro x hx
        simp only [update_self] at hx
        exact (hlinks x).1.trans (hok.owner x hx)
      · simp only [update_self]
        exact hl'.congr fun x _ => (hlinks x).2
      · simp only [update_self]
        simp only [List.length_cons] at hlen
        omega
      · intro x
        simp only [update_self, List.map_cons, List.mem_cons, not_or]
        have hx := hmem x
        rw [List.mem_cons] at hx
        constructor
        · intro hin
          obtain ⟨hs, hp'⟩ := hx.mp (Or.inr hin)
          refine ⟨hs, ?_, hp'⟩
          intro heq
          exact hnotin (by rwa [show blk = x by omega])
        · rintro ⟨hs, hxne, hp'⟩
          exact (hx.mpr ⟨hs, hp'⟩).resolve_left (by omega)
    · refine (hc.boards p hp).frame ?_ (fun x _ => ⟨(hlinks x).1, fun _ => (hlinks x).2⟩) ?_
      · simp [update_of_ne hpb]
      · intro x hx
        have hxne : x ≠ blk := by
          rintro rfl
          have heq := hc.eq_of_slot hp hpage hx hslot
          exact hpb (by rw [heq])
        simp only [List.map_cons, List.mem_cons]
        constructor
        · rintro (heq | hin)
          · omega
          · exact hin
        · exact Or.inr
  · intro a ha
    have hbk : ∀ c, (update h.board b { h.board b with
        nfree := (h.board b).nfree - 1, firstfree := (h.block blk).next } c).bucket =
          (h.board c).bucket := by
      intro c
      by_cases hcb : c = b
      · simp [hcb]
      · rw [update_of_ne hcb]
    rcases List.mem_cons.mp ha with rfl | hin
    · refine ⟨(b, o), hpage, blk, ?_, rfl, ?_, ?_⟩
      · simpa only [hbk] using hslot
      · rw [hbk, hbucket]
        exact hsize
      · simp only [update_self]
        exact ⟨rfl, rfl, rfl⟩
    · obtain ⟨p, hp, x, hx, hax, hfit, hmark⟩ := hc.held a hin
      have hxne : x ≠ blk := by
        rintro rfl
        exact hfree (hax ▸ List.mem_map_of_mem hin)
      refine ⟨p, hp, x, ?_, hax, ?_, ?_⟩
      · simpa only [hbk] using hx
      · simpa only [hbk] using hfit
      · simpa only [update_of_ne hxne] using hmark
  · simpa using ⟨by simpa using hfree, hc.nodup⟩
  · refine takeBlock_lists hc.lists ⟨⟨o, hpage⟩, hnfree⟩ (by rw [hbucket]; exact hb) rfl
      (fun c hcb => update_of_ne hcb ..) (by simp) (by simp) (fun j => ?_)
    simp only [update_self, hbucket]
    by_cases hn : (h.board b).nfree - 1 = 0
    · by_cases hjk : j = k
      · simp [hn, hjk]
      · simp [hn, hjk]
    · simp [hn]
  · intro e p hp _
    by_cases hpb : p.1 = b
    · simp only [hpb, update_self]
      omega
    · simp only [update_of_ne hpb]
      exact hfull p hp hpb

/-! ## Giving a block back -/

private theorem giveBlock_lists {h h' : Heap} {b : ℕ}
    (hlists : ∀ k < buckets.length, ListOk h k) (hb : ∃ o, (b, o) ∈ h.pages) (hb0 : b ≠ 0)
    (hpages : h'.pages = h.pages) (hother : ∀ c, c ≠ b → h'.board c = h.board c)
    (hbucket : (h'.board b).bucket = (h.board b).bucket) (hpos : 0 < (h'.board b).nfree)
    (hnext : (h'.board b).next =
      if (h.board b).nfree = 0 then h.firstfree (h.board b).bucket else (h.board b).next)
    (hfirst : ∀ k, h'.firstfree k =
      if (h.board b).nfree = 0 ∧ k = (h.board b).bucket then b else h.firstfree k) :
    ∀ k < buckets.length, ListOk h' k := by
  intro k hk
  obtain ⟨l, hl, hnodup, hmem⟩ := hlists k hk
  by_cases hzero : (h.board b).nfree = 0
  · have hnotin : b ∉ l := fun hin => by have := ((hmem b).mp hin).2.2; omega
    have hsame : Linked (fun c => (h'.board c).next) 0 (h.firstfree k) l :=
      hl.congr (fun c hc => by rw [hother c (fun heq => hnotin (heq ▸ hc))])
    by_cases hkb : k = (h.board b).bucket
    · subst hkb
      refine ⟨b :: l, ?_, List.nodup_cons.mpr ⟨hnotin, hnodup⟩, ?_⟩
      · rw [hfirst, if_pos ⟨hzero, rfl⟩]
        refine ⟨rfl, hb0, ?_⟩
        simpa only [hnext, if_pos hzero] using hsame
      · intro c
        by_cases hcb : c = b
        · subst hcb
          rw [hpages]
          exact ⟨fun _ => ⟨hb, hbucket, hpos⟩, fun _ => List.mem_cons_self⟩
        · rw [List.mem_cons, or_iff_right hcb, hmem c, hother c hcb, hpages]
    · refine ⟨l, ?_, hnodup, ?_⟩
      · rw [hfirst, if_neg (fun hboth => hkb hboth.2)]
        exact hsame
      · intro c
        by_cases hcb : c = b
        · subst hcb
          rw [hbucket]
          exact ⟨fun hin => absurd hin hnotin, fun hin => absurd hin.2.1.symm hkb⟩
        · rw [hmem c, hother c hcb, hpages]
  · have hnexts : ∀ c, (h'.board c).next = (h.board c).next := by
      intro c
      by_cases hcb : c = b
      · rw [hcb, hnext, if_neg hzero]
      · rw [hother c hcb]
    refine ⟨l, ?_, hnodup, ?_⟩
    · rw [hfirst, if_neg (fun hboth => hzero hboth.1)]
      exact hl.congr (fun c _ => hnexts c)
    · intro c
      by_cases hcb : c = b
      · subst hcb
        have hold : 0 < (h.board c).nfree := by omega
        simp only [hmem c, hpages, hbucket, hpos, hold]
      · rw [hmem c, hother c hcb, hpages]

/-- The header of the board that gets a block back, and the rest of the heap. -/
private theorem giveBlock_eq {h : Heap} {blk b : ℕ} (hb : (h.block blk).board = b)
    (hsmall : (h.board b).nfree + 1 < wordSize) :
    (giveBlock (blk + userOffset) h).pages = h.pages ∧
    (giveBlock (blk + userOffset) h).block =
      update h.block blk { h.block blk with magic := magicFreed, next := (h.board b).firstfree } ∧
    (∀ c, c ≠ b → (giveBlock (blk + userOffset) h).board c = h.board c) ∧
    (giveBlock (blk + userOffset) h).board b =
      ⟨(h.board b).nfree + 1, blk, (h.board b).bucket,
        if (h.board b).nfree = 0 then h.firstfree (h.board b).bucket else (h.board b).next⟩ ∧
    ∀ k, (giveBlock (blk + userOffset) h).firstfree k =
      if (h.board b).nfree = 0 ∧ k = (h.board b).bucket then b else h.firstfree k := by
  have hmod : ((h.board b).nfree + 1) % wordSize = (h.board b).nfree + 1 := Nat.mod_eq_of_lt hsmall
  have hsub : blk + userOffset - userOffset = blk := Nat.add_sub_cancel ..
  by_cases hzero : (h.board b).nfree = 0
  · have hone : (0 + 1) % wordSize = 0 + 1 := rfl
    simp only [giveBlock, hsub, putBlock, linkBoard, hb, hone, hzero, update_self, update_idem, if_true, true_and]
    refine ⟨fun c hc => update_of_ne hc .., fun k => ?_⟩
    by_cases hk : k = (h.board b).bucket
    · simp [hk]
    · simp [hk]
  · have hone : ¬ (h.board b).nfree + 1 = 1 := by omega
    simp only [giveBlock, hsub, putBlock, linkBoard, hb, hmod, hzero, update_self,
      if_false, false_and, hone, true_and, implies_true, and_true]
    exact fun c hc => update_of_ne hc ..

/-- Giving a live block back keeps the invariant; only its own board can now be
entirely free. -/
theorem giveBlock_core {h : Heap} {live : List (ℕ × ℕ)} {ptr size : ℕ} (hc : Core h live)
    (hfull : ∀ e, NotFull h e) (hlive : (ptr, size) ∈ live) :
    ∃ o, (((h.block (ptr - userOffset)).board, o) ∈ h.pages) ∧
      Core (giveBlock ptr h) (live.filter (fun a => a.1 ≠ ptr)) ∧
      NotFull (giveBlock ptr h) (h.block (ptr - userOffset)).board := by
  obtain ⟨⟨b, o⟩, hpage, blk, hslot, hptr, _⟩ := hc.held _ hlive
  have hok : BoardOk h (live.map Prod.fst) b o := hc.boards _ hpage
  have hslot : blk ∈ slots b (h.board b).bucket := hslot
  have hptr : ptr = blk + userOffset := hptr
  subst hptr
  have howner : (h.block blk).board = b := hok.owner blk hslot
  have hheld : blk + userOffset ∈ live.map Prod.fst := List.mem_map.mpr ⟨_, hlive, rfl⟩
  have hlt := hok.nfree_lt hslot hheld
  have hbounds := bucket_bounds hok.bucket_lt
  obtain ⟨hpages, hblock, hother, hself, hfirst⟩ := giveBlock_eq howner (h := h) (by omega)
  rw [Nat.add_sub_cancel, howner]
  refine ⟨o, hpage, ?_, ?_⟩
  swap
  · intro p hp hpb
    rw [hother _ hpb]
    rw [hpages] at hp
    exact hfull b p hp hpb
  generalize giveBlock (blk + userOffset) h = h' at *
  have hbk : ∀ c, (h'.board c).bucket = (h.board c).bucket := by
    intro c
    by_cases hcb : c = b
    · rw [hcb, hself]
    · rw [hother c hcb]
  have hfilter : ∀ q, q ∈ (live.filter (fun a => a.1 ≠ blk + userOffset)).map Prod.fst ↔
      q ∈ live.map Prod.fst ∧ q ≠ blk + userOffset := by
    intro q
    simp only [List.mem_map, List.mem_filter, decide_eq_true_eq]
    constructor
    · rintro ⟨a, ⟨ha, hne⟩, rfl⟩
      exact ⟨⟨a, ha, rfl⟩, hne⟩
    · rintro ⟨⟨a, ha, rfl⟩, hne⟩
      exact ⟨a, ⟨ha, hne⟩, rfl⟩
  refine ⟨by rw [hpages]; exact hc.apart, by rw [hpages]; exact hc.nonzero, ?_, ?_, ?_, ?_⟩
  · intro p hp
    rw [hpages] at hp
    by_cases hpb : p.1 = b
    · obtain rfl : p = (b, o) := hc.eq_of_fst hp hpage hpb
      obtain ⟨l, hl, hnodup, hlen, hmem⟩ := hok.free
      have hnotin : blk ∉ l := fun hin => ((hmem blk).mp hin).2 hheld
      refine ⟨by rw [hbk]; exact hok.bucket_lt, by rw [hbk]; exact hok.order_eq, ?_, blk :: l,
        ?_, List.nodup_cons.mpr ⟨hnotin, hnodup⟩, ?_, ?_⟩
      · intro x hx
        rw [hbk] at hx
        rw [hblock]
        by_cases hxb : x = blk
        · simp [hxb, howner]
        · rw [update_of_ne hxb]
          exact hok.owner x hx
      · have hblk0 : blk ≠ 0 := by
          have := (slot_inside hok.bucket_lt hslot).1
          simp only [boardHeaderSize] at this
          omega
        rw [hself, hblock]
        refine ⟨rfl, hblk0, ?_⟩
        simp only [update_self]
        refine hl.congr (fun x hx => ?_)
        rw [update_of_ne (fun heq : x = blk => hnotin (heq ▸ hx))]
      · rw [hself, List.length_cons, hlen]
      · intro x
        rw [hbk, hfilter, List.mem_cons, hmem x]
        constructor
        · rintro (rfl | ⟨hs, hu⟩)
          · exact ⟨hslot, fun hboth => hboth.2 rfl⟩
          · exact ⟨hs, fun hboth => hu hboth.1⟩
        · rintro ⟨hs, hu⟩
          by_cases hxb : x = blk
          · exact Or.inl hxb
          · exact Or.inr ⟨hs, fun hin => hu ⟨hin, by omega⟩⟩
    · have hxne : ∀ x ∈ slots p.1 (h.board p.1).bucket, x ≠ blk := by
        rintro x hx rfl
        exact hpb (by rw [hc.eq_of_slot hp hpage hx hslot])
      refine (hc.boards p hp).frame ?_ ?_ ?_
      · rw [hother _ hpb]
        exact ⟨rfl, rfl, rfl⟩
      · intro x hx
        rw [hblock, update_of_ne (hxne x hx)]
        exact ⟨rfl, fun _ => rfl⟩
      · intro x hx
        have := hxne x hx
        rw [hfilter]
        exact ⟨fun hboth => hboth.1, fun hin => ⟨hin, by omega⟩⟩
  · intro a ha
    obtain ⟨ha, hne⟩ := List.mem_filter.mp ha
    obtain ⟨p, hp, x, hx, hax, hfit, hmark⟩ := hc.held a ha
    have hxne : x ≠ blk := by
      rintro rfl
      simp [hax] at hne
    refine ⟨p, by rwa [hpages], x, by rwa [hbk], hax, by rwa [hbk], ?_⟩
    rwa [hblock, update_of_ne hxne]
  · exact hc.nodup.sublist ((List.filter_sublist).map Prod.fst)
  · exact giveBlock_lists hc.lists ⟨o, hpage⟩ (hc.nonzero _ hpage) hpages hother
      (hbk b) (by rw [hself]; exact Nat.succ_pos _) (by rw [hself]) hfirst

/-! ## Dropping a board -/

private theorem Core.pages_nodup {h : Heap} {live : List (ℕ × ℕ)} (hc : Core h live) : h.pages.Nodup := by
  refine hc.apart.imp ?_
  rintro p q hap rfl
  have := pages_pos p.2
  rcases hap with hside | hside <;> omega

private theorem dropBoard_lists {h : Heap} {live : List (ℕ × ℕ)} {b o : ℕ} (hc : Core h live)
    (hpage : (b, o) ∈ h.pages) (hfirst : h.firstfree (h.board b).bucket = b) :
    ∀ k < buckets.length, ListOk { h with
      firstfree := update h.firstfree (h.board b).bucket (h.board b).next
      pages := h.pages.erase (b, o) } k := by
  intro k hk
  obtain ⟨l, hl, hnodup, hmem⟩ := hc.lists k hk
  have hkept : ∀ c, c ≠ b → ((∃ o', (c, o') ∈ h.pages.erase (b, o)) ↔
      ∃ o', (c, o') ∈ h.pages) := by
    intro c hcb
    simp [hc.pages_nodup.mem_erase_iff, hcb]
  have hgone : ¬ ∃ o', (b, o') ∈ h.pages.erase (b, o) := by
    rintro ⟨o', ho'⟩
    obtain ⟨hne, hin⟩ := hc.pages_nodup.mem_erase_iff.mp ho'
    exact hne (hc.eq_of_fst hin hpage rfl)
  by_cases hkb : k = (h.board b).bucket
  · subst hkb
    have hb0 : b ≠ 0 := hc.nonzero _ hpage
    rw [hfirst] at hl
    obtain ⟨l', rfl, hl'⟩ := hl.exists_cons hb0
    obtain ⟨hnotin, hnodup'⟩ := List.nodup_cons.mp hnodup
    refine ⟨l', by simpa only [update_self] using hl', hnodup', ?_⟩
    intro c
    by_cases hcb : c = b
    · subst hcb
      exact ⟨fun hin => absurd hin hnotin, fun hin => absurd hin.1 hgone⟩
    · rw [hkept c hcb, ← hmem c, List.mem_cons, or_iff_right hcb]
  · refine ⟨l, ?_, hnodup, ?_⟩
    · simpa only [update_of_ne hkb] using hl
    · intro c
      by_cases hcb : c = b
      · subst hcb
        exact ⟨fun hin => absurd ((hmem c).mp hin).2.1.symm hkb, fun hin => absurd hin.1 hgone⟩
      · rw [hmem c, hkept c hcb]

/-- Dropping a board that is entirely free and first of its bucket's list, or
keeping one that is not entirely free, restores the invariant. -/
theorem dropBoard_core {h : Heap} {live : List (ℕ × ℕ)} {b o : ℕ} (hc : Core h live)
    (hfull : NotFull h b) (hpage : (b, o) ∈ h.pages)
    (hfirst : (h.board b).nfree = (bucket (h.board b).bucket).nblocks → h.firstfree (h.board b).bucket = b) :
    Core (dropBoard b h) live ∧ ∀ e, NotFull (dropBoard b h) e := by
  have hok : BoardOk h (live.map Prod.fst) b o := hc.boards _ hpage
  by_cases hall : (h.board b).nfree = (bucket (h.board b).bucket).nblocks
  swap
  · have hlt := lt_of_le_of_ne hok.nfree_le hall
    rw [dropBoard, if_neg hall]
    refine ⟨hc, fun e p hp _ => ?_⟩
    by_cases hpb : p.1 = b
    · rw [hpb]
      exact hlt
    · exact hfull p hp hpb
  have hdrop : dropBoard b h = { h with
      firstfree := update h.firstfree (h.board b).bucket (h.board b).next
      pages := h.pages.erase (b, o) } := by
    simp only [dropBoard, if_pos hall, freeBoard, hok.order_eq]
  rw [hdrop]
  have hstays : ∀ p ∈ h.pages.erase (b, o), p ∈ h.pages := fun p => List.mem_of_mem_erase
  have hne : ∀ p ∈ h.pages.erase (b, o), p.1 ≠ b := by
    intro p hp heq
    obtain ⟨hneq, hin⟩ := hc.pages_nodup.mem_erase_iff.mp hp
    exact hneq (hc.eq_of_fst hin hpage heq)
  refine ⟨⟨hc.apart.sublist List.erase_sublist, fun p hp => hc.nonzero p (hstays p hp), ?_, ?_,
    hc.nodup, dropBoard_lists hc hpage (hfirst hall)⟩, fun e p hp _ => ?_⟩
  · intro p hp
    exact (hc.boards p (hstays p hp)).frame ⟨rfl, rfl, rfl⟩ (fun _ _ => ⟨rfl, fun _ => rfl⟩) (fun _ _ => Iff.rfl)
  · intro a ha
    obtain ⟨p, hp, x, hx, hax, hrest⟩ := hc.held a ha
    refine ⟨p, hc.pages_nodup.mem_erase_iff.mpr ⟨?_, hp⟩, x, hx, hax, hrest⟩
    rintro rfl
    exact hok.unused hall hx (by rw [← hax]; exact List.mem_map.mpr ⟨a, ha, rfl⟩)
  · exact hfull p (hstays p hp) (hne p hp)

/-! ## Steps and runs -/

theorem boot_inv (h : Heap) : Inv (State.boot h) := by
  refine ⟨⟨List.Pairwise.nil, ?_, ?_, ?_, List.nodup_nil, ?_⟩, ?_⟩
  · simp [State.boot]
  · simp [State.boot]
  · simp [State.boot]
  · exact fun k _ => ⟨[], rfl, List.nodup_nil, by simp [State.boot]⟩
  · intro e p hp
    simp [State.boot] at hp

private theorem malloc_inv {s t : State} {size got : ℕ} (hinv : Inv s) (hlegal : Legal s (.malloc size got))
    (hgood : Good s (.malloc size got)) (hexec : exec s (.malloc size got) = some t) : Inv t := by
  obtain rfl := Option.some.inj hexec
  by_cases hsize : size = 0
  · simpa [kmalloc, hsize] using hinv
  cases hfind : findBucket size with
  | none => simpa [kmalloc, hsize, hfind] using hinv
  | some k =>
    obtain ⟨hk, hfit⟩ := findBucket_some hgood hfind
    obtain ⟨hcore, hnone, hhead⟩ := ensureBoard_core hinv.core hinv.notFull hk (hlegal.2 k hfind)
    by_cases hempty : (ensureBoard k got s.heap).firstfree k = 0
    · simp only [kmalloc, hsize, if_false, hfind, hempty, if_true]
      exact ⟨hcore, hnone hempty⟩
    · obtain ⟨hptr, htake, hfull⟩ := takeBlock_core hcore hk hempty hhead hfit
      simp only [kmalloc, hsize, if_false, hfind, hempty, hptr]
      exact ⟨htake, hfull⟩

private theorem free_inv {s t : State} {ptr : ℕ} (hinv : Inv s) (hlegal : Legal s (.free ptr))
    (hgood : Good s (.free ptr)) (hexec : exec s (.free ptr) = some t) : Inv t := by
  obtain ⟨⟨ptr, size⟩, hlive, rfl⟩ := List.mem_map.mp hlegal
  rw [exec, hinv.core.kfree_eq hlive] at hexec
  obtain rfl := Option.some.inj hexec
  obtain ⟨o, hpage, hcore, hfull⟩ := giveBlock_core hinv.core hinv.notFull hlive
  obtain ⟨_, _, blk, _, hptr, _⟩ := hinv.core.held _ hlive
  obtain rfl : ptr = blk + userOffset := hptr
  have hgood : FreesHead s.heap (blk + userOffset) := hgood
  simp only [FreesHead, Nat.add_sub_cancel] at hpage hfull hgood ⊢
  generalize hb : (s.heap.block blk).board = b at *
  have hok : BoardOk s.heap (s.live.map Prod.fst) b o := hinv.core.boards _ hpage
  have hbounds := bucket_bounds hok.bucket_lt
  have hlt := hinv.notFull 0 _ hpage (hinv.core.nonzero _ hpage)
  obtain ⟨hpages, _, _, hself, hfirst⟩ := giveBlock_eq hb (by dsimp only at hlt; omega)
  have hnfree : ((giveBlock (blk + userOffset) s.heap).board b).nfree =
      (s.heap.board b).nfree + 1 := by rw [hself]
  have hbucket : ((giveBlock (blk + userOffset) s.heap).board b).bucket =
      (s.heap.board b).bucket := by rw [hself]
  have hdrop := dropBoard_core hcore hfull (by rw [hpages]; exact hpage) (by
    rw [hnfree, hbucket, hfirst]
    intro hall
    rcases hgood hall with hzero | hhead
    · rw [if_pos ⟨hzero, rfl⟩]
    · rw [hhead, ite_self])
  exact ⟨hdrop.1, hdrop.2⟩

private theorem store_inv {s t : State} {ptr value : ℕ} (hinv : Inv s)
    (hlegal : Legal s (.store ptr value)) (hexec : exec s (.store ptr value) = some t) : Inv t := by
  obtain rfl := Option.some.inj hexec
  obtain ⟨⟨ptr, size⟩, hlive, rfl⟩ := List.mem_map.mp hlegal
  obtain ⟨hcore, hfull⟩ := hinv
  obtain ⟨_, _, blk, _, hptr, _⟩ := hcore.held _ hlive
  obtain rfl : ptr = blk + userOffset := hptr
  have hheld : blk + userOffset ∈ s.live.map Prod.fst := List.mem_map.mpr ⟨_, hlive, rfl⟩
  simp only [Nat.add_sub_cancel]
  refine ⟨⟨hcore.apart, hcore.nonzero, fun q hq => ?_, fun a ha => ?_, hcore.nodup, hcore.lists⟩, hfull⟩
  · refine (hcore.boards q hq).frame ⟨rfl, rfl, rfl⟩ (fun x _ => ?_) (fun _ _ => Iff.rfl)
    by_cases hx : x = blk
    · subst hx
      simp only [update_self, true_and]
      exact fun hnot => absurd hheld hnot
    · simp [update_of_ne hx]
  · obtain ⟨p, hp, x, hx, hax, hfit, hmark⟩ := hcore.held a ha
    refine ⟨p, hp, x, hx, hax, hfit, ?_⟩
    by_cases hxb : x = blk
    · subst hxb
      simp only [update_self]
      exact ⟨hmark.magic, hmark.size, hmark.redzone⟩
    · simpa only [update_of_ne hxb] using hmark

theorem step_inv {s t : State} {op : Op} (hinv : Inv s) (hstep : Guarded Good Step s op t) : Inv t := by
  obtain ⟨hgood, hlegal, hexec⟩ := hstep
  cases op with
  | malloc size got => exact malloc_inv hinv hlegal hgood hexec
  | free ptr => exact free_inv hinv hlegal hgood hexec
  | store ptr value => exact store_inv hinv hlegal hexec

/-- In every run of `kmalloc` and `kfree` calls, with arbitrary stores of the
callers between them, the allocator is sound in every state reached as long as
no size wraps and each `kfree` that empties a board finds it at the head of its
bucket's list. -/
theorem kmalloc_run_sound {h : Heap} {ops : List Op} {s : State}
    (hrun : Run (Guarded Good Step) (State.boot h) ops s) : Sound s :=
  (hrun.invariant (boot_inv h) step_inv).core.sound

/-- Memory before the first call. -/
private def zeroHeap : Heap := ⟨fun _ => 0, fun _ => ⟨0, 0, 0, 0⟩, fun _ => ⟨0, 0, 0, 0, 0⟩, []⟩

/-- Fill a two-block board at `0x1000`, take a block of a second one at `0x2000`
and free the first block of the first board, which puts it ahead of the second. -/
private def twoBoards : List Op :=
  [.malloc 2020 0x1000, .malloc 2020 0, .malloc 2020 0x2000, .free 0x1020]

/-- The theorem applies to a run that empties the board at the head of the list. -/
theorem kmalloc_run_sound_two_boards :
    ∃ s, replay (fun s a => Good s a ∧ Legal s a) exec (State.boot zeroHeap) (twoBoards ++ [Op.free 0x1818]) = some s ∧
      Sound s := by
  have hsome : (replay (fun s a => Good s a ∧ Legal s a) exec (State.boot zeroHeap)
      (twoBoards ++ [Op.free 0x1818])).isSome = true := by decide +kernel
  obtain ⟨s, hs⟩ := Option.isSome_iff_exists.mp hsome
  exact ⟨s, hs, kmalloc_run_sound (guarded_run_of_replay (P := fun _ => True) trivial
    (fun _ h => h) (fun _ _ _ => trivial) hs)⟩

/-- Emptying the second board instead, while the first is ahead of it in the
list, loses the first board: it has a free block but its bucket's list is empty. -/
theorem kmalloc_run_unsound :
    ¬ ∀ (h : Heap) (ops : List Op) (s : State), Run Step (State.boot h) ops s → Sound s := by
  intro hall
  have hfact : ∃ s, replay Legal exec (State.boot zeroHeap) (twoBoards ++ [Op.free 0x2020]) = some s ∧
      s.heap.firstfree 6 = 0 ∧ (0x1000, 0) ∈ s.heap.pages ∧ (s.heap.board 0x1000).bucket = 6 ∧
        0 < (s.heap.board 0x1000).nfree := by
    have hsome : (replay Legal exec (State.boot zeroHeap) (twoBoards ++ [Op.free 0x2020])).any (fun s =>
        s.heap.firstfree 6 = 0 ∧ (0x1000, 0) ∈ s.heap.pages ∧ (s.heap.board 0x1000).bucket = 6 ∧
          0 < (s.heap.board 0x1000).nfree) = true := by decide +kernel
    simpa only [Option.any_eq_true, decide_eq_true_eq] using hsome
  obtain ⟨s, hs, hempty, hpage, hbucket, hnfree⟩ := hfact
  obtain ⟨l, hl, _, hmem⟩ := (hall zeroHeap _ s (run_of_replay hs)).lists 6 (by decide)
  rw [hempty] at hl
  have hnil : l = [] := hl.eq_nil
  have hin : 0x1000 ∈ l := (hmem 0x1000).mpr ⟨⟨0, hpage⟩, hbucket, hnfree⟩
  rw [hnil] at hin
  exact List.not_mem_nil hin

end Mario.Kmalloc
