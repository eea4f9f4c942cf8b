import Mario.Lib.Families
import Mario.Lib.Tiling
import Mario.Mm.PageAlloc

/-!
# The buddy allocator loses no page

The free blocks and the blocks that are out tile the managed pages. A call moves
one block at a time between the two sides: `takeBlock` and `putBlock` change one
free list and flip the bitmap bit of the block's pair, and in between a block is
split into its halves or joined with its buddy. The loops of `alloc_pages` and
`free_pages` are sequences of these moves.
-/

namespace Mario.PageAlloc

open Mario.Lib Function

/-- The free blocks, as first frame and order. -/
def blocks (f : ℕ → List ℕ) : List (ℕ × ℕ) :=
  (List.range maxOrder).flatMap fun k => (f k).map fun p => (p, k)

theorem mem_blocks {f : ℕ → List ℕ} {b : ℕ × ℕ} : b ∈ blocks f ↔ b.2 < maxOrder ∧ b.1 ∈ f b.2 := by
  obtain ⟨p, k⟩ := b
  simp only [blocks, List.mem_flatMap, List.mem_range, List.mem_map, Prod.mk.injEq]
  constructor
  · rintro ⟨j, hj, q, hq, rfl, rfl⟩
    exact ⟨hj, hq⟩
  · rintro ⟨hk, hp⟩
    exact ⟨k, hk, p, hp, rfl, rfl⟩

/-- Up to order, the blocks of one order stand before the blocks of all others. -/
private theorem blocks_perm (f : ℕ → List ℕ) {k : ℕ} (hk : k < maxOrder) :
    ∃ rest, ∀ g : ℕ → List ℕ, (∀ j, j ≠ k → g j = f j) → (blocks g).Perm ((g k).map (fun p => (p, k)) ++ rest) := by
  obtain ⟨rest, hrest⟩ := flatMap_perm_member List.nodup_range (List.mem_range.mpr hk)
    fun k => (f k).map fun p => (p, k)
  refine ⟨rest, fun g hg => hrest (fun k => (g k).map fun p => (p, k)) fun j hj => ?_⟩
  rw [hg j hj]

/-- The pair of a block of order `k` that starts at frame `p`. -/
def pairOf (p k : ℕ) : ℕ := p >>> (k + 1)

/-- The lower and the upper block of a pair. -/
def lower (k i : ℕ) : ℕ := i * 2 ^ (k + 1)

/-- The upper block of a pair. -/
def upper (k i : ℕ) : ℕ := i * 2 ^ (k + 1) + 2 ^ k

/-- Exactly one block of the pair is on the order's free list. -/
def OneFree (s : Buddy) (k i : ℕ) : Prop :=
  ¬ (lower k i ∈ s.freeList k ↔ upper k i ∈ s.freeList k)

/-- What every call keeps. -/
structure Consistent (maxPfn : ℕ) (pfns : List ℕ) (s : Buddy) (out : List (ℕ × ℕ)) : Prop where
  /-- Free blocks and allocations are pairwise disjoint. -/
  disjoint : (blocks s.freeList ++ out).Pairwise BlockDisjoint
  /-- Each is aligned to its order. -/
  aligned : ∀ b ∈ blocks s.freeList ++ out, b.2 < maxOrder ∧ 2 ^ b.2 ∣ b.1
  /-- Each lies inside the managed range. -/
  inside : ∀ b ∈ blocks s.freeList ++ out, b.1 + 2 ^ b.2 ≤ maxPfn
  /-- The bit of a pair says whether exactly one of its blocks is free. -/
  bit : ∀ k < maxOrder - 1, ∀ i, s.map k i = true ↔ OneFree s k i
  /-- The blocks of a pair are not both free. -/
  single : ∀ k < maxOrder - 1, ∀ i, ¬ (lower k i ∈ s.freeList k ∧ upper k i ∈ s.freeList k)
  /-- The pages that are free or allocated are the initial ones. -/
  pages : ∀ x, (∃ b ∈ blocks s.freeList ++ out, InBlock b x) ↔ x ∈ pfns

/-- The invariant of the calls, with the blocks `held` outside the free lists. -/
structure Inv (maxPfn : ℕ) (pfns : List ℕ) (s : Buddy) (held : List (ℕ × ℕ)) : Prop where
  range : s.maxPfn = maxPfn
  cover : ∀ x, covering (held ++ blocks s.freeList) x = if x ∈ pfns then 1 else 0
  aligned : ∀ b ∈ held ++ blocks s.freeList, b.2 < maxOrder ∧ 2 ^ b.2 ∣ b.1
  bit : ∀ k < maxOrder - 1, ∀ i, s.map k i = true ↔ OneFree s k i
  single : ∀ k < maxOrder - 1, ∀ i, ¬ (lower k i ∈ s.freeList k ∧ upper k i ∈ s.freeList k)

/-- The initial pages are managed, and the bitmap indexes of the blocks of them are in range. -/
structure Bounded (maxPfn : ℕ) (pfns : List ℕ) : Prop where
  managed : ∀ p ∈ pfns, p < maxPfn
  bitmap : ∀ k < maxOrder, ∀ p, 2 ^ k ∣ p → (∀ x, InBlock (p, k) x → x ∈ pfns) → pairOf p k < bitmapBits maxPfn k

variable {maxPfn : ℕ} {pfns : List ℕ} {s : Buddy} {held : List (ℕ × ℕ)}

theorem Inv.consistent (h : Inv maxPfn pfns s held) (hb : Bounded maxPfn pfns) : Consistent maxPfn pfns s held := by
  have hperm : (blocks s.freeList ++ held).Perm (held ++ blocks s.freeList) :=
    List.perm_append_comm
  have hcover : ∀ x, covering (blocks s.freeList ++ held) x = if x ∈ pfns then 1 else 0 :=
    fun x => (covering_perm hperm x).trans (h.cover x)
  have hpages : ∀ x, (∃ b ∈ blocks s.freeList ++ held, InBlock b x) ↔ x ∈ pfns := by
    intro x
    rw [← covering_pos_iff, hcover x]
    split_ifs with hx <;> simp [hx]
  refine ⟨pairwise_disjoint_of_covering (fun x => ?_), ?_, ?_, h.bit, h.single, hpages⟩
  · rw [hcover x]
    split_ifs <;> omega
  · exact fun b hmem => h.aligned b (hperm.mem_iff.mp hmem)
  · intro b hmem
    have hpos := Nat.two_pow_pos b.2
    have hlast : InBlock b (b.1 + 2 ^ b.2 - 1) := ⟨by omega, by omega⟩
    have hlt := hb.managed _ ((hpages _).mp ⟨b, hmem, hlast⟩)
    omega

/-- The first frame of a block that is held is a managed page. -/
private theorem Inv.held_mem (h : Inv maxPfn pfns s held) {b : ℕ × ℕ}
    (hmem : b ∈ held ++ blocks s.freeList) {x : ℕ} (hx : InBlock b x) : x ∈ pfns := by
  have hpos : 0 < covering (held ++ blocks s.freeList) x := covering_pos_iff.mpr ⟨b, hmem, hx⟩
  rw [h.cover x] at hpos
  by_contra hnot
  rw [if_neg hnot] at hpos
  exact Nat.lt_irrefl 0 hpos

private theorem Inv.pairOf_lt (h : Inv maxPfn pfns s held) (hb : Bounded maxPfn pfns) {p k : ℕ}
    (hmem : (p, k) ∈ held ++ blocks s.freeList) : pairOf p k < bitmapBits maxPfn k := by
  obtain ⟨hk, hal⟩ := h.aligned (p, k) hmem
  exact hb.bitmap k hk p hal fun x hx => h.held_mem hmem hx

private theorem Inv.not_free (h : Inv maxPfn pfns s held) {b : ℕ × ℕ} (hmem : b ∈ held) {x : ℕ}
    (hx : InBlock b x) {c : ℕ × ℕ} (hc : c ∈ blocks s.freeList) : ¬ InBlock c x := by
  obtain ⟨l₁, l₂, rfl⟩ := List.append_of_mem hmem
  have hperm : ((l₁ ++ b :: l₂) ++ blocks s.freeList).Perm
      (b :: ((l₁ ++ l₂) ++ blocks s.freeList)) := by
    simpa only [List.append_assoc, List.cons_append] using List.perm_middle
  have hle : covering (b :: ((l₁ ++ l₂) ++ blocks s.freeList)) x ≤ 1 := by
    rw [← covering_perm hperm x, h.cover x]
    split_ifs <;> omega
  exact not_inBlock_of_covering hle hx (List.mem_append_right _ hc)

/-! ## Moving one block -/

/-- Flip the bit of the block's pair and replace its order's free list. -/
def setList (p k : ℕ) (l : List ℕ) (s : Buddy) : Buddy :=
  { s with
    freeList := update s.freeList k l
    map := fun j i => s.map j i ^^ (j == k && i == pairOf p k) }

/-- Link a block and flip the bit of its pair. -/
def putBlock (p k : ℕ) (s : Buddy) : Buddy := setList p k (s.freeList k ++ [p]) s

/-- Unlink a block and flip the bit of its pair. -/
def takeBlock (p k : ℕ) (s : Buddy) : Buddy := setList p k ((s.freeList k).erase p) s

private theorem eq_lower_or_upper {p k : ℕ} (h : 2 ^ k ∣ p) : p = lower k (pairOf p k) ∨ p = upper k (pairOf p k) := by
  obtain ⟨c, rfl⟩ := h
  have hpow : 2 ^ (k + 1) = 2 ^ k * 2 := pow_succ ..
  have hpair : pairOf (2 ^ k * c) k = c / 2 := by
    rw [pairOf, Nat.shiftRight_eq_div_pow, hpow, Nat.mul_div_mul_left _ _ (Nat.two_pow_pos k)]
  simp only [lower, upper, hpair, hpow]
  rcases Nat.even_or_odd' c with ⟨d, rfl | rfl⟩
  · left
    rw [Nat.mul_div_cancel_left d (by decide)]
    ring
  · right
    rw [show (2 * d + 1) / 2 = d by omega]
    ring

private theorem pairOf_lower (k i : ℕ) : pairOf (lower k i) k = i := by
  rw [pairOf, lower, Nat.shiftRight_eq_div_pow, Nat.mul_div_cancel _ (Nat.two_pow_pos _)]

private theorem pairOf_upper (k i : ℕ) : pairOf (upper k i) k = i := by
  have hpos := Nat.two_pow_pos k
  have hlt : 2 ^ k < 2 ^ (k + 1) := Nat.pow_lt_pow_succ (by decide)
  rw [pairOf, upper, Nat.shiftRight_eq_div_pow, Nat.mul_comm,
    Nat.mul_add_div (Nat.two_pow_pos _), Nat.div_eq_of_lt hlt, Nat.add_zero]

private theorem lower_pairOf {p k : ℕ} (h : 2 ^ (k + 1) ∣ p) : lower k (pairOf p k) = p := by
  rw [lower, pairOf, Nat.shiftRight_eq_div_pow]
  exact Nat.div_mul_cancel h

private theorem upper_pairOf {p k : ℕ} (h : 2 ^ (k + 1) ∣ p) :
    upper k (pairOf p k) = p + 2 ^ k := congrArg (· + 2 ^ k) (lower_pairOf h)

/-- Flipping the membership of one block together with its pair's bit keeps the
bits right. -/
private theorem bit_setList {p k : ℕ} {l : List ℕ} (hal : 2 ^ k ∣ p)
    (hflip : p ∈ l ↔ p ∉ s.freeList k) (hkeep : ∀ q, q ≠ p → (q ∈ l ↔ q ∈ s.freeList k))
    (hbit : ∀ k < maxOrder - 1, ∀ i, s.map k i = true ↔ OneFree s k i) :
    ∀ j < maxOrder - 1, ∀ i, (setList p k l s).map j i = true ↔ OneFree (setList p k l s) j i := by
  intro j hj i
  have hold := hbit j hj i
  by_cases hjk : j = k
  swap
  · simpa only [OneFree, setList, update_of_ne hjk, beq_false_of_ne hjk, Bool.false_and, Bool.xor_false] using hold
  subst hjk
  simp only [OneFree, setList, update_self, beq_self_eq_true, Bool.true_and] at hold ⊢
  by_cases hi : i = pairOf p j
  · subst hi
    have hne : lower j (pairOf p j) ≠ upper j (pairOf p j) := by
      have hpos := Nat.two_pow_pos j
      simp only [lower, upper]
      omega
    simp only [beq_self_eq_true, Bool.xor_true, Bool.not_eq_true', ← Bool.not_eq_true, hold]
    rcases eq_lower_or_upper hal with hp | hp
    · rw [← hp] at hne ⊢
      rw [hflip, hkeep _ hne.symm]
      tauto
    · rw [← hp] at hne ⊢
      rw [hflip, hkeep _ hne]
      tauto
  · have hlow : lower j i ≠ p := fun h => hi (by rw [← h, pairOf_lower])
    have hupp : upper j i ≠ p := fun h => hi (by rw [← h, pairOf_upper])
    simpa only [beq_false_of_ne hi, Bool.xor_false, hkeep _ hlow, hkeep _ hupp] using hold

private theorem blocks_putBlock (s : Buddy) (p : ℕ) {k : ℕ} (hk : k < maxOrder) :
    (blocks (putBlock p k s).freeList).Perm ((p, k) :: blocks s.freeList) := by
  obtain ⟨rest, hrest⟩ := blocks_perm s.freeList hk
  have hnew := hrest (putBlock p k s).freeList (fun j hj => update_of_ne hj ..)
  have hold := hrest s.freeList (fun _ _ => rfl)
  refine hnew.trans (List.Perm.trans ?_ (hold.symm.cons (p, k)))
  simp only [putBlock, setList, update_self, List.map_append, List.map_cons,
    List.map_nil, List.append_assoc, List.singleton_append]
  exact List.perm_middle

private theorem blocks_takeBlock {s : Buddy} {p k : ℕ} (hk : k < maxOrder) (hmem : p ∈ s.freeList k) :
    (blocks s.freeList).Perm ((p, k) :: blocks (takeBlock p k s).freeList) := by
  obtain ⟨rest, hrest⟩ := blocks_perm s.freeList hk
  have hnew := hrest (takeBlock p k s).freeList (fun j hj => update_of_ne hj ..)
  have hold := hrest s.freeList (fun _ _ => rfl)
  refine hold.trans (List.Perm.trans ?_ (hnew.symm.cons (p, k)))
  simp only [takeBlock, setList, update_self]
  exact ((List.perm_cons_erase hmem).map _).append_right rest

/-- Membership after a list is replaced, for the pairs of every order. -/
private theorem single_setList {p k : ℕ} {l : List ℕ}
    (hsingle : ∀ k < maxOrder - 1, ∀ i, ¬ (lower k i ∈ s.freeList k ∧ upper k i ∈ s.freeList k))
    (hl : k < maxOrder - 1 → ∀ i, ¬ (lower k i ∈ l ∧ upper k i ∈ l)) :
    ∀ j < maxOrder - 1, ∀ i,
      ¬ (lower j i ∈ (setList p k l s).freeList j ∧ upper j i ∈ (setList p k l s).freeList j) := by
  intro j hj i
  by_cases hjk : j = k
  · subst hjk
    simpa only [setList, update_self] using hl hj i
  · simpa only [setList, update_of_ne hjk] using hsingle j hj i

theorem Inv.put {p k : ℕ} (h : Inv maxPfn pfns s ((p, k) :: held))
    (hbuddy : k < maxOrder - 1 → ∀ q ∈ s.freeList k, pairOf q k ≠ pairOf p k) :
    Inv maxPfn pfns (putBlock p k s) held := by
  obtain ⟨hk, hal⟩ := h.aligned (p, k) (List.mem_cons_self ..)
  have hperm : (held ++ blocks (putBlock p k s).freeList).Perm ((p, k) :: held ++ blocks s.freeList) :=
    ((blocks_putBlock s p hk).append_left held).trans List.perm_middle
  have hfree : p ∉ s.freeList k := fun hmem =>
    h.not_free (List.mem_cons_self ..) (inBlock_self (p, k)) (mem_blocks.mpr ⟨hk, hmem⟩) (inBlock_self (p, k))
  refine ⟨h.range, fun x => ?_, fun b hb => h.aligned b (hperm.mem_iff.mp hb), ?_, ?_⟩
  · rw [covering_perm hperm x]
    exact h.cover x
  · refine bit_setList hal ?_ ?_ h.bit
    · simp only [List.mem_append, List.mem_singleton, or_true, true_iff]
      exact hfree
    · intro q hq
      simp only [List.mem_append, List.mem_singleton, hq, or_false]
  · refine single_setList h.single (fun hlt i hboth => ?_)
    simp only [List.mem_append, List.mem_singleton] at hboth
    have hpos := Nat.two_pow_pos k
    obtain ⟨hlow | hlow, hupp | hupp⟩ := hboth
    · exact h.single k hlt i ⟨hlow, hupp⟩
    · exact hbuddy hlt _ hlow (by rw [pairOf_lower, ← hupp, pairOf_upper])
    · exact hbuddy hlt _ hupp (by rw [pairOf_upper, ← hlow, pairOf_lower])
    · simp only [lower, upper] at hlow hupp
      omega

theorem Inv.take {p k : ℕ} (h : Inv maxPfn pfns s held) (hk : k < maxOrder)
    (hmem : p ∈ s.freeList k) : Inv maxPfn pfns (takeBlock p k s) ((p, k) :: held) := by
  have hal := (h.aligned (p, k) (List.mem_append_right _ (mem_blocks.mpr ⟨hk, hmem⟩))).2
  have hperm : ((p, k) :: held ++ blocks (takeBlock p k s).freeList).Perm (held ++ blocks s.freeList) :=
    (((blocks_takeBlock hk hmem).append_left held).trans List.perm_middle).symm
  have hcover : ∀ x, covering ((p, k) :: held ++ blocks (takeBlock p k s).freeList) x =
      if x ∈ pfns then 1 else 0 := fun x => (covering_perm hperm x).trans (h.cover x)
  have hgone : p ∉ (s.freeList k).erase p := by
    intro hleft
    have hblock : (p, k) ∈ held ++ blocks (takeBlock p k s).freeList :=
      List.mem_append_right _ (mem_blocks.mpr ⟨hk, by
        simpa only [takeBlock, setList, update_self] using hleft⟩)
    refine not_inBlock_of_covering (x := p) ?_ (inBlock_self (p, k)) hblock (inBlock_self (p, k))
    rw [← List.cons_append, hcover p]
    split_ifs <;> omega
  refine ⟨h.range, hcover, fun b hb => h.aligned b (hperm.mem_iff.mp hb), ?_, ?_⟩
  · refine bit_setList hal ?_ (fun q hq => List.mem_erase_of_ne hq) h.bit
    simp only [hgone, hmem, not_true_eq_false]
  · exact single_setList h.single (fun hlt i hboth =>
      h.single k hlt i ⟨List.mem_of_mem_erase hboth.1, List.mem_of_mem_erase hboth.2⟩)

theorem Inv.split {p k : ℕ} (h : Inv maxPfn pfns s ((p, k + 1) :: held)) :
    Inv maxPfn pfns s ((p + 2 ^ k, k) :: (p, k) :: held) := by
  obtain ⟨hk, hal⟩ := h.aligned (p, k + 1) (List.mem_cons_self ..)
  have hhalf : 2 ^ k ∣ p := (pow_dvd_pow 2 (Nat.le_succ k)).trans hal
  refine ⟨h.range, fun x => ?_, fun b hb => ?_, h.bit, h.single⟩
  · rw [← h.cover x]
    simp only [List.cons_append]
    rw [covering_perm (List.Perm.swap ..) x, covering_split]
  · simp only [List.cons_append, List.mem_cons] at hb
    rcases hb with rfl | rfl | hb
    · exact ⟨Nat.lt_of_succ_lt hk, Nat.dvd_add hhalf (dvd_refl _)⟩
    · exact ⟨Nat.lt_of_succ_lt hk, hhalf⟩
    · exact h.aligned b (List.mem_cons_of_mem _ hb)

theorem Inv.join {p q k : ℕ} (h : Inv maxPfn pfns s ((q, k) :: (p, k) :: held)) (hk : k < maxOrder - 1)
    (hpair : (q = lower k (pairOf p k) ∧ p = upper k (pairOf p k)) ∨
      (p = lower k (pairOf p k) ∧ q = upper k (pairOf p k))) :
    Inv maxPfn pfns s ((lower k (pairOf p k), k + 1) :: held) := by
  refine ⟨h.range, fun x => ?_, fun b hb => ?_, h.bit, h.single⟩
  · rw [← h.cover x]
    simp only [List.cons_append]
    rw [covering_split]
    rcases hpair with ⟨hq, hp⟩ | ⟨hp, hq⟩
    · rw [show lower k (pairOf p k) + 2 ^ k = upper k (pairOf p k) from rfl, ← hq, ← hp]
    · rw [show lower k (pairOf p k) + 2 ^ k = upper k (pairOf p k) from rfl, ← hq, ← hp,
        covering_perm (List.Perm.swap ..) x]
  · simp only [List.cons_append, List.mem_cons] at hb
    rcases hb with rfl | hb
    · exact ⟨by simp only; omega, Dvd.intro_left _ rfl⟩
    · exact h.aligned b (by simp only [List.cons_append, List.mem_cons, hb, or_true])

/-! ## The primitives of the source -/

theorem and_orderMask {p k : ℕ} (h : 2 ^ k ∣ p) : p &&& orderMask k = 0 := by
  rw [orderMask, Nat.and_two_pow_sub_one_eq_mod]
  exact Nat.mod_eq_zero_of_dvd h

private theorem Inv.changeBit {p k : ℕ} (h : Inv maxPfn pfns s held) (hb : Bounded maxPfn pfns)
    (hmem : (p, k) ∈ held ++ blocks s.freeList) :
    PageAlloc.changeBit (p >>> (k + 1)) k s =
      some { s with map := fun j i => s.map j i ^^ (j == k && i == pairOf p k) } := by
  rw [PageAlloc.changeBit, if_pos (by rw [h.range]; exact h.pairOf_lt hb hmem), pairOf]

private theorem freeListAdd_eq {p k : ℕ} {s : Buddy} (hk : k < maxOrder) (hp : p < s.maxPfn) (hal : 2 ^ k ∣ p) :
    freeListAdd p k s = some { s with freeList := update s.freeList k (s.freeList k ++ [p]) } := by
  rw [freeListAdd, if_pos ⟨hk, hp, and_orderMask hal⟩]

/-- A page that is on the list of one order only is unlinked from that list. -/
theorem freeListDel_eq {p k : ℕ} {s : Buddy} (hk : k < maxOrder) (hmem : p ∈ s.freeList k)
    (honly : ∀ j < maxOrder, p ∈ s.freeList j → j = k) :
    freeListDel p s = some { s with freeList := update s.freeList k ((s.freeList k).erase p) } := by
  have hfind : (List.range maxOrder).find? (fun j => decide (p ∈ s.freeList j)) = some k := by
    cases hres : (List.range maxOrder).find? (fun j => decide (p ∈ s.freeList j)) with
    | none =>
      have hnone := List.find?_eq_none.mp hres k (List.mem_range.mpr hk)
      exact absurd (decide_eq_true hmem) hnone
    | some j =>
      have hj := List.mem_range.mp (List.mem_of_find?_eq_some hres)
      have hpj : p ∈ s.freeList j := by
        simpa only [decide_eq_true_eq] using List.find?_some hres
      rw [honly j hj hpj]
  rw [freeListDel, hfind]
  rfl

private theorem Inv.free_unique (h : Inv maxPfn pfns s held) {p k j : ℕ} (hk : k < maxOrder)
    (hmem : p ∈ s.freeList k) (hj : j < maxOrder) (hother : p ∈ s.freeList j) : j = k := by
  by_contra hne
  have htake := h.take hk hmem
  refine htake.not_free (List.mem_cons_self ..) (inBlock_self (p, k)) (c := (p, j))
    (mem_blocks.mpr ⟨hj, ?_⟩) (inBlock_self (p, j))
  simpa only [takeBlock, setList, update_of_ne hne] using hother

/-! ## The loops of the source -/

/-- The splitting loop hands out the lower part of a held block, once the bit of
the block's pair has been flipped. -/
private theorem split_loop (hb : Bounded maxPfn pfns) {p order : ℕ} :
    ∀ (n : ℕ) (s s' : Buddy), order ≤ n → changeBit (p >>> (n + 1)) n s = some s' →
      Inv maxPfn pfns s' ((p, n) :: held) →
      ∃ t, split p order n s = some t ∧ Inv maxPfn pfns t ((p, order) :: held) := by
  intro n
  induction n with
  | zero =>
    intro s s' hle hchange hinv
    obtain rfl : order = 0 := by omega
    exact ⟨s', hchange, hinv⟩
  | succ n ih =>
    intro s s' hle hchange hinv
    by_cases heq : n + 1 = order
    · subst heq
      exact ⟨s', by rw [split, hchange, Option.bind_some, if_pos rfl], hinv⟩
    obtain ⟨hk, hal⟩ : n + 1 < maxOrder ∧ 2 ^ (n + 1) ∣ p :=
      hinv.aligned (p, n + 1) (List.mem_cons_self ..)
    have hhalves := hinv.split
    have hupper : p + 2 ^ n ∈ pfns :=
      hhalves.held_mem (List.mem_cons_self ..) (inBlock_self (p + 2 ^ n, n))
    have hpair : pairOf (p + 2 ^ n) n = pairOf p n := by
      rw [← upper_pairOf hal, pairOf_upper]
    have hput : Inv maxPfn pfns (putBlock (p + 2 ^ n) n s') ((p, n) :: held) := by
      refine hhalves.put (fun hn q hq hsame => ?_)
      have hqal := (hhalves.aligned (q, n)
        (List.mem_append_right _ (mem_blocks.mpr ⟨by omega, hq⟩))).2
      rw [hpair] at hsame
      have hin : InBlock (p, n + 1) q := by
        have hpow : 2 ^ (n + 1) = 2 ^ n + 2 ^ n := by ring
        have hpos := Nat.two_pow_pos n
        have hside := eq_lower_or_upper hqal
        rw [hsame, lower_pairOf hal, upper_pairOf hal] at hside
        simp only [InBlock, hpow]
        omega
      exact hinv.not_free (List.mem_cons_self ..) hin (mem_blocks.mpr ⟨by omega, hq⟩) (inBlock_self (q, n))
    have hadd := freeListAdd_eq (s := s') (p := p + 2 ^ n) (k := n) (by omega)
      (by rw [hinv.range]; exact hb.managed _ hupper)
      (hhalves.aligned (p + 2 ^ n, n) (List.mem_cons_self ..)).2
    have hflip : changeBit (p >>> (n + 1)) n
        { s' with freeList := update s'.freeList n (s'.freeList n ++ [p + 2 ^ n]) } =
        some (putBlock (p + 2 ^ n) n s') := by
      rw [changeBit, if_pos]
      · simp only [putBlock, setList, hpair]
        rfl
      · rw [hinv.range]
        exact hhalves.pairOf_lt hb (List.mem_append_left _ (List.mem_cons_of_mem _ (List.mem_cons_self ..)))
    obtain ⟨t, ht, htinv⟩ := ih _ _ (by omega) hflip hput
    refine ⟨t, ?_, htinv⟩
    rw [split, hchange, Option.bind_some, if_neg heq, hadd, Option.bind_some, ht]

/-- `alloc_pages` returns, and the block it hands out leaves the free lists. -/
theorem allocPages_spec (h : Inv maxPfn pfns s held) (hb : Bounded maxPfn pfns) {order : ℕ}
    (horder : order < maxOrder) :
    ∃ t r, allocPages order s = some (t, r) ∧ Inv maxPfn pfns t (r.elim held (fun p => (p, order) :: held)) := by
  cases hfind : findOrder order s with
  | none =>
    refine ⟨s, none, ?_, h⟩
    rw [allocPages, if_pos horder, hfind]
  | some n =>
    have hn := List.mem_of_find?_eq_some hfind
    rw [List.mem_range'_1] at hn
    have hlist : ¬ (s.freeList n).isEmpty := by
      simpa only [Bool.not_eq_true', Bool.not_eq_true] using List.find?_some hfind
    obtain ⟨p, l, hpl⟩ : ∃ p l, s.freeList n = p :: l :=
      List.exists_cons_of_ne_nil (by simpa only [List.isEmpty_iff] using hlist)
    have hnlt : n < maxOrder := by omega
    have hmem : p ∈ s.freeList n := hpl ▸ List.mem_cons_self ..
    have hblock : (p, n) ∈ held ++ blocks s.freeList :=
      List.mem_append_right _ (mem_blocks.mpr ⟨hnlt, hmem⟩)
    have hp : p ∈ pfns := h.held_mem hblock (inBlock_self (p, n))
    have hdel := freeListDel_eq hnlt hmem (fun j hj hother => h.free_unique hnlt hmem hj hother)
    have hflip : changeBit (p >>> (n + 1)) n
        { s with freeList := update s.freeList n ((s.freeList n).erase p) } =
        some (takeBlock p n s) := by
      rw [changeBit, if_pos]
      · rfl
      · rw [h.range]
        exact h.pairOf_lt hb hblock
    obtain ⟨t, ht, htinv⟩ := split_loop hb n _ _ hn.1 hflip (h.take hnlt hmem)
    refine ⟨t, some p, ?_, htinv⟩
    have hguard : p < s.maxPfn ∧ p &&& orderMask n = 0 :=
      ⟨by rw [h.range]; exact hb.managed p hp, and_orderMask (h.aligned _ hblock).2⟩
    rw [allocPages, if_pos horder, hfind]
    simp only [hpl, List.head?_cons, Option.bind_some]
    rw [if_pos hguard, hdel, Option.bind_some, ht]
    rfl

/-- The bit of a held block's pair says whether the buddy is free. -/
private theorem Inv.buddy_free {p k : ℕ} (h : Inv maxPfn pfns s ((p, k) :: held)) (hk : k < maxOrder - 1) :
    (s.map k (pairOf p k) = true →
      ∃ q ∈ s.freeList k, (q = lower k (pairOf p k) ∧ p = upper k (pairOf p k)) ∨
        (p = lower k (pairOf p k) ∧ q = upper k (pairOf p k))) ∧
    (s.map k (pairOf p k) = false → ∀ q ∈ s.freeList k, pairOf q k ≠ pairOf p k) := by
  obtain ⟨hklt, hal⟩ := h.aligned (p, k) (List.mem_cons_self ..)
  have hfree : p ∉ s.freeList k := fun hmem =>
    h.not_free (List.mem_cons_self ..) (inBlock_self (p, k)) (mem_blocks.mpr ⟨hklt, hmem⟩) (inBlock_self (p, k))
  have hbit := h.bit k hk (pairOf p k)
  have hside : p = lower k (pairOf p k) ∨ p = upper k (pairOf p k) := eq_lower_or_upper hal
  constructor
  · intro htrue
    have hone := hbit.mp htrue
    simp only [OneFree] at hone
    rcases hside with hp | hp
    · rw [← hp] at hone
      exact ⟨_, by tauto, Or.inr ⟨hp, rfl⟩⟩
    · rw [← hp] at hone
      exact ⟨_, by tauto, Or.inl ⟨rfl, hp⟩⟩
  · intro hfalse q hq hsame
    have hqal := (h.aligned (q, k) (List.mem_append_right _ (mem_blocks.mpr ⟨hklt, hq⟩))).2
    have hnone : ¬ OneFree s k (pairOf p k) := fun hone => by
      rw [hbit.mpr hone] at hfalse
      exact Bool.noConfusion hfalse
    simp only [OneFree, not_not] at hnone
    have hqside : q = lower k (pairOf p k) ∨ q = upper k (pairOf p k) :=
      hsame ▸ eq_lower_or_upper hqal
    have hlow : lower k (pairOf p k) ∈ s.freeList k := by
      rcases hqside with hq' | hq'
      · exact hq' ▸ hq
      · exact hnone.mpr (hq' ▸ hq)
    rcases hside with hp | hp
    · rw [← hp] at hlow
      exact hfree hlow
    · have hupp := hnone.mp hlow
      rw [← hp] at hupp
      exact hfree hupp

/-- Flipping the bit of a held block's pair and linking the block puts it back. -/
private theorem link_eq {p k : ℕ} (h : Inv maxPfn pfns s ((p, k) :: held)) (hb : Bounded maxPfn pfns) :
    (changeBit (p >>> (k + 1)) k s).bind (freeListAdd p k) = some (putBlock p k s) := by
  obtain ⟨hk, hal⟩ : k < maxOrder ∧ 2 ^ k ∣ p := h.aligned (p, k) (List.mem_cons_self ..)
  have hp : p ∈ pfns := h.held_mem (List.mem_cons_self ..) (inBlock_self (p, k))
  have hlt : p < s.maxPfn := by
    rw [h.range]
    exact hb.managed p hp
  rw [h.changeBit hb (List.mem_cons_self ..), Option.bind_some]
  exact freeListAdd_eq hk hlt hal

/-- `expand` unlinks the buddy and returns the first frame of the pair. -/
private theorem expand_eq {p q k : ℕ} (h : Inv maxPfn pfns s ((p, k) :: held))
    (hb : Bounded maxPfn pfns) (hk : k < maxOrder - 1) (hq : q ∈ s.freeList k)
    (hpair : (q = lower k (pairOf p k) ∧ p = upper k (pairOf p k)) ∨
      (p = lower k (pairOf p k) ∧ q = upper k (pairOf p k))) :
    (changeBit (p >>> (k + 1)) k s).bind (expand p k) = some (takeBlock q k s, lower k (pairOf p k)) := by
  obtain ⟨hklt, hal⟩ : k < maxOrder ∧ 2 ^ k ∣ p := h.aligned (p, k) (List.mem_cons_self ..)
  have hp : p ∈ pfns := h.held_mem (List.mem_cons_self ..) (inBlock_self (p, k))
  have hlt : p < s.maxPfn := by
    rw [h.range]
    exact hb.managed p hp
  have hres : p >>> (k + 1) <<< (k + 1) = lower k (pairOf p k) := by
    rw [Nat.shiftLeft_eq, lower, pairOf]
  have hbuddy : (if p = lower k (pairOf p k) then p + 2 ^ k else p - 2 ^ k) = q := by
    have hpos := Nat.two_pow_pos k
    simp only [upper, ← lower.eq_1] at hpair
    split_ifs with hlow <;> omega
  have hqpair : pairOf q k = pairOf p k := by
    rcases hpair with ⟨hq', -⟩ | ⟨-, hq'⟩
    · rw [hq', pairOf_lower]
    · rw [hq', pairOf_upper]
  have hdel := freeListDel_eq
    (s := { s with map := fun j i => s.map j i ^^ (j == k && i == pairOf p k) }) hklt hq
    (fun j hj hother => h.free_unique hklt hq hj hother)
  have hguard : k < maxOrder - 1 ∧ p < s.maxPfn ∧ p &&& orderMask k = 0 ∧
      (p = lower k (pairOf p k) ∨ p = lower k (pairOf p k) + 2 ^ k) :=
    ⟨hk, hlt, and_orderMask hal, eq_lower_or_upper hal⟩
  rw [h.changeBit hb (List.mem_cons_self ..), Option.bind_some]
  simp only [expand, hres, if_pos hguard, hbuddy, hdel, Option.map_some, takeBlock, setList, hqpair]

private theorem coalesce_loop (hb : Bounded maxPfn pfns) :
    ∀ (rest p order : ℕ) (s : Buddy), order + rest = maxOrder - 1 →
      Inv maxPfn pfns s ((p, order) :: held) → ∃ t, coalesce rest p order s = some t ∧ Inv maxPfn pfns t held := by
  intro rest
  induction rest with
  | zero =>
    intro p order s horder h
    exact ⟨putBlock p order s, link_eq h hb, h.put (fun hlt => by omega)⟩
  | succ rest ih =>
    intro p order s horder h
    have hk : order < maxOrder - 1 := by omega
    have hklt : order < maxOrder := by omega
    have hp : p ∈ pfns := h.held_mem (List.mem_cons_self ..) (inBlock_self (p, order))
    have hchange := h.changeBit hb (List.mem_cons_self ..)
    cases hbit : s.map order (p >>> (order + 1)) with
    | false =>
      refine ⟨putBlock p order s, ?_, h.put (fun _ => (h.buddy_free hk).2 hbit)⟩
      rw [← link_eq h hb, coalesce, hchange]
      simp only [Option.bind_some, hbit, Bool.false_eq_true, if_false]
    | true =>
      obtain ⟨q, hq, hpair⟩ := (h.buddy_free hk).1 hbit
      have hexpand := expand_eq h hb hk hq hpair
      obtain ⟨t, ht, htinv⟩ := ih _ _ _ (by omega) ((h.take hklt hq).join hk hpair)
      refine ⟨t, ?_, htinv⟩
      rw [hchange, Option.bind_some] at hexpand
      rw [coalesce, hchange]
      simp only [Option.bind_some, hbit, if_true, hexpand, ht]

/-- `free_pages` of a held block returns, and the block is free again. -/
theorem freePages_spec (hb : Bounded maxPfn pfns) {p order : ℕ} (h : Inv maxPfn pfns s ((p, order) :: held)) :
    ∃ t, freePages p order s = some t ∧ Inv maxPfn pfns t held := by
  obtain ⟨hk, hal⟩ : order < maxOrder ∧ 2 ^ order ∣ p :=
    h.aligned (p, order) (List.mem_cons_self ..)
  have hp : p ∈ pfns := h.held_mem (List.mem_cons_self ..) (inBlock_self (p, order))
  have hlt : p < s.maxPfn := by
    rw [h.range]
    exact hb.managed p hp
  rw [freePages, if_pos ⟨hk, hlt, and_orderMask hal⟩]
  exact coalesce_loop hb _ p order s (by omega) h

/-! ## Runs -/

private theorem Inv.perm {held' : List (ℕ × ℕ)} (h : Inv maxPfn pfns s held)
    (hperm : held.Perm held') : Inv maxPfn pfns s held' :=
  ⟨h.range, fun x => by rw [← h.cover x, covering_perm (hperm.append_right _) x],
    fun b hb => h.aligned b ((hperm.append_right _).mem_iff.mpr hb), h.bit, h.single⟩

/-- Freeing the pages of a list one by one, while the others are held. -/
private theorem init_loop (hb : Bounded maxPfn pfns) :
    ∀ (l : List ℕ) (s : Buddy), Inv maxPfn pfns s (l.map fun p => (p, 0)) →
      ∃ t, l.foldlM (fun s p => freePages p 0 s) s = some t ∧ Inv maxPfn pfns t [] := by
  intro l
  induction l with
  | nil => exact fun s h => ⟨s, rfl, h⟩
  | cons p l ih =>
    intro s h
    obtain ⟨t, ht, htinv⟩ := freePages_spec hb h
    obtain ⟨u, hu, huinv⟩ := ih t htinv
    exact ⟨u, by rw [List.foldlM_cons, ht]; exact hu, huinv⟩

private theorem init_inv (maxPfn : ℕ) (hnodup : pfns.Nodup) :
    Inv maxPfn pfns ⟨fun _ => [], fun _ _ => false, maxPfn⟩ (pfns.map fun p => (p, 0)) := by
  have hblocks : blocks (fun _ => []) = [] := by rfl
  refine ⟨rfl, fun x => ?_, fun b hmem => ?_, fun k hk i => ?_, fun k hk i => ?_⟩
  · have hone : ∀ p, decide (InBlock (p, 0) x) = (p == x) := by
      intro p
      rw [beq_eq_decide]
      simp only [InBlock, pow_zero, decide_eq_decide]
      omega
    simp only [hblocks, List.append_nil, covering, List.countP_map, Function.comp_def, hone]
    exact hnodup.count
  · rw [hblocks, List.append_nil, List.mem_map] at hmem
    obtain ⟨p, -, rfl⟩ := hmem
    exact ⟨Nat.zero_lt_succ _, one_dvd p⟩
  · simp only [OneFree, List.not_mem_nil, Bool.false_eq_true, not_true_eq_false]
  · simp only [List.not_mem_nil, false_and, not_false_eq_true]

/-- `page_alloc_init` returns and establishes the invariant. -/
theorem pageAllocInit_spec (hb : Bounded maxPfn pfns) (hnodup : pfns.Nodup) :
    ∃ s, pageAllocInit maxPfn pfns = some s ∧ Inv maxPfn pfns s [] :=
  init_loop hb pfns _ (init_inv maxPfn hnodup)

theorem exec_spec (hb : Bounded maxPfn pfns) {u : State} {op : Op}
    (h : Inv maxPfn pfns u.buddy u.out) (hlegal : Legal u op) :
    ∃ v, exec u op = some v ∧ Inv maxPfn pfns v.buddy v.out := by
  cases op with
  | alloc order =>
    obtain ⟨t, r, ht, htinv⟩ := allocPages_spec h hb hlegal
    exact ⟨_, by rw [exec, ht]; rfl, htinv⟩
  | free p order =>
    obtain ⟨t, ht, htinv⟩ := freePages_spec hb (h.perm (List.perm_cons_erase hlegal))
    exact ⟨_, by rw [exec, ht]; rfl, htinv⟩

theorem Inv.run (hb : Bounded maxPfn pfns) {u v : State} {ops : List Op} (h : Inv maxPfn pfns u.buddy u.out)
    (hrun : Run Step u ops v) : Inv maxPfn pfns v.buddy v.out := by
  refine hrun.invariant (P := fun u => Inv maxPfn pfns u.buddy u.out) h (fun {u v op} hu hstep => ?_)
  obtain ⟨w, hw, hwinv⟩ := exec_spec hb hu hstep.1
  obtain rfl : w = v := Option.some.inj (hw.symm.trans hstep.2)
  exact hwinv

/-- From any set of free pages whose bitmap indexes are in range, every sequence
of allocations and matching frees keeps the free lists, the bitmaps and the
outstanding allocations consistent, and no assertion fails. -/
theorem buddy_run_consistent (maxPfn : ℕ) (pfns : List ℕ) (hnodup : pfns.Nodup)
    (hmanaged : ∀ p ∈ pfns, p < maxPfn)
    (hbitmap : ∀ k < maxOrder, ∀ p ∈ pfns, p >>> (k + 1) < bitmapBits maxPfn k) :
    ∃ s₀, pageAllocInit maxPfn pfns = some s₀ ∧
      ∀ ops s, Run Step ⟨s₀, []⟩ ops s →
        Consistent maxPfn pfns s.buddy s.out ∧ ∀ op, Legal s op → (exec s op).isSome := by
  have hb : Bounded maxPfn pfns :=
    ⟨hmanaged, fun k hk p _ hblock => hbitmap k hk p (hblock p (inBlock_self (p, k)))⟩
  obtain ⟨s₀, hinit, hinv₀⟩ := pageAllocInit_spec hb hnodup
  refine ⟨s₀, hinit, fun ops s hrun => ?_⟩
  have hinv : Inv maxPfn pfns s.buddy s.out := Inv.run hb hinv₀ hrun
  refine ⟨hinv.consistent hb, fun op hlegal => ?_⟩
  obtain ⟨v, hv, -⟩ := exec_spec hb hinv hlegal
  rw [hv]
  rfl

theorem buddy_run_consistent_four_pages :
    [4, 5, 6, 7].Nodup ∧ (∀ p ∈ [4, 5, 6, 7], p < 2048) ∧
      (∀ k < maxOrder, ∀ p ∈ [4, 5, 6, 7], p >>> (k + 1) < bitmapBits 2048 k) ∧
      ∃ s₀, pageAllocInit 2048 [4, 5, 6, 7] = some s₀ ∧
        ∀ ops s, Run Step ⟨s₀, []⟩ ops s →
          Consistent 2048 [4, 5, 6, 7] s.buddy s.out ∧ ∀ op, Legal s op → (exec s op).isSome :=
  ⟨by decide, by decide, by decide,
    buddy_run_consistent 2048 [4, 5, 6, 7] (by decide) (by decide) (by decide)⟩

/-! ## When there is no memory -/

/-- The block is aligned, and its pages are managed and not handed out. -/
def Unused (pfns : List ℕ) (out : List (ℕ × ℕ)) (p k : ℕ) : Prop :=
  2 ^ k ∣ p ∧ ∀ x, InBlock (p, k) x → x ∈ pfns ∧ ∀ b ∈ out, ¬ InBlock b x

/-- `alloc_pages` finds a block of every order that has an unused one. -/
def Complete (pfns : List ℕ) (s : State) : Prop :=
  ∀ k < maxOrder, (∃ t p, allocPages k s.buddy = some (t, some p)) ↔ ∃ p, Unused pfns s.out p k

/-- An unused block lies in one free block. -/
theorem Inv.unused_free (h : Inv maxPfn pfns s held) {p k : ℕ} (hk : k < maxOrder) (hu : Unused pfns held p k) :
    ∃ b ∈ blocks s.freeList, k ≤ b.2 ∧ InBlock b p := by
  induction k generalizing p with
  | zero =>
    obtain ⟨hp, hout⟩ := hu.2 p (inBlock_self _)
    obtain ⟨b, hb, hbp⟩ := covering_pos_iff.mp (by rw [h.cover p, if_pos hp]; exact Nat.one_pos)
    exact ⟨b, (List.mem_append.mp hb).resolve_left fun hheld => hout b hheld hbp, Nat.zero_le _, hbp⟩
  | succ k ih =>
    by_contra hnone
    -- Otherwise each half of the block is on the free list, and `free_pages` would have joined them.
    have hhalf : ∀ q, 2 ^ k ∣ q → InBlock (p, k + 1) q → q ∈ s.freeList k := by
      intro q hq hin
      obtain ⟨⟨r, j⟩, hb, hle, hbq⟩ := ih (by omega)
        ⟨hq, fun x hx => hu.2 x (inBlock_nested (Nat.le_succ k) hq hu.1 (inBlock_self _) hin hx)⟩
      have hr := (h.aligned (r, j) (List.mem_append_right _ hb)).2
      rcases Nat.lt_or_eq_of_le hle with hlt | rfl
      · exact absurd ⟨_, hb, hlt, inBlock_nested hlt hu.1 hr hin hbq (inBlock_self _)⟩ hnone
      · obtain rfl := (Nat.div_left_inj hq hr).mp ((inBlock_iff_div hr).mp hbq)
        exact (mem_blocks.mp hb).2
    obtain ⟨i, rfl⟩ := hu.1
    have hpos := Nat.two_pow_pos k
    have hpow : 2 ^ (k + 1) = 2 ^ k + 2 ^ k := by ring
    have hdvd : 2 ^ k ∣ 2 ^ (k + 1) * i := (Nat.pow_dvd_pow 2 (Nat.le_succ k)).trans hu.1
    have hlow := hhalf _ hdvd (inBlock_self _)
    have hup := hhalf _ (Nat.dvd_add hdvd (Nat.dvd_refl _)) ⟨Nat.le_add_right .., by simp only [hpow]; omega⟩
    rw [Nat.mul_comm] at hlow hup
    exact h.single k (by omega) i ⟨hlow, hup⟩

/-- In every run, whatever was allocated and freed before, `alloc_pages` fails only when no
aligned block of the order is unused. -/
theorem allocPages_complete (maxPfn : ℕ) (pfns : List ℕ) (hnodup : pfns.Nodup) (hmanaged : ∀ p ∈ pfns, p < maxPfn)
    (hbitmap : ∀ k < maxOrder, ∀ p ∈ pfns, p >>> (k + 1) < bitmapBits maxPfn k) :
    ∃ s₀, pageAllocInit maxPfn pfns = some s₀ ∧ ∀ ops s, Run Step ⟨s₀, []⟩ ops s → Complete pfns s := by
  have hb : Bounded maxPfn pfns :=
    ⟨hmanaged, fun k hk p _ hblock => hbitmap k hk p (hblock p (inBlock_self (p, k)))⟩
  obtain ⟨s₀, hinit, hinv₀⟩ := pageAllocInit_spec hb hnodup
  refine ⟨s₀, hinit, fun ops s hrun k hk => ?_⟩
  have h : Inv maxPfn pfns s.buddy s.out := Inv.run hb hinv₀ hrun
  obtain ⟨t, r, hr, ht⟩ := allocPages_spec h hb hk
  constructor
  · rintro ⟨t', p, hp⟩
    obtain ⟨rfl, rfl⟩ := Prod.mk.inj (Option.some.inj (hr.symm.trans hp))
    refine ⟨p, (ht.aligned (p, k) List.mem_cons_self).2, fun x hx => ⟨ht.held_mem List.mem_cons_self hx, ?_⟩⟩
    refine fun c hc => not_inBlock_of_covering (l := s.out ++ blocks t.freeList) ?_ hx (List.mem_append_left _ hc)
    exact (ht.cover x).trans_le (by split_ifs <;> omega)
  · rintro ⟨p, hu⟩
    obtain ⟨b, hbm, hle, -⟩ := h.unused_free hk hu
    obtain ⟨hlt, hfree⟩ := mem_blocks.mp hbm
    cases hfind : findOrder k s.buddy with
    | none =>
      have hempty := List.find?_eq_none.mp hfind b.2 (List.mem_range'_1.mpr (by omega))
      simp at hempty
      simp [hempty] at hfree
    | some n =>
      cases r with
      | some q => exact ⟨t, q, hr⟩
      | none => simp [allocPages, hk, hfind, Option.bind_eq_some_iff] at hr

theorem allocPages_complete_four_pages : ∃ s₀, pageAllocInit 2048 [4, 5, 6, 7] = some s₀ ∧
    ∀ ops s, Run Step ⟨s₀, []⟩ ops s → Complete [4, 5, 6, 7] s :=
  allocPages_complete 2048 [4, 5, 6, 7] (by decide) (by decide) (by decide)

end Mario.PageAlloc
