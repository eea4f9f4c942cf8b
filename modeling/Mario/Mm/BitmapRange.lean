import Mario.Mm.BuddyInvariant

/-!
# The size of the buddy bitmaps

`page_alloc_init` reserves `max_pfn >> (order + 1)` bits for the bitmap of an order, rounded up to words. A
last block of the order that has no buddy below `max_pfn` belongs to a pair with the next number, whose bit is
there only by the rounding.
-/

namespace Mario.PageAlloc

open Mario.Lib Function

variable {maxPfn : ℕ} {s t : Buddy} {p k : ℕ}

/-- Whichever pages below `max_pfn` are usable, the initialisation returns, and so does every call in every
sequence of allocations and matching frees: no assertion fails, those on the bit indexes included. -/
def IndexesInRange (maxPfn : ℕ) : Prop :=
  ∀ pfns : List ℕ, pfns.Nodup → (∀ p ∈ pfns, p < maxPfn) →
    ∃ s₀, pageAllocInit maxPfn pfns = some s₀ ∧
      ∀ ops s, Run Step ⟨s₀, []⟩ ops s → ∀ op, Legal s op → (exec s op).isSome

/-! ## Enough bits -/

/-- A block below `max_pfn` has its bit, unless its order is the exceptional one. -/
theorem pairOf_lt_bitmapBits (hk : maxPfn / 2 ^ k % 64 ≠ 1) (hdvd : 2 ^ k ∣ p) (hp : p + 2 ^ k ≤ maxPfn) :
    pairOf p k < bitmapBits maxPfn k := by
  obtain ⟨m, rfl⟩ := hdvd
  have hm : m + 1 ≤ maxPfn / 2 ^ k := by
    rw [Nat.le_div_iff_mul_le (Nat.two_pow_pos k)]
    calc (m + 1) * 2 ^ k = 2 ^ k * m + 2 ^ k := by ring
      _ ≤ maxPfn := hp
  have hpair : pairOf (2 ^ k * m) k = m / 2 := by
    rw [pairOf, Nat.shiftRight_eq_div_pow, pow_succ, Nat.mul_div_mul_left _ _ (Nat.two_pow_pos k)]
  have hbits : maxPfn >>> (k + 1) = maxPfn / 2 ^ k / 2 := by
    rw [Nat.shiftRight_eq_div_pow, pow_succ, Nat.div_div_eq_div_mul]
  rw [hpair, bitmapBits, hbits, Nat.shiftRight_eq_div_pow, Nat.shiftLeft_eq]
  omega

/-! ## The missing bit -/

theorem bitmapBits_le (hk : maxPfn / 2 ^ k % 64 = 1) :
    bitmapBits maxPfn k ≤ ((maxPfn / 2 ^ k - 1) * 2 ^ k) >>> (k + 1) := by
  have hbits : maxPfn >>> (k + 1) = maxPfn / 2 ^ k / 2 := by
    rw [Nat.shiftRight_eq_div_pow, pow_succ, Nat.div_div_eq_div_mul]
  have hpair : ((maxPfn / 2 ^ k - 1) * 2 ^ k) >>> (k + 1) = (maxPfn / 2 ^ k - 1) / 2 := by
    rw [Nat.shiftRight_eq_div_pow, pow_succ, Nat.mul_comm, Nat.mul_div_mul_left _ _ (Nat.two_pow_pos k)]
  rw [hpair, bitmapBits, hbits, Nat.shiftRight_eq_div_pow, Nat.shiftLeft_eq]
  omega

theorem inBlock_of_lower {x : ℕ} (h : InBlock (p, k) x) : InBlock (p, k + 1) x := by
  have hpow : 2 ^ (k + 1) = 2 ^ k + 2 ^ k := by ring
  obtain ⟨hlow, hhigh⟩ := h
  dsimp only at hlow hhigh
  constructor
  · exact hlow
  · dsimp only
    omega

theorem inBlock_of_upper {x : ℕ} (h : InBlock (p + 2 ^ k, k) x) : InBlock (p, k + 1) x := by
  have hpow : 2 ^ (k + 1) = 2 ^ k + 2 ^ k := by ring
  obtain ⟨hlow, hhigh⟩ := h
  dsimp only at hlow hhigh
  constructor
  · dsimp only
    omega
  · dsimp only
    omega

/-- Nothing of a block is on a free list, and no pair inside it has its bit set. -/
structure Untouched (p k : ℕ) (s : Buddy) : Prop where
  bits : ∀ j < k, ∀ x, InBlock (p, k) x → s.map j (x >>> (j + 1)) = false
  lists : ∀ j x, InBlock (p, k) x → x ∉ s.freeList j

theorem coalesce_eq_some {rest order : ℕ} (hbit : s.map order (p >>> (order + 1)) = false)
    (h : coalesce (rest + 1) p order s = some t) :
    t = { freeList := update s.freeList order (s.freeList order ++ [p])
          map := fun j i => s.map j i ^^ (j == order && i == p >>> (order + 1)), maxPfn := s.maxPfn } := by
  rw [coalesce] at h
  obtain ⟨u, hu, hrest⟩ := Option.bind_eq_some_iff.mp h
  rw [changeBit] at hu
  split_ifs at hu with hrange
  cases hu
  rw [hbit, if_neg Bool.false_ne_true, freeListAdd] at hrest
  split_ifs at hrest with hguard
  exact (Option.some.inj hrest).symm

/-- Unlinking the page that was linked last restores the list. -/
theorem erase_append_self {l : List ℕ} (h : p ∉ l) : (l ++ [p]).erase p = l := by
  rw [List.erase_append_right _ h, List.erase_cons_head, List.append_nil]

/-- The upper half of a block is freed after the lower one: they are joined, and the block is freed. -/
theorem coalesce_upper {rest : ℕ} (hdvd : 2 ^ (k + 1) ∣ p) (hk : k < maxOrder) (hs : Untouched p (k + 1) s)
    (h : coalesce (rest + 1) (p + 2 ^ k) k
      { freeList := update s.freeList k (s.freeList k ++ [p])
        map := fun j i => s.map j i ^^ (j == k && i == p >>> (k + 1)), maxPfn := s.maxPfn } = some t) :
    coalesce rest p (k + 1) s = some t := by
  have hself : InBlock (p, k + 1) p := inBlock_self (p, k + 1)
  have hpair : (p + 2 ^ k) >>> (k + 1) = p >>> (k + 1) := by
    obtain ⟨m, rfl⟩ := hdvd
    rw [Nat.shiftRight_eq_div_pow, Nat.shiftRight_eq_div_pow, Nat.mul_add_div (Nat.two_pow_pos _),
      Nat.div_eq_of_lt (Nat.pow_lt_pow_right (by omega) (by omega)), Nat.mul_div_cancel_left _ (Nat.two_pow_pos _),
      Nat.add_zero]
  have hlow : p >>> (k + 1) <<< (k + 1) = p := by
    rw [Nat.shiftRight_eq_div_pow, Nat.shiftLeft_eq, Nat.div_mul_cancel hdvd]
  rw [coalesce] at h
  obtain ⟨u, hu, hrest⟩ := Option.bind_eq_some_iff.mp h
  rw [changeBit, hpair] at hu
  split_ifs at hu with hrange
  cases hu
  have hbit : s.map k (p >>> (k + 1)) = false := hs.bits k (by omega) p hself
  simp only [hpair, hbit, beq_self_eq_true, Bool.and_self, Bool.xor_true, Bool.not_false, if_true] at hrest
  obtain ⟨⟨v, q⟩, hv, hrest⟩ := Option.bind_eq_some_iff.mp hrest
  have hpos := Nat.two_pow_pos k
  rw [expand, hpair, hlow] at hv
  split_ifs at hv with hguard hsame
  · omega
  · rw [Nat.add_sub_cancel, freeListDel_eq (k := k) hk (by simp) ?_] at hv
    · cases hv
      have hlists : update (update s.freeList k (s.freeList k ++ [p])) k
          ((update s.freeList k (s.freeList k ++ [p]) k).erase p) = s.freeList := by
        rw [update_self, erase_append_self (hs.lists k p hself), update_idem, update_eq_self]
      simpa only [hlists, Bool.xor_assoc, Bool.xor_self, Bool.xor_false] using hrest
    · intro j _ hmem
      by_contra hne
      have hmem' : p ∈ update s.freeList k (s.freeList k ++ [p]) j := hmem
      rw [update_of_ne hne] at hmem'
      exact hs.lists j p hself hmem'

/-- Where the pages of a block are freed one by one, the block is freed in the end. -/
theorem coalesce_of_pages (hdvd : 2 ^ k ∣ p) (hk : k < maxOrder) (hs : Untouched p k s)
    (h : (List.range' p (2 ^ k)).foldlM (fun s x => freePages x 0 s) s = some t) :
    coalesce (maxOrder - 1 - k) p k s = some t := by
  induction k generalizing p s t with
  | zero =>
    rw [pow_zero, List.range'_one, List.foldlM_cons] at h
    obtain ⟨u, hu, hrest⟩ := Option.bind_eq_some_iff.mp h
    cases hrest
    rw [freePages] at hu
    split_ifs at hu with hguard
    exact hu
  | succ k ih =>
    have hpow : 2 ^ (k + 1) = 2 ^ k + 2 ^ k := by ring
    have hpos := Nat.two_pow_pos k
    rw [hpow, ← List.range'_append_1, List.foldlM_append] at h
    obtain ⟨u, hu, hrest⟩ := Option.bind_eq_some_iff.mp h
    obtain ⟨rest, hrestEq⟩ : ∃ rest, maxOrder - 1 - k = rest + 1 := ⟨maxOrder - 1 - (k + 1), by omega⟩
    have hdvdLow : 2 ^ k ∣ p := Dvd.dvd.trans (pow_dvd_pow 2 (by omega)) hdvd
    -- the lower half is linked, since its pair has no bit set
    have hlower := ih hdvdLow (by omega)
      ⟨fun j hj x hx => hs.bits j (by omega) x (inBlock_of_lower hx), fun j x hx => hs.lists j x (inBlock_of_lower hx)⟩ hu
    rw [hrestEq] at hlower
    have hu' := coalesce_eq_some (hs.bits k (by omega) p (inBlock_self (p, k + 1))) hlower
    subst hu'
    have hupper := ih (p := p + 2 ^ k) (Nat.dvd_add hdvdLow (Nat.dvd_refl _)) (by omega) ?_ hrest
    · rw [hrestEq] at hupper
      rw [show maxOrder - 1 - (k + 1) = rest by omega]
      exact coalesce_upper hdvd (by omega) hs hupper
    · constructor
      · intro j hj x hx
        have hne : j ≠ k := by omega
        have hbit := hs.bits j (by omega) x (inBlock_of_upper hx)
        simp [hbit, hne]
      · intro j x hx hmem
        dsimp only at hmem
        by_cases hj : j = k
        · subst hj
          rw [update_self, List.mem_append, List.mem_singleton] at hmem
          obtain hmem | rfl := hmem
          · exact hs.lists j x (inBlock_of_upper hx) hmem
          · have hlow : x + 2 ^ j ≤ x := hx.1
            omega
        · rw [update_of_ne hj] at hmem
          exact hs.lists j x (inBlock_of_upper hx) hmem

/-- The indexes are in range if and only if there is no exceptional order. -/
theorem indexes_in_range_iff (maxPfn : ℕ) :
    IndexesInRange maxPfn ↔ ∀ k < maxOrder, maxPfn / 2 ^ k % 64 ≠ 1 := by
  constructor
  · intro h k hk hodd
    have hle : maxPfn / 2 ^ k * 2 ^ k ≤ maxPfn := Nat.div_mul_le_self ..
    have hone : 1 ≤ maxPfn / 2 ^ k := by
      by_contra hzero
      rw [Nat.lt_one_iff.mp (Nat.not_le.mp hzero)] at hodd
      exact absurd hodd (by decide)
    have hend : (maxPfn / 2 ^ k - 1) * 2 ^ k + 2 ^ k = maxPfn / 2 ^ k * 2 ^ k := by
      rw [← Nat.succ_mul, Nat.succ_eq_add_one, Nat.sub_add_cancel hone]
    obtain ⟨s₀, hinit, -⟩ := h (List.range' ((maxPfn / 2 ^ k - 1) * 2 ^ k) (2 ^ k)) List.nodup_range'
      fun p hp => by
        rw [List.mem_range'_1] at hp
        omega
    have hfree := coalesce_of_pages ⟨maxPfn / 2 ^ k - 1, Nat.mul_comm ..⟩ hk
      ⟨fun _ _ _ _ => rfl, fun _ _ _ => List.not_mem_nil⟩ hinit
    -- freeing the last block of the order asks for the bit that is missing
    have hnone : changeBit (((maxPfn / 2 ^ k - 1) * 2 ^ k) >>> (k + 1)) k
        ⟨fun _ => [], fun _ _ => false, maxPfn⟩ = none := if_neg (Nat.not_lt.mpr (bitmapBits_le hodd))
    cases hrest : maxOrder - 1 - k with
    | zero => rw [hrest, coalesce, hnone] at hfree; exact absurd hfree (by simp)
    | succ rest => rw [hrest, coalesce, hnone] at hfree; exact absurd hfree (by simp)
  · intro h pfns hnodup hmanaged
    have hb : Bounded maxPfn pfns := by
      constructor
      · exact hmanaged
      · intro k hk p hdvd hblock
        have hpos := Nat.two_pow_pos k
        have hlast := hmanaged (p + 2 ^ k - 1) (hblock _ ⟨by dsimp only; omega, by dsimp only; omega⟩)
        exact pairOf_lt_bitmapBits (h k hk) hdvd (by omega)
    obtain ⟨s₀, hinit, hinv₀⟩ := pageAllocInit_spec hb hnodup
    refine ⟨s₀, hinit, fun ops s hrun op hlegal => ?_⟩
    obtain ⟨v, hv, -⟩ := exec_spec hb (Inv.run hb hinv₀ hrun) hlegal
    rw [hv]
    rfl

/-- Memory of 256 megabytes and one page. -/
theorem indexes_out_of_range : ¬ IndexesInRange 65537 := by
  intro h
  obtain ⟨s₀, hinit, -⟩ := h [65536] (by decide) (by decide)
  have hnone : pageAllocInit 65537 [65536] = none := by decide
  rw [hnone] at hinit
  exact absurd hinit (by simp)

end Mario.PageAlloc
