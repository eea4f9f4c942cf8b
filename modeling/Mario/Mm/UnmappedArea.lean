import Mario.Mm.VmaList
import Mathlib.Order.Bounds.Basic

/-!
# The lowest free range

`get_unmapped_area_locked` walks the area list with one candidate address. Below the candidate nothing is
free, whichever areas it has passed, so that the first candidate that fits is the lowest one.
-/

namespace Mario.Mm

variable {l : List Vma} {v : Vma} {addr len a : ℕ}

/-- The `len` bytes from an address on lie below `KERNEL_BASE` and in no area of the list. -/
def FreeRange (l : List Vma) (len a : ℕ) : Prop :=
  a + len ≤ kernelBase ∧ ∀ v ∈ l, ∀ x, a ≤ x → x < a + len → ¬ v.Covers x

/-- The address that the search starts at. -/
def searchStart (addr : ℕ) : ℕ := pageAlign (if addr = 0 then kernelBase / 2 else addr)

theorem freeRange_nil : FreeRange [] len a ↔ a + len ≤ kernelBase := by
  simp [FreeRange]

theorem freeRange_cons : FreeRange (v :: l) len a ↔ (∀ x, a ≤ x → x < a + len → ¬ v.Covers x) ∧ FreeRange l len a := by
  simp only [FreeRange, List.forall_mem_cons]
  constructor
  · rintro ⟨hfit, hv, hl⟩
    exact ⟨hv, hfit, hl⟩
  · rintro ⟨hv, hfit, hl⟩
    exact ⟨hfit, hv, hl⟩

/-- A range without an address of an area lies below the area or above it. -/
theorem below_or_above (hv : v.Valid) (hlen : 0 < len) (h : ∀ x, a ≤ x → x < a + len → ¬ v.Covers x) :
    v.vmEnd ≤ a ∨ a + len ≤ v.vmStart := by
  have hne := hv.nonempty
  by_contra hcontra
  apply h (max a v.vmStart) (by omega) (by omega)
  constructor
  · omega
  · omega

/-- What lies at or above the end of an area is above the area. -/
theorem not_covers_of_le (h : v.vmEnd ≤ a) : ∀ x, a ≤ x → x < a + len → ¬ v.Covers x := by
  rintro x hx - ⟨-, hend⟩
  omega

/-- The loop finds the lowest range at or above its candidate that is free of the areas to come. -/
theorem searchGap_lowest (h : WellFormed l) (hlen : 0 < len) (hfit : len ≤ kernelBase) (haddr : 0 < addr)
    (halign : pageSize ∣ addr) :
    (searchGap len addr l ≠ 0 →
      IsLeast {a | addr ≤ a ∧ pageSize ∣ a ∧ FreeRange l len a} (searchGap len addr l)) ∧
    (searchGap len addr l = 0 → ∀ a, addr ≤ a → ¬ FreeRange l len a) := by
  induction l generalizing addr with
  | nil =>
    rw [searchGap]
    split_ifs with hfull
    · constructor
      · intro hne
        exact absurd rfl hne
      · intro _ a ha hfree
        rw [freeRange_nil] at hfree
        omega
    · constructor
      · intro _
        constructor
        · exact ⟨le_rfl, halign, freeRange_nil.mpr (by omega)⟩
        · intro a ha
          exact ha.1
      · intro hzero
        omega
  | cons v l ih =>
    have hrest := h.sublist (List.sublist_cons_self v l)
    have hv := h.valid v List.mem_cons_self
    rw [searchGap]
    split_ifs with hfull hpast hshort
    · constructor
      · intro hne
        exact absurd rfl hne
      · intro _ a ha hfree
        have hbound := hfree.1
        omega
    · -- the area lies below every candidate, so it excludes none of them
      obtain ⟨hfound, hnone⟩ := ih hrest haddr halign
      have hiff : ∀ b, addr ≤ b → (FreeRange (v :: l) len b ↔ FreeRange l len b) := by
        intro b hb
        rw [freeRange_cons]
        exact and_iff_right (not_covers_of_le (by omega))
      constructor
      · intro hne
        obtain ⟨⟨hle, hdvd, hfree⟩, hleast⟩ := hfound hne
        constructor
        · exact ⟨hle, hdvd, (hiff _ hle).mpr hfree⟩
        · rintro b ⟨hb, hbdvd, hbfree⟩
          exact hleast ⟨hb, hbdvd, (hiff b hb).mp hbfree⟩
      · intro hzero b hb hbfree
        exact hnone hzero b hb ((hiff b hb).mp hbfree)
    · -- no range from the candidate up to the end of the area is free
      have hend : addr ≤ v.vmEnd := by omega
      have hskip : ∀ b, addr ≤ b → FreeRange (v :: l) len b → v.vmEnd ≤ b := by
        intro b hb hbfree
        have hside := below_or_above hv hlen (freeRange_cons.mp hbfree).1
        omega
      obtain ⟨hfound, hnone⟩ := ih hrest (by omega) hv.endAligned
      constructor
      · intro hne
        obtain ⟨⟨hle, hdvd, hfree⟩, hleast⟩ := hfound hne
        constructor
        · exact ⟨by omega, hdvd, freeRange_cons.mpr ⟨not_covers_of_le hle, hfree⟩⟩
        · rintro b ⟨hb, hbdvd, hbfree⟩
          exact hleast ⟨hskip b hb hbfree, hbdvd, (freeRange_cons.mp hbfree).2⟩
      · intro hzero b hb hbfree
        exact hnone hzero b (hskip b hb hbfree) (freeRange_cons.mp hbfree).2
    · have hgap : FreeRange (v :: l) len addr := by
        constructor
        · omega
        · rintro w hw x - hx ⟨hstart, -⟩
          have hbefore : v.vmStart ≤ w.vmStart := by
            rcases List.mem_cons.mp hw with rfl | hw
            · exact le_rfl
            · have hvw : v.vmEnd ≤ w.vmStart := (List.pairwise_cons.mp h.sorted).1 w hw
              have hne := hv.nonempty
              omega
          omega
      constructor
      · intro _
        constructor
        · exact ⟨le_rfl, halign, hgap⟩
        · intro b hb
          exact hb.1
      · intro hzero
        omega

theorem searchStart_pos (h : addr ≤ kernelBase) : 0 < searchStart addr := by
  unfold searchStart pageAlign pageSize wordSize
  unfold kernelBase at *
  split_ifs with hzero
  · omega
  · omega

/-- For a hint and a length that the checks of `do_mmap` let through, the address found is the lowest one
from the start of the search on that has a free range, and nothing is found only if there is none. -/
theorem unmapped_area_lowest (h : WellFormed l) (hlen : 0 < len) (hfit : len ≤ kernelBase)
    (hhint : addr ≤ kernelBase - len) :
    (getUnmappedArea addr len l ≠ 0 →
      IsLeast {a | searchStart addr ≤ a ∧ pageSize ∣ a ∧ FreeRange l len a} (getUnmappedArea addr len l)) ∧
    (getUnmappedArea addr len l = 0 →
      ¬ ∃ a, searchStart addr ≤ a ∧ pageSize ∣ a ∧ FreeRange l len a) := by
  have hpos : 0 < searchStart addr := searchStart_pos (by omega)
  obtain ⟨hfound, hnone⟩ :=
    searchGap_lowest h hlen hfit hpos (pageSize_dvd_pageAlign (if addr = 0 then kernelBase / 2 else addr))
  rw [getUnmappedArea, if_neg (by omega)]
  constructor
  · exact hfound
  · rintro hzero ⟨a, ha, -, hfree⟩
    exact hnone hzero a ha hfree

/-- Two areas with a page between them, and a range of two pages. -/
def gapped : List Vma :=
  [ { ptr := 1, vmStart := 8192, vmEnd := 12288, vmFlags := ⟨true, false, false, false, false⟩
      vmPageProt := ⟨true, false⟩, vmFile := none, vmInode := none, vmOffset := 0, vmOps := none, area := 1 },
    { ptr := 2, vmStart := 16384, vmEnd := 20480, vmFlags := ⟨true, false, false, false, false⟩
      vmPageProt := ⟨true, false⟩, vmFile := none, vmInode := none, vmOffset := 0, vmOps := none, area := 2 } ]

theorem gapped_wellFormed : WellFormed gapped := by
  constructor
  · simp [gapped, Before]
  · intro v hv
    simp only [gapped, List.mem_cons, List.not_mem_nil, or_false] at hv
    obtain rfl | rfl := hv
    · exact ⟨by decide, by decide, by decide, by decide, rfl, rfl⟩
    · exact ⟨by decide, by decide, by decide, by decide, rfl, rfl⟩

/-- The gap has one page only, and two pages fit behind the areas. -/
theorem unmapped_area_lowest_gapped :
    IsLeast {a | searchStart 4097 ≤ a ∧ pageSize ∣ a ∧ FreeRange gapped 8192 a} 20480 :=
  (@unmapped_area_lowest gapped 4097 8192 gapped_wellFormed (by decide) (by decide)
    (by decide)).1 (by decide)

end Mario.Mm
