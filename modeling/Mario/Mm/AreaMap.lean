import Mario.Mm.VmaList
import Mathlib.Tactic.Ring

/-!
# The map that an area list represents

An address space is a partial map from addresses to what is mapped there; the areas
are only its representation. All addresses of an area have the same flags, the same
file with the same displacement and, when the area is shared, the same origin. This
`Info` is what cutting, joining and growing an area leave alone, so each change of
the list is described by the range of addresses at which the map changes.
-/

namespace Mario.Mm

/-- What all addresses of an area have in common. -/
structure Info where
  flags : VmFlags
  /-- The file, and the offset in it that address zero would have. -/
  file : Option (ℕ × ℕ)
  /-- The mapping that a shared area or a copy of it goes back to. -/
  origin : Option ℕ
  deriving DecidableEq

/-- The offset in the file that address zero would have. -/
def Vma.base (v : Vma) : ℕ := (v.vmOffset + (wordSize - v.vmStart % wordSize)) % wordSize

def Vma.info (v : Vma) : Info :=
  { flags := v.vmFlags
    file := v.vmFile.map fun f => (f, v.base)
    origin := if v.vmFlags.shared then some v.area else none }

theorem Vma.pos_eq {v : Vma} {a : ℕ} (h : v.Covers a) : v.pos a = (v.base + a) % wordSize := by
  have hstart := h.1
  simp only [Vma.pos, Vma.base, wordSize]
  omega

/-- The map that an area list represents. -/
def infoAt (l : List Vma) (a : ℕ) : Option Info :=
  (l.find? fun v => decide (v.Covers a)).map Vma.info

section

variable {β : Type*}

/-- Remove a range from a map. -/
def removeRange (addr fin : ℕ) (m : ℕ → Option β) (a : ℕ) : Option β :=
  if addr ≤ a ∧ a < fin then none else m a

/-- Define a map on a range. -/
def defineRange (addr fin : ℕ) (x : ℕ → β) (m : ℕ → Option β) (a : ℕ) : Option β :=
  if addr ≤ a ∧ a < fin then some (x a) else m a

theorem map_ext {m m' : ℕ → Option β} (h : ∀ a x, m a = some x ↔ m' a = some x) : m = m' :=
  funext fun a => Option.ext fun x => h a x

end

/-- Some area of the list maps `x` at the address. -/
def Maps (l : List Vma) (a : ℕ) (x : Info) : Prop := ∃ v ∈ l, v.Covers a ∧ v.info = x

theorem maps_cons {v : Vma} {l : List Vma} {a : ℕ} {x : Info} :
    Maps (v :: l) a x ↔ (v.Covers a ∧ v.info = x) ∨ Maps l a x := by
  simp only [Maps, List.mem_cons, exists_eq_or_imp]

theorem maps_append {l l' : List Vma} {a : ℕ} {x : Info} : Maps (l ++ l') a x ↔ Maps l a x ∨ Maps l' a x := by
  simp only [Maps, List.mem_append, or_and_right, exists_or]

theorem maps_perm {l l' : List Vma} (h : l.Perm l') {a : ℕ} {x : Info} : Maps l a x ↔ Maps l' a x := by
  simp only [Maps, h.mem_iff]

theorem find_covers {l : List Vma} (h : l.Pairwise Apart) {v : Vma} {a : ℕ} (hmem : v ∈ l)
    (hcovers : v.Covers a) : l.find? (fun v => decide (v.Covers a)) = some v := by
  cases hfind : l.find? (fun v => decide (v.Covers a)) with
  | none => exact absurd (decide_eq_true hcovers) (List.find?_eq_none.mp hfind v hmem)
  | some w =>
    have hw : w.Covers a := by simpa only [decide_eq_true_eq] using List.find?_some hfind
    rw [eq_of_covers h (List.mem_of_find?_eq_some hfind) hmem hw hcovers]

/-- In a list of disjoint areas the map is what the areas say. -/
theorem infoAt_eq_some_iff {l : List Vma} (h : l.Pairwise Apart) {a : ℕ} {x : Info} :
    infoAt l a = some x ↔ Maps l a x := by
  rw [infoAt, Option.map_eq_some_iff]
  constructor
  · rintro ⟨v, hfind, rfl⟩
    have hcovers : v.Covers a := by simpa only [decide_eq_true_eq] using List.find?_some hfind
    exact ⟨v, List.mem_of_find?_eq_some hfind, hcovers, rfl⟩
  · rintro ⟨v, hmem, hcovers, rfl⟩
    exact ⟨v, find_covers h hmem hcovers, rfl⟩

theorem infoAt_of_mem {l : List Vma} (h : l.Pairwise Apart) {v : Vma} {a : ℕ} (hmem : v ∈ l)
    (hcovers : v.Covers a) : infoAt l a = some v.info :=
  (infoAt_eq_some_iff h).mpr ⟨v, hmem, hcovers, rfl⟩

/-- An area over addresses where nothing is mapped is apart from every area. -/
theorem apart_of_infoAt_none {l : List Vma} (h : WellFormed l) {v : Vma} (hv : v.Valid)
    (hnone : ∀ a, v.Covers a → infoAt l a = none) (w : Vma) (hw : w ∈ l) : Apart v w := by
  by_contra hover
  simp only [Apart, Before, not_or, not_le] at hover
  have hvne := hv.nonempty
  have hwne := (h.valid w hw).nonempty
  have hcv : v.Covers (max v.vmStart w.vmStart) := ⟨le_max_left .., by omega⟩
  have hcw : w.Covers (max v.vmStart w.vmStart) := ⟨le_max_right .., by omega⟩
  have hsome := infoAt_of_mem h.apart hw hcw
  rw [hnone _ hcv] at hsome
  cases hsome

/-- Nothing is mapped at the addresses of an area that is apart from the list. -/
theorem infoAt_none_of_apart {l : List Vma} {v : Vma} {a : ℕ} (h : ∀ w ∈ l, Apart v w)
    (hcovers : v.Covers a) : infoAt l a = none := by
  rw [infoAt, Option.map_eq_none_iff, List.find?_eq_none]
  intro w hw hwa
  exact (h w hw).not_covers hcovers (of_decide_eq_true hwa)

/-! ## Cutting, inserting and joining areas -/

theorem remains_info {v w : Vma} {addr fin fresh : ℕ} (hw : w ∈ remains v addr fin fresh)
    (hstart : v.vmStart < fin) : w.info = v.info := by
  rcases mem_remains.mp hw with ⟨-, rfl⟩ | ⟨-, rfl⟩
  · have hbase : (highPiece v fin fresh).base = v.base := by
      simp only [Vma.base, highPiece, wordSize]
      omega
    simp only [Vma.info, hbase]
    rfl
  · rfl

/-- What is left of an area maps what the area mapped outside the range. -/
theorem maps_remains {v : Vma} {addr fin fresh a : ℕ} {x : Info} (hstart : v.vmStart < fin) (hend : addr < v.vmEnd) :
    Maps (remains v addr fin fresh) a x ↔ (v.Covers a ∧ v.info = x) ∧ ¬ (addr ≤ a ∧ a < fin) := by
  constructor
  · rintro ⟨w, hw, ⟨hc₁, hc₂⟩, rfl⟩
    obtain ⟨hlo, hhi, hout⟩ := remains_inside hw hstart hend
    exact ⟨⟨⟨by omega, by omega⟩, (remains_info hw hstart).symm⟩, by omega⟩
  · rintro ⟨⟨⟨hc₁, hc₂⟩, hx⟩, hout⟩
    by_cases hlow : a < addr
    · have hmem : lowPiece v addr (if fin < v.vmEnd then fresh + 1 else fresh) ∈
          remains v addr fin fresh := mem_remains.mpr (Or.inr ⟨by omega, rfl⟩)
      exact ⟨_, hmem, ⟨hc₁, hlow⟩, (remains_info hmem hstart).trans hx⟩
    · have hmem : highPiece v fin fresh ∈ remains v addr fin fresh :=
        mem_remains.mpr (Or.inl ⟨by omega, rfl⟩)
      have hfin : fin ≤ a := by omega
      exact ⟨_, hmem, ⟨hfin, hc₂⟩, (remains_info hmem hstart).trans hx⟩

theorem infoAt_insert {v : Vma} {l l' : List Vma} (h : WellFormed l) (hwf : WellFormed l')
    (hapart : ∀ w ∈ l, Apart v w) (hperm : l'.Perm (v :: l)) :
    infoAt l' = defineRange v.vmStart v.vmEnd (fun _ => v.info) (infoAt l) := by
  refine map_ext fun a x => ?_
  rw [infoAt_eq_some_iff hwf.apart, maps_perm hperm, maps_cons, defineRange]
  split_ifs with hin
  · simp only [Option.some.injEq]
    constructor
    · rintro (⟨-, hx⟩ | ⟨u, hu, hcovers, -⟩)
      · exact hx
      · exact absurd hcovers ((hapart u hu).not_covers hin)
    · intro hx
      exact Or.inl ⟨hin, hx⟩
  · rw [infoAt_eq_some_iff h.apart]
    constructor
    · rintro (⟨hcovers, -⟩ | hmaps)
      · exact absurd hcovers hin
      · exact hmaps
    · exact Or.inr

private theorem maps_mergeFrom {p : Vma} {l : List Vma} (h : WellFormed (p :: l)) (a : ℕ)
    (x : Info) : Maps (mergeFrom p l) a x ↔ Maps (p :: l) a x := by
  induction l generalizing p with
  | nil => exact Iff.rfl
  | cons q l ih =>
    have hrest := h.sublist (List.sublist_cons_self p _)
    rw [mergeFrom]
    split_ifs with hmerge
    · rw [ih (mergeable_join h hmerge), maps_cons, maps_cons, maps_cons, ← or_assoc]
      apply or_congr_left
      obtain ⟨hend, hflags, hshared, hpf, hqf, -⟩ := hmerge
      have hinfo : q.info = p.info := by
        simp only [Vma.info, ← hflags, hshared, hpf, hqf, Option.map_none, Bool.false_eq_true, if_false]
      have hp := (h.valid p List.mem_cons_self).nonempty
      have hq := (h.valid q (List.mem_cons_of_mem p List.mem_cons_self)).nonempty
      have hjoin : ({ p with vmEnd := q.vmEnd } : Vma).info = p.info := rfl
      rw [hinfo, hjoin, ← or_and_right]
      apply and_congr_left
      intro _
      simp only [Vma.Covers]
      omega
    · rw [maps_cons, ih hrest, ← maps_cons]

theorem infoAt_mergeMmap {l : List Vma} (h : WellFormed l) : infoAt (mergeMmap l) = infoAt l := by
  refine map_ext fun a x => ?_
  rw [infoAt_eq_some_iff (mergeMmap_spec h).1.apart, infoAt_eq_some_iff h.apart]
  cases l with
  | nil => exact Iff.rfl
  | cons p l => exact maps_mergeFrom h a x

/-! ## Growing and protecting areas -/

theorem growDown_info {addr : ℕ} {v : Vma} (h : addr < v.vmStart) (hv : v.Valid) : (growDown addr v).info = v.info := by
  have hmask := pageMask_le addr
  have hstart : v.vmStart < kernelBase := hv.nonempty.trans_le hv.user
  have hbase : (growDown addr v).base = v.base := by
    simp only [Vma.base, growDown, wordSize, kernelBase] at *
    omega
  simp only [Vma.info, hbase]
  rfl

/-- Growing an area keeps the list well formed and maps the pages up to the old
start, where nothing was mapped. -/
theorem growFirst_spec {addr : ℕ} {l : List Vma} {v : Vma} (h : WellFormed l)
    (hfind : findVma addr l = some v) (hlt : addr < v.vmStart) :
    WellFormed (growFirst addr l) ∧ growDown addr v ∈ growFirst addr l ∧
      (∀ w ∈ growFirst addr l, w ∈ l ∨ w = growDown addr v) ∧
      ∀ a x, Maps (growFirst addr l) a x ↔ Maps l a x ∨ ((pageMask addr ≤ a ∧ a < v.vmStart) ∧ v.info = x) := by
  induction l with
  | nil => cases hfind
  | cons u l ih =>
    have hmask := pageMask_le addr
    have hu := h.valid u List.mem_cons_self
    obtain ⟨hbefore, hsorted⟩ := List.pairwise_cons.mp h.sorted
    rw [findVma, List.find?_cons] at hfind
    rw [growFirst]
    by_cases hend : addr < u.vmEnd
    · simp only [hend, decide_true, Option.some.injEq] at hfind
      subst hfind
      rw [if_pos hend]
      refine ⟨⟨List.pairwise_cons.mpr ⟨hbefore, hsorted⟩, ?_⟩, List.mem_cons_self, ?_, fun a x => ?_⟩
      · intro w hw
        rcases List.mem_cons.mp hw with rfl | hw
        · exact growDown_valid hu hlt
        · exact h.valid w (List.mem_cons_of_mem u hw)
      · intro w hw
        rcases List.mem_cons.mp hw with rfl | hw
        · exact Or.inr rfl
        · exact Or.inl (List.mem_cons_of_mem u hw)
      · have hne := hu.nonempty
        have hcovers : (growDown addr u).Covers a ↔
            u.Covers a ∨ (pageMask addr ≤ a ∧ a < u.vmStart) := by
          simp only [Vma.Covers, growDown]
          omega
        rw [maps_cons, maps_cons, growDown_info hlt hu, hcovers]
        tauto
    · simp only [hend, decide_false] at hfind
      rw [if_neg hend]
      obtain ⟨hwf, hgrown, hmem, hmaps⟩ := ih (h.sublist (List.sublist_cons_self u l)) hfind
      refine ⟨⟨List.pairwise_cons.mpr ⟨fun w hw => ?_, hwf.sorted⟩, ?_⟩,
        List.mem_cons_of_mem u hgrown, ?_, fun a x => ?_⟩
      · rcases hmem w hw with hw | rfl
        · exact hbefore w hw
        · exact le_pageMask hu.endAligned (not_lt.mp hend)
      · intro w hw
        rcases List.mem_cons.mp hw with rfl | hw
        · exact hu
        · exact hwf.valid w hw
      · intro w hw
        rcases List.mem_cons.mp hw with rfl | hw
        · exact Or.inl List.mem_cons_self
        · exact (hmem w hw).imp_left (List.mem_cons_of_mem u)
      · rw [maps_cons, maps_cons, hmaps a x]
        tauto

/-- What `sys_mprotect` does to the flags of an area. -/
def protectFlags (prot : VmFlags) (flags : VmFlags) : VmFlags :=
  { flags with read := prot.read, write := prot.write, exec := prot.exec }

theorem protectArea_info (start fin : ℕ) (prot : VmFlags) (v : Vma) :
    (protectArea start fin prot v).info =
      if v.vmStart < fin ∧ start < v.vmEnd then
        { v.info with flags := protectFlags prot v.vmFlags }
      else v.info := by
  rw [protectArea]
  split_ifs with hin <;> rfl

theorem protectAreas_wellFormed (start fin : ℕ) (prot : VmFlags) {l : List Vma}
    (h : WellFormed l) : WellFormed (protectAreas start fin prot l) := by
  rw [protectAreas_eq_map h]
  constructor
  · refine List.pairwise_map.mpr (h.sorted.imp fun {v w} hvw => ?_)
    obtain ⟨-, -, hend, -⟩ := protectArea_keeps start fin prot v
    obtain ⟨-, hstart, -⟩ := protectArea_keeps start fin prot w
    simp only [Before, hend, hstart]
    exact hvw
  · intro w hw
    obtain ⟨v, hv, rfl⟩ := List.mem_map.mp hw
    exact (protectArea_keeps start fin prot v).2.2.2.2 (h.valid v hv)

/-- The map after `sys_mprotect`: the areas are the old ones with other flags. -/
theorem maps_protectAreas {start fin : ℕ} {prot : VmFlags} {l : List Vma} (h : WellFormed l)
    {a : ℕ} {x : Info} (hx : Maps (protectAreas start fin prot l) a x) :
    ∃ v ∈ l, v.Covers a ∧ (protectArea start fin prot v).info = x := by
  rw [protectAreas_eq_map h] at hx
  obtain ⟨w, hw, hcovers, rfl⟩ := hx
  obtain ⟨v, hv, rfl⟩ := List.mem_map.mp hw
  obtain ⟨-, hstart, hend, -⟩ := protectArea_keeps start fin prot v
  refine ⟨v, hv, ?_, rfl⟩
  rwa [Vma.Covers, hstart, hend] at hcovers

end Mario.Mm
