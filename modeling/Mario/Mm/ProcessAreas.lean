import Mario.Mm.FrameSafety
import Mario.Mm.MmapView

/-!
# What the calls do to the area lists

For every call that changes an area list: the list stays well formed, and how the map
that it represents changes.
-/

namespace Mario.Paging

open Mario.Mm Mario.Lib

variable {k : Kernel} {s t : Machine} {p : ℕ} {P : Proc}

private theorem ownsFiles_space (s : Machine) (P : Proc) :
    OwnsFiles (fun f => s.frefs f - fileUses P.mmap f) (s.space P) := by
  intro f
  simp only [Machine.space]
  omega

/-- The map after `do_munmap`. -/
def unmappedMap (addr len : ℕ) (l : List Vma) : ℕ → Option Info :=
  if MunmapInvalid addr len then infoAt l
  else removeRange addr (addr + pageAlign len) (infoAt l)

theorem sysMunmap_areas {addr len : ℕ} {io : ℕ → ℕ → ℕ} (hwf : WellFormed P.mmap)
    (h : sysMunmap k p P addr len io s = some t) :
    ∃ P', t.procs = s.procs.insert p P' ∧ P'.fds = P.fds ∧ s.fresh ≤ t.fresh ∧
      (P'.pt, t.mem) = munmapPages k addr len io P.mmap (P.pt, s.mem) ∧
      WellFormed P'.mmap ∧ infoAt P'.mmap = unmappedMap addr len P.mmap := by
  obtain ⟨sp, r, hsp, x, hx, hprocs, hmem, hfresh⟩ := sysMunmap_spec h
  refine ⟨_, hprocs, rfl, ?_, by rw [hmem, hx], ?_⟩
  all_goals
    by_cases hvalid : MunmapInvalid addr len
    · rw [doMunmap_invalid hvalid] at hsp
      obtain ⟨rfl, -⟩ := Prod.mk.inj (Option.some.inj hsp)
      first
        | exact hfresh.symm.le
        | exact ⟨hwf, by rw [unmappedMap, if_pos hvalid]; rfl⟩
    · obtain ⟨s', hs', hwf', -, hle, hinfo⟩ :=
        doMunmap_spec (s := s.space P) hwf (ownsFiles_space s P) hvalid
      obtain ⟨rfl, -⟩ := Prod.mk.inj (Option.some.inj (hs'.symm.trans hsp))
      first
        | exact hle.trans hfresh.symm.le
        | exact ⟨hwf', by rw [unmappedMap, if_neg hvalid]; exact hinfo⟩

/-- The map after `do_mmap`: its range is unmapped, and then mapped when the call
succeeds. -/
def MmapMap (k : Kernel) (fds : ℕ → Option ℕ) (a : MmapArgs) (kzalloc : Bool) (fresh fresh' : ℕ)
    (l : List Vma) (m : ℕ → Option Info) : Prop :=
  m = clearedMap k.files fds a kzalloc l ∨
    ∃ x file, checkMmap k.files fds a = .ok file ∧ fresh < fresh' ∧ pageSize ∣ x ∧
      (∀ b, x ≤ b ∧ b < x + pageAlign a.len → clearedMap k.files fds a kzalloc l b = none) ∧
      m = defineRange x (x + pageAlign a.len) (fun _ => mappedInfo a x file fresh)
        (clearedMap k.files fds a kzalloc l)

theorem sysMmap_areas {a : MmapArgs} {kzalloc : Bool} {io : ℕ → ℕ → ℕ} (hwf : WellFormed P.mmap)
    (h : sysMmap k p P a kzalloc io s = some t) :
    ∃ P', t.procs = s.procs.insert p P' ∧ P'.fds = P.fds ∧ s.fresh ≤ t.fresh ∧
      (P'.pt, t.mem) = (if unmapsFirst k.files P.fds a kzalloc then
        munmapPages k a.addr (pageAlign a.len) io P.mmap (P.pt, s.mem) else (P.pt, s.mem)) ∧
      WellFormed P'.mmap ∧ MmapMap k P.fds a kzalloc s.fresh t.fresh P.mmap (infoAt P'.mmap) := by
  obtain ⟨sp, r, hsp, x, hx, hprocs, hmem, hfresh⟩ := sysMmap_spec h
  obtain ⟨s', r', hs', hwf', -, hle, hcases⟩ := doMmap_spec k.files P.fds a kzalloc
    (s := s.space P) hwf (ownsFiles_space s P)
  obtain ⟨rfl, rfl⟩ := Prod.mk.inj (Option.some.inj (hs'.symm.trans hsp))
  refine ⟨_, hprocs, rfl, hle.trans hfresh.symm.le, by rw [hmem, hx], hwf', ?_⟩
  rcases hcases with ⟨e, -, hinfo⟩ | ⟨y, file, -, hcheck, hlt, -, hdvd, -, hnone, hinfo⟩
  · exact Or.inl hinfo
  · exact Or.inr ⟨y, file, hcheck, hlt.trans_eq hfresh.symm, hdvd, hnone, hinfo⟩

theorem clearedMap_some {fds : ℕ → Option ℕ} {a : MmapArgs} {kzalloc : Bool} {l : List Vma}
    {b : ℕ} {i : Info} (h : clearedMap k.files fds a kzalloc l b = some i) : infoAt l b = some i := by
  rw [clearedMap] at h
  split_ifs at h
  · rw [removeRange] at h
    split_ifs at h
    exact h
  · exact h

/-- Everything that `do_mmap` leaves mapped was mapped before, or is its own area. -/
theorem MmapMap.cases {fds : ℕ → Option ℕ} {a : MmapArgs} {kzalloc : Bool} {fresh fresh' : ℕ}
    {l : List Vma} {m : ℕ → Option Info} (h : MmapMap k fds a kzalloc fresh fresh' l m) {b : ℕ}
    {i : Info} (hi : m b = some i) :
    infoAt l b = some i ∨
      ∃ x file, checkMmap k.files fds a = .ok file ∧ fresh < fresh' ∧ i = mappedInfo a x file fresh := by
  rcases h with rfl | ⟨x, file, hcheck, hlt, -, -, rfl⟩
  · exact Or.inl (clearedMap_some hi)
  · rw [defineRange] at hi
    split_ifs at hi
    · exact Or.inr ⟨x, file, hcheck, hlt, (Option.some.inj hi).symm⟩
    · exact Or.inl (clearedMap_some hi)

/-- The area of a page fault is in the list after it, and covers the address; the list
stays well formed, and maps what it mapped and perhaps more of this area. -/
theorem faultArea_spec {addr : ℕ} {l l' : List Vma} {v : Vma} (hwf : WellFormed l)
    (h : faultArea k addr l = some (v, l')) :
    WellFormed l' ∧ v ∈ l' ∧ v.Valid ∧ v.Covers addr ∧
      (∃ w ∈ l, w.info = v.info) ∧
      (∀ a i, infoAt l a = some i → infoAt l' a = some i) ∧
      ∀ a i, infoAt l' a = some i → infoAt l a = some i ∨ i = v.info := by
  obtain ⟨w, hw, h⟩ := Option.bind_eq_some_iff.mp h
  have hmem : w ∈ l := List.mem_of_find?_eq_some hw
  have hend : addr < w.vmEnd := by simpa using List.find?_some hw
  split_ifs at h with hstart hgrow
  · obtain ⟨rfl, rfl⟩ := Prod.mk.inj (Option.some.inj h)
    exact ⟨hwf, hmem, hwf.valid w hmem, ⟨hstart, hend⟩, ⟨w, hmem, rfl⟩, fun _ _ hi => hi, fun _ _ hi => Or.inl hi⟩
  · cases h
    rw [not_le] at hstart
    have hvalid := hwf.valid w hmem
    obtain ⟨hwf', hgrown, -, hmaps⟩ := growFirst_spec hwf hw hstart
    have hinfo := growDown_info hstart hvalid
    have hcovers : (growDown addr w).Covers addr := ⟨pageMask_le addr, hend⟩
    refine ⟨hwf', hgrown, growDown_valid hvalid hstart, hcovers, ⟨w, hmem, hinfo.symm⟩, ?_, ?_⟩
    · intro a i hi
      rw [infoAt_eq_some_iff hwf'.apart, hmaps]
      exact Or.inl ((infoAt_eq_some_iff hwf.apart).mp hi)
    · intro a i hi
      rw [infoAt_eq_some_iff hwf'.apart, hmaps] at hi
      rcases hi with hi | ⟨-, hi⟩
      · exact Or.inl ((infoAt_eq_some_iff hwf.apart).mpr hi)
      · exact Or.inr (hi.symm.trans hinfo.symm)

/-! ## Copies of an area list -/

/-- The area without the address of its structure. -/
def unplaced (v : Vma) : Vma := { v with ptr := 0 }

/-- The list is a copy of another one, up to the addresses of the structures. -/
def Copies (l' l : List Vma) : Prop := l'.map unplaced = l.map unplaced

theorem dupMmap_copies (frefs : ℕ → ℤ) (ring : Ring) (fresh : ℕ) (l : List Vma) :
    Copies (dupMmap frefs ring fresh l).1 l := by
  induction l generalizing frefs ring fresh with
  | nil => rfl
  | cons v l ih =>
    unfold Copies
    rw [dupMmap, List.map_cons, List.map_cons]
    exact congrArg₂ List.cons rfl (ih ..)

theorem Copies.exists {l l' : List Vma} (h : Copies l' l) {v : Vma} (hv : v ∈ l') :
    ∃ w ∈ l, v = { w with ptr := v.ptr } := by
  have hmem : unplaced v ∈ l'.map unplaced := List.mem_map.mpr ⟨v, hv, rfl⟩
  rw [h] at hmem
  obtain ⟨w, hw, heq⟩ := List.mem_map.mp hmem
  refine ⟨w, hw, ?_⟩
  have hplace : v = { unplaced v with ptr := v.ptr } := rfl
  rw [hplace, ← heq]
  rfl

private theorem infoAt_unplaced (l : List Vma) (a : ℕ) : infoAt (l.map unplaced) a = infoAt l a := by
  unfold infoAt
  rw [List.find?_map, Option.map_map]
  rfl

theorem Copies.infoAt_eq {l l' : List Vma} (h : Copies l' l) : infoAt l' = infoAt l := by
  funext a
  rw [← infoAt_unplaced l', h, infoAt_unplaced]

private theorem valid_unplaced {v : Vma} : (unplaced v).Valid ↔ v.Valid :=
  ⟨fun h => ⟨h.nonempty, h.startAligned, h.endAligned, h.user, h.prot, h.ops⟩,
    fun h => ⟨h.nonempty, h.startAligned, h.endAligned, h.user, h.prot, h.ops⟩⟩

private theorem wellFormed_unplaced {l : List Vma} : WellFormed (l.map unplaced) ↔ WellFormed l := by
  constructor
  · intro h
    have hsorted := List.pairwise_map.mp h.sorted
    refine ⟨hsorted, fun v hv => ?_⟩
    exact valid_unplaced.mp (h.valid _ (List.mem_map.mpr ⟨v, hv, rfl⟩))
  · intro h
    refine ⟨List.pairwise_map.mpr h.sorted, fun w hw => ?_⟩
    obtain ⟨v, hv, rfl⟩ := List.mem_map.mp hw
    exact valid_unplaced.mpr (h.valid v hv)

theorem Copies.wellFormed {l l' : List Vma} (h : Copies l' l) (hwf : WellFormed l) : WellFormed l' := by
  rw [← wellFormed_unplaced, h, wellFormed_unplaced]
  exact hwf

end Mario.Paging
