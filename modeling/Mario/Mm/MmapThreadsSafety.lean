import Mario.Mm.MmapThreads
import Mario.Mm.MmapView

/-!
# The area list under concurrent calls

In every run whose steps keep out of each other's way (`Good`) the area list is
well formed after every step and no assertion fails. The invariant speaks about
the list together with what every thread still has to map: all of these ranges
are apart, and the addresses into which a fault is about to grow its area belong
to nobody else.
-/

namespace Mario.Threads

open Mario.Mm Mario.Lib Function

/-- The areas that a thread holds outside the list are valid. -/
def After.Valid : After → Prop
  | .insert area _ => area.Valid
  | _ => True

/-- What a thread in the middle of a call relies on. -/
def Pc.Valid : Pc → Prop
  | .unmap addr fin free cut after =>
      pageSize ∣ addr ∧ pageSize ∣ fin ∧ addr < fin ∧
        (∀ v ∈ free, v.Valid ∧ v.vmStart < fin ∧ addr < v.vmEnd) ∧
        (∀ v ∈ cut, v.Valid) ∧ after.Valid
  | .insert area _ => area.Valid
  | _ => True

/-- The structures that a thread has unlinked. -/
def Pc.unlinked : Pc → List Vma
  | .unmap _ _ free cut _ => free ++ cut.toList
  | _ => []

/-- The addresses into which a fault may grow its area belong to nobody else. -/
def FaultOk (s : State) (ptr addr : ℕ) : Prop :=
  ∃ v ∈ s.mmap, v.ptr = ptr ∧ addr < v.vmEnd ∧
    (v.vmFlags.growsdown = true →
      (∀ w ∈ s.mmap, w ≠ v → RangeApart (range w) (pageMask addr, v.vmStart)) ∧
      ∀ u, ∀ r ∈ (s.pcs u).pending, RangeApart r (pageMask addr, v.vmStart))

structure Inv (s : State) : Prop where
  wf : WellFormed s.mmap
  ptrs : (s.mmap.map Vma.ptr).Nodup
  old : ∀ v ∈ s.mmap, v.ptr < s.fresh
  valid : ∀ u, (s.pcs u).Valid
  nonempty : ∀ u, ∀ r ∈ (s.pcs u).pending, r.1 < r.2
  apart : ∀ u, (s.pcs u).pending.Pairwise RangeApart
  clear : ∀ u, ∀ r ∈ (s.pcs u).pending, ∀ v ∈ s.mmap, RangeApart r (range v)
  cross : ∀ u u', u ≠ u' → ∀ r ∈ (s.pcs u).pending, ∀ q ∈ (s.pcs u').pending, RangeApart r q
  unlinked : ∀ u, ∀ v ∈ (s.pcs u).unlinked, v.ptr < s.fresh ∧ ∀ w ∈ s.mmap, w.ptr ≠ v.ptr
  faults : ∀ u ptr addr, s.pcs u = .fault ptr addr → FaultOk s ptr addr

theorem RangeApart.symm {r q : ℕ × ℕ} (h : RangeApart r q) : RangeApart q r := Or.symm h

theorem RangeApart.mono {r r' q : ℕ × ℕ} (h : RangeApart r q) (hlo : r.1 ≤ r'.1)
    (hhi : r'.2 ≤ r.2) : RangeApart r' q := by
  simp only [RangeApart] at h ⊢
  omega

/-! ## Changing the place of one thread -/

section

variable {s : State} {t : ℕ} {pc : Pc}

theorem setPc_self : (setPc t pc s).pcs t = pc := update_self ..

theorem setPc_of_ne {u : ℕ} (h : u ≠ t) : (setPc t pc s).pcs u = s.pcs u :=
  update_of_ne h ..

/-- What holds of the new place and of the places of the others holds of all. -/
private theorem forall_setPc {P : ℕ → Pc → Prop} (hnew : P t pc)
    (hold : ∀ u, u ≠ t → P u (s.pcs u)) (u : ℕ) : P u ((setPc t pc s).pcs u) := by
  by_cases h : u = t
  · subst h
    rw [setPc_self]
    exact hnew
  · rw [setPc_of_ne h]
    exact hold u h

/-- The invariant after one thread went to another place and the list changed. -/
private theorem inv_setPc {l : List Vma} {fresh brk : ℕ} (h : Inv s) (hwf : WellFormed l)
    (hptrs : (l.map Vma.ptr).Nodup) (hold : ∀ v ∈ l, v.ptr < fresh) (hfresh : s.fresh ≤ fresh)
    (hvalid : pc.Valid) (hnonempty : ∀ r ∈ pc.pending, r.1 < r.2) (hapart : pc.pending.Pairwise RangeApart)
    (hclear : ∀ r ∈ pc.pending, ∀ v ∈ l, RangeApart r (range v))
    (hothers : ∀ u, u ≠ t → ∀ r ∈ (s.pcs u).pending, ∀ v ∈ l, RangeApart r (range v))
    (hcross : ∀ u, u ≠ t → ∀ r ∈ (s.pcs u).pending, ∀ q ∈ pc.pending, RangeApart r q)
    (hunlinked : ∀ v ∈ pc.unlinked, v.ptr < fresh ∧ ∀ w ∈ l, w.ptr ≠ v.ptr)
    (hkept : ∀ u, u ≠ t → ∀ v ∈ (s.pcs u).unlinked, ∀ w ∈ l, w.ptr ≠ v.ptr)
    (hfaults : ∀ u, u ≠ t → ∀ ptr addr, s.pcs u = .fault ptr addr →
      FaultOk (setPc t pc ⟨l, fresh, brk, s.pcs⟩) ptr addr)
    (hfault : ∀ ptr addr, pc = .fault ptr addr → FaultOk (setPc t pc ⟨l, fresh, brk, s.pcs⟩) ptr addr) :
    Inv (setPc t pc ⟨l, fresh, brk, s.pcs⟩) := by
  refine ⟨hwf, hptrs, hold, ?_, ?_, ?_, ?_, ?_, ?_, ?_⟩
  · exact forall_setPc (P := fun _ p => p.Valid) hvalid fun u _ => h.valid u
  · exact forall_setPc (P := fun _ p => ∀ r ∈ p.pending, r.1 < r.2) hnonempty fun u _ => h.nonempty u
  · exact forall_setPc (P := fun _ p => p.pending.Pairwise RangeApart) hapart fun u _ => h.apart u
  · exact forall_setPc (P := fun _ p => ∀ r ∈ p.pending, ∀ v ∈ l, RangeApart r (range v)) hclear hothers
  · intro u u' hne r hr q hq
    by_cases hu : u = t
    · subst hu
      rw [setPc_self] at hr
      rw [setPc_of_ne hne.symm] at hq
      exact (hcross u' hne.symm q hq r hr).symm
    · rw [setPc_of_ne hu] at hr
      by_cases hu' : u' = t
      · subst hu'
        rw [setPc_self] at hq
        exact hcross u hu r hr q hq
      · rw [setPc_of_ne hu'] at hq
        exact h.cross u u' hne r hr q hq
  · exact forall_setPc
      (P := fun _ p => ∀ v ∈ p.unlinked, v.ptr < fresh ∧ ∀ w ∈ l, w.ptr ≠ v.ptr) hunlinked
      fun u hu v hv => ⟨(h.unlinked u v hv).1.trans_le hfresh, hkept u hu v hv⟩
  · exact forall_setPc (P := fun _ p => ∀ ptr addr, p = .fault ptr addr →
      FaultOk (setPc t pc ⟨l, fresh, brk, s.pcs⟩) ptr addr) hfault hfaults

/-- Membership in what the threads still have to map, after one went elsewhere. -/
private theorem mem_pending_setPc {u : ℕ} {r : ℕ × ℕ} (hr : r ∈ ((setPc t pc s).pcs u).pending) :
    r ∈ pc.pending ∨ (u ≠ t ∧ r ∈ (s.pcs u).pending) := by
  by_cases hu : u = t
  · subst hu
    rw [setPc_self] at hr
    exact Or.inl hr
  · rw [setPc_of_ne hu] at hr
    exact Or.inr ⟨hu, hr⟩

/-- A thread may go to any place from which it maps no more than before. -/
theorem Inv.setPc (h : Inv s) (brk : ℕ) (hvalid : pc.Valid) (hsub : pc.pending.Sublist (s.pcs t).pending)
    (hunlinked : pc.unlinked ⊆ (s.pcs t).unlinked) (hfault : ∀ ptr addr, pc = .fault ptr addr → FaultOk s ptr addr) :
    Inv (Threads.setPc t pc { s with brk := brk }) := by
  have hkeep : ∀ ptr addr, FaultOk s ptr addr →
      FaultOk (Threads.setPc t pc { s with brk := brk }) ptr addr := by
    rintro ptr addr ⟨v, hv, hptr, hend, hgrow⟩
    refine ⟨v, hv, hptr, hend, fun hdown => ⟨(hgrow hdown).1, fun u r hr => ?_⟩⟩
    rcases mem_pending_setPc hr with hr | ⟨-, hr⟩
    · exact (hgrow hdown).2 t r (hsub.subset hr)
    · exact (hgrow hdown).2 u r hr
  exact inv_setPc h h.wf h.ptrs h.old le_rfl hvalid
    (fun r hr => h.nonempty t r (hsub.subset hr)) ((h.apart t).sublist hsub)
    (fun r hr => h.clear t r (hsub.subset hr)) (fun u _ => h.clear u)
    (fun u hu r hr q hq => h.cross u t hu r hr q (hsub.subset hq))
    (fun v hv => h.unlinked t v (hunlinked hv)) (fun u _ v hv => (h.unlinked u v hv).2)
    (fun u _ ptr addr hpc => hkeep ptr addr (h.faults u ptr addr hpc))
    (fun ptr addr hpc => hkeep ptr addr (hfault ptr addr hpc))

/-! ## Inserting an area -/

theorem Inv.eq_of_ptr (h : Inv s) {v w : Vma} (hv : v ∈ s.mmap) (hw : w ∈ s.mmap)
    (hptr : v.ptr = w.ptr) : v = w :=
  List.inj_on_of_nodup_map h.ptrs hv hw hptr

/-- An area that keeps out of everybody's way can be inserted. -/
theorem Inv.insertArea {w : Vma} (h : Inv s) (pc : Pc) (hw : w.Valid)
    (hclear : ∀ v ∈ s.mmap, RangeApart (range w) (range v))
    (hnone : NonePending s t (range w)) (hgrow : NoneGrowing s t (range w))
    (hvalid : pc.Valid) (hsub : pc.pending ⊆ (s.pcs t).pending) (hapart : (range w :: pc.pending).Pairwise RangeApart)
    (hunlinked : ∀ v ∈ pc.unlinked, v.ptr < s.fresh ∧ ∀ w ∈ s.mmap, w.ptr ≠ v.ptr)
    (hfault : ∀ ptr addr, pc ≠ .fault ptr addr) : ∃ s', Threads.insertArea t w pc s = some s' ∧ Inv s' := by
  have hnew : ({ w with ptr := s.fresh } : Vma).Valid :=
    ⟨hw.nonempty, hw.startAligned, hw.endAligned, hw.user, hw.prot, hw.ops⟩
  obtain ⟨l, hl, hwf, hperm⟩ := insertVmStruct_spec h.wf hnew hclear
  obtain ⟨hfirst, hrest⟩ := List.pairwise_cons.mp hapart
  have hmem : ∀ v, v ∈ l ↔ v = { w with ptr := s.fresh } ∨ v ∈ s.mmap := fun v => by
    rw [hperm.mem_iff, List.mem_cons]
  have hrange : ∀ (P : ℕ × ℕ → Prop), P (range w) → (∀ v ∈ s.mmap, P (range v)) →
      ∀ v ∈ l, P (range v) := by
    intro P hP hall v hv
    rcases (hmem v).mp hv with rfl | hv
    · exact hP
    · exact hall v hv
  have hfresh : ∀ v ∈ s.mmap, v.ptr ≠ s.fresh := fun v hv => (h.old v hv).ne
  have hptr : ∀ n, n < s.fresh → (∀ w ∈ s.mmap, w.ptr ≠ n) → ∀ w ∈ l, w.ptr ≠ n := by
    intro n hn hall v hv
    rcases (hmem v).mp hv with rfl | hv
    · exact hn.ne'
    · exact hall v hv
  refine ⟨_, by rw [Threads.insertArea, hl, Option.map_some], ?_⟩
  refine inv_setPc h hwf ?_ ?_ (Nat.le_succ _) hvalid
    (fun r hr => h.nonempty t r (hsub hr)) hrest ?_ ?_ ?_ ?_ ?_ ?_
    (fun ptr addr hpc => absurd hpc (hfault ptr addr))
  · rw [(hperm.map Vma.ptr).nodup_iff, List.map_cons, List.nodup_cons]
    refine ⟨fun hin => ?_, h.ptrs⟩
    obtain ⟨v, hv, heq⟩ := List.mem_map.mp hin
    exact hfresh v hv heq
  · intro v hv
    rcases (hmem v).mp hv with rfl | hv
    · exact Nat.lt_succ_self _
    · exact (h.old v hv).trans (Nat.lt_succ_self _)
  · exact fun r hr => hrange (RangeApart r) (hfirst r hr).symm (h.clear t r (hsub hr))
  · exact fun u hu r hr => hrange (RangeApart r) (hnone u hu r hr).symm (h.clear u r hr)
  · exact fun u hu r hr q hq => h.cross u t hu r hr q (hsub hq)
  · exact fun v hv => ⟨(hunlinked v hv).1.trans (Nat.lt_succ_self _), hptr _ (hunlinked v hv).1 (hunlinked v hv).2⟩
  · exact fun u _ v hv => hptr _ (h.unlinked u v hv).1 (h.unlinked u v hv).2
  · intro u hu ptr addr hpc
    obtain ⟨v, hv, hvptr, hend, hdown⟩ := h.faults u ptr addr hpc
    refine ⟨v, (hmem v).mpr (Or.inr hv), hvptr, hend, fun hflag => ⟨fun x hx hne => ?_, ?_⟩⟩
    · rcases (hmem x).mp hx with rfl | hx
      · exact hgrow u hu ptr addr hpc v hv hvptr hflag
      · exact (hdown hflag).1 x hx hne
    · intro u' r hr
      rcases mem_pending_setPc hr with hr | ⟨-, hr⟩
      · exact (hdown hflag).2 t r (hsub hr)
      · exact (hdown hflag).2 u' r hr

/-- A range that a thread still has to map keeps out of everybody's way. -/
theorem Inv.pending_free (h : Inv s) {r : ℕ × ℕ} (hr : r ∈ (s.pcs t).pending) :
    NonePending s t r ∧ NoneGrowing s t r := by
  refine ⟨fun u hu q hq => h.cross t u hu.symm r hr q hq, ?_⟩
  intro u _ ptr addr hpc v hv hvptr hflag
  obtain ⟨v', hv', hptr', -, hdown⟩ := h.faults u ptr addr hpc
  obtain rfl := h.eq_of_ptr hv hv' (hvptr.trans hptr'.symm)
  exact (hdown hflag).2 t r hr

/-! ## Unlinking a range -/

/-- What is left of an area keeps out of the way of everything the area did. -/
private theorem remains_rangeApart {v w : Vma} {addr fin fresh : ℕ} {q : ℕ × ℕ}
    (hw : w ∈ remains v addr fin fresh) (hstart : v.vmStart < fin) (hend : addr < v.vmEnd)
    (h : RangeApart (range v) q) : RangeApart (range w) q := by
  obtain ⟨hlo, hhi, -⟩ := remains_inside hw hstart hend
  exact h.mono hlo hhi

private theorem mem_remainsRanges {free : List Vma} {addr fin : ℕ} {r : ℕ × ℕ} :
    r ∈ free.flatMap (fun v => (remains v addr fin 0).map range) ↔
      ∃ v ∈ free, ∃ w ∈ remains v addr fin 0, range w = r := by
  simp only [List.mem_flatMap, List.mem_map]

private theorem remainsRanges_pairwise {free : List Vma} {addr fin : ℕ} (hrange : addr < fin)
    (hfree : free.Pairwise Apart) (hover : ∀ v ∈ free, v.vmStart < fin ∧ addr < v.vmEnd) :
    (free.flatMap fun v => (remains v addr fin 0).map range).Pairwise RangeApart := by
  rw [List.pairwise_flatMap]
  refine ⟨fun v _ => List.pairwise_map.mpr (remains_apart v 0 hrange), ?_⟩
  refine hfree.imp_of_mem fun {v w} hv hw hvw x hx y hy => ?_
  obtain ⟨x, hxv, rfl⟩ := List.mem_map.mp hx
  obtain ⟨y, hyw, rfl⟩ := List.mem_map.mp hy
  have hleft : RangeApart (range x) (range w) :=
    remains_rangeApart hxv (hover v hv).1 (hover v hv).2 hvw
  exact (remains_rangeApart hyw (hover w hw).1 (hover w hw).2 hleft.symm).symm

theorem Inv.beginUnmap {addr len : ℕ} {after : After} (h : Inv s) (haddr : pageSize ∣ addr)
    (hlen : pageSize ∣ len) (hpos : 0 < len) (hafter : after.Valid)
    (hrange : ∀ r ∈ after.pending, r = (addr, addr + len) ∧ NonePending s t r ∧ NoneGrowing s t r)
    (hkept : FaultsKept s t (unlinkRange addr (addr + len) [] s.mmap).1) :
    Inv (Threads.beginUnmap t addr len after s) := by
  set kept := (unlinkRange addr (addr + len) [] s.mmap).1 with hkeptdef
  set free := (unlinkRange addr (addr + len) [] s.mmap).2 with hfreedef
  have hperm : (kept ++ free).Perm s.mmap := by
    simpa only [List.append_nil] using unlinkRange_perm addr (addr + len) [] s.mmap
  have hsub : kept.Sublist s.mmap := unlinkRange_sublist ..
  have hfree : ∀ v ∈ free, v ∈ s.mmap := fun v hv => hperm.mem_iff.mp (List.mem_append_right _ hv)
  have hover : ∀ v ∈ free, v.vmStart < addr + len ∧ addr < v.vmEnd := by
    intro v hv
    rcases unlinkRange_free hv with hnil | hover
    · cases hnil
    · exact hover
  have hall := pairwise_apart_perm h.wf.apart hperm.symm
  obtain ⟨-, hfreeApart, hsplit⟩ := List.pairwise_append.mp hall
  have hptrs : ((kept ++ free).map Vma.ptr).Nodup := ((hperm.map _).nodup_iff).mpr h.ptrs
  rw [List.map_append, List.nodup_append'] at hptrs
  have hdisjoint : ∀ v ∈ free, ∀ w ∈ kept, w.ptr ≠ v.ptr := fun v hv w hw heq =>
    hptrs.2.2 (List.mem_map_of_mem hw) (heq ▸ List.mem_map_of_mem hv)
  have hvalidFree : ∀ v ∈ free, v.Valid := fun v hv => h.wf.valid v (hfree v hv)
  have hfin : pageSize ∣ addr + len := Nat.dvd_add haddr hlen
  have hpending : ∀ r ∈ (Pc.unmap addr (addr + len) free none after).pending,
      (∃ v ∈ free, ∃ w ∈ remains v addr (addr + len) 0, range w = r) ∨ r ∈ after.pending := by
    intro r hr
    simpa only [Pc.pending, Option.toList_none, List.map_nil, List.nil_append, List.mem_append,
      mem_remainsRanges] using hr
  have houtside : ∀ v ∈ kept, RangeApart (addr, addr + len) (range v) := by
    intro v hv
    exact (unlinkRange_kept h.wf hv).symm
  refine inv_setPc h (h.wf.sublist hsub) (h.ptrs.sublist (hsub.map _))
    (fun v hv => h.old v (hsub.subset hv)) le_rfl
    ⟨haddr, hfin, by omega, fun v hv => ⟨hvalidFree v hv, hover v hv⟩,
      (fun v hv => by cases hv), hafter⟩ ?_ ?_ ?_ ?_ ?_ ?_ ?_ ?_ (fun ptr addr hpc => by cases hpc)
  · intro r hr
    rcases hpending r hr with ⟨v, hv, w, hw, rfl⟩ | hr
    · exact (remains_valid 0 (hvalidFree v hv) haddr hfin (hover v hv).2 w hw).nonempty
    · rw [(hrange r hr).1]
      exact Nat.lt_add_of_pos_right hpos
  · simp only [Pc.pending, Option.toList_none, List.map_nil, List.nil_append]
    refine List.pairwise_append.mpr ⟨remainsRanges_pairwise (by omega) hfreeApart hover, ?_, ?_⟩
    · cases after with
      | ret => exact List.Pairwise.nil
      | setBrk brk => exact List.Pairwise.nil
      | insert area brk => exact List.pairwise_singleton ..
    · intro r hr q hq
      obtain ⟨v, hv, w, hw, rfl⟩ := mem_remainsRanges.mp hr
      rw [(hrange q hq).1]
      exact (remains_inside hw (hover v hv).1 (hover v hv).2).2.2
  · intro r hr x hx
    rcases hpending r hr with ⟨v, hv, w, hw, rfl⟩ | hr
    · exact remains_rangeApart hw (hover v hv).1 (hover v hv).2 (hsplit x hx v hv).symm
    · rw [(hrange r hr).1]
      exact houtside x hx
  · exact fun u _ r hr v hv => h.clear u r hr v (hsub.subset hv)
  · intro u hu r hr q hq
    rcases hpending q hq with ⟨v, hv, w, hw, rfl⟩ | hq
    · exact (remains_rangeApart hw (hover v hv).1 (hover v hv).2 (h.clear u r hr v (hfree v hv)).symm).symm
    · exact ((hrange q hq).2.1 u hu r hr).symm
  · intro v hv
    simp only [Pc.unlinked, Option.toList_none, List.append_nil] at hv
    exact ⟨h.old v (hfree v hv), hdisjoint v hv⟩
  · exact fun u _ v hv w hw => (h.unlinked u v hv).2 w (hsub.subset hw)
  · intro u hu ptr a hpc
    obtain ⟨v, hv, hvptr, hend, hdown⟩ := h.faults u ptr a hpc
    obtain ⟨v', hv', hptr'⟩ := hkept u hu ptr a hpc
    obtain rfl := h.eq_of_ptr hv (hsub.subset hv') (hvptr.trans hptr'.symm)
    refine ⟨v, hv', hvptr, hend, fun hflag => ⟨fun x hx => (hdown hflag).1 x (hsub.subset hx), ?_⟩⟩
    intro u' r hr
    rcases mem_pending_setPc hr with hr | ⟨-, hr⟩
    · rcases hpending r hr with ⟨x, hx, w, hw, rfl⟩ | hr
      · refine remains_rangeApart hw (hover x hx).1 (hover x hx).2 ((hdown hflag).1 x (hfree x hx) fun heq => ?_)
        exact hdisjoint x hx v hv' (by rw [heq])
      · exact (hrange r hr).2.2 u hu ptr a hpc v hv hvptr hflag
    · exact (hdown hflag).2 u' r hr

/-! ## Changing the areas in place -/

/-- The list may change to one that occupies the same addresses. -/
theorem Inv.relist {l : List Vma} (h : Inv s) (brk : ℕ) (hwf : WellFormed l)
    (hptrs : (l.map Vma.ptr).Nodup) (hmem : ∀ w ∈ l, ∃ v ∈ s.mmap, v.ptr = w.ptr)
    (hclear : ∀ u, u ≠ t → ∀ r ∈ (s.pcs u).pending, ∀ w ∈ l, RangeApart r (range w))
    (hfaults : ∀ u, u ≠ t → ∀ ptr addr, s.pcs u = .fault ptr addr → FaultOk s ptr addr →
      FaultOk { s with mmap := l } ptr addr) :
    Inv (Threads.setPc t .idle { s with mmap := l, brk := brk }) := by
  refine inv_setPc h hwf hptrs ?_ le_rfl trivial (fun r hr => by cases hr) List.Pairwise.nil
    (fun r hr => by cases hr) hclear (fun u _ r _ q hq => by cases hq) (fun v hv => by cases hv) ?_ ?_
    (fun ptr addr hpc => by cases hpc)
  · intro w hw
    obtain ⟨v, hv, hptr⟩ := hmem w hw
    exact hptr ▸ h.old v hv
  · intro u _ v hv w hw
    obtain ⟨x, hx, hptr⟩ := hmem w hw
    exact hptr ▸ (h.unlinked u v hv).2 x hx
  · intro u hu ptr addr hpc
    obtain ⟨v, hv, hvptr, hend, hdown⟩ := hfaults u hu ptr addr hpc (h.faults u ptr addr hpc)
    refine ⟨v, hv, hvptr, hend, fun hflag => ⟨(hdown hflag).1, fun u' r hr => ?_⟩⟩
    rcases mem_pending_setPc hr with hr | ⟨-, hr⟩
    · cases hr
    · exact (hdown hflag).2 u' r hr

theorem Inv.merge (h : Inv s) (brk : ℕ) (hkept : FaultsKept s t (mergeMmap s.mmap)) :
    Inv (Threads.setPc t .idle { s with mmap := mergeMmap s.mmap, brk := brk }) := by
  have hwf := (mergeMmap_spec h.wf).1
  refine h.relist brk hwf (h.ptrs.sublist (mergeMmap_ptr s.mmap)) ?_ ?_ ?_
  · intro w hw
    obtain ⟨⟨v, hv, hext⟩, -⟩ := mem_mergeMmap h.wf hw
    exact ⟨v, hv, hext.1⟩
  · exact fun u _ r hr => mergeMmap_clear (h.nonempty u r hr) (h.clear u r hr)
  · rintro u hu ptr addr hpc ⟨v, hv, hvptr, hend, hdown⟩
    obtain ⟨w, hw, hwptr⟩ := hkept u hu ptr addr hpc
    obtain ⟨⟨v', hv', hptr', hstart', hflags', hend'⟩, -⟩ := mem_mergeMmap h.wf hw
    obtain rfl := h.eq_of_ptr hv hv' (by rw [hvptr, hptr', hwptr])
    refine ⟨w, hw, hwptr, hend.trans_le hend', fun hflag => ?_⟩
    rw [← hflags'] at hflag
    rw [← hstart']
    refine ⟨fun x hx hne => ?_, (hdown hflag).2⟩
    have hxne := (hwf.valid x hx).nonempty
    have hxw : Apart x w := (hwf.apart).forall hx hw hne
    obtain ⟨-, y, hy, hyend⟩ := mem_mergeMmap h.wf hx
    have hyne := (h.wf.valid y hy).nonempty
    have hvne := (h.wf.valid v hv).nonempty
    by_cases hyv : y = v
    · subst hyv
      simp only [Apart, Before, RangeApart, range] at hxw ⊢
      omega
    · have hclear := (hdown hflag).1 y hy hyv
      simp only [Apart, Before, RangeApart, range] at hxw hclear ⊢
      omega

theorem Inv.mprotect (h : Inv s) (hidle : s.pcs t = .idle) (start len : ℕ) (prot : VmFlags) :
    Inv (Threads.mprotect start len prot s) := by
  rw [Threads.mprotect]
  split_ifs with hinvalid hzero
  · exact h
  · exact h
  · rw [protectAreas_eq_map h.wf]
    set f := protectArea (pageMask start) (pageMask start + pageAlign len) prot with hf
    have hkeeps := protectArea_keeps (pageMask start) (pageMask start + pageAlign len) prot
    have hrange : ∀ v, range (f v) = range v := fun v => by
      rw [range, (hkeeps v).2.1, (hkeeps v).2.2.1, range]
    have hwf : WellFormed (s.mmap.map f) := by
      refine ⟨List.pairwise_map.mpr (h.wf.sorted.imp fun {v w} hvw => ?_), fun w hw => ?_⟩
      · rw [Before, (hkeeps v).2.2.1, (hkeeps w).2.1]
        exact hvw
      · obtain ⟨v, hv, rfl⟩ := List.mem_map.mp hw
        exact (hkeeps v).2.2.2.2 (h.wf.valid v hv)
    have hnew := h.relist (t := t) (l := s.mmap.map f) s.brk hwf ?_ ?_ ?_ ?_
    · have hsame : update s.pcs t Pc.idle = s.pcs := by
        rw [← hidle, update_eq_self]
      simpa only [Threads.setPc, hsame] using hnew
    · have hptr : Vma.ptr ∘ f = Vma.ptr := funext fun v => (hkeeps v).1
      rw [List.map_map, hptr]
      exact h.ptrs
    · intro w hw
      obtain ⟨v, hv, rfl⟩ := List.mem_map.mp hw
      exact ⟨v, hv, (hkeeps v).1.symm⟩
    · intro u _ r hr w hw
      obtain ⟨v, hv, rfl⟩ := List.mem_map.mp hw
      rw [hrange]
      exact h.clear u r hr v hv
    · rintro u _ ptr addr _ ⟨v, hv, hvptr, hend, hdown⟩
      refine ⟨f v, List.mem_map_of_mem hv, (hkeeps v).1.trans hvptr, ?_, fun hflag => ?_⟩
      · rw [(hkeeps v).2.2.1]
        exact hend
      · rw [(hkeeps v).2.2.2.1] at hflag
        rw [(hkeeps v).2.1]
        refine ⟨fun w hw hne => ?_, (hdown hflag).2⟩
        obtain ⟨x, hx, rfl⟩ := List.mem_map.mp hw
        rw [hrange]
        exact (hdown hflag).1 x hx fun heq => hne (by rw [heq])

/-! ## Growing an area -/

private theorem faultArea_cases (env : Env) (addr : ℕ) (v : Vma) :
    faultArea env addr v = v ∨
      (addr < v.vmStart ∧ v.vmFlags.growsdown = true ∧ faultArea env addr v = growDown addr v) := by
  rw [faultArea]
  split_ifs with hstart hflag hrlim
  · exact Or.inl rfl
  · exact Or.inl rfl
  · exact Or.inl rfl
  · exact Or.inr ⟨not_le.mp hstart, by simpa using hflag, rfl⟩

private theorem mapFree_eq {f : Vma → Vma} {pc : Pc} (h : ∀ v ∈ pc.unlinked, f v = v) : pc.mapFree f = pc := by
  cases pc with
  | unmap addr fin free cut after =>
    have hfree : free.map f = free := by
      rw [List.map_congr_left (fun v hv => h v (List.mem_append_left _ hv)), List.map_id']
    have hcut : cut.map f = cut := by
      cases cut with
      | none => rfl
      | some v => rw [Option.map_some, h v (List.mem_append_right _ List.mem_cons_self)]
    rw [Pc.mapFree, hfree, hcut]
  | _ => rfl

/-- A fault may grow its area into addresses that belong to nobody else. -/
private theorem Inv.grow {v : Vma} {addr : ℕ} (h : Inv s) (hv : v ∈ s.mmap) (haddr : addr < v.vmStart)
    (hothers : ∀ w ∈ s.mmap, w ≠ v → RangeApart (range w) (pageMask addr, v.vmStart))
    (hpending : ∀ u, ∀ r ∈ (s.pcs u).pending, RangeApart r (pageMask addr, v.vmStart)) :
    Inv (Threads.setPc t .idle
      { s with mmap := s.mmap.map fun w => if w = v then growDown addr v else w }) := by
  have hmask := pageMask_le addr
  have hnew := growDown_valid (h.wf.valid v hv) haddr
  have hcases : ∀ w ∈ s.mmap.map (fun w => if w = v then growDown addr v else w),
      w = growDown addr v ∨ (w ∈ s.mmap ∧ w ≠ v) := by
    intro w hw
    obtain ⟨x, hx, rfl⟩ := List.mem_map.mp hw
    by_cases hxv : x = v
    · exact Or.inl (if_pos hxv)
    · rw [if_neg hxv]
      exact Or.inr ⟨hx, hxv⟩
  have hmem : ∀ w ∈ s.mmap, w ≠ v →
      w ∈ s.mmap.map (fun w => if w = v then growDown addr v else w) := fun w hw hwv =>
    List.mem_map.mpr ⟨w, hw, if_neg hwv⟩
  have hvmem : growDown addr v ∈ s.mmap.map (fun w => if w = v then growDown addr v else w) :=
    List.mem_map.mpr ⟨v, hv, if_pos rfl⟩
  refine h.relist s.brk ⟨?_, fun w hw => ?_⟩ ?_ ?_ ?_ ?_
  · refine List.pairwise_map.mpr (h.wf.sorted.imp_of_mem fun {x y} hx hy hxy => ?_)
    have hxne := (h.wf.valid x hx).nonempty
    have hyne := (h.wf.valid y hy).nonempty
    simp only [Before] at hxy
    by_cases hxv : x = v <;> by_cases hyv : y = v
    · subst hxv
      subst hyv
      omega
    · rw [if_pos hxv, if_neg hyv]
      subst hxv
      exact hxy
    · rw [if_neg hxv, if_pos hyv]
      have hgap := hothers x hx hxv
      subst hyv
      simp only [RangeApart, range, Before, growDown] at hgap ⊢
      omega
    · rw [if_neg hxv, if_neg hyv]
      exact hxy
  · rcases hcases w hw with rfl | ⟨hw, -⟩
    · exact hnew
    · exact h.wf.valid w hw
  · have hptr : ∀ w ∈ s.mmap, (if w = v then growDown addr v else w).ptr = w.ptr := by
      intro w _
      split_ifs with hwv
      · rw [hwv]
        rfl
      · rfl
    have hmap : s.mmap.map (Vma.ptr ∘ fun w => if w = v then growDown addr v else w) =
        s.mmap.map Vma.ptr := List.map_congr_left hptr
    rw [List.map_map, hmap]
    exact h.ptrs
  · intro w hw
    rcases hcases w hw with rfl | ⟨hw, -⟩
    · exact ⟨v, hv, rfl⟩
    · exact ⟨w, hw, rfl⟩
  · intro u _ r hr w hw
    rcases hcases w hw with rfl | ⟨hw, -⟩
    · have hgap := hpending u r hr
      have hclear := h.clear u r hr v hv
      have hne := h.nonempty u r hr
      have hvne := (h.wf.valid v hv).nonempty
      simp only [RangeApart, range, growDown] at hgap hclear ⊢
      omega
    · exact h.clear u r hr w hw
  · rintro u _ ptr' addr' _ ⟨x, hx, hxptr, hxend, hxdown⟩
    by_cases hxv : x = v
    · subst hxv
      refine ⟨growDown addr x, hvmem, hxptr, hxend, fun hflag' => ?_⟩
      obtain ⟨hareas, hranges⟩ := hxdown hflag'
      refine ⟨fun w hw hne => ?_, fun u' r hr => ?_⟩
      · rcases hcases w hw with rfl | ⟨hw, hwx⟩
        · exact absurd rfl hne
        · have hgap := hareas w hw hwx
          simp only [RangeApart, range, growDown] at hgap ⊢
          omega
      · have hgap := hranges u' r hr
        simp only [RangeApart, growDown] at hgap ⊢
        omega
    · refine ⟨x, hmem x hx hxv, hxptr, hxend, fun hflag' => ?_⟩
      obtain ⟨hareas, hranges⟩ := hxdown hflag'
      refine ⟨fun w hw hne => ?_, hranges⟩
      rcases hcases w hw with rfl | ⟨hw, -⟩
      · have hgap := hareas v hv (Ne.symm hxv)
        have hmine := hothers x hx hxv
        have hapart := h.wf.apart.forall hx hv hxv
        have hxne := (h.wf.valid x hx).nonempty
        have hvne := (h.wf.valid v hv).nonempty
        simp only [RangeApart, range, growDown, Apart, Before] at hgap hmine hapart ⊢
        omega
      · exact hareas w hw hne

theorem Inv.fault {env : Env} {ptr addr : ℕ} (h : Inv s) (hpc : s.pcs t = .fault ptr addr) :
    Inv (Threads.setPc t .idle
      { s with
        mmap := s.mmap.map (onPtr ptr (faultArea env addr))
        pcs := fun u => (s.pcs u).mapFree (onPtr ptr (faultArea env addr)) }) := by
  obtain ⟨v, hv, hvptr, hend, hdown⟩ := h.faults t ptr addr hpc
  have hpcs : (fun u => (s.pcs u).mapFree (onPtr ptr (faultArea env addr))) = s.pcs := by
    funext u
    refine mapFree_eq fun w hw => ?_
    have hne : w.ptr ≠ ptr := fun heq => (h.unlinked u w hw).2 v hv (hvptr.trans heq.symm)
    rw [onPtr, if_neg hne]
  have hwrite : ∀ w ∈ s.mmap, onPtr ptr (faultArea env addr) w =
      if w = v then faultArea env addr v else w := by
    intro w hw
    by_cases hwv : w = v
    · rw [onPtr, if_pos (hwv ▸ hvptr), if_pos hwv, hwv]
    · have hne : w.ptr ≠ ptr := fun heq => hwv (h.eq_of_ptr hw hv (heq.trans hvptr.symm))
      rw [onPtr, if_neg hne, if_neg hwv]
  rw [hpcs, List.map_congr_left hwrite]
  rcases faultArea_cases env addr v with hsame | ⟨haddr, hflag, hgrow⟩
  · have hid : s.mmap.map (fun w => if w = v then faultArea env addr v else w) = s.mmap := by
      have hself : ∀ w ∈ s.mmap, (if w = v then faultArea env addr v else w) = w := by
        intro w _
        split_ifs with hwv
        · rw [hsame, hwv]
        · rfl
      rw [List.map_congr_left hself, List.map_id']
    rw [hid]
    exact h.setPc s.brk trivial (List.nil_sublist _) (List.nil_subset _)
      fun ptr addr hpc => by cases hpc
  · obtain ⟨hothers, hpending⟩ := hdown hflag
    rw [hgrow]
    exact h.grow hv haddr hothers hpending

/-! ## Steps -/

private theorem idle_of_isIdle {pc : Pc} (h : pc.isIdle = true) : pc = .idle := by
  cases pc with
  | idle => rfl
  | _ => cases h

private theorem setPc_idle_eq (h : s.pcs t = .idle) : Threads.setPc t .idle s = s := by
  rw [Threads.setPc, ← h, update_eq_self]

/-- A thread with nothing to map may go anywhere else with nothing to map. -/
private theorem Inv.leave (h : Inv s) (brk : ℕ) (hvalid : pc.Valid) (hpending : pc.pending = [])
    (hunlinked : pc.unlinked = []) (hfault : ∀ ptr addr, pc ≠ .fault ptr addr) :
    Inv (Threads.setPc t pc { s with brk := brk }) :=
  h.setPc brk hvalid (hpending ▸ List.nil_sublist _) (hunlinked ▸ List.nil_subset _)
    fun ptr addr hpc => absurd hpc (hfault ptr addr)

/-- The area that a mapping call inserts is valid and lies in the range it asks for. -/
private theorem mmapArea_valid {files : ℕ → File} {fds : ℕ → Option ℕ} {a : MmapArgs}
    {file : Option ℕ} {addr : ℕ} {w : Vma} (hcheck : checkMmap files fds a = .ok file)
    (haddr : pageSize ∣ addr) (hfits : addr + pageAlign a.len ≤ kernelBase)
    (harea : mmapArea files file (allocVma a addr file s.fresh) = .ok w) :
    w.Valid ∧ range w = (addr, addr + pageAlign a.len) := by
  obtain ⟨inode, rfl⟩ := mmapArea_ok harea
  exact ⟨mapped_valid s.fresh inode (checkMmap_ok hcheck) haddr hfits, rfl⟩

theorem Inv.startMmap {files : ℕ → File} {fds : ℕ → Option ℕ} {a : MmapArgs} (h : Inv s)
    (brk : Option ℕ) (hgood : GoodMmap s t files fds a) :
    ∃ s', Threads.startMmap t files fds a brk s = some s' ∧ Inv s' := by
  have hidle : Inv (Threads.setPc t .idle s) :=
    h.leave s.brk trivial rfl rfl fun ptr addr hpc => by cases hpc
  cases hcheck : checkMmap files fds a with
  | error e => exact ⟨_, by rw [Threads.startMmap, hcheck], hidle⟩
  | ok file =>
    have hacc := checkMmap_ok hcheck
    have hgood' := hgood file hcheck
    have hpos := hacc.nonempty
    have hfits := hacc.fits
    by_cases hfixed : a.fixed = true
    · rw [if_pos hfixed] at hgood'
      obtain ⟨hfree, hunmap⟩ := hgood'
      have hdvd : pageSize ∣ a.addr := Nat.dvd_of_mod_eq_zero (hacc.fixed hfixed)
      have hidem : pageAlign (pageAlign a.len) = pageAlign a.len :=
        pageAlign_of_dvd (pageSize_dvd_pageAlign _) (by omega)
      have hkept := hunmap (by
        simp only [MunmapInvalid, not_or, not_not, not_lt]
        exact ⟨hacc.fixed hfixed, by omega, by omega⟩) (by rw [hidem]; exact hpos)
      rw [hidem] at hkept
      cases harea : mmapArea files file (allocVma a a.addr file s.fresh) with
      | error e =>
        refine ⟨_, by simp only [Threads.startMmap, hcheck, hfixed, if_true, harea]; rfl, ?_⟩
        exact h.beginUnmap hdvd (pageSize_dvd_pageAlign _) (by omega) trivial
          (fun r hr => by cases hr) hkept
      | ok w =>
        obtain ⟨hvalid, hrange⟩ := mmapArea_valid hcheck hdvd hfits harea
        refine ⟨_, by simp only [Threads.startMmap, hcheck, hfixed, if_true, harea]; rfl, ?_⟩
        refine h.beginUnmap hdvd (pageSize_dvd_pageAlign _) (by omega) hvalid (fun r hr => ?_) hkept
        rw [After.pending, List.mem_singleton] at hr
        subst hr
        exact ⟨hrange, hfree w harea⟩
    · rw [if_neg hfixed] at hgood'
      by_cases haddr : getUnmappedArea a.addr (pageAlign a.len) s.mmap = 0
      · refine ⟨_, ?_, hidle⟩
        simp only [Threads.startMmap, hcheck, hfixed, Bool.false_eq_true, if_false, haddr, if_true]
      · obtain ⟨hdvd, hbelow, hgap⟩ := getUnmappedArea_spec h.wf haddr
        cases harea : mmapArea files file
            (allocVma a (getUnmappedArea a.addr (pageAlign a.len) s.mmap) file s.fresh) with
        | error e =>
          refine ⟨_, ?_, hidle⟩
          simp only [Threads.startMmap, hcheck, hfixed, Bool.false_eq_true, if_false, haddr, harea]
        | ok w =>
          obtain ⟨hvalid, hrange⟩ := mmapArea_valid hcheck hdvd hbelow harea
          obtain ⟨hnone, hgrow⟩ := hgood' w haddr harea
          obtain ⟨s', hs', hinv'⟩ := h.insertArea (t := t) (.merge brk) hvalid
            (fun v hv => by rw [hrange]; exact (hgap v hv).symm) hnone hgrow trivial
            (List.nil_subset _) (List.pairwise_singleton ..) (fun v hv => by cases hv)
            (fun ptr addr hpc => by cases hpc)
          refine ⟨s', ?_, hinv'⟩
          simp only [Threads.startMmap, hcheck, hfixed, Bool.false_eq_true, if_false, haddr, harea, hs']

/-- `do_munmap`, up to the end of its first critical section. -/
theorem Inv.startMunmap {addr len : ℕ} {after : After} (h : Inv s)
    (hgood : GoodUnmap s t addr len) (hvalid : after.Valid) (hafter : after.pending = []) :
    Inv (Threads.startMunmap t addr len after s) := by
  rw [Threads.startMunmap]
  split_ifs with hinvalid hzero
  · exact h
  · exact h
  · obtain ⟨hdvd, -, -⟩ := munmap_range hinvalid
    refine h.beginUnmap hdvd (pageSize_dvd_pageAlign _) (by omega) hvalid (fun r hr => ?_) (hgood hinvalid hzero)
    rw [hafter] at hr
    cases hr

/-- A step of the second loop of `do_munmap` that inserts a range the thread has to map. -/
private theorem Inv.insertPending {w : Vma} (h : Inv s) (pc : Pc) (hw : w.Valid)
    (hperm : (s.pcs t).pending.Perm (range w :: pc.pending)) (hvalid : pc.Valid)
    (hunlinked : ∀ v ∈ pc.unlinked, ∃ x ∈ (s.pcs t).unlinked, x.ptr = v.ptr)
    (hfault : ∀ ptr addr, pc ≠ .fault ptr addr) : ∃ s', Threads.insertArea t w pc s = some s' ∧ Inv s' := by
  have hmem : range w ∈ (s.pcs t).pending := hperm.mem_iff.mpr List.mem_cons_self
  obtain ⟨hnone, hgrow⟩ := h.pending_free hmem
  refine h.insertArea pc hw (h.clear t _ hmem) hnone hgrow hvalid
    (fun r hr => hperm.mem_iff.mpr (List.mem_cons_of_mem _ hr))
    (hperm.pairwise (h.apart t) fun hab => hab.symm) (fun v hv => ?_) hfault
  obtain ⟨x, hx, hptr⟩ := hunlinked v hv
  exact hptr ▸ h.unlinked t x hx

private theorem remains_ranges (v : Vma) (addr fin fresh : ℕ) :
    (remains v addr fin fresh).map range = (remains v addr fin 0).map range := by
  simp only [remains, List.map_append]
  split_ifs <;> rfl

private theorem remains_length (v : Vma) (addr fin fresh : ℕ) : (remains v addr fin fresh).length ≤ 2 := by
  simp only [remains, List.length_append]
  split_ifs <;> simp

private theorem Inv.fixup {addr fin : ℕ} {v : Vma} {free : List Vma} {after : After} {env : Env}
    (h : Inv s) (hpc : s.pcs t = .unmap addr fin (v :: free) none after) : ∃ s', resume env t s = some s' ∧ Inv s' := by
  have hvalid := h.valid t
  rw [hpc] at hvalid
  obtain ⟨haddr, hfin, hrange, hfree, -, hafter⟩ := hvalid
  obtain ⟨hv, hstart, hend⟩ := hfree v List.mem_cons_self
  have hpieces := remains_valid s.fresh hv haddr hfin hend
  have hrest : (Pc.unmap addr fin free none after).Valid :=
    ⟨haddr, hfin, hrange, fun w hw => hfree w (List.mem_cons_of_mem v hw),
      (fun w hw => by cases hw), hafter⟩
  have hpending : (s.pcs t).pending = (remains v addr fin s.fresh).map range ++
      (Pc.unmap addr fin free none after).pending := by
    rw [hpc, remains_ranges]
    simp only [Pc.pending, List.flatMap_cons, List.append_assoc]
  have hunlinked : (s.pcs t).unlinked = v :: (free ++ []) := by
    rw [hpc]
    rfl
  have hlength := remains_length v addr fin s.fresh
  cases hrem : remains v addr fin s.fresh with
  | nil =>
    refine ⟨_, by simp only [resume, hpc, unmapPieces_eq_remains, hrem]; rfl, ?_⟩
    rw [hrem, List.map_nil, List.nil_append] at hpending
    refine h.setPc s.brk hrest (hpending ▸ List.Sublist.refl _) ?_ fun ptr addr hpc => by cases hpc
    rw [hunlinked]
    exact List.subset_cons_self ..
  | cons w ws =>
    rw [hrem] at hpieces hpending hlength
    cases ws with
    | nil =>
      obtain ⟨s', hs', hinv'⟩ := h.insertPending (.unmap addr fin free none after)
        (hpieces w List.mem_cons_self) (by rw [hpending]; exact List.Perm.refl _) hrest
        (fun x hx => by
          rw [hunlinked]
          exact ⟨x, List.mem_cons_of_mem v hx, rfl⟩) fun ptr addr hpc => by cases hpc
      refine ⟨s', ?_, hinv'⟩
      simp only [resume, hpc, unmapPieces_eq_remains, hrem, List.head?_nil, Option.map_none, hs']
    | cons u us =>
      obtain rfl : us = [] := by
        simpa using hlength
      have hu := hpieces u (List.mem_cons_of_mem w List.mem_cons_self)
      obtain ⟨s', hs', hinv'⟩ := h.insertPending
        (.unmap addr fin free (some { u with ptr := v.ptr }) after)
        (hpieces w List.mem_cons_self) (by
          rw [hpending]
          simp only [Pc.pending, Option.toList_none, Option.toList_some, List.map_cons,
            List.map_nil, List.nil_append, List.cons_append, range]
          exact List.Perm.cons _ List.perm_middle.symm)
        ⟨haddr, hfin, hrange, fun w hw => hfree w (List.mem_cons_of_mem v hw), (fun x hx => by
          obtain rfl := Option.mem_some_iff.mp hx
          exact ⟨hu.nonempty, hu.startAligned, hu.endAligned, hu.user, hu.prot, hu.ops⟩), hafter⟩
        (fun x hx => by
          rw [hunlinked]
          simp only [Pc.unlinked, Option.toList_some, List.mem_append, List.mem_singleton] at hx
          rcases hx with hx | rfl
          · exact ⟨x, List.mem_cons_of_mem v (List.mem_append_left _ hx), rfl⟩
          · exact ⟨v, List.mem_cons_self, rfl⟩) fun ptr addr hpc => by cases hpc
      refine ⟨s', ?_, hinv'⟩
      simp only [resume, hpc, unmapPieces_eq_remains, hrem, List.head?_cons, Option.map_some, hs']

/-- A thread that goes on with its call keeps the invariant, and no assertion fails. -/
theorem Inv.resume {env : Env} (h : Inv s) (hgood : Good s (t, none)) :
    ∃ s', Threads.resume env t s = some s' ∧ Inv s' := by
  have hvalid := h.valid t
  cases hpc : s.pcs t with
  | idle => exact ⟨s, by rw [Threads.resume, hpc], h⟩
  | unmap addr fin free cut after =>
    rw [hpc] at hvalid
    obtain ⟨haddr, hfin, hrange, hfree, hcut, hafter⟩ := hvalid
    cases cut with
    | some v =>
      obtain ⟨s', hs', hinv'⟩ := h.insertPending (w := v) (.unmap addr fin free none after)
        (hcut v rfl) (by
          rw [hpc]
          simp only [Pc.pending, Option.toList_none, Option.toList_some, List.map_cons,
            List.map_nil, List.nil_append, List.cons_append]
          exact List.perm_middle)
        ⟨haddr, hfin, hrange, hfree, (fun w hw => by cases hw), hafter⟩
        (fun x hx => by
          rw [hpc]
          simp only [Pc.unlinked, Option.toList_none, List.append_nil] at hx
          exact ⟨x, List.mem_append_left _ hx, rfl⟩) fun ptr addr hpc => by cases hpc
      exact ⟨s', by rw [Threads.resume, hpc]; exact hs', hinv'⟩
    | none =>
      cases free with
      | cons v free => exact h.fixup hpc
      | nil =>
        refine ⟨finishUnmap t after s, by rw [Threads.resume, hpc], ?_⟩
        cases after with
        | ret => exact h.leave s.brk trivial rfl rfl fun ptr addr hpc => by cases hpc
        | setBrk brk => exact h.leave brk trivial rfl rfl fun ptr addr hpc => by cases hpc
        | insert area brk =>
          refine h.setPc s.brk hafter ?_ (List.nil_subset _) fun ptr addr hpc => by cases hpc
          rw [hpc]
          exact List.Sublist.refl _
  | insert area brk =>
    rw [hpc] at hvalid
    obtain ⟨s', hs', hinv'⟩ := h.insertPending (w := area) (.merge brk) hvalid
      (by rw [hpc]; exact List.Perm.refl _) trivial (fun x hx => by cases hx)
      fun ptr addr hpc => by cases hpc
    exact ⟨s', by rw [Threads.resume, hpc]; exact hs', hinv'⟩
  | merge brk =>
    simp only [Good, hpc] at hgood
    exact ⟨_, by rw [Threads.resume, hpc], h.merge _ hgood⟩
  | brkMap oldbrk len brk =>
    simp only [Good, hpc] at hgood
    obtain ⟨s', hs', hinv'⟩ := h.startMmap (some brk) hgood
    exact ⟨s', by rw [Threads.resume, hpc]; exact hs', hinv'⟩
  | fault ptr addr => exact ⟨_, by rw [Threads.resume, hpc], h.fault hpc⟩

/-- `find_vma` finds an area whose growth meets no other area. -/
private theorem Inv.found {addr : ℕ} {v : Vma} (h : Inv s) (hidle : s.pcs t = .idle)
    (hfind : findVma addr s.mmap = some v)
    (hgood : v.vmFlags.growsdown = true → NonePending s t (pageMask addr, v.vmStart)) : FaultOk s v.ptr addr := by
  have hmem := List.mem_of_find?_eq_some hfind
  have hend : addr < v.vmEnd := by simpa only [decide_eq_true_eq] using List.find?_some hfind
  refine ⟨v, hmem, rfl, hend, fun hflag => ⟨fun w hw hne => ?_, fun u r hr => ?_⟩⟩
  · obtain ⟨-, l₁, l₂, hl, hbefore⟩ := List.find?_eq_some_iff_append.mp hfind
    have hsorted := h.wf.sorted
    rw [hl] at hw hsorted
    obtain ⟨-, hafter, -⟩ := List.pairwise_append.mp hsorted
    rcases List.mem_append.mp hw with hw₁ | hw₂
    · have hle : w.vmEnd ≤ addr := by simpa using hbefore w hw₁
      have hwmem : w ∈ s.mmap := hl ▸ hw
      exact Or.inl (le_pageMask (h.wf.valid w hwmem).endAligned hle)
    · rcases List.mem_cons.mp hw₂ with rfl | hw₂
      · exact absurd rfl hne
      · have hvw : v.vmEnd ≤ w.vmStart := (List.pairwise_cons.mp hafter).1 w hw₂
        have hvne := (h.wf.valid v hmem).nonempty
        exact Or.inr (by simp only [range]; omega)
  · by_cases hu : u = t
    · subst hu
      rw [hidle] at hr
      cases hr
    · exact (hgood hflag u hu r hr).symm

/-- A good step keeps the invariant, and no assertion fails. -/
theorem exec_spec {env : Env} {lab : Label} (h : Inv s) (hlegal : Legal env s lab)
    (hgood : Good s lab) : ∃ s', exec env s lab = some s' ∧ Inv s' := by
  obtain ⟨t, call⟩ := lab
  cases call with
  | none => exact h.resume hgood
  | some call =>
    cases call with
    | mmap files fds a => exact h.startMmap none hgood
    | munmap addr len => exact ⟨_, rfl, h.startMunmap hgood trivial rfl⟩
    | brk brk =>
      refine ⟨_, rfl, ?_⟩
      simp only [startBrk]
      split_ifs with hzero hsame hshrink hrlim hbusy
      · exact h
      · exact ⟨h.wf, h.ptrs, h.old, h.valid, h.nonempty, h.apart, h.clear, h.cross, h.unlinked, h.faults⟩
      · exact h.startMunmap (hgood hshrink) trivial rfl
      · exact h
      · exact h
      · exact h.leave s.brk trivial rfl rfl fun ptr addr hpc => by cases hpc
    | mprotect start len prot =>
      exact ⟨_, rfl, h.mprotect (idle_of_isIdle hlegal) start len prot⟩
    | merge =>
      refine ⟨_, rfl, ?_⟩
      have hinv := h.merge s.brk hgood
      rwa [setPc_idle_eq (s := { s with mmap := mergeMmap s.mmap }) (idle_of_isIdle hlegal)] at hinv
    | fault addr =>
      cases hfind : findVma addr s.mmap with
      | none => exact ⟨s, by simp only [exec, hfind], h⟩
      | some v =>
        refine ⟨Threads.setPc t (.fault v.ptr addr) s, by simp only [exec, hfind], ?_⟩
        refine h.setPc s.brk trivial (List.nil_sublist _) (List.nil_subset _) fun ptr a hpc => ?_
        obtain ⟨rfl, rfl⟩ := Pc.fault.inj hpc
        exact h.found (idle_of_isIdle hlegal) hfind (hgood v hfind)

end

/-- Before the first call: any well-formed list, and no thread in a call. -/
structure Initial (s : State) : Prop where
  wf : WellFormed s.mmap
  ptrs : (s.mmap.map Vma.ptr).Nodup
  old : ∀ v ∈ s.mmap, v.ptr < s.fresh
  idle : ∀ u, s.pcs u = .idle

theorem Initial.inv {s : State} (h : Initial s) : Inv s := by
  have hnil : ∀ u, (s.pcs u).pending = [] := fun u => by rw [h.idle u]; rfl
  refine ⟨h.wf, h.ptrs, h.old, fun u => by rw [h.idle u]; trivial, fun u r hr => ?_, fun u => ?_,
    fun u r hr => ?_, fun u u' _ r hr => ?_, fun u v hv => ?_, fun u ptr addr hpc => ?_⟩
  · rw [hnil u] at hr
    cases hr
  · rw [hnil u]
    exact List.Pairwise.nil
  · rw [hnil u] at hr
    cases hr
  · rw [hnil u] at hr
    cases hr
  · rw [h.idle u] at hv
    cases hv
  · rw [h.idle u] at hpc
    cases hpc

/-- In every run in which no step maps pages that another thread is about to map and
no step unlinks an area that another thread's fault has found, the area list stays
well formed and no assertion fails. -/
theorem threads_run_wellFormed (env : Env) (s₀ : State) (hinit : Initial s₀) (labs : List Label)
    (s : State) (hrun : Run (Guarded Good (Step env)) s₀ labs s) :
    WellFormed s.mmap ∧
      ∀ lab, Legal env s lab → Good s lab → (exec env s lab).isSome := by
  have hinv : Inv s := by
    refine hrun.invariant hinit.inv (fun {u v lab} hu hstep => ?_)
    obtain ⟨w, hw, hwinv⟩ := exec_spec hu hstep.2.1 hstep.1
    obtain rfl : w = v := Option.some.inj (hw.symm.trans hstep.2.2)
    exact hwinv
  refine ⟨hinv.wf, fun lab hlegal hgood => ?_⟩
  obtain ⟨v, hv, -⟩ := exec_spec hinv hlegal hgood
  rw [hv]
  rfl

/-! ## Runs of mappings and unmappings -/

/-- The thread is not in a page fault, nor in `sys_brk` before its mapping. -/
def Pc.calm : Pc → Bool
  | .fault .. | .brkMap .. => false
  | _ => true

/-- No thread grows an area, and the threads from `n` on are in no call. -/
structure Calm (n : ℕ) (s : State) : Prop where
  calm : ∀ u, (s.pcs u).calm = true
  idle : ∀ u, n ≤ u → s.pcs u = .idle

instance (r q : ℕ × ℕ) : Decidable (RangeApart r q) := inferInstanceAs (Decidable (_ ∨ _))

/-- The steps of mapping and unmapping by the first `n` threads in which a `MAP_FIXED` mapping keeps
out of what the others still have to map. -/
def keepsOut (n : ℕ) (s : State) : Label → Bool
  | (t, some (.mmap _ _ a)) => decide (t < n) && a.fixed && (List.range n).all fun u => u == t ||
      (s.pcs u).pending.all fun q => decide (RangeApart (a.addr, a.addr + pageAlign a.len) q)
  | (t, some (.munmap ..)) => decide (t < n)
  | (t, none) => decide (t < n)
  | _ => false

section

variable {n t : ℕ} {s s' : State} {lab : Label} {pc : Pc}

/-- Without page faults there is no area that a fault has found. -/
theorem Calm.faultsKept (h : Calm n s) (l : List Vma) : FaultsKept s t l := by
  intro u _ ptr addr hpc
  have hcalm := h.calm u
  rw [hpc] at hcalm
  cases hcalm

/-- Without page faults no area is about to grow. -/
theorem Calm.noneGrowing (h : Calm n s) (r : ℕ × ℕ) : NoneGrowing s t r := by
  intro u _ ptr addr hpc
  have hcalm := h.calm u
  rw [hpc] at hcalm
  cases hcalm

/-- The test on the first threads is the condition on all, since the others have nothing to map. -/
theorem Calm.good (h : Calm n s) (hkeeps : keepsOut n s lab = true) : Good s lab := by
  match lab with
  | (t, some (.mmap files fds a)) =>
    simp only [keepsOut, Bool.and_eq_true, List.all_eq_true, List.mem_range, Bool.or_eq_true, beq_iff_eq,
      decide_eq_true_eq] at hkeeps
    obtain ⟨⟨-, hfixed⟩, hapart⟩ := hkeeps
    intro file _
    rw [if_pos hfixed]
    refine ⟨fun w hw => ⟨fun u hu q hq => ?_, h.noneGrowing _⟩, fun _ _ => h.faultsKept _⟩
    obtain ⟨inode, rfl⟩ := mmapArea_ok hw
    by_cases hn : u < n
    · exact (hapart u hn).resolve_left hu q hq
    · rw [h.idle u (Nat.le_of_not_lt hn)] at hq
      cases hq
  | (t, some (.munmap addr len)) => exact fun _ _ => h.faultsKept _
  | (t, none) =>
    have hcalm := h.calm t
    simp only [Good]
    cases hpc : s.pcs t with
    | merge brk => exact h.faultsKept _
    | brkMap oldbrk len brk =>
      rw [hpc] at hcalm
      cases hcalm
    | _ => trivial

/-- A thread that goes to a calm place leaves the state calm. -/
theorem Calm.setPc (h : Calm n s) (ht : t < n) (hpc : pc.calm = true) (hpcs : s'.pcs = s.pcs) :
    Calm n (Threads.setPc t pc s') := by
  refine ⟨forall_setPc (P := fun _ p => p.calm = true) hpc fun u _ => ?_, fun u hu => ?_⟩
  · rw [hpcs]
    exact h.calm u
  · rw [setPc_of_ne (by omega), hpcs]
    exact h.idle u hu

theorem Calm.insertArea {w : Vma} (h : Calm n s) (ht : t < n) (hpc : pc.calm = true)
    (hstep : Threads.insertArea t w pc s = some s') : Calm n s' := by
  obtain ⟨l, -, rfl⟩ := Option.map_eq_some_iff.mp hstep
  exact h.setPc ht hpc rfl

theorem Calm.startMmap {files : ℕ → File} {fds : ℕ → Option ℕ} {a : MmapArgs} {brk : Option ℕ} (h : Calm n s)
    (ht : t < n) (hstep : Threads.startMmap t files fds a brk s = some s') : Calm n s' := by
  rw [Threads.startMmap] at hstep
  split at hstep
  · exact Option.some.inj hstep ▸ h.setPc ht rfl rfl
  · split_ifs at hstep
    · split at hstep
      all_goals exact Option.some.inj hstep ▸ h.setPc ht rfl rfl
    · dsimp only at hstep
      split_ifs at hstep
      · exact Option.some.inj hstep ▸ h.setPc ht rfl rfl
      · split at hstep
        · exact Option.some.inj hstep ▸ h.setPc ht rfl rfl
        · exact h.insertArea ht rfl hstep

theorem Calm.startMunmap (h : Calm n s) (ht : t < n) (addr len : ℕ) :
    Calm n (Threads.startMunmap t addr len .ret s) := by
  rw [Threads.startMunmap]
  split_ifs
  · exact h
  · exact h
  · exact h.setPc ht rfl rfl

theorem Calm.resume {env : Env} (h : Calm n s) (ht : t < n) (hstep : Threads.resume env t s = some s') :
    Calm n s' := by
  have hcalm := h.calm t
  rw [Threads.resume] at hstep
  split at hstep
  · exact Option.some.inj hstep ▸ h
  · exact h.insertArea ht rfl hstep
  · split at hstep
    · exact Option.some.inj hstep ▸ h.setPc ht rfl rfl
    · exact h.insertArea ht rfl hstep
  · rename_i after _
    cases after
    all_goals exact Option.some.inj hstep ▸ h.setPc ht rfl rfl
  · exact h.insertArea ht rfl hstep
  · exact Option.some.inj hstep ▸ h.setPc ht rfl rfl
  · rename_i hpc
    rw [hpc] at hcalm
    cases hcalm
  · rename_i hpc
    rw [hpc] at hcalm
    cases hcalm

/-- Mapping and unmapping keep the state calm. -/
theorem Calm.exec {env : Env} (h : Calm n s) (hkeeps : keepsOut n s lab = true)
    (hstep : Threads.exec env s lab = some s') : Calm n s' := by
  match lab with
  | (t, some (.mmap files fds a)) =>
    simp only [keepsOut, Bool.and_eq_true, decide_eq_true_eq] at hkeeps
    exact h.startMmap hkeeps.1.1 hstep
  | (t, some (.munmap addr len)) =>
    exact Option.some.inj hstep ▸ h.startMunmap (of_decide_eq_true hkeeps) addr len
  | (t, none) => exact h.resume (of_decide_eq_true hkeeps) hstep

end

/-- An address space without areas. -/
def emptyState : State := { mmap := [], fresh := 0, brk := 0, pcs := fun _ => .idle }

theorem emptyState_initial : Initial emptyState :=
  ⟨⟨List.Pairwise.nil, fun v hv => by cases hv⟩, List.nodup_nil, (fun v hv => by cases hv), fun _ => rfl⟩

theorem emptyState_calm (n : ℕ) : Calm n emptyState := ⟨fun _ => rfl, fun _ _ => rfl⟩

/-- A private anonymous `MAP_FIXED` mapping. -/
def fixedMap (addr len : ℕ) : Call :=
  .mmap (fun _ => ⟨0, none, none⟩) (fun _ => none)
    { addr := addr, len := len, prot := 3, flags := 0x32, fd := wordSize - 1, off := 0 }

/-- Limits of the example address spaces. -/
def exampleEnv : Env := { startBrk := 0, endCode := 0, rlimData := 0, rlimStack := 0 }

/-- Thread 0 maps three pages and unmaps the one in the middle; between its critical sections
thread 1 maps a page elsewhere. -/
def hole : List Label :=
  [(0, some (fixedMap 0x1000 0x3000)), (0, none), (0, none), (0, none), (0, some (.munmap 0x2000 0x1000)),
    (1, some (fixedMap 0x6000 0x1000)), (0, none), (1, none), (0, none), (1, none), (0, none), (1, none)]

theorem hole_replays : (replay (fun s lab => keepsOut 2 s lab = true ∧ Legal exampleEnv s lab)
    (exec exampleEnv) emptyState hole).isSome := by
  decide +kernel

/-- The threads are done. -/
def holed : State := (replay (fun s lab => keepsOut 2 s lab = true ∧ Legal exampleEnv s lab)
  (exec exampleEnv) emptyState hole).get hole_replays

theorem hole_run : Run (Guarded Good (Step exampleEnv)) emptyState hole holed :=
  guarded_run_of_replay (emptyState_calm 2) (fun hu hok => ⟨hu.good hok.1, hok.2⟩)
    (fun hu hok hstep => hu.exec hok.1 hstep) (Option.some_get hole_replays).symm

/-- Three areas are left, one page each. -/
theorem threads_run_wellFormed_hole :
    Initial emptyState ∧ Run (Guarded Good (Step exampleEnv)) emptyState hole holed ∧
      holed.mmap.map range = [(0x1000, 0x2000), (0x3000, 0x4000), (0x6000, 0x7000)] ∧
      WellFormed holed.mmap :=
  ⟨emptyState_initial, hole_run, by decide +kernel,
    (threads_run_wellFormed exampleEnv emptyState emptyState_initial _ _ hole_run).1⟩

/-- Two threads map the same page with `MAP_FIXED`. Both unlink what is there before
either inserts its own area. -/
def collision : List Label :=
  [(0, some (fixedMap 0x1000 0x1000)), (1, some (fixedMap 0x1000 0x1000)), (0, none), (0, none), (1, none)]

theorem collision_replays : (replay (Legal exampleEnv) (exec exampleEnv) emptyState collision).isSome := by
  decide +kernel

/-- The second insertion then meets the area of the first. -/
theorem threads_run_assertion_fails :
    ¬ ∀ (env : Env) (s₀ : State), Initial s₀ → ∀ labs s, Run (Step env) s₀ labs s →
      WellFormed s.mmap ∧ ∀ lab, Legal env s lab → (exec env s lab).isSome := by
  intro h
  have hrun := run_of_replay (Option.some_get collision_replays).symm
  have hnext := (h exampleEnv emptyState emptyState_initial _ _ hrun).2 (1, none)
    (by decide +kernel)
  exact absurd hnext (by decide +kernel)

end Mario.Threads
