import Mario.Mm.Vma
import Mathlib.Data.List.Pairwise
import Mathlib.Data.List.Nodup
import Mathlib.Data.List.Perm.Basic

/-!
# Well-formed area lists

An area list is well formed when it is sorted and its areas are non-empty, page
aligned, below `KERNEL_BASE` and disjoint. Two areas that are disjoint can be
inserted in either order, so the lemmas describe the lists up to order: what is
inserted, unlinked, cut and merged, and which addresses that covers.
-/

namespace Mario.Mm

/-- What every area of an address space satisfies. -/
structure Vma.Valid (v : Vma) : Prop where
  nonempty : v.vmStart < v.vmEnd
  startAligned : pageSize ∣ v.vmStart
  endAligned : pageSize ∣ v.vmEnd
  user : v.vmEnd ≤ kernelBase
  prot : v.vmPageProt = getPageProt v.vmFlags
  ops : v.vmOps = v.vmFile.map fun _ => fileMmapOps v.vmFlags

/-- One area lies below the other. -/
def Before (v w : Vma) : Prop := v.vmEnd ≤ w.vmStart

/-- The areas have no address in common. -/
def Apart (v w : Vma) : Prop := Before v w ∨ Before w v

/-- A well-formed area list. -/
structure WellFormed (l : List Vma) : Prop where
  sorted : l.Pairwise Before
  valid : ∀ v ∈ l, v.Valid

theorem Apart.symm {v w : Vma} (h : Apart v w) : Apart w v := Or.symm h

instance : Std.Symm Apart := ⟨fun _ _ => Apart.symm⟩

theorem Apart.not_covers {v w : Vma} (h : Apart v w) {a : ℕ} (hv : v.Covers a) : ¬ w.Covers a := by
  intro hw
  rcases h with h | h
  · exact absurd (hv.2.trans_le h) (not_lt.mpr hw.1)
  · exact absurd (hw.2.trans_le h) (not_lt.mpr hv.1)

theorem WellFormed.apart {l : List Vma} (h : WellFormed l) : l.Pairwise Apart :=
  h.sorted.imp fun hvw => Or.inl hvw

theorem WellFormed.sublist {l l' : List Vma} (h : WellFormed l) (hsub : l'.Sublist l) :
    WellFormed l' :=
  ⟨h.sorted.sublist hsub, fun v hv => h.valid v (hsub.subset hv)⟩

/-- Pairwise disjointness does not depend on the order of the list. -/
theorem pairwise_apart_perm {l l' : List Vma} (h : l.Pairwise Apart) (hperm : l.Perm l') :
    l'.Pairwise Apart :=
  hperm.pairwise h fun hvw => hvw.symm

/-- At most one of several disjoint areas covers an address. -/
theorem eq_of_covers {l : List Vma} (h : l.Pairwise Apart) {v w : Vma} (hv : v ∈ l) (hw : w ∈ l)
    {a : ℕ} (hva : v.Covers a) (hwa : w.Covers a) : v = w := by
  by_contra hne
  exact (h.forall hv hw hne).not_covers hva hwa

theorem pageAligned_of_dvd {x : ℕ} (h : pageSize ∣ x) (hx : x ≤ kernelBase) : PageAligned x := by
  obtain ⟨c, rfl⟩ := h
  simp only [PageAligned, pageAlign, pageSize, wordSize, kernelBase] at hx ⊢
  omega

/-! ## Insertion -/

theorem verifyVm_of_wellFormed {l : List Vma} (h : WellFormed l) : verifyVm l = true := by
  induction l with
  | nil => rfl
  | cons v l ih =>
    have hv := h.valid v List.mem_cons_self
    have hstart : v.vmStart ≤ kernelBase := hv.nonempty.le.trans hv.user
    simp only [verifyVm, Bool.and_eq_true, decide_eq_true_eq]
    refine ⟨⟨hv.nonempty, pageAligned_of_dvd hv.startAligned hstart,
      pageAligned_of_dvd hv.endAligned hv.user, fun w hw => ?_⟩,
      ih (h.sublist (List.sublist_cons_self v l))⟩
    exact (List.pairwise_cons.mp h.sorted).1 w (List.mem_of_mem_head? hw)

/-- A valid area that is apart from a well-formed list is linked at its place. -/
theorem linkVma_spec {v : Vma} {l : List Vma} (h : WellFormed l) (hv : v.Valid) (hapart : ∀ w ∈ l, Apart v w) :
    ∃ l', linkVma v l = some l' ∧ WellFormed l' ∧ l'.Perm (v :: l) := by
  induction l with
  | nil =>
    refine ⟨[v], rfl, ⟨List.pairwise_singleton .., ?_⟩, List.Perm.refl _⟩
    simpa only [List.mem_singleton, forall_eq] using hv
  | cons m l ih =>
    have hm := h.valid m List.mem_cons_self
    obtain ⟨hbefore, hsorted⟩ := List.pairwise_cons.mp h.sorted
    have hvm := hapart m List.mem_cons_self
    have hvne := hv.nonempty
    have hmne := hm.nonempty
    by_cases hlt : v.vmStart < m.vmStart
    · have hle : v.vmEnd ≤ m.vmStart := by
        rcases hvm with hvm | hvm
        · exact hvm
        · simp only [Before] at hvm
          omega
      refine ⟨v :: m :: l, by rw [linkVma, if_pos hlt, if_pos hle], ⟨?_, ?_⟩, List.Perm.refl _⟩
      · refine List.pairwise_cons.mpr ⟨fun w hw => ?_, h.sorted⟩
        rcases List.mem_cons.mp hw with rfl | hw
        · exact hle
        · exact (hle.trans hmne.le).trans (hbefore w hw)
      · intro w hw
        rcases List.mem_cons.mp hw with rfl | hw
        · exact hv
        · exact h.valid w hw
    · have hle : m.vmEnd ≤ v.vmStart := by
        rcases hvm with hvm | hvm
        · simp only [Before] at hvm
          omega
        · exact hvm
      obtain ⟨l', hlink, hwf, hperm⟩ := ih (h.sublist (List.sublist_cons_self m l))
        (fun w hw => hapart w (List.mem_cons_of_mem m hw))
      refine ⟨m :: l', by rw [linkVma, if_neg hlt, if_pos hle, hlink, Option.map_some],
        ⟨?_, ?_⟩, (hperm.cons m).trans (List.Perm.swap v m l)⟩
      · refine List.pairwise_cons.mpr ⟨fun w hw => ?_, hwf.sorted⟩
        rcases List.mem_cons.mp (hperm.mem_iff.mp hw) with rfl | hw
        · exact hle
        · exact hbefore w hw
      · intro w hw
        rcases List.mem_cons.mp hw with rfl | hw
        · exact hm
        · exact hwf.valid w hw

/-- No assertion of `insert_vm_struct_locked` fails for a valid area that is apart
from a well-formed list. -/
theorem insertVmStruct_spec {v : Vma} {l : List Vma} (h : WellFormed l) (hv : v.Valid)
    (hapart : ∀ w ∈ l, Apart v w) : ∃ l', insertVmStruct v l = some l' ∧ WellFormed l' ∧ l'.Perm (v :: l) := by
  obtain ⟨l', hlink, hwf, hperm⟩ := linkVma_spec h hv hapart
  refine ⟨l', ?_, hwf, hperm⟩
  rw [insertVmStruct, hlink, Option.filter_some, if_pos (verifyVm_of_wellFormed hwf)]

/-- Several areas that are apart can be inserted one after the other. -/
theorem insertAll_spec {ws l : List Vma} (h : WellFormed l) (hvalid : ∀ w ∈ ws, w.Valid)
    (hws : ws.Pairwise Apart) (hapart : ∀ w ∈ ws, ∀ v ∈ l, Apart w v) :
    ∃ l', ws.foldlM (fun l w => insertVmStruct w l) l = some l' ∧ WellFormed l' ∧ l'.Perm (ws ++ l) := by
  induction ws generalizing l with
  | nil => exact ⟨l, rfl, h, List.Perm.refl _⟩
  | cons w ws ih =>
    obtain ⟨hw, hrest⟩ := List.pairwise_cons.mp hws
    obtain ⟨l₁, hl₁, hwf₁, hperm₁⟩ := insertVmStruct_spec h (hvalid w List.mem_cons_self) (hapart w List.mem_cons_self)
    obtain ⟨l₂, hl₂, hwf₂, hperm₂⟩ := ih hwf₁ (fun u hu => hvalid u (List.mem_cons_of_mem w hu))
      hrest (fun u hu v hv => by
        rcases List.mem_cons.mp (hperm₁.mem_iff.mp hv) with rfl | hv
        · exact (hw u hu).symm
        · exact hapart u (List.mem_cons_of_mem w hu) v hv)
    refine ⟨l₂, by rw [List.foldlM_cons, hl₁]; exact hl₂, hwf₂, hperm₂.trans ?_⟩
    exact (hperm₁.append_left ws).trans List.perm_middle

/-! ## Unlinking a range -/

theorem unlinkRange_perm (addr fin : ℕ) (free l : List Vma) :
    ((unlinkRange addr fin free l).1 ++ (unlinkRange addr fin free l).2).Perm (l ++ free) := by
  induction l generalizing free with
  | nil => exact List.Perm.refl _
  | cons v l ih =>
    rw [unlinkRange]
    split_ifs with hfin haddr
    · exact List.Perm.refl _
    · simpa only [Prod.map_fst, Prod.map_snd, id_eq, List.cons_append] using (ih free).cons v
    · exact (ih (v :: free)).trans List.perm_middle

theorem unlinkRange_sublist (addr fin : ℕ) (free l : List Vma) : (unlinkRange addr fin free l).1.Sublist l := by
  induction l generalizing free with
  | nil => exact List.Sublist.refl _
  | cons v l ih =>
    rw [unlinkRange]
    split_ifs with hfin haddr
    · exact List.Sublist.refl _
    · exact (ih free).cons_cons v
    · exact (ih (v :: free)).cons v

theorem unlinkRange_kept {addr fin : ℕ} {free l : List Vma} (h : WellFormed l) {v : Vma}
    (hv : v ∈ (unlinkRange addr fin free l).1) : v.vmEnd ≤ addr ∨ fin ≤ v.vmStart := by
  induction l generalizing free with
  | nil => cases hv
  | cons w l ih =>
    have hrest := h.sublist (List.sublist_cons_self w l)
    rw [unlinkRange] at hv
    split_ifs at hv with hfin haddr
    · rcases List.mem_cons.mp hv with rfl | hv
      · exact Or.inr hfin
      · have hbefore : w.vmEnd ≤ v.vmStart := (List.pairwise_cons.mp h.sorted).1 v hv
        have hne := (h.valid w List.mem_cons_self).nonempty
        exact Or.inr (by omega)
    · rw [Prod.map_fst] at hv
      rcases List.mem_cons.mp hv with rfl | hv
      · exact Or.inl haddr
      · exact ih hrest hv
    · exact ih hrest hv

theorem unlinkRange_free {addr fin : ℕ} {free l : List Vma} {v : Vma} (hv : v ∈ (unlinkRange addr fin free l).2) :
    v ∈ free ∨ (v.vmStart < fin ∧ addr < v.vmEnd) := by
  induction l generalizing free with
  | nil => exact Or.inl hv
  | cons w l ih =>
    rw [unlinkRange] at hv
    split_ifs at hv with hfin haddr
    · exact Or.inl hv
    · exact ih hv
    · rcases ih hv with hfree | hover
      · rcases List.mem_cons.mp hfree with rfl | hfree
        · exact Or.inr ⟨by omega, by omega⟩
        · exact Or.inl hfree
      · exact Or.inr hover

/-! ## Cutting an area -/

/-- The part of an area below `addr`. -/
def lowPiece (v : Vma) (addr ptr : ℕ) : Vma := { v with ptr := ptr, vmEnd := addr }

/-- The part of an area from `fin` on. -/
def highPiece (v : Vma) (fin ptr : ℕ) : Vma :=
  { v with ptr := ptr, vmStart := fin, vmOffset := (v.vmOffset + (fin - v.vmStart)) % wordSize }

/-- What `do_munmap` leaves of an area that overlaps its range. -/
def remains (v : Vma) (addr fin fresh : ℕ) : List Vma :=
  (if fin < v.vmEnd then [highPiece v fin fresh] else []) ++
    (if v.vmStart < addr then [lowPiece v addr (if fin < v.vmEnd then fresh + 1 else fresh)]
      else [])

theorem unmapPieces_eq_remains (v : Vma) (addr fin fresh : ℕ) :
    unmapPieces v (max addr v.vmStart) (min fin v.vmEnd) fresh = remains v addr fin fresh := by
  by_cases hlow : v.vmStart < addr <;> by_cases hhigh : fin < v.vmEnd
  · have hmax : max addr v.vmStart = addr := max_eq_left hlow.le
    have hmin : min fin v.vmEnd = fin := min_eq_left hhigh.le
    rw [unmapPieces, hmax, hmin, if_neg (by omega), if_neg hhigh.ne, if_neg hlow.ne']
    simp only [remains, highPiece, lowPiece, if_pos hlow, if_pos hhigh, List.singleton_append]
  · have hmax : max addr v.vmStart = addr := max_eq_left hlow.le
    have hmin : min fin v.vmEnd = v.vmEnd := min_eq_right (not_lt.mp hhigh)
    rw [unmapPieces, hmax, hmin, if_neg (by omega), if_pos rfl]
    simp only [remains, lowPiece, if_pos hlow, if_neg hhigh, List.nil_append]
  · have hmax : max addr v.vmStart = v.vmStart := max_eq_right (not_lt.mp hlow)
    have hmin : min fin v.vmEnd = fin := min_eq_left hhigh.le
    rw [unmapPieces, hmax, hmin, if_neg (by omega), if_neg hhigh.ne, if_pos rfl]
    simp only [remains, highPiece, if_neg hlow, if_pos hhigh, List.append_nil]
  · have hmax : max addr v.vmStart = v.vmStart := max_eq_right (not_lt.mp hlow)
    have hmin : min fin v.vmEnd = v.vmEnd := min_eq_right (not_lt.mp hhigh)
    rw [unmapPieces, hmax, hmin, if_pos ⟨rfl, rfl⟩]
    simp only [remains, if_neg hlow, if_neg hhigh, List.append_nil]

theorem mem_remains {v w : Vma} {addr fin fresh : ℕ} :
    w ∈ remains v addr fin fresh ↔
      (fin < v.vmEnd ∧ w = highPiece v fin fresh) ∨
      (v.vmStart < addr ∧ w = lowPiece v addr (if fin < v.vmEnd then fresh + 1 else fresh)) := by
  simp only [remains, List.mem_append]
  split_ifs with hhigh hlow hlow <;> simp [hhigh, hlow]

theorem remains_valid {v : Vma} {addr fin : ℕ} (fresh : ℕ) (hv : v.Valid)
    (haddr : pageSize ∣ addr) (hfin : pageSize ∣ fin) (hend : addr < v.vmEnd) :
    ∀ w ∈ remains v addr fin fresh, w.Valid := by
  intro w hw
  rcases mem_remains.mp hw with ⟨hlt, rfl⟩ | ⟨hlt, rfl⟩
  · exact ⟨hlt, hfin, hv.endAligned, hv.user, hv.prot, hv.ops⟩
  · exact ⟨hlt, hv.startAligned, haddr, hend.le.trans hv.user, hv.prot, hv.ops⟩

theorem remains_apart (v : Vma) {addr fin : ℕ} (fresh : ℕ) (hrange : addr < fin) :
    (remains v addr fin fresh).Pairwise Apart := by
  by_cases hhigh : fin < v.vmEnd <;> by_cases hlow : v.vmStart < addr
  · simp only [remains, if_pos hhigh, if_pos hlow, List.singleton_append]
    exact List.pairwise_pair.mpr (Or.inr hrange.le)
  all_goals simp [remains, hhigh, hlow]

/-- What is left of an area lies inside it and outside the range. -/
theorem remains_inside {v w : Vma} {addr fin fresh : ℕ} (hw : w ∈ remains v addr fin fresh)
    (hstart : v.vmStart < fin) (hend : addr < v.vmEnd) :
    v.vmStart ≤ w.vmStart ∧ w.vmEnd ≤ v.vmEnd ∧ (w.vmEnd ≤ addr ∨ fin ≤ w.vmStart) := by
  rcases mem_remains.mp hw with ⟨hlt, rfl⟩ | ⟨hlt, rfl⟩
  · exact ⟨hstart.le, le_rfl, Or.inr le_rfl⟩
  · exact ⟨le_rfl, hend.le, Or.inl le_rfl⟩

theorem Apart.mono {v v' w : Vma} (h : Apart v w) (hstart : v.vmStart ≤ v'.vmStart)
    (hend : v'.vmEnd ≤ v.vmEnd) : Apart v' w := by
  rcases h with h | h
  · exact Or.inl (hend.trans h)
  · exact Or.inr (h.trans hstart)

/-! ## Merging -/

theorem mergeable_join {p q : Vma} {l : List Vma} (h : WellFormed (p :: q :: l))
    (hmerge : Mergeable p q) : WellFormed ({ p with vmEnd := q.vmEnd } :: l) := by
  have hp := h.valid p List.mem_cons_self
  have hq := h.valid q (List.mem_cons_of_mem p List.mem_cons_self)
  have hpq : p.vmEnd ≤ q.vmStart := hmerge.1.le
  obtain ⟨hbefore, hsorted⟩ := List.pairwise_cons.mp (List.pairwise_cons.mp h.sorted).2
  refine ⟨List.pairwise_cons.mpr ⟨hbefore, hsorted⟩, fun w hw => ?_⟩
  rcases List.mem_cons.mp hw with rfl | hw
  · exact ⟨(hp.nonempty.trans_le hpq).trans hq.nonempty, hp.startAligned, hq.endAligned, hq.user, hp.prot, hp.ops⟩
  · exact h.valid w (List.mem_cons_of_mem p (List.mem_cons_of_mem q hw))

private theorem mergeFrom_cases {p : Vma} {l : List Vma} (h : WellFormed (p :: l)) :
    WellFormed (mergeFrom p l) ∧
      (∀ w ∈ mergeFrom p l, p.vmStart ≤ w.vmStart) ∧
      ∀ f : ℕ, (mergeFrom p l).countP (fun w => decide (w.vmFile = some f)) =
        (p :: l).countP (fun w => decide (w.vmFile = some f)) := by
  induction l generalizing p with
  | nil =>
    refine ⟨h, fun w hw => ?_, fun f => rfl⟩
    rw [mergeFrom, List.mem_singleton] at hw
    rw [hw]
  | cons q l ih =>
    obtain ⟨hbefore, -⟩ := List.pairwise_cons.mp h.sorted
    have hp := h.valid p List.mem_cons_self
    have hpq : p.vmEnd ≤ q.vmStart := hbefore q List.mem_cons_self
    rw [mergeFrom]
    split_ifs with hmerge
    · obtain ⟨hwf, hstart, hcount⟩ := ih (mergeable_join h hmerge)
      refine ⟨hwf, hstart, fun f => ?_⟩
      obtain ⟨-, -, -, hpf, hqf, -⟩ := hmerge
      rw [hcount f]
      simp [hpf, hqf]
    · obtain ⟨hwf, hstart, hcount⟩ := ih (h.sublist (List.sublist_cons_self p _))
      refine ⟨⟨List.pairwise_cons.mpr ⟨fun w hw => hpq.trans (hstart w hw), hwf.sorted⟩,
        fun w hw => ?_⟩, fun w hw => ?_, fun f => ?_⟩
      · rcases List.mem_cons.mp hw with rfl | hw
        · exact hp
        · exact hwf.valid w hw
      · rcases List.mem_cons.mp hw with rfl | hw
        · exact le_rfl
        · exact (hp.nonempty.le.trans hpq).trans (hstart w hw)
      · rw [List.countP_cons, hcount f, ← List.countP_cons]

/-- How many areas of the list map the file. -/
def fileUses (l : List Vma) (f : ℕ) : ℕ := l.countP fun w => decide (w.vmFile = some f)

theorem mergeMmap_spec {l : List Vma} (h : WellFormed l) :
    WellFormed (mergeMmap l) ∧ ∀ f, fileUses (mergeMmap l) f = fileUses l f := by
  cases l with
  | nil => exact ⟨h, fun _ => rfl⟩
  | cons p l => exact ⟨(mergeFrom_cases h).1, (mergeFrom_cases h).2.2⟩

private theorem mergeFrom_ptr (p : Vma) (l : List Vma) :
    ((mergeFrom p l).map Vma.ptr).Sublist ((p :: l).map Vma.ptr) := by
  induction l generalizing p with
  | nil => exact List.Sublist.refl _
  | cons q l ih =>
    rw [mergeFrom]
    split_ifs with hmerge
    · exact (ih { p with vmEnd := q.vmEnd }).trans ((List.sublist_cons_self q.ptr (l.map Vma.ptr)).cons_cons p.ptr)
    · exact (ih q).cons_cons p.ptr

/-- The addresses of the merged list's structures, in order, are among the old ones. -/
theorem mergeMmap_ptr (l : List Vma) : ((mergeMmap l).map Vma.ptr).Sublist (l.map Vma.ptr) := by
  cases l with
  | nil => exact List.Sublist.refl _
  | cons p l => exact mergeFrom_ptr p l

/-- `w` is the structure `v` with a later end. -/
def Vma.Extends (w v : Vma) : Prop :=
  v.ptr = w.ptr ∧ v.vmStart = w.vmStart ∧ v.vmFlags = w.vmFlags ∧ v.vmEnd ≤ w.vmEnd

private theorem mem_mergeFrom {p : Vma} {l : List Vma} {w : Vma} (h : WellFormed (p :: l))
    (hw : w ∈ mergeFrom p l) : (∃ v ∈ p :: l, w.Extends v) ∧ ∃ x ∈ p :: l, x.vmEnd = w.vmEnd := by
  induction l generalizing p with
  | nil =>
    rw [mergeFrom, List.mem_singleton] at hw
    subst hw
    exact ⟨⟨w, List.mem_cons_self, rfl, rfl, rfl, le_rfl⟩, w, List.mem_cons_self, rfl⟩
  | cons q l ih =>
    rw [mergeFrom] at hw
    split_ifs at hw with hmerge
    · obtain ⟨⟨v, hv, hext⟩, x, hx, hend⟩ := ih (mergeable_join h hmerge) hw
      refine ⟨?_, ?_⟩
      · rcases List.mem_cons.mp hv with rfl | hv
        · have hq := (h.valid q (List.mem_cons_of_mem p List.mem_cons_self)).nonempty
          have hle : p.vmEnd ≤ w.vmEnd := (hmerge.1.trans_lt hq).le.trans hext.2.2.2
          exact ⟨p, List.mem_cons_self, hext.1, hext.2.1, hext.2.2.1, hle⟩
        · exact ⟨v, List.mem_cons_of_mem p (List.mem_cons_of_mem q hv), hext⟩
      · rcases List.mem_cons.mp hx with rfl | hx
        · exact ⟨q, List.mem_cons_of_mem p List.mem_cons_self, hend⟩
        · exact ⟨x, List.mem_cons_of_mem p (List.mem_cons_of_mem q hx), hend⟩
    · rcases List.mem_cons.mp hw with rfl | hw
      · exact ⟨⟨w, List.mem_cons_self, rfl, rfl, rfl, le_rfl⟩, w, List.mem_cons_self, rfl⟩
      · obtain ⟨⟨v, hv, hext⟩, x, hx, hend⟩ := ih (h.sublist (List.sublist_cons_self p _)) hw
        exact ⟨⟨v, List.mem_cons_of_mem p hv, hext⟩, x, List.mem_cons_of_mem p hx, hend⟩

/-- A merged area is an old structure with its start, and ends where an old area did. -/
theorem mem_mergeMmap {l : List Vma} {w : Vma} (h : WellFormed l) (hw : w ∈ mergeMmap l) :
    (∃ v ∈ l, w.Extends v) ∧ ∃ x ∈ l, x.vmEnd = w.vmEnd := by
  cases l with
  | nil => cases hw
  | cons p l => exact mem_mergeFrom h hw

private theorem mergeFrom_clear {p : Vma} {l : List Vma} {lo hi : ℕ} (hlt : lo < hi)
    (h : ∀ v ∈ p :: l, hi ≤ v.vmStart ∨ v.vmEnd ≤ lo) : ∀ w ∈ mergeFrom p l, hi ≤ w.vmStart ∨ w.vmEnd ≤ lo := by
  induction l generalizing p with
  | nil => exact h
  | cons q l ih =>
    have hp := h p List.mem_cons_self
    have hq := h q (List.mem_cons_of_mem p List.mem_cons_self)
    rw [mergeFrom]
    split_ifs with hmerge
    · refine ih fun v hv => ?_
      rcases List.mem_cons.mp hv with rfl | hv
      · have hend := hmerge.1
        simp only
        omega
      · exact h v (List.mem_cons_of_mem p (List.mem_cons_of_mem q hv))
    · intro w hw
      rcases List.mem_cons.mp hw with rfl | hw
      · exact hp
      · exact ih (fun v hv => h v (List.mem_cons_of_mem p hv)) w hw

theorem mergeMmap_clear {l : List Vma} {lo hi : ℕ} (hlt : lo < hi) (h : ∀ v ∈ l, hi ≤ v.vmStart ∨ v.vmEnd ≤ lo) :
    ∀ w ∈ mergeMmap l, hi ≤ w.vmStart ∨ w.vmEnd ≤ lo := by
  cases l with
  | nil => exact fun w hw => by cases hw
  | cons p l => exact mergeFrom_clear hlt h

/-! ## Changing the protection -/

/-- What `sys_mprotect` does to one area. -/
def protectArea (start fin : ℕ) (prot : VmFlags) (v : Vma) : Vma :=
  if v.vmStart < fin ∧ start < v.vmEnd then
    let flags := { v.vmFlags with read := prot.read, write := prot.write, exec := prot.exec }
    { v with vmFlags := flags, vmPageProt := getPageProt flags }
  else v

/-- In a sorted list the loop of `sys_mprotect` reaches every area of the range. -/
theorem protectAreas_eq_map {start fin : ℕ} {prot : VmFlags} {l : List Vma} (h : WellFormed l) :
    protectAreas start fin prot l = l.map (protectArea start fin prot) := by
  induction l with
  | nil => rfl
  | cons v l ih =>
    have hrest := h.sublist (List.sublist_cons_self v l)
    rw [protectAreas, List.map_cons]
    split_ifs with hfin hend
    · rw [ih hrest, protectArea, if_neg (by omega)]
    · simp only [ih hrest, protectArea, if_pos (And.intro hfin (not_le.mp hend))]
    · have hne := (h.valid v List.mem_cons_self).nonempty
      have hself : ∀ w ∈ v :: l, protectArea start fin prot w = w := by
        intro w hw
        rw [protectArea, if_neg]
        rcases List.mem_cons.mp hw with rfl | hw
        · omega
        · have hbefore : v.vmEnd ≤ w.vmStart := (List.pairwise_cons.mp h.sorted).1 w hw
          omega
      rw [← List.map_cons, List.map_congr_left hself, List.map_id']

theorem protectArea_keeps (start fin : ℕ) (prot : VmFlags) (v : Vma) :
    (protectArea start fin prot v).ptr = v.ptr ∧
      (protectArea start fin prot v).vmStart = v.vmStart ∧
      (protectArea start fin prot v).vmEnd = v.vmEnd ∧
      (protectArea start fin prot v).vmFlags.growsdown = v.vmFlags.growsdown ∧
      (v.Valid → (protectArea start fin prot v).Valid) := by
  rw [protectArea]
  split_ifs with hin
  · exact ⟨rfl, rfl, rfl, rfl, fun hv =>
      ⟨hv.nonempty, hv.startAligned, hv.endAligned, hv.user, rfl, hv.ops⟩⟩
  · exact ⟨rfl, rfl, rfl, rfl, id⟩

/-! ## Growing down -/

theorem pageMask_le (x : ℕ) : pageMask x ≤ x := Nat.div_mul_le_self ..

theorem pageSize_dvd_pageMask (x : ℕ) : pageSize ∣ pageMask x := ⟨_, Nat.mul_comm ..⟩

/-- A page-aligned address that is not above `x` is not above the page of `x`. -/
theorem le_pageMask {x y : ℕ} (hdvd : pageSize ∣ y) (hle : y ≤ x) : y ≤ pageMask x := by
  obtain ⟨c, rfl⟩ := hdvd
  rw [pageMask, Nat.mul_comm]
  exact Nat.mul_le_mul_right _ ((Nat.le_div_iff_mul_le (by decide)).mpr (Nat.mul_comm .. ▸ hle))

/-- What `do_page_fault` writes keeps the area valid and its other ends. -/
theorem growDown_valid {addr : ℕ} {v : Vma} (hv : v.Valid) (haddr : addr < v.vmStart) : (growDown addr v).Valid := by
  have hmask := pageMask_le addr
  have hne := hv.nonempty
  exact ⟨by simp only [growDown]; omega, pageSize_dvd_pageMask addr, hv.endAligned, hv.user, hv.prot, hv.ops⟩

/-! ## Finding a gap -/

private theorem searchGap_spec {len addr : ℕ} {l : List Vma} (h : WellFormed l)
    (hlen : len ≤ kernelBase) (halign : pageSize ∣ addr) (hres : searchGap len addr l ≠ 0) :
    pageSize ∣ searchGap len addr l ∧ addr ≤ searchGap len addr l ∧
      searchGap len addr l + len ≤ kernelBase ∧
      ∀ v ∈ l, v.vmEnd ≤ searchGap len addr l ∨ searchGap len addr l + len ≤ v.vmStart := by
  induction l generalizing addr with
  | nil =>
    rw [searchGap] at hres ⊢
    split_ifs at hres ⊢ with hfull
    · exact absurd rfl hres
    · exact ⟨halign, le_rfl, by omega, fun v hv => absurd hv (List.not_mem_nil)⟩
  | cons v l ih =>
    have hrest := h.sublist (List.sublist_cons_self v l)
    have hv := h.valid v List.mem_cons_self
    rw [searchGap] at hres ⊢
    split_ifs at hres ⊢ with hfull hpast hshort
    · exact absurd rfl hres
    · obtain ⟨hdvd, hle, hfit, hout⟩ := ih hrest halign hres
      refine ⟨hdvd, hle, hfit, fun w hw => ?_⟩
      rcases List.mem_cons.mp hw with rfl | hw
      · exact Or.inl (hpast.le.trans hle)
      · exact hout w hw
    · obtain ⟨hdvd, hle, hfit, hout⟩ := ih hrest hv.endAligned hres
      refine ⟨hdvd, (not_lt.mp hpast).trans hle, hfit, fun w hw => ?_⟩
      rcases List.mem_cons.mp hw with rfl | hw
      · exact Or.inl hle
      · exact hout w hw
    · refine ⟨halign, le_rfl, by omega, fun w hw => Or.inr ?_⟩
      rcases List.mem_cons.mp hw with rfl | hw
      · omega
      · have hbefore : v.vmEnd ≤ w.vmStart := (List.pairwise_cons.mp h.sorted).1 w hw
        have hne := hv.nonempty
        omega

theorem pageSize_dvd_pageAlign (x : ℕ) : pageSize ∣ pageAlign x := ⟨_, Nat.mul_comm ..⟩

/-- The address found is page aligned, and the area there fits below `KERNEL_BASE`
and between the areas of the list. -/
theorem getUnmappedArea_spec {addr len : ℕ} {l : List Vma} (h : WellFormed l) (hres : getUnmappedArea addr len l ≠ 0) :
    pageSize ∣ getUnmappedArea addr len l ∧ getUnmappedArea addr len l + len ≤ kernelBase ∧
      ∀ v ∈ l, v.vmEnd ≤ getUnmappedArea addr len l ∨ getUnmappedArea addr len l + len ≤ v.vmStart := by
  by_cases hlen : kernelBase < len
  · exact absurd (by rw [getUnmappedArea, if_pos hlen]) hres
  · rw [getUnmappedArea, if_neg hlen] at hres ⊢
    obtain ⟨hdvd, -, hfit, hout⟩ :=
      searchGap_spec h (not_lt.mp hlen) (pageSize_dvd_pageAlign _) hres
    exact ⟨hdvd, hfit, hout⟩

end Mario.Mm
