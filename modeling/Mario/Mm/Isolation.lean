import Mario.Mm.FileView

/-!
# Isolation of private mappings

A store through a private area changes a frame that nobody else refers to: an entry of a
private area allows stores only while its frame has one reference. Fork, the two page
faults and the mapping calls keep this; `sys_mprotect` sets `PG_RW` without looking at
the frame, so it breaks it for a frame that is shared with another process or with the
page cache. In runs in which it does not, no call of a process changes what another
process or a reader of a file sees, except a store through a shared area.
-/

namespace Mario.Paging

open Mario.Mm Mario.Lib Function

variable {k : Kernel} {s t : Machine} {p q : ℕ} {P P' Q : Proc} {f : ℕ}

/-! ## Frames with one reference -/

theorem mem_othersOf (hQ : s.procs.lookup q = some Q) (hqp : q ≠ p) (hf : f ∈ frames Q.pt) : f ∈ othersOf p s := by
  refine List.mem_flatMap.mpr ⟨Q, Table.mem_values.mpr ⟨q, ?_⟩, hf⟩
  rw [AList.lookup_erase_ne hqp, hQ]

theorem mem_owners (hP : s.procs.lookup p = some P) (hf : f ∈ frames P.pt) : f ∈ owners s :=
  (owners_perm hP).mem_iff.mpr (List.mem_append_left _ (List.mem_append_left _ hf))

/-- A frame with one reference that a process maps belongs to nobody else. -/
theorem Counted.sole (h : Counted k s) (hP : s.procs.lookup p = some P) (hf : f ∈ frames P.pt)
    (hone : s.mem.pool.count f = 1) : f ∉ othersOf p s ∧ ∀ key, s.mem.cache.lookup key ≠ some f := by
  have hcount := h.balanced.count_eq f
  rw [hone, (owners_perm hP).count_eq f] at hcount
  simp only [refs, List.count_append] at hcount
  have hpos := List.count_pos_iff.mpr hf
  constructor
  · intro hmem
    have := List.count_pos_iff.mpr hmem
    omega
  · intro key hkey
    have hcached : f ∈ s.mem.users := List.mem_append_left _ (Table.mem_values.mpr ⟨key, hkey⟩)
    have := List.count_pos_iff.mpr hcached
    omega

/-- A call that adds no entry gives no frame a new reference. -/
theorem Narrows.owners_count (hn : Narrows p P s t P') (hP : s.procs.lookup p = some P) (f : ℕ) :
    (owners t).count f ≤ (owners s).count f := by
  have hframes : (frames P'.pt).Subperm (frames P.pt) := Table.values_map_subperm Pte.frame hn.entry
  have hothers : (othersOf p t).Perm (othersOf p s) := by
    refine (Table.values_perm fun q => ?_).flatMap_right _
    by_cases hqp : q = p
    · rw [hqp, AList.lookup_erase, AList.lookup_erase]
    · rw [AList.lookup_erase_ne hqp, AList.lookup_erase_ne hqp, hn.others q hqp]
  have husers : t.mem.users = s.mem.users := by
    rw [Memory.users, Memory.users, hn.cache, hn.held]
  rw [(owners_perm hn.self).count_eq f, (owners_perm hP).count_eq f]
  simp only [refs, List.count_append, husers, hothers.count_eq f]
  have := hframes.count_le f
  omega

theorem Narrows.count_one (hn : Narrows p P s t P') (hP : s.procs.lookup p = some P)
    (hs : Counted k s) (ht : Counted k t) (hone : s.mem.pool.count f = 1) (hf : f ∈ frames P'.pt) :
    t.mem.pool.count f = 1 := by
  have hle := hn.owners_count hP f
  have hpos := List.count_pos_iff.mpr (mem_owners hn.self hf)
  rw [hs.balanced.count_eq f] at hone
  rw [ht.balanced.count_eq f]
  omega

/-! ## The invariant -/

/-- An entry that allows stores is one of a shared area, or its frame has one reference. -/
def RwSafe (s : Machine) (P : Proc) : Prop :=
  ∀ pg pte, P.pt.lookup pg = some pte → pte.rw = true → ∀ i, infoAt P.mmap (pg * pageSize) = some i →
    i.flags.shared = true ∨ s.mem.pool.count pte.frame = 1

structure IsoInv (k : Kernel) (s : Machine) : Prop where
  page : PageInv k s
  safe : ∀ p P, s.procs.lookup p = some P → RwSafe s P

/-- A process that a step leaves alone, when frames that it maps keep a count of one. -/
theorem RwSafe.frame (h : RwSafe s Q)
    (hcount : ∀ f ∈ frames Q.pt, s.mem.pool.count f = 1 → t.mem.pool.count f = 1) : RwSafe t Q := by
  intro pg pte hpte hrw i hi
  have hmem : pte.frame ∈ frames Q.pt := mem_frames.mpr ⟨pg, pte, hpte, rfl⟩
  exact (h pg pte hpte hrw i hi).imp_right (hcount _ hmem)

/-- The present pages of private areas in a range have frames with one reference. -/
def SoleInRange (s : Machine) (P : Proc) (start fin : ℕ) : Prop :=
  ∀ e ∈ P.pt.entries, start ≤ e.1 * pageSize ∧ e.1 * pageSize < fin →
    ((infoAt P.mmap (e.1 * pageSize)).any fun i => i.flags.shared) = true ∨
      s.mem.pool.count e.2.frame = 1

instance (s : Machine) (P : Proc) (start fin : ℕ) : Decidable (SoleInRange s P start fin) :=
  inferInstanceAs (Decidable (∀ e ∈ _, _ → _))

/-- The steps that keep private areas apart: a page fault finds its page, and not on the
share ring, and `sys_mprotect` with `PROT_WRITE` does not reach a page of a private area
whose frame has other references. -/
def IsoGood (k : Kernel) (s : Machine) : Label → Prop
  | .call p (.mprotect start len prot) =>
      ∀ P ∈ s.procs.lookup p, ¬ MprotectIdle start len → prot.write = true →
        SoleInRange s P (pageMask start) (pageMask start + pageAlign len)
  | lab => CountGood k s (.plain lab)

theorem IsoGood.count {lab : Label} (h : IsoGood k s lab) : CountGood k s (.plain lab) := by
  cases lab with
  | event e => exact h
  | call p c =>
    cases c with
    | mprotect start len prot => trivial
    | _ => exact h

theorem IsoInv.narrows {c : Call} (h : IsoInv k s) (hP : s.procs.lookup p = some P)
    (hgood : IsoGood k s (.call p c)) (hcount : Counted k t) (hn : Narrows p P s t P')
    (hrights : NoNewRw P P' ∨ ∃ start len prot, c = .mprotect start len prot ∧
      ¬ MprotectIdle start len ∧ P'.pt =
        protectPageRange k (pageMask start) (pageMask start + pageAlign len) prot P.pt) : RwSafe t P' := by
  intro pg pte' hpte' hrw i' hi'
  have hmem : pte'.frame ∈ frames P'.pt := mem_frames.mpr ⟨pg, pte', hpte', rfl⟩
  obtain ⟨pte, hpte, hframe⟩ := hn.entry pg pte' hpte'
  obtain ⟨i, hi, -⟩ := (h.page.procs p P hP).covered pg pte hpte
  obtain ⟨j, hj, hsame⟩ := hn.info pg pte' hpte' i hi
  obtain rfl := Option.some.inj (hj.symm.trans hi')
  -- it is enough that the entry was safe before, or `sys_mprotect` found it so
  suffices hold : i.flags.shared = true ∨ s.mem.pool.count pte.frame = 1 by
    rw [hsame.shared]
    refine hold.imp_right fun hone => ?_
    rw [← hframe] at hone
    exact hn.count_one hP h.page.counted hcount hone hmem
  rcases hrights with hrights | ⟨start, len, prot, rfl, hidle, hpt⟩
  · obtain ⟨pte₀, hpte₀, -, hrw₀⟩ := hrights pg pte' hpte' hrw
    obtain rfl := Option.some.inj (hpte.symm.trans hpte₀)
    exact h.safe p P hP pg pte hpte hrw₀ i hi
  · rw [hpt] at hpte'
    obtain ⟨pte₀, hpte₀, -, hrw₀⟩ := protectPageRange_entry hpte'
    obtain rfl := Option.some.inj (hpte.symm.trans hpte₀)
    rcases hrw₀ hrw with hrw₀ | ⟨hlow, hhigh, hwrite⟩
    · exact h.safe p P hP pg pte hpte hrw₀ i hi
    · have hsole := hgood P hP hidle hwrite ⟨pg, pte⟩ (AList.mem_lookup_iff.mp hpte) ⟨hlow, hhigh⟩
      simpa only [hi, Option.any_some] using hsole

/-! ## Page faults -/

/-- What the rights of an area that is not shared allow in a page of a file. -/
theorem nopageProt_rw {v : Vma} (hv : v.Valid) (hops : v.vmOps ≠ none)
    (hrw : (nopageProt v).rw = true) : v.vmFlags.shared = true := by
  have hfile : v.vmFile.isSome = true := by
    rw [hv.ops] at hops
    cases hf : v.vmFile with
    | none => simp [hf] at hops
    | some f => rfl
  by_contra hshared
  rw [Bool.not_eq_true] at hshared
  simp only [nopageProt, hfile, hshared, hv.prot, getPageProt] at hrw
  cases hwrite : v.vmFlags.write <;> simp [hwrite] at hrw
  split_ifs at hrw

theorem IsoInv.not_free (h : IsoInv k s) (hP : s.procs.lookup p = some P) (hf : f ∈ frames P.pt)
    {g : ℕ} (hg : s.mem.pool.free g = true) : f ≠ g := by
  rintro rfl
  exact h.page.counted.balanced.unused f hg (mem_owners hP hf)

/-- The counts of the frames that the process has mapped with one reference stay, and the
entry that a page fault sets is safe. -/
theorem IsoInv.fault_counts {addr : ℕ} {ans : Answer} {v : Vma} {y : PageTable × Memory}
    (h : IsoInv k s) (hP : s.procs.lookup p = some P) (hv : v.Valid)
    (hfound : pageFound k P v addr ans s = true) (hy : faultPage k P v addr ans s = some y) :
    (∀ f ∈ frames P.pt, s.mem.pool.count f = 1 → y.2.pool.count f = 1) ∧
      (y.1 = P.pt ∨ ∃ pte, y.1 = P.pt.insert (addr / pageSize) pte ∧
        (pte.rw = true → v.vmFlags.shared = true ∨ y.2.pool.count pte.frame = 1)) := by
  rcases faultPage_cases hy hfound with ⟨pte₀, hpte₀, hwp, hneed⟩ | ⟨-, hno, hneed⟩
  · have hmem₀ : pte₀.frame ∈ frames P.pt := mem_frames.mpr ⟨_, pte₀, hpte₀, rfl⟩
    rcases doWpPage_spec hwp hneed with ⟨hdirect, rfl⟩ | ⟨-, hmany, g, hfree, hpt, hmem⟩
    · exact ⟨fun f _ hone => hone, Or.inr ⟨_, rfl, fun _ => hdirect⟩⟩
    · rw [hmem]
      refine ⟨fun f hf hone => ?_, Or.inr ⟨_, hpt, fun _ => Or.inr ?_⟩⟩
      · have hne₀ : f ≠ pte₀.frame := by
          rintro rfl
          exact hmany hone
        simp only [Pool.put, Pool.take, update_of_ne hne₀, update_of_ne (h.not_free hP hf hfree)]
        exact hone
      · simp only [mkPte, Pool.put, Pool.take, update_of_ne (h.not_free hP hmem₀ hfree).symm, update_self]
  · rcases doNoPage_spec hno hneed with rfl | ⟨-, g, m, hm, rfl⟩ | ⟨hops, ino, index, f, m, -, hm, rfl⟩
    · exact ⟨fun f _ hone => hone, Or.inl rfl⟩
    · obtain ⟨hfree, rfl⟩ := getZeroPage_spec hm
      refine ⟨fun f hf hone => ?_, Or.inr ⟨_, rfl, fun _ => Or.inr ?_⟩⟩
      · simp only [Pool.take, update_of_ne (h.not_free hP hf hfree)]
        exact hone
      · simp only [mkPte, Pool.take, update_self]
    · refine ⟨fun f' hf' hone => ?_, Or.inr ⟨_, rfl, fun hrw => Or.inl (nopageProt_rw hv hops hrw)⟩⟩
      rcases filemapGetPage_spec hm with ⟨hr, -⟩ | ⟨c, -, hlook, rfl⟩ | ⟨g, -, -, hfree, rfl⟩
      · cases hr
      · have hne : f' ≠ c := by
          rintro rfl
          exact (h.page.counted.sole hP hf' hone).2 _ hlook
        simp only [Pool.ref, update_of_ne hne]
        exact hone
      · have hne := h.not_free hP hf' hfree
        simp only [Pool.ref, Pool.take, update_of_ne hne]
        exact hone

theorem IsoInv.fault {addr : ℕ} {ans : Answer} {v : Vma} {l : List Vma} {y : PageTable × Memory}
    (h : IsoInv k s) (hP : s.procs.lookup p = some P)
    (harea : faultArea k addr P.mmap = some (v, l)) (hfound : pageFound k P v addr ans s = true)
    (hy : faultPage k P v addr ans s = some y) :
    RwSafe (s.setProc p { P with mmap := l, pt := y.1 } y.2) { P with mmap := l, pt := y.1 } := by
  have hok := h.page.procs p P hP
  obtain ⟨hwf, hmem, hvalid, hcovers, -, hkeep, -⟩ := faultArea_spec hok.wf harea
  obtain ⟨hcounts, hnew⟩ := h.fault_counts hP hvalid hfound hy
  intro pg pte hpte hrw i hi
  have hold : P.pt.lookup pg = some pte → i.flags.shared = true ∨ y.2.pool.count pte.frame = 1 := by
    intro hpte₀
    obtain ⟨i₀, hi₀, -⟩ := hok.covered pg pte hpte₀
    obtain rfl := Option.some.inj ((hkeep _ _ hi₀).symm.trans hi)
    have hframe : pte.frame ∈ frames P.pt := mem_frames.mpr ⟨pg, pte, hpte₀, rfl⟩
    exact (h.safe p P hP pg pte hpte₀ hrw i₀ hi₀).imp_right (hcounts _ hframe)
  rcases hnew with hsame | ⟨pte', hinsert, hsafe⟩
  · exact hold (hsame ▸ hpte)
  · simp only [hinsert] at hpte
    by_cases hpg : pg = addr / pageSize
    · subst hpg
      rw [AList.lookup_insert] at hpte
      cases hpte
      have hinfo := infoAt_of_mem hwf.apart hmem (covers_page hvalid hcovers)
      obtain rfl := Option.some.inj (hinfo.symm.trans hi)
      exact hsafe hrw
    · rw [AList.lookup_insert_ne hpg] at hpte
      exact hold hpte

/-! ## Steps -/

/-- A call leaves the frames of the other processes with their counts of one. -/
theorem IsoInv.others {c : Call} (h : IsoInv k s) (hP : s.procs.lookup p = some P)
    (hgood : IsoGood k s (.call p c)) (hstep : execCall k p P s c = some t)
    (hQ : s.procs.lookup q = some Q) (hqp : q ≠ p) : RwSafe t Q := by
  have hcounted := h.page.counted
  obtain ⟨o, hmoves, -⟩ := execCall_moves (hcounted.refs_real hP) hP hgood.count hstep
  refine (h.safe q Q hQ).frame fun f hf hone => ?_
  exact hmoves.keeps_one (hcounted.balanced.perm (owners_perm hP)) (mem_othersOf hQ hqp hf) hone

theorem IsoInv.call {c : Call} (h : IsoInv k s) (hP : s.procs.lookup p = some P)
    (hgood : IsoGood k s (.call p c)) (hstep : execCall k p P s c = some t) : IsoInv k t := by
  have hok := h.page.procs p P hP
  have hpage := h.page.call hP hgood.count hstep
  have hother : ∀ q Q, s.procs.lookup q = some Q → q ≠ p → RwSafe t Q := fun q Q hQ hqp =>
    h.others hP hgood hstep hQ hqp
  refine ⟨hpage, fun q Q hQ => ?_⟩
  rcases execCall_cases hok hP hgood.count hstep with ⟨P', hn, hrights⟩ |
    ⟨addr, write, ans, v, l, y, rfl, harea, -, hfound, hy, rfl⟩ | ⟨child, rfl, hchild, rfl⟩ |
    ⟨io, rfl, rfl⟩
  · by_cases hqp : q = p
    · subst hqp
      obtain rfl := Option.some.inj (hn.self.symm.trans hQ)
      exact h.narrows hP hgood hpage.counted hn hrights
    · rw [hn.others q hqp] at hQ
      exact hother q Q hQ hqp
  · by_cases hqp : q = p
    · subst hqp
      obtain rfl := Option.some.inj ((lookup_insert_self rfl).symm.trans hQ)
      exact h.fault hP harea hfound hy
    · rw [lookup_insert_others rfl q hqp] at hQ
      exact hother q Q hQ hqp
  · obtain ⟨-, hself, hnew, hothers⟩ := fork_lookup (k := k) hP hchild
    by_cases hqc : q = child
    · -- the child may store nowhere
      subst hqc
      obtain rfl := Option.some.inj (hnew.symm.trans hQ)
      intro pg pte hpte hrw
      obtain ⟨-, -, -, hno⟩ := copyEntries_entry hpte
      rw [hno] at hrw
      cases hrw
    · by_cases hqp : q = p
      · subst hqp
        obtain rfl := Option.some.inj (hself.symm.trans hQ)
        intro pg pte hpte hrw
        obtain ⟨-, -, -, -, hno⟩ := writeProtect_entry hpte
        rw [hno rfl] at hrw
        cases hrw
      · rw [hothers q hqp hqc] at hQ
        exact hother q Q hQ hqp
  · obtain ⟨hqp, hQ'⟩ := exit_lookup hQ
    exact hother q Q hQ' hqp

theorem IsoInv.event {e : Event} {m : Memory} (h : IsoInv k s)
    (hstep : execEvent s.mem e = some m) : IsoInv k { s with mem := m } := by
  refine ⟨h.page.event hstep, fun q Q hQ => (h.safe q Q hQ).frame fun f hf hone => ?_⟩
  have hmem : f ∈ (Table.values s.procs).flatMap fun P => frames P.pt :=
    List.mem_flatMap.mpr ⟨Q, Table.mem_values.mpr ⟨q, hQ⟩, hf⟩
  exact (execEvent_moves hstep).keeps_one (h.page.counted.balanced.perm List.perm_append_comm) hmem hone

theorem IsoInv.step {lab : Label} (h : IsoInv k s) (hgood : IsoGood k s lab) (hstep : Step k s lab t) : IsoInv k t := by
  cases lab with
  | call p c =>
    obtain ⟨P, hP, hcall⟩ := Option.bind_eq_some_iff.mp hstep
    exact h.call hP hgood hcall
  | event e =>
    obtain ⟨m, hm, rfl⟩ := Option.map_eq_some_iff.mp hstep
    exact h.event hm

theorem Initial.isoInv (h : Initial k s) : IsoInv k s := by
  refine ⟨h.pageInv, fun p P hP pg pte hpte => ?_⟩
  rw [(h.unmapped p P hP).2] at hpte
  cases hpte

/-! ## What others see -/

/-- The byte that a process reads at an address: of the frame that is mapped there, or of
the page that a page fault would map. -/
def contents (k : Kernel) (m : Memory) (P : Proc) (a : ℕ) : Option ℕ :=
  match P.pt.lookup (a / pageSize) with
  | some pte => some (m.data pte.frame (a % pageSize))
  | none =>
      (infoAt P.mmap a).bind fun i =>
        match i.file with
        | none => some 0
        | some (file, base) =>
            (inodeOf k file).map fun ino => fileView m ino ((base + a) % wordSize)

/-- The call of `p` changes no frame of another process, and no file for its readers. -/
structure Unseen (p : ℕ) (s t : Machine) : Prop where
  data : ∀ f ∈ othersOf p s, t.mem.data f = s.mem.data f
  view : ∀ ino off, fileView t.mem ino off = fileView s.mem ino off

theorem SameView.unseen (h : SameView s.mem t.mem) (p : ℕ) : Unseen p s t :=
  ⟨fun f _ => by rw [h.data], h.view⟩

theorem Unseen.contents_eq (h : Unseen p s t) (hQ : s.procs.lookup q = some Q) (hqp : q ≠ p)
    (a : ℕ) : contents k t.mem Q a = contents k s.mem Q a := by
  unfold contents
  cases hpte : Q.pt.lookup (a / pageSize) with
  | some pte =>
    have hmem : pte.frame ∈ frames Q.pt := mem_frames.mpr ⟨_, pte, hpte, rfl⟩
    simp only [h.data _ (mem_othersOf hQ hqp hmem)]
  | none => simp only [h.view]

/-- The steps that write only to a frame that nobody refers to. -/
theorem Counted.unseen_free {m : Memory} {g : ℕ} (h : Counted k s) (hfree : s.mem.pool.free g = true)
    (hdata : ∀ f, f ≠ g → m.data f = s.mem.data f) (hcache : m.cache = s.mem.cache)
    (hdisk : m.disk = s.mem.disk) (hsize : m.size = s.mem.size) :
    (∀ f ∈ owners s, m.data f = s.mem.data f) ∧ ∀ ino off, fileView m ino off = fileView s.mem ino off := by
  have howned : ∀ f ∈ owners s, m.data f = s.mem.data f := by
    intro f hf
    refine hdata f ?_
    rintro rfl
    exact h.balanced.unused f hfree hf
  refine ⟨howned, fileView_congr hcache hdisk hsize fun key f hkey => howned f ?_⟩
  exact List.mem_append_right _ (List.mem_append_left _ (Table.mem_values.mpr ⟨key, hkey⟩))

theorem Counted.unseen_load {ino index c : ℕ} {page : Option ℕ} {m : Memory} (h : Counted k s)
    (hm : filemapGetPage ino index page s.mem = some (m, some c)) :
    (∀ f ∈ owners s, m.data f = s.mem.data f) ∧ ∀ i off, fileView m i off = fileView s.mem i off := by
  rcases filemapGetPage_spec hm with ⟨hr, -⟩ | ⟨c', -, -, rfl⟩ | ⟨g, -, hlook, hfree, rfl⟩
  · cases hr
  · exact ⟨fun f _ => rfl, fileView_congr rfl rfl rfl fun _ _ _ => rfl⟩
  · have howned : ∀ f ∈ owners s, f ≠ g := by
      rintro f hf rfl
      exact h.balanced.unused f hfree hf
    refine ⟨fun f hf => update_of_ne (howned f hf) .., fun i off => ?_⟩
    unfold fileView
    by_cases hkey : (i, off / pageSize) = (ino, index)
    · cases hkey
      simp only [AList.lookup_insert, hlook, update_self]
      rw [Nat.div_add_mod' off pageSize]
    · simp only [AList.lookup_insert_ne hkey]
      cases hcached : s.mem.cache.lookup (i, off / pageSize) with
      | none => rfl
      | some f =>
        have hf : f ∈ owners s := List.mem_append_right _ (List.mem_append_left _ (Table.mem_values.mpr ⟨_, hcached⟩))
        simp only [update_of_ne (howned f hf)]

theorem Counted.fault_unseen {addr : ℕ} {ans : Answer} {v : Vma} {y : PageTable × Memory}
    (h : Counted k s) (hfound : pageFound k P v addr ans s = true) (hy : faultPage k P v addr ans s = some y) :
    (∀ f ∈ owners s, y.2.data f = s.mem.data f) ∧ ∀ ino off, fileView y.2 ino off = fileView s.mem ino off := by
  rcases faultPage_cases hy hfound with ⟨pte, -, hwp, hneed⟩ | ⟨-, hno, hneed⟩
  · rcases doWpPage_spec hwp hneed with ⟨-, rfl⟩ | ⟨-, -, g, hfree, -, hmem⟩
    · exact ⟨fun f _ => rfl, fun _ _ => rfl⟩
    · rw [hmem]
      refine h.unseen_free hfree (fun f hf => ?_) rfl rfl rfl
      simp only [update_of_ne hf]
  · rcases doNoPage_spec hno hneed with rfl | ⟨-, g, m, hm, rfl⟩ | ⟨-, ino, index, c, m, -, hm, rfl⟩
    · exact ⟨fun f _ => rfl, fun _ _ => rfl⟩
    · obtain ⟨hfree, rfl⟩ := getZeroPage_spec hm
      exact h.unseen_free hfree (fun f hf => update_of_ne hf ..) rfl rfl rfl
    · exact h.unseen_load hm

/-- The call stores through a shared area. -/
def sharedStore (s : Machine) (p : ℕ) : Call → Bool
  | .store addr _ =>
      ((s.procs.lookup p).bind fun P => infoAt P.mmap addr).any fun i => i.flags.shared
  | _ => false

theorem IsoInv.store_unseen {addr byte : ℕ} (h : IsoInv k s) (hP : s.procs.lookup p = some P)
    (hstep : store p P addr byte s = some t) (hprivate : sharedStore s p (.store addr byte) = false) :
    Unseen p s t := by
  obtain ⟨pte, hpte, -, hrw, rfl⟩ := store_spec hstep
  have hok := h.page.procs p P hP
  obtain ⟨i, hi, -⟩ := hok.covered _ _ hpte
  have hmem : pte.frame ∈ frames P.pt := mem_frames.mpr ⟨_, pte, hpte, rfl⟩
  have hone : s.mem.pool.count pte.frame = 1 := by
    refine (h.safe p P hP _ pte hpte hrw i hi).resolve_left fun hshared => ?_
    obtain ⟨w, hw, hwc, rfl⟩ := (infoAt_eq_some_iff hok.wf.apart).mp hi
    have hcovers := covers_of_page (hok.wf.valid w hw) hwc
    simp only [sharedStore, hP, Option.bind_some, infoAt_of_mem hok.wf.apart hw hcovers,
      Option.any_some, hshared] at hprivate
    cases hprivate
  obtain ⟨hothers, hcache⟩ := h.page.counted.sole hP hmem hone
  refine ⟨fun f hf => ?_, fileView_congr rfl rfl rfl fun key f hkey => ?_⟩
  · refine update_of_ne ?_ ..
    rintro rfl
    exact hothers hf
  · refine update_of_ne ?_ ..
    rintro rfl
    exact hcache key hkey

theorem ProcOk.dup_coherent {m : Memory} (h : ProcOk k m P) (frefs : ℕ → ℤ) (ring : Ring) (fresh n : ℕ) :
    AllCoherent k (dupMmap frefs ring fresh (P.mmap.take n)).1
      (copyEntries none P.pt, refPages (frames (copyEntries none P.pt)) m) := by
  have hchild : ProcOk k (refPages (frames (copyEntries none P.pt)) m)
      { P with pt := copyEntries none P.pt } := by
    refine h.of_entries (fun _ _ hkey => hkey) h.wf rfl fun pg pte' hpte' => ?_
    obtain ⟨pte, hpte, hframe, -⟩ := copyEntries_entry hpte'
    exact ⟨pte, hpte, hframe⟩
  intro v hv
  obtain ⟨w, hw, heq⟩ := (dupMmap_copies frefs ring fresh (P.mmap.take n)).exists hv
  obtain ⟨hvalid, hcoherent⟩ := hchild.allCoherent w (List.mem_of_mem_take hw)
  rw [heq]
  exact ⟨⟨hvalid.nonempty, hvalid.startAligned, hvalid.endAligned, hvalid.user, hvalid.prot, hvalid.ops⟩, hcoherent⟩

theorem ProcOk.fork_sameView {child : ℕ} {ans : ForkAnswer} (h : ProcOk k s.mem P) :
    SameView s.mem (doFork p P child k ans s).mem := by
  cases ans with
  | ok => exact sameView_refPages ..
  | noTable pde => exact (sameView_refPages ..).trans (sameView_putPages ..)
  | noArea n io =>
    have hclose := closeAreas_sameView io (h.dup_coherent s.frefs s.ring s.fresh n)
    exact (sameView_refPages ..).trans (hclose.trans (sameView_putPages ..))

/-- No call changes what others see, except a store through a shared area. -/
theorem IsoInv.unseen {c : Call} (h : IsoInv k s) (hP : s.procs.lookup p = some P)
    (hgood : IsoGood k s (.call p c)) (hstep : execCall k p P s c = some t)
    (hprivate : sharedStore s p c = false) : Unseen p s t := by
  have hok := h.page.procs p P hP
  cases c with
  | fault addr write ans =>
    simp only [execCall] at hstep
    split_ifs at hstep
    have hfound : faultFound k P addr write ans s = true := by
      simpa only [IsoGood, CountGood, hP, Option.all_some] using hgood
    rcases doPageFault_spec hstep with ⟨rfl, -⟩ | ⟨v, l, harea, ⟨-, rfl⟩ | ⟨hdenied, y, hy, rfl⟩⟩
    · exact (SameView.refl _).unseen p
    · refine SameView.unseen ?_ p
      exact SameView.refl s.mem
    · rw [faultFound, harea, Option.all_some] at hfound
      simp only [hdenied, Bool.false_or] at hfound
      obtain ⟨hdata, hview⟩ := h.page.counted.fault_unseen hfound hy
      refine ⟨fun f hf => hdata f ?_, hview⟩
      exact (owners_perm hP).mem_iff.mpr (List.mem_append_right _ hf)
  | store addr byte => exact h.store_unseen hP hstep hprivate
  | mmap a kzalloc io =>
    obtain ⟨P', -, -, -, hpages, -⟩ := sysMmap_areas hok.wf hstep
    have hmem : t.mem = (P'.pt, t.mem).2 := rfl
    refine SameView.unseen ?_ p
    rw [hmem, hpages]
    split_ifs
    · exact munmapPages_sameView io hok.allCoherent
    · exact SameView.refl _
  | munmap addr len io =>
    obtain ⟨P', -, -, -, hpages, -⟩ := sysMunmap_areas hok.wf hstep
    have hmem : t.mem = (P'.pt, t.mem).2 := rfl
    refine SameView.unseen ?_ p
    rw [hmem, hpages]
    exact munmapPages_sameView io hok.allCoherent
  | mprotect start len prot =>
    cases hstep
    refine SameView.unseen ?_ p
    unfold sysMprotect
    split_ifs <;> exact SameView.refl _
  | msync addr len flags io =>
    cases hstep
    refine SameView.unseen ?_ p
    unfold sysMsync
    split_ifs with hbad
    · exact SameView.refl _
    · exact SameView.refl _
    · rw [not_or, not_not] at hbad
      exact msyncAreas_sameView io (hok.allCoherent.subset (List.dropWhile_sublist _).subset)
        (Nat.dvd_of_mod_eq_zero hbad.1)
  | fork child ans =>
    simp only [execCall] at hstep
    split_ifs at hstep
    cases hstep
    exact hok.fork_sameView.unseen p
  | exit io =>
    cases hstep
    refine SameView.unseen ?_ p
    exact (closeAreas_sameView io hok.allCoherent).trans (sameView_putPages ..)
  | setFd fd file =>
    cases hstep
    refine SameView.unseen ?_ p
    exact SameView.refl s.mem

/-! ## Page faults map what the process reads -/

theorem contents_of_entry {m : Memory} {a : ℕ} (pte : Pte) (h : P.pt.lookup (a / pageSize) = some pte) :
    contents k m P a = some (m.data pte.frame (a % pageSize)) := by
  rw [contents, h]

theorem pos_div_mod {v : Vma} {a : ℕ} (hpos : (v.base + a / pageSize * pageSize) % wordSize % pageSize = 0) :
    (v.base + a) % wordSize / pageSize =
        (v.base + a / pageSize * pageSize) % wordSize / pageSize ∧
      (v.base + a) % wordSize % pageSize = a % pageSize := by
  simp only [pageSize, wordSize] at *
  omega

/-- A page that is mapped reads as it did before the page fault. -/
theorem IsoInv.fault_contents_page {addr a b : ℕ} {ans : Answer} {v : Vma} {l : List Vma}
    {y : PageTable × Memory} (h : IsoInv k s) (hP : s.procs.lookup p = some P)
    (harea : faultArea k addr P.mmap = some (v, l)) (hfound : pageFound k P v addr ans s = true)
    (hy : faultPage k P v addr ans s = some y) (ha : a / pageSize = addr / pageSize)
    (hnew : y.1 ≠ P.pt) (hb : contents k s.mem P a = some b) :
    contents k y.2 { P with mmap := l, pt := y.1 } a = some b := by
  have hok := h.page.procs p P hP
  obtain ⟨hdata, hview⟩ := h.page.counted.fault_unseen hfound hy
  obtain ⟨hwf, hmem, hvalid, hcovers, -, hkeep, -⟩ := faultArea_spec hok.wf harea
  have hpage := covers_page hvalid hcovers
  rcases faultPage_cases hy hfound with ⟨pte₀, hpte₀, hwp, hneed⟩ | ⟨hnone, hno, hneed⟩
  · rw [← ha] at hpte₀
    have howned := mem_owners hP (mem_frames.mpr ⟨_, pte₀, hpte₀, rfl⟩)
    rw [contents_of_entry pte₀ hpte₀] at hb
    rcases doWpPage_spec hwp hneed with ⟨-, rfl⟩ | ⟨-, -, g, hfree, hpt, hmem⟩
    · rw [contents_of_entry { pte₀ with rw := true } (by rw [ha, AList.lookup_insert])]
      exact hb
    · have hne : pte₀.frame ≠ g := by
        intro heq
        exact h.page.counted.balanced.unused g hfree (heq ▸ howned)
      rw [contents_of_entry (mkPte g v.vmPageProt)
        (by rw [hpt, ha, AList.lookup_insert]), hmem]
      simp only [mkPte, update_self, update_of_ne hne]
      exact hb
  · -- nothing was mapped, so the process read what the area says
    rw [← ha] at hnone
    have hcoversa : v.Covers a := covers_of_page hvalid (ha ▸ hpage)
    have hinfo : infoAt P.mmap a = some v.info := by
      cases hi : infoAt P.mmap a with
      | none => simp [contents, hnone, hi] at hb
      | some i =>
        rw [← infoAt_of_mem hwf.apart hmem hcoversa]
        exact (hkeep a i hi).symm
    simp only [contents, hnone, hinfo, Option.bind_some] at hb
    rcases doNoPage_spec hno hneed with rfl | ⟨hops, g, m, hm, rfl⟩ | ⟨-, ino, index, c, m, hkey, hm, rfl⟩
    · exact absurd rfl hnew
    · obtain ⟨-, rfl⟩ := getZeroPage_spec hm
      rw [hvalid.ops, Option.map_eq_none_iff] at hops
      simp only [Vma.info, hops, Option.map_none] at hb
      rw [contents_of_entry (mkPte g v.vmPageProt) (by rw [ha, AList.lookup_insert])]
      simp only [mkPte, update_self]
      exact hb
    · obtain ⟨file, hfile, hino, hpos, rfl⟩ := filePage_eq hkey
      obtain ⟨-, hlook⟩ := filemapGetPage_cache hm
      rw [Vma.pos_eq hpage, ← ha] at hpos hlook
      obtain ⟨hdiv, hmod⟩ := pos_div_mod hpos
      simp only [Vma.info, hfile, Option.map_some, hino] at hb
      rw [contents_of_entry (mkPte c (nopageProt v)) (by rw [ha, AList.lookup_insert])]
      rw [← hb, ← hview, fileView, hdiv, hlook, hmod]
      rfl

theorem IsoInv.fault_contents {addr : ℕ} {write : Bool} {ans : Answer} (h : IsoInv k s)
    (hP : s.procs.lookup p = some P) (hgood : IsoGood k s (.call p (.fault addr write ans)))
    (hstep : execCall k p P s (.fault addr write ans) = some t) :
    ∃ P', t.procs.lookup p = some P' ∧ ∀ a b, contents k s.mem P a = some b → contents k t.mem P' a = some b := by
  have hok := h.page.procs p P hP
  simp only [execCall] at hstep
  split_ifs at hstep
  have hfound : faultFound k P addr write ans s = true := by
    simpa only [IsoGood, CountGood, hP, Option.all_some] using hgood
  -- an address whose entry does not change
  have hsame : ∀ l pt (m : Memory) a b, (∀ a i, infoAt P.mmap a = some i → infoAt l a = some i) →
      pt.lookup (a / pageSize) = P.pt.lookup (a / pageSize) →
      (∀ f ∈ owners s, m.data f = s.mem.data f) →
      (∀ ino off, fileView m ino off = fileView s.mem ino off) →
      contents k s.mem P a = some b →
      contents k m { P with mmap := l, pt := pt } a = some b := by
    intro l pt m a b hkeep hpt hdata hview hb
    unfold contents at hb ⊢
    simp only [hpt]
    cases hpte : P.pt.lookup (a / pageSize) with
    | some pte =>
      rw [hpte] at hb
      simp only [hdata _ (mem_owners hP (mem_frames.mpr ⟨_, pte, hpte, rfl⟩))]
      exact hb
    | none =>
      rw [hpte] at hb
      obtain ⟨i, hi, hrest⟩ := Option.bind_eq_some_iff.mp hb
      simp only [hkeep a i hi, Option.bind_some, hview]
      exact hrest
  rcases doPageFault_spec hstep with ⟨rfl, -⟩ | ⟨v, l, harea, ⟨-, rfl⟩ | ⟨hdenied, y, hy, rfl⟩⟩
  · exact ⟨P, hP, fun _ _ hb => hb⟩
  · obtain ⟨-, -, -, -, -, hkeep, -⟩ := faultArea_spec hok.wf harea
    refine ⟨_, lookup_insert_self rfl, fun a b hb => ?_⟩
    exact hsame l P.pt s.mem a b hkeep rfl (fun _ _ => rfl) (fun _ _ => rfl) hb
  · obtain ⟨-, -, -, -, -, hkeep, -⟩ := faultArea_spec hok.wf harea
    rw [faultFound, harea, Option.all_some] at hfound
    simp only [hdenied, Bool.false_or] at hfound
    obtain ⟨hdata, hview⟩ := h.page.counted.fault_unseen hfound hy
    refine ⟨_, lookup_insert_self rfl, fun a b hb => ?_⟩
    by_cases ha : a / pageSize = addr / pageSize ∧ y.1 ≠ P.pt
    · exact h.fault_contents_page hP harea hfound hy ha.1 ha.2 hb
    · refine hsame l y.1 y.2 a b hkeep ?_ hdata hview hb
      by_cases hpage : a / pageSize = addr / pageSize
      · rw [not_not.mp fun hne => ha ⟨hpage, hne⟩]
      · exact faultPage_lookup hok harea hfound hy hpage

/-! ## Runs -/

theorem IsoInv.keeps_others {c : Call} (h : IsoInv k s) (hP : s.procs.lookup p = some P)
    (hgood : IsoGood k s (.call p c)) (hstep : execCall k p P s c = some t)
    (hQ : s.procs.lookup q = some Q) (hqp : q ≠ p) : t.procs.lookup q = some Q := by
  rcases execCall_cases (h.page.procs p P hP) hP hgood.count hstep with ⟨P', hn, -⟩ |
    ⟨addr, write, ans, v, l, y, rfl, -, -, -, -, rfl⟩ | ⟨child, rfl, hchild, rfl⟩ | ⟨io, rfl, rfl⟩
  · rw [hn.others q hqp, hQ]
  · rw [lookup_insert_others rfl q hqp, hQ]
  · obtain ⟨-, -, -, hothers⟩ := fork_lookup (k := k) hP hchild
    have hqc : q ≠ child := by
      rintro rfl
      exact hchild (AList.lookup_isSome.mp (hQ ▸ rfl))
    rw [hothers q hqp hqc, hQ]
  · have herase : (doExit k p P io s).procs = s.procs.erase p := rfl
    rw [herase, AList.lookup_erase_ne hqp, hQ]

/-- The other processes read what they did before, and so do the readers of files. -/
def Hidden (k : Kernel) (p : ℕ) (s t : Machine) : Prop :=
  (∀ q Q, q ≠ p → s.procs.lookup q = some Q →
    t.procs.lookup q = some Q ∧ ∀ a, contents k t.mem Q a = contents k s.mem Q a) ∧
  ∀ ino off, fileView t.mem ino off = fileView s.mem ino off

/-- In every run whose page faults find their pages, none of them on the share ring, and
in which `sys_mprotect` gives no private page whose frame has other references the right
to be written: whatever a process does next, unless it stores through a shared area, is
hidden from every other process and from every reader of a file. A page fault changes
nothing that its own process reads. -/
theorem private_mappings_isolated (k : Kernel) (s₀ : Machine) (hinit : Initial k s₀)
    (labs : List Label) (s : Machine) (hrun : Run (Guarded (IsoGood k) (Step k)) s₀ labs s)
    (p : ℕ) (c : Call) (t : Machine) (hstep : Guarded (IsoGood k) (Step k) s (.call p c) t)
    (hprivate : sharedStore s p c = false) :
    Hidden k p s t ∧
      ∀ addr write ans, c = .fault addr write ans → ∀ P, s.procs.lookup p = some P →
        ∃ P', t.procs.lookup p = some P' ∧
          ∀ a b, contents k s.mem P a = some b → contents k t.mem P' a = some b := by
  have h : IsoInv k s := hrun.invariant hinit.isoInv fun hinv hlast => hinv.step hlast.1 hlast.2
  obtain ⟨hgood, hexec⟩ := hstep
  obtain ⟨P, hP, hcall⟩ := Option.bind_eq_some_iff.mp hexec
  have hunseen := h.unseen hP hgood hcall hprivate
  refine ⟨⟨fun q Q hqp hQ => ?_, hunseen.view⟩, ?_⟩
  · exact ⟨h.keeps_others hP hgood hcall hQ hqp, hunseen.contents_eq hQ hqp⟩
  · rintro addr write ans rfl Q hQ
    obtain rfl := Option.some.inj (hP.symm.trans hQ)
    exact h.fault_contents hP hgood hcall

instance (k : Kernel) (s : Machine) : ∀ lab, Decidable (IsoGood k s lab)
  | .call _ (.mprotect ..) => inferInstanceAs (Decidable (∀ P ∈ _, _ → _ → _))
  | .call p (.fault addr write ans) =>
      inferInstanceAs (Decidable (CountGood k s (.plain (.call p (.fault addr write ans)))))
  | .call _ (.store ..) => isTrue trivial
  | .call _ (.mmap ..) => isTrue trivial
  | .call _ (.munmap ..) => isTrue trivial
  | .call _ (.msync ..) => isTrue trivial
  | .call _ (.fork ..) => isTrue trivial
  | .call _ (.exit ..) => isTrue trivial
  | .call _ (.setFd ..) => isTrue trivial
  | .event _ => isTrue trivial

/-- A private page is written, inherited, and copied by a write of the child. -/
def cowRun : List Label :=
  [.call 0 (mapPage 2), .call 0 (touchPage (some 16)), .call 0 (.fork 1 .ok),
    .call 1 (touchPage (some 17))]

theorem cowRun_replays : (replay (IsoGood bootKernel) (exec bootKernel) bootMachine cowRun).isSome := by
  decide +kernel

/-- The parent does not see what the child writes. -/
theorem private_mappings_isolated_cowRun :
    Initial bootKernel bootMachine ∧ ∃ s t,
      Run (Guarded (IsoGood bootKernel) (Step bootKernel)) bootMachine cowRun s ∧
      Step bootKernel s (.call 1 (.store 0x1000 9)) t ∧
      contents bootKernel t.mem (procOf t 1) 0x1000 = some 9 ∧ Hidden bootKernel 1 s t := by
  have hreplay := Option.some_get cowRun_replays
  have hrun : Run (Guarded (IsoGood bootKernel) (Step bootKernel)) bootMachine cowRun
      (reachedBy cowRun) := by
    have hs : reachedBy cowRun = (replay (IsoGood bootKernel) (exec bootKernel) bootMachine
      cowRun).get cowRun_replays := by rfl
    rw [hs]
    exact run_of_replay hreplay.symm
  obtain ⟨t, ht⟩ : ∃ t, exec bootKernel (reachedBy cowRun) (.call 1 (.store 0x1000 9)) = some t :=
    Option.isSome_iff_exists.mp (by decide +kernel)
  have hnine : ((exec bootKernel (reachedBy cowRun) (.call 1 (.store 0x1000 9))).bind fun t =>
      contents bootKernel t.mem (procOf t 1) 0x1000) = some 9 := by
    decide +kernel
  rw [ht, Option.bind_some] at hnine
  exact ⟨bootMachine_initial, _, t, hrun, ht, hnine,
    (private_mappings_isolated bootKernel bootMachine bootMachine_initial _ _ hrun 1
      (.store 0x1000 9) t ⟨trivial, ht⟩ (by decide +kernel)).1⟩

/-- `sys_mprotect` of the page at `0x1000`, for reading and writing. -/
def protectPage : Call := .mprotect 0x1000 0x1000 ⟨true, true, false, false, false⟩

/-- A private page is inherited, and protected again by the parent. -/
def protectRun : List Label :=
  [.call 0 (mapPage 2), .call 0 (touchPage (some 16)), .call 0 (.fork 1 .ok), .call 0 protectPage]

/-- A page of a file is mapped privately for reading, read, and then made writable. -/
def protectFileRun : List Label :=
  [.call 0 (.mmap { addr := 0x1000, len := 0x1000, prot := 1, flags := 0x12, fd := 3, off := 0 }
      true fun _ _ => 0),
    .call 0 (.fault 0x1000 false ⟨true, some 16⟩), .call 0 protectPage]

/-- A store after either of them is seen by the child, or by the readers of the file. -/
theorem private_store_seen :
    (¬ ∀ (k : Kernel) (s₀ : Machine), Initial k s₀ → ∀ labs s, Run (Step k) s₀ labs s →
      ∀ p addr byte t, Step k s (.call p (.store addr byte)) t →
        sharedStore s p (.store addr byte) = false → ∀ q Q, q ≠ p → s.procs.lookup q = some Q →
          ∀ a, contents k t.mem Q a = contents k s.mem Q a) ∧
    ¬ ∀ (k : Kernel) (s₀ : Machine), Initial k s₀ → ∀ labs s, Run (Step k) s₀ labs s →
      ∀ p addr byte t, Step k s (.call p (.store addr byte)) t →
        sharedStore s p (.store addr byte) = false →
          ∀ ino off, fileView t.mem ino off = fileView s.mem ino off := by
  constructor
  · intro h
    obtain ⟨t, ht⟩ : ∃ t, exec bootKernel (reachedBy protectRun) (.call 0 (.store 0x1000 9)) =
        some t := Option.isSome_iff_exists.mp (by decide +kernel)
    have hsame := h bootKernel bootMachine bootMachine_initial protectRun _
      (run_reachedBy (by decide +kernel)) 0 0x1000 9 t ht (by decide +kernel) 1 _ (by decide)
      (lookup_procOf (by decide +kernel)) 0x1000
    have hnine : ((exec bootKernel (reachedBy protectRun) (.call 0 (.store 0x1000 9))).bind fun t =>
        contents bootKernel t.mem (procOf (reachedBy protectRun) 1) 0x1000) = some 9 := by
      decide +kernel
    rw [ht, Option.bind_some, hsame] at hnine
    exact absurd hnine (by decide +kernel)
  · intro h
    obtain ⟨t, ht⟩ : ∃ t, exec bootKernel (reachedBy protectFileRun) (.call 0 (.store 0x1000 9)) =
        some t := Option.isSome_iff_exists.mp (by decide +kernel)
    have hsame := h bootKernel bootMachine bootMachine_initial protectFileRun _
      (run_reachedBy (by decide +kernel)) 0 0x1000 9 t ht (by decide +kernel) 1 0
    have hnine : ((exec bootKernel (reachedBy protectFileRun) (.call 0 (.store 0x1000 9))).map
        fun t => fileView t.mem 1 0) = some 9 := by
      decide +kernel
    rw [ht, Option.map_some, hsame] at hnine
    exact absurd hnine (by decide +kernel)

end Mario.Paging
