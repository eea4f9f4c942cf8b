import Mario.Mm.PageInvariant

/-!
# Shared areas after a fork

Two processes that have inherited a shared area should see one frame for each of its
pages. For an area of a file the page cache sees to that, as long as no page fault takes
its frame from the share ring; for an anonymous area nothing does, and the processes
agree only on the pages that were touched while one process had them.
-/

namespace Mario.Paging

open Mario.Mm Mario.Lib

variable {k : Kernel} {s t : Machine} {p : ℕ} {P P' : Proc}

/-! ## Where areas and entries come from -/

/-- Every area after the step goes back to one before it, or is the one that the step
makes. -/
def InfosFrom (s t : Machine) (new : Option Info) : Prop :=
  ∀ q Q, t.procs.lookup q = some Q → ∀ a i, infoAt Q.mmap a = some i →
    (∃ r R b j, s.procs.lookup r = some R ∧ infoAt R.mmap b = some j ∧ SameBacking j i) ∨ i ∈ new

/-- Every entry after the step stands for the frame that some process had for the same
page of the same area. -/
def EntriesFrom (s t : Machine) : Prop :=
  ∀ q Q, t.procs.lookup q = some Q → ∀ pg pte i, Q.pt.lookup pg = some pte →
    infoAt Q.mmap (pg * pageSize) = some i →
    ∃ r R pte₀ j, s.procs.lookup r = some R ∧ R.pt.lookup pg = some pte₀ ∧
      pte₀.frame = pte.frame ∧ infoAt R.mmap (pg * pageSize) = some j ∧ SameBacking j i

theorem InfosFrom.refl (hprocs : t.procs = s.procs) : InfosFrom s t none := by
  intro q Q hQ a i hi
  rw [hprocs] at hQ
  exact Or.inl ⟨q, Q, a, i, hQ, hi, SameBacking.refl i⟩

theorem EntriesFrom.refl (hprocs : t.procs = s.procs) : EntriesFrom s t := by
  intro q Q hQ pg pte i hpte hi
  rw [hprocs] at hQ
  exact ⟨q, Q, pte, i, hQ, hpte, rfl, hi, SameBacking.refl i⟩

theorem Narrows.infosFrom (hP : s.procs.lookup p = some P) (hn : Narrows p P s t P') :
    ∃ new, (∀ i ∈ new, NewInfo s t i) ∧ InfosFrom s t new := by
  obtain ⟨new, hnew, hinfos⟩ := hn.infos
  refine ⟨new, hnew, fun q Q hQ a i hi => ?_⟩
  by_cases hqp : q = p
  · subst hqp
    obtain rfl := Option.some.inj (hn.self.symm.trans hQ)
    rcases hinfos a i hi with ⟨b, j, hj, hsame⟩ | hmem
    · exact Or.inl ⟨q, P, b, j, hP, hj, hsame⟩
    · exact Or.inr hmem
  · rw [hn.others q hqp] at hQ
    exact Or.inl ⟨q, Q, a, i, hQ, hi, SameBacking.refl i⟩

theorem Narrows.entriesFrom (hok : ProcOk k s.mem P) (hP : s.procs.lookup p = some P)
    (hn : Narrows p P s t P') : EntriesFrom s t := by
  intro q Q hQ pg pte i hpte hi
  by_cases hqp : q = p
  · subst hqp
    obtain rfl := Option.some.inj (hn.self.symm.trans hQ)
    obtain ⟨pte₀, hpte₀, hframe⟩ := hn.entry pg pte hpte
    obtain ⟨j, hj, -⟩ := hok.covered pg pte₀ hpte₀
    obtain ⟨i', hi', hsame⟩ := hn.info pg pte hpte j hj
    obtain rfl := Option.some.inj (hi'.symm.trans hi)
    exact ⟨q, P, pte₀, j, hP, hpte₀, hframe.symm, hj, hsame⟩
  · rw [hn.others q hqp] at hQ
    exact ⟨q, Q, pte, i, hQ, hpte, rfl, hi, SameBacking.refl i⟩

theorem fork_from {child : ℕ} (hP : s.procs.lookup p = some P) (hchild : child ∉ s.procs) :
    InfosFrom s (doFork p P child k .ok s) none ∧ EntriesFrom s (doFork p P child k .ok s) := by
  obtain ⟨-, hself, hnew, hothers⟩ := fork_lookup (k := k) hP hchild
  have hcopy := dupMmap_copies s.frefs s.ring s.fresh P.mmap
  constructor
  · intro q Q hQ a i hi
    left
    by_cases hqc : q = child
    · subst hqc
      obtain rfl := Option.some.inj (hnew.symm.trans hQ)
      rw [hcopy.infoAt_eq] at hi
      exact ⟨p, P, a, i, hP, hi, SameBacking.refl i⟩
    · by_cases hqp : q = p
      · subst hqp
        obtain rfl := Option.some.inj (hself.symm.trans hQ)
        exact ⟨q, P, a, i, hP, hi, SameBacking.refl i⟩
      · rw [hothers q hqp hqc] at hQ
        exact ⟨q, Q, a, i, hQ, hi, SameBacking.refl i⟩
  · intro q Q hQ pg pte i hpte hi
    by_cases hqc : q = child
    · subst hqc
      obtain rfl := Option.some.inj (hnew.symm.trans hQ)
      obtain ⟨pte₀, hpte₀, hframe, -⟩ := copyEntries_entry hpte
      rw [hcopy.infoAt_eq] at hi
      exact ⟨p, P, pte₀, i, hP, hpte₀, hframe.symm, hi, SameBacking.refl i⟩
    · by_cases hqp : q = p
      · subst hqp
        obtain rfl := Option.some.inj (hself.symm.trans hQ)
        obtain ⟨pte₀, hpte₀, hframe, -⟩ := writeProtect_entry hpte
        exact ⟨q, P, pte₀, i, hP, hpte₀, hframe.symm, hi, SameBacking.refl i⟩
      · rw [hothers q hqp hqc] at hQ
        exact ⟨q, Q, pte, i, hQ, hpte, rfl, hi, SameBacking.refl i⟩

theorem exit_from (k : Kernel) (p : ℕ) (P : Proc) (io : ℕ → ℕ) (s : Machine) :
    InfosFrom s (doExit k p P io s) none ∧ EntriesFrom s (doExit k p P io s) := by
  constructor
  · intro q Q hQ a i hi
    exact Or.inl ⟨q, Q, a, i, (exit_lookup hQ).2, hi, SameBacking.refl i⟩
  · intro q Q hQ pg pte i hpte hi
    exact ⟨q, Q, pte, i, (exit_lookup hQ).2, hpte, rfl, hi, SameBacking.refl i⟩

/-! ## The invariant -/

/-- Shared areas with one origin are areas of one file, and processes agree on the
frames of those that have none. -/
structure ShareInv (k : Kernel) (s : Machine) : Prop where
  page : PageInv k s
  origins : ∀ p P, s.procs.lookup p = some P → ∀ a i o, infoAt P.mmap a = some i →
    i.origin = some o → o < s.fresh
  kin : ∀ p P, s.procs.lookup p = some P → ∀ q Q, s.procs.lookup q = some Q →
    ∀ a i b j o, infoAt P.mmap a = some i → infoAt Q.mmap b = some j →
      i.origin = some o → j.origin = some o → i.file = j.file
  agree : ∀ p P, s.procs.lookup p = some P → ∀ q Q, s.procs.lookup q = some Q →
    ∀ pg i j o, infoAt P.mmap (pg * pageSize) = some i → infoAt Q.mmap (pg * pageSize) = some j →
      i.origin = some o → j.origin = some o → i.file = none →
      ∀ pte pte', P.pt.lookup pg = some pte → Q.pt.lookup pg = some pte' → pte.frame = pte'.frame

theorem ShareInv.origins_from {new : Option Info} (h : ShareInv k s) (hfrom : InfosFrom s t new)
    (hnew : ∀ i ∈ new, NewInfo s t i) (hfresh : s.fresh ≤ t.fresh) :
    ∀ p P, t.procs.lookup p = some P → ∀ a i o, infoAt P.mmap a = some i → i.origin = some o → o < t.fresh := by
  intro p P hP a i o hi ho
  rcases hfrom p P hP a i hi with ⟨r, R, b, j, hR, hj, hsame⟩ | hmem
  · exact (h.origins r R hR b j o hj (hsame.origin ▸ ho)).trans_le hfresh
  · obtain ⟨rfl, hlt⟩ := (hnew i hmem).origin o ho
    exact hlt

theorem ShareInv.kin_from {new : Option Info} (h : ShareInv k s) (hfrom : InfosFrom s t new)
    (hnew : ∀ i ∈ new, NewInfo s t i) :
    ∀ p P, t.procs.lookup p = some P → ∀ q Q, t.procs.lookup q = some Q →
      ∀ a i b j o, infoAt P.mmap a = some i → infoAt Q.mmap b = some j →
        i.origin = some o → j.origin = some o → i.file = j.file := by
  intro p P hP q Q hQ a i b j o hi hj hio hjo
  rcases hfrom p P hP a i hi with ⟨r, R, a', i', hR, hi', hsame⟩ | hmem
  · have hold := h.origins r R hR a' i' o hi' (hsame.origin ▸ hio)
    rcases hfrom q Q hQ b j hj with ⟨r', R', b', j', hR', hj', hsame'⟩ | hmem'
    · rw [hsame.file, hsame'.file]
      exact h.kin r R hR r' R' hR' a' i' b' j' o hi' hj' (hsame.origin ▸ hio) (hsame'.origin ▸ hjo)
    · have := ((hnew j hmem').origin o hjo).1
      omega
  · have hfreshi := ((hnew i hmem).origin o hio).1
    rcases hfrom q Q hQ b j hj with ⟨r', R', b', j', hR', hj', hsame'⟩ | hmem'
    · have := h.origins r' R' hR' b' j' o hj' (hsame'.origin ▸ hjo)
      omega
    · obtain rfl := Option.some.inj (hmem.symm.trans hmem')
      rfl

theorem ShareInv.of_entries {new : Option Info} (h : ShareInv k s) (hpage : PageInv k t)
    (hinfos : InfosFrom s t new) (hnew : ∀ i ∈ new, NewInfo s t i) (hfresh : s.fresh ≤ t.fresh)
    (hentries : EntriesFrom s t) : ShareInv k t := by
  refine ⟨hpage, h.origins_from hinfos hnew hfresh, h.kin_from hinfos hnew, ?_⟩
  intro p P hP q Q hQ pg i j o hi hj hio hjo hfile pte pte' hpte hpte'
  obtain ⟨r, R, pte₀, i₀, hR, hpte₀, hframe, hi₀, hsame⟩ := hentries p P hP pg pte i hpte hi
  obtain ⟨r', R', pte₁, j₀, hR', hpte₁, hframe', hj₀, hsame'⟩ := hentries q Q hQ pg pte' j hpte' hj
  rw [← hframe, ← hframe']
  exact h.agree r R hR r' R' hR' pg i₀ j₀ o hi₀ hj₀ (hsame.origin ▸ hio) (hsame'.origin ▸ hjo)
    (hsame.file ▸ hfile) pte₀ pte₁ hpte₀ hpte₁

/-! ## Page faults -/

/-- No other process has mapped the page of a shared area with the same origin. -/
def FirstTouch (p : ℕ) (v : Vma) (addr : ℕ) (s : Machine) : Prop :=
  ∀ Q ∈ Table.values (s.procs.erase p), ∀ w ∈ Q.mmap,
    w.vmFlags.shared = true ∧ w.area = v.area ∧ w.Covers addr →
      Q.pt.lookup (addr / pageSize) = none

instance (p : ℕ) (v : Vma) (addr : ℕ) (s : Machine) : Decidable (FirstTouch p v addr s) :=
  inferInstanceAs (Decidable (∀ Q ∈ _, ∀ w ∈ _, _ → _))

/-- The page fault maps a new page of a shared anonymous area. -/
def TouchesAnonymous (P : Proc) (v : Vma) (addr : ℕ) (write : Bool) (ans : Answer) : Prop :=
  faultDenied v (P.pt.lookup (addr / pageSize)).isSome write = false ∧
    P.pt.lookup (addr / pageSize) = none ∧ ans.pt = true ∧
    v.vmFlags.shared = true ∧ v.vmFile = none

instance (P : Proc) (v : Vma) (addr : ℕ) (write : Bool) (ans : Answer) :
    Decidable (TouchesAnonymous P v addr write ans) :=
  inferInstanceAs (Decidable (_ ∧ _))

/-- The steps after which processes agree: a page fault finds its page, and not on the
share ring, and the first process to touch a page of a shared anonymous area is the only
one that has the page. -/
def ShareGood (k : Kernel) (s : Machine) : Label → Prop
  | .call p (.fault addr write ans) =>
      CountGood k s (.plain (.call p (.fault addr write ans))) ∧
        ∀ P ∈ s.procs.lookup p, ∀ vl ∈ faultArea k addr P.mmap,
          TouchesAnonymous P vl.1 addr write ans → FirstTouch p vl.1 addr s
  | _ => True

theorem ShareGood.count {lab : Label} (h : ShareGood k s lab) : CountGood k s (.plain lab) := by
  cases lab with
  | event e => trivial
  | call p c =>
    cases c with
    | fault addr write ans => exact h.1
    | _ => trivial

theorem exists_of_infoAt {l : List Vma} {a : ℕ} {i : Info} (hwf : WellFormed l)
    (h : infoAt l a = some i) : ∃ w ∈ l, w.Covers a ∧ w.info = i :=
  (infoAt_eq_some_iff hwf.apart).mp h

theorem info_origin {v : Vma} {o : ℕ} (h : v.info.origin = some o) : v.vmFlags.shared = true ∧ v.area = o := by
  simp only [Vma.info] at h
  split_ifs at h with hshared
  exact ⟨hshared, Option.some.inj h⟩

/-- The frame that a page fault maps in an area without a file is the one that the other
processes have for the page, if they have one. -/
theorem ShareInv.fault_frame {addr : ℕ} {write : Bool} {ans : Answer} {v : Vma} {l : List Vma}
    {y : PageTable × Memory} {pte : Pte} {o q : ℕ} {Q : Proc} {j : Info} {pte' : Pte}
    (h : ShareInv k s) (hP : s.procs.lookup p = some P)
    (harea : faultArea k addr P.mmap = some (v, l)) (hfound : pageFound k P v addr ans s = true)
    (hdenied : faultDenied v (P.pt.lookup (addr / pageSize)).isSome write = false)
    (hfirst : TouchesAnonymous P v addr write ans → FirstTouch p v addr s)
    (hy : faultPage k P v addr ans s = some y) (hpte : y.1.lookup (addr / pageSize) = some pte)
    (hfile : v.vmFile = none) (ho : v.info.origin = some o) (hqp : q ≠ p) (hQ : s.procs.lookup q = some Q)
    (hj : infoAt Q.mmap (addr / pageSize * pageSize) = some j) (hjo : j.origin = some o)
    (hpte' : Q.pt.lookup (addr / pageSize) = some pte') : pte.frame = pte'.frame := by
  have hok := h.page.procs p P hP
  obtain ⟨hwf, hmem, hvalid, hcovers, -, hkeep, -⟩ := faultArea_spec hok.wf harea
  have hpage := covers_page hvalid hcovers
  obtain ⟨hshared, hvo⟩ := info_origin ho
  have hinfofile : v.info.file = none := by rw [Vma.info, hfile]; rfl
  -- an entry that was there is one of this area, and the processes agreed on it
  have hold : ∀ pte₀, P.pt.lookup (addr / pageSize) = some pte₀ → pte₀.frame = pte'.frame := by
    intro pte₀ hpte₀
    obtain ⟨i, hi, -⟩ := hok.covered _ _ hpte₀
    have hsame : i = v.info := Option.some.inj ((hkeep _ _ hi).symm.trans (infoAt_of_mem hwf.apart hmem hpage))
    subst hsame
    exact h.agree p P hP q Q hQ _ _ j o hi hj ho hjo hinfofile pte₀ pte' hpte₀ hpte'
  rcases faultPage_cases hy hfound with ⟨pte₀, hpte₀, hwp, hneed⟩ | ⟨hnone, hno, hneed⟩
  · rcases doWpPage_spec hwp hneed with ⟨-, rfl⟩ | ⟨hprivate, -⟩
    · simp only [AList.lookup_insert] at hpte
      cases hpte
      exact hold pte₀ hpte₀
    · rw [hshared] at hprivate
      cases hprivate
  · have htouch : ans.pt = true → pte.frame = pte'.frame := by
      intro hpt
      obtain ⟨w, hw, hwc, hwi⟩ := exists_of_infoAt (h.page.procs q Q hQ).wf hj
      subst hwi
      obtain ⟨hwshared, hwo⟩ := info_origin hjo
      have hwvalid := (h.page.procs q Q hQ).wf.valid w hw
      have hother : Q ∈ Table.values (s.procs.erase p) :=
        Table.mem_values.mpr ⟨q, by rw [AList.lookup_erase_ne hqp, hQ]⟩
      have hqnone := hfirst ⟨hdenied, hnone, hpt, hshared, hfile⟩ Q hother w hw
        ⟨hwshared, hwo.trans hvo.symm, covers_of_page hwvalid hwc⟩
      rw [hpte'] at hqnone
      cases hqnone
    cases hpt : ans.pt with
    | true => exact htouch hpt
    | false =>
      simp only [doNoPage, hpt, if_true, Option.some.injEq] at hno
      subst hno
      exact hold pte hpte

theorem ShareInv.fault {addr : ℕ} {write : Bool} {ans : Answer} {v : Vma} {l : List Vma}
    {y : PageTable × Memory} (h : ShareInv k s) (hP : s.procs.lookup p = some P)
    (harea : faultArea k addr P.mmap = some (v, l)) (hfound : pageFound k P v addr ans s = true)
    (hdenied : faultDenied v (P.pt.lookup (addr / pageSize)).isSome write = false)
    (hfirst : TouchesAnonymous P v addr write ans → FirstTouch p v addr s) (hy : faultPage k P v addr ans s = some y)
    (hpage : PageInv k (s.setProc p { P with mmap := l, pt := y.1 } y.2)) :
    ShareInv k (s.setProc p { P with mmap := l, pt := y.1 } y.2) := by
  have hok := h.page.procs p P hP
  obtain ⟨hwf, hmem, hvalid, hcovers, -, hkeep, -⟩ := faultArea_spec hok.wf harea
  have hinfo := infoAt_of_mem hwf.apart hmem (covers_page hvalid hcovers)
  have hgrown : InfosFrom s (s.setProc p { P with mmap := l, pt := y.1 } y.2) none := by
    intro q Q hQ a i hi
    left
    by_cases hqp : q = p
    · subst hqp
      obtain rfl := Option.some.inj ((lookup_insert_self rfl).symm.trans hQ)
      obtain ⟨b, j, hj, hsame⟩ := faultArea_infos hok harea a i hi
      exact ⟨q, P, b, j, hP, hj, hsame⟩
    · rw [lookup_insert_others rfl q hqp] at hQ
      exact ⟨q, Q, a, i, hQ, hi, SameBacking.refl i⟩
  have hkin := h.kin_from hgrown fun i hi => by cases hi
  refine ⟨hpage, h.origins_from hgrown (fun i hi => by cases hi) le_rfl, hkin, ?_⟩
  -- every entry but the new one was there before
  have hold : ∀ q Q, (s.setProc p { P with mmap := l, pt := y.1 } y.2).procs.lookup q = some Q →
      ∀ pg i pte, q ≠ p ∨ pg ≠ addr / pageSize → Q.pt.lookup pg = some pte →
        infoAt Q.mmap (pg * pageSize) = some i →
        ∃ R, s.procs.lookup q = some R ∧ R.pt.lookup pg = some pte ∧ infoAt R.mmap (pg * pageSize) = some i := by
    intro q Q hQ pg i pte hne hpte hi
    by_cases hqp : q = p
    · subst hqp
      obtain rfl := Option.some.inj ((lookup_insert_self rfl).symm.trans hQ)
      have hpte₀ : P.pt.lookup pg = some pte := by
        rw [← faultPage_lookup hok harea hfound hy (hne.resolve_left fun h => h rfl)]
        exact hpte
      obtain ⟨i₀, hi₀, -⟩ := hok.covered pg pte hpte₀
      obtain rfl := Option.some.inj ((hkeep _ _ hi₀).symm.trans hi)
      exact ⟨P, hP, hpte₀, hi₀⟩
    · rw [lookup_insert_others rfl q hqp] at hQ
      exact ⟨Q, hQ, hpte, hi⟩
  -- the new entry stands for the frame that another process has for the page
  have hfault : ∀ q Q, q ≠ p →
      (s.setProc p { P with mmap := l, pt := y.1 } y.2).procs.lookup q = some Q → ∀ i j o pte pte',
        infoAt l (addr / pageSize * pageSize) = some i →
        infoAt Q.mmap (addr / pageSize * pageSize) = some j → i.origin = some o →
        j.origin = some o → i.file = none → y.1.lookup (addr / pageSize) = some pte →
        Q.pt.lookup (addr / pageSize) = some pte' → pte.frame = pte'.frame := by
    intro q Q hqp hQ i j o pte pte' hi hj hio hjo hfile hpte hpte'
    obtain rfl := Option.some.inj (hinfo.symm.trans hi)
    rw [lookup_insert_others rfl q hqp] at hQ
    have hvfile : v.vmFile = none := by simpa [Vma.info] using hfile
    exact h.fault_frame hP harea hfound hdenied hfirst hy hpte hvfile hio hqp hQ hj hjo hpte'
  intro q Q hQ r R hR pg i j o hi hj hio hjo hfile pte pte' hpte hpte'
  by_cases hnew : pg = addr / pageSize ∧ (q = p ∨ r = p)
  · obtain ⟨rfl, hp⟩ := hnew
    by_cases hqp : q = p
    · subst hqp
      by_cases hrq : r = q
      · subst hrq
        obtain rfl := Option.some.inj (hQ.symm.trans hR)
        rw [Option.some.inj (hpte.symm.trans hpte')]
      · obtain rfl := Option.some.inj ((lookup_insert_self rfl).symm.trans hQ)
        exact hfault r R hrq hR i j o pte pte' hi hj hio hjo hfile hpte hpte'
    · obtain rfl := hp.resolve_left hqp
      obtain rfl := Option.some.inj ((lookup_insert_self rfl).symm.trans hR)
      have hjfile : j.file = none := by
        rw [← hkin q Q hQ r _ hR _ i _ j o hi hj hio hjo]
        exact hfile
      exact (hfault q Q hqp hQ j i o pte' pte hj hi hjo hio hjfile hpte' hpte).symm
  · have hq : q ≠ p ∨ pg ≠ addr / pageSize := by tauto
    have hr : r ≠ p ∨ pg ≠ addr / pageSize := by tauto
    obtain ⟨Q₀, hQ₀, hpte₀, hi₀⟩ := hold q Q hQ pg i pte hq hpte hi
    obtain ⟨R₀, hR₀, hpte₁, hj₀⟩ := hold r R hR pg j pte' hr hpte' hj
    exact h.agree q Q₀ hQ₀ r R₀ hR₀ pg i j o hi₀ hj₀ hio hjo hfile pte pte' hpte₀ hpte₁

/-! ## Runs -/

theorem ShareInv.call {c : Call} (h : ShareInv k s) (hP : s.procs.lookup p = some P)
    (hgood : ShareGood k s (.call p c)) (hstep : execCall k p P s c = some t) : ShareInv k t := by
  have hok := h.page.procs p P hP
  have hpage := h.page.call hP hgood.count hstep
  have hnone : ∀ i ∈ (none : Option Info), NewInfo s t i := fun i hi => by cases hi
  rcases execCall_cases hok hP hgood.count hstep with ⟨P', hn, -⟩ |
    ⟨addr, write, ans, v, l, y, rfl, harea, hdenied, hfound, hy, rfl⟩ |
    ⟨child, rfl, hchild, rfl⟩ | ⟨io, rfl, rfl⟩
  · obtain ⟨new, hnew, hinfos⟩ := hn.infosFrom hP
    exact h.of_entries hpage hinfos hnew hn.fresh (hn.entriesFrom hok hP)
  · exact h.fault hP harea hfound hdenied (hgood.2 P hP (v, l) harea) hy hpage
  · obtain ⟨hinfos, hentries⟩ := fork_from (k := k) hP hchild
    exact h.of_entries hpage hinfos hnone (Nat.le_add_right ..) hentries
  · obtain ⟨hinfos, hentries⟩ := exit_from k p P io s
    exact h.of_entries hpage hinfos hnone le_rfl hentries

theorem ShareInv.step {lab : Label} (h : ShareInv k s) (hgood : ShareGood k s lab)
    (hstep : Step k s lab t) : ShareInv k t := by
  cases lab with
  | call p c =>
    obtain ⟨P, hP, hcall⟩ := Option.bind_eq_some_iff.mp hstep
    exact h.call hP hgood hcall
  | event e =>
    have hpage := h.page.step hgood.count hstep
    obtain ⟨m, hm, rfl⟩ := Option.map_eq_some_iff.mp hstep
    have hnone : ∀ i ∈ (none : Option Info), NewInfo s { s with mem := m } i :=
      fun i hi => by cases hi
    exact h.of_entries hpage (InfosFrom.refl rfl) hnone le_rfl (EntriesFrom.refl rfl)

theorem Initial.shareInv (h : Initial k s) : ShareInv k s := by
  have hempty : ∀ p P, s.procs.lookup p = some P → ∀ a i, infoAt P.mmap a ≠ some i := by
    intro p P hP a i hi
    rw [(h.unmapped p P hP).1] at hi
    cases hi
  refine ⟨h.pageInv, ?_, ?_, ?_⟩
  · intro p P hP a i o hi
    exact absurd hi (hempty p P hP a i)
  · intro p P hP q Q hQ a i b j o hi
    exact absurd hi (hempty p P hP a i)
  · intro p P hP q Q hQ pg i j o hi
    exact absurd hi (hempty p P hP _ i)

/-- Two processes with copies of one shared area have the same frame for each page of it
that both have mapped. -/
def SharedAgree (s : Machine) : Prop :=
  ∀ p P q Q, s.procs.lookup p = some P → s.procs.lookup q = some Q →
    ∀ v ∈ P.mmap, ∀ w ∈ Q.mmap, v.vmFlags.shared = true → w.vmFlags.shared = true →
      v.area = w.area → ∀ addr, v.Covers addr → w.Covers addr →
        ∀ pte pte', P.pt.lookup (addr / pageSize) = some pte →
          Q.pt.lookup (addr / pageSize) = some pte' → pte.frame = pte'.frame

theorem ShareInv.sharedAgree (h : ShareInv k s) : SharedAgree s := by
  intro p P q Q hP hQ v hv w hw hvs hws harea addr hva hwa pte pte' hpte hpte'
  have hPok := h.page.procs p P hP
  have hQok := h.page.procs q Q hQ
  have hvi := infoAt_of_mem hPok.wf.apart hv (covers_page (hPok.wf.valid v hv) hva)
  have hwi := infoAt_of_mem hQok.wf.apart hw (covers_page (hQok.wf.valid w hw) hwa)
  have hvo : v.info.origin = some v.area := by simp only [Vma.info, hvs, if_true]
  have hwo : w.info.origin = some v.area := by simp only [Vma.info, hws, harea, if_true]
  have hkin := h.kin p P hP q Q hQ _ _ _ _ _ hvi hwi hvo hwo
  cases hfile : v.info.file with
  | none => exact h.agree p P hP q Q hQ _ _ _ _ hvi hwi hvo hwo hfile pte pte' hpte hpte'
  | some fb =>
    -- both frames are the one that the page cache has
    obtain ⟨f, b⟩ := fb
    obtain ⟨i, hi, hback⟩ := hPok.covered _ _ hpte
    obtain ⟨j, hj, hback'⟩ := hQok.covered _ _ hpte'
    obtain rfl := Option.some.inj (hvi.symm.trans hi)
    obtain rfl := Option.some.inj (hwi.symm.trans hj)
    obtain ⟨ino, hino, hlook⟩ := hback hvs f b hfile
    obtain ⟨ino', hino', hlook'⟩ := hback' hws f b (hkin ▸ hfile)
    obtain rfl := Option.some.inj (hino.symm.trans hino')
    exact Option.some.inj (hlook.symm.trans hlook')

/-- The step is a page fault of `p` that maps a new page of an area of a file. -/
structure FileFault (k : Kernel) (s : Machine) (p addr : ℕ) (write : Bool) (ans : Answer) (v : Vma)
    (t : Machine) : Prop where
  step : Step k s (.call p (.fault addr write ans)) t
  area : ∃ P l, s.procs.lookup p = some P ∧ faultArea k addr P.mmap = some (v, l) ∧
    P.pt.lookup (addr / pageSize) = none
  allowed : faultDenied v false write = false
  ops : v.vmOps ≠ none
  table : ans.pt = true

/-- The step has mapped the frame for `p`, and taken a reference on it. -/
def Installed (p addr f : ℕ) (s t : Machine) : Prop :=
  ∃ P pte, t.procs.lookup p = some P ∧ P.pt.lookup (addr / pageSize) = some pte ∧
    pte.frame = f ∧ t.mem.pool.count f = s.mem.pool.count f + 1

theorem crossed_ne (f : ℕ) : crossed f ≠ f := by
  simp only [crossed, kernelFrames]
  omega

/-- A frame of the share ring is not the one that `do_no_page` maps. -/
theorem FileFault.not_installed {addr f : ℕ} {write : Bool} {ans : Answer} {v : Vma}
    (h : FileFault k s p addr write ans v t) (hfound : getSharedPage k s v addr = some f) :
    ¬ Installed p addr f s t := by
  obtain ⟨P, l, hP, harea, hnone⟩ := h.area
  obtain ⟨ops, hops⟩ := Option.ne_none_iff_exists'.mp h.ops
  obtain ⟨Q, hQ, hcall⟩ := Option.bind_eq_some_iff.mp h.step
  obtain rfl := Option.some.inj (hP.symm.trans hQ)
  simp only [execCall] at hcall
  split_ifs at hcall
  simp only [doPageFault, harea, hnone, Option.isSome_none, h.allowed, Bool.false_eq_true,
    if_false, faultPage, doNoPage, h.table, hops, hfound, Bool.true_eq_false,
    Option.map_some, Option.some.injEq] at hcall
  subst hcall
  rintro ⟨P', pte, hP', hpte, hframe, -⟩
  obtain rfl := Option.some.inj ((lookup_insert_self rfl).symm.trans hP')
  rw [AList.lookup_insert] at hpte
  obtain rfl := Option.some.inj hpte
  exact crossed_ne f hframe

/-- In every run whose page faults find their pages, none of them on the share ring, and
in which a page of a shared anonymous area is first touched by a process that is the
only one to have it: processes agree on the frames of the shared areas that they have
inherited. A page fault on an area of a file maps the frame that `get_shared_page` finds
only when it finds none. -/
theorem shared_frames_agree (k : Kernel) (s₀ : Machine) (hinit : Initial k s₀) (labs : List Label)
    (s : Machine) (hrun : Run (Guarded (ShareGood k) (Step k)) s₀ labs s) :
    SharedAgree s ∧
      ∀ p addr write ans v t, FileFault k s p addr write ans v t →
        ((∀ f, getSharedPage k s v addr = some f → Installed p addr f s t) ↔
          getSharedPage k s v addr = none) := by
  have h : ShareInv k s := hrun.invariant hinit.shareInv fun hinv hstep =>
    hinv.step hstep.1 hstep.2
  refine ⟨h.sharedAgree, fun p addr write ans v t hfault => ?_⟩
  constructor
  · intro hinstalled
    cases hfound : getSharedPage k s v addr with
    | none => rfl
    | some f => exact absurd (hinstalled f hfound) (hfault.not_installed hfound)
  · intro hnone f hf
    rw [hnone] at hf
    cases hf

instance (k : Kernel) (s : Machine) : ∀ lab, Decidable (ShareGood k s lab)
  | .call _ (.fault ..) => inferInstanceAs (Decidable (_ ∧ ∀ P ∈ _, ∀ vl ∈ _, _ → _))
  | .call _ (.store ..) => isTrue trivial
  | .call _ (.mmap ..) => isTrue trivial
  | .call _ (.munmap ..) => isTrue trivial
  | .call _ (.mprotect ..) => isTrue trivial
  | .call _ (.msync ..) => isTrue trivial
  | .call _ (.fork ..) => isTrue trivial
  | .call _ (.exit ..) => isTrue trivial
  | .call _ (.setFd ..) => isTrue trivial
  | .event _ => isTrue trivial

/-- A page of a shared anonymous area is touched, and then inherited. -/
def inheritRun : List Label :=
  [.call 0 (mapPage 1), .call 0 (touchPage (some 16)), .call 0 (.fork 1 .ok)]

theorem inheritRun_replays : (replay (ShareGood bootKernel) (exec bootKernel) bootMachine inheritRun).isSome := by
  decide +kernel

theorem shared_frames_agree_inheritRun :
    Initial bootKernel bootMachine ∧ ∃ s,
      Run (Guarded (ShareGood bootKernel) (Step bootKernel)) bootMachine inheritRun s ∧
      (∀ p ∈ [0, 1], ((s.procs.lookup p).bind fun P => (P.pt.lookup 1).map Pte.frame) = some 16) ∧
      SharedAgree s := by
  have hrun : Run (Guarded (ShareGood bootKernel) (Step bootKernel)) bootMachine inheritRun
      ((replay (ShareGood bootKernel) (exec bootKernel) bootMachine inheritRun).get
        inheritRun_replays) := run_of_replay (Option.some_get inheritRun_replays).symm
  exact ⟨bootMachine_initial, _, hrun, by decide +kernel,
    (shared_frames_agree bootKernel bootMachine bootMachine_initial _ _ hrun).1⟩

/-- A page is mapped, inherited and touched by the parent, and perhaps by the child. -/
def touchRun (map : Call) (child : List Label) : List Label :=
  [.call 0 map, .call 0 (.fork 1 .ok), .call 0 (touchPage (some 16))] ++ child

/-- The area that process `ptr - 1` has after these calls. -/
def touchedArea (file inode : Option ℕ) (ops : Option VmOps) (ptr : ℕ) : Vma :=
  { ptr := ptr, vmStart := 0x1000, vmEnd := 0x2000, vmFlags := ⟨true, true, false, true, false⟩
    vmPageProt := ⟨true, true⟩, vmFile := file, vmInode := inode, vmOffset := 0, vmOps := ops
    area := 1 }

/-- Parent and child touch a page of a shared anonymous area. -/
theorem anonymous_frames_differ :
    ¬ ∀ (k : Kernel) (s₀ : Machine), Initial k s₀ → ∀ labs s, Run (Step k) s₀ labs s → SharedAgree s := by
  intro h
  have hagree := h bootKernel bootMachine bootMachine_initial
    (touchRun (mapPage 1) [.call 1 (touchPage (some 17))]) _ (run_reachedBy (by decide +kernel))
  have hframes := hagree 0 _ 1 _ (lookup_procOf (by decide +kernel))
    (lookup_procOf (by decide +kernel)) (touchedArea none none none 1) (by decide +kernel)
    (touchedArea none none none 2) (by decide +kernel) rfl rfl rfl 0x1000 (by decide) (by decide)
    ⟨16, true, true, false⟩ ⟨17, true, true, false⟩ (by decide +kernel) (by decide +kernel)
  exact absurd hframes (by decide)

/-- The child touches a page of a file that the parent has mapped. -/
theorem ring_frame_differs :
    ¬ ∀ (k : Kernel) (s₀ : Machine), Initial k s₀ → ∀ labs s, Run (Step k) s₀ labs s →
      ∀ p addr write ans v t, FileFault k s p addr write ans v t →
        ∀ f, getSharedPage k s v addr = some f → Installed p addr f s t := by
  intro h
  have hrun : Run (Step bootKernel) bootMachine (touchRun (mapFilePage 3) [])
      (reachedBy (touchRun (mapFilePage 3) [])) := run_reachedBy (by decide +kernel)
  obtain ⟨t, ht⟩ : ∃ t, exec bootKernel (reachedBy (touchRun (mapFilePage 3) []))
      (.call 1 (touchPage (some 17))) = some t :=
    Option.isSome_iff_exists.mp (by decide +kernel)
  have hfault : FileFault bootKernel (reachedBy (touchRun (mapFilePage 3) [])) 1 0x1000 true
      ⟨true, some 17⟩ (touchedArea (some 7) (some 1) (some .fileShared) 2) t :=
    { step := ht
      area := ⟨_, [touchedArea (some 7) (some 1) (some .fileShared) 2],
        lookup_procOf (by decide +kernel), by decide +kernel, by decide +kernel⟩
      allowed := rfl
      ops := by decide
      table := rfl }
  have hfound : getSharedPage bootKernel (reachedBy (touchRun (mapFilePage 3) []))
      (touchedArea (some 7) (some 1) (some .fileShared) 2) 0x1000 = some 16 := by
    decide +kernel
  exact hfault.not_installed hfound (h bootKernel bootMachine bootMachine_initial _ _ hrun 1 0x1000
    true _ _ t hfault 16 hfound)

/-- Both halves fail when the condition on the page faults is dropped. -/
theorem shared_frames_differ :
    (¬ ∀ (k : Kernel) (s₀ : Machine), Initial k s₀ → ∀ labs s, Run (Step k) s₀ labs s →
      SharedAgree s) ∧
    ¬ ∀ (k : Kernel) (s₀ : Machine), Initial k s₀ → ∀ labs s, Run (Step k) s₀ labs s →
      ∀ p addr write ans v t, FileFault k s p addr write ans v t →
        ∀ f, getSharedPage k s v addr = some f → Installed p addr f s t :=
  ⟨anonymous_frames_differ, ring_frame_differs⟩

end Mario.Paging
