import Mario.Fs.ExecImage
import Mathlib.Data.List.TakeWhile

/-!
# What the segments of a new program show

The segments are mapped one over the other and the stack over them all, so the bytes of a segment
are seen when its own mappings are made and nothing covers them later. Behind `p_filesz` a
file-backed page shows the bytes that follow in the file, and only whole pages behind it are
anonymous. Where an argument page or the stack page is there and its area is not, it is what shows.
-/

namespace Mario.Fs.Exec

open Mario.Lib Mario.Mm Mario.Paging

/-! ## One call -/

/-- `do_mmap` makes the mapping, if it gets memory. -/
structure Granted (p : Program) (c : MmapArgs) : Prop where
  nonempty : pageAlign c.len ≠ 0
  fits : c.addr + pageAlign c.len ≤ kernelBase
  file : c.anonymous = false →
    p.mmap = true ∧ c.off % pageSize = 0 ∧ c.off + pageAlign c.len < wordSize

instance (p : Program) (c : MmapArgs) : Decidable (Granted p c) :=
  decidable_of_iff (pageAlign c.len ≠ 0 ∧ c.addr + pageAlign c.len ≤ kernelBase ∧
    (c.anonymous = false → p.mmap = true ∧ c.off % pageSize = 0 ∧ c.off + pageAlign c.len < wordSize))
    ⟨fun ⟨h₁, h₂, h₃⟩ => ⟨h₁, h₂, h₃⟩, fun ⟨h₁, h₂, h₃⟩ => ⟨h₁, h₂, h₃⟩⟩

/-- The form of the calls of `exec`. -/
structure ExecCall (p : Program) (c : MmapArgs) : Prop where
  fixed : c.fixed = true
  type : c.type = 2
  aligned : c.addr % pageSize = 0
  off_lt : c.off < wordSize
  fd : if c.anonymous then c.fd = wordSize - 1 else c.fd = p.fd

/-- The file that a call maps. -/
def callFile (p : Program) (c : MmapArgs) : Option ℕ := if c.anonymous then none else some p.file

theorem ExecCall.mmapFile {p : Program} {c : MmapArgs} (h : ExecCall p c) : mmapFile p.fds c = .ok (callFile p c) := by
  have hfd := h.fd
  unfold Mm.mmapFile callFile
  cases hanon : c.anonymous with
  | true =>
    rw [hanon, if_pos rfl] at hfd
    rw [if_pos rfl, if_pos rfl, if_pos hfd]
  | false =>
    rw [hanon, if_neg Bool.false_ne_true] at hfd
    rw [if_neg Bool.false_ne_true, if_neg Bool.false_ne_true, hfd, if_pos p.fd_lt]
    simp only [Program.fds, if_true]

theorem ExecCall.checkType {p : Program} {c : MmapArgs} (h : ExecCall p c) :
    Mm.checkType p.files c (callFile p c) = .ok () := by
  have hreadable : (callFile p c).all (fun f => (p.files f).fMode.testBit 0) = true := by
    unfold callFile
    split_ifs
    · rfl
    · simp [Program.files]
  simp only [Mm.checkType, h.type, hreadable, if_true, if_neg (show ¬ (2 : ℕ) = 1 by decide)]

theorem ExecCall.checkFile_iff {p : Program} {c : MmapArgs} (h : ExecCall p c) :
    Mm.checkFile p.files c (callFile p c) = .ok () ↔ (c.anonymous = false →
      p.mmap = true ∧ c.off % pageSize = 0 ∧ c.off + pageAlign c.len < wordSize) := by
  have hlt := pageAlign_lt c.len
  have hoff := h.off_lt
  unfold callFile Mm.checkFile
  cases hanon : c.anonymous with
  | true => simp
  | false =>
    simp only [Bool.false_eq_true, if_false, forall_const]
    cases hmmap : p.mmap with
    | false => simp [Program.files, hmmap]
    | true =>
      simp only [Program.files, hmmap, Option.any_some, Bool.not_true, Bool.false_eq_true, if_false, true_and]
      unfold wordSize at *
      split_ifs with halign hover
      · simp [halign]
      · simp only [false_iff]
        omega
      · simp only [true_iff]
        omega

theorem ExecCall.checkMmap_iff {p : Program} {c : MmapArgs} (h : ExecCall p c) :
    checkMmap p.files p.fds c = .ok (callFile p c) ↔ Granted p c := by
  have hunfold : checkMmap p.files p.fds c =
      if pageAlign c.len = 0 then .error .EINVAL
      else if kernelBase < c.addr ∨ kernelBase < pageAlign c.len ∨
        kernelBase - pageAlign c.len < c.addr then .error .EINVAL
      else (Mm.checkFile p.files c (callFile p c)).bind fun _ => .ok (callFile p c) := by
    rw [checkMmap, h.mmapFile]
    simp only [Except.bind, h.checkType, h.aligned, ne_eq, not_true_eq_false, and_false, if_false]
  rw [hunfold]
  constructor
  · intro hok
    split_ifs at hok with hzero hrange
    refine ⟨hzero, by omega, h.checkFile_iff.mp ?_⟩
    cases hfile : Mm.checkFile p.files c (callFile p c) with
    | error e =>
      rw [hfile] at hok
      cases hok
    | ok u => rfl
  · intro hgranted
    have hfits := hgranted.fits
    rw [if_neg hgranted.nonempty, if_neg (by omega), h.checkFile_iff.mpr hgranted.file]
    rfl

theorem ExecCall.mmapArea_isOk {p : Program} {c : MmapArgs} (h : ExecCall p c)
    (hgranted : Granted p c) (v : Vma) (hv : v.vmFlags = c.vmFlags) :
    ∃ w, mmapArea p.files (callFile p c) v = .ok w := by
  unfold callFile mmapArea
  cases hanon : c.anonymous with
  | true => exact ⟨v, rfl⟩
  | false =>
    obtain ⟨hmmap, -⟩ := hgranted.file hanon
    have hshared : v.vmFlags.shared = false := by
      rw [hv]
      simp [MmapArgs.vmFlags, h.type]
    simp [genericFileMmap, Program.files, hmmap, hshared]

theorem ExecCall.doMmap {p : Program} {c : MmapArgs} (h : ExecCall p c) {s : Space}
    {others : ℕ → ℤ} (hwf : WellFormed s.mmap) (howns : OwnsFiles others s) (kzalloc : Bool) :
    ∃ s' r, Mm.doMmap p.files p.fds c kzalloc s = some (s', r) ∧ WellFormed s'.mmap ∧
      OwnsFiles others s' ∧
      if kzalloc = true ∧ Granted p c then
        r = .ok c.addr ∧ view s'.mmap =
          defineRange c.addr (c.addr + pageAlign c.len) (c.requested (callFile p c)) (view s.mmap)
      else (∃ e, r = .error e) ∧ view s'.mmap = view s.mmap := by
  obtain ⟨s', r, hdo, hwf', howns', hview⟩ := doMmap_fixed_spec hwf howns h.fixed h.off_lt kzalloc
  refine ⟨s', r, hdo, hwf', howns', ?_⟩
  split_ifs with hok
  · obtain ⟨rfl, hgranted⟩ := hok
    -- the call passes the checks, so it returns what the file's `mmap` operation lets it
    have hr : ∃ x, r = .ok x := by
      rw [Mm.doMmap, h.checkMmap_iff.mpr hgranted] at hdo
      simp only [h.fixed, if_true] at hdo
      obtain ⟨r₁, -, hfinish⟩ := Option.bind_eq_some_iff.mp hdo
      obtain ⟨w, hw⟩ := h.mmapArea_isOk hgranted (allocVma c c.addr (callFile p c) s.fresh) rfl
      rw [finishMmap, hw] at hfinish
      obtain ⟨l, -, hl⟩ := Option.map_eq_some_iff.mp hfinish
      cases hl
      exact ⟨_, rfl⟩
    obtain ⟨x, rfl⟩ := hr
    obtain ⟨rfl, file, hfile, hmap⟩ := hview x rfl
    obtain rfl : callFile p c = file := Except.ok.inj (h.mmapFile.symm.trans hfile)
    refine ⟨rfl, hmap.trans (funext fun a => ?_)⟩
    simp only [defineRange, removeRange]
    split_ifs with hin
    · rfl
    · rfl
  · have hsame : Mm.doMmap p.files p.fds c kzalloc s = some (s', r) → s' = s ∧ ∃ e, r = .error e := by
      intro hdo
      rw [Mm.doMmap] at hdo
      cases hcheck : checkMmap p.files p.fds c with
      | error e =>
        rw [hcheck] at hdo
        cases hdo
        exact ⟨rfl, e, rfl⟩
      | ok file =>
        obtain rfl : callFile p c = file :=
          Except.ok.inj (h.mmapFile.symm.trans (checkMmap_ok hcheck).file_eq)
        have hgranted := h.checkMmap_iff.mp hcheck
        have hkz : kzalloc = false := by
          by_contra hne
          exact hok ⟨Bool.not_eq_false _ ▸ hne, hgranted⟩
        subst hkz
        rw [hcheck] at hdo
        simp only [h.fixed, if_true, Bool.false_eq_true, if_false] at hdo
        cases hdo
        exact ⟨rfl, _, rfl⟩
    obtain ⟨rfl, herr⟩ := hsame hdo
    exact ⟨herr, rfl⟩

/-! ## All calls -/

/-- The call makes its mapping. -/
def Makes (p : Program) (e : MapEnv) (c : ℕ × MmapArgs) : Prop :=
  e.memory c.1 c.2 0 = true ∧ Granted p c.2

instance (p : Program) (e : MapEnv) (c : ℕ × MmapArgs) : Decidable (Makes p e c) :=
  inferInstanceAs (Decidable (_ ∧ _))

/-- The call maps the address. -/
def Takes (p : Program) (e : MapEnv) (c : ℕ × MmapArgs) (a : ℕ) : Prop := Makes p e c ∧ Covers c a

theorem Takes.lt {p : Program} {e : MapEnv} {c : ℕ × MmapArgs} {a : ℕ} (h : Takes p e c a) :
    a < kernelBase := h.2.2.trans_le h.1.2.fits

/-- What a list of calls leaves: every address shows what the last call that maps it asks for. -/
structure After (p : Program) (e : MapEnv) (calls : List (ℕ × MmapArgs)) (m : Mapping) : Prop where
  wf : WellFormed m.space.mmap
  owns : OwnsFiles e.frefs m.space
  made : m.made = calls.filter fun c => Makes p e c
  view : ∀ a, view m.space.mmap a =
    (overlay Covers m.made a).map fun c => c.2.requested (callFile p c.2) a

section

variable {p : Program} {e : MapEnv} {calls done : List (ℕ × MmapArgs)} {m m' : Mapping}

theorem After.start (p : Program) (e : MapEnv) : After p e [] ⟨⟨[], e.fresh, e.frefs⟩, [], fun _ => none⟩ where
  wf := ⟨List.Pairwise.nil, fun v hv => by cases hv⟩
  owns := fun f => by simp [fileUses]
  made := rfl
  view := fun a => rfl

/-- A call adds its mapping, and touches no page outside of it. -/
theorem After.call (h : After p e done m) {c : ℕ × MmapArgs} (hc : ExecCall p c.2)
    (hcall : mapCall p e m c = some m') :
    After p e (done ++ [c]) m' ∧ ∀ a, ¬ Takes p e c a → m'.present a = m.present a := by
  obtain ⟨⟨s', r⟩, hscarce, rfl⟩ := Option.map_eq_some_iff.mp hcall
  obtain ⟨s'', r'', hdo, hwf, howns, hcases⟩ :=
    hc.doMmap h.wf h.owns (e.memory c.1 c.2 (m.space.fresh - m.space.fresh))
  obtain ⟨rfl, rfl⟩ := Prod.mk.inj (Option.some.inj ((Scarce.doMmap_some h.wf hscarce).symm.trans hdo))
  rw [Nat.sub_self] at hcases
  split_ifs at hcases with hmakes
  · obtain ⟨rfl, hview⟩ := hcases
    have hmakes : Makes p e c := hmakes
    refine ⟨⟨hwf, howns, by simp [h.made, hmakes], fun a => ?_⟩, fun a htakes => ?_⟩
    · dsimp only
      rw [hview, overlay_snoc, defineRange]
      by_cases hin : c.2.addr ≤ a ∧ a < c.2.addr + pageAlign c.2.len
      · rw [if_pos hin, if_pos (show Covers c a from hin)]
        rfl
      · rw [if_neg hin, if_neg (show ¬ Covers c a from hin), h.view a]
    · have hout : ¬ (c.2.addr ≤ a ∧ a < c.2.addr + pageAlign c.2.len) := fun hin => htakes ⟨hmakes, hin⟩
      dsimp only
      split_ifs
      · rw [removeRange, if_neg hout]
      · rfl
  · obtain ⟨⟨err, rfl⟩, hview⟩ := hcases
    have hmakes : ¬ Makes p e c := hmakes
    exact ⟨⟨hwf, howns, by simp [h.made, hmakes], fun a => by rw [hview]; exact h.view a⟩, fun _ _ => rfl⟩

theorem After.run (h : After p e done m) (hcalls : ∀ c ∈ calls, ExecCall p c.2)
    (hfold : calls.foldlM (mapCall p e) m = some m') :
    After p e (done ++ calls) m' ∧ ∀ a, (∀ c ∈ calls, ¬ Takes p e c a) → m'.present a = m.present a := by
  induction calls generalizing done m with
  | nil =>
    cases hfold
    rw [List.append_nil]
    exact ⟨h, fun _ _ => rfl⟩
  | cons c calls ih =>
    rw [List.foldlM_cons] at hfold
    obtain ⟨m₁, hcall, hrest⟩ := Option.bind_eq_some_iff.mp hfold
    obtain ⟨h₁, hsame₁⟩ := h.call (hcalls c List.mem_cons_self) hcall
    obtain ⟨h', hsame⟩ := ih h₁ (fun d hd => hcalls d (List.mem_cons_of_mem _ hd)) hrest
    rw [List.append_assoc] at h'
    refine ⟨h', fun a hout => ?_⟩
    rw [hsame a fun d hd => hout d (List.mem_cons_of_mem _ hd), hsame₁ a (hout c List.mem_cons_self)]

/-- The loop of `do_exec` makes its calls one after the other, if all segments are aligned. -/
theorem mapHeaders_eq (p : Program) (e : MapEnv) (l : List (Phdr × ℕ)) (m : Mapping) :
    l.foldlM (mapHeader p e) m =
      if ∀ h ∈ l, PageAligned h.1.pVaddr then
        (l.flatMap fun h => (segmentCalls p.fd h.1).map fun c => (h.2, c)).foldlM (mapCall p e) m
      else none := by
  induction l generalizing m with
  | nil => simp
  | cons h l ih =>
    simp only [List.foldlM_cons, List.forall_mem_cons, List.flatMap_cons, List.foldlM_append, List.foldlM_map,
      mapHeader]
    by_cases haligned : PageAligned h.1.pVaddr
    · simp only [haligned, if_true, true_and, ih]
      by_cases hrest : ∀ g ∈ l, PageAligned g.1.pVaddr
      · simp only [if_pos hrest]
      · simp only [if_neg hrest]
        cases (segmentCalls p.fd h.1).foldlM (fun m c => mapCall p e m (h.2, c)) m with
        | none => rfl
        | some m₁ => rfl
    · simp [haligned]

theorem mapSegments_eq (p : Program) (e : MapEnv) (l : List Phdr) : mapSegments p e l =
    if ∀ h ∈ l, PageAligned h.pVaddr then
      (loadCalls p.fd l).foldlM (mapCall p e) ⟨⟨[], e.fresh, e.frefs⟩, [], fun _ => none⟩
    else none := by
  have hiff : (∀ h ∈ l.zipIdx, PageAligned h.1.pVaddr) ↔ ∀ h ∈ l, PageAligned h.pVaddr := by
    constructor
    · intro hall h hh
      obtain ⟨i, hi⟩ := List.getElem?_of_mem hh
      exact hall (h, i) (List.mk_mem_zipIdx_iff_getElem?.mpr hi)
    · exact fun hall h hh => hall h.1 (List.fst_mem_of_mem_zipIdx hh)
  rw [mapSegments, mapHeaders_eq]
  simp only [hiff]
  rfl

end

/-! ## The calls for a header -/

theorem mod_of_pageAligned {x : ℕ} (h : PageAligned x) : x % pageSize = 0 := by
  unfold PageAligned at h
  rw [← h, pageAlign]
  exact Nat.mul_mod_left ..

theorem testBit_fixed_private : Nat.testBit 0x12 5 = false := by decide

theorem testBit_fixed_anonymous : Nat.testBit 0x32 5 = true := by decide

theorem execCall_file (p : Program) {addr len prot off : ℕ} (haddr : addr % pageSize = 0)
    (hoff : off < wordSize) : ExecCall p ⟨addr, len, prot, 0x12, p.fd, off⟩ where
  fixed := show Nat.testBit 0x12 4 = true by decide
  type := show 0x12 % 16 = 2 by decide
  aligned := haddr
  off_lt := hoff
  fd := by
    have hflag : ¬ (MmapArgs.mk addr len prot 0x12 p.fd off).anonymous = true :=
      show ¬ Nat.testBit 0x12 5 = true by decide
    rw [if_neg hflag]

theorem execCall_anonymous (p : Program) {addr len prot flags : ℕ} (haddr : addr % pageSize = 0)
    (hflags : flags = 0x32 ∨ flags = 0x132) : ExecCall p ⟨addr, len, prot, flags, wordSize - 1, 0⟩ where
  fixed := by
    rcases hflags with rfl | rfl
    · exact (by decide : Nat.testBit 0x32 4 = true)
    · exact (by decide : Nat.testBit 0x132 4 = true)
  type := by
    rcases hflags with rfl | rfl
    · exact (by decide : 0x32 % 16 = 2)
    · exact (by decide : 0x132 % 16 = 2)
  aligned := haddr
  off_lt := show 0 < wordSize by decide
  fd := by
    rw [if_pos]
    rcases hflags with rfl | rfl
    · exact (by decide : Nat.testBit 0x32 5 = true)
    · exact (by decide : Nat.testBit 0x132 5 = true)

theorem segmentCalls_execCall {p : Program} {h : Phdr} (haligned : PageAligned h.pVaddr)
    {c : MmapArgs} (hc : c ∈ segmentCalls p.fd h) : ExecCall p c := by
  have hmod := mod_of_pageAligned haligned
  have hoff := h.offset_lt
  unfold segmentCalls at hc
  split_ifs at hc with hcode hro hdata hfile
  · obtain rfl := List.mem_singleton.mp hc
    exact execCall_file p hmod hoff
  · obtain rfl := List.mem_singleton.mp hc
    exact execCall_file p hmod hoff
  · rcases List.mem_cons.mp hc with rfl | hc
    · exact execCall_file p hmod hoff
    · split_ifs at hc
      · obtain rfl := List.mem_singleton.mp hc
        refine execCall_anonymous p ?_ (Or.inl rfl)
        simp only [pageAlign, pageSize, wordSize] at hmod ⊢
        omega
      · cases hc
  · obtain rfl := List.mem_singleton.mp hc
    exact execCall_anonymous p hmod (Or.inl rfl)
  · cases hc

theorem mem_loadCalls {fd : ℕ} {l : List Phdr} {i : ℕ} {c : MmapArgs} :
    (i, c) ∈ loadCalls fd l ↔ ∃ h, l[i]? = some h ∧ c ∈ segmentCalls fd h := by
  simp only [loadCalls, List.mem_flatMap, List.mem_map, Prod.exists, List.mk_mem_zipIdx_iff_getElem?, Prod.mk.injEq]
  constructor
  · rintro ⟨h, j, hj, d, hd, rfl, rfl⟩
    exact ⟨h, hj, hd⟩
  · rintro ⟨h, hj, hd⟩
    exact ⟨h, i, hj, c, hd, rfl, rfl⟩

theorem mem_execCalls {fd : ℕ} {l : List Phdr} {startStack i : ℕ} {c : MmapArgs} :
    (i, c) ∈ execCalls fd l startStack ↔
      (∃ h, l[i]? = some h ∧ c ∈ segmentCalls fd h) ∨
        (i = maxPhdrs ∧ c = argsMmap startStack) ∨ (i = maxPhdrs + 1 ∧ c = stackMmap startStack) := by
  simp only [execCalls, List.mem_append, mem_loadCalls, stackCalls, List.mem_cons, List.not_mem_nil, or_false,
    Prod.mk.injEq]

theorem execCalls_execCall {p : Program} {l : List Phdr} {n : ℕ}
    (haligned : ∀ h ∈ l, PageAligned h.pVaddr) (c : ℕ × MmapArgs)
    (hc : c ∈ execCalls p.fd l (kernelBase - n * pageSize)) : ExecCall p c.2 := by
  obtain ⟨i, c⟩ := c
  rcases mem_execCalls.mp hc with ⟨h, hget, hmem⟩ | ⟨-, rfl⟩ | ⟨-, rfl⟩
  · exact segmentCalls_execCall (haligned h (List.mem_of_getElem? hget)) hmem
  · refine execCall_anonymous p ?_ (Or.inl rfl)
    simp only [pageSize, kernelBase]
    omega
  · refine execCall_anonymous p ?_ (Or.inr rfl)
    simp only [pageSize, kernelBase]
    omega

theorem segmentCalls_nodup (fd : ℕ) (h : Phdr) : (segmentCalls fd h).Nodup := by
  unfold segmentCalls
  dsimp only
  split_ifs
  all_goals simp

/-- The calls are in the order of their headers, and each is there once. -/
theorem execCalls_sorted (fd : ℕ) {l : List Phdr} (hlen : l.length ≤ maxPhdrs) (startStack : ℕ) :
    (execCalls fd l startStack).Pairwise fun b c => b.1 ≤ c.1 ∧ b ≠ c := by
  have hsegments : ∀ (l : List Phdr) (n : ℕ), ((l.zipIdx n).flatMap fun h =>
      (segmentCalls fd h.1).map fun c => (h.2, c)).Pairwise fun b c => b.1 ≤ c.1 ∧ b ≠ c := by
    intro l
    induction l with
    | nil => intro n; exact List.Pairwise.nil
    | cons h l ih =>
      intro n
      rw [List.zipIdx_cons, List.flatMap_cons, List.pairwise_append]
      refine ⟨?_, ih (n + 1), ?_⟩
      · rw [List.pairwise_map]
        exact (segmentCalls_nodup fd h).imp fun hne => ⟨le_rfl, fun heq => hne (Prod.mk.inj heq).2⟩
      · intro b hb c hc
        obtain ⟨d, -, rfl⟩ := List.mem_map.mp hb
        obtain ⟨⟨g, j⟩, hg, hc⟩ := List.mem_flatMap.mp hc
        obtain ⟨d', -, rfl⟩ := List.mem_map.mp hc
        have hle := List.le_snd_of_mem_zipIdx hg
        dsimp only at hle
        refine ⟨by omega, fun heq => ?_⟩
        have hindex := (Prod.mk.inj heq).1
        dsimp only at hindex
        omega
  rw [execCalls, loadCalls, stackCalls, List.pairwise_append]
  refine ⟨hsegments l 0, by simp, ?_⟩
  intro b hb c hc
  obtain ⟨⟨g, j⟩, hg, hb⟩ := List.mem_flatMap.mp hb
  obtain ⟨d, -, rfl⟩ := List.mem_map.mp hb
  have hlt := List.snd_lt_of_mem_zipIdx hg
  simp only [List.mem_cons, List.not_mem_nil, or_false] at hc
  rcases hc with rfl | rfl
  all_goals
    dsimp only at hlt
    refine ⟨by omega, fun heq => ?_⟩
    have hindex := (Prod.mk.inj heq).1
    omega

/-! ## The bytes of a segment -/

/-- The bytes of a segment, in the file or in memory. -/
def Phdr.size (h : Phdr) : ℕ := max h.pFilesz h.pMemsz

/-- The byte lies in a page that is mapped from the file. -/
def Phdr.FromFile (h : Phdr) (k : ℕ) : Prop := h.flags = 6 → k < pageAlign h.pFilesz

instance (h : Phdr) (k : ℕ) : Decidable (h.FromFile k) := inferInstanceAs (Decidable (_ → _))

/-- A kind of segment that `fill_exec` lets through. -/
def Phdr.Known (h : Phdr) : Prop := h.flags = 5 ∨ h.flags = 4 ∨ h.flags = 6

theorem pageAlign_of_le {x : ℕ} (hx : x ≤ kernelBase) : x ≤ pageAlign x ∧ pageAlign x < x + pageSize := by
  unfold pageAlign pageSize wordSize kernelBase at *
  omega

/-- The segment is code or read-only data: one mapping of the file. -/
theorem segmentCalls_file (fd : ℕ) {h : Phdr} (hknown : h.Known) (hflags : h.flags ≠ 6) :
    ∃ prot, segmentCalls fd h = [⟨h.pVaddr, h.pMemsz, prot, 0x12, fd, h.pOffset⟩] := by
  unfold segmentCalls
  rcases hknown with hcode | hro | hdata
  · exact ⟨5, by rw [if_pos hcode]⟩
  · exact ⟨1, by rw [if_neg (by omega), if_pos hro]⟩
  · exact absurd hdata hflags

theorem mem_segmentCalls_data {fd : ℕ} {h : Phdr} (hflags : h.flags = 6) {c : MmapArgs} :
    c ∈ segmentCalls fd h ↔
      (0 < h.pFilesz ∧ c = ⟨h.pVaddr, h.pFilesz, 3, 0x12, fd, h.pOffset⟩) ∨
      ((0 < h.pFilesz → pageAlign h.pFilesz < h.pMemsz) ∧
        c = ⟨if 0 < h.pFilesz then (h.pVaddr + pageAlign h.pFilesz) % wordSize else h.pVaddr,
          if 0 < h.pFilesz then h.pMemsz - pageAlign h.pFilesz else h.pMemsz, 3, 0x32,
          wordSize - 1, 0⟩) := by
  unfold segmentCalls
  rw [if_neg (by omega), if_neg (by omega), if_pos hflags]
  by_cases hfile : 0 < h.pFilesz
  · simp only [hfile, if_true, List.mem_cons, true_and, forall_const]
    split_ifs with hmem
    · simp [hmem]
    · simp [hmem]
  · simp [hfile]

/-- What a call of a segment shows at a byte of the segment. -/
theorem requested_backing {p : Program} {h : Phdr} (hknown : h.Known)
    (hfits : h.pVaddr + h.size ≤ kernelBase) {c : MmapArgs} (hc : c ∈ segmentCalls p.fd h) {k : ℕ}
    (hlow : c.addr ≤ h.pVaddr + k) (hhigh : h.pVaddr + k < c.addr + pageAlign c.len) :
    (c.requested (callFile p c) (h.pVaddr + k)).backing =
      if h.FromFile k then some (p.file, h.pOffset + k) else none := by
  have hsize : h.pFilesz ≤ h.size := le_max_left ..
  by_cases hflags : h.flags = 6
  · have hpage := pageAlign_of_le (show h.pFilesz ≤ kernelBase by omega)
    rcases (mem_segmentCalls_data hflags).mp hc with ⟨hfile, rfl⟩ | ⟨hmem, rfl⟩
    · have hk : h.FromFile k := fun _ => by simpa using hhigh
      rw [if_pos hk]
      simp [MmapArgs.requested, callFile, MmapArgs.anonymous, testBit_fixed_private]
    · have hk : ¬ h.FromFile k := by
        intro hfrom
        have hlt := hfrom hflags
        dsimp only at hlow
        split_ifs at hlow with hfile
        · rw [Nat.mod_eq_of_lt (by unfold kernelBase pageSize wordSize at *; omega)] at hlow
          omega
        · have hzero : h.pFilesz = 0 := by omega
          rw [hzero, show pageAlign 0 = 0 from rfl] at hlt
          omega
      rw [if_neg hk]
      simp [MmapArgs.requested, callFile, MmapArgs.anonymous, testBit_fixed_anonymous]
  · obtain ⟨prot, hcalls⟩ := segmentCalls_file p.fd hknown hflags
    rw [hcalls] at hc
    obtain rfl := List.mem_singleton.mp hc
    have hk : h.FromFile k := fun hdata => absurd hdata hflags
    rw [if_pos hk]
    simp [MmapArgs.requested, callFile, MmapArgs.anonymous, testBit_fixed_private]

theorem segmentCalls_cover {p : Program} {h : Phdr} (hknown : h.Known) (hfits : h.pVaddr + h.size ≤ kernelBase)
    (hcovered : h.flags ≠ 6 → h.pFilesz ≤ pageAlign h.pMemsz) {k : ℕ} (hk : k < h.size) :
    ∃ c ∈ segmentCalls p.fd h, c.addr ≤ h.pVaddr + k ∧ h.pVaddr + k < c.addr + pageAlign c.len := by
  have hfilesz : h.pFilesz ≤ h.size := le_max_left ..
  have hmemsz : h.pMemsz ≤ h.size := le_max_right ..
  have hpage := pageAlign_of_le (show h.pFilesz ≤ kernelBase by omega)
  have hpage' := pageAlign_of_le (show h.pMemsz ≤ kernelBase by omega)
  have hmax : k < h.pFilesz ∨ k < h.pMemsz := lt_max_iff.mp hk
  by_cases hflags : h.flags = 6
  · by_cases hfrom : k < pageAlign h.pFilesz
    · have hfile : 0 < h.pFilesz := by
        by_contra hzero
        rw [show h.pFilesz = 0 by omega, show pageAlign 0 = 0 from rfl] at hfrom
        omega
      refine ⟨_, (mem_segmentCalls_data hflags).mpr (Or.inl ⟨hfile, rfl⟩), Nat.le_add_right .., ?_⟩
      exact Nat.add_lt_add_left hfrom _
    · refine ⟨_, (mem_segmentCalls_data hflags).mpr (Or.inr ⟨fun _ => by omega, rfl⟩), ?_, ?_⟩
      · dsimp only
        split_ifs with hfile
        · rw [Nat.mod_eq_of_lt (by unfold kernelBase pageSize wordSize at *; omega)]
          omega
        · omega
      · dsimp only
        split_ifs with hfile
        · have hrest := pageAlign_of_le (show h.pMemsz - pageAlign h.pFilesz ≤ kernelBase by omega)
          rw [Nat.mod_eq_of_lt (by unfold kernelBase pageSize wordSize at *; omega)]
          omega
        · omega
  · obtain ⟨prot, hcalls⟩ := segmentCalls_file p.fd hknown hflags
    have hle := hcovered hflags
    refine ⟨_, by rw [hcalls]; exact List.mem_cons_self, Nat.le_add_right .., ?_⟩
    dsimp only
    omega

/-- Every call of a segment with bytes begins at a byte that no other call of it covers. -/
theorem segmentCalls_begin {p : Program} {h : Phdr} (hknown : h.Known)
    (hfits : h.pVaddr + h.size ≤ kernelBase) (hsize : 0 < h.size) {c : MmapArgs} (hc : c ∈ segmentCalls p.fd h) :
    ∃ k < h.size, ∀ d ∈ segmentCalls p.fd h, d.addr ≤ h.pVaddr + k →
      h.pVaddr + k < d.addr + pageAlign d.len → d = c := by
  have hfilesz : h.pFilesz ≤ h.size := le_max_left ..
  have hmemsz : h.pMemsz ≤ h.size := le_max_right ..
  have hpage := pageAlign_of_le (show h.pFilesz ≤ kernelBase by omega)
  by_cases hflags : h.flags = 6
  · rcases (mem_segmentCalls_data hflags).mp hc with ⟨hfile, rfl⟩ | ⟨hmem, rfl⟩
    · refine ⟨0, hsize, fun d hd hlow hhigh => ?_⟩
      rcases (mem_segmentCalls_data hflags).mp hd with ⟨-, rfl⟩ | ⟨-, rfl⟩
      · rfl
      · dsimp only at hlow
        rw [if_pos hfile, Nat.mod_eq_of_lt (by unfold kernelBase pageSize wordSize at *; omega)] at hlow
        omega
    · by_cases hfile : 0 < h.pFilesz
      · have hlt := hmem hfile
        refine ⟨pageAlign h.pFilesz, by omega, fun d hd hlow hhigh => ?_⟩
        rcases (mem_segmentCalls_data hflags).mp hd with ⟨-, rfl⟩ | ⟨-, rfl⟩
        · dsimp only at hhigh
          omega
        · rfl
      · refine ⟨0, hsize, fun d hd hlow hhigh => ?_⟩
        rcases (mem_segmentCalls_data hflags).mp hd with ⟨hpos, -⟩ | ⟨-, rfl⟩
        · exact absurd hpos hfile
        · rfl
  · obtain ⟨prot, hcalls⟩ := segmentCalls_file p.fd hknown hflags
    rw [hcalls] at hc
    refine ⟨0, hsize, fun d hd _ _ => ?_⟩
    rw [hcalls] at hd
    rw [List.mem_singleton.mp hc, List.mem_singleton.mp hd]

/-! ## The end of the segments -/

theorem fillStep_known {x x' : Segments} {h : Phdr} (hstep : fillStep x h = some x') : h.Known := by
  unfold fillStep at hstep
  unfold Phdr.Known
  split at hstep
  · split_ifs at hstep with hcode
    exact Or.inl hcode
  · split_ifs at hstep with hcode hdata
    · exact Or.inl hcode
    · exact Or.inr hdata
  · split_ifs at hstep with hdata
    exact Or.inr hdata

/-- What the loop of `fill_exec` knows after a header. -/
def Ends (x : Segments) (h : Phdr) : Prop :=
  match x.state with
  | .begin => False
  | .code => x.startData = 0 ∧ x.endCode = h.fin
  | .data => x.startData ≠ 0 ∧ x.endData = h.fin

theorem fillStep_ends {x x' : Segments} {h : Phdr} (hvaddr : h.pVaddr ≠ 0)
    (hx : x.state ≠ .data → x.startData = 0) (hx' : x.state = .data → x.startData ≠ 0)
    (hstep : fillStep x h = some x') : Ends x' h := by
  unfold fillStep at hstep
  unfold Ends
  split at hstep
  · rename_i hstate
    split_ifs at hstep
    cases hstep
    exact ⟨hx (by rw [hstate]; decide), rfl⟩
  · rename_i hstate
    split_ifs at hstep
    · cases hstep
      dsimp only
      rw [hstate]
      exact ⟨hx (by rw [hstate]; decide), rfl⟩
    · cases hstep
      exact ⟨hvaddr, rfl⟩
  · rename_i hstate
    split_ifs at hstep
    cases hstep
    dsimp only
    rw [hstate]
    exact ⟨hx' hstate, rfl⟩

theorem Ends.startData {x : Segments} {h : Phdr} (hends : Ends x h) :
    (x.state ≠ .data → x.startData = 0) ∧ (x.state = .data → x.startData ≠ 0) := by
  unfold Ends at hends
  cases hstate : x.state with
  | begin =>
    rw [hstate] at hends
    exact absurd hends id
  | code =>
    rw [hstate] at hends
    exact ⟨fun _ => hends.1, fun h => by cases h⟩
  | data =>
    rw [hstate] at hends
    exact ⟨fun h => absurd rfl h, fun _ => hends.1⟩

theorem fill_loop {l : List Phdr} (hvaddr : ∀ h ∈ l, h.pVaddr ≠ 0) {x : Segments}
    (hloop : l.foldlM fillStep ⟨.begin, 0, 0, 0, 0⟩ = some x) :
    (∀ h ∈ l, h.Known) ∧ ((l = [] ∧ x = ⟨.begin, 0, 0, 0, 0⟩) ∨ ∃ last, l.getLast? = some last ∧ Ends x last) := by
  induction l using List.reverseRecOn generalizing x with
  | nil =>
    cases hloop
    exact ⟨fun h hh => (by cases hh), Or.inl ⟨rfl, rfl⟩⟩
  | append_singleton l h ih =>
    rw [List.foldlM_append] at hloop
    obtain ⟨x₁, hinit, hlast⟩ := Option.bind_eq_some_iff.mp hloop
    have hstep : fillStep x₁ h = some x := by
      simpa using hlast
    obtain ⟨hknown, hends⟩ := ih (fun g hg => hvaddr g (List.mem_append_left _ hg)) hinit
    refine ⟨?_, Or.inr ⟨h, List.getLast?_concat, ?_⟩⟩
    · intro g hg
      rcases List.mem_append.mp hg with hg | hg
      · exact hknown g hg
      · rw [List.mem_singleton.mp hg]
        exact fillStep_known hstep
    · have hdata : (x₁.state ≠ .data → x₁.startData = 0) ∧ (x₁.state = .data → x₁.startData ≠ 0) := by
        rcases hends with ⟨-, rfl⟩ | ⟨last, -, hends⟩
        · exact ⟨fun _ => rfl, fun h => by cases h⟩
        · exact hends.startData
      exact fillStep_ends (hvaddr h (List.mem_append_right _ List.mem_cons_self)) hdata.1 hdata.2 hstep

theorem pageAlign_pageAlign (x : ℕ) : pageAlign (pageAlign x) = pageAlign x := by
  unfold pageAlign pageSize wordSize
  omega

theorem mem_untilNull {l : List Phdr} {h : Phdr} (hh : h ∈ untilNull l) : h.pVaddr ≠ 0 := by
  simpa using List.mem_takeWhile_imp hh

theorem getElem?_untilNull {l : List Phdr} {i : ℕ} {h : Phdr} (hget : (untilNull l)[i]? = some h) : l[i]? = some h := by
  obtain ⟨rest, hrest⟩ : untilNull l <+: l := List.takeWhile_prefix _
  obtain ⟨hlt, -⟩ := List.getElem?_eq_some_iff.mp hget
  rw [← hrest, List.getElem?_append_left hlt]
  exact hget

theorem fillExec_ok {tbl : List Phdr} {exe : Exe} (h : fillExec tbl = .ok exe) :
    exe.phdr = loads tbl ∧ (loads tbl).length ≤ maxPhdrs ∧
      (∀ g ∈ untilNull (loads tbl), g.Known) ∧
      ∃ last, (untilNull (loads tbl)).getLast? = some last ∧ exe.brk = pageAlign last.fin := by
  unfold fillExec at h
  split_ifs at h with hmany hphdr
  split at h
  · cases h
  · rename_i x hloop
    by_cases hbegin : x.state = .begin
    · rw [if_pos hbegin] at h
      cases h
    rw [if_neg hbegin] at h
    cases h
    obtain ⟨hknown, hends⟩ := fill_loop (fun g hg => mem_untilNull hg) hloop
    refine ⟨rfl, Nat.le_of_not_lt hmany, hknown, ?_⟩
    rcases hends with ⟨-, rfl⟩ | ⟨last, hlast, hends⟩
    · exact absurd rfl hbegin
    · refine ⟨last, hlast, ?_⟩
      dsimp only
      unfold Ends at hends
      cases hstate : x.state with
      | begin => exact absurd hstate hbegin
      | code =>
        rw [hstate] at hends
        rw [if_pos hends.1, pageAlign_pageAlign, hends.2]
      | data =>
        rw [hstate] at hends
        rw [if_neg hends.1, hends.2]

/-! ## The image -/

/-- The image is what the program headers say: every byte of a segment is seen through the mapping
of the segment, with the byte of the file or a zero, and the break starts behind all segments. -/
structure Loaded (p : Program) (x : Image) : Prop where
  bytes : ∀ i h, x.exe.phdr[i]? = some h → ∀ k < h.size,
    x.mapping.owner (h.pVaddr + k) = some i ∧
      x.read p (h.pVaddr + k) = some (if k < h.pFilesz then p.byte (h.pOffset + k) else 0)
  brk : ∀ h ∈ x.exe.phdr, h.pVaddr + h.pMemsz ≤ x.exe.brk

/-- The headers that `do_exec` maps. -/
def Program.mapped (p : Program) (e : ImageEnv) : List Phdr := untilNull (loads (p.phdrTbl e.stray))

/-- When the image is right. -/
structure Loadable (p : Program) (e : ImageEnv) : Prop where
  /-- No segment with bytes has the address zero or comes behind one that has it. -/
  addressed : ∀ i h, (loads (p.phdrTbl e.stray))[i]? = some h → 0 < h.size →
    i < (p.mapped e).length
  /-- Every mapping for a segment with bytes is made: there is memory for it, it lies below
  `KERNEL_BASE`, and its offset in the file is a multiple of the page size. -/
  granted : ∀ i h, (p.mapped e)[i]? = some h → 0 < h.size →
    h.pVaddr + h.size ≤ kernelBase ∧ ∀ c ∈ segmentCalls p.fd h, Makes p e.toMapEnv (i, c)
  /-- The file part of code and of read-only data is not larger than its memory, in pages. -/
  covered : ∀ h ∈ p.mapped e, h.flags ≠ 6 → h.pFilesz ≤ pageAlign h.pMemsz
  /-- No mapping of a later segment, and not the stack, lies over a byte of a segment. -/
  apart : ∀ i h, (p.mapped e)[i]? = some h → 0 < h.size →
    ∀ c ∈ execCalls p.fd (p.mapped e) e.startStack, i < c.1 → Makes p e.toMapEnv c →
      h.pVaddr + h.size ≤ c.2.addr ∨ c.2.addr + pageAlign c.2.len ≤ h.pVaddr
  /-- The file has zeros behind the file part of a segment, up to the end of the segment or of the
  last page that is mapped from the file. -/
  tail : ∀ h ∈ p.mapped e, ∀ k, h.pFilesz ≤ k → k < h.pMemsz → h.FromFile k →
    h.pVaddr + k < e.startStack - pageSize → p.byte (h.pOffset + k) = 0
  /-- A segment that reaches into the argument pages or the stack page, whose areas are then not
  made, has the bytes that these pages have. -/
  shown : ∀ h ∈ p.mapped e, ∀ k < h.size, e.startStack - pageSize ≤ h.pVaddr + k →
    e.page (h.pVaddr + k) = if k < h.pFilesz then p.byte (h.pOffset + k) else 0
  /-- No segment ends above the last page of the last one. -/
  brk : ∀ h ∈ loads (p.phdrTbl e.stray), ∀ last ∈ (p.mapped e).getLast?,
    h.pVaddr + h.pMemsz ≤ pageAlign last.fin

/-- The segments and the stack are mapped by all calls in turn. -/
theorem mapStack_after {p : Program} {e : ImageEnv} {l : List Phdr} {m₁ m : Mapping}
    (hsegments : mapSegments p e.toMapEnv l = some m₁) (hstack : mapStack p e m₁ = some m) :
    (∀ h ∈ l, PageAligned h.pVaddr) ∧ After p e.toMapEnv (execCalls p.fd l e.startStack) m ∧
      ∀ a, (∀ c ∈ stackCalls e.startStack, ¬ Takes p e.toMapEnv c a) → m.present a = e.pages a := by
  rw [mapSegments_eq] at hsegments
  split_ifs at hsegments with haligned
  have hcalls : ∀ c ∈ execCalls p.fd l e.startStack, ExecCall p c.2 :=
    execCalls_execCall (n := e.nrPage) haligned
  obtain ⟨h₁, -⟩ := (After.start p e.toMapEnv).run
    (fun c hc => hcalls c (List.mem_append_left _ hc)) hsegments
  have hput : After p e.toMapEnv (loadCalls p.fd l) { m₁ with present := e.pages } :=
    ⟨h₁.wf, h₁.owns, h₁.made, h₁.view⟩
  unfold mapStack at hstack
  obtain ⟨hafter, hpresent⟩ := hput.run
    (fun c hc => hcalls c (List.mem_append_right _ hc)) hstack
  dsimp only at hpresent
  exact ⟨haligned, hafter, hpresent⟩

theorem execImage_ok {p : Program} {e : ImageEnv} {x : Image} (h : execImage p e = some x) :
    x.exe.phdr = loads (p.phdrTbl e.stray) ∧ (loads (p.phdrTbl e.stray)).length ≤ maxPhdrs ∧
      (∀ g ∈ p.mapped e, g.Known) ∧
      (∃ last, (p.mapped e).getLast? = some last ∧ x.exe.brk = pageAlign last.fin) ∧
      After p e.toMapEnv (execCalls p.fd (p.mapped e) e.startStack) x.mapping ∧
      ∀ a, (∀ c ∈ stackCalls e.startStack, ¬ Takes p e.toMapEnv c a) → x.mapping.present a = e.pages a := by
  unfold execImage at h
  split at h
  · cases h
  · rename_i exe hprep
    have hfill : fillExec (p.phdrTbl e.stray) = .ok exe := by
      unfold Program.prepExec at hprep
      split_ifs at hprep
      exact hprep
    obtain ⟨hphdr, hlen, hknown, hbrk⟩ := fillExec_ok hfill
    obtain ⟨m, hm, rfl⟩ := Option.map_eq_some_iff.mp h
    rw [hphdr] at hm
    obtain ⟨m₁, hsegments, hstack⟩ := Option.bind_eq_some_iff.mp hm
    obtain ⟨-, hafter, hpresent⟩ := mapStack_after hsegments hstack
    exact ⟨hphdr, hlen, hknown, hbrk, hafter, hpresent⟩

section

variable {p : Program} {e : ImageEnv} {x : Image} (hx : execImage p e = some x)

include hx

theorem owner_iff {i a : ℕ} :
    x.mapping.owner a = some i ↔
      (∃ c, (i, c) ∈ execCalls p.fd (p.mapped e) e.startStack ∧ Takes p e.toMapEnv (i, c) a) ∧
        ∀ c ∈ execCalls p.fd (p.mapped e) e.startStack, i < c.1 → ¬ Takes p e.toMapEnv c a := by
  obtain ⟨-, hlen, -, -, hafter, -⟩ := execImage_ok hx
  have hmapped : (p.mapped e).length ≤ maxPhdrs :=
    (List.takeWhile_sublist _).length_le.trans hlen
  rw [Mapping.owner, hafter.made, Option.map_eq_some_iff,
    overlay_rank_iff (((execCalls_sorted p.fd hmapped e.startStack).imp And.left).filter _) i]
  simp only [List.mem_filter, decide_eq_true_eq]
  constructor
  · rintro ⟨⟨⟨j, c⟩, ⟨hc, hmakes⟩, rfl, hcovers⟩, hlater⟩
    exact ⟨⟨c, hc, hmakes, hcovers⟩, fun d hd hlt htakes => hlater d ⟨hd, htakes.1⟩ hlt htakes.2⟩
  · rintro ⟨⟨c, hc, hmakes, hcovers⟩, hlater⟩
    exact ⟨⟨(i, c), ⟨hc, hmakes⟩, rfl, hcovers⟩, fun d hd hlt hcov => hlater d hd.1 hlt ⟨hd.2, hcov⟩⟩

/-- A header that owns an address is one that is mapped, and one of its calls covers the address. -/
theorem owner_call {i a : ℕ} {h : Phdr} (hget : x.exe.phdr[i]? = some h) (hown : x.mapping.owner a = some i) :
    (p.mapped e)[i]? = some h ∧ ∃ c ∈ segmentCalls p.fd h, Takes p e.toMapEnv (i, c) a := by
  obtain ⟨hphdr, hlen, -⟩ := execImage_ok hx
  obtain ⟨⟨c, hc, htakes⟩, -⟩ := (owner_iff hx).mp hown
  have hi : i < maxPhdrs := by
    rw [hphdr] at hget
    obtain ⟨hlt, -⟩ := List.getElem?_eq_some_iff.mp hget
    exact hlt.trans_le hlen
  rcases mem_execCalls.mp hc with ⟨g, hg, hmem⟩ | ⟨rfl, -⟩ | ⟨rfl, -⟩
  · have hsame : g = h := by
      rw [hphdr] at hget
      exact Option.some.inj ((getElem?_untilNull hg).symm.trans hget)
    subst hsame
    exact ⟨hg, c, hmem, htakes⟩
  · omega
  · omega

theorem read_of_owner {i k : ℕ} {h : Phdr} (hget : (p.mapped e)[i]? = some h)
    (hi : i < maxPhdrs) (hfits : h.pVaddr + h.size ≤ kernelBase) (hown : x.mapping.owner (h.pVaddr + k) = some i) :
    x.read p (h.pVaddr + k) = some (if e.startStack - pageSize ≤ h.pVaddr + k then e.page (h.pVaddr + k)
      else if h.FromFile k then p.byte (h.pOffset + k) else 0) := by
  obtain ⟨-, -, hknown, -, hafter, hpresent⟩ := execImage_ok hx
  obtain ⟨⟨c, hc, htakes⟩, hlater⟩ := (owner_iff hx).mp hown
  have hpages := hpresent (h.pVaddr + k) fun d hd => by
    refine hlater d (List.mem_append_right _ hd) ?_
    simp only [stackCalls, List.mem_cons, List.not_mem_nil, or_false] at hd
    rcases hd with rfl | rfl
    · exact hi
    · exact Nat.lt_succ_of_lt hi
  rw [Image.read, hpages, ImageEnv.pages]
  by_cases hhigh : e.startStack - pageSize ≤ h.pVaddr + k
  · rw [if_pos ⟨hhigh, htakes.lt⟩, if_pos hhigh]
  · rw [if_neg fun hboth => hhigh hboth.1, if_neg hhigh]
    rw [Mapping.owner] at hown
    obtain ⟨⟨j, d⟩, hseen, rfl⟩ := Option.map_eq_some_iff.mp hown
    have hcovers := covers_of_overlay hseen
    have hmade := mem_of_overlay hseen
    rw [hafter.made] at hmade
    have hmem : d ∈ segmentCalls p.fd h := by
      rcases mem_execCalls.mp (List.mem_filter.mp hmade).1 with ⟨g, hg, hmem⟩ | ⟨rfl, -⟩ | ⟨rfl, -⟩
      · rw [hget] at hg
        cases hg
        exact hmem
      · omega
      · omega
    have hbacking := requested_backing (hknown h (List.mem_of_getElem? hget)) hfits hmem hcovers.1 hcovers.2
    dsimp only
    rw [hafter.view, hseen, Option.map_some, Option.map_some]
    dsimp only
    rw [hbacking]
    split_ifs with hfrom
    · rfl
    · rfl

theorem Loaded.loadable (h : Loaded p x) : Loadable p e := by
  obtain ⟨hphdr, hlen, hknown, ⟨last, hlast, hbrk⟩, -, -⟩ := execImage_ok hx
  have hget : ∀ {i : ℕ} {g : Phdr}, (p.mapped e)[i]? = some g → x.exe.phdr[i]? = some g := by
    intro i g hg
    rw [hphdr]
    exact getElem?_untilNull hg
  have hindex : ∀ {i : ℕ} {g : Phdr}, (p.mapped e)[i]? = some g → i < maxPhdrs := by
    intro i g hg
    obtain ⟨hlt, -⟩ := List.getElem?_eq_some_iff.mp (getElem?_untilNull hg)
    exact hlt.trans_le hlen
  have hfits : ∀ {i : ℕ} {g : Phdr}, (p.mapped e)[i]? = some g → 0 < g.size →
      g.pVaddr + g.size ≤ kernelBase := by
    intro i g hg hsize
    obtain ⟨-, c, -, htakes⟩ := owner_call hx (hget hg) (h.bytes i g (hget hg) (g.size - 1)
      (by omega)).1
    have hlt := htakes.lt
    omega
  refine ⟨?_, ?_, ?_, ?_, ?_, ?_, ?_⟩
  · intro i g hg hsize
    rw [← hphdr] at hg
    obtain ⟨hmapped, -⟩ := owner_call hx hg (h.bytes i g hg 0 hsize).1
    exact (List.getElem?_eq_some_iff.mp hmapped).1
  · intro i g hg hsize
    refine ⟨hfits hg hsize, fun c hc => ?_⟩
    obtain ⟨k, hk, honly⟩ := segmentCalls_begin (hknown g (List.mem_of_getElem? hg)) (hfits hg hsize) hsize hc
    obtain ⟨-, d, hd, htakes⟩ := owner_call hx (hget hg) (h.bytes i g (hget hg) k hk).1
    obtain rfl := honly d hd htakes.2.1 htakes.2.2
    exact htakes.1
  · intro g hg hflags
    obtain ⟨i, hi⟩ := List.getElem?_of_mem hg
    by_cases hfile : g.pFilesz = 0
    · omega
    have hsize : g.pFilesz ≤ g.size := le_max_left ..
    obtain ⟨-, c, hc, htakes⟩ := owner_call hx (hget hi) (h.bytes i g (hget hi) (g.pFilesz - 1)
      (by omega)).1
    obtain ⟨prot, hcalls⟩ := segmentCalls_file p.fd (hknown g hg) hflags
    rw [hcalls] at hc
    obtain rfl := List.mem_singleton.mp hc
    have hhigh := htakes.2.2
    dsimp only at hhigh
    omega
  · intro i g hg hsize c hc hlater hmade
    by_contra hover
    have hpos := hmade.2.nonempty
    have hown := (h.bytes i g (hget hg) (max g.pVaddr c.2.addr - g.pVaddr) (by omega)).1
    rw [show g.pVaddr + (max g.pVaddr c.2.addr - g.pVaddr) = max g.pVaddr c.2.addr by omega] at hown
    exact ((owner_iff hx).mp hown).2 c hc hlater ⟨hmade, by omega, by omega⟩
  · intro g hg k hlow hhigh hfrom hbelow
    obtain ⟨i, hi⟩ := List.getElem?_of_mem hg
    have hsize : g.pMemsz ≤ g.size := le_max_right ..
    obtain ⟨hown, hread⟩ := h.bytes i g (hget hi) k (by omega)
    rw [read_of_owner hx hi (hindex hi) (hfits hi (by omega)) hown, if_neg (by omega), if_pos hfrom,
      if_neg (by omega)] at hread
    exact Option.some.inj hread
  · intro g hg k hk hhigh
    obtain ⟨i, hi⟩ := List.getElem?_of_mem hg
    obtain ⟨hown, hread⟩ := h.bytes i g (hget hi) k hk
    rw [read_of_owner hx hi (hindex hi) (hfits hi (by omega)) hown, if_pos hhigh] at hread
    exact Option.some.inj hread
  · intro g hg l hl
    rw [hlast] at hl
    cases hl
    rw [← hbrk]
    exact h.brk g (by rw [hphdr]; exact hg)

theorem Loadable.loaded (h : Loadable p e) : Loaded p x := by
  obtain ⟨hphdr, hlen, hknown, ⟨last, hlast, hbrk⟩, -, -⟩ := execImage_ok hx
  refine ⟨?_, ?_⟩
  · intro i g hg k hk
    rw [hphdr] at hg
    have hsize : 0 < g.size := by omega
    have hi := h.addressed i g hg hsize
    have hget : (p.mapped e)[i]? = some g := by
      rw [List.getElem?_eq_getElem hi, ← hg]
      exact (getElem?_untilNull (List.getElem?_eq_getElem hi)).symm
    have hmem := List.mem_of_getElem? hget
    obtain ⟨hfits, hmade⟩ := h.granted i g hget hsize
    have hown : x.mapping.owner (g.pVaddr + k) = some i := by
      obtain ⟨c, hc, hlow, hhigh⟩ := segmentCalls_cover (hknown g hmem) hfits (h.covered g hmem) hk
      refine (owner_iff hx).mpr ⟨⟨c, mem_execCalls.mpr (Or.inl ⟨g, hget, hc⟩), hmade c hc, hlow,
        hhigh⟩, fun d hd hlater htakes => ?_⟩
      have hapart := h.apart i g hget hsize d hd hlater htakes.1
      have hlow' := htakes.2.1
      have hhigh' := htakes.2.2
      omega
    have hindex : i < maxPhdrs := hi.trans_le ((List.takeWhile_sublist _).length_le.trans hlen)
    refine ⟨hown, ?_⟩
    rw [read_of_owner hx hget hindex hfits hown]
    by_cases hhigh : e.startStack - pageSize ≤ g.pVaddr + k
    · rw [if_pos hhigh, h.shown g hmem k hk hhigh]
    rw [if_neg hhigh]
    by_cases hfile : k < g.pFilesz
    · have hfrom : g.FromFile k := fun _ => by
        have hle : g.pFilesz ≤ g.size := le_max_left ..
        have hpage := pageAlign_of_le (show g.pFilesz ≤ kernelBase by omega)
        omega
      rw [if_pos hfrom, if_pos hfile]
    · rw [if_neg hfile]
      have hmemsz : k < g.pMemsz := by
        rcases lt_max_iff.mp hk with hlt | hlt
        · exact absurd hlt hfile
        · exact hlt
      split_ifs with hfrom
      · rw [h.tail g hmem k (by omega) hmemsz hfrom (by omega)]
      · rfl
  · intro g hg
    rw [hphdr] at hg
    rw [hbrk]
    exact h.brk g hg last hlast

end

/-- For every file that `execve` accepts, the image is what the program headers say exactly when the
headers are loadable. -/
theorem loaded_iff (p : Program) (e : ImageEnv) (x : Image) (hx : execImage p e = some x) :
    Loaded p x ↔ Loadable p e :=
  ⟨fun h => h.loadable hx, fun h => h.loaded hx⟩

/-- Words as bytes. -/
def wordBytes (l : List ℕ) : List Byte :=
  l.flatMap fun w => [BitVec.ofNat 8 w, BitVec.ofNat 8 (w / 256), BitVec.ofNat 8 (w / 65536),
    BitVec.ofNat 8 (w / 16777216)]

/-- A program with a segment of code and a segment of data of twenty bytes, of which `filesz` are in
the file; both begin at the start of the file. -/
def smallProgram (filesz : ℕ) : Program where
  content := wordBytes
    ([0x464c457f, 0x00010101, 0, 0, 0x00030002, 1, 0x1000, 52, 0, 0, 0x00200034, 3, 0] ++
      [6, 52, 0x1034, 0x1034, 96, 96, 4, 4] ++ [1, 0, 0x1000, 0x1000, 148, 148, 5, 4096] ++
      [1, 0, 0x2000, 0x2000, filesz, 20, 6, 4096])
  fd := 3
  file := 9
  inode := 5
  rdonly := false
  mmap := true
  writes := true
  fd_lt := by decide
  size_lt := by simp [wordBytes]

/-- An environment in which nothing fails. -/
def easyEnv : ImageEnv where
  stray := fun _ => 0
  kmalloc := true
  memory := fun _ _ _ => true
  nrPage := 1
  nrPage_pos := by decide
  nrPage_le := by decide
  fresh := 1
  frefs := fun _ => 0
  page := fun _ => 0

theorem smallProgram_runs (filesz : ℕ) (h : filesz = 16 ∨ filesz = 20) :
    (execImage (smallProgram filesz) easyEnv).isSome = true := by
  rcases h with rfl | rfl
  · decide +kernel
  · decide +kernel

theorem smallProgram_loadable : Loadable (smallProgram 20) easyEnv := by
  have hall : loads ((smallProgram 20).phdrTbl easyEnv.stray) = (smallProgram 20).mapped easyEnv := by
    decide +kernel
  refine ⟨?_, ?_, ?_, ?_, ?_, ?_, ?_⟩
  · intro i h hget _
    rw [hall] at hget
    exact (List.getElem?_eq_some_iff.mp hget).1
  · intro i h hget _
    have hgranted : ∀ h ∈ (smallProgram 20).mapped easyEnv, h.pVaddr + h.size ≤ kernelBase ∧
        ∀ c ∈ segmentCalls (smallProgram 20).fd h, Granted (smallProgram 20) c := by
      decide +kernel
    obtain ⟨hfits, hcalls⟩ := hgranted h (List.mem_of_getElem? hget)
    exact ⟨hfits, fun c hc => ⟨rfl, hcalls c hc⟩⟩
  · decide +kernel
  · intro i h hget _ c hc hlater _
    have hapart : ∀ g ∈ ((smallProgram 20).mapped easyEnv).zipIdx,
        ∀ c ∈ execCalls (smallProgram 20).fd ((smallProgram 20).mapped easyEnv) easyEnv.startStack,
          g.2 < c.1 → g.1.pVaddr + g.1.size ≤ c.2.addr ∨ c.2.addr + pageAlign c.2.len ≤ g.1.pVaddr := by
      decide +kernel
    exact hapart (h, i) (List.mk_mem_zipIdx_iff_getElem?.mpr hget) c hc hlater
  · intro h hh k hlow hhigh _ _
    have hfull : ∀ h ∈ (smallProgram 20).mapped easyEnv, h.pMemsz ≤ h.pFilesz := by
      decide +kernel
    have hle := hfull h hh
    omega
  · intro h hh k hk hhigh
    have hlow : ∀ h ∈ (smallProgram 20).mapped easyEnv, h.pVaddr + h.size < easyEnv.startStack - pageSize := by
      decide +kernel
    have hlt := hlow h hh
    omega
  · decide +kernel

/-- A program whose segments are in the file as a whole is loaded as its headers say. -/
theorem loaded_iff_small :
    ∃ x, execImage (smallProgram 20) easyEnv = some x ∧ Loaded (smallProgram 20) x := by
  have hrun : execImage (smallProgram 20) easyEnv =
      some ((execImage (smallProgram 20) easyEnv).get (smallProgram_runs 20 (Or.inr rfl))) :=
    (Option.some_get _).symm
  exact ⟨_, hrun, (loaded_iff _ _ _ hrun).mpr smallProgram_loadable⟩

/-- The last four bytes of the data segment are not in the file, and the program reads there what
follows in the file. -/
theorem bss_not_zero :
    ∃ x, execImage (smallProgram 16) easyEnv = some x ∧ ¬ Loaded (smallProgram 16) x := by
  have hrun : execImage (smallProgram 16) easyEnv =
      some ((execImage (smallProgram 16) easyEnv).get (smallProgram_runs 16 (Or.inl rfl))) :=
    (Option.some_get _).symm
  refine ⟨_, hrun, fun hloaded => ?_⟩
  have hdata : ((execImage (smallProgram 16) easyEnv).get
      (smallProgram_runs 16 (Or.inl rfl))).exe.phdr[1]? =
        some ⟨1, 0, 0x2000, 16, 20, 6, by decide, by decide, by decide, by decide⟩ := by
    decide +kernel
  have hread := (hloaded.bytes 1 _ hdata 16 (by decide)).2
  revert hread
  decide +kernel

end Mario.Fs.Exec
