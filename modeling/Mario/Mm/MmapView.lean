import Mario.Mm.AreaMap
import Mario.Mm.Mmap

/-!
# What mapping and unmapping do to an address space

`do_munmap` removes a range from the map that the area list represents, `do_mmap`
replaces a range (with `MAP_FIXED`) or defines one where nothing was mapped, and
`merge_mmap` changes nothing.
-/

namespace Mario.Mm

/-- What is mapped at an address: the protection, whether it is shared, and the
file with the offset in it. -/
structure PageView where
  read : Bool
  write : Bool
  exec : Bool
  shared : Bool
  backing : Option (ℕ × ℕ)
  deriving DecidableEq

/-- What an area maps at an address; the offset is the one of `filemap_nopage`. -/
def Vma.pageView (v : Vma) (a : ℕ) : PageView :=
  { read := v.vmFlags.read
    write := v.vmFlags.write
    exec := v.vmFlags.exec
    shared := v.vmFlags.shared
    backing := v.vmFile.map fun f => (f, v.pos a) }

/-- The map that an area list represents, as a user sees it. -/
def view (l : List Vma) (a : ℕ) : Option PageView :=
  (l.find? fun v => decide (v.Covers a)).map fun v => v.pageView a

/-- What an address of an area shows of the area. -/
def Info.pageView (i : Info) (a : ℕ) : PageView :=
  { read := i.flags.read
    write := i.flags.write
    exec := i.flags.exec
    shared := i.flags.shared
    backing := i.file.map fun x => (x.1, (x.2 + a) % wordSize) }

theorem view_eq_map (l : List Vma) (a : ℕ) : view l a = (infoAt l a).map fun i => i.pageView a := by
  rw [view, infoAt, Option.map_map]
  cases hfind : l.find? (fun v => decide (v.Covers a)) with
  | none => rfl
  | some v =>
    have hcovers : v.Covers a := by simpa only [decide_eq_true_eq] using List.find?_some hfind
    simp only [Option.map_some, Vma.pageView, Info.pageView, Vma.info,
      Vma.pos_eq hcovers, Option.map_map, Function.comp_def]

/-- Every area owns one reference on its file, beside the references `others` that
are held elsewhere. -/
def OwnsFiles (others : ℕ → ℤ) (s : Space) : Prop :=
  ∀ f, s.frefs f = others f + fileUses s.mmap f

/-! ## Unmapping -/

theorem fileUses_append (l l' : List Vma) (f : ℕ) :
    fileUses (l ++ l') f = fileUses l f + fileUses l' f := List.countP_append

theorem fileUses_perm {l l' : List Vma} (h : l.Perm l') (f : ℕ) : fileUses l f = fileUses l' f :=
  h.countP_eq _

theorem fileUses_remains (v : Vma) (addr fin fresh f : ℕ) :
    fileUses (remains v addr fin fresh) f =
      if v.vmFile = some f then (remains v addr fin fresh).length else 0 := by
  have hfile : ∀ w ∈ remains v addr fin fresh, decide (w.vmFile = some f) =
      decide (v.vmFile = some f) := by
    intro w hw
    rcases mem_remains.mp hw with ⟨-, rfl⟩ | ⟨-, rfl⟩ <;> rfl
  rw [fileUses, List.countP_congr (fun w hw => by rw [hfile w hw])]
  split_ifs with hv
  · exact List.countP_eq_length.mpr (fun w _ => decide_eq_true hv)
  · exact List.countP_eq_zero.mpr (fun w _ => by simpa only [decide_eq_true_eq] using hv)

/-- `unmap_fixup` replaces an unlinked area by what is left of it. -/
theorem unmapFixup_spec {s : Space} {v : Vma} {addr fin : ℕ} (h : WellFormed s.mmap)
    (hv : v.Valid) (hapart : ∀ w ∈ s.mmap, Apart v w) (haddr : pageSize ∣ addr)
    (hfin : pageSize ∣ fin) (hrange : addr < fin) (hstart : v.vmStart < fin) (hend : addr < v.vmEnd) :
    ∃ s', unmapFixup v (max addr v.vmStart) (min fin v.vmEnd) s = some s' ∧
      WellFormed s'.mmap ∧ s'.mmap.Perm (remains v addr fin s.fresh ++ s.mmap) ∧
      s'.frefs = refFile v.vmFile ((remains v addr fin s.fresh).length - 1) s.frefs ∧ s.fresh ≤ s'.fresh := by
  obtain ⟨l, hl, hwf, hperm⟩ := insertAll_spec h (remains_valid s.fresh hv haddr hfin hend)
    (remains_apart v s.fresh hrange) (fun w hw u hu => by
      obtain ⟨hlo, hhi, -⟩ := remains_inside hw hstart hend
      exact (hapart u hu).mono hlo hhi)
  refine ⟨⟨l, s.fresh + (remains v addr fin s.fresh).length,
    refFile v.vmFile ((remains v addr fin s.fresh).length - 1) s.frefs⟩, ?_, hwf, hperm, rfl,
    Nat.le_add_right ..⟩
  simp only [unmapFixup, unmapPieces_eq_remains, hl, Option.map_some]

private theorem fixup_loop (others : ℕ → ℤ) {addr fin : ℕ} (haddr : pageSize ∣ addr)
    (hfin : pageSize ∣ fin) (hrange : addr < fin) :
    ∀ (free : List Vma) (s : Space), WellFormed s.mmap → (∀ v ∈ free, v.Valid) →
      (free ++ s.mmap).Pairwise Apart → (∀ v ∈ free, v.vmStart < fin ∧ addr < v.vmEnd) →
      (∀ f, s.frefs f = others f + fileUses (free ++ s.mmap) f) →
      ∃ s', free.foldlM (fun s v => unmapFixup v (max addr v.vmStart) (min fin v.vmEnd) s) s =
          some s' ∧
        WellFormed s'.mmap ∧ OwnsFiles others s' ∧ s.fresh ≤ s'.fresh ∧
        ∀ a x, Maps s'.mmap a x ↔ Maps s.mmap a x ∨ (Maps free a x ∧ ¬ (addr ≤ a ∧ a < fin)) := by
  intro free
  induction free with
  | nil =>
    intro s hwf _ _ _ hrefs
    refine ⟨s, rfl, hwf, hrefs, le_rfl, fun a x => ?_⟩
    simp only [Maps, List.not_mem_nil, false_and, exists_false, or_false]
  | cons v free ih =>
    intro s hwf hvalid hapart hover hrefs
    obtain ⟨hv, hrest⟩ := List.pairwise_cons.mp hapart
    obtain ⟨hstart, hend⟩ := hover v List.mem_cons_self
    obtain ⟨s₁, hs₁, hwf₁, hperm₁, hrefs₁, hfresh₁⟩ := unmapFixup_spec hwf
      (hvalid v List.mem_cons_self) (fun w hw => hv w (List.mem_append_right _ hw)) haddr hfin
      hrange hstart hend
    have hswap : (free ++ s₁.mmap).Perm (remains v addr fin s.fresh ++ (free ++ s.mmap)) :=
      (hperm₁.append_left free).trans (List.perm_append_comm_assoc ..)
    have hapart₁ : (free ++ s₁.mmap).Pairwise Apart := by
      refine pairwise_apart_perm (List.pairwise_append.mpr ⟨remains_apart v s.fresh hrange, hrest, ?_⟩) hswap.symm
      intro w hw u hu
      obtain ⟨hlo, hhi, -⟩ := remains_inside hw hstart hend
      exact (hv u hu).mono hlo hhi
    have hledger : ∀ f, s₁.frefs f = others f + fileUses (free ++ s₁.mmap) f := by
      intro f
      have hold := hrefs f
      rw [List.cons_append, fileUses, List.countP_cons, ← fileUses] at hold
      rw [fileUses_perm hswap, fileUses_append, fileUses_remains, hrefs₁, refFile]
      by_cases hfile : v.vmFile = some f
      · simp only [hfile, decide_true, if_true] at hold ⊢
        push_cast at hold ⊢
        omega
      · simp only [hfile, Ne.symm hfile, decide_false, Bool.false_eq_true, if_false] at hold ⊢
        push_cast at hold ⊢
        omega
    obtain ⟨s', hs', hwf', hrefs', hfresh', hmaps'⟩ := ih s₁ hwf₁
      (fun w hw => hvalid w (List.mem_cons_of_mem v hw)) hapart₁
      (fun w hw => hover w (List.mem_cons_of_mem v hw)) hledger
    refine ⟨s', by rw [List.foldlM_cons, hs₁]; exact hs', hwf', hrefs', hfresh₁.trans hfresh', fun a x => ?_⟩
    rw [hmaps' a x, maps_perm hperm₁, maps_append, maps_remains hstart hend, maps_cons]
    tauto

theorem pageAlign_eq_of_le {x : ℕ} (hx : x ≤ kernelBase) : pageAlign x = (x + 4095) / pageSize * pageSize := by
  simp only [pageAlign, pageSize, wordSize, kernelBase] at hx ⊢
  omega

theorem pageAlign_of_dvd {x : ℕ} (h : pageSize ∣ x) (hx : x ≤ kernelBase) : pageAlign x = x :=
  pageAligned_of_dvd h hx

/-- Accepted arguments describe a range of whole pages below `KERNEL_BASE`. -/
theorem munmap_range {addr len : ℕ} (hvalid : ¬ MunmapInvalid addr len) :
    pageSize ∣ addr ∧ pageSize ∣ addr + pageAlign len ∧ addr + pageAlign len ≤ kernelBase := by
  simp only [MunmapInvalid, not_or, not_not, not_lt] at hvalid
  obtain ⟨halign, haddr, hlen⟩ := hvalid
  have hdvd : pageSize ∣ addr := Nat.dvd_of_mod_eq_zero halign
  refine ⟨hdvd, Nat.dvd_add hdvd (pageSize_dvd_pageAlign len), ?_⟩
  rw [pageAlign_eq_of_le (by omega)]
  simp only [pageSize, kernelBase] at *
  omega

theorem doMunmap_spec {others : ℕ → ℤ} {s : Space} {addr len : ℕ} (h : WellFormed s.mmap)
    (howns : OwnsFiles others s) (hvalid : ¬ MunmapInvalid addr len) :
    ∃ s', doMunmap addr len s = some (s', .ok ()) ∧ WellFormed s'.mmap ∧ OwnsFiles others s' ∧
      s.fresh ≤ s'.fresh ∧ infoAt s'.mmap = removeRange addr (addr + pageAlign len) (infoAt s.mmap) := by
  obtain ⟨haddr, hfin, -⟩ := munmap_range hvalid
  by_cases hzero : pageAlign len = 0
  · refine ⟨s, by simp only [doMunmap, if_neg hvalid, if_pos hzero], h, howns, le_rfl, funext fun a => ?_⟩
    rw [removeRange, if_neg (by omega)]
  · have hperm := unlinkRange_perm addr (addr + pageAlign len) [] s.mmap
    rw [List.append_nil] at hperm
    have hkept : WellFormed (unlinkRange addr (addr + pageAlign len) [] s.mmap).1 :=
      h.sublist (unlinkRange_sublist ..)
    have hover : ∀ v ∈ (unlinkRange addr (addr + pageAlign len) [] s.mmap).2,
        v.vmStart < addr + pageAlign len ∧ addr < v.vmEnd := by
      intro v hv
      rcases unlinkRange_free hv with hnil | hover
      · cases hnil
      · exact hover
    have hswap := List.perm_append_comm.trans hperm
    obtain ⟨s', hs', hwf', howns', hfresh', hmaps'⟩ := fixup_loop others haddr hfin (by omega)
      (unlinkRange addr (addr + pageAlign len) [] s.mmap).2
      { s with mmap := (unlinkRange addr (addr + pageAlign len) [] s.mmap).1 } hkept
      (fun v hv => h.valid v (hperm.mem_iff.mp (List.mem_append_right _ hv)))
      (pairwise_apart_perm h.apart hswap.symm) hover
      (fun f => by rw [howns f, fileUses_perm hswap])
    refine ⟨s', ?_, hwf', howns', hfresh', map_ext fun a x => ?_⟩
    · simp only [doMunmap, if_neg hvalid, if_neg hzero, hs', Option.map_some]
    · rw [infoAt_eq_some_iff hwf'.apart, hmaps' a x, removeRange]
      have hall : Maps s.mmap a x ↔
          Maps (unlinkRange addr (addr + pageAlign len) [] s.mmap).1 a x ∨
            Maps (unlinkRange addr (addr + pageAlign len) [] s.mmap).2 a x := by
        rw [← maps_append, maps_perm hperm]
      split_ifs with hin
      · refine ⟨?_, fun hnone => by cases hnone⟩
        rintro (⟨v, hv, hcovers, -⟩ | ⟨-, hout⟩)
        · have hkeep := unlinkRange_kept h hv
          obtain ⟨hc₁, hc₂⟩ := hcovers
          omega
        · exact absurd hin hout
      · rw [infoAt_eq_some_iff h.apart, hall]
        tauto

theorem doMunmap_invalid {s : Space} {addr len : ℕ} (h : MunmapInvalid addr len) :
    doMunmap addr len s = some (s, .error .EINVAL) := by
  rw [doMunmap, if_pos h]

/-! ## Mapping -/

section

variable {files : ℕ → File} {fds : ℕ → Option ℕ} {a : MmapArgs} {file : Option ℕ}

/-- What arguments that pass the checks satisfy. -/
structure Accepted (files : ℕ → File) (fds : ℕ → Option ℕ) (a : MmapArgs) (file : Option ℕ) :
    Prop where
  file_eq : mmapFile fds a = .ok file
  nonempty : pageAlign a.len ≠ 0
  fits : a.addr + pageAlign a.len ≤ kernelBase
  fixed : a.fixed = true → a.addr % pageSize = 0
  offset : file.isSome = true → a.off % pageSize = 0 ∧
    a.off ≤ (a.off + pageAlign a.len) % wordSize
  writable : a.vmFlags.shared = true → a.vmFlags.write = true →
    ∀ f ∈ file, (files f).fMode.testBit 1 = true

private theorem checkType_writable {u : Unit} (h : checkType files a file = .ok u)
    (hshared : a.vmFlags.shared = true) (hwrite : a.vmFlags.write = true) (f : ℕ) (hf : f ∈ file) :
    (files f).fMode.testBit 1 = true := by
  have htype : a.type = 1 := by simpa [MmapArgs.vmFlags] using hshared
  have hprot : a.prot.testBit 1 = true := hwrite
  rw [Option.mem_def] at hf
  subst hf
  by_contra hmode
  simp only [Bool.not_eq_true] at hmode
  simp [checkType, htype, hprot, hmode] at h

theorem checkMmap_ok (h : checkMmap files fds a = .ok file) : Accepted files fds a file := by
  cases hfile : mmapFile fds a with
  | error e =>
    rw [checkMmap, hfile] at h
    cases h
  | ok g =>
    rw [checkMmap, hfile, Except.bind] at h
    split_ifs at h with hlen hrange hfixed
    cases hcheck : checkFile files a g with
    | error e =>
      rw [hcheck, Except.bind] at h
      cases h
    | ok u =>
      cases htype : checkType files a g with
      | error e =>
        rw [hcheck, htype] at h
        simp only [Except.bind] at h
        cases h
      | ok u' =>
        rw [hcheck, htype] at h
        simp only [Except.bind, Except.ok.injEq] at h
        subst h
        refine ⟨hfile, hlen, by omega, fun hfix => ?_, fun hsome => ?_, checkType_writable htype⟩
        · by_contra hne
          exact hfixed ⟨hfix, hne⟩
        · obtain ⟨f, rfl⟩ := Option.isSome_iff_exists.mp hsome
          simp only [checkFile] at hcheck
          split_ifs at hcheck with hop halign hover
          exact ⟨not_not.mp halign, not_lt.mp hover⟩

/-- The area that `do_mmap` inserts for a mapping at `addr`. -/
def mapped (a : MmapArgs) (addr : ℕ) (file inode : Option ℕ) (fresh : ℕ) : Vma :=
  { allocVma a addr file fresh with
    vmFile := file
    vmInode := inode
    vmOps := file.map fun _ => fileMmapOps a.vmFlags }

/-- What it maps. -/
def mappedInfo (a : MmapArgs) (addr : ℕ) (file : Option ℕ) (fresh : ℕ) : Info :=
  (mapped a addr file none fresh).info

/-- The file's `mmap` operation sets the file and leaves the rest of the area. -/
theorem mmapArea_ok {addr fresh : ℕ} {w : Vma} (h : mmapArea files file (allocVma a addr file fresh) = .ok w) :
    ∃ inode, w = mapped a addr file inode fresh := by
  cases file with
  | none =>
    simp only [mmapArea, Except.ok.injEq] at h
    exact ⟨none, h.symm⟩
  | some f =>
    simp only [mmapArea, genericFileMmap] at h
    split at h
    · cases h
    · split at h
      · cases h
      · split_ifs at h
        all_goals
          simp only [Except.ok.injEq] at h
          exact ⟨_, h.symm⟩

theorem mapped_valid {addr : ℕ} (fresh : ℕ) (inode : Option ℕ) (h : Accepted files fds a file)
    (haddr : pageSize ∣ addr) (hfits : addr + pageAlign a.len ≤ kernelBase) :
    (mapped a addr file inode fresh).Valid := by
  have hlen := h.nonempty
  refine ⟨?_, haddr, Nat.dvd_add haddr (pageSize_dvd_pageAlign _), hfits, rfl, rfl⟩
  simp only [mapped, allocVma]
  omega

/-- What the call asks for at an address. -/
def MmapArgs.requested (a : MmapArgs) (file : Option ℕ) (x : ℕ) : PageView :=
  { read := a.prot.testBit 0
    write := a.prot.testBit 1
    exec := a.prot.testBit 2
    shared := a.type == 1
    backing := file.map fun f => (f, a.off + (x - a.addr)) }

theorem refFile_one (l : List Vma) (w : Vma) (frefs : ℕ → ℤ) (others : ℕ → ℤ)
    (h : ∀ f, frefs f = others f + fileUses l f) (f : ℕ) :
    refFile w.vmFile 1 frefs f = others f + fileUses (w :: l) f := by
  rw [refFile, fileUses, List.countP_cons, ← fileUses, h f]
  by_cases hfile : w.vmFile = some f
  · simp only [hfile, decide_true, if_true]
    push_cast
    omega
  · simp only [hfile, Ne.symm hfile, decide_false, Bool.false_eq_true, if_false, add_zero]

/-- The end of `do_mmap` maps the new area where nothing was mapped, or changes nothing. -/
theorem finishMmap_spec {others : ℕ → ℤ} {s : Space} {addr : ℕ} (fresh : ℕ)
    (hacc : Accepted files fds a file) (h : WellFormed s.mmap) (howns : OwnsFiles others s)
    (haddr : pageSize ∣ addr) (hfits : addr + pageAlign a.len ≤ kernelBase)
    (hnone : ∀ b, addr ≤ b ∧ b < addr + pageAlign a.len → infoAt s.mmap b = none) :
    ∃ s' r, finishMmap files file (allocVma a addr file fresh) s = some (s', r) ∧
      WellFormed s'.mmap ∧ OwnsFiles others s' ∧ s'.fresh = s.fresh ∧
      ((∃ e, r = .error e ∧ infoAt s'.mmap = infoAt s.mmap) ∨
        (r = .ok addr ∧ infoAt s'.mmap = defineRange addr (addr + pageAlign a.len)
          (fun _ => mappedInfo a addr file fresh) (infoAt s.mmap))) := by
  cases harea : mmapArea files file (allocVma a addr file fresh) with
  | error e =>
    exact ⟨s, .error e, by simp only [finishMmap, harea], h, howns, rfl, Or.inl ⟨e, rfl, rfl⟩⟩
  | ok w =>
    obtain ⟨inode, rfl⟩ := mmapArea_ok harea
    have hvalid := mapped_valid fresh inode hacc haddr hfits
    have hapart := apart_of_infoAt_none h hvalid hnone
    obtain ⟨l, hl, hwf, hperm⟩ := insertVmStruct_spec h hvalid hapart
    obtain ⟨hmerged, huses⟩ := mergeMmap_spec hwf
    refine ⟨⟨mergeMmap l, s.fresh, refFile file 1 s.frefs⟩, .ok addr, ?_, hmerged, fun f => ?_, rfl, Or.inr ⟨rfl, ?_⟩⟩
    · simp only [finishMmap, harea, hl, Option.map_some]
      rfl
    · simp only
      rw [huses f, fileUses_perm hperm]
      exact refFile_one s.mmap (mapped a addr file inode fresh) s.frefs others howns f
    · simp only
      rw [infoAt_mergeMmap hwf]
      exact infoAt_insert h hwf hapart hperm

/-- The map when `do_mmap` inserts its area. -/
def clearedMap (files : ℕ → File) (fds : ℕ → Option ℕ) (a : MmapArgs) (kzalloc : Bool)
    (l : List Vma) : ℕ → Option Info :=
  if unmapsFirst files fds a kzalloc then
    removeRange a.addr (a.addr + pageAlign a.len) (infoAt l)
  else infoAt l

/-- `do_mmap` defines a range of the map where nothing is mapped any more, or gives up
before that. -/
theorem doMmap_spec (files : ℕ → File) (fds : ℕ → Option ℕ) (a : MmapArgs) (kzalloc : Bool)
    {others : ℕ → ℤ} {s : Space} (h : WellFormed s.mmap) (howns : OwnsFiles others s) :
    ∃ s' r, doMmap files fds a kzalloc s = some (s', r) ∧ WellFormed s'.mmap ∧
      OwnsFiles others s' ∧ s.fresh ≤ s'.fresh ∧
      ((∃ e, r = .error e ∧ infoAt s'.mmap = clearedMap files fds a kzalloc s.mmap) ∨
        ∃ x file, r = .ok x ∧ checkMmap files fds a = .ok file ∧ s.fresh < s'.fresh ∧
          (a.fixed = true → x = a.addr) ∧ pageSize ∣ x ∧ x + pageAlign a.len ≤ kernelBase ∧
          (∀ b, x ≤ b ∧ b < x + pageAlign a.len →
            clearedMap files fds a kzalloc s.mmap b = none) ∧
          infoAt s'.mmap = defineRange x (x + pageAlign a.len) (fun _ => mappedInfo a x file s.fresh)
            (clearedMap files fds a kzalloc s.mmap)) := by
  cases hcheck : checkMmap files fds a with
  | error e =>
    refine ⟨s, .error e, by rw [doMmap, hcheck], h, howns, le_rfl, Or.inl ⟨e, rfl, ?_⟩⟩
    simp only [clearedMap, unmapsFirst, hcheck, Except.isOk, Except.toBool, Bool.false_and,
      Bool.false_eq_true, if_false]
  | ok file =>
    have hacc := checkMmap_ok hcheck
    have hfits := hacc.fits
    cases kzalloc with
    | false =>
      refine ⟨s, .error .ENOMEM, ?_, h, howns, le_rfl, Or.inl ⟨_, rfl, ?_⟩⟩
      · simp only [doMmap, hcheck, Bool.false_eq_true, if_false, ite_self]
      · simp only [clearedMap, unmapsFirst, Bool.and_false, Bool.false_eq_true, if_false]
    | true =>
      cases hfixed : a.fixed with
      | true =>
        have hcleared : clearedMap files fds a true s.mmap =
            removeRange a.addr (a.addr + pageAlign a.len) (infoAt s.mmap) := by
          simp only [clearedMap, unmapsFirst, hcheck, hfixed, Except.isOk, Except.toBool, Bool.and_self, if_true]
        have haligned := hacc.fixed hfixed
        have hidem : pageAlign (pageAlign a.len) = pageAlign a.len :=
          pageAlign_of_dvd (pageSize_dvd_pageAlign _) (by omega)
        have hvalid : ¬ MunmapInvalid a.addr (pageAlign a.len) := by
          simp only [MunmapInvalid, not_or, not_not, not_lt]
          exact ⟨haligned, by omega, by omega⟩
        obtain ⟨s₁, hs₁, hwf₁, howns₁, hfresh₁, hinfo₁⟩ := doMunmap_spec
          (s := { s with fresh := s.fresh + 1 }) h howns hvalid
        rw [hidem] at hinfo₁
        have hnone : ∀ b, a.addr ≤ b ∧ b < a.addr + pageAlign a.len →
            infoAt s₁.mmap b = none := by
          intro b hb
          rw [hinfo₁, removeRange, if_pos hb]
        obtain ⟨s₂, r, hs₂, hwf₂, howns₂, hfresh₂, hcases⟩ := finishMmap_spec s.fresh
          hacc hwf₁ howns₁ (Nat.dvd_of_mod_eq_zero haligned) hfits hnone
        have hlt : s.fresh < s₂.fresh := by
          rw [hfresh₂]
          exact hfresh₁
        refine ⟨s₂, r, ?_, hwf₂, howns₂, hlt.le, ?_⟩
        · simp only [doMmap, hcheck, hfixed, if_true, hs₁, Option.bind_some, hs₂]
        · rw [hcleared, ← hinfo₁]
          rcases hcases with hfail | ⟨hr, hinfo⟩
          · exact Or.inl hfail
          · exact Or.inr ⟨a.addr, file, hr, rfl, hlt, fun _ => rfl,
              Nat.dvd_of_mod_eq_zero haligned, hfits, hnone, hinfo⟩
      | false =>
        have hcleared : clearedMap files fds a true s.mmap = infoAt s.mmap := by
          simp only [clearedMap, unmapsFirst, hfixed, Bool.and_false, Bool.false_and, Bool.false_eq_true, if_false]
        by_cases hzero : getUnmappedArea a.addr (pageAlign a.len) s.mmap = 0
        · refine ⟨s, .error .ENOMEM, ?_, h, howns, le_rfl, Or.inl ⟨_, rfl, hcleared.symm⟩⟩
          simp only [doMmap, hcheck, hfixed, Bool.false_eq_true, if_false, hzero, if_true]
        · obtain ⟨hdvd, hfit, hout⟩ := getUnmappedArea_spec h hzero
          have hnone : ∀ b, getUnmappedArea a.addr (pageAlign a.len) s.mmap ≤ b ∧
              b < getUnmappedArea a.addr (pageAlign a.len) s.mmap + pageAlign a.len →
              infoAt s.mmap b = none := by
            intro b hb
            refine infoAt_none_of_apart (v := mapped a _ file none s.fresh) (fun w hw => ?_) hb
            exact (hout w hw).symm
          obtain ⟨s₂, r, hs₂, hwf₂, howns₂, hfresh₂, hcases⟩ := finishMmap_spec
            (s := { s with fresh := s.fresh + 1 }) s.fresh hacc h howns hdvd hfit hnone
          have hlt : s.fresh < s₂.fresh := by
            rw [hfresh₂]
            exact Nat.lt_succ_self _
          refine ⟨s₂, r, ?_, hwf₂, howns₂, hlt.le, ?_⟩
          · simp only [doMmap, hcheck, hfixed, Bool.false_eq_true, if_false, hzero, if_true, hs₂]
          · rw [hcleared]
            rcases hcases with hfail | ⟨hr, hinfo⟩
            · exact Or.inl hfail
            · exact Or.inr ⟨_, file, hr, rfl, hlt, fun hfix => absurd hfix Bool.false_ne_true, hdvd, hfit, hnone, hinfo⟩

/-- The area that `do_mmap` inserts maps what the call asks for. -/
private theorem mapped_pageView {fresh x : ℕ} (h : Accepted files fds a file)
    (hoff : a.off < wordSize) (hx : a.addr ≤ x ∧ x < a.addr + pageAlign a.len) :
    (mappedInfo a a.addr file fresh).pageView x = a.requested file x := by
  cases file with
  | none => rfl
  | some f =>
    have hoverflow := (h.offset rfl).2
    have hfits := h.fits
    simp only [wordSize, kernelBase] at hoff hoverflow hfits
    have hpos : ((mapped a a.addr (some f) none fresh).base + x) % wordSize =
        a.off + (x - a.addr) := by
      have hcovers : (mapped a a.addr (some f) none fresh).Covers x := hx
      rw [← Vma.pos_eq hcovers, Vma.pos]
      simp only [mapped, allocVma, Option.isSome_some, if_true, wordSize]
      omega
    simp only [mappedInfo, Info.pageView, Vma.info, MmapArgs.requested, ← hpos]
    rfl

/-- `do_mmap` with `MAP_FIXED` replaces its range in the map. -/
theorem doMmap_fixed_spec {others : ℕ → ℤ} {s : Space} (h : WellFormed s.mmap)
    (howns : OwnsFiles others s) (hfixed : a.fixed = true) (hoff : a.off < wordSize) (kzalloc : Bool) :
    ∃ s' r, doMmap files fds a kzalloc s = some (s', r) ∧ WellFormed s'.mmap ∧
      OwnsFiles others s' ∧
      ∀ x, r = .ok x → x = a.addr ∧ ∃ file, mmapFile fds a = .ok file ∧
        view s'.mmap = defineRange a.addr (a.addr + pageAlign a.len) (a.requested file)
          (removeRange a.addr (a.addr + pageAlign a.len) (view s.mmap)) := by
  obtain ⟨s', r, hs', hwf', howns', -, hcases⟩ := doMmap_spec files fds a kzalloc h howns
  refine ⟨s', r, hs', hwf', howns', fun x hx => ?_⟩
  rcases hcases with ⟨e, he, -⟩ | ⟨y, file, hy, hcheck, -, hstart, -, -, -, hinfo⟩
  · rw [he] at hx
    cases hx
  · obtain rfl : y = x := Except.ok.inj (hy.symm.trans hx)
    obtain rfl := hstart hfixed
    have hacc := checkMmap_ok hcheck
    refine ⟨rfl, file, hacc.file_eq, funext fun b => ?_⟩
    rw [view_eq_map, hinfo, defineRange, defineRange]
    split_ifs with hin
    · rw [Option.map_some, mapped_pageView hacc hoff hin]
    · have houtside : clearedMap files fds a kzalloc s.mmap b = infoAt s.mmap b := by
        rw [clearedMap]
        split_ifs
        · rw [removeRange, if_neg hin]
        · rfl
      rw [houtside, removeRange, if_neg hin, view_eq_map]

end

/-- For every well-formed area list whose areas own their files, and with memory for the
pieces of the areas that are cut: `do_munmap` removes exactly its pages, a successful `MAP_FIXED` `do_mmap` removes its pages and defines
them as requested, `merge_mmap` leaves the map unchanged, and the areas own their
files afterwards. -/
theorem mmap_calls_spec (files : ℕ → File) (fds : ℕ → Option ℕ) (others : ℕ → ℤ) (s : Space)
    (h : WellFormed s.mmap) (howns : OwnsFiles others s) :
    (∀ addr len, ¬ MunmapInvalid addr len →
      ∃ s', doMunmap addr len s = some (s', .ok ()) ∧ WellFormed s'.mmap ∧ OwnsFiles others s' ∧
        view s'.mmap = removeRange addr (addr + pageAlign len) (view s.mmap)) ∧
    (∀ (a : MmapArgs) (kzalloc : Bool), a.fixed = true → a.off < wordSize →
      ∃ s' r, doMmap files fds a kzalloc s = some (s', r) ∧ WellFormed s'.mmap ∧
        OwnsFiles others s' ∧
        ∀ x, r = .ok x → x = a.addr ∧ ∃ file, mmapFile fds a = .ok file ∧
          view s'.mmap = defineRange a.addr (a.addr + pageAlign a.len) (a.requested file)
            (removeRange a.addr (a.addr + pageAlign a.len) (view s.mmap))) ∧
    (view (mergeMmap s.mmap) = view s.mmap ∧ WellFormed (mergeMmap s.mmap) ∧
      OwnsFiles others { s with mmap := mergeMmap s.mmap }) := by
  refine ⟨fun addr len hvalid => ?_,
    fun a kzalloc hfixed hoff => doMmap_fixed_spec h howns hfixed hoff kzalloc,
    ?_, (mergeMmap_spec h).1, fun f => ?_⟩
  · obtain ⟨s', hs', hwf', howns', -, hinfo⟩ := doMunmap_spec h howns hvalid
    refine ⟨s', hs', hwf', howns', funext fun b => ?_⟩
    rw [view_eq_map, hinfo, removeRange, removeRange]
    split_ifs
    · rfl
    · rw [view_eq_map]
  · funext b
    rw [view_eq_map, infoAt_mergeMmap h, view_eq_map]
  · rw [(mergeMmap_spec h).2 f]
    exact howns f

/-- A space with one private file area of four pages. -/
def fileSpace : Space :=
  { mmap := [{ ptr := 1, vmStart := 0x1000, vmEnd := 0x5000
               vmFlags := ⟨true, false, false, false, false⟩, vmPageProt := ⟨true, false⟩
               vmFile := some 7, vmInode := some 3, vmOffset := 0
               vmOps := some .filePrivate, area := 1 }]
    fresh := 2
    frefs := fun f => if f = 7 then 2 else 0 }

theorem fileSpace_wellFormed : WellFormed fileSpace.mmap := by
  refine ⟨List.pairwise_singleton .., fun v hv => ?_⟩
  rw [fileSpace, List.mem_singleton] at hv
  subst hv
  exact ⟨by decide, by decide, by decide, by decide, rfl, rfl⟩

theorem fileSpace_owns : OwnsFiles (fun f => if f = 7 then 1 else 0) fileSpace := by
  intro f
  by_cases hf : f = 7
  · subst hf
    rfl
  · simp [fileSpace, fileUses, hf, Ne.symm hf]

/-- Cutting the second page out of the area leaves two areas, and the file is
referenced once more than before. -/
theorem mmap_calls_spec_fileSpace :
    WellFormed fileSpace.mmap ∧ OwnsFiles (fun f => if f = 7 then 1 else 0) fileSpace ∧
      ∃ s', doMunmap 0x2000 0x1000 fileSpace = some (s', .ok ()) ∧
        OwnsFiles (fun f => if f = 7 then 1 else 0) s' ∧
        view s'.mmap = removeRange 0x2000 0x3000 (view fileSpace.mmap) := by
  refine ⟨fileSpace_wellFormed, fileSpace_owns, ?_⟩
  obtain ⟨s', hs', -, howns', hview'⟩ := (mmap_calls_spec (fun _ => ⟨3, none, none⟩)
    (fun _ => none) (fun f => if f = 7 then 1 else 0) fileSpace fileSpace_wellFormed
    fileSpace_owns).1 0x2000 0x1000 (by decide)
  exact ⟨s', hs', howns', hview'⟩

/-! ## Mappings come and go -/

/-- The addresses of a mapping, given by its start and its length. -/
def extent (r : ℕ × ℕ) : Set ℕ := Set.Ico r.1 (r.1 + pageAlign r.2)

theorem mem_extent {r : ℕ × ℕ} {b : ℕ} : b ∈ extent r ↔ r.1 ≤ b ∧ b < r.1 + pageAlign r.2 := Iff.rfl

/-- A call of `do_mmap` without `MAP_FIXED`, or of `do_munmap` on one of the mappings `out` that such calls made. -/
inductive Turn (files : ℕ → File) (fds : ℕ → Option ℕ) : Space × List (ℕ × ℕ) → Space × List (ℕ × ℕ) → Prop
  | mmap {s s' out a k r} : a.fixed = false → a.len < wordSize → doMmap files fds a k s = some (s', r) →
      Turn files fds (s, out) (s', (r.toOption.map fun x => (x, a.len)).toList ++ out)
  | munmap {s s' out r e} : r ∈ out → doMunmap r.1 r.2 s = some (s', e) → Turn files fds (s, out) (s', out.erase r)

/-- The mappings are apart, in what was free, and all else is mapped as it was. -/
structure Lent (m : ℕ → Option Info) (others : ℕ → ℤ) (s : Space) (out : List (ℕ × ℕ)) : Prop where
  wellFormed : WellFormed s.mmap
  owns : OwnsFiles others s
  accepted : ∀ r ∈ out, ¬ MunmapInvalid r.1 r.2
  apart : out.Pairwise fun r q => ∀ b ∈ extent r, b ∉ extent q
  free : ∀ r ∈ out, ∀ b ∈ extent r, m b = none ∧ infoAt s.mmap b ≠ none
  kept : ∀ b, (∀ r ∈ out, b ∉ extent r) → infoAt s.mmap b = m b

theorem Lent.turn {files : ℕ → File} {fds : ℕ → Option ℕ} {m : ℕ → Option Info} {others : ℕ → ℤ}
    {p q : Space × List (ℕ × ℕ)} (h : Lent m others p.1 p.2) (hturn : Turn files fds p q) : Lent m others q.1 q.2 := by
  cases hturn with
  | @mmap s s' out a k r hfixed hlen hcall =>
    obtain ⟨s₁, r₁, hs₁, hwf, howns, -, hcases⟩ := doMmap_spec files fds a k h.wellFormed h.owns
    obtain ⟨rfl, rfl⟩ := Prod.mk.inj (Option.some.inj (hs₁.symm.trans hcall))
    have hclear : clearedMap files fds a k s.mmap = infoAt s.mmap := by simp [clearedMap, unmapsFirst, hfixed]
    rw [hclear] at hcases
    obtain ⟨e, rfl, hinfo⟩ | ⟨x, file, rfl, hcheck, -, -, hdvd, hfits, hfree, hinfo⟩ := hcases
    · exact ⟨hwf, howns, h.accepted, h.apart, hinfo ▸ h.free, hinfo ▸ h.kept⟩
    · have hout : ∀ r ∈ out, ∀ b ∈ extent r, b ∉ extent (x, a.len) := fun r hr b hb hx =>
        (h.free r hr b hb).2 (hfree b hx)
      refine ⟨hwf, howns, List.forall_mem_cons.mpr ⟨?_, h.accepted⟩, List.pairwise_cons.mpr
        ⟨fun r hr b hx hb => hout r hr b hb hx, h.apart⟩,
        List.forall_mem_cons.mpr ⟨fun b hb => ⟨?_, ?_⟩, fun r hr b hb => ⟨(h.free r hr b hb).1, ?_⟩⟩, fun b hb => ?_⟩
      · have hne := (checkMmap_ok hcheck).nonempty
        simp only [MunmapInvalid, pageAlign, pageSize, kernelBase, wordSize] at *
        omega
      · exact (h.kept b fun r hr hbr => hout r hr b hbr hb).symm.trans (hfree b hb)
      · simp [hinfo, defineRange, mem_extent.mp hb]
      · rw [hinfo, defineRange, if_neg (mt mem_extent.mpr (hout r hr b hb))]
        exact (h.free r hr b hb).2
      · obtain ⟨hx, hrest⟩ := List.forall_mem_cons.mp hb
        rw [hinfo, defineRange, if_neg (mt mem_extent.mpr hx)]
        exact h.kept b hrest
  | @munmap s s' out r e hr hcall =>
    obtain ⟨s₁, hs₁, hwf, howns, -, hinfo⟩ := doMunmap_spec h.wellFormed h.owns (h.accepted r hr)
    obtain ⟨rfl, -⟩ := Prod.mk.inj (Option.some.inj (hs₁.symm.trans hcall))
    have hperm := List.perm_cons_erase hr
    obtain ⟨hapart, hrest⟩ := List.pairwise_cons.mp ((hperm.pairwise_iff fun hd b hb hq => hd b hq hb).mp h.apart)
    have hmem : ∀ q ∈ out.erase r, q ∈ out := fun q => List.mem_of_mem_erase
    refine ⟨hwf, howns, fun q hq => h.accepted q (hmem q hq), hrest, fun q hq b hb =>
      ⟨(h.free q (hmem q hq) b hb).1, ?_⟩, fun b hb => ?_⟩
    · rw [hinfo, removeRange, if_neg fun hbr => hapart q hq b (mem_extent.mpr hbr) hb]
      exact (h.free q (hmem q hq) b hb).2
    · rw [hinfo, removeRange]
      split_ifs with hbr
      · exact (h.free r hr b hbr).1.symm
      · refine h.kept b fun q hq => ?_
        obtain rfl | hq := List.mem_cons.mp (hperm.mem_iff.mp hq)
        · exact hbr
        · exact hb q hq

/-- Whatever is mapped and unmapped in turns, in any order, each mapping gets free addresses and gives them back. -/
theorem mappings_come_and_go (files : ℕ → File) (fds : ℕ → Option ℕ) (others : ℕ → ℤ) (s₀ : Space)
    (p : Space × List (ℕ × ℕ)) (hwf : WellFormed s₀.mmap) (howns : OwnsFiles others s₀)
    (hturns : Relation.ReflTransGen (Turn files fds) (s₀, []) p) : Lent (infoAt s₀.mmap) others p.1 p.2 := by
  induction hturns with
  | refl => exact ⟨hwf, howns, by simp, by simp, by simp, fun b _ => rfl⟩
  | tail _ hturn ih => exact ih.turn hturn

/-- The space after an anonymous mapping. -/
def afterMapping (len prot : ℕ) (s : Space) : Space :=
  ((doMmap (fun _ => ⟨3, none, none⟩) (fun _ => none) ⟨0, len, prot, 0x22, wordSize - 1, 0⟩ true s).map Prod.fst).getD s

/-- One page is mapped and two more, and then the first one is given back. -/
theorem mappings_come_and_go_page :
    ∃ s, Lent (infoAt fileSpace.mmap) (fun f => if f = 7 then 1 else 0) s [(0x40001000, 0x2000)] := by
  have hfirst : Turn (fun _ => ⟨3, none, none⟩) (fun _ => none) (fileSpace, [])
      (afterMapping 0x1000 3 fileSpace, [(0x40000000, 0x1000)]) :=
    .mmap (a := ⟨0, 0x1000, 3, 0x22, wordSize - 1, 0⟩) (k := true) (r := .ok 0x40000000) rfl (by decide) rfl
  have hsecond : Turn (fun _ => ⟨3, none, none⟩) (fun _ => none) (afterMapping 0x1000 3 fileSpace, [(0x40000000, 0x1000)])
      (afterMapping 0x2000 1 (afterMapping 0x1000 3 fileSpace), [(0x40001000, 0x2000), (0x40000000, 0x1000)]) :=
    .mmap (a := ⟨0, 0x2000, 1, 0x22, wordSize - 1, 0⟩) (k := true) (r := .ok 0x40001000) rfl (by decide) rfl
  have hthird : Turn (fun _ => ⟨3, none, none⟩) (fun _ => none)
      (afterMapping 0x2000 1 (afterMapping 0x1000 3 fileSpace), [(0x40001000, 0x2000), (0x40000000, 0x1000)])
      (_, [(0x40001000, 0x2000)]) :=
    .munmap (r := (0x40000000, 0x1000)) (e := .ok ()) (by decide) rfl
  exact ⟨_, mappings_come_and_go _ _ _ fileSpace _ fileSpace_wellFormed fileSpace_owns
    (((Relation.ReflTransGen.refl.tail hfirst).tail hsecond).tail hthird)⟩

end Mario.Mm
