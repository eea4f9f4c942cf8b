import Mario.Fs.ExecLoad
import Mario.Fs.ExecPages

/-!
# A failed execve gives everything back

The descriptor, the file and the inode are given back when the file is one that can be executed. The
argument pages are given back once when the first of them can be mapped, and the pages of the
strings are given back when the first string does not fill its page.
-/

namespace Mario.Fs.Exec

open Mario.Lib Mario.Lib.Bytes Mario.Mm Function

variable {ρ : Type*} {t t' : Task ρ}

/-! ## What is compared -/

/-- A file as long as it is open. -/
def openFile (t : Task ρ) (f : ℕ) : Option Files.File :=
  if (t.file f).fCount = 0 then none else some (t.file f)

/-- A descriptor as long as it is open, with its flag. -/
def descriptor (t : Task ρ) (fd : ℕ) : Option (ℕ × Bool) :=
  (t.fd fd).map fun f => (f, t.closeOnExec fd)

/-- Everything is as before: the descriptors, the open files, the references to inodes, the frames
that are allocated, the address space and the signals. -/
structure Untouched (t t' : Task ρ) : Prop where
  descriptor : descriptor t' = descriptor t
  openFile : openFile t' = openFile t
  inodeCount : t'.inodeCount = t.inodeCount
  used : t'.frames.used = t.frames.used
  rest : t'.rest = t.rest

/-- What is said of a call. -/
def Clean (t : Task ρ) : ExecResult ρ → Prop
  | .refused _ t' => Untouched t t'
  | .flushed _ pages events => SettledOnce pages events

/-! ## When it holds -/

/-- `do_openat` can open the file. -/
structure Opens (e : ExecEnv) (t : Task ρ) : Prop where
  fd : ∃ fd < nrOpen, t.fd fd = none
  file : ∃ f < Files.nrFile, (t.file f).fCount = 0
  namei : ∃ i, e.namei = .ok i
  openError : e.openError = none

/-- The file is one that can be executed. -/
structure ExecEnv.Executable (e : ExecEnv) : Prop where
  isReg : e.isReg = true
  hasSb : e.hasSb = true
  hasRead : e.hasRead = true

/-- The call comes to its arguments: the file is open and its headers are good. -/
structure Prepared (e : ExecEnv) (t : Task ρ) : Prop where
  opens : Opens e t
  executable : e.Executable
  headers : ∃ exe, e.program.prepExec e.stray e.kmalloc = .ok exe

/-- The call ends with its arguments: they cannot be copied, or there are too many. -/
def ArgsRefused (u : UserSpace) (fuel : ℕ) (argv envp : Word) (m : Frames) : Prop :=
  ∃ r x, prepArgs u fuel argv envp m = some (r, x) ∧
    ∀ argc envc, r = .ok (argc, envc) → pageSize < getNWord argc envc * 4

/-- The call goes on to `flush_old_exec`. -/
def ArgsTaken (u : UserSpace) (fuel : ℕ) (argv envp : Word) (m : Frames) : Prop :=
  ∃ argc envc x, prepArgs u fuel argv envp m = some (.ok (argc, envc), x) ∧
    getNWord argc envc * 4 ≤ pageSize

/-- Nothing goes wrong at the stages that the call comes to; `m` are the frames when its name has been
read. -/
structure Careful (u : UserSpace) (fuel : ℕ) (argv envp : Word) (e : ExecEnv) (t : Task ρ) (m : Frames) : Prop where
  /-- A file that is opened can be executed. -/
  opened : Opens e t → e.Executable
  /-- When the call ends with its arguments, the first string that is copied does not fill its page. -/
  refused : Prepared e t → ArgsRefused u fuel argv envp m → ¬ FillsFirst u argv envp m
  /-- When it goes on, the first argument page can be mapped, and they are different frames. -/
  taken : Prepared e t → ArgsTaken u fuel argv envp m → e.setPage 0 = true ∧ PagesApart u.mem argv envp m.answers

/-! ## The descriptor -/

theorem Untouched.refl (t : Task ρ) : Untouched t t := ⟨rfl, rfl, rfl, rfl, rfl⟩

theorem openFile_of_free {f : ℕ} {file : ℕ → Files.File} (hfree : (t.file f).fCount = 0)
    (hnew : (file f).fCount = 0) (hother : ∀ g, g ≠ f → file g = t.file g)
    (hfile : t'.file = file) : openFile t' = openFile t := by
  funext g
  unfold openFile
  rw [hfile]
  by_cases hg : g = f
  · rw [hg, if_pos hnew, if_pos hfree]
  · rw [hother g hg]

theorem descriptor_of_free {fd : ℕ} (hfree : t.fd fd = none) (hfd : t'.fd = t.fd)
    (hclose : ∀ k, k ≠ fd → t'.closeOnExec k = t.closeOnExec k) : descriptor t' = descriptor t := by
  funext k
  unfold descriptor
  rw [hfd]
  by_cases hk : k = fd
  · rw [hk, hfree]
    rfl
  · rw [hclose k hk]

/-- What a call has taken when its file is open. -/
structure Opened (t : Task ρ) (fd f i : ℕ) (t' : Task ρ) : Prop where
  fdFree : t.fd fd = none
  fileFree : (t.file f).fCount = 0
  slots : t'.fd = update t.fd fd (some f)
  closeOnExec : ∀ k, k ≠ fd → t'.closeOnExec k = t.closeOnExec k
  fCount : (t'.file f).fCount = 1
  fInode : (t'.file f).fInode = some i
  file : ∀ g, g ≠ f → t'.file g = t.file g
  inodeCount : t'.inodeCount = update t.inodeCount i (t.inodeCount i + 1)
  frames : t'.frames = t.frames
  rest : t'.rest = t.rest

/-- `do_openat` leaves nothing behind when it fails, and has opened the file otherwise. -/
theorem doOpenat_cases (e : ExecEnv) (t : Task ρ) :
    (¬ Opens e t ∧ ∃ err t', doOpenat e t = (.error err, t') ∧ Untouched t t') ∨
      Opens e t ∧ ∃ fd f i t', doOpenat e t = (.ok (fd, f), t') ∧ Opened t fd f i t' := by
  unfold doOpenat
  rcases hfd : (List.range nrOpen).find? fun fd => t.fd fd = none with _ | fd
  · refine Or.inl ⟨fun h => ?_, _, t, rfl, Untouched.refl t⟩
    obtain ⟨fd, hlt, hnone⟩ := h.fd
    exact List.find?_eq_none.mp hfd fd (List.mem_range.mpr hlt) (by simpa using hnone)
  have hfdFree : t.fd fd = none := by simpa using List.find?_some hfd
  have hclose (k : ℕ) (hk : k ≠ fd) : update t.closeOnExec fd false k = t.closeOnExec k := update_of_ne hk _ _
  dsimp only
  rcases hf : (List.range Files.nrFile).find? fun f => (t.file f).fCount = 0 with _ | f
  · refine Or.inl ⟨fun h => ?_, _, _, rfl, ⟨?_, rfl, rfl, rfl, rfl⟩⟩
    · obtain ⟨f, hlt, hzero⟩ := h.file
      exact List.find?_eq_none.mp hf f (List.mem_range.mpr hlt) (by simpa using hzero)
    · exact descriptor_of_free hfdFree rfl hclose
  have hfFree : (t.file f).fCount = 0 := by simpa using List.find?_some hf
  dsimp only
  rcases hnamei : e.namei with err | i
  · refine Or.inl ⟨fun h => ?_, err, _, rfl, ⟨?_, ?_, ?_, ?_, ?_⟩⟩
    · obtain ⟨i, hi⟩ := h.namei
      rw [hnamei] at hi
      cases hi
    all_goals simp only [releaseFile, update_self, Files.File.empty]
    · exact descriptor_of_free hfdFree rfl hclose
    · refine openFile_of_free hfFree (f := f) ?_ ?_ rfl
      · simp only [update_self]
      · intro g hg
        simp only [update_of_ne hg]
  dsimp only
  rcases hopen : e.openError with _ | err
  · refine Or.inr ⟨?_, fd, f, i, _, rfl, ?_⟩
    · exact ⟨⟨fd, List.mem_range.mp (List.mem_of_find?_eq_some hfd), hfdFree⟩,
        ⟨f, List.mem_range.mp (List.mem_of_find?_eq_some hf), hfFree⟩, ⟨i, hnamei⟩, hopen⟩
    refine ⟨hfdFree, hfFree, rfl, hclose, ?_, ?_, ?_, rfl, rfl, rfl⟩
    · simp only [update_self, Files.File.empty]
    · simp only [update_self]
    · intro g hg
      simp only [update_of_ne hg]
  · refine Or.inl ⟨fun h => ?_, err, _, rfl, ⟨?_, ?_, ?_, ?_, ?_⟩⟩
    · have hnone := h.openError
      rw [hopen] at hnone
      cases hnone
    all_goals simp only [releaseFile, update_self, Files.File.empty]
    · exact descriptor_of_free hfdFree rfl hclose
    · refine openFile_of_free hfFree (f := f) ?_ ?_ rfl
      · simp only [update_self]
      · intro g hg
        simp only [update_of_ne hg]
    · rw [Nat.add_sub_cancel, update_idem, update_eq_self]

/-- Closing the descriptor gives back what the call has taken. -/
theorem Opened.close {fd f i : ℕ} (h : Opened t fd f i t') {m : Frames} (hused : m.used = t.frames.used) :
    Untouched t (sysClose fd f { t' with frames := m }) := by
  refine ⟨?_, ?_, ?_, ?_, ?_⟩
  all_goals simp only [sysClose, releaseFile, h.fInode]
  · refine descriptor_of_free h.fdFree ?_ ?_
    · simp only [h.slots, update_idem]
      rw [← h.fdFree, update_eq_self]
    · intro k hk
      simp only [update_of_ne hk, h.closeOnExec k hk]
  · refine openFile_of_free h.fileFree (f := f) ?_ ?_ rfl
    · simp only [update_self, h.fCount]
    · intro g hg
      simp only [update_of_ne hg, h.file g hg]
  · rw [h.inodeCount, update_self, Nat.add_sub_cancel, update_idem, update_eq_self]
  · exact hused
  · exact h.rest

/-! ## The call -/

/-- What is left of a call that has gone wrong: a descriptor, a frame, or pages that are not mapped or
released once. -/
def Dirty (t : Task ρ) : ExecResult ρ → Prop
  | .refused _ t' => (∃ fd, t.fd fd = none ∧ t'.fd fd ≠ none) ∨ ∃ l, t.frames.used l = false ∧ t'.frames.used l = true
  | .flushed _ pages events => ¬ SettledOnce pages events

theorem Dirty.not_clean {r : ExecResult ρ} (h : Dirty t r) : ¬ Clean t r := by
  intro hclean
  cases r with
  | refused err t' =>
    rcases h with ⟨fd, hfree, hopen⟩ | ⟨l, hfree, hused⟩
    · have hsame := congrFun hclean.descriptor fd
      rw [descriptor, descriptor, hfree, Option.map_none, Option.map_eq_none_iff] at hsame
      exact hopen hsame
    · rw [hclean.used, hfree] at hused
      cases hused
  | flushed err pages events => exact h hclean

theorem pagesApart_iff {mem : Bytes} {argv envp : Word} {answers : List (Option ℕ)} {args envs : List (List Byte)}
    (hargs : Passed mem argv args) (henvs : Passed mem envp envs) :
    PagesApart mem argv envp answers ↔ (pageAnswers (fills (nonempty (args ++ envs))) answers).Nodup := by
  constructor
  · rintro ⟨args', envs', hargs', henvs', hnodup⟩
    rwa [hargs.unique hargs', henvs.unique henvs']
  · exact fun hnodup => ⟨args, envs, hargs, henvs, hnodup⟩

/-- The end of a call that has refused its arguments. -/
theorem Opened.refused {fd f i fuel : ℕ} {u : UserSpace} {argv envp : Word} {r : Except ℤ (ℕ × ℕ)} {x : Args}
    (h : Opened t fd f i t') (hprep : prepArgs u fuel argv envp t.frames = some (r, x)) (err : ℤ) :
    (¬ FillsFirst u argv envp t.frames ∧
        Clean t (.refused err (sysClose fd f { t' with frames := putPages (tailPages x.argPage) x.frames }))) ∨
      FillsFirst u argv envp t.frames ∧
        Dirty t (.refused err (sysClose fd f { t' with frames := putPages (tailPages x.argPage) x.frames })) := by
  rcases prepArgs_cases hprep with ⟨hfirst, l, hleak⟩ | ⟨hnot, hpages⟩
  · refine Or.inr ⟨hfirst, Or.inr ⟨l, hleak.free, ?_⟩⟩
    simpa only [sysClose, releaseFile, h.fInode] using hleak.put
  · refine Or.inl ⟨hnot, h.close ?_⟩
    rcases hpages with ⟨g₀, hone⟩ | ⟨hno, hused⟩
    · exact hone.put
    · rw [hno]
      exact hused

/-- A call of `do_execveat` is clean when nothing goes wrong, and leaves something otherwise. -/
theorem doExecveat_cases {u : UserSpace} {fuel : ℕ} {argv envp : Word} {e : ExecEnv} {r : ExecResult ρ}
    (hrun : doExecveat u fuel argv envp e t = some r) :
    (Careful u fuel argv envp e t t.frames ∧ Clean t r) ∨ ¬ Careful u fuel argv envp e t t.frames ∧ Dirty t r := by
  unfold doExecveat at hrun
  rcases doOpenat_cases e t with ⟨hnot, err, t', hopen, hsame⟩ | ⟨hopens, fd, f, i, t', hopen, h⟩
  · simp only [openExecat, hopen] at hrun
    cases hrun
    exact Or.inl ⟨⟨fun ho => absurd ho hnot, fun hp => absurd hp.opens hnot, fun hp => absurd hp.opens hnot⟩, hsame⟩
  by_cases hexec : e.Executable
  swap
  · have hexecat : openExecat e t = (.error (-eacces), t') := by
      rw [openExecat, hopen]
      dsimp only
      rw [if_pos]
      by_contra hall
      simp only [not_or, Bool.not_eq_false] at hall
      exact hexec ⟨hall.1, hall.2.1, hall.2.2⟩
    rw [hexecat] at hrun
    cases hrun
    refine Or.inr ⟨fun hc => hexec (hc.opened hopens), Or.inl ⟨fd, h.fdFree, ?_⟩⟩
    rw [h.slots, update_self]
    exact Option.some_ne_none f
  have hexecat : openExecat e t = (.ok (fd, f), t') := by
    rw [openExecat, hopen]
    dsimp only
    rw [if_neg (by simp [hexec.isReg, hexec.hasSb, hexec.hasRead])]
  rw [hexecat] at hrun
  dsimp only at hrun
  rcases hprep : e.program.prepExec e.stray e.kmalloc with err | exe
  · rw [hprep] at hrun
    cases hrun
    have hnot : ¬ Prepared e t := by
      rintro ⟨-, -, exe, hexe⟩
      rw [hprep] at hexe
      cases hexe
    exact Or.inl ⟨⟨fun _ => hexec, fun hp => absurd hp hnot, fun hp => absurd hp hnot⟩,
      h.close (m := t'.frames) (by rw [h.frames])⟩
  rw [hprep] at hrun
  have hprepared : Prepared e t := ⟨hopens, hexec, exe, hprep⟩
  obtain ⟨⟨res, x⟩, hargs, hrest⟩ := Option.bind_eq_some_iff.mp hrun
  rw [h.frames] at hargs
  by_cases hmany : ∀ argc envc, res = .ok (argc, envc) → pageSize < getNWord argc envc * 4
  · obtain ⟨err, rfl⟩ : ∃ err, r = .refused err (sysClose fd f { t' with
        frames := putPages (tailPages x.argPage) x.frames }) := by
      cases res with
      | error err =>
        cases hrest
        exact ⟨err, rfl⟩
      | ok n =>
        dsimp only at hrest
        rw [if_pos (hmany n.1 n.2 rfl)] at hrest
        cases hrest
        exact ⟨_, rfl⟩
    have hnot : ¬ ArgsTaken u fuel argv envp t.frames := by
      rintro ⟨argc, envc, x', htaken, hle⟩
      rw [hargs] at htaken
      cases htaken
      exact absurd (hmany argc envc rfl) (Nat.not_lt.mpr hle)
    rcases h.refused hargs err with ⟨hfirst, hclean⟩ | ⟨hfirst, hdirty⟩
    · exact Or.inl ⟨⟨fun _ => hexec, fun _ _ => hfirst, fun _ ht => absurd ht hnot⟩, hclean⟩
    · exact Or.inr ⟨fun hc => hc.refused hprepared ⟨res, x, hargs, hmany⟩ hfirst, hdirty⟩
  · push Not at hmany
    obtain ⟨argc, envc, rfl, hle⟩ := hmany
    dsimp only at hrest
    rw [if_neg (Nat.not_lt.mpr hle)] at hrest
    have hnot : ¬ ArgsRefused u fuel argv envp t.frames := by
      rintro ⟨res, x', hrefused, hmany⟩
      rw [hargs] at hrefused
      cases hrefused
      exact absurd (hmany argc envc rfl) (Nat.not_lt.mpr hle)
    obtain ⟨args, envs, hpassed, hpassed', -⟩ := prepArgs_ok hargs
    have hsettled := (prepArgs_paged hpassed hpassed' hargs).settled_iff (e := e)
    rw [← pagesApart_iff hpassed hpassed'] at hsettled
    obtain ⟨err, rfl⟩ : ∃ err, r = .flushed err (argPages x.argPage) (pageEvents e x) := by
      obtain ⟨m, -, hend⟩ := Option.bind_eq_some_iff.mp hrest
      dsimp only at hend
      split_ifs at hend
      · obtain ⟨m', -, rfl⟩ := Option.map_eq_some_iff.mp hend
        exact ⟨_, rfl⟩
      · cases hend
        exact ⟨_, rfl⟩
    by_cases hgood : e.setPage 0 = true ∧ PagesApart u.mem argv envp t.frames.answers
    · exact Or.inl ⟨⟨fun _ => hexec, fun _ hr => absurd hr hnot, fun _ _ => hgood⟩, hsettled.mpr hgood⟩
    · exact Or.inr ⟨fun hc => hgood (hc.taken hprepared ⟨argc, envc, x, hargs, hle⟩), hsettled.not.mpr hgood⟩

/-- The stages do not depend on the frames of the task. -/
theorem careful_frames {u : UserSpace} {fuel : ℕ} {argv envp : Word} {e : ExecEnv} {m : Frames} :
    Careful u fuel argv envp e { t with frames := m } m ↔ Careful u fuel argv envp e t m := by
  have hopens : Opens e { t with frames := m } ↔ Opens e t :=
    ⟨fun h => ⟨h.fd, h.file, h.namei, h.openError⟩, fun h => ⟨h.fd, h.file, h.namei, h.openError⟩⟩
  have hprepared : Prepared e { t with frames := m } ↔ Prepared e t :=
    ⟨fun h => ⟨hopens.mp h.opens, h.executable, h.headers⟩, fun h => ⟨hopens.mpr h.opens, h.executable, h.headers⟩⟩
  constructor
  · exact fun h => ⟨fun ho => h.opened (hopens.mpr ho), fun hp => h.refused (hprepared.mpr hp),
      fun hp => h.taken (hprepared.mpr hp)⟩
  · exact fun h => ⟨fun ho => h.opened (hopens.mp ho), fun hp => h.refused (hprepared.mp hp),
      fun hp => h.taken (hprepared.mp hp)⟩

/-- A call of `execve` that is refused has changed nothing, and after `flush_old_exec` every
argument page is mapped or released once, exactly when nothing goes wrong at the stages that the call
comes to. -/
theorem execve_clean (u : UserSpace) (fuel : ℕ) (filename argv envp : Word) (e : ExecEnv) (t : Task ρ)
    {r : ExecResult ρ} (hrun : sysExecve u fuel filename argv envp e t = some r) :
    Clean t r ↔ ∀ g str m, getname u filename t.frames = (.ok (g, str), m) → Careful u fuel argv envp e t m := by
  unfold sysExecve at hrun
  rcases hname : getname u filename t.frames with ⟨err | ⟨g, str⟩, m⟩
  · rw [hname] at hrun
    cases hrun
    refine iff_of_true ⟨rfl, rfl, rfl, (getname_error hname).1, rfl⟩ fun g str m' h => ?_
    cases h
  rw [hname] at hrun
  obtain ⟨r₁, hexecveat, hrest⟩ := Option.bind_eq_some_iff.mp hrun
  obtain ⟨-, -, -, m₁, halloc, rfl⟩ := getname_ok hname
  obtain ⟨hunused, -, hused, -⟩ := Frames.alloc_spec halloc
  have honly : (∀ g' str' m', ((Except.ok (g, str), m₁.putString g str) :
      Except ℤ (ℕ × List Byte) × Frames) = (.ok (g', str'), m') → Careful u fuel argv envp e t m') ↔ Careful u fuel argv envp e t (m₁.putString g str) :=
    ⟨fun hall => hall g str _ rfl, fun hc g' str' m' heq => (Prod.mk.inj heq).2 ▸ hc⟩
  rw [honly, ← careful_frames]
  rcases doExecveat_cases hexecveat with ⟨hc, hclean⟩ | ⟨hc, hdirty⟩
  · refine iff_of_true ?_ hc
    cases r₁ with
    | refused err t₁ =>
      obtain ⟨m', hfree, rfl⟩ := Option.map_eq_some_iff.mp hrest
      rw [Frames.pageFree, if_pos (Nat.mul_mod_left g pageSize), Nat.mul_div_cancel g (by decide)] at hfree
      cases hfree
      refine ⟨hclean.descriptor, hclean.openFile, hclean.inodeCount, ?_, hclean.rest⟩
      have hkept : t₁.frames.used = m₁.used := hclean.used
      simp only [Frames.free, hkept, hused]
      exact update_update_false hunused
    | flushed err pages events =>
      cases hrest
      exact hclean
  · refine iff_of_false (Dirty.not_clean ?_) hc
    cases r₁ with
    | refused err t₁ =>
      obtain ⟨m', hfree, rfl⟩ := Option.map_eq_some_iff.mp hrest
      rw [Frames.pageFree, if_pos (Nat.mul_mod_left g pageSize), Nat.mul_div_cancel g (by decide)] at hfree
      cases hfree
      rcases hdirty with hopen | ⟨l, hbefore, hleft⟩
      · exact Or.inl hopen
      · -- the page of the name is another one
        have hfree : m₁.used l = false := hbefore
        have hne : l ≠ g := by
          rintro rfl
          rw [hused, update_self] at hfree
          cases hfree
        rw [hused, update_of_ne hne] at hfree
        refine Or.inr ⟨l, hfree, ?_⟩
        simp only [Frames.free, update_of_ne hne, hleft]
    | flushed err pages events =>
      cases hrest
      exact hdirty

/-! ## Two calls -/

/-- A task without open files, and with four free pages. -/
def freshTask : Task Unit where
  fd := fun _ => none
  closeOnExec := fun _ => false
  file := fun _ => ⟨0, 0, 0, 0, none, .null, 0⟩
  inodeCount := fun _ => 1
  frames := { data := fun _ _ => 0, used := fun _ => false, count := fun _ => 0
              answers := [some 1, some 2, some 3, some 4] }
  rest := ()

/-- The file is a program; there is no page for the stack. -/
def programEnv (isReg : Bool) : ExecEnv where
  toMapEnv := easyEnv.toMapEnv
  namei := .ok 7
  openError := none
  isReg := isReg
  hasSb := true
  hasRead := true
  program := smallProgram 20
  setPage := fun _ => true
  stackPage := false
  setStackPage := true

theorem caller_not_filling (m : Frames) : ¬ FillsFirst (caller (oneString 0x61)) 0x1000 0 m := by
  rintro ⟨g, m₁, -, ⟨-, hfirst⟩ | ⟨-, hne, -⟩⟩
  · cases hfirst with
    | here _ hfill =>
      obtain ⟨g', str, hname, hlen⟩ := hfill
      have hpair : getname (caller (oneString 0x61)) 0x2000 m₁ = (.ok (g', str), _) := Prod.ext hname rfl
      obtain ⟨hstr, -⟩ := getname_ok hpair
      have hlt : 1 < str.length := by
        rw [hlen]
        decide
      exact hstr.nonzero _ (List.getElem_mem hlt) ((hstr.bytes 1 hlt).symm.trans (by decide))
    | next _ hname _ =>
      have hpair : getname (caller (oneString 0x61)) 0x2000 m₁ = (.error (-enoent), _) := Prod.ext hname rfl
      have hnul : (caller (oneString 0x61)).mem 0x2000 = 0 := (getname_enoent hpair).1
      exact absurd hnul (by decide)
  · exact absurd rfl hne

theorem caller_pagesApart (answers : List (Option ℕ)) : PagesApart (caller (oneString 0x61)).mem 0x1000 0 answers := by
  refine ⟨[[0x61]], [], oneString_args, rfl, ?_⟩
  have hfills : fills (nonempty ([[0x61]] ++ [])) = 0 := by decide
  rw [hfills]
  exact List.nodup_singleton _

theorem programEnv_runs : (sysExecve (caller (oneString 0x61)) 3 0x2000 0x1000 0 (programEnv true) freshTask).isSome = true := by
  decide +kernel

/-- A call that fails for want of a stack. -/
theorem execve_clean_no_stack :
    ∃ r, sysExecve (caller (oneString 0x61)) 3 0x2000 0x1000 0 (programEnv true) freshTask = some r ∧
      Clean freshTask r := by
  obtain ⟨r, hrun⟩ := Option.isSome_iff_exists.mp programEnv_runs
  refine ⟨r, hrun, (execve_clean _ _ _ _ _ _ _ hrun).mpr fun g str m _ => ?_⟩
  exact ⟨fun _ => ⟨rfl, rfl, rfl⟩, fun _ _ => caller_not_filling m, fun _ _ => ⟨rfl, caller_pagesApart m.answers⟩⟩

/-- The descriptors that a refused call leaves. -/
def ExecResult.slot : ExecResult ρ → ℕ → Option ℕ
  | .refused _ t => t.fd
  | .flushed _ _ _ => fun _ => none

theorem Clean.slot {r : ExecResult ρ} (h : Clean t r) {fd f : ℕ} (hf : r.slot fd = some f) : t.fd fd = some f := by
  cases r with
  | refused err t' =>
    have hd := congrFun h.descriptor fd
    have hf : t'.fd fd = some f := hf
    simp only [descriptor, hf, Option.map_some] at hd
    obtain ⟨g, hg, heq⟩ := Option.map_eq_some_iff.mp hd.symm
    obtain ⟨rfl, -⟩ := Prod.mk.inj heq
    exact hg
  | flushed err pages events => cases hf

/-- A directory is opened and refused, and its descriptor stays. -/
theorem refused_directory_stays_open :
    ∃ r, sysExecve (caller (oneString 0x61)) 3 0x2000 0x1000 0 (programEnv false) freshTask = some r ∧
      ¬ Clean freshTask r := by
  have hleft : (sysExecve (caller (oneString 0x61)) 3 0x2000 0x1000 0 (programEnv false) freshTask).bind
      (fun r => r.slot 0) = some 0 := by
    decide +kernel
  obtain ⟨r, hrun, hslot⟩ := Option.bind_eq_some_iff.mp hleft
  refine ⟨r, hrun, fun hclean => ?_⟩
  cases hclean.slot hslot

end Mario.Fs.Exec
