import Mario.Fs.Char.Pty
import Mario.Lib.Runs

/-!
# The counts of a pseudo-terminal

In every run that meets the condition on forks the open counts of a pair are the numbers of its open files,
and exactly one call is about to use or to free a slot that is taken and has no open file.
-/

namespace Mario.Fs.PtyDriver

open Mario.Lib Function

variable {s s' : State} {f g p : ℕ} {x y : File} {z : Pty} {m n u m' n' u' : ℕ}

/-! ## The invariant -/

/-- A pair with `m` open masters, `n` open slaves and `u` calls that use its slot. -/
structure Slot (z : Pty) (m n u : ℕ) : Prop where
  masters : z.masterOpen = m
  slaves : z.slaveOpen = n
  count : z.count = n + if m = 0 then 0 else 1
  free : z.state = .free → m = 0 ∧ n = 0
  users : u = if z.state = .allocated ∧ m = 0 ∧ n = 0 then 1 else 0

def users (s : State) (p : ℕ) : ℕ := cells nrFile fun f => (s.files f).usesSlot p

def Slots (s : State) : Prop := ∀ p, Slot (s.ptys p) (openFiles s p true) (openFiles s p false) (users s p)

/-- A call has the only reference to its file, and only a file with a pair is a master. -/
structure File.Wf (x : File) : Prop where
  single : x.phase ≠ .idle → x.fCount = 1
  fresh : x.phase = .opening → x.privateData = none
  plain : x.privateData = none → x.master = false

/-- The files that forks copy are open. -/
structure Copies (s : State) : Prop where
  wf : ∀ f, (s.files f).Wf
  copies : ∀ f < nrFile, ∀ g, (s.files f).phase = .copying g →
    g < nrFile ∧ (s.files g).isIdle ∧ (s.files f).privateData = (s.files g).privateData ∧
      (s.files f).master = (s.files g).master
  forks : ∀ l ∈ s.forks, ∀ g ∈ l, g < nrFile ∧ (s.files g).isIdle

structure Inv (s : State) : Prop where
  slots : Slots s
  copies : Copies s
  asserted : s.failed = false

/-! ## One file changes -/

@[simp] theorem files_setFile (s : State) (f : ℕ) (y : File) : (s.setFile f y).files = update s.files f y := rfl

@[simp] theorem ptys_setFile (s : State) (f : ℕ) (y : File) : (s.setFile f y).ptys = s.ptys := rfl

@[simp] theorem files_setPty (s : State) (p : ℕ) (z : Pty) : (s.setPty p z).files = s.files := rfl

@[simp] theorem ptys_setPty (s : State) (p : ℕ) (z : Pty) : (s.setPty p z).ptys = update s.ptys p z := rfl

theorem openFiles_setFile (hf : f < nrFile) (s : State) (y : File) (p : ℕ) (master : Bool) :
    openFiles (s.setFile f y) p master + ((s.files f).opens p master).toNat =
      openFiles s p master + (y.opens p master).toNat := by
  have hchange := @cells_change f nrFile (fun g => (s.files g).opens p master)
    (fun g => ((s.setFile f y).files g).opens p master) hf fun g hne => by
      rw [files_setFile, update_of_ne hne]
  simpa only [openFiles, files_setFile, update_self] using hchange

theorem users_setFile (hf : f < nrFile) (s : State) (y : File) (p : ℕ) :
    users (s.setFile f y) p + ((s.files f).usesSlot p).toNat = users s p + (y.usesSlot p).toNat := by
  have hchange := @cells_change f nrFile (fun g => (s.files g).usesSlot p)
    (fun g => ((s.setFile f y).files g).usesSlot p) hf fun g hne => by
      rw [files_setFile, update_of_ne hne]
  simpa only [users, files_setFile, update_self] using hchange

theorem openFiles_ne_zero (hg : g < nrFile) (hpos : 0 < (s.files g).fCount)
    (hdata : (s.files g).privateData = some p) (hphase : (s.files g).phase = .idle ∨ (s.files g).phase = .closing) :
    openFiles s p (s.files g).master ≠ 0 := by
  refine Nat.ne_of_gt (cells_pos.mpr ⟨g, hg, ?_⟩)
  simp [File.opens, hpos, hdata, hphase]

/-- What a file counts for. -/
def File.weight (x : File) (p : ℕ) : ℕ × ℕ × ℕ :=
  ((x.opens p true).toNat, (x.opens p false).toNat, (x.usesSlot p).toNat)

theorem Slots.change (h : Slots s) (hf : f < nrFile) (hother : ∀ q, q ≠ p → y.weight q = (s.files f).weight q)
    (hslot : ∀ m n u m' n' u', Slot (s.ptys p) m n u →
      m' + ((s.files f).weight p).1 = m + (y.weight p).1 →
      n' + ((s.files f).weight p).2.1 = n + (y.weight p).2.1 →
      u' + ((s.files f).weight p).2.2 = u + (y.weight p).2.2 → Slot z m' n' u') :
    Slots ((s.setPty p z).setFile f y) := by
  intro q
  have hm := openFiles_setFile hf (s.setPty p z) y q true
  have hn := openFiles_setFile hf (s.setPty p z) y q false
  have hu := users_setFile hf (s.setPty p z) y q
  by_cases hq : q = p
  · subst hq
    rw [ptys_setFile, ptys_setPty, update_self]
    exact hslot _ _ _ _ _ _ (h q) hm hn hu
  · have hsame := hother q hq
    simp only [File.weight, Prod.mk.injEq] at hsame
    obtain ⟨hmasters, hslaves, husers⟩ := hsame
    rw [files_setPty] at hm hn hu
    have hm' : openFiles ((s.setPty p z).setFile f y) q true = openFiles s q true := by
      change _ = openFiles (s.setPty p z) q true
      omega
    have hn' : openFiles ((s.setPty p z).setFile f y) q false = openFiles s q false := by
      change _ = openFiles (s.setPty p z) q false
      omega
    have hu' : users ((s.setPty p z).setFile f y) q = users s q := by
      change _ = users (s.setPty p z) q
      omega
    rw [hm', hn', hu', ptys_setFile, ptys_setPty, update_of_ne hq]
    exact h q

theorem Slots.setFile (h : Slots s) (hf : f < nrFile) (hsame : ∀ q, y.weight q = (s.files f).weight q) :
    Slots (s.setFile f y) := by
  have hchange : Slots ((s.setPty 0 (s.ptys 0)).setFile f y) :=
    h.change hf (fun q _ => hsame q) fun m n u m' n' u' hslot hm hn hu => by
      rw [hsame 0] at hm hn hu
      obtain rfl : m' = m := by omega
      obtain rfl : n' = n := by omega
      obtain rfl : u' = u := by omega
      exact hslot
  have hpty : s.setPty 0 (s.ptys 0) = s := by
    rw [State.setPty, update_eq_self]
  rwa [hpty] at hchange

/-- No fork needs the file. -/
def Unused (s : State) (f : ℕ) : Prop :=
  (∀ l ∈ s.forks, f ∉ l) ∧ ∀ e < nrFile, (s.files e).phase ≠ .copying f

theorem Copies.unused (h : Copies s) (hf : ¬ (s.files f).isIdle) : Unused s f :=
  ⟨fun l hl hin => hf (h.forks l hl f hin).2, fun e he hcopy => hf (h.copies e he f hcopy).2.1⟩

/-- A file changes that no fork needs, or it stays open on the same pair. -/
theorem Copies.setFile (h : Copies s) (hwf : y.Wf)
    (hold : Unused s f ∨ y.isIdle ∧ y.privateData = (s.files f).privateData ∧ y.master = (s.files f).master)
    (hcopy : ∀ g, y.phase = .copying g → g ≠ f ∧ g < nrFile ∧ (s.files g).isIdle ∧
      y.privateData = (s.files g).privateData ∧ y.master = (s.files g).master) : Copies (s.setFile f y) := by
  constructor
  · intro e
    rw [files_setFile]
    by_cases hef : e = f
    · subst hef
      rwa [update_self]
    · rw [update_of_ne hef]
      exact h.wf e
  · intro e he g hphase
    rw [files_setFile] at hphase ⊢
    by_cases hef : e = f
    · subst hef
      rw [update_self] at hphase ⊢
      obtain ⟨hne, hrest⟩ := hcopy g hphase
      rw [update_of_ne hne]
      exact hrest
    · rw [update_of_ne hef] at hphase ⊢
      obtain ⟨hg, hopen, hdata, hmaster⟩ := h.copies e he g hphase
      by_cases hgf : g = f
      · subst hgf
        rw [update_self]
        obtain hunused | ⟨hy, hydata, hymaster⟩ := hold
        · exact absurd hphase (hunused.2 e he)
        · exact ⟨hg, hy, hdata.trans hydata.symm, hmaster.trans hymaster.symm⟩
      · rw [update_of_ne hgf]
        exact ⟨hg, hopen, hdata, hmaster⟩
  · intro l hl g hg
    obtain ⟨hlt, hopen⟩ := h.forks l hl g hg
    refine ⟨hlt, ?_⟩
    rw [files_setFile]
    by_cases hgf : g = f
    · subst hgf
      rw [update_self]
      obtain hunused | ⟨hy, -, -⟩ := hold
      · exact absurd hg (hunused.1 l hl)
      · exact hy
    · rwa [update_of_ne hgf]

theorem Copies.setPty (h : Copies s) (p : ℕ) (z : Pty) : Copies (s.setPty p z) := ⟨h.wf, h.copies, h.forks⟩

theorem isIdle_iff : x.isIdle = true ↔ 0 < x.fCount ∧ x.phase = .idle := by
  rw [File.isIdle, decide_eq_true_eq]

/-- A call is done with a file that counts for nothing, or goes on with it. -/
theorem Inv.setFile (h : Inv s) (hf : f < nrFile) (hold : ¬ (s.files f).isIdle)
    (hsame : ∀ q, y.weight q = (s.files f).weight q) (hwf : y.Wf)
    (hcopy : ∀ g, y.phase = .copying g → g ≠ f ∧ g < nrFile ∧ (s.files g).isIdle ∧
      y.privateData = (s.files g).privateData ∧ y.master = (s.files g).master) :
    Inv (s.setFile f y) :=
  ⟨h.slots.setFile hf hsame, h.copies.setFile hwf (.inl (h.copies.unused hold)) hcopy, h.asserted⟩

theorem Inv.change (h : Inv s) (hold : ¬ (s.files f).isIdle) (hslots : Slots ((s.setPty p z).setFile f y)) (hwf : y.Wf)
    (hcopy : ∀ g, y.phase ≠ .copying g) : Inv ((s.setPty p z).setFile f y) :=
  ⟨hslots, (h.copies.setPty p z).setFile hwf (.inl ((h.copies.setPty p z).unused hold))
    fun g hg => absurd hg (hcopy g), h.asserted⟩

/-! ## Opening -/

theorem not_isIdle (h : (s.files f).phase ≠ .idle) : ¬ (s.files f).isIdle := by
  rw [isIdle_iff]
  exact fun hidle => h hidle.2

theorem Inv.phase_of_free (h : Inv s) (hfree : (s.files f).fCount = 0) : (s.files f).phase = .idle := by
  by_contra hphase
  have hone := (h.copies.wf f).single hphase
  omega

theorem Inv.openFile (h : Inv s) (hf : f < nrFile) (hfree : (s.files f).fCount = 0) : Inv (PtyDriver.openFile s f) := by
  have hphase := h.phase_of_free hfree
  refine h.setFile hf ?_ ?_ ⟨by simp, by simp, by simp⟩ (by simp)
  · rw [isIdle_iff, hfree]
    exact fun hidle => absurd hidle.1 (Nat.lt_irrefl 0)
  · intro q
    simp [File.weight, File.opens, File.usesSlot, hfree, hphase]

/-- The file of a call that counts for nothing. -/
def Idle (x : File) : Prop := x.phase = .opening ∨ (∃ g, x.phase = .copying g) ∨ x.phase = .closed false

theorem Idle.ne_idle (h : Idle x) : x.phase ≠ .idle := by
  obtain h | ⟨g, h⟩ | h := h <;> simp [h]

theorem Idle.weight (h : Idle x) (q : ℕ) : x.weight q = (0, 0, 0) := by
  obtain h | ⟨g, h⟩ | h := h <;> simp [File.weight, File.opens, File.usesSlot, h]

/-- The only reference to a file that counts for nothing is dropped. -/
theorem Inv.putFile (h : Inv s) (hf : f < nrFile) (hx : Idle (s.files f)) : Inv (PtyDriver.putFile s f) := by
  have hone := (h.copies.wf f).single hx.ne_idle
  refine h.setFile hf (not_isIdle hx.ne_idle) (fun q => ?_) ⟨by simp, by simp, (h.copies.wf f).plain⟩ (by simp)
  rw [hx.weight q]
  simp [File.weight, File.opens, File.usesSlot, hone]

theorem Inv.ptyMasterOpen (h : Inv s) (hf : f < nrFile) (hphase : (s.files f).phase = .opening) :
    Inv (PtyDriver.ptyMasterOpen s f) := by
  have hx : Idle (s.files f) := .inl hphase
  have hone := (h.copies.wf f).single hx.ne_idle
  unfold PtyDriver.ptyMasterOpen
  split
  · rename_i p hp
    have hfree : (s.ptys p).state = .free := by simpa using List.find?_some hp
    refine h.change (not_isIdle hx.ne_idle) (h.slots.change hf (fun q hq => ?_) ?_)
      ⟨fun _ => hone, by simp, (h.copies.wf f).plain⟩ (by simp)
    · rw [hx.weight q]
      simp [File.weight, File.opens, File.usesSlot, hq.symm]
    · intro m n u m' n' u' hslot hm hn hu
      rw [hx.weight p] at hm hn hu
      obtain ⟨hm0, hn0⟩ := hslot.free hfree
      have hu0 := hslot.users
      simp only [hfree, reduceCtorEq, false_and, if_false] at hu0
      simp [File.weight, File.opens, File.usesSlot] at hm hn hu
      subst hm0 hn0 hu0
      exact ⟨by simpa [hm] using hslot.masters, by simpa [hn] using hslot.slaves, by simpa [hm, hn] using hslot.count,
        by simp, by simp [hm, hn, hu]⟩
  · exact h.putFile hf hx

theorem Inv.ptyMasterInit (h : Inv s) (hf : f < nrFile) (hphase : (s.files f).phase = .allocated p) :
    Inv (PtyDriver.ptyMasterInit s f p) := by
  have hne : (s.files f).phase ≠ .idle := by simp [hphase]
  have hone := (h.copies.wf f).single hne
  refine h.change (not_isIdle hne) (h.slots.change hf (fun q hq => ?_) ?_) ⟨by simp, by simp, by simp⟩ (by simp)
  · simp [File.weight, File.opens, File.usesSlot, hphase, hq.symm]
  · intro m n u m' n' u' hslot hm hn hu
    simp [File.weight, File.opens, File.usesSlot, hphase, hone] at hm hn hu
    have husers := hslot.users
    split_ifs at husers with hused
    · obtain ⟨hstate, rfl, rfl⟩ := hused
      exact ⟨by simp [hm], by simp [hn], by simp [hm, hn], by simp [hstate], by simp [hm]; omega⟩
    · omega

theorem Slot.openSlave (h : Slot z m n u) (hstate : z.state = .allocated) (hused : m ≠ 0 ∨ n ≠ 0) :
    Slot { z with slaveOpen := z.slaveOpen + 1, count := z.count + 1 } m (n + 1) u := by
  have husers := h.users
  rw [if_neg (by omega)] at husers
  refine ⟨h.masters, congrArg (· + 1) h.slaves, ?_, by simp [hstate], ?_⟩
  · change z.count + 1 = _
    rw [h.count]
    omega
  · rw [if_neg (by omega), husers]

theorem Slot.openMaster (h : Slot z m n u) (hstate : z.state = .allocated) (hm : m ≠ 0) :
    Slot { z with masterOpen := z.masterOpen + 1 } (m + 1) n u := by
  have husers := h.users
  rw [if_neg (by omega)] at husers
  refine ⟨congrArg (· + 1) h.masters, h.slaves, ?_, by simp [hstate], ?_⟩
  · have hcount := h.count
    rw [if_neg hm] at hcount
    rw [if_neg (Nat.succ_ne_zero m)]
    exact hcount
  · rw [if_neg (by omega), husers]

/-- A file that counts for nothing becomes an open file of a pair. -/
theorem Inv.opened (h : Inv s) (hf : f < nrFile) (hx : Idle (s.files f)) (hcount : y.fCount = 1)
    (hdata : y.privateData = some p) (hphase : y.phase = .idle)
    (hslot : ∀ m n u, Slot (s.ptys p) m n u → m = openFiles s p true → n = openFiles s p false →
      Slot z (m + y.master.toNat) (n + (!y.master).toNat) u) : Inv ((s.setPty p z).setFile f y) := by
  have hslots : Slots ((s.setPty p z).setFile f y) := by
    have hp := h.slots p
    refine h.slots.change hf (fun q hq => ?_) ?_
    · rw [hx.weight q]
      simp [File.weight, File.opens, File.usesSlot, hdata, hphase, hq.symm]
    · intro m n u m' n' u' hold hm hn hu
      rw [hx.weight p] at hm hn hu
      have hz := hslot m n u hold (hold.masters.symm.trans hp.masters) (hold.slaves.symm.trans hp.slaves)
      simp only [File.weight, File.opens, File.usesSlot, hcount, hdata, hphase] at hm hn hu
      cases hmaster : y.master <;> simp [hmaster] at hm hn hu hz
      all_goals
        subst hm hn hu
        exact hz
  exact h.change (not_isIdle hx.ne_idle) hslots ⟨fun _ => hcount, by simp [hphase], by simp [hdata]⟩ (by simp [hphase])

theorem Inv.ptyBindSlave (h : Inv s) (hf : f < nrFile) (hphase : (s.files f).phase = .opening) : Inv (PtyDriver.ptyBindSlave s f p) := by
  have hx : Idle (s.files f) := .inl hphase
  have hmaster := (h.copies.wf f).plain ((h.copies.wf f).fresh hphase)
  unfold PtyDriver.ptyBindSlave
  dsimp only
  split_ifs with hfails
  · exact h.putFile hf hx
  · simp only [not_or, ne_eq, not_not] at hfails
    obtain ⟨hstate, hopen, -⟩ := hfails
    refine h.opened hf hx ((h.copies.wf f).single hx.ne_idle) rfl rfl fun m n u hslot hm hn => ?_
    have hm0 : m ≠ 0 := hslot.masters ▸ hopen
    simpa [hmaster] using hslot.openSlave hstate (.inl hm0)

/-! ## Copying -/

theorem Inv.nextFile {l : List ℕ} {k : ℕ} (h : Inv s) (hk : s.forks[k]? = some (g :: l)) :
    Inv { s with forks := s.forks.set k l } := by
  refine ⟨h.slots, ⟨h.copies.wf, h.copies.copies, fun l' hl' e he => ?_⟩, h.asserted⟩
  obtain hin | rfl := List.mem_or_eq_of_mem_set hl'
  · exact h.copies.forks l' hin e he
  · exact h.copies.forks _ (List.mem_of_getElem? hk) e (List.mem_cons_of_mem g he)

theorem Inv.copyFd {l : List ℕ} {k : ℕ} (h : Inv s) (hk : s.forks[k]? = some (g :: l)) (hf : f < nrFile)
    (hfree : (s.files f).fCount = 0) : Inv (PtyDriver.copyFd { s with forks := s.forks.set k l } f g) := by
  have hphase := h.phase_of_free hfree
  obtain ⟨hg, hopen⟩ := h.copies.forks _ (List.mem_of_getElem? hk) g List.mem_cons_self
  have hgf : g ≠ f := by
    rintro rfl
    have hpos := (isIdle_iff.mp hopen).1
    omega
  have hidle : ¬ (s.files f).isIdle := by
    rw [isIdle_iff, hfree]
    exact fun hidle => absurd hidle.1 (Nat.lt_irrefl 0)
  refine (h.nextFile hk).setFile hf hidle (fun q => ?_) ⟨by simp, ?_, (h.copies.wf g).plain⟩ fun e he => ?_
  · split_ifs <;> simp [File.weight, File.opens, File.usesSlot, hfree, hphase]
  · dsimp only
    split_ifs with hdata
    · exact fun _ => hdata
    · simp
  · dsimp only at he ⊢
    split_ifs at he
    obtain rfl : g = e := by simpa using he
    exact ⟨hgf, hg, hopen, rfl, rfl⟩

theorem Inv.ptyDupOpen (h : Inv s) (hf : f < nrFile) (hphase : (s.files f).phase = .copying g)
    (hdata : (s.files f).privateData = some p) : Inv (PtyDriver.ptyDupOpen s f p) := by
  have hx : Idle (s.files f) := .inr (.inl ⟨g, hphase⟩)
  have hone := (h.copies.wf f).single hx.ne_idle
  obtain ⟨hg, hopen, hsame, hmaster⟩ := h.copies.copies f hf g hphase
  obtain ⟨hpos, hidle⟩ := isIdle_iff.mp hopen
  -- The file that was copied is open on the same pair.
  have hsource : openFiles s p (s.files f).master ≠ 0 := by
    rw [hmaster]
    exact openFiles_ne_zero hg hpos (hsame.symm.trans hdata) (.inl hidle)
  unfold PtyDriver.ptyDupOpen
  dsimp only
  split_ifs with hm hfails hfails
  · exact h.putFile hf hx
  · simp only [not_or, ne_eq, not_not] at hfails
    refine h.opened hf hx hone hdata rfl fun m n u hslot _ _ => ?_
    simpa [hm] using hslot.openMaster hfails.1 (hslot.masters ▸ hfails.2)
  · exact h.putFile hf hx
  · rw [Bool.not_eq_true] at hm
    rw [hm] at hsource
    refine h.opened hf hx hone hdata rfl fun m n u hslot _ hn => ?_
    simpa [hm] using hslot.openSlave (not_not.mp hfails) (.inr (hn ▸ hsource))

/-! ## Closing -/

theorem Inv.fref (h : Inv s) (hf : f < nrFile) (hidle : (s.files f).isIdle) :
    Inv (s.setFile f { s.files f with fCount := (s.files f).fCount + 1 }) := by
  obtain ⟨hpos, hphase⟩ := isIdle_iff.mp hidle
  refine ⟨h.slots.setFile hf fun q => ?_, h.copies.setFile ⟨by simp [hphase], by simp [hphase], (h.copies.wf f).plain⟩
    (.inr ⟨by simp [isIdle_iff, hphase], rfl, rfl⟩) (by simp [hphase]), h.asserted⟩
  simp [File.weight, File.opens, File.usesSlot, hpos, hphase]

theorem Inv.releaseFile (h : Inv s) (hf : f < nrFile) (hidle : (s.files f).isIdle)
    (hunused : (s.files f).fCount ≤ 1 → Unused s f) : Inv (PtyDriver.releaseFile s f) := by
  obtain ⟨hpos, hphase⟩ := isIdle_iff.mp hidle
  unfold PtyDriver.releaseFile
  split_ifs with hmany
  · have hpred : 0 < (s.files f).fCount - 1 := by omega
    refine ⟨h.slots.setFile hf fun q => ?_, h.copies.setFile ⟨by simp [hphase], by simp [hphase], (h.copies.wf f).plain⟩
      (.inr ⟨by simp [isIdle_iff, hphase, hpred], rfl, rfl⟩) (by simp [hphase]), h.asserted⟩
    simp [File.weight, File.opens, File.usesSlot, hpos, hphase, hpred]
  · have hone : (s.files f).fCount = 1 := by omega
    refine ⟨h.slots.setFile hf fun q => ?_, h.copies.setFile ⟨fun _ => hone, by simp, (h.copies.wf f).plain⟩
      (.inl (hunused (by omega))) (by simp), h.asserted⟩
    simp [File.weight, File.opens, File.usesSlot, hone, hphase]

theorem Inv.closed {reusable : Bool} (h : Inv s) (hf : f < nrFile) (hphase : (s.files f).phase = .closing)
    (hdata : (s.files f).privateData = some p)
    (hslot : ∀ m n, Slot (s.ptys p) (m + (s.files f).master.toNat) (n + (!(s.files f).master).toNat) 0 →
      Slot z m n reusable.toNat) : Inv ((s.setPty p z).setFile f { s.files f with phase := .closed reusable }) := by
  have hne : (s.files f).phase ≠ .idle := by simp [hphase]
  have hone := (h.copies.wf f).single hne
  refine h.change (not_isIdle hne) (h.slots.change hf (fun q hq => ?_) ?_)
    ⟨fun _ => hone, by simp, (h.copies.wf f).plain⟩ (by simp)
  · simp [File.weight, File.opens, File.usesSlot, hphase, hdata, hq.symm]
  · intro m n u m' n' u' hold hm hn hu
    have husers := hold.users
    simp only [File.weight, File.opens, File.usesSlot, hone, hdata, hphase] at hm hn hu
    cases hmaster : (s.files f).master
    all_goals
      simp [hmaster] at hm hn hu
      rw [if_neg (by omega)] at husers
      subst husers
      obtain rfl : u' = reusable.toNat := by omega
      refine hslot m' n' ?_
      simp only [hmaster, Bool.toNat_true, Bool.toNat_false, Bool.not_true, Bool.not_false, Nat.add_zero]
      rwa [hm, hn]

theorem Slot.allocated (h : Slot z m n u) (hopen : ¬ (m = 0 ∧ n = 0)) : z.state = .allocated := by
  cases hstate : z.state with
  | free => exact absurd (h.free hstate) hopen
  | allocated => rfl

theorem Slot.closeMaster (h : Slot z (m + 1) n 0) (hm : m ≠ 0) :
    Slot { z with masterOpen := z.masterOpen - 1 } m n 0 := by
  have hmasters := h.masters
  have hcount := h.count
  have hstate := h.allocated (by omega)
  rw [if_neg (by omega)] at hcount
  refine ⟨by simp [hmasters], h.slaves, ?_, by simp [hstate], ?_⟩
  · rw [if_neg hm]
    exact hcount
  · rw [if_neg (by omega)]

theorem Slot.hangUp (h : Slot z (m + 1) n 0) (hm : m = 0) :
    Slot { z with masterOpen := z.masterOpen - 1, count := z.count - 1, hungUp := true } m n
      (decide (z.slaveOpen = 0)).toNat := by
  have hmasters := h.masters
  have hslaves := h.slaves
  have hcount := h.count
  have hstate := h.allocated (by omega)
  rw [if_neg (by omega)] at hcount
  subst hm
  refine ⟨by simp [hmasters], hslaves, by simp [hcount], by simp [hstate], ?_⟩
  simp only [hstate, hslaves, true_and]
  by_cases hn : n = 0 <;> simp [hn]

theorem Slot.closeSlave (h : Slot z m (n + 1) 0) :
    Slot { z with slaveOpen := z.slaveOpen - 1, count := z.count - 1 } m n
      (decide (z.masterOpen = 0 ∧ z.slaveOpen - 1 = 0)).toNat := by
  have hmasters := h.masters
  have hslaves := h.slaves
  have hcount := h.count
  have hstate := h.allocated (by omega)
  refine ⟨hmasters, by simp [hslaves], ?_, by simp [hstate], ?_⟩
  · change z.count - 1 = _
    omega
  · simp only [hstate, hmasters, hslaves, true_and, Nat.add_sub_cancel]
    by_cases hfree : m = 0 ∧ n = 0 <;> simp [hfree]

theorem Inv.ptyReleaseMaster (h : Inv s) (hf : f < nrFile) (hphase : (s.files f).phase = .closing)
    (hdata : (s.files f).privateData = some p) (hmaster : (s.files f).master = true) :
    Inv (PtyDriver.ptyReleaseMaster s f p) := by
  have hslot := h.slots p
  have hone := (h.copies.wf f).single (by simp [hphase])
  have hopen := openFiles_ne_zero hf (by omega) hdata (.inr hphase)
  rw [hmaster] at hopen
  have hm : (s.ptys p).masterOpen ≠ 0 := hslot.masters ▸ hopen
  have hcount : (s.ptys p).count ≠ 0 := by
    have hcount := hslot.count
    rw [if_neg hopen] at hcount
    omega
  unfold PtyDriver.ptyReleaseMaster
  dsimp only
  rw [if_neg hm]
  split_ifs with hlast
  · refine h.closed hf hphase hdata fun m n hold => ?_
    simp only [hmaster, Bool.toNat_true, Bool.not_true, Bool.toNat_false, Nat.add_zero] at hold
    have hmasters := hold.masters
    exact hold.hangUp (by omega)
  · refine @Inv.closed _ _ _ _ false h hf hphase hdata fun m n hold => ?_
    simp only [hmaster, Bool.toNat_true, Bool.not_true, Bool.toNat_false, Nat.add_zero] at hold
    have hmasters := hold.masters
    exact hold.closeMaster (by omega)

theorem Inv.ptyReleaseSlave (h : Inv s) (hf : f < nrFile) (hphase : (s.files f).phase = .closing)
    (hdata : (s.files f).privateData = some p) (hmaster : (s.files f).master = false) :
    Inv (PtyDriver.ptyReleaseSlave s f p) := by
  have hslot := h.slots p
  have hone := (h.copies.wf f).single (by simp [hphase])
  have hopen := openFiles_ne_zero hf (by omega) hdata (.inr hphase)
  rw [hmaster] at hopen
  have hn : (s.ptys p).slaveOpen ≠ 0 := hslot.slaves ▸ hopen
  have hcount : (s.ptys p).count ≠ 0 := by
    have hcount := hslot.count
    omega
  unfold PtyDriver.ptyReleaseSlave
  dsimp only
  rw [if_neg hn, if_neg hcount]
  refine h.closed hf hphase hdata fun m n hold => ?_
  simp only [hmaster, Bool.toNat_false, Bool.not_false, Bool.toNat_true, Nat.add_zero] at hold
  exact hold.closeSlave

theorem Inv.ptyRelease (h : Inv s) (hf : f < nrFile) (hphase : (s.files f).phase = .closing)
    (hdata : (s.files f).privateData = some p) : Inv (PtyDriver.ptyRelease s f p) := by
  unfold PtyDriver.ptyRelease
  split_ifs with hmaster
  · exact h.ptyReleaseMaster hf hphase hdata hmaster
  · exact h.ptyReleaseSlave hf hphase hdata (by simpa using hmaster)

theorem Inv.ptyFree (h : Inv s) (hf : f < nrFile) (hphase : (s.files f).phase = .closed true)
    (hdata : (s.files f).privateData = some p) : Inv (PtyDriver.ptyFree s f p) := by
  have hne : (s.files f).phase ≠ .idle := by simp [hphase]
  have hone := (h.copies.wf f).single hne
  refine h.change (not_isIdle hne) (h.slots.change hf (fun q hq => ?_) ?_)
    ⟨fun _ => hone, by simp, (h.copies.wf f).plain⟩ (by simp)
  · simp [File.weight, File.opens, File.usesSlot, hphase, hdata, hq.symm]
  · intro m n u m' n' u' hslot hm hn hu
    simp [File.weight, File.opens, File.usesSlot, hphase, hdata] at hm hn hu
    have husers := hslot.users
    split_ifs at husers with hused
    · obtain ⟨hstate, rfl, rfl⟩ := hused
      obtain rfl : u' = 0 := by omega
      subst hm hn
      exact ⟨hslot.masters, hslot.slaves, hslot.count, fun _ => ⟨rfl, rfl⟩, by simp⟩
    · omega

theorem Inv.ptyLock (h : Inv s) (p : ℕ) (locked : Bool) : Inv (s.setPty p { s.ptys p with slaveLocked := locked }) := by
  refine ⟨fun q => ?_, h.copies.setPty p _, h.asserted⟩
  have hslot := h.slots q
  by_cases hq : q = p
  · subst hq
    rw [ptys_setPty, update_self]
    exact ⟨hslot.masters, hslot.slaves, hslot.count, hslot.free, hslot.users⟩
  · rw [ptys_setPty, update_of_ne hq]
    exact hslot

/-! ## Runs -/

theorem Inv.step {l : Label} (h : Inv s) (hgood : Good s l) (hstep : Step s l s') : Inv s' := by
  unfold Step at hstep
  cases l with
  | openFile f =>
    simp only [exec, Option.ite_none_right_eq_some, Option.some.injEq] at hstep
    obtain ⟨⟨-, hf, hfree⟩, rfl⟩ := hstep
    exact h.openFile hf hfree
  | openFails f =>
    simp only [exec, Option.ite_none_right_eq_some, Option.some.injEq] at hstep
    obtain ⟨⟨-, hf, hphase⟩, rfl⟩ := hstep
    exact h.putFile hf (.inl hphase)
  | ptyMasterOpen f =>
    simp only [exec, Option.ite_none_right_eq_some, Option.some.injEq] at hstep
    obtain ⟨⟨-, hf, hphase⟩, rfl⟩ := hstep
    exact h.ptyMasterOpen hf hphase
  | ptyMasterInit f =>
    simp only [exec] at hstep
    split at hstep
    · rename_i p hphase
      simp only [Option.ite_none_right_eq_some, Option.some.injEq] at hstep
      obtain ⟨⟨-, hf⟩, rfl⟩ := hstep
      exact h.ptyMasterInit hf hphase
    · cases hstep
  | ptyBindSlave f p =>
    simp only [exec, Option.ite_none_right_eq_some, Option.some.injEq] at hstep
    obtain ⟨⟨-, hf, -, hphase⟩, rfl⟩ := hstep
    exact h.ptyBindSlave hf hphase
  | fref f =>
    simp only [exec, Option.ite_none_right_eq_some, Option.some.injEq] at hstep
    obtain ⟨⟨-, hf, hidle⟩, rfl⟩ := hstep
    exact h.fref hf hidle
  | releaseFile f =>
    simp only [exec, Option.ite_none_right_eq_some, Option.some.injEq] at hstep
    obtain ⟨⟨-, hf, hidle⟩, rfl⟩ := hstep
    exact h.releaseFile hf hidle hgood
  | ptyRelease f =>
    simp only [exec] at hstep
    split at hstep
    · rename_i p hdata
      simp only [Option.ite_none_right_eq_some, Option.some.injEq] at hstep
      obtain ⟨⟨-, hf, hphase⟩, rfl⟩ := hstep
      exact h.ptyRelease hf hphase hdata
    · cases hstep
  | ptyFree f =>
    simp only [exec] at hstep
    split at hstep
    · rename_i p hdata
      simp only [Option.ite_none_right_eq_some, Option.some.injEq] at hstep
      obtain ⟨⟨-, hf, hphase⟩, rfl⟩ := hstep
      exact h.ptyFree hf hphase hdata
    · cases hstep
  | releaseDone f =>
    simp only [exec, Option.ite_none_right_eq_some, Option.some.injEq] at hstep
    obtain ⟨⟨-, hf, hphase⟩, rfl⟩ := hstep
    exact h.putFile hf (.inr (.inr hphase))
  | copyFiles l =>
    simp only [exec, Option.ite_none_right_eq_some, Option.some.injEq] at hstep
    obtain ⟨⟨-, hopen⟩, rfl⟩ := hstep
    refine ⟨h.slots, ⟨h.copies.wf, h.copies.copies, fun l' hl' => ?_⟩, h.asserted⟩
    obtain hin | hin := List.mem_append.mp hl'
    · exact h.copies.forks l' hin
    · obtain rfl : l' = l := List.mem_singleton.mp hin
      exact hopen
  | copyFd k f? =>
    simp only [exec] at hstep
    split at hstep
    · rename_i g l hk
      cases f? with
      | none =>
        simp only [Option.ite_none_right_eq_some, Option.some.injEq] at hstep
        obtain ⟨-, rfl⟩ := hstep
        exact h.nextFile hk
      | some f =>
        simp only [Option.ite_none_right_eq_some, Option.some.injEq] at hstep
        obtain ⟨⟨-, hf, hfree⟩, rfl⟩ := hstep
        exact h.copyFd hk hf hfree
    · cases hstep
  | ptyDupOpen f =>
    simp only [exec] at hstep
    split at hstep
    · rename_i g p hphase hdata
      simp only [Option.ite_none_right_eq_some, Option.some.injEq] at hstep
      obtain ⟨⟨-, hf⟩, rfl⟩ := hstep
      exact h.ptyDupOpen hf hphase hdata
    · cases hstep
  | ptyLock f locked =>
    simp only [exec] at hstep
    split at hstep
    · rename_i p hdata
      simp only [Option.ite_none_right_eq_some, Option.some.injEq] at hstep
      obtain ⟨-, rfl⟩ := hstep
      exact h.ptyLock p locked
    · cases hstep

theorem boot_inv : Inv boot := by
  have hopen : ∀ p master, openFiles boot p master = 0 := by
    intro p master
    exact cells_eq_zero.mpr fun f _ => by simp [boot, File.opens]
  have husers : ∀ p, users boot p = 0 := by
    intro p
    exact cells_eq_zero.mpr fun f _ => by simp [boot, File.usesSlot]
  refine ⟨fun p => ?_, ⟨fun f => ⟨by simp [boot], by simp [boot], by simp [boot]⟩, by simp [boot], by simp [boot]⟩, rfl⟩
  rw [hopen, hopen, husers]
  exact ⟨rfl, rfl, rfl, fun _ => ⟨rfl, rfl⟩, rfl⟩

theorem Inv.of_users (h : Inv s) (hused : users s p ≠ 0) : openFiles s p true = 0 ∧ openFiles s p false = 0 := by
  have husers := (h.slots p).users
  by_contra hopen
  rw [if_neg fun hstate => hopen hstate.2] at husers
  exact hused husers

/-- A file that refers to a pair is counted, or it is a copy of one that is. -/
theorem Inv.refers (h : Inv s) (hg : g < nrFile) (hrefers : (s.files g).refers p) :
    ∃ master, openFiles s p master ≠ 0 := by
  obtain ⟨hpos, hdata, hphase | hphase | ⟨e, hphase⟩⟩ := hrefers
  · exact ⟨_, openFiles_ne_zero hg hpos hdata (.inl hphase)⟩
  · exact ⟨_, openFiles_ne_zero hg hpos hdata (.inr hphase)⟩
  · obtain ⟨he, hopen, hsame, -⟩ := h.copies.copies g hg e hphase
    obtain ⟨hepos, hidle⟩ := isIdle_iff.mp hopen
    exact ⟨_, openFiles_ne_zero he hepos (hsame.symm.trans hdata) (.inl hidle)⟩

theorem Inv.sound (h : Inv s) : Sound s := by
  constructor
  · exact fun p => (h.slots p).masters
  · exact fun p => (h.slots p).slaves
  · intro p
    rw [(h.slots p).slaves, (h.slots p).masters]
    exact (h.slots p).count
  · intro p hfree
    rw [(h.slots p).slaves, (h.slots p).masters]
    exact (h.slots p).free hfree
  · intro p hquiet hmaster hslave
    rw [(h.slots p).masters] at hmaster
    rw [(h.slots p).slaves] at hslave
    have husers := (h.slots p).users
    rw [show users s p = 0 from cells_eq_zero.mpr hquiet] at husers
    cases hstate : (s.ptys p).state with
    | free => rfl
    | allocated => simp [hstate, hmaster, hslave] at husers
  · intro f hf p hphase g hg hrefers
    have hused : users s p ≠ 0 := by
      refine Nat.ne_of_gt (cells_pos.mpr ⟨f, hf, ?_⟩)
      simp [File.usesSlot, hphase]
    obtain ⟨hmasters, hslaves⟩ := h.of_users hused
    obtain ⟨master, hopen⟩ := h.refers hg hrefers
    cases master with
    | true => exact hopen hmasters
    | false => exact hopen hslaves
  · exact h.asserted

/-- In every run that meets the condition the counts of every pair are right, no slot is taken that is
referred to, and no assertion fails. -/
theorem pty_counts_sound {labels : List Label} (hrun : Run (Guarded Good Step) boot labels s) : Sound s :=
  (hrun.invariant (P := Inv) boot_inv fun h hstep => h.step hstep.1 hstep.2).sound

/-- Pair 0 is opened, master and slave. -/
def opening : List Label :=
  [.openFile 0, .ptyMasterOpen 0, .ptyMasterInit 0, .ptyLock 0 false, .openFile 1, .ptyBindSlave 1 0]

/-- A fork copies both, the copies and the files are closed again, and the slot goes to a new master. -/
def session : List Label :=
  opening ++ [.copyFiles [0, 1], .copyFd 0 (some 2), .ptyDupOpen 2, .copyFd 0 (some 3), .ptyDupOpen 3, .fref 1,
    .releaseFile 1, .releaseFile 0, .ptyRelease 0, .releaseDone 0, .releaseFile 2, .ptyRelease 2, .releaseDone 2,
    .releaseFile 1, .ptyRelease 1, .releaseDone 1, .releaseFile 3, .ptyRelease 3, .ptyFree 3, .releaseDone 3,
    .openFile 0, .ptyMasterOpen 0, .ptyMasterInit 0]

theorem session_replays : (replay Good exec boot session).isSome := by decide +kernel

theorem pty_counts_sound_session :
    Sound ((replay Good exec boot session).get session_replays) :=
  pty_counts_sound (run_of_replay (Option.some_get session_replays).symm)

/-- Master and slave are closed while a fork copies the slave. The copy is counted before the slot is freed,
so that a new master clears its count. -/
def race : List Label :=
  opening ++ [.copyFiles [1], .copyFd 0 (some 2), .releaseFile 0, .ptyRelease 0, .releaseDone 0, .releaseFile 1,
    .ptyRelease 1, .ptyDupOpen 2, .ptyFree 1, .releaseDone 1, .openFile 0, .ptyMasterOpen 0, .ptyMasterInit 0,
    .releaseFile 2, .ptyRelease 2]

theorem race_replays : (replay (fun _ _ => True) exec boot race).isSome := by decide +kernel

/-- The release of the copy then finds a count of 0, and its assertion fails. -/
theorem pty_counts_unsound :
    ∃ labels s, Run Step boot labels s ∧ s.failed = true ∧ ¬ Sound s := by
  have hrun := run_of_replay (Option.some_get race_replays).symm
  have hfailed : ((replay (fun _ _ => True) exec boot race).get race_replays).failed = true := by decide +kernel
  refine ⟨race, _, hrun.mono fun _ _ _ hstep => hstep.2, hfailed, fun hsound => ?_⟩
  exact Bool.false_ne_true (hsound.asserted.symm.trans hfailed)

end Mario.Fs.PtyDriver
