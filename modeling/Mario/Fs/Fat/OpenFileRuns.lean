import Mario.Fs.Fat.OpenFiles

/-!
# Descriptors on files of a FAT in a run

A chain belongs to a file and not to a position, so that moving an entry leaves the chains. As long as
nothing that is open is deleted or moved, the inode of a descriptor is the one of the entry at its
position.
-/

namespace Mario.Fs.Fat.OpenFiles

open Mario.Lib Clusters Function

variable {s s' b c : State} {head head' : Option ℕ → ℕ} {chain chain' : Option ℕ → List ℕ} {pos ino : ℕ}
  {e e' : Entry} {t : Table}

/-! ## Entries -/

/-- Every file has one entry or none, with the first cluster of its chain. -/
structure Entries (slot : ℕ → Option Entry) (next : ℕ) (head : Option ℕ → ℕ) : Prop where
  start : ∀ pos e, slot pos = some e → head (some e.file) = e.start
  absent : ∀ f, (∀ pos e, slot pos = some e → e.file ≠ f) → head (some f) = 0
  unique : ∀ p q e e', slot p = some e → slot q = some e' → e.file = e'.file → p = q
  next : ∀ pos e, slot pos = some e → e.file < next
  dir : ∀ pos e, slot pos = some e → e.dir = true → e.start ≠ 0

/-- Two entries that differ in the size. -/
def Alike (e e' : Entry) : Prop := e'.file = e.file ∧ e'.dir = e.dir ∧ e'.start = e.start

section Entries

variable {slot : ℕ → Option Entry} {next : ℕ}

/-- A file has no entry. -/
def Absent (slot : ℕ → Option Entry) (f : ℕ) : Prop := ∀ pos e, slot pos = some e → e.file ≠ f

theorem Entries.remove (h : Entries slot next head) (hpos : slot pos = some e) :
    Entries (update slot pos none) next (update head (some e.file) 0) ∧ Absent (update slot pos none) e.file := by
  have hold : ∀ q e', update slot pos none q = some e' → slot q = some e' ∧ e'.file ≠ e.file := by
    intro q e' hq
    by_cases hqp : q = pos
    · subst hqp
      rw [update_self] at hq
      cases hq
    · rw [update_of_ne hqp] at hq
      exact ⟨hq, fun heq => hqp (h.unique q pos e' e hq hpos heq)⟩
  refine ⟨⟨fun q e' hq => ?_, fun f hf => ?_, fun p q e₁ e₂ hp hq => ?_, fun q e' hq => ?_, fun q e' hq => ?_⟩,
    fun q e' hq => (hold q e' hq).2⟩
  · obtain ⟨hq, hne⟩ := hold q e' hq
    rw [update_of_ne fun heq => hne (Option.some.inj heq)]
    exact h.start q e' hq
  · by_cases hfe : f = e.file
    · rw [hfe, update_self]
    · rw [update_of_ne fun heq => hfe (Option.some.inj heq)]
      refine h.absent f fun q e' hq => ?_
      by_cases hqp : q = pos
      · subst hqp
        rw [hpos] at hq
        cases hq
        exact Ne.symm hfe
      · exact hf q e' (by rwa [update_of_ne hqp])
  · exact h.unique p q e₁ e₂ (hold p e₁ hp).1 (hold q e₂ hq).1
  · exact h.next q e' (hold q e' hq).1
  · exact h.dir q e' (hold q e' hq).1

theorem Entries.insert (h : Entries slot next head) (hpos : slot pos = none) (habsent : Absent slot e.file)
    (hnext : e.file < next) (hdir : e.dir = true → e.start ≠ 0) :
    Entries (update slot pos (some e)) next (update head (some e.file) e.start) := by
  have hold : ∀ q e', update slot pos (some e) q = some e' →
      q = pos ∧ e' = e ∨ q ≠ pos ∧ slot q = some e' ∧ e'.file ≠ e.file := by
    intro q e' hq
    by_cases hqp : q = pos
    · subst hqp
      rw [update_self] at hq
      exact .inl ⟨rfl, (Option.some.inj hq).symm⟩
    · rw [update_of_ne hqp] at hq
      exact .inr ⟨hqp, hq, habsent q e' hq⟩
  refine ⟨fun q e' hq => ?_, fun f hf => ?_, fun p q e₁ e₂ hp hq heq => ?_, fun q e' hq => ?_, fun q e' hq hd => ?_⟩
  · rcases hold q e' hq with ⟨-, rfl⟩ | ⟨-, hslot, hne⟩
    · rw [update_self]
    · rw [update_of_ne fun heq => hne (Option.some.inj heq)]
      exact h.start q e' hslot
  · have hfe : f ≠ e.file := fun heq => hf pos e (update_self ..) heq.symm
    rw [update_of_ne fun heq => hfe (Option.some.inj heq)]
    refine h.absent f fun q e' hq => hf q e' ?_
    rwa [update_of_ne]
    rintro rfl
    rw [hpos] at hq
    cases hq
  · rcases hold p e₁ hp with ⟨rfl, rfl⟩ | ⟨-, hp, hne⟩
    · rcases hold q e₂ hq with ⟨rfl, -⟩ | ⟨-, -, hne⟩
      · rfl
      · exact absurd heq.symm hne
    · rcases hold q e₂ hq with ⟨-, rfl⟩ | ⟨-, hq, -⟩
      · exact absurd heq hne
      · exact h.unique p q e₁ e₂ hp hq heq
  · rcases hold q e' hq with ⟨-, rfl⟩ | ⟨-, hslot, -⟩
    · exact hnext
    · exact h.next q e' hslot
  · rcases hold q e' hq with ⟨-, rfl⟩ | ⟨-, hslot, -⟩
    · exact hdir hd
    · exact h.dir q e' hslot hd

theorem Absent.insert {f : ℕ} (h : Absent slot f) (hne : e.file ≠ f) : Absent (update slot pos (some e)) f := by
  intro q e' hq
  by_cases hqp : q = pos
  · subst hqp
    rw [update_self] at hq
    cases hq
    exact hne
  · rw [update_of_ne hqp] at hq
    exact h q e' hq

theorem Absent.remove {f : ℕ} (h : Absent slot f) : Absent (update slot pos none) f := by
  intro q e' hq
  by_cases hqp : q = pos
  · subst hqp
    rw [update_self] at hq
    cases hq
  · rw [update_of_ne hqp] at hq
    exact h q e' hq

/-- The size of an entry changes, or also the first cluster together with the chain of the file. -/
theorem Entries.set {y : Entry} (h : Entries slot next head) (hpos : slot pos = some e) (hfile : y.file = e.file)
    (hdir : y.dir = true → y.start ≠ 0) :
    Entries (update slot pos (some y)) next (update head (some e.file) y.start) := by
  obtain ⟨hrest, habsent⟩ := h.remove hpos
  have hnew := hrest.insert (e := y) (update_self ..) (by rwa [hfile])
    (by rw [hfile]; exact h.next pos e hpos) hdir
  rwa [update_idem, hfile, update_idem] at hnew

end Entries

/-! ## The invariant -/

/-- What a lookup remembers fits together. -/
structure Cache.Sane (k : Cache) : Prop where
  first : k.valid = true → k.index = 0 → k.cluster = k.start
  empty : k.valid = true → k.start = 0 → k.index = 0

theorem Cache.Sane.ok {k : Cache} {start : ℕ} {l : List ℕ} (hk : Cache.Sane k) (hs : Chain t start l)
    (hfits : k.FitsStart start) : k.Ok start l := by
  refine ⟨fun hvalid hstart => ?_, hk.first, hk.empty⟩
  have hindex := hfits hvalid hstart
  rw [hindex, hk.first hvalid hindex, hstart]
  cases l with
  | nil => exact ⟨hs.head_eq_zero, fun hne => absurd rfl hne⟩
  | cons c l => exact ⟨hs.linked.1, fun _ => Nat.succ_pos _⟩

/-- An inode that is up to date is the one of the entry at its position. -/
structure Bound (s : State) (chain : Option ℕ → List ℕ) (ino : ℕ) (e : Entry) : Prop where
  slot : s.slot ino = some e
  start : (s.core ino).start = e.start
  pos : (s.core ino).pos = ino
  cache : (s.core ino).cache.Ok e.start (chain (some e.file))

structure Inv (s : State) (head : Option ℕ → ℕ) (chain : Option ℕ → List ℕ) : Prop where
  clusterSize : 0 < s.clusterSize
  nobody : head none = 0
  layout : Layout s.table head chain
  entries : Entries s.slot s.nextFile head
  sane : ∀ ino, Cache.Sane (s.core ino).cache
  core : ∀ ino, (s.core ino).upToDate = true → ∃ e, Bound s chain ino e
  fds : ∀ d ∈ s.fds, (s.core d.ino).upToDate = true ∧
    ∃ e, s.slot d.ino = some e ∧ e.file = d.file ∧ e.dir = false

theorem Inv.bound (h : Inv s head chain) {d : Descriptor} (hd : d ∈ s.fds) :
    ∃ e, Bound s chain d.ino e ∧ e.file = d.file ∧ e.dir = false := by
  obtain ⟨hup, e, hslot, hfile⟩ := h.fds d hd
  obtain ⟨e', hbound⟩ := h.core d.ino hup
  rw [hbound.slot] at hslot
  obtain rfl := Option.some.inj hslot
  exact ⟨e', hbound, hfile⟩

theorem Inv.isChain (h : Inv s head chain) (hslot : s.slot pos = some e) :
    Chain s.table e.start (chain (some e.file)) := by
  have hchain := h.layout.isChain (some e.file)
  rwa [h.entries.start pos e hslot] at hchain

theorem Inv.kept (h : Inv s head chain) : Kept s := by
  refine ⟨fun d hd pos e hslot hfile => ?_, fun d hd pos e hslot hfile l hl index => ?_, fun d hd e hslot => ?_⟩
  · obtain ⟨e₀, hbound, hfile₀, -⟩ := h.bound hd
    have hpos := h.entries.unique d.ino pos e₀ e hbound.slot hslot (hfile₀.trans hfile.symm)
    subst hpos
    rw [hbound.slot] at hslot
    cases hslot
    have hchain := h.isChain hbound.slot
    rw [hbound.start]
    exact ⟨_, hchain, fun index => (hbound.cache.clusterAt hchain h.layout.small index).1⟩
  · obtain ⟨e₀, hbound, hfile₀, -⟩ := h.bound hd
    have hown := h.isChain hbound.slot
    have hother := h.isChain hslot
    rw [hl.linked.unique hother.linked]
    have hne : (some e₀.file : Option ℕ) ≠ some e.file := fun heq =>
      hfile ((Option.some.inj heq).symm.trans hfile₀)
    have hzero : 0 ∉ chain (some e.file) := fun hmem => (hother.used 0 hmem).1.pos rfl
    rw [hbound.start]
    refine ⟨?_, ?_⟩
    · rw [(hbound.cache.clusterAt hown h.layout.small index).1, List.getD_eq_getElem?_getD]
      cases hget : (chain (some e₀.file))[index]? with
      | none => exact hzero
      | some c => exact h.layout.apart _ _ hne (List.mem_of_getElem? hget)
    · by_cases hc : (s.table.clusterAtAlloc done e₀.start index).1 = 0
      · rw [hc]
        exact hzero
      · obtain ⟨new, hnew, hfound, -⟩ := h.layout.clusterAtAlloc done_clean (some e₀.file) index
        rw [h.entries.start _ _ hbound.slot] at hnew hfound
        have hmem := List.mem_of_getElem? (hfound hc)
        have hapart := hnew.apart _ _ hne
        rw [update_self, update_of_ne (Ne.symm hne)] at hapart
        exact hapart hmem
  · obtain ⟨e₀, hbound, hfile₀, -⟩ := h.bound hd
    rw [hbound.pos, hbound.slot] at hslot
    cases hslot
    exact hfile₀

/-! ## Reading an inode -/

/-- An inode that is up to date has the first cluster and the position of an entry. -/
def Fits (s : State) (pos : ℕ) (e : Entry) : Prop :=
  (s.core pos).upToDate = true → (s.core pos).start = e.start ∧ (s.core pos).pos = pos

theorem Inv.fits (h : Inv s head chain) (hpos : s.slot pos = some e) : Fits s pos e := by
  intro hup
  obtain ⟨e₀, hbound⟩ := h.core pos hup
  have hslot := hbound.slot
  rw [hpos] at hslot
  cases hslot
  exact ⟨hbound.start, hbound.pos⟩

theorem flush_eq (hpos : s.slot pos = some e) (hfits : Fits s pos e) : s.flush pos = s ∨
    ∃ e' core, Alike e e' ∧ s.flush pos = (s.setSlot pos (some e')).setCore pos core ∧
      core = { s.core pos with dirty := false } := by
  rw [State.flush]
  by_cases hdirty : (s.core pos).upToDate = true ∧ (s.core pos).dirty = true
  · rw [if_pos hdirty]
    obtain ⟨hstart, hcore⟩ := hfits hdirty.1
    right
    refine ⟨{ e with start := (s.core pos).start, size := (s.core pos).size }, _, ⟨rfl, rfl, hstart⟩, ?_, rfl⟩
    rw [State.writeInode]
    simp only [hcore, hpos]
  · rw [if_neg hdirty]
    exact .inl rfl

/-- `iget` of an entry gives an inode with its first cluster. -/
theorem iget_eq (hpos : s.slot pos = some e) (hfits : Fits s pos e) :
    ∃ e' core, s.iget pos = (s.setSlot pos (some e')).setCore pos core ∧ Alike e e' ∧
      core.upToDate = true ∧ core.start = e.start ∧ core.pos = pos ∧ core.cache = (s.core pos).cache := by
  rw [State.iget]
  by_cases hup : (s.core pos).upToDate = true
  · obtain ⟨hstart, hcore⟩ := hfits hup
    rcases flush_eq hpos hfits with hflush | ⟨e', core, halike, hflush, hclean⟩
    · rw [hflush]
      dsimp only
      rw [if_pos hup]
      refine ⟨e, s.core pos, ?_, ⟨rfl, rfl, rfl⟩, hup, hstart, hcore, rfl⟩
      rw [State.setSlot, State.setCore]
      dsimp only
      rw [← hpos, update_eq_self, update_eq_self]
    · rw [hflush]
      have hself : (((s.setSlot pos (some e')).setCore pos core).core pos) = core := by
        rw [State.setCore]
        exact update_self ..
      dsimp only
      rw [hself, if_pos (by rw [hclean]; exact hup)]
      refine ⟨e', core, rfl, halike, by rw [hclean]; exact hup, ?_, ?_, by rw [hclean]⟩
      · rw [hclean]
        exact hstart
      · rw [hclean]
        exact hcore
  · have hflush : s.flush pos = s := by
      rw [State.flush, if_neg fun hboth => hup hboth.1]
    rw [hflush]
    dsimp only
    rw [if_neg hup]
    refine ⟨e, { s.readInode pos with upToDate := true, dirty := false }, ?_, ⟨rfl, rfl, rfl⟩, rfl, ?_, ?_, ?_⟩
    · rw [State.setSlot, State.setCore, State.setCore]
      dsimp only
      rw [← hpos, update_eq_self]
    all_goals simp only [State.readInode, hpos]

/-- Deleting an entry leaves an inode that is not up to date and has its first cluster. -/
theorem take_eq (hpos : s.slot pos = some e) (hfits : Fits s pos e) :
    ∃ e' core, (s.iget pos).slot pos = some e' ∧ Alike e e' ∧
      s.take pos = (s.setSlot pos none).setCore pos core ∧ core.upToDate = false ∧
      core.start = e.start ∧ core.cache = (s.core pos).cache := by
  obtain ⟨e', core, hget, halike, -, hstart, -, hcache⟩ := iget_eq hpos hfits
  refine ⟨e', { core with upToDate := false, dirty := false }, ?_, halike, ?_, rfl, hstart, hcache⟩
  · rw [hget, State.setCore, State.setSlot]
    exact update_self ..
  · rw [State.take, hget, State.remove, State.invalidate]
    simp only [State.setSlot, State.setCore, update_self, update_idem]

/-! ## What a call leaves -/

/-- A state differs in entries and inodes that are not open, and the inodes that change are not up to
date. -/
structure Frame (s b : State) : Prop where
  clusterSize : b.clusterSize = s.clusterSize
  fds : b.fds = s.fds
  cache : ∀ ino, Cache.Sane (s.core ino).cache → Cache.Sane (b.core ino).cache
  core : ∀ ino, (b.core ino).upToDate = true → b.core ino = s.core ino ∧ b.slot ino = s.slot ino
  busy : ∀ d ∈ s.fds, b.core d.ino = s.core d.ino ∧ b.slot d.ino = s.slot d.ino

theorem Frame.refl (s : State) : Frame s s :=
  ⟨rfl, rfl, fun _ h => h, fun _ _ => ⟨rfl, rfl⟩, fun _ _ => ⟨rfl, rfl⟩⟩

theorem Frame.trans (h : Frame s b) (h' : Frame b c) : Frame s c := by
  refine ⟨h'.clusterSize.trans h.clusterSize, h'.fds.trans h.fds, fun ino hk => h'.cache ino (h.cache ino hk),
    fun ino hup => ?_, fun d hd => ?_⟩
  · obtain ⟨hcore, hslot⟩ := h'.core ino hup
    rw [hcore] at hup
    obtain ⟨hcore', hslot'⟩ := h.core ino hup
    exact ⟨hcore.trans hcore', hslot.trans hslot'⟩
  · obtain ⟨hcore, hslot⟩ := h'.busy d (by rw [h.fds]; exact hd)
    obtain ⟨hcore', hslot'⟩ := h.busy d hd
    exact ⟨hcore.trans hcore', hslot.trans hslot'⟩

theorem Frame.setTable (h : Frame s b) (t : Table) : Frame s (b.setTable t) :=
  h.trans ⟨rfl, rfl, fun _ hk => hk, fun _ _ => ⟨rfl, rfl⟩, fun _ _ => ⟨rfl, rfl⟩⟩

theorem Frame.setCore (h : Frame s b) {k : Core} (hidle : ∀ d ∈ s.fds, d.ino ≠ pos)
    (hup : k.upToDate = false) (hcache : Cache.Sane (b.core pos).cache → Cache.Sane k.cache) :
    Frame s (b.setCore pos k) := by
  refine h.trans ⟨rfl, rfl, fun ino hk => ?_, fun ino hino => ?_, fun d hd => ?_⟩
  · by_cases hip : ino = pos
    · subst hip
      simp only [State.setCore, update_self]
      exact hcache hk
    · simpa only [State.setCore, update_of_ne hip] using hk
  · by_cases hip : ino = pos
    · subst hip
      simp only [State.setCore, update_self, hup] at hino
      cases hino
    · exact ⟨update_of_ne hip _ _, rfl⟩
  · rw [h.fds] at hd
    exact ⟨update_of_ne (hidle d hd) _ _, rfl⟩

theorem Frame.setSlot (h : Frame s b) {x : Option Entry} (hidle : ∀ d ∈ s.fds, d.ino ≠ pos)
    (hup : (b.core pos).upToDate = false) : Frame s (b.setSlot pos x) := by
  refine h.trans ⟨rfl, rfl, fun _ hk => hk, fun ino hino => ⟨rfl, ?_⟩, fun d hd => ⟨rfl, ?_⟩⟩
  · refine update_of_ne ?_ _ _
    rintro rfl
    change (b.core ino).upToDate = true at hino
    rw [hup] at hino
    cases hino
  · rw [h.fds] at hd
    exact update_of_ne (hidle d hd) _ _

theorem Frame.setBoth (h : Frame s b) {k : Core} {x : Option Entry} (hidle : ∀ d ∈ s.fds, d.ino ≠ pos)
    (hup : k.upToDate = false) (hcache : Cache.Sane (b.core pos).cache → Cache.Sane k.cache) :
    Frame s ((b.setSlot pos x).setCore pos k) := by
  have hset := (h.setCore hidle hup hcache).setSlot (x := x) hidle
    (by rw [State.setCore]; dsimp only; rw [update_self]; exact hup)
  exact hset

theorem Inv.of_frame (h : Inv s head chain) (hframe : Frame s b) (hentries : Entries b.slot b.nextFile head')
    (hlayout : Layout b.table head' chain') (hnone : head' none = 0)
    (hchain : ∀ pos e, b.slot pos = some e → chain' (some e.file) = chain (some e.file)) : Inv b head' chain' where
  clusterSize := by
    rw [hframe.clusterSize]
    exact h.clusterSize
  nobody := hnone
  layout := hlayout
  entries := hentries
  sane ino := hframe.cache ino (h.sane ino)
  core ino hup := by
    obtain ⟨hcore, hslot⟩ := hframe.core ino hup
    rw [hcore] at hup
    obtain ⟨e, hbound⟩ := h.core ino hup
    refine ⟨e, hslot.trans hbound.slot, ?_, ?_, ?_⟩
    · rw [hcore]
      exact hbound.start
    · rw [hcore]
      exact hbound.pos
    · rw [hcore, hchain ino e (hslot.trans hbound.slot)]
      exact hbound.cache
  fds d hd := by
    rw [hframe.fds] at hd
    obtain ⟨hcore, hslot⟩ := hframe.busy d hd
    rw [hcore, hslot]
    exact h.fds d hd

/-- The entry of an inode, its chain and the inode change together. -/
theorem Inv.setOpen {y : Entry} (h : Inv s head chain) (hpos : s.slot pos = some e) {k : Core} {l : List ℕ}
    (hfile : y.file = e.file) (hkind : y.dir = e.dir) (hdir : y.dir = true → y.start ≠ 0)
    (hlayout : Layout t (update head (some e.file) y.start) (update chain (some e.file) l))
    (hup : k.upToDate = true) (hstart : k.start = y.start) (hcore : k.pos = pos)
    (hcache : k.cache.Ok y.start l) (hsane : Cache.Sane k.cache) :
    Inv (((s.setTable t).setSlot pos (some y)).setCore pos k)
      (update head (some e.file) y.start) (update chain (some e.file) l) where
  clusterSize := h.clusterSize
  nobody := by
    rw [update_of_ne (Option.some_ne_none _).symm]
    exact h.nobody
  layout := hlayout
  entries := h.entries.set hpos hfile hdir
  sane ino := by
    by_cases hip : ino = pos
    · subst hip
      simpa only [State.setCore, update_self] using hsane
    · simp only [State.setCore, update_of_ne hip]
      exact h.sane ino
  core ino hino := by
    by_cases hip : ino = pos
    · subst hip
      refine ⟨y, update_self .., ?_, ?_, ?_⟩
      all_goals simp only [State.setCore, update_self]
      · exact hstart
      · exact hcore
      · rwa [hfile, update_self]
    · simp only [State.setCore, update_of_ne hip] at hino
      obtain ⟨e₀, hbound⟩ := h.core ino hino
      have hne : e₀.file ≠ e.file := fun heq => hip (h.entries.unique ino pos e₀ e hbound.slot hpos heq)
      refine ⟨e₀, (update_of_ne hip _ _).trans hbound.slot, ?_, ?_, ?_⟩
      all_goals simp only [State.setCore, update_of_ne hip]
      · exact hbound.start
      · exact hbound.pos
      · rw [update_of_ne fun heq => hne (Option.some.inj heq)]
        exact hbound.cache
  fds d hd := by
    obtain ⟨hdup, e₀, hslot, hfile₀, hreg⟩ := h.fds d hd
    by_cases hip : d.ino = pos
    · rw [hip] at hslot ⊢
      rw [hpos] at hslot
      cases hslot
      simp only [State.setCore, State.setSlot, update_self]
      exact ⟨hup, y, rfl, hfile.trans hfile₀, hkind.trans hreg⟩
    · simp only [State.setCore, State.setSlot, State.setTable, update_of_ne hip]
      exact ⟨hdup, e₀, hslot, hfile₀, hreg⟩

theorem Inv.setAlike {y : Entry} (h : Inv s head chain) (hpos : s.slot pos = some e) {k : Core}
    (halike : Alike e y) (hup : k.upToDate = true) (hstart : k.start = e.start)
    (hcore : k.pos = pos) (hcache : k.cache.Ok e.start (chain (some e.file))) :
    Inv ((s.setSlot pos (some y)).setCore pos k) head chain := by
  obtain ⟨hfile, hdir, hsame⟩ := halike
  have hhead : update head (some e.file) y.start = head := by
    rw [hsame, ← h.entries.start pos e hpos, update_eq_self]
  have hset := h.setOpen (t := s.table) (y := y) (k := k) (l := chain (some e.file)) hpos hfile
    hdir (fun hd => by rw [hsame]; exact h.entries.dir pos e hpos (hdir.symm.trans hd))
    (by rw [hhead, update_eq_self]; exact h.layout) hup (hstart.trans hsame.symm) hcore
    (by rwa [hsame]) ⟨hcache.first, hcache.empty⟩
  rwa [hhead, update_eq_self] at hset

theorem Inv.iget (h : Inv s head chain) (hpos : s.slot pos = some e)
    (hfits : (s.core pos).upToDate = false → (s.core pos).cache.FitsStart e.start) :
    Inv (s.iget pos) head chain ∧ ((s.iget pos).core pos).upToDate = true ∧
      ∃ e', (s.iget pos).slot pos = some e' ∧ Alike e e' := by
  obtain ⟨e', core, hget, halike, hup, hstart, hcore, hcache⟩ := iget_eq hpos (h.fits hpos)
  have hok : core.cache.Ok e.start (chain (some e.file)) := by
    rw [hcache]
    by_cases hold : (s.core pos).upToDate = true
    · obtain ⟨e₀, hbound⟩ := h.core pos hold
      have hslot := hbound.slot
      rw [hpos] at hslot
      cases hslot
      exact hbound.cache
    · exact (h.sane pos).ok (h.isChain hpos) (hfits (by simpa using hold))
  rw [hget]
  refine ⟨h.setAlike hpos halike hup hstart hcore hok, ?_, e', ?_, halike⟩
  · simpa only [State.setCore, update_self] using hup
  · simp only [State.setCore, State.setSlot, update_self]

theorem Inv.addEntry {dir w : ℕ} {z : Added} (h : Inv s head chain) (hdir : s.dir dir = some e) :
    (∃ chain', Inv (s.setTable (addEntry done s.table e.node w z).2) head chain') ∧
      ((addEntry done s.table e.node w z).1 = z ∨ (addEntry done s.table e.node w z).1 = .failed) := by
  obtain ⟨hslot, hisdir⟩ := Option.filter_eq_some_iff.mp hdir
  have hne := h.entries.dir dir e hslot hisdir
  have hhead := h.entries.start dir e hslot
  have hnode : e.node.start = e.start := rfl
  obtain ⟨⟨l, hl⟩, hadded⟩ := h.layout.addEntry (w := w) (z := z) done_clean (y := e.node) hhead hne fun _ _ => rfl
  refine ⟨⟨_, h.clusterSize, h.nobody, hl, h.entries, h.sane, fun ino hup => ?_, h.fds⟩, hadded⟩
  obtain ⟨e₀, hbound⟩ := h.core ino hup
  refine ⟨e₀, hbound.slot, hbound.start, hbound.pos, ?_⟩
  by_cases hfile : e₀.file = e.file
  · have hpos := h.entries.unique ino dir e₀ e hbound.slot hslot hfile
    subst hpos
    have hsame := hbound.slot
    rw [hslot] at hsame
    cases hsame
    rw [update_self]
    refine hbound.cache.append ?_ l
    intro hnil
    have hchain := h.isChain hslot
    rw [hnil] at hchain
    exact hne hchain.head_eq_zero
  · rw [update_of_ne fun heq => hfile (Option.some.inj heq)]
    exact hbound.cache

theorem not_busy (h : s.busy pos = false) : ∀ d ∈ s.fds, d.ino ≠ pos := by
  intro d hd heq
  rw [State.busy, List.any_eq_false] at h
  exact h d hd (by simp [heq])

theorem Inv.idle (h : Inv s head chain) (hpos : s.slot pos = none) : ∀ d ∈ s.fds, d.ino ≠ pos := by
  rintro d hd rfl
  obtain ⟨-, e, hslot, -⟩ := h.fds d hd
  rw [hpos] at hslot
  cases hslot

theorem Inv.not_upToDate (h : Inv s head chain) (hpos : s.slot pos = none) : (s.core pos).upToDate = false := by
  by_contra hup
  obtain ⟨e, hbound⟩ := h.core pos (by simpa using hup)
  rw [hbound.slot] at hpos
  cases hpos

/-! ## Steps -/

theorem Inv.mono_fds (h : Inv s head chain) {fds : List Descriptor}
    (hfds : ∀ d ∈ fds, (s.core d.ino).upToDate = true ∧ ∃ e, s.slot d.ino = some e ∧ e.file = d.file ∧ e.dir = false) :
    Inv { s with fds := fds } head chain :=
  ⟨h.clusterSize, h.nobody, h.layout, h.entries, h.sane,
    fun ino hup => (h.core ino hup).imp fun _ hb => ⟨hb.slot, hb.start, hb.pos, hb.cache⟩, hfds⟩

theorem Inv.openFile (h : Inv s head chain) (hgood : Careful s (.openFile pos))
    (hstep : exec s (.openFile pos) = some s') : Inv s' head chain := by
  rw [exec] at hstep
  split at hstep
  · rename_i e hpos
    split_ifs at hstep with hreg
    cases hstep
    obtain ⟨hinv, hup, e', hslot, hfile, hkind, -⟩ := h.iget hpos (hgood e hpos)
    refine hinv.mono_fds fun d hd => ?_
    rcases List.mem_append.mp hd with hold | hnew
    · exact hinv.fds d hold
    · rw [List.mem_singleton.mp hnew]
      exact ⟨hup, e', hslot, hfile, hkind.trans (by simpa using hreg)⟩
  · cases hstep

theorem Inv.flush (h : Inv s head chain) (ino : ℕ) : Inv (s.flush ino) head chain := by
  by_cases hup : (s.core ino).upToDate = true
  · obtain ⟨e, hbound⟩ := h.core ino hup
    rcases flush_eq hbound.slot (h.fits hbound.slot) with hflush | ⟨e', core, halike, hflush, hclean⟩
    · rwa [hflush]
    · rw [hflush]
      refine h.setAlike hbound.slot halike ?_ ?_ ?_ ?_
      all_goals rw [hclean]
      · exact hup
      · exact hbound.start
      · exact hbound.pos
      · exact hbound.cache
  · rwa [State.flush, if_neg fun hboth => hup hboth.1]

theorem Inv.close {d : ℕ} (h : Inv s head chain) (hstep : exec s (.close d) = some s') : Inv s' head chain := by
  rw [exec] at hstep
  split at hstep
  · rename_i fd hfd
    cases hstep
    have hinv : Inv { s with fds := s.fds.eraseIdx d } head chain :=
      h.mono_fds fun fd hmem => h.fds fd (List.mem_of_mem_eraseIdx hmem)
    split_ifs
    · exact hinv
    · exact hinv.flush fd.ino
  · cases hstep

theorem Inv.read {d index : ℕ} (h : Inv s head chain) (hstep : exec s (.read d index) = some s') :
    Inv s' head chain := by
  rw [exec] at hstep
  split at hstep
  · rename_i fd hfd
    cases hstep
    have hmem := List.mem_of_getElem? hfd
    obtain ⟨e, hbound, -⟩ := h.bound hmem
    have hok := (hbound.cache.clusterAt (h.isChain hbound.slot) h.layout.small index).2
    have hlookup : ((s.table.clusterAt (s.core fd.ino).start (s.core fd.ino).cache index).2).Ok e.start
        (chain (some e.file)) := by
      rw [hbound.start]
      exact hok
    have hset := h.setAlike (y := e) (k := { s.core fd.ino with
      cache := (s.table.clusterAt (s.core fd.ino).start (s.core fd.ino).cache index).2 })
      hbound.slot ⟨rfl, rfl, rfl⟩ (h.fds fd hmem).1 hbound.start hbound.pos hlookup
    rw [State.setSlot, ← hbound.slot, update_eq_self] at hset
    exact hset
  · cases hstep

theorem write_entryStart (a : Answers) (clusterSize : ℕ) (nd : Node) (t : Table) (pos count : ℕ) :
    (Clusters.write a true clusterSize nd t pos count).1.entryStart =
      if wrote a clusterSize nd t pos count then (Clusters.write a true clusterSize nd t pos count).1.start
      else nd.entryStart := by
  have hgap : (zeroGap a clusterSize nd t pos).2.1.entryStart = nd.entryStart := by
    rw [zeroGap]
    dsimp only
    split
    · rfl
    · exact rollback_entryStart ..
  rw [Clusters.write, wrote]
  by_cases hcount : count = 0
  · simp only [if_pos hcount, Bool.false_eq_true, if_false]
  · simp only [if_neg hcount]
    rcases hz : zeroGap a clusterSize nd t pos with ⟨_ | _, nd₁, t₁⟩
    · rw [hz] at hgap
      exact hgap
    · rw [hz] at hgap
      dsimp only at hgap ⊢
      by_cases hdone : (touch a a.data (span clusterSize pos (pos + count)) (pos / clusterSize) nd₁.start t₁).1 = 0
      · rw [if_pos hdone, rollback_entryStart]
        simp only [hdone, ne_eq, not_true_eq_false, decide_false, Bool.false_eq_true, if_false]
        exact hgap
      · rw [if_neg hdone]
        simp only [hdone, ne_eq, not_false_eq_true, decide_true, if_true]

/-- `fat_file_write` changes the entry, the chain and the inode of a file. -/
theorem Inv.write (h : Inv s head chain) {d : Descriptor} (hd : d ∈ s.fds) {pos count : ℕ}
    (hsize : (s.core d.ino).start = 0 ↔ (s.core d.ino).size = 0)
    (hfirst : (s.core d.ino).start = 0 → ∀ c, s.table.scan = some c → (s.core d.ino).cache.FitsStart c) :
    ∃ head' chain', Inv (s.write d.ino pos count) head' chain' := by
  obtain ⟨e, hbound, -, hreg⟩ := h.bound hd
  have hhead : update head (some e.file) (s.core d.ino).start = head := by
    rw [hbound.start, ← h.entries.start _ e hbound.slot, update_eq_self]
  have hholds : Holds head chain e.file (s.core d.ino).node s.table := by
    refine ⟨h.nobody, chain (some e.file), ?_, ?_⟩
    · rw [update_eq_self]
      change Layout s.table (update head (some e.file) (s.core d.ino).start) chain
      rw [hhead]
      exact h.layout
    · change (s.core d.ino).cache.Ok (s.core d.ino).start _
      rw [hbound.start]
      exact hbound.cache
  have hfresh : Fresh (s.core d.ino).node s.table := hfirst
  have hstart := hholds.write_start (u := pos) (v := count) done_clean h.clusterSize hfresh rfl hsize
  have hentry := write_entryStart done s.clusterSize (s.core d.ino).node s.table pos count
  obtain ⟨-, l, hlayout, hok⟩ := hholds.write (u := pos) (v := count) (z := true) (y := s.clusterSize) done_clean hfresh
  rw [State.write]
  generalize hw : Clusters.write done true s.clusterSize (s.core d.ino).node s.table pos count = r at *
  obtain ⟨nd, t⟩ := r
  dsimp only at hstart hentry hlayout hok ⊢
  have hdir : ∀ n : ℕ, e.dir = true → n ≠ 0 := fun n hd => by
    rw [hreg] at hd
    cases hd
  have hsane : Cache.Sane nd.cache := ⟨hok.first, hok.empty⟩
  have hup := (h.fds d hd).1
  by_cases hwrote : wrote done s.clusterSize (s.core d.ino).node s.table pos count = true
  · rw [hwrote, Bool.or_true, if_pos rfl]
    have hset := h.setOpen (t := t) (y := { e with start := nd.start, size := nd.size })
      (k := { s.core d.ino with dirty := true, start := nd.start, size := nd.size, cache := nd.cache })
      (l := l) hbound.slot rfl rfl (hdir _) hlayout hup rfl hbound.pos hok hsane
    refine ⟨update head (some e.file) nd.start, update chain (some e.file) l, ?_⟩
    convert hset using 1
    rw [State.writeInode]
    simp only [State.setCore, State.setTable, State.setSlot, update_self, hbound.pos, hbound.slot]
  · have hsame : nd.start = e.start := by
      rw [hstart, if_neg hwrote] at hentry
      exact hentry.trans hbound.start
    rw [if_neg hwrote]
    have hset := h.setOpen (t := t) (y := e)
      (k := { s.core d.ino with
        dirty := (s.core d.ino).dirty || wrote done s.clusterSize (s.core d.ino).node s.table pos count
        start := nd.start, size := nd.size, cache := nd.cache })
      (l := l) hbound.slot rfl rfl (hdir _) (by rwa [← hsame]) hup hsame hbound.pos (by rwa [← hsame]) hsane
    rw [State.setSlot] at hset
    refine ⟨update head (some e.file) e.start, update chain (some e.file) l, ?_⟩
    convert hset using 1
    simp only [State.setCore, State.setTable, ← hbound.slot, update_eq_self]

theorem Entries.mono {slot : ℕ → Option Entry} {next next' : ℕ} (h : Entries slot next head)
    (hle : next ≤ next') : Entries slot next' head :=
  ⟨h.start, h.absent, h.unique, fun pos e hpos => Nat.lt_of_lt_of_le (h.next pos e hpos) hle, h.dir⟩

theorem Inv.newEntry (h : Inv s head chain) (hpos : s.slot pos = none) (hfile : e.file = s.nextFile)
    (hdir : e.dir = false) (hstart : e.start = 0) (hframe : Frame s b) (htable : b.table = s.table)
    (hslot : b.slot = update s.slot pos (some e)) (hnext : b.nextFile = s.nextFile + 1) : Inv b head chain := by
  have habsent : Absent s.slot e.file := by
    intro q e' hq heq
    have hlt := h.entries.next q e' hq
    omega
  have hhead : update head (some e.file) e.start = head := by
    rw [hstart, ← h.entries.absent e.file habsent, update_eq_self]
  have hentries := (h.entries.mono (Nat.le_succ s.nextFile)).insert hpos habsent (by omega)
    fun hd => by rw [hdir] at hd; cases hd
  rw [hhead, ← hslot, Nat.succ_eq_add_one, ← hnext] at hentries
  exact h.of_frame hframe hentries (by rw [htable]; exact h.layout) h.nobody fun _ _ _ => rfl

theorem Inv.create {dir need : ℕ} {added : Added} (h : Inv s head chain)
    (hstep : exec s (.create pos dir need added) = some s') : ∃ chain', Inv s' head chain' := by
  rw [exec] at hstep
  split at hstep
  · rename_i de hdir hpos
    obtain ⟨⟨chain', hinv⟩, -⟩ := h.addEntry (w := need) (z := added) hdir
    rcases hadd : Clusters.addEntry done s.table de.node need added with ⟨r, t⟩
    rw [hadd] at hstep hinv
    dsimp only at hinv
    have hpos' : (s.setTable t).slot pos = none := hpos
    have hup := hinv.not_upToDate hpos'
    have hidle := hinv.idle hpos'
    cases r with
    | failed =>
      cases hstep
      exact ⟨chain', hinv⟩
    | late =>
      cases hstep
      have hframe := (Frame.refl (s.setTable t)).setSlot (x := some
        { file := s.nextFile, dir := false, start := 0, size := 0 }) hidle hup
      exact ⟨chain', hinv.newEntry hpos' rfl rfl rfl
        ⟨hframe.clusterSize, hframe.fds, hframe.cache, hframe.core, hframe.busy⟩ rfl rfl rfl⟩
    | ok =>
      cases hstep
      have hframe := (Frame.refl (s.setTable t)).setBoth (x := some
        { file := s.nextFile, dir := false, start := 0, size := 0 })
        (k := { (s.setTable t).core pos with upToDate := false, dirty := false }) hidle rfl fun hk => hk
      have hnew := hinv.newEntry (b := { ((s.setTable t).setSlot pos (some
        { file := s.nextFile, dir := false, start := 0, size := 0 })).invalidate pos with
        nextFile := s.nextFile + 1 }) hpos' rfl rfl rfl
        ⟨hframe.clusterSize, hframe.fds, hframe.cache, hframe.core, hframe.busy⟩ rfl rfl rfl
      refine ⟨chain', (hnew.iget (update_self ..) fun _ => ?_).1⟩
      exact (hnew.sane pos).empty
  · cases hstep

theorem remove_frame (h : Frame s b) (hidle : ∀ d ∈ s.fds, d.ino ≠ pos) : Frame s (b.remove pos) :=
  h.setBoth hidle rfl fun hk => hk

theorem Inv.freed {f : ℕ} (h : Inv s head chain) (hframe : Frame s b)
    (hentries : Entries b.slot b.nextFile (update head (some f) 0)) (habsent : Absent b.slot f)
    (hlayout : Layout b.table (update head (some f) 0) (update chain (some f) [])) :
    Inv b (update head (some f) 0) (update chain (some f) []) := by
  refine h.of_frame hframe hentries hlayout ?_ fun q e hq => ?_
  · rw [update_of_ne (Option.some_ne_none _).symm]
    exact h.nobody
  · rw [update_of_ne fun heq => habsent q e hq (Option.some.inj heq)]

theorem Inv.unlink {back : ℕ} (h : Inv s head chain) (hgood : Careful s (.unlink pos back))
    (hstep : exec s (.unlink pos back) = some s') : ∃ head' chain', Inv s' head' chain' := by
  rw [exec] at hstep
  split at hstep
  · rename_i e hpos
    split_ifs at hstep
    obtain ⟨t, hfree, hlayout⟩ := h.layout.freeChain done_clean (some e.file)
    rw [h.entries.start pos e hpos] at hfree
    rw [hfree] at hstep
    cases hstep
    obtain ⟨hentries, habsent⟩ := h.entries.remove hpos
    exact ⟨_, _, h.freed ((remove_frame (Frame.refl s) (not_busy hgood)).setTable t) hentries habsent hlayout⟩
  · cases hstep

theorem Inv.evict (h : Inv s head chain) (hstep : exec s (.evict ino) = some s') : Inv s' head chain := by
  rw [exec] at hstep
  split_ifs at hstep with hbusy
  cases hstep
  have hidle := not_busy (by simpa using hbusy)
  refine h.of_frame ((Frame.refl s).setCore hidle rfl fun _ => ?_) h.entries h.layout h.nobody fun _ _ _ => rfl
  exact ⟨fun _ _ => rfl, fun _ _ => rfl⟩

/-! ## Renaming -/

/-- The state of a call, with its entries for some first clusters. -/
structure Holding (s b : State) (head : Option ℕ → ℕ) : Prop where
  frame : Frame s b
  table : b.table = s.table
  nextFile : b.nextFile = s.nextFile
  entries : Entries b.slot b.nextFile head

/-- An entry that was deleted and that can be added. -/
structure Spare (b : State) (e : Entry) : Prop where
  absent : Absent b.slot e.file
  next : e.file < b.nextFile
  dir : e.dir = true → e.start ≠ 0

theorem Spare.alike (h : Spare b e) (halike : Alike e e') : Spare b e' := by
  obtain ⟨hfile, hdir, hstart⟩ := halike
  refine ⟨by rw [hfile]; exact h.absent, by rw [hfile]; exact h.next, fun hd => ?_⟩
  rw [hstart]
  exact h.dir (hdir.symm.trans hd)

theorem Holding.add (h : Inv s head chain) (hb : Holding s b head') (hspare : Spare b e) (hadd : b.add pos e = some c) :
    Holding s c (update head' (some e.file) e.start) ∧ (∀ d ∈ s.fds, d.ino ≠ pos) ∧
      c = (b.setSlot pos (some e)).setCore pos { b.core pos with upToDate := false, dirty := false } := by
  rw [State.add] at hadd
  split_ifs at hadd with hpos
  cases hadd
  rw [Option.isNone_iff_eq_none] at hpos
  have hidle : ∀ d ∈ s.fds, d.ino ≠ pos := by
    rintro d hd rfl
    obtain ⟨-, e₀, hslot, -⟩ := h.fds d hd
    rw [← (hb.frame.busy d hd).2, hpos] at hslot
    cases hslot
  refine ⟨⟨hb.frame.setBoth hidle rfl fun hk => hk, hb.table, hb.nextFile, ?_⟩, hidle, rfl⟩
  exact hb.entries.insert hpos hspare.absent hspare.next hspare.dir

theorem Spare.add (h : Spare b e) (hne : e'.file ≠ e.file) (hadd : b.add pos e' = some c) : Spare c e := by
  rw [State.add] at hadd
  split_ifs at hadd
  cases hadd
  exact ⟨h.absent.insert hne, h.next, h.dir⟩

theorem Inv.addBack {target : Option Entry} {back targetBack : ℕ} (h : Inv s head chain)
    (hb : Holding s b (match target with
      | some te => update (update head (some e.file) 0) (some te.file) 0
      | none => update head (some e.file) 0))
    (hspare : Spare b e) (hstart : head (some e.file) = e.start)
    (htarget : ∀ te, target = some te → Spare b te ∧ e.file ≠ te.file ∧ head (some te.file) = te.start)
    (hstep : b.addBack e target back targetBack = some s') : Inv s' head chain := by
  rw [State.addBack, Option.bind_eq_some_iff] at hstep
  obtain ⟨c, hadd, hrest⟩ := hstep
  obtain ⟨hc, -, -⟩ := Holding.add h hb hspare hadd
  cases target with
  | none =>
    cases hrest
    rw [update_idem, ← hstart, update_eq_self] at hc
    exact h.of_frame hc.frame hc.entries (by rw [hc.table]; exact h.layout) h.nobody fun _ _ _ => rfl
  | some te =>
    obtain ⟨hte, hne, htstart⟩ := htarget te rfl
    obtain ⟨hs, -, -⟩ := Holding.add h hc (hte.add hne hadd) hrest
    have hhead : update (update (update (update head (some e.file) 0)
        (some te.file) 0) (some e.file) e.start) (some te.file) te.start = head := by
      have hne' : (some e.file : Option ℕ) ≠ some te.file := fun heq => hne (Option.some.inj heq)
      rw [update_comm hne', update_idem, update_comm hne',
        update_idem, ← hstart, ← htstart, update_eq_self, update_eq_self]
    dsimp only at hs
    rw [hhead] at hs
    exact h.of_frame hs.frame hs.entries (by rw [hs.table]; exact h.layout) h.nobody fun _ _ _ => rfl

theorem Holding.repoint {old new : ℕ} (hb : Holding s b head) (hslot : b.slot new = some e)
    (hup : (b.core old).upToDate = false) (hnew : (b.core new).upToDate = false)
    (hstart : (b.core old).start = e.start) (hidle : ∀ d ∈ s.fds, d.ino ≠ old) (hfree : ∀ d ∈ s.fds, d.ino ≠ new) :
    Holding s (b.repoint old new) head ∧ ∀ f, Absent b.slot f → Absent (b.repoint old new).slot f := by
  have heq : b.repoint old new = (b.setCore old { b.core old with pos := new }).setSlot new
      (some { e with start := (b.core old).start, size := (b.core old).size }) := by
    rw [State.repoint, State.writeInode]
    simp only [State.setCore, State.setSlot, update_self, hslot]
  have hcore := hb.frame.setCore (k := { b.core old with pos := new }) hidle hup fun hk => hk
  have hold : ((b.setCore old { b.core old with pos := new }).core new).upToDate = false := by
    by_cases hno : new = old
    · subst hno
      simpa only [State.setCore, update_self] using hup
    · simpa only [State.setCore, update_of_ne hno] using hnew
  have hset := hb.entries.set (y := { e with start := (b.core old).start, size := (b.core old).size }) hslot
    rfl fun hd => by
      dsimp only
      rw [hstart]
      exact hb.entries.dir new e hslot hd
  have hhead : update head (some e.file) (b.core old).start = head := by
    rw [hstart, ← hb.entries.start new e hslot, update_eq_self]
  rw [hhead] at hset
  rw [heq]
  refine ⟨⟨hcore.setSlot hfree hold, hb.table, hb.nextFile, hset⟩, fun f hf => hf.insert ?_⟩
  exact hf new e hslot

/-- The entry of a file gets another position, and the chain of the file that had the name is freed. -/
theorem Inv.moveEntry {old new dir need back targetBack : ℕ} {added : Added} {target : Option Entry}
    {de : Entry} (h : Inv s head chain) (hdir : s.dir dir = some de) (hlate : added ≠ .late)
    (hb : Holding s b (match target with
      | some te => update (update head (some e.file) 0) (some te.file) 0
      | none => update head (some e.file) 0))
    (hidle : ∀ d ∈ s.fds, d.ino ≠ old) (hup : (b.core old).upToDate = false)
    (hcore : (b.core old).start = e.start) (hspare : Spare b e) (hstart : head (some e.file) = e.start)
    (htarget : ∀ te, target = some te → Spare b te ∧ e.file ≠ te.file ∧ head (some te.file) = te.start)
    (hstep : b.moveEntry old new e target de need added back targetBack = some s') :
    ∃ head' chain', Inv s' head' chain' := by
  obtain ⟨⟨chain', hinv⟩, hadded⟩ := h.addEntry (w := need) (z := added) hdir
  rw [State.moveEntry, hb.table] at hstep
  rcases hadd : Clusters.addEntry done s.table de.node need added with ⟨r, t⟩
  rw [hadd] at hstep hinv hadded
  dsimp only at hinv hadded hstep
  have hb' : Holding (s.setTable t) (b.setTable t) _ :=
    ⟨⟨hb.frame.clusterSize, hb.frame.fds, hb.frame.cache, hb.frame.core, hb.frame.busy⟩, rfl, hb.nextFile, hb.entries⟩
  have hspare' : Spare (b.setTable t) e := ⟨hspare.absent, hspare.next, hspare.dir⟩
  have htarget' : ∀ te, target = some te →
      Spare (b.setTable t) te ∧ e.file ≠ te.file ∧ head (some te.file) = te.start := by
    intro te hte
    obtain ⟨hs, hrest⟩ := htarget te hte
    exact ⟨⟨hs.absent, hs.next, hs.dir⟩, hrest⟩
  cases r with
  | failed => exact ⟨head, chain', hinv.addBack hb' hspare' hstart htarget' hstep⟩
  | late =>
    rcases hadded with heq | heq
    · exact absurd heq.symm hlate
    · cases heq
  | ok =>
    obtain ⟨c, hc, hrest⟩ := Option.map_eq_some_iff.mp hstep
    obtain ⟨hholding, hfree, heq⟩ := Holding.add hinv hb' hspare' hc
    have hslot : c.slot new = some e := by
      rw [heq, State.setCore, State.setSlot]
      exact update_self ..
    have hcnew : (c.core new).upToDate = false := by
      rw [heq, State.setCore]
      dsimp only
      rw [update_self]
    have hcold : (c.core old).upToDate = false ∧ (c.core old).start = e.start := by
      rw [heq, State.setCore]
      dsimp only
      by_cases hon : old = new
      · rw [hon, update_self]
        refine ⟨rfl, ?_⟩
        rw [← hon]
        exact hcore
      · rw [update_of_ne hon]
        exact ⟨hup, hcore⟩
    obtain ⟨hmoved, habsent⟩ := hholding.repoint hslot hcold.1 hcnew hcold.2 hidle hfree
    cases target with
    | none =>
      dsimp only at hrest hmoved
      rw [update_idem, ← hstart, update_eq_self] at hmoved
      rw [← hrest]
      exact ⟨head, chain', hinv.of_frame hmoved.frame hmoved.entries
        (by rw [hmoved.table]; exact hinv.layout) hinv.nobody fun _ _ _ => rfl⟩
    | some te =>
      obtain ⟨hte, hne, htstart⟩ := htarget' te rfl
      have hne' : (some e.file : Option ℕ) ≠ some te.file := fun heq => hne (Option.some.inj heq)
      dsimp only at hrest hmoved
      rw [update_comm hne', update_idem, ← hstart, update_comm hne'.symm, update_eq_self] at hmoved
      obtain ⟨t', hfreed, hlayout⟩ := hinv.layout.freeChain done_clean (some te.file)
      rw [htstart] at hfreed
      change t.freeChain done te.start = (true, t') at hfreed
      rw [hfreed] at hrest
      rw [← hrest]
      exact ⟨_, _, hinv.freed (hmoved.frame.setTable t') hmoved.entries
        (habsent te.file (hte.add hne hc).absent) hlayout⟩

theorem Holding.take (hb : Holding s b head') (hpos : b.slot pos = some e) (hfits : Fits b pos e)
    (hidle : ∀ d ∈ s.fds, d.ino ≠ pos) :
    ∃ e', (b.iget pos).slot pos = some e' ∧ Alike e e' ∧
      Holding s (b.take pos) (update head' (some e.file) 0) ∧ Spare (b.take pos) e' ∧
      (b.take pos).slot = update b.slot pos none ∧
      ((b.take pos).core pos).upToDate = false ∧ ((b.take pos).core pos).start = e.start ∧
      ∀ q ≠ pos, (b.take pos).core q = b.core q := by
  obtain ⟨e', core, hget, halike, htake, hup, hstart, hcache⟩ := take_eq hpos hfits
  obtain ⟨hentries, habsent⟩ := hb.entries.remove hpos
  refine ⟨e', hget, halike, ?_⟩
  rw [htake]
  refine ⟨⟨hb.frame.setBoth hidle hup fun hk => by rwa [hcache], hb.table, hb.nextFile, hentries⟩,
    Spare.alike ⟨habsent, hb.entries.next pos e hpos, hb.entries.dir pos e hpos⟩ halike, rfl, ?_, ?_,
    fun q hq => update_of_ne hq _ _⟩
  · simpa only [State.setCore, update_self] using hup
  · simpa only [State.setCore, update_self] using hstart

theorem iget_slot_isSome (hup : b.slot pos = none → (b.core pos).upToDate = false)
    (hget : (b.iget pos).slot pos = some e) : ∃ e₀, b.slot pos = some e₀ := by
  cases hpos : b.slot pos with
  | some e₀ => exact ⟨e₀, rfl⟩
  | none =>
    have hold := hup hpos
    have hflush : b.flush pos = b := by
      rw [State.flush, if_neg]
      simp [hold]
    rw [State.iget, hflush] at hget
    simp only [hold, Bool.false_eq_true, if_false, State.setCore] at hget
    rw [hpos] at hget
    cases hget

theorem Inv.rename {old new dir need back targetBack : ℕ} {target : Option ℕ} {added : Added}
    (h : Inv s head chain) (hgood : Careful s (.rename old new target dir need added back targetBack))
    (hstep : exec s (.rename old new target dir need added back targetBack) = some s') :
    ∃ head' chain', Inv s' head' chain' := by
  obtain ⟨hidle, htargets, hlate⟩ := hgood
  have hidle := not_busy hidle
  rw [exec.eq_def] at hstep
  dsimp only at hstep
  split at hstep
  · rename_i e' de hget hdir
    obtain ⟨e, hold⟩ := iget_slot_isSome h.not_upToDate hget
    have hself : Holding s s head := ⟨Frame.refl s, rfl, rfl, h.entries⟩
    obtain ⟨e'', hget', halike, hb, hspare, hslot, hup, hcore, hother⟩ := hself.take hold (h.fits hold) hidle
    rw [hget] at hget'
    cases hget'
    have hstart : head (some e'.file) = e'.start := by
      rw [halike.1, halike.2.2]
      exact h.entries.start old e hold
    rw [← halike.1] at hb
    rw [← halike.2.2] at hcore
    split at hstep
    · exact h.moveEntry hdir hlate hb hidle hup hcore hspare hstart (fun te hte => by cases hte) hstep
    · rename_i t
      split_ifs at hstep with hcond
      rw [not_or] at hcond
      have htidle := not_busy (htargets t rfl)
      have hsame : (s.take old).slot t = s.slot t := by
        rw [hslot, update_of_ne hcond.1]
      split at hstep
      · rename_i te' htget
        obtain ⟨te, htold⟩ := iget_slot_isSome
          (fun hnone => by rw [hother t hcond.1]; exact h.not_upToDate (hsame ▸ hnone)) htget
        have htfits : Fits (s.take old) t te := by
          rw [Fits, hother t hcond.1]
          exact h.fits (hsame ▸ htold)
        obtain ⟨te'', htget', htalike, htb, htspare, htslot, -, -, htother⟩ := hb.take htold htfits htidle
        rw [htget] at htget'
        cases htget'
        rw [← htalike.1] at htb
        have hnext : ((s.take old).take t).nextFile = (s.take old).nextFile :=
          htb.nextFile.trans hb.nextFile.symm
        have hspare₂ : Spare ((s.take old).take t) e' := by
          refine ⟨?_, by rw [hnext]; exact hspare.next, hspare.dir⟩
          rw [htslot]
          exact hspare.absent.remove
        have hne : e'.file ≠ te'.file := by
          rw [htalike.1]
          exact (hspare.absent t te htold).symm
        have hcore₂ := htother old (Ne.symm hcond.1)
        refine h.moveEntry hdir hlate htb hidle (by rw [hcore₂]; exact hup) (by rw [hcore₂]; exact hcore)
          hspare₂ hstart (fun u hu => ?_) hstep
        cases hu
        refine ⟨htspare, hne, ?_⟩
        rw [htalike.1, htalike.2.2]
        exact h.entries.start t te (hsame ▸ htold)
      · cases hstep
  · cases hstep

theorem Inv.step {l : Label} (h : Inv s head chain) (hstep : Guarded Good Step s l s') :
    ∃ head' chain', Inv s' head' chain' := by
  obtain ⟨⟨-, hgood⟩, hexec⟩ := hstep
  change exec s l = some s' at hexec
  cases l with
  | openFile pos => exact ⟨head, chain, h.openFile hgood hexec⟩
  | close d => exact ⟨head, chain, h.close hexec⟩
  | read d index => exact ⟨head, chain, h.read hexec⟩
  | write d pos count =>
    obtain ⟨fd, hfd, heq⟩ := Option.map_eq_some_iff.mp hexec
    obtain ⟨-, hsize, hfirst⟩ := hgood fd hfd
    rw [← heq]
    exact h.write (List.mem_of_getElem? hfd) hsize hfirst
  | create pos dir need added =>
    obtain ⟨chain', hinv⟩ := h.create hexec
    exact ⟨head, chain', hinv⟩
  | unlink pos back => exact h.unlink hgood hexec
  | rename old new target dir need added back targetBack => exact h.rename hgood hexec
  | evict ino => exact ⟨head, chain, h.evict hexec⟩

theorem Initial.inv (h : Initial s) : ∃ head chain, Inv s head chain := by
  obtain ⟨head, chain, hnobody, hlayout, hstart, habsent⟩ := h.chains
  refine ⟨head, chain, h.clusterSize, hnobody, hlayout, ⟨hstart, habsent, h.unique, h.next, h.dir⟩,
    fun ino => ?_, fun ino hup => ?_, fun d hd => ?_⟩
  · rw [h.core ino]
    exact ⟨fun _ _ => rfl, fun _ _ => rfl⟩
  · rw [h.core ino] at hup
    cases hup
  · rw [h.fds] at hd
    cases hd

/-- A volume of eight clusters with an empty root directory. -/
def smallVolume : State where
  table := { total := 8, entry := fun c => if c = 2 then Clusters.fatEocMax else 0, nextFree := 3, freeClusters := 7 }
  clusterSize := 512
  slot pos := if pos = 0 then some { file := 0, dir := true, start := 2, size := 0 } else none
  core _ := blank
  fds := []
  nextFile := 1

def after (labels : List Label) : State :=
  labels.foldl (fun s l => (exec s l).getD s) smallVolume

end Mario.Fs.Fat.OpenFiles
