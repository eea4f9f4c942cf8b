import Mario.Lib.Runs
import Mathlib.Data.List.FinRange

/-!
# The sector cache of the FAT

`fat_read_fat_entry` and `fat_write_fat_entry` of any number of tasks. A task waits at each access to
the disk: the disk serves the request, or fails, and later the task goes on. A sector is read into
its slot while the slot has the tag of the sector before it. `last` is not in the source: it has for
each entry the value of the last write to it in the first FAT that has returned.
-/

namespace Mario.Fs.Fat

open Mario.Lib Function

/-- The words of a sector of 512 bytes. -/
abbrev Sector := ℕ → BitVec 32

/-- The fields of `struct fat_sb_info` that a mount sets, for a volume whose FAT has an entry for
each cluster. -/
structure Volume where
  reserved : ℕ
  fatSize : ℕ
  numFats : ℕ
  totalClusters : ℕ
  fits : totalClusters + 2 ≤ fatSize * 128

/-- The clusters that the two functions accept. -/
def Volume.Valid (v : Volume) (c : ℕ) : Prop := 2 ≤ c ∧ c - 2 < v.totalClusters

instance (v : Volume) (c : ℕ) : Decidable (v.Valid c) := inferInstanceAs (Decidable (_ ∧ _))

/-- The sector of an entry in one of the FATs. -/
def Volume.sector (v : Volume) (copy c : ℕ) : ℕ := v.reserved + copy * v.fatSize + c / 128

def fatEocMin : BitVec 32 := 0x0ffffff8
def fatEocMax : BitVec 32 := 0x0fffffff
def fatBadCluster : BitVec 32 := 0x0ffffff7

/-- The values that `fat_write_fat_entry` accepts. -/
def Volume.Value (v : Volume) (x : BitVec 32) : Prop :=
  x = fatBadCluster ∨ x = 0 ∨ fatEocMin ≤ x ∧ x ≤ fatEocMax ∨ (x - 2).toNat < v.totalClusters

instance (v : Volume) (x : BitVec 32) : Decidable (v.Value x) := inferInstanceAs (Decidable (_ ∨ _))

/-- A slot of the cache. -/
structure Slot where
  valid : Bool
  sector : ℕ
  age : ℕ
  data : Sector

/-- How a request to the disk stands. -/
inductive Io
  | waiting
  | done
  | failed
  deriving DecidableEq

inductive Phase
  | idle
  /-- In `blkdev_read` of `fat_read_fat_entry`, into a slot. -/
  | reading (c : ℕ) (slot : Fin 4) (io : Io)
  /-- In `blkdev_read` of `fat_write_fat_entry`, for one of the FATs. -/
  | loading (c : ℕ) (value : BitVec 32) (copy : ℕ) (buf : Sector) (io : Io)
  /-- In `blkdev_write`. -/
  | storing (c : ℕ) (value : BitVec 32) (copy : ℕ) (buf : Sector) (io : Io)

structure State where
  disk : ℕ → Sector
  cache : Fin 4 → Slot
  phase : ℕ → Phase
  last : ℕ → BitVec 32

/-! ## The functions -/

/-- The slot that has a sector. -/
def State.lookup (s : State) (sector : ℕ) : Option (Fin 4) :=
  (List.finRange 4).find? fun i => (s.cache i).valid && (s.cache i).sector == sector

/-- The slot for a sector that no slot has: one that is not valid, or the oldest. -/
def State.victim (s : State) : Fin 4 :=
  match (List.finRange 4).find? fun i => !(s.cache i).valid with
  | some i => i
  | none => (List.finRange 4).foldl (fun j i => if (s.cache j).age < (s.cache i).age then i else j) 0

/-- The ages after a slot was used. -/
def State.use (s : State) (slot : Fin 4) : State :=
  { s with cache := fun i =>
      if i = slot then { s.cache i with age := 0 }
      else if (s.cache i).valid then { s.cache i with age := (s.cache i).age + 1 }
      else s.cache i }

def State.setSlot (s : State) (i : Fin 4) (slot : Slot) : State :=
  { s with cache := update s.cache i slot }

def State.setSector (s : State) (sector : ℕ) (data : Sector) : State :=
  { s with disk := update s.disk sector data }

def State.setPhase (s : State) (t : ℕ) (p : Phase) : State :=
  { s with phase := update s.phase t p }

/-- The copy of a written sector into the slots that have it. -/
def State.refresh (s : State) (sector : ℕ) (buf : Sector) : State :=
  { s with cache := fun i =>
      if (s.cache i).valid && (s.cache i).sector == sector then { s.cache i with data := buf }
      else s.cache i }

inductive Label
  | read (t c : ℕ)
  /-- The buffer is allocated, or it is not. -/
  | write (t c : ℕ) (value : BitVec 32) (mem : Bool)
  | serve (t : ℕ)
  /-- The disk fails, with what it leaves in the buffer or on the disk. -/
  | fail (t : ℕ) (left : Sector)
  | resume (t : ℕ)

def exec (v : Volume) (s : State) : Label → Option State
  | .read t c =>
      match s.phase t with
      | .idle =>
          if v.Valid c then
            match s.lookup (v.sector 0 c) with
            | some i => some (s.use i)
            | none => some (s.setPhase t (.reading c s.victim .waiting))
          else some s
      | _ => none
  | .write t c value mem =>
      match s.phase t with
      | .idle =>
          if v.Valid c ∧ v.Value value ∧ mem ∧ 0 < v.numFats then
            some (s.setPhase t (.loading c value 0 (fun _ => 0) .waiting))
          else some s
      | _ => none
  | .serve t =>
      match s.phase t with
      | .reading c i .waiting =>
          some ((s.setSlot i { s.cache i with data := s.disk (v.sector 0 c) }).setPhase t
            (.reading c i .done))
      | .loading c value k _ .waiting =>
          some (s.setPhase t (.loading c value k (s.disk (v.sector k c)) .done))
      | .storing c value k buf .waiting =>
          some ((s.setSector (v.sector k c) buf).setPhase t (.storing c value k buf .done))
      | _ => none
  | .fail t left =>
      match s.phase t with
      | .reading c i .waiting =>
          some ((s.setSlot i { s.cache i with data := left }).setPhase t (.reading c i .failed))
      | .loading c value k buf .waiting => some (s.setPhase t (.loading c value k buf .failed))
      | .storing c value k buf .waiting =>
          some ((s.setSector (v.sector k c) left).setPhase t (.storing c value k buf .failed))
      | _ => none
  | .resume t =>
      match s.phase t with
      | .reading c i .done =>
          some (((s.setSlot i { s.cache i with valid := true, sector := v.sector 0 c }).use
            i).setPhase t .idle)
      | .reading _ _ .failed => some (s.setPhase t .idle)
      | .loading c value k buf .done =>
          some (s.setPhase t (.storing c value k (update buf (c % 128) value) .waiting))
      | .loading _ _ _ _ .failed => some (s.setPhase t .idle)
      | .storing c value k buf .done =>
          let s := if k = 0 then
              { s.refresh (v.sector 0 c) buf with last := update s.last c value }
            else s
          some (s.setPhase t (if k + 1 < v.numFats then .loading c value (k + 1) (fun _ => 0) .waiting
            else .idle))
      | .storing _ _ _ _ .failed => some (s.setPhase t .idle)
      | _ => none

/-- The entry that `fat_read_fat_entry` has read when it returns in this step, with the value. -/
def returned (v : Volume) (s : State) : Label → Option (ℕ × BitVec 32)
  | .read _ c =>
      if v.Valid c then
        (s.lookup (v.sector 0 c)).map fun i => (c, (s.cache i).data (c % 128) &&& 0x0fffffff)
      else none
  | .resume t =>
      match s.phase t with
      | .reading c i .done => some (c, (s.cache i).data (c % 128) &&& 0x0fffffff)
      | _ => none
  | _ => none

/-! ## The statement -/

/-- A sector of the first FAT as the writes that have returned left it. -/
def State.lastSector (s : State) (x : ℕ) : Sector := fun w => s.last (x * 128 + w)

/-- The words of two sectors are the same. -/
def Same (a b : Sector) : Prop := ∀ w < 128, a w = b w

/-- The sector of the first FAT that a task reads into a slot. -/
def Phase.reads : Phase → Option ℕ
  | .reading c _ _ => some (c / 128)
  | _ => none

/-- The slot that a task reads into. -/
def Phase.slot : Phase → Option (Fin 4)
  | .reading _ i _ => some i
  | _ => none

/-- The sector of the first FAT that a task writes. -/
def Phase.writes : Phase → Option ℕ
  | .loading c _ 0 _ _ => some (c / 128)
  | .storing c _ 0 _ _ => some (c / 128)
  | _ => none

/-- The sector of the first FAT that the disk has written for a task that does not know it yet. -/
def Phase.commits : Phase → Option ℕ
  | .storing c _ 0 _ .done => some (c / 128)
  | _ => none

/-- A slot that is valid has the bytes of its sector: those of the last writes that have returned,
which the disk has when it has not just written the sector. -/
structure Coherent (v : Volume) (s : State) : Prop where
  tag : ∀ i, (s.cache i).valid = true → ∃ x < v.fatSize, (s.cache i).sector = v.reserved + x
  bytes : ∀ i x, (s.cache i).valid = true → (s.cache i).sector = v.reserved + x →
    Same (s.cache i).data (s.lastSector x)
  disk : ∀ x < v.fatSize, (∀ t, (s.phase t).commits ≠ some x) →
    Same (s.disk (v.reserved + x)) (s.lastSector x)

/-- No read goes into a slot that is valid or that another read uses, nothing else works on the
sector of a read or a write, and a write that fails leaves its sector. -/
def Good (v : Volume) (s : State) : Label → Prop
  | .read _ c => v.Valid c → s.lookup (v.sector 0 c) = none →
      (s.cache s.victim).valid = false ∧
        ∀ t, (s.phase t).slot ≠ some s.victim ∧ (s.phase t).writes ≠ some (c / 128)
  | .write _ c _ _ => ∀ t, (s.phase t).reads ≠ some (c / 128) ∧ (s.phase t).writes ≠ some (c / 128)
  | .fail t left =>
      match s.phase t with
      | .storing c _ 0 _ .waiting => left = s.disk (v.sector 0 c)
      | _ => True
  | _ => True

def Step (v : Volume) (s : State) (l : Label) (t : State) : Prop := exec v s l = some t

/-- After the mount no slot is valid and no task is at work. -/
structure Initial (v : Volume) (s : State) : Prop where
  invalid : ∀ i, (s.cache i).valid = false
  idle : ∀ t, s.phase t = .idle
  last : ∀ x < v.fatSize, Same (s.disk (v.reserved + x)) (s.lastSector x)

/-! ## The invariant -/

/-- What is known about a task from where it is. -/
def PhaseOk (v : Volume) (s : State) : Phase → Prop
  | .idle => True
  | .reading c i io => v.Valid c ∧ (s.cache i).valid = false ∧
      (io = .done → Same (s.cache i).data (s.lastSector (c / 128)))
  | .loading c _ k buf io => v.Valid c ∧
      (k = 0 → io = .done → Same buf (s.lastSector (c / 128)))
  | .storing c value k buf io => v.Valid c ∧
      (k = 0 → Same buf (update (s.lastSector (c / 128)) (c % 128) value) ∧
        (io = .done → Same (s.disk (v.reserved + c / 128)) buf))

/-- Two tasks have different slots, and nobody else works on a sector that one writes. -/
structure Apart (p q : Phase) : Prop where
  slot : ∀ i, p.slot = some i → q.slot ≠ some i
  writes : ∀ x, p.writes = some x → q.writes ≠ some x
  reads : ∀ x, p.writes = some x → q.reads ≠ some x
  reads' : ∀ x, q.writes = some x → p.reads ≠ some x

structure Inv (v : Volume) (s : State) : Prop extends Coherent v s where
  phase : ∀ t, PhaseOk v s (s.phase t)
  apart : ∀ t t', t ≠ t' → Apart (s.phase t) (s.phase t')

section Lemmas

variable {v : Volume} {s : State} {t t' c k : ℕ} {i : Fin 4} {value : BitVec 32} {buf : Sector}
  {io io' : Io} {p q p' : Phase}

theorem Apart.symm (h : Apart p q) : Apart q p where
  slot i hq hp := h.slot i hp hq
  writes x hq hp := h.writes x hp hq
  reads := h.reads'
  reads' := h.reads

theorem Apart.congr (h : Apart p q) (hslot : p'.slot = p.slot) (hwrites : p'.writes = p.writes)
    (hreads : p'.reads = p.reads) : Apart p' q where
  slot i hi := h.slot i (hslot ▸ hi)
  writes x hx := h.writes x (hwrites ▸ hx)
  reads x hx := h.reads x (hwrites ▸ hx)
  reads' x hx := hreads ▸ h.reads' x hx

/-- A task that is done with the disk is apart from all others. -/
theorem Apart.of_none (hslot : p.slot = none) (hwrites : p.writes = none) (hreads : p.reads = none) : Apart p q where
  slot i hi := by rw [hslot] at hi; cases hi
  writes x hx := by rw [hwrites] at hx; cases hx
  reads x hx := by rw [hwrites] at hx; cases hx
  reads' x hx := by rw [hreads]; simp

theorem sector_zero (v : Volume) (c : ℕ) : v.sector 0 c = v.reserved + c / 128 := by
  simp [Volume.sector]

theorem Volume.Valid.lt (h : v.Valid c) : c / 128 < v.fatSize := by
  have hfits := v.fits
  obtain ⟨h2, hlt⟩ := h
  exact Nat.div_lt_of_lt_mul (by omega)

theorem sector_ne {x : ℕ} (hk : k ≠ 0) (hx : x < v.fatSize) : v.sector k c ≠ v.reserved + x := by
  have hle : v.fatSize ≤ k * v.fatSize := Nat.le_mul_of_pos_left _ (Nat.pos_of_ne_zero hk)
  rw [Volume.sector]
  omega

@[simp]
theorem setPhase_self (s : State) (t : ℕ) (p : Phase) : (s.setPhase t p).phase t = p := by
  simp [State.setPhase]

theorem setPhase_ne (h : t' ≠ t) (p : Phase) : (s.setPhase t p).phase t' = s.phase t' := by
  simp [State.setPhase, h]

theorem lastSector_apply (s : State) (x w : ℕ) : s.lastSector x w = s.last (x * 128 + w) := rfl

/-- What is known about a task depends on the disk, the cache and `last`. -/
theorem PhaseOk.congr {s' : State} (h : PhaseOk v s p) (hcache : s'.cache = s.cache)
    (hdisk : s'.disk = s.disk) (hlast : s'.last = s.last) : PhaseOk v s' p := by
  have hsector : ∀ x, s'.lastSector x = s.lastSector x := by
    intro x
    funext w
    rw [lastSector_apply, lastSector_apply, hlast]
  cases p with
  | idle => trivial
  | reading c i io => simpa only [PhaseOk, hcache, hsector] using h
  | loading c value k buf io => simpa only [PhaseOk, hsector] using h
  | storing c value k buf io => simpa only [PhaseOk, hdisk, hsector] using h

theorem Inv.setPhase (h : Inv v s) (hp : PhaseOk v s p) (hapart : ∀ t' ≠ t, Apart p (s.phase t'))
    (hcommits : ∀ x, (s.phase t).commits = some x → p.commits = some x ∨
      Same (s.disk (v.reserved + x)) (s.lastSector x)) : Inv v (s.setPhase t p) where
  tag := h.tag
  bytes := h.bytes
  disk x hx hnone := by
    by_cases hold : (s.phase t).commits = some x
    · rcases hcommits x hold with hnew | hsame
      · exact absurd hnew (by simpa using hnone t)
      · exact hsame
    · refine h.disk x hx fun t' => ?_
      by_cases htt : t' = t
      · rwa [htt]
      · rw [← setPhase_ne htt p]
        exact hnone t'
  phase t' := by
    by_cases htt : t' = t
    · subst htt
      rw [setPhase_self]
      exact hp.congr rfl rfl rfl
    · rw [setPhase_ne htt p]
      exact (h.phase t').congr rfl rfl rfl
  apart a b hab := by
    by_cases ha : a = t
    · subst ha
      rw [setPhase_self, setPhase_ne (Ne.symm hab)]
      exact hapart b (Ne.symm hab)
    · rw [setPhase_ne ha]
      by_cases hb : b = t
      · subst hb
        rw [setPhase_self]
        exact (hapart a ha).symm
      · rw [setPhase_ne hb]
        exact h.apart a b hab

/-- A task that is not between the two ends of a write of the first FAT can go anywhere. -/
theorem Inv.setPhase_of_not_commits (h : Inv v s) (hp : PhaseOk v s p)
    (hapart : ∀ t' ≠ t, Apart p (s.phase t')) (hcommits : (s.phase t).commits = none) : Inv v (s.setPhase t p) := by
  refine h.setPhase hp hapart fun x hx => ?_
  rw [hcommits] at hx
  cases hx

theorem Inv.return (h : Inv v s) (hcommits : (s.phase t).commits = none) :
    Inv v (s.setPhase t .idle) :=
  h.setPhase_of_not_commits trivial (fun _ _ => Apart.of_none rfl rfl rfl) hcommits

/-- A task waits at another place with the same slot and the same sectors. -/
theorem Inv.move (h : Inv v s) (hp : PhaseOk v s p) (hslot : p.slot = (s.phase t).slot)
    (hwrites : p.writes = (s.phase t).writes) (hreads : p.reads = (s.phase t).reads)
    (hcommits : (s.phase t).commits = none) : Inv v (s.setPhase t p) :=
  h.setPhase_of_not_commits hp (fun t' htt => (h.apart t t' (Ne.symm htt)).congr hslot hwrites hreads) hcommits

/-- A task goes on to a place where it has no slot and does not write the first FAT. -/
theorem Inv.leave (h : Inv v s) (hp : PhaseOk v s p) (hslot : p.slot = none)
    (hwrites : p.writes = none) (hreads : p.reads = none) (hcommits : (s.phase t).commits = none) :
    Inv v (s.setPhase t p) :=
  h.setPhase_of_not_commits hp (fun _ _ => Apart.of_none hslot hwrites hreads) hcommits

theorem Phase.writes_of_commits {x : ℕ} (h : p.commits = some x) : p.writes = some x := by
  cases p with
  | storing c value k buf io =>
    cases k with
    | zero =>
      cases io with
      | done => exact h
      | _ => cases h
    | succ k => cases h
  | _ => cases h

theorem Phase.reads_of_writes {x : ℕ} (h : p.writes = some x) : p.reads = none := by
  cases p with
  | reading c i io => cases h
  | _ => rfl

/-- Nobody has written the sector of a read that waits, so the disk has it. -/
theorem Inv.disk_of_reads {x : ℕ} (h : Inv v s) (hx : x < v.fatSize)
    (hreads : (s.phase t).reads = some x) : Same (s.disk (v.reserved + x)) (s.lastSector x) := by
  refine h.disk x hx fun t' hcommits => ?_
  have hwrites := Phase.writes_of_commits hcommits
  by_cases htt : t' = t
  · rw [htt] at hwrites
    rw [Phase.reads_of_writes hwrites] at hreads
    cases hreads
  · exact (h.apart t' t htt).reads x hwrites hreads

/-- Nobody but a task that waits for the first FAT has written its sector. -/
theorem Inv.disk_of_writes {x : ℕ} (h : Inv v s) (hx : x < v.fatSize)
    (hwrites : (s.phase t).writes = some x) (hcommits : (s.phase t).commits = none) :
    Same (s.disk (v.reserved + x)) (s.lastSector x) := by
  refine h.disk x hx fun t' hcommits' => ?_
  by_cases htt : t' = t
  · rw [htt, hcommits] at hcommits'
    cases hcommits'
  · exact (h.apart t t' (Ne.symm htt)).writes x hwrites (Phase.writes_of_commits hcommits')

/-! ## The cache -/

theorem use_valid (s : State) (i j : Fin 4) : ((s.use i).cache j).valid = (s.cache j).valid := by
  simp only [State.use]
  split_ifs <;> rfl

theorem use_sector (s : State) (i j : Fin 4) : ((s.use i).cache j).sector = (s.cache j).sector := by
  simp only [State.use]
  split_ifs <;> rfl

theorem use_data (s : State) (i j : Fin 4) : ((s.use i).cache j).data = (s.cache j).data := by
  simp only [State.use]
  split_ifs <;> rfl

theorem Inv.use (h : Inv v s) (i : Fin 4) : Inv v (s.use i) where
  tag j hj := by
    rw [use_valid] at hj
    rw [use_sector]
    exact h.tag j hj
  bytes j x hj hx := by
    rw [use_valid] at hj
    rw [use_sector] at hx
    rw [use_data]
    exact h.bytes j x hj hx
  disk := h.disk
  phase t := by
    have hp := h.phase t
    change PhaseOk v (s.use i) (s.phase t)
    cases hph : s.phase t with
    | idle => trivial
    | reading c j io =>
      rw [hph] at hp
      simp only [PhaseOk, use_valid, use_data]
      exact hp
    | loading c value k buf io => rwa [hph] at hp
    | storing c value k buf io => rwa [hph] at hp
  apart := h.apart

theorem lookup_some {sector : ℕ} (h : s.lookup sector = some i) :
    (s.cache i).valid = true ∧ (s.cache i).sector = sector := by
  have := List.find?_some h
  simpa using this

theorem Inv.fill (h : Inv v s) (hphase : s.phase t = .reading c i .waiting) (data : Sector) :
    Inv v (s.setSlot i { s.cache i with data := data }) := by
  have hok := h.phase t
  rw [hphase] at hok
  have hvalid : ∀ j, ((s.setSlot i { s.cache i with data := data }).cache j).valid =
      (s.cache j).valid := by
    intro j
    by_cases hj : j = i
    · subst hj
      simp [State.setSlot]
    · simp [State.setSlot, hj]
  have hne : ∀ j, (s.cache j).valid = true →
      (s.setSlot i { s.cache i with data := data }).cache j = s.cache j := by
    intro j hj
    have hji : j ≠ i := by
      rintro rfl
      rw [hok.2.1] at hj
      cases hj
    simp [State.setSlot, hji]
  refine ⟨⟨fun j hj => ?_, fun j x hj hx => ?_, h.disk⟩, fun t' => ?_, h.apart⟩
  · rw [hvalid] at hj
    rw [hne j hj]
    exact h.tag j hj
  · rw [hvalid] at hj
    rw [hne j hj] at hx ⊢
    exact h.bytes j x hj hx
  · change PhaseOk v _ (s.phase t')
    have hp := h.phase t'
    cases hph : s.phase t' with
    | idle => trivial
    | reading c' j io =>
      rw [hph] at hp
      refine ⟨hp.1, (hvalid j).trans hp.2.1, fun hdone => ?_⟩
      have hji : j ≠ i := by
        rintro rfl
        by_cases htt : t' = t
        · subst htt
          rw [hphase] at hph
          cases hph
          cases hdone
        · have hslot := (h.apart t' t htt).slot j
          rw [hph, hphase] at hslot
          exact hslot rfl rfl
      have hcache : (s.setSlot i { s.cache i with data := data }).cache j = s.cache j := by
        simp [State.setSlot, hji]
      rw [hcache]
      exact hp.2.2 hdone
    | loading c' value k buf io => rwa [hph] at hp
    | storing c' value k buf io => rwa [hph] at hp

theorem Inv.install (h : Inv v s) (hphase : s.phase t = .reading c i .done) :
    Inv v ((s.setPhase t .idle).setSlot i
      { s.cache i with valid := true, sector := v.sector 0 c }) := by
  have hok := h.phase t
  rw [hphase] at hok
  have hreturn := h.return (t := t) (by rw [hphase]; rfl)
  have hself : ((s.setPhase t .idle).setSlot i
      { s.cache i with valid := true, sector := v.sector 0 c }).cache i =
        { s.cache i with valid := true, sector := v.sector 0 c } := by
    simp [State.setSlot]
  have hne : ∀ j ≠ i, ((s.setPhase t .idle).setSlot i
      { s.cache i with valid := true, sector := v.sector 0 c }).cache j = s.cache j := by
    intro j hj
    simp [State.setSlot, State.setPhase, hj]
  refine ⟨⟨fun j hj => ?_, fun j x hj hx => ?_, hreturn.disk⟩, fun t' => ?_, hreturn.apart⟩
  · by_cases hji : j = i
    · subst hji
      rw [hself]
      exact ⟨c / 128, hok.1.lt, sector_zero v c⟩
    · rw [hne j hji] at hj ⊢
      exact h.tag j hj
  · by_cases hji : j = i
    · subst hji
      rw [hself] at hx ⊢
      obtain rfl : x = c / 128 := by
        have hsector := sector_zero v c
        dsimp only at hx
        omega
      exact hok.2.2 rfl
    · rw [hne j hji] at hj hx ⊢
      exact h.bytes j x hj hx
  · have hp := hreturn.phase t'
    change PhaseOk v _ ((s.setPhase t .idle).phase t')
    cases hph : (s.setPhase t .idle).phase t' with
    | idle => trivial
    | reading c' j io =>
      rw [hph] at hp
      have htt : t' ≠ t := by
        rintro rfl
        rw [setPhase_self] at hph
        cases hph
      have hji : j ≠ i := by
        rintro rfl
        rw [setPhase_ne htt] at hph
        have hslot := (h.apart t' t htt).slot j
        rw [hph, hphase] at hslot
        exact hslot rfl rfl
      rw [PhaseOk, hne j hji]
      exact hp
    | loading c' value k buf io => rwa [hph] at hp
    | storing c' value k buf io => rwa [hph] at hp

/-! ## The disk -/

theorem Inv.setSector (h : Inv v s) (hk : k ≠ 0) (data : Sector) : Inv v (s.setSector (v.sector k c) data) := by
  have hdisk : ∀ x < v.fatSize,
      (s.setSector (v.sector k c) data).disk (v.reserved + x) = s.disk (v.reserved + x) := by
    intro x hx
    exact update_of_ne (Ne.symm (sector_ne hk hx)) _ _
  refine ⟨⟨h.tag, h.bytes, fun x hx hnone => ?_⟩, fun t' => ?_, h.apart⟩
  · rw [hdisk x hx]
    exact h.disk x hx hnone
  · change PhaseOk v _ (s.phase t')
    have hp := h.phase t'
    cases hph : s.phase t' with
    | idle => trivial
    | reading c' j io => rwa [hph] at hp
    | loading c' value k buf io => rwa [hph] at hp
    | storing c' value k buf io =>
      rw [hph] at hp
      rw [PhaseOk, hdisk _ hp.1.lt]
      exact hp

theorem Inv.commit (h : Inv v s) (hphase : s.phase t = .storing c value 0 buf .waiting) :
    Inv v ((s.setSector (v.sector 0 c) buf).setPhase t (.storing c value 0 buf .done)) := by
  have hok := h.phase t
  rw [hphase] at hok
  have hself : (s.setSector (v.sector 0 c) buf).disk (v.reserved + c / 128) = buf := by
    rw [← sector_zero]
    exact update_self _ _ _
  have hne : ∀ x ≠ c / 128,
      (s.setSector (v.sector 0 c) buf).disk (v.reserved + x) = s.disk (v.reserved + x) := by
    intro x hx
    refine update_of_ne ?_ _ _
    rw [sector_zero]
    omega
  refine ⟨⟨h.tag, h.bytes, fun x hx hnone => ?_⟩, fun t' => ?_, fun a b hab => ?_⟩
  · have hxc : x ≠ c / 128 := by
      rintro rfl
      exact hnone t (by rw [setPhase_self]; rfl)
    change Same ((s.setSector (v.sector 0 c) buf).disk (v.reserved + x)) _
    rw [hne x hxc]
    refine h.disk x hx fun t' => ?_
    by_cases htt : t' = t
    · rw [htt, hphase]
      simp [Phase.commits]
    · have hcommits := hnone t'
      rwa [setPhase_ne htt] at hcommits
  · by_cases htt : t' = t
    · subst htt
      rw [setPhase_self]
      refine ⟨hok.1, fun _ => ⟨(hok.2 rfl).1, fun _ => ?_⟩⟩
      change Same ((s.setSector (v.sector 0 c) buf).disk (v.reserved + c / 128)) buf
      rw [hself]
      exact fun _ _ => rfl
    · rw [setPhase_ne htt]
      change PhaseOk v _ (s.phase t')
      have hp := h.phase t'
      cases hph : s.phase t' with
      | idle => trivial
      | reading c' j io => rwa [hph] at hp
      | loading c' value k buf io => rwa [hph] at hp
      | storing c' value' k buf' io =>
        rw [hph] at hp
        refine ⟨hp.1, fun hk => ⟨(hp.2 hk).1, fun hdone => ?_⟩⟩
        have hxc : c' / 128 ≠ c / 128 := by
          intro heq
          have hwrites := (h.apart t t' (Ne.symm htt)).writes (c / 128)
          rw [hphase, hph, hk] at hwrites
          exact hwrites rfl (by rw [← heq]; rfl)
        change Same ((s.setSector (v.sector 0 c) buf).disk (v.reserved + c' / 128)) buf'
        rw [hne _ hxc]
        exact (hp.2 hk).2 hdone
  · have hcongr : ∀ q, Apart (s.phase t) q → Apart (.storing c value 0 buf .done) q := by
      intro q hq
      refine hq.congr ?_ ?_ ?_ <;> rw [hphase] <;> rfl
    by_cases ha : a = t
    · subst ha
      rw [setPhase_self, setPhase_ne (Ne.symm hab)]
      exact hcongr _ (h.apart a b hab)
    · rw [setPhase_ne ha]
      by_cases hb : b = t
      · subst hb
        rw [setPhase_self]
        exact (hcongr _ (h.apart b a (Ne.symm hab))).symm
      · rw [setPhase_ne hb]
        exact h.apart a b hab

/-- The state after a write of the first FAT has returned, with the task where it goes next. -/
def State.finish (v : Volume) (s : State) (t c : ℕ) (value : BitVec 32) (buf : Sector) (p : Phase) :
    State :=
  State.setPhase { s.refresh (v.sector 0 c) buf with last := update s.last c value } t p

theorem finish_lastSector_ne {x : ℕ} (hx : x ≠ c / 128) :
    Same ((s.finish v t c value buf p).lastSector x) (s.lastSector x) := by
  intro w hw
  refine update_of_ne ?_ _ _
  omega

theorem finish_lastSector_self (s : State) : Same ((s.finish v t c value buf p).lastSector (c / 128))
      (update (s.lastSector (c / 128)) (c % 128) value) := by
  intro w hw
  have hc := Nat.div_add_mod c 128
  by_cases hword : w = c % 128
  · subst hword
    have hcell : c / 128 * 128 + c % 128 = c := by omega
    rw [update_self, lastSector_apply, hcell]
    exact update_self _ _ _
  · rw [update_of_ne hword]
    refine update_of_ne ?_ _ _
    omega

theorem Same.trans {a b d : Sector} (h : Same a b) (h' : Same b d) : Same a d :=
  fun w hw => (h w hw).trans (h' w hw)

theorem Same.symm {a b : Sector} (h : Same a b) : Same b a := fun w hw => (h w hw).symm

theorem finish_cache (j : Fin 4) : (s.finish v t c value buf p).cache j =
    if (s.cache j).valid && (s.cache j).sector == v.sector 0 c then { s.cache j with data := buf }
    else s.cache j := rfl

/-- What another task knows stays true when a write of the first FAT returns. -/
theorem PhaseOk.finish (h : Inv v s) (hphase : s.phase t = .storing c value 0 buf .done)
    (htt : t' ≠ t) : PhaseOk v (s.finish v t c value buf p) (s.phase t') := by
  have hp := h.phase t'
  have hapart := h.apart t t' (Ne.symm htt)
  rw [hphase] at hapart
  cases hph : s.phase t' with
  | idle => trivial
  | reading c' j io =>
    rw [hph] at hp hapart
    have hxc : c' / 128 ≠ c / 128 := fun heq => hapart.reads (c / 128) rfl (by rw [← heq]; rfl)
    have hcache : (s.finish v t c value buf p).cache j = s.cache j := by
      rw [finish_cache, if_neg]
      simp [hp.2.1]
    rw [PhaseOk, hcache]
    exact ⟨hp.1, hp.2.1, fun hdone => (hp.2.2 hdone).trans (finish_lastSector_ne hxc).symm⟩
  | loading c' value' k buf' io =>
    rw [hph] at hp hapart
    refine ⟨hp.1, fun hk hdone => ?_⟩
    subst hk
    have hxc : c' / 128 ≠ c / 128 := fun heq => hapart.writes (c / 128) rfl (by rw [← heq]; rfl)
    exact (hp.2 rfl hdone).trans (finish_lastSector_ne hxc).symm
  | storing c' value' k buf' io =>
    rw [hph] at hp hapart
    refine ⟨hp.1, fun hk => ?_⟩
    subst hk
    have hxc : c' / 128 ≠ c / 128 := fun heq => hapart.writes (c / 128) rfl (by rw [← heq]; rfl)
    refine ⟨(hp.2 rfl).1.trans fun w hw => ?_, (hp.2 rfl).2⟩
    by_cases hword : w = c' % 128
    · rw [hword, update_self, update_self]
    · rw [update_of_ne hword, update_of_ne hword]
      exact (finish_lastSector_ne hxc w hw).symm

theorem Inv.finish (h : Inv v s) (hphase : s.phase t = .storing c value 0 buf .done)
    (hp : PhaseOk v (s.finish v t c value buf p) p) (hslot : p.slot = none) (hwrites : p.writes = none)
    (hreads : p.reads = none) : Inv v (s.finish v t c value buf p) := by
  have hok := h.phase t
  rw [hphase] at hok
  have hbuf : Same buf ((s.finish v t c value buf p).lastSector (c / 128)) :=
    (hok.2 rfl).1.trans (finish_lastSector_self s).symm
  have hself : (s.finish v t c value buf p).phase t = p := setPhase_self _ t p
  have hne : ∀ t' ≠ t, (s.finish v t c value buf p).phase t' = s.phase t' :=
    fun t' htt => setPhase_ne htt p
  refine ⟨⟨fun j hj => ?_, fun j x hj hx => ?_, fun x hx hnone => ?_⟩, fun t' => ?_, fun a b hab => ?_⟩
  · rw [finish_cache] at hj ⊢
    split_ifs at hj ⊢
    · exact h.tag j hj
    · exact h.tag j hj
  · rw [finish_cache] at hj hx ⊢
    split_ifs at hj hx ⊢ with hhit
    · obtain rfl : x = c / 128 := by
        have hsector := sector_zero v c
        dsimp only at hx
        simp only [Bool.and_eq_true, beq_iff_eq] at hhit
        omega
      exact hbuf
    · have hxc : x ≠ c / 128 := by
        rintro rfl
        apply hhit
        simp only [Bool.and_eq_true, beq_iff_eq]
        exact ⟨hj, by rw [hx, sector_zero]⟩
      exact (h.bytes j x hj hx).trans (finish_lastSector_ne hxc).symm
  · by_cases hxc : x = c / 128
    · subst hxc
      exact ((hok.2 rfl).2 rfl).trans hbuf
    · refine (h.disk x hx fun t' => ?_).trans (finish_lastSector_ne hxc).symm
      by_cases htt : t' = t
      · rw [htt, hphase]
        simp only [Phase.commits, ne_eq, Option.some.injEq]
        exact fun heq => hxc heq.symm
      · rw [← hne t' htt]
        exact hnone t'
  · by_cases htt : t' = t
    · subst htt
      rwa [hself]
    · rw [hne t' htt]
      exact PhaseOk.finish h hphase htt
  · by_cases ha : a = t
    · subst ha
      rw [hself]
      exact Apart.of_none hslot hwrites hreads
    · rw [hne a ha]
      by_cases hb : b = t
      · subst hb
        rw [hself]
        exact (Apart.of_none hslot hwrites hreads).symm
      · rw [hne b hb]
        exact h.apart a b hab

/-! ## Steps -/

theorem Inv.read (h : Inv v s) (hgood : Good v s (.read t c)) {u : State}
    (hstep : exec v s (.read t c) = some u) : Inv v u := by
  rw [exec] at hstep
  split at hstep
  · rename_i hidle
    split_ifs at hstep with hc
    · split at hstep
      · cases hstep
        exact h.use _
      · rename_i hmiss
        cases hstep
        obtain ⟨hvictim, hothers⟩ := hgood hc hmiss
        refine h.setPhase_of_not_commits ⟨hc, hvictim, fun hdone => by cases hdone⟩
          (fun t' _ => ?_) (by rw [hidle]; rfl)
        refine ⟨fun i hi => ?_, fun x hx => ?_, fun x hx => ?_, fun x hx => ?_⟩
        · obtain rfl : s.victim = i := Option.some.inj hi
          exact (hothers t').1
        · cases hx
        · cases hx
        · intro heq
          obtain rfl : c / 128 = x := Option.some.inj heq
          exact (hothers t').2 hx
    · cases hstep
      exact h
  · cases hstep

theorem Inv.write {mem : Bool} (h : Inv v s) (hgood : Good v s (.write t c value mem)) {u : State}
    (hstep : exec v s (.write t c value mem) = some u) : Inv v u := by
  rw [exec] at hstep
  split at hstep
  · rename_i hidle
    split_ifs at hstep with hc
    · cases hstep
      refine h.setPhase_of_not_commits ⟨hc.1, fun _ hdone => by cases hdone⟩ (fun t' _ => ?_)
        (by rw [hidle]; rfl)
      refine ⟨fun i hi => ?_, fun x hx => ?_, fun x hx => ?_, fun x hx => ?_⟩
      · cases hi
      · obtain rfl : c / 128 = x := Option.some.inj hx
        exact (hgood t').2
      · obtain rfl : c / 128 = x := Option.some.inj hx
        exact (hgood t').1
      · exact fun heq => by cases heq
    · cases hstep
      exact h
  · cases hstep

theorem Inv.serve {u : State} (h : Inv v s) (hstep : exec v s (.serve t) = some u) : Inv v u := by
  have hok := h.phase t
  rw [exec] at hstep
  split at hstep
  · rename_i c i hph
    cases hstep
    rw [hph] at hok
    have hsame := h.disk_of_reads (t := t) hok.1.lt (by rw [hph]; rfl)
    have hfill := h.fill hph (s.disk (v.sector 0 c))
    have hslot : (s.setSlot i { s.cache i with data := s.disk (v.sector 0 c) }).phase t = .reading c i .waiting := hph
    refine hfill.move ⟨hok.1, ?_, fun _ => ?_⟩ ?_ ?_ ?_ ?_
    · simp [State.setSlot, hok.2.1]
    · simp only [State.setSlot, update_self]
      rw [sector_zero]
      exact hsame
    all_goals rw [hslot]; rfl
  · rename_i c value k buf hph
    cases hstep
    rw [hph] at hok
    refine h.move ⟨hok.1, fun hk _ => ?_⟩ ?_ ?_ ?_ ?_
    · subst hk
      rw [sector_zero]
      exact h.disk_of_writes (t := t) hok.1.lt (by rw [hph]; rfl) (by rw [hph]; rfl)
    · rw [hph]; rfl
    · rw [hph]; cases k <;> rfl
    · rw [hph]; rfl
    · rw [hph]; rfl
  · rename_i c value k buf hph
    cases hstep
    rw [hph] at hok
    by_cases hk : k = 0
    · subst hk
      exact h.commit hph
    · have hset := h.setSector (c := c) hk buf
      have hphase : (s.setSector (v.sector k c) buf).phase t = .storing c value k buf .waiting := hph
      obtain ⟨k, rfl⟩ := Nat.exists_eq_succ_of_ne_zero hk
      refine hset.leave ⟨hok.1, fun hzero => absurd hzero hk⟩ rfl rfl rfl ?_
      rw [hphase]; rfl
  · cases hstep

theorem setSector_self (s : State) (x : ℕ) : s.setSector x (s.disk x) = s := by
  simp [State.setSector]

theorem Inv.fail {left : Sector} {u : State} (h : Inv v s) (hgood : Good v s (.fail t left))
    (hstep : exec v s (.fail t left) = some u) : Inv v u := by
  have hok := h.phase t
  rw [exec] at hstep
  split at hstep
  · rename_i c i hph
    cases hstep
    rw [hph] at hok
    have hfill := h.fill hph left
    have hslot : (s.setSlot i { s.cache i with data := left }).phase t = .reading c i .waiting := hph
    refine hfill.move ⟨hok.1, ?_, fun hdone => by cases hdone⟩ ?_ ?_ ?_ ?_
    · simp [State.setSlot, hok.2.1]
    all_goals rw [hslot]; rfl
  · rename_i c value k buf hph
    cases hstep
    rw [hph] at hok
    refine h.move ⟨hok.1, fun _ hdone => by cases hdone⟩ ?_ ?_ ?_ ?_
    · rw [hph]; rfl
    · rw [hph]; cases k <;> rfl
    · rw [hph]; rfl
    · rw [hph]; rfl
  · rename_i c value k buf hph
    cases hstep
    rw [hph] at hok
    by_cases hk : k = 0
    · subst hk
      have hleft : left = s.disk (v.sector 0 c) := by
        rw [Good, hph] at hgood
        exact hgood
      rw [hleft, setSector_self]
      refine h.move ⟨hok.1, fun _ => ⟨(hok.2 rfl).1, fun hdone => by cases hdone⟩⟩ ?_ ?_ ?_ ?_
      all_goals rw [hph]; rfl
    · have hset := h.setSector (c := c) hk left
      have hphase : (s.setSector (v.sector k c) left).phase t = .storing c value k buf .waiting := hph
      obtain ⟨k, rfl⟩ := Nat.exists_eq_succ_of_ne_zero hk
      refine hset.leave ⟨hok.1, fun hzero => absurd hzero hk⟩ rfl rfl rfl ?_
      rw [hphase]; rfl
  · cases hstep

theorem Inv.resume {u : State} (h : Inv v s) (hstep : exec v s (.resume t) = some u) : Inv v u := by
  have hok := h.phase t
  rw [exec] at hstep
  split at hstep
  · rename_i c i hph
    cases hstep
    exact (h.install hph).use i
  · rename_i hph
    cases hstep
    exact h.return (by rw [hph]; rfl)
  · rename_i c value k buf hph
    cases hstep
    rw [hph] at hok
    refine h.move ⟨hok.1, fun hk => ⟨fun w hw => ?_, fun hdone => by cases hdone⟩⟩ ?_ ?_ ?_ ?_
    · by_cases hword : w = c % 128
      · rw [hword, update_self, update_self]
      · rw [update_of_ne hword, update_of_ne hword]
        exact hok.2 hk rfl w hw
    · rw [hph]; rfl
    · rw [hph]; cases k <;> rfl
    · rw [hph]; rfl
    · rw [hph]; rfl
  · rename_i hph
    cases hstep
    exact h.return (by rw [hph]; rfl)
  · rename_i c value k buf hph
    cases hstep
    rw [hph] at hok
    by_cases hk : k = 0
    · subst hk
      rw [if_pos rfl]
      split_ifs
      · exact h.finish hph ⟨hok.1, fun hzero => absurd hzero (by simp)⟩ rfl rfl rfl
      · exact h.finish hph trivial rfl rfl rfl
    · rw [if_neg hk]
      obtain ⟨k, rfl⟩ := Nat.exists_eq_succ_of_ne_zero hk
      split_ifs
      · exact h.leave ⟨hok.1, fun hzero => absurd hzero (by simp)⟩ rfl rfl rfl (by rw [hph]; rfl)
      · exact h.return (by rw [hph]; rfl)
  · rename_i hph
    cases hstep
    exact h.return (by rw [hph]; cases ‹ℕ› <;> rfl)
  · cases hstep

theorem Initial.inv (h : Initial v s) : Inv v s where
  tag i hi := by rw [h.invalid i] at hi; cases hi
  bytes i x hi _ := by rw [h.invalid i] at hi; cases hi
  disk x hx _ := h.last x hx
  phase t := by rw [h.idle t]; trivial
  apart t t' _ := by rw [h.idle t]; exact Apart.of_none rfl rfl rfl

theorem Inv.step {l : Label} {u : State} (h : Inv v s) (hstep : Guarded (Good v) (Step v) s l u) : Inv v u := by
  obtain ⟨hgood, hexec⟩ := hstep
  cases l with
  | read t c => exact h.read hgood hexec
  | write t c value mem => exact h.write hgood hexec
  | serve t => exact h.serve hexec
  | fail t left => exact h.fail hgood hexec
  | resume t => exact h.resume hexec

theorem lastSector_word (s : State) (c : ℕ) : s.lastSector (c / 128) (c % 128) = s.last c := by
  have hcell : c / 128 * 128 + c % 128 = c := Nat.div_add_mod' c 128
  rw [lastSector_apply, hcell]

theorem Inv.returned {l : Label} {x : BitVec 32} (h : Inv v s) (hret : returned v s l = some (c, x)) :
    x = s.last c &&& 0x0fffffff := by
  have hword : c % 128 < 128 := Nat.mod_lt _ (by decide)
  cases l with
  | read t c' =>
    simp only [Fat.returned] at hret
    split_ifs at hret
    obtain ⟨i, hi, heq⟩ := Option.map_eq_some_iff.mp hret
    cases heq
    obtain ⟨hvalid, hsector⟩ := lookup_some hi
    rw [sector_zero] at hsector
    rw [h.bytes i _ hvalid hsector _ hword, lastSector_word]
  | resume t =>
    simp only [Fat.returned] at hret
    split at hret
    · rename_i c' i hph
      have hok := h.phase t
      rw [hph] at hok
      cases hret
      rw [hok.2.2 rfl _ hword, lastSector_word]
    · cases hret
  | _ => cases hret

end Lemmas

/-! ## The cache in a run -/

/-- In a run in which no sector is read into a slot that is in use and nobody else works on a sector
that a task writes, valid slots have the bytes of their sectors and a read returns the value of the
last write. -/
theorem fat_cache_coherent (v : Volume) {s₀ s : State} {labels : List Label} (hinit : Initial v s₀)
    (hrun : Run (Guarded (Good v) (Step v)) s₀ labels s) :
    Coherent v s ∧ ∀ l c x, returned v s l = some (c, x) → x = s.last c &&& 0x0fffffff := by
  have hinv : Inv v s := hrun.invariant hinit.inv fun h hstep => h.step hstep
  exact ⟨hinv.toCoherent, fun l c x hret => hinv.returned hret⟩

/-- A volume with two sectors in its FAT. -/
def smallVolume : Volume where
  reserved := 1
  fatSize := 2
  numFats := 1
  totalClusters := 254
  fits := by decide

/-- The mounted volume: the entries of the second sector of the FAT are ends of chains. -/
def mounted : State where
  disk x _ := if x = 2 then fatEocMax else 0
  cache _ := { valid := false, sector := 0, age := 0, data := fun _ => 0 }
  phase _ := .idle
  last c := if 128 ≤ c then fatEocMax else 0

theorem mounted_initial : Initial smallVolume mounted where
  invalid _ := rfl
  idle _ := rfl
  last x hx w hw := by
    have hx2 : x < 2 := hx
    rw [lastSector_apply]
    simp only [mounted, smallVolume]
    by_cases hx1 : x = 1
    · rw [if_pos (by omega), if_pos (by omega)]
    · rw [if_neg (by omega), if_neg (by omega)]

/-- One task writes an entry while another one reads an entry of the other sector. Then the first one reads what it wrote. -/
def writeThenRead : List Label :=
  [.write 0 2 fatEocMax true, .read 1 130, .serve 1, .serve 0, .resume 0, .resume 1, .serve 0, .resume 0, .read 0 2,
    .serve 0]

def after (labels : List Label) : State :=
  labels.foldl (fun s l => (exec smallVolume s l).getD s) mounted

theorem after_idle (t : ℕ) : (after (writeThenRead.take 1)).phase (t + 2) = .idle ∧
    (after (writeThenRead.take 8)).phase (t + 2) = .idle := ⟨rfl, rfl⟩

theorem writeThenRead_run : Run (Guarded (Good smallVolume) (Step smallVolume)) mounted
    writeThenRead (after writeThenRead) := by
  have hwrite : Good smallVolume mounted (.write 0 2 fatEocMax true) := by
    intro t
    simp [mounted, Phase.reads, Phase.writes]
  have hother : Good smallVolume (after (writeThenRead.take 1)) (.read 1 130) := by
    refine fun _ _ => ⟨by decide, fun t => ?_⟩
    match t with
    | 0 | 1 => decide
    | t + 2 =>
      rw [(after_idle t).1]
      exact ⟨by decide, by decide⟩
  have hread : Good smallVolume (after (writeThenRead.take 8)) (.read 0 2) := by
    refine fun _ _ => ⟨by decide, fun t => ?_⟩
    match t with
    | 0 | 1 => decide
    | t + 2 =>
      rw [(after_idle t).2]
      exact ⟨by decide, by decide⟩
  refine Run.cons ⟨hwrite, rfl⟩ (Run.cons ⟨hother, rfl⟩ (Run.cons ⟨trivial, rfl⟩ (Run.cons ⟨trivial, rfl⟩ ?_)))
  refine Run.cons ⟨trivial, rfl⟩ (Run.cons ⟨trivial, rfl⟩ (Run.cons ⟨trivial, rfl⟩ (Run.cons ⟨trivial, rfl⟩ ?_)))
  exact Run.cons ⟨hread, rfl⟩ (Run.cons ⟨trivial, rfl⟩ (Run.nil _))

/-- One task writes an entry, and another one reads it. -/
theorem fat_cache_coherent_writeThenRead : Coherent smallVolume (after writeThenRead) ∧
    returned smallVolume (after writeThenRead) (.resume 0) = some (2, fatEocMax) :=
  ⟨(fat_cache_coherent smallVolume mounted_initial writeThenRead_run).1, by decide⟩

/-- Two sectors are read into one slot: the second comes when the slot has the tag of the first. -/
def twoMisses : List Label :=
  [.read 0 2, .read 1 130, .serve 0, .resume 0, .serve 1]

theorem twoMisses_run : Run (Step smallVolume) mounted twoMisses (after twoMisses) := by
  refine Run.cons rfl (Run.cons rfl (Run.cons rfl ?_))
  exact Run.cons rfl (Run.cons rfl (Run.nil _))

/-- The first entry is then read from the sector of the second, which has its tag. -/
theorem fat_cache_incoherent : ¬ ∀ (v : Volume) (s₀ s : State) (labels : List Label),
    Initial v s₀ → Run (Step v) s₀ labels s →
      Coherent v s ∧ ∀ l c x, returned v s l = some (c, x) → x = s.last c &&& 0x0fffffff := by
  intro h
  have hvalue := (h smallVolume mounted _ twoMisses mounted_initial twoMisses_run).2
  have hlast : (after twoMisses).last 2 &&& 0x0fffffff = 0 := by decide
  have hread : fatEocMax = (after twoMisses).last 2 &&& 0x0fffffff :=
    hvalue (.read 2 2) 2 fatEocMax (by decide)
  rw [hlast] at hread
  exact absurd hread (by decide)

end Mario.Fs.Fat
