import Mario.Lib.FreePrefix
import Mario.Lib.Holders
import Mario.Lib.Runs

/-!
# The buffer cache

Any number of tasks read sectors through the buffers, change them under `b_sem` and release them.
A step is a critical section of `buffer_lock`, an access to the block device, or an access to the
data and the bits of a buffer whose semaphore the task holds. The block device is a map from
sectors to bytes, and its calls succeed. `latest` is not in the source: it has for every sector the
bytes that were put there last, whether the disk has them already or not.
-/

namespace Mario.Fs.Buffer

open Mario.Lib Function

variable {β : Type*}

def nrBh : ℕ := 16 * 8

def maxBlkdev : ℕ := 64

def major (dev : ℕ) : ℕ := dev >>> 8

/-- `struct buffer_head`, with its data. -/
structure BufferHead (β : Type*) where
  dev : ℕ
  sector : ℕ
  count : ℕ
  dirty : Bool
  upToDate : Bool
  data : β

/-- Where a task is when it has a buffer. -/
inductive Place
  /-- In `get_buffer`, before `down`. -/
  | locking
  /-- In `bread`, back from `get_buffer`. -/
  | got
  /-- In `bread`, before `blkdev_read`. -/
  | reading
  /-- In `bread`, after `blkdev_read`. -/
  | readDone
  /-- After `bread`. -/
  | holding
  /-- The data have been changed, and `set_dirty` is to come. -/
  | modified
  /-- In `brelse`, as the last user. -/
  | syncing
  /-- In `bsync`, before `blkdev_write`. -/
  | flushing (release : Bool)
  /-- In `brelse`, after `bsync`. -/
  | dropping
  /-- In `brelse`, before `up`. -/
  | upping
  deriving DecidableEq

inductive Pc
  | idle
  /-- In `get_buffer`, before the lock. -/
  | trying (dev sector : ℕ)
  /-- In `get_buffer`: in `sleep_on`. -/
  | asleep (dev sector : ℕ)
  | use (place : Place) (dev sector i : ℕ)
  deriving DecidableEq

structure State (β : Type*) where
  all : ℕ → BufferHead β
  lru : List ℕ
  /-- Who holds `b_sem`. -/
  sem : ℕ → Option ℕ
  disk : ℕ → ℕ → β
  /-- The sector size that the driver of a device tells. -/
  info : ℕ → Option ℕ
  pc : ℕ → Pc
  latest : ℕ → ℕ → β

/-- `get_sector_size`; `check_blkdev` refuses the devices of major number 0. -/
def getSectorSize (dev : ℕ) (s : State β) : Option ℕ :=
  if major dev = 0 ∨ maxBlkdev ≤ major dev then none else s.info dev

/-- The bytes of a sector change. -/
def put (disk : ℕ → ℕ → β) (dev sector : ℕ) (data : β) : ℕ → ℕ → β :=
  update disk dev (update (disk dev) sector data)

def setPc (t : ℕ) (pc : Pc) (s : State β) : State β := { s with pc := update s.pc t pc }

def setHead (i : ℕ) (b : BufferHead β) (s : State β) : State β :=
  { s with all := update s.all i b }

/-- `find_buffer`, without the reservation. -/
def findBuffer (dev sector : ℕ) (s : State β) : Option ℕ :=
  (List.range nrBh).find? fun i => (s.all i).dev = dev && (s.all i).sector = sector

/-- Does somebody use the buffer? -/
def busy (s : State β) (i : ℕ) : Bool := (s.all i).count ≠ 0

/-- The end of the critical section of `get_buffer`. -/
def take (t i : ℕ) (b : BufferHead β) (dev sector : ℕ) (s : State β) : State β :=
  setPc t (.use .locking dev sector i) { setHead i b s with lru := toTail i s.lru }

/-- The critical section of `get_buffer`. -/
def getBuffer (t dev sector : ℕ) (s : State β) : State β :=
  match findBuffer dev sector s with
  | some i => take t i { s.all i with count := (s.all i).count + 1 } dev sector s
  | none =>
      match s.lru.head? with
      | none => s
      | some i =>
          if (s.all i).count ≠ 0 then setPc t (.asleep dev sector) s
          else take t i { s.all i with
            count := (s.all i).count + 1, dev := dev, sector := sector, dirty := false,
            upToDate := false } dev sector s

def intoLruList (i : ℕ) (s : State β) : State β := { s with lru := toPrefix (busy s) i s.lru }

/-- The first critical section of `brelse`. -/
def brelse (t dev sector i : ℕ) (s : State β) : State β :=
  let count := (s.all i).count - 1
  if count = 0 then setPc t (.use .syncing dev sector i) (setHead i { s.all i with count := 1 } s)
  else setPc t (.use .upping dev sector i) (setHead i { s.all i with count := count } s)

/-- `--bh->b_count`. -/
def unref (i : ℕ) (s : State β) : State β :=
  setHead i { s.all i with count := (s.all i).count - 1 } s

/-- The second critical section of `brelse`. -/
def drop (t dev sector i : ℕ) (s : State β) : State β :=
  setPc t (.use .upping dev sector i)
    (if (s.all i).count - 1 = 0 then intoLruList i (unref i s) else unref i s)

/-- `bsync` up to its access to the device. -/
def bsync (t dev sector i : ℕ) (release : Bool) (s : State β) : State β :=
  if (s.all i).upToDate && (s.all i).dirty then
    setPc t (.use (.flushing release) dev sector i) (setHead i { s.all i with dirty := false } s)
  else setPc t (.use (if release then .dropping else .holding) dev sector i) s

inductive Label (β : Type*)
  | bread (t dev sector : ℕ)
  | getBuffer (t : ℕ)
  /-- `sleep_on` returns. -/
  | retry (t : ℕ)
  | down (t : ℕ)
  | check (t : ℕ)
  | blkdevRead (t : ℕ)
  | setUp2date (t : ℕ)
  | modify (t : ℕ) (data : β)
  | setDirty (t : ℕ)
  | bsync (t : ℕ)
  | blkdevWrite (t : ℕ)
  | brelse (t : ℕ)
  | brelseSync (t : ℕ)
  | drop (t : ℕ)
  | up (t : ℕ)
  deriving DecidableEq

def exec (s : State β) : Label β → Option (State β)
  | .bread t dev sector =>
      if s.pc t = .idle then
        some (if getSectorSize dev s = some 512 then setPc t (.trying dev sector) s else s)
      else none
  | .getBuffer t =>
      match s.pc t with
      | .trying dev sector => some (getBuffer t dev sector s)
      | _ => none
  | .retry t =>
      match s.pc t with
      | .asleep dev sector => some (setPc t (.trying dev sector) s)
      | _ => none
  | .down t =>
      match s.pc t with
      | .use .locking dev sector i =>
          if s.sem i = none then
            some (setPc t (.use .got dev sector i)
              { s with sem := update s.sem i (some t) })
          else none
      | _ => none
  | .check t =>
      match s.pc t with
      | .use .got dev sector i =>
          some (setPc t (.use (if (s.all i).upToDate then .holding else .reading) dev sector i) s)
      | _ => none
  | .blkdevRead t =>
      match s.pc t with
      | .use .reading dev sector i =>
          some (setPc t (.use .readDone dev sector i)
            (setHead i { s.all i with data := s.disk (s.all i).dev (s.all i).sector } s))
      | _ => none
  | .setUp2date t =>
      match s.pc t with
      | .use .readDone dev sector i =>
          some (setPc t (.use .holding dev sector i)
            (setHead i { s.all i with upToDate := true, dirty := false } s))
      | _ => none
  | .modify t data =>
      match s.pc t with
      | .use .holding dev sector i =>
          some (setPc t (.use .modified dev sector i)
            { setHead i { s.all i with data := data } s with
              latest := put s.latest dev sector data })
      | _ => none
  | .setDirty t =>
      match s.pc t with
      | .use .modified dev sector i =>
          some (setPc t (.use .holding dev sector i) (setHead i { s.all i with dirty := true } s))
      | _ => none
  | .bsync t =>
      match s.pc t with
      | .use .holding dev sector i => some (bsync t dev sector i false s)
      | _ => none
  | .blkdevWrite t =>
      match s.pc t with
      | .use (.flushing release) dev sector i =>
          some (setPc t (.use (if release then .dropping else .holding) dev sector i)
            { s with disk := put s.disk (s.all i).dev (s.all i).sector (s.all i).data })
      | _ => none
  | .brelse t =>
      match s.pc t with
      | .use .holding dev sector i => some (brelse t dev sector i s)
      | _ => none
  | .brelseSync t =>
      match s.pc t with
      | .use .syncing dev sector i => some (bsync t dev sector i true s)
      | _ => none
  | .drop t =>
      match s.pc t with
      | .use .dropping dev sector i => some (drop t dev sector i s)
      | _ => none
  | .up t =>
      match s.pc t with
      | .use .upping _ _ i =>
          some (setPc t .idle { s with sem := update s.sem i none })
      | _ => none

def Step (s : State β) (a : Label β) (s' : State β) : Prop := exec s a = some s'

/-- After `buffer_init`. -/
structure Initial (s : State β) : Prop where
  dev : ∀ i, (s.all i).dev = 0
  count : ∀ i, (s.all i).count = 0
  dirty : ∀ i, (s.all i).dirty = false
  upToDate : ∀ i, (s.all i).upToDate = false
  lru : s.lru = List.range nrBh
  sem : ∀ i, s.sem i = none
  pc : ∀ t, s.pc t = .idle
  latest : s.latest = s.disk

/-- The buffer is the one of a sector. -/
def Describes (s : State β) (i dev sector : ℕ) : Prop :=
  i < nrBh ∧ dev ≠ 0 ∧ (s.all i).dev = dev ∧ (s.all i).sector = sector

/-- The buffer is being written back. -/
def Flushing (s : State β) (i : ℕ) : Prop :=
  ∃ t dev sector release, s.pc t = .use (.flushing release) dev sector i

/-- The cache behaves like the disk with all changes in it. -/
structure Refines (s : State β) : Prop where
  one : ∀ i j dev sector, Describes s i dev sector → Describes s j dev sector → i = j
  bread : ∀ t dev sector i, s.pc t = .use .holding dev sector i →
    Describes s i dev sector ∧ (s.all i).data = s.latest dev sector
  clean : ∀ i, i < nrBh → (s.all i).count = 0 → (s.all i).dirty = false
  lru : s.lru.Pairwise fun i j => 0 < (s.all i).count → 0 < (s.all j).count
  kept : ∀ a s' i, Step s a s' → 0 < (s.all i).count ∨ Flushing s i →
    (s'.all i).dev = (s.all i).dev ∧ (s'.all i).sector = (s.all i).sector

/-! ## The invariant -/

/-- The buffer that a task has a reference to. -/
def refOf : Pc → Option ℕ
  | .use .upping _ _ _ => none
  | .use _ _ _ i => some i
  | _ => none

/-- The buffer whose semaphore a task holds. -/
def ownOf : Pc → Option ℕ
  | .use .locking _ _ _ => none
  | .use _ _ _ i => some i
  | _ => none

/-- The data of the buffer are on their way to the disk. -/
def pending : Place → Bool
  | .modified | .flushing _ => true
  | _ => false

/-- What is known of a buffer at a place, given the bytes of its sector. -/
def PlaceOk (b : BufferHead β) (latest : β) : Place → Prop
  | .locking | .got | .upping => True
  | .reading => b.upToDate = false
  | .readDone => b.upToDate = false ∧ b.data = latest
  | .holding | .modified | .syncing => b.upToDate = true
  | .flushing _ | .dropping => b.upToDate = true ∧ b.dirty = false

/-- The references, the order of the buffers, and what the buffers and the disk have. -/
structure Inv (s : State β) : Prop where
  perm : s.lru.Perm (List.range nrBh)
  free : FreePrefix (busy s) s.lru
  refs : Holders (fun t => refOf (s.pc t)) (fun i => (s.all i).count)
  sem : ∀ i t, s.sem i = some t ↔ ownOf (s.pc t) = some i
  named : ∀ t p dev sector i, s.pc t = .use p dev sector i → p ≠ .upping → Describes s i dev sector
  tried : ∀ t dev sector, s.pc t = .trying dev sector ∨ s.pc t = .asleep dev sector → dev ≠ 0
  one : ∀ i j dev sector, Describes s i dev sector → Describes s j dev sector → i = j
  place : ∀ t p dev sector i, s.pc t = .use p dev sector i →
    PlaceOk (s.all i) (s.latest dev sector) p
  clean : ∀ i, (s.all i).dirty = true → (s.all i).upToDate = true ∧ (s.all i).count ≠ 0
  data : ∀ i dev sector, Describes s i dev sector → (s.all i).upToDate = true →
    (s.all i).data = s.latest dev sector
  disk : ∀ dev sector, dev ≠ 0 → s.disk dev sector = s.latest dev sector ∨
    ∃ i, Describes s i dev sector ∧ ((s.all i).dirty = true ∨
      ∃ t p, s.pc t = .use p dev sector i ∧ pending p = true)

variable {s s' : State β} {t u i j dev sector : ℕ} {p q : Place} {b : BufferHead β}

theorem refOf_use (hp : p ≠ .upping) : refOf (.use p dev sector i) = some i := by
  cases p with
  | upping => exact absurd rfl hp
  | _ => rfl

theorem ownOf_use (hp : p ≠ .locking) : ownOf (.use p dev sector i) = some i := by
  cases p with
  | locking => exact absurd rfl hp
  | _ => rfl

theorem PlaceOk.congr {b' : BufferHead β} {latest : β} (h : PlaceOk b latest p)
    (hdirty : b'.dirty = b.dirty) (hup : b'.upToDate = b.upToDate) (hdata : b'.data = b.data) :
    PlaceOk b' latest p := by
  cases p
  all_goals
    simp only [PlaceOk, hdirty, hup, hdata] at h ⊢
    try exact h

theorem put_self (disk : ℕ → ℕ → β) (data : β) : put disk dev sector data dev sector = data := by
  rw [put, update_self, update_self]

theorem put_other (disk : ℕ → ℕ → β) (data : β) {dev' sector' : ℕ} (h : ¬ (dev' = dev ∧ sector' = sector)) :
    put disk dev sector data dev' sector' = disk dev' sector' := by
  rw [put, update_apply]
  split_ifs with hdev
  · rw [update_of_ne, hdev]
    exact fun hsector => h ⟨hdev, hsector⟩
  · rfl

/-- A task that holds the semaphore of a buffer is the only one past `down`. -/
theorem Inv.locking_of_ne (h : Inv s) (ht : s.pc t = .use p dev sector i) (hp : p ≠ .locking)
    {dev' sector' : ℕ} (hu : s.pc u = .use q dev' sector' i) (hut : u ≠ t) : q = .locking := by
  by_contra hq
  have htown := (h.sem i t).mpr (by rw [ht]; exact ownOf_use hp)
  have huown := (h.sem i u).mpr (by rw [hu]; exact ownOf_use hq)
  exact hut (Option.some.inj (huown.symm.trans htown))

/-- A task that holds the semaphore of its buffer works on it: the buffer keeps its sector and its
count, and only the bytes of this sector change. -/
theorem Inv.work (h : Inv s) (ht : s.pc t = .use p dev sector i) (hp : p ≠ .locking ∧ p ≠ .upping)
    (hq : q ≠ .locking ∧ q ≠ .upping) {disk latest : ℕ → ℕ → β}
    (hsame : b.dev = (s.all i).dev ∧ b.sector = (s.all i).sector ∧ b.count = (s.all i).count)
    (hplace : PlaceOk b (latest dev sector) q) (hdirty : b.dirty = true → b.upToDate = true)
    (hdata : b.upToDate = true → b.data = latest dev sector)
    (hothers : ∀ dev' sector', ¬ (dev' = dev ∧ sector' = sector) →
      disk dev' sector' = s.disk dev' sector' ∧ latest dev' sector' = s.latest dev' sector')
    (hdisk : disk dev sector = latest dev sector ∨ b.dirty = true ∨ pending q = true) :
    Inv (setPc t (.use q dev sector i)
      { setHead i b s with disk := disk, latest := latest }) := by
  have hnamed := h.named t p dev sector i ht hp.2
  have hpc : ∀ u, (setPc t (.use q dev sector i)
      { setHead i b s with disk := disk, latest := latest }).pc u =
      if u = t then .use q dev sector i else s.pc u := fun u => update_apply ..
  have hall : ∀ j, (setPc t (.use q dev sector i)
      { setHead i b s with disk := disk, latest := latest }).all j =
      if j = i then b else s.all j := fun j => update_apply ..
  have hcount : ∀ j, ((setPc t (.use q dev sector i)
      { setHead i b s with disk := disk, latest := latest }).all j).count = (s.all j).count := by
    intro j
    rw [hall]
    split_ifs with hj
    · rw [hj]
      exact hsame.2.2
    · rfl
  have hdescribes : ∀ j dev' sector', Describes (setPc t (.use q dev sector i)
      { setHead i b s with disk := disk, latest := latest }) j dev' sector' ↔
      Describes s j dev' sector' := by
    intro j dev' sector'
    unfold Describes
    rw [hall]
    split_ifs with hj
    · rw [hj, hsame.1, hsame.2.1]
    · rfl
  have hkey : ∀ j dev' sector', Describes s j dev' sector' → j ≠ i →
      ¬ (dev' = dev ∧ sector' = sector) := by
    rintro j dev' sector' hj hne ⟨rfl, rfl⟩
    exact hne (h.one j i dev' sector' hj hnamed)
  constructor
  · exact h.perm
  · refine h.free.congr fun j _ => ?_
    unfold busy
    rw [hcount]
  · refine h.refs.congr (fun u => ?_) hcount
    rw [hpc]
    split_ifs with hu
    · rw [hu, ht, refOf_use hp.2, refOf_use hq.2]
    · rfl
  · intro j u
    change s.sem j = some u ↔ _
    rw [h.sem, hpc]
    split_ifs with hu
    · rw [hu, ht, ownOf_use hp.1, ownOf_use hq.1]
    · rfl
  · intro u r dev' sector' j hu hr
    rw [hpc] at hu
    rw [hdescribes]
    split_ifs at hu with hut
    · cases hu
      exact hnamed
    · exact h.named u r dev' sector' j hu hr
  · intro u dev' sector' hu
    rw [hpc] at hu
    split_ifs at hu
    · simp at hu
    · exact h.tried u dev' sector' hu
  · intro j k dev' sector' hj hk
    rw [hdescribes] at hj hk
    exact h.one j k dev' sector' hj hk
  · intro u r dev' sector' j hu
    rw [hpc] at hu
    rw [hall]
    split_ifs at hu with hut
    · cases hu
      rw [if_pos rfl]
      exact hplace
    · split_ifs with hj
      · rw [hj] at hu
        rw [h.locking_of_ne ht hp.1 hu hut]
        trivial
      · by_cases hr : r = .upping
        · rw [hr]
          trivial
        · change PlaceOk (s.all j) (latest dev' sector') r
          rw [(hothers dev' sector' (hkey j dev' sector' (h.named u r dev' sector' j hu hr) hj)).2]
          exact h.place u r dev' sector' j hu
  · intro j hj
    rw [hcount]
    rw [hall] at hj ⊢
    split_ifs at hj ⊢ with hji
    · refine ⟨hdirty hj, ?_⟩
      have hpos := h.refs.pos (i := t) (k := i) (by rw [ht]; exact refOf_use hp.2)
      rw [hji]
      omega
    · exact h.clean j hj
  · intro j dev' sector' hj hup
    rw [hdescribes] at hj
    rw [hall] at hup ⊢
    change _ = latest dev' sector'
    split_ifs at hup ⊢ with hji
    · rw [hji] at hj
      obtain ⟨rfl, rfl⟩ : dev' = dev ∧ sector' = sector :=
        ⟨hj.2.2.1.symm.trans hnamed.2.2.1, hj.2.2.2.symm.trans hnamed.2.2.2⟩
      exact hdata hup
    · rw [(hothers dev' sector' (hkey j dev' sector' hj hji)).2]
      exact h.data j dev' sector' hj hup
  · intro dev' sector' hdev
    change disk dev' sector' = latest dev' sector' ∨ _
    by_cases hcase : dev' = dev ∧ sector' = sector
    · obtain ⟨rfl, rfl⟩ := hcase
      refine hdisk.imp_right fun hpending => ⟨i, (hdescribes i dev' sector').mpr hnamed, ?_⟩
      rw [hall, if_pos rfl]
      refine hpending.imp_right fun hq' => ⟨t, q, ?_, hq'⟩
      rw [hpc, if_pos rfl]
    · rw [(hothers dev' sector' hcase).1, (hothers dev' sector' hcase).2]
      refine (h.disk dev' sector' hdev).imp_right ?_
      rintro ⟨j, hj, hcause⟩
      have hji : j ≠ i := by
        rintro rfl
        exact hcase ⟨hj.2.2.1.symm.trans hnamed.2.2.1, hj.2.2.2.symm.trans hnamed.2.2.2⟩
      refine ⟨j, (hdescribes j dev' sector').mpr hj, ?_⟩
      rw [hall, if_neg hji]
      refine hcause.imp_right ?_
      rintro ⟨u, r, hu, hr⟩
      refine ⟨u, r, ?_, hr⟩
      rw [hpc, if_neg]
      · exact hu
      · rintro rfl
        rw [ht] at hu
        cases hu
        exact hji rfl

theorem Inv.rest {pc : Pc} (h : Inv s) (ht : refOf (s.pc t) = none ∧ ownOf (s.pc t) = none)
    (hpc : ∀ p dev sector i, pc ≠ .use p dev sector i)
    (hdev : ∀ dev sector, pc = .trying dev sector ∨ pc = .asleep dev sector → dev ≠ 0) : Inv (setPc t pc s) := by
  have hpcs : ∀ u, (setPc t pc s).pc u = if u = t then pc else s.pc u :=
    fun u => update_apply ..
  have hnone : refOf pc = none ∧ ownOf pc = none := by
    cases pc with
    | use p dev sector i => exact absurd rfl (hpc p dev sector i)
    | _ => exact ⟨rfl, rfl⟩
  have huse : ∀ u q dev' sector' j, (setPc t pc s).pc u = .use q dev' sector' j →
      s.pc u = .use q dev' sector' j := by
    intro u q dev' sector' j hu
    rw [hpcs] at hu
    split_ifs at hu
    · exact absurd hu (hpc q dev' sector' j)
    · exact hu
  refine { h with refs := ?_, sem := ?_, named := ?_, tried := ?_, place := ?_, disk := ?_ }
  · refine h.refs.congr (fun u => ?_) fun _ => rfl
    rw [hpcs]
    split_ifs with hu
    · rw [hu, ht.1, hnone.1]
    · rfl
  · intro j u
    change s.sem j = some u ↔ _
    rw [h.sem, hpcs]
    split_ifs with hu
    · rw [hu, ht.2, hnone.2]
    · rfl
  · exact fun u q dev' sector' j hu => h.named u q dev' sector' j (huse u q dev' sector' j hu)
  · intro u dev' sector' hu
    rw [hpcs] at hu
    split_ifs at hu
    · exact hdev dev' sector' hu
    · exact h.tried u dev' sector' hu
  · exact fun u q dev' sector' j hu => h.place u q dev' sector' j (huse u q dev' sector' j hu)
  · intro dev' sector' hd
    refine (h.disk dev' sector' hd).imp_right ?_
    rintro ⟨j, hj, hcause⟩
    refine ⟨j, hj, hcause.imp_right ?_⟩
    rintro ⟨u, q, hu, hq⟩
    refine ⟨u, q, ?_, hq⟩
    rw [hpcs, if_neg]
    · exact hu
    · rintro rfl
      rw [hu] at ht
      cases q with
      | upping => cases hq
      | _ => exact absurd ht.1 (by simp [refOf])

theorem Inv.mem_lru (h : Inv s) : i ∈ s.lru ↔ i < nrBh := by
  rw [h.perm.mem_iff, List.mem_range]

theorem Inv.lru_nodup (h : Inv s) : s.lru.Nodup := h.perm.nodup_iff.mpr List.nodup_range

/-- A task takes a buffer in `get_buffer`: the buffer has its sector already, or nobody uses it
and it is made the buffer of the sector. -/
theorem Inv.take (h : Inv s) (ht : s.pc t = .trying dev sector) (hi : i < nrBh)
    (hb : b.dev = dev ∧ b.sector = sector ∧ b.count = (s.all i).count + 1)
    (hone : ∀ j, Describes s j dev sector → j = i)
    (hcase : Describes s i dev sector ∧ b.dirty = (s.all i).dirty ∧
        b.upToDate = (s.all i).upToDate ∧ b.data = (s.all i).data ∨
      (s.all i).count = 0 ∧ b.dirty = false ∧ b.upToDate = false) : Inv (take t i b dev sector s) := by
  have hdev : dev ≠ 0 := h.tried t dev sector (Or.inl ht)
  have hpc : ∀ u, (Buffer.take t i b dev sector s).pc u =
      if u = t then .use .locking dev sector i else s.pc u := fun u => update_apply ..
  have hall : ∀ j, (Buffer.take t i b dev sector s).all j = if j = i then b else s.all j :=
    fun j => update_apply ..
  have hself : Describes (Buffer.take t i b dev sector s) i dev sector := by
    refine ⟨hi, hdev, ?_⟩
    rw [hall, if_pos rfl]
    exact ⟨hb.1, hb.2.1⟩
  have hother : ∀ j dev' sector', j ≠ i →
      (Describes (Buffer.take t i b dev sector s) j dev' sector' ↔ Describes s j dev' sector') := by
    intro j dev' sector' hj
    unfold Describes
    rw [hall, if_neg hj]
  -- the users of the buffer have the sector, or they are through with it
  have husers : ∀ u q dev' sector', s.pc u = .use q dev' sector' i → q ≠ .upping →
      dev' = dev ∧ sector' = sector ∧ Describes s i dev sector ∧ b.dirty = (s.all i).dirty ∧
        b.upToDate = (s.all i).upToDate ∧ b.data = (s.all i).data := by
    intro u q dev' sector' hu hq
    have hnamed := h.named u q dev' sector' i hu hq
    rcases hcase with ⟨hdescribes, hrest⟩ | ⟨hzero, -⟩
    · exact ⟨hnamed.2.2.1.symm.trans hdescribes.2.2.1, hnamed.2.2.2.symm.trans hdescribes.2.2.2, hdescribes, hrest⟩
    · have hpos := h.refs.pos (i := u) (k := i) (by rw [hu]; exact refOf_use hq)
      omega
  have hunique : ∀ j dev' sector', Describes (Buffer.take t i b dev sector s) j dev' sector' →
      dev' = dev ∧ sector' = sector → j = i := by
    rintro j dev' sector' hj ⟨rfl, rfl⟩
    by_contra hji
    exact hji (hone j ((hother j dev' sector' hji).mp hj))
  have hsector : ∀ dev' sector', Describes (Buffer.take t i b dev sector s) i dev' sector' →
      dev' = dev ∧ sector' = sector := fun dev' sector' hj =>
    ⟨hj.2.2.1.symm.trans hself.2.2.1, hj.2.2.2.symm.trans hself.2.2.2⟩
  constructor
  · exact (toTail_perm (h.mem_lru.mpr hi)).trans h.perm
  · refine h.free.toTail h.lru_nodup ?_ fun j hj => ?_
    · unfold busy
      rw [hall, if_pos rfl, hb.2.2]
      simp
    · unfold busy
      rw [hall, if_neg hj]
  · refine h.refs.take (i := t) (k := i) (by rw [ht]; rfl) ?_ (fun u hu => ?_) ?_ fun j hj => ?_
    · rw [hpc, if_pos rfl]
      rfl
    · rw [hpc, if_neg hu]
    · rw [hall, if_pos rfl]
      exact hb.2.2
    · rw [hall, if_neg hj]
  · intro j u
    change s.sem j = some u ↔ _
    rw [h.sem, hpc]
    split_ifs with hu
    · rw [hu, ht]
      rfl
    · rfl
  · intro u q dev' sector' j hu hq
    rw [hpc] at hu
    split_ifs at hu with hut
    · cases hu
      exact hself
    · by_cases hj : j = i
      · subst hj
        obtain ⟨rfl, rfl, -⟩ := husers u q dev' sector' hu hq
        exact hself
      · exact (hother j dev' sector' hj).mpr (h.named u q dev' sector' j hu hq)
  · intro u dev' sector' hu
    rw [hpc] at hu
    split_ifs at hu
    · simp at hu
    · exact h.tried u dev' sector' hu
  · intro j k dev' sector' hj hk
    by_cases hji : j = i
    · rw [hji] at hj ⊢
      exact (hunique k dev' sector' hk (hsector dev' sector' hj)).symm
    · by_cases hki : k = i
      · rw [hki] at hk ⊢
        exact hunique j dev' sector' hj (hsector dev' sector' hk)
      · exact h.one j k dev' sector' ((hother j dev' sector' hji).mp hj) ((hother k dev' sector' hki).mp hk)
  · intro u q dev' sector' j hu
    rw [hpc] at hu
    split_ifs at hu with hut
    · cases hu
      trivial
    · have hold := h.place u q dev' sector' j hu
      change PlaceOk _ (s.latest dev' sector') q
      rw [hall]
      split_ifs with hj
      · subst hj
        by_cases hq : q = .upping
        · rw [hq]
          trivial
        · obtain ⟨-, -, -, hdirty, hup, hdata⟩ := husers u q dev' sector' hu hq
          exact hold.congr hdirty hup hdata
      · exact hold
  · intro j hj
    rw [hall] at hj ⊢
    split_ifs at hj ⊢ with hji
    · refine ⟨?_, by rw [hb.2.2]; omega⟩
      rcases hcase with ⟨-, hdirty, hup, -⟩ | ⟨-, hdirty, -⟩
      · rw [hup]
        exact (h.clean i (hdirty ▸ hj)).1
      · rw [hdirty] at hj
        cases hj
    · exact h.clean j hj
  · intro j dev' sector' hj hup
    change _ = s.latest dev' sector'
    by_cases hji : j = i
    · rw [hji] at hj hup ⊢
      obtain ⟨rfl, rfl⟩ := hsector dev' sector' hj
      rw [hall, if_pos rfl] at hup ⊢
      rcases hcase with ⟨hdescribes, -, hup', hdata⟩ | ⟨-, -, hup'⟩
      · rw [hdata]
        exact h.data i dev' sector' hdescribes (hup' ▸ hup)
      · rw [hup'] at hup
        cases hup
    · rw [hall, if_neg hji] at hup ⊢
      exact h.data j dev' sector' ((hother j dev' sector' hji).mp hj) hup
  · intro dev' sector' hd
    change s.disk dev' sector' = s.latest dev' sector' ∨ _
    refine (h.disk dev' sector' hd).imp_right ?_
    rintro ⟨j, hj, hcause⟩
    have hpcs : ∀ u q, s.pc u = .use q dev' sector' j →
        (Buffer.take t i b dev sector s).pc u = .use q dev' sector' j := by
      intro u q hu
      rw [hpc, if_neg]
      · exact hu
      · rintro rfl
        rw [ht] at hu
        cases hu
    by_cases hji : j = i
    · subst hji
      have hkeep : Describes s j dev sector ∧ b.dirty = (s.all j).dirty := by
        rcases hcase with ⟨hdescribes, hdirty, -⟩ | ⟨hzero, -⟩
        · exact ⟨hdescribes, hdirty⟩
        · rcases hcause with hdirty | ⟨u, q, hu, hq⟩
          · exact absurd hzero (h.clean j hdirty).2
          · have husing := husers u q dev' sector' hu (by rintro rfl; cases hq)
            exact ⟨husing.2.2.1, husing.2.2.2.1⟩
      obtain ⟨rfl, rfl⟩ : dev' = dev ∧ sector' = sector :=
        ⟨hj.2.2.1.symm.trans hkeep.1.2.2.1, hj.2.2.2.symm.trans hkeep.1.2.2.2⟩
      refine ⟨j, hself, ?_⟩
      rw [hall, if_pos rfl, hkeep.2]
      exact hcause.imp_right fun ⟨u, q, hu, hq⟩ => ⟨u, q, hpcs u q hu, hq⟩
    · refine ⟨j, (hother j dev' sector' hji).mpr hj, ?_⟩
      rw [hall, if_neg hji]
      exact hcause.imp_right fun ⟨u, q, hu, hq⟩ => ⟨u, q, hpcs u q hu, hq⟩

theorem drop_eq : drop t dev sector i s = setPc t (.use .upping dev sector i)
      { unref i s with
        lru := if (s.all i).count - 1 = 0 then toPrefix (busy (unref i s)) i s.lru else s.lru } := by
  unfold drop
  split_ifs
  · rfl
  · rfl

/-- A task gives up its reference; nobody else uses the buffer when it was the last one. -/
theorem Inv.drop (h : Inv s) (ht : s.pc t = .use p dev sector i) (hp : p ≠ .locking ∧ p ≠ .upping)
    (hpending : pending p = false)
    (hdirty : (s.all i).count - 1 = 0 → (s.all i).dirty = false) : Inv (drop t dev sector i s) := by
  have hnamed := h.named t p dev sector i ht hp.2
  have hpc : ∀ u, (Buffer.drop t dev sector i s).pc u =
      if u = t then .use .upping dev sector i else s.pc u := by
    intro u
    rw [drop_eq]
    exact update_apply ..
  have hall : ∀ j, (Buffer.drop t dev sector i s).all j =
      if j = i then { s.all i with count := (s.all i).count - 1 } else s.all j := by
    intro j
    rw [drop_eq]
    exact update_apply ..
  have hrest : (Buffer.drop t dev sector i s).sem = s.sem ∧
      (Buffer.drop t dev sector i s).disk = s.disk ∧
      (Buffer.drop t dev sector i s).latest = s.latest := by
    rw [drop_eq]
    exact ⟨rfl, rfl, rfl⟩
  have hdescribes : ∀ j dev' sector',
      Describes (Buffer.drop t dev sector i s) j dev' sector' ↔ Describes s j dev' sector' := by
    intro j dev' sector'
    unfold Describes
    rw [hall]
    split_ifs with hj
    · rw [hj]
    · rfl
  have hbusy : ∀ j, j ≠ i → busy (Buffer.drop t dev sector i s) j = busy s j := by
    intro j hj
    unfold busy
    rw [hall, if_neg hj]
  constructor
  · rw [drop_eq]
    change (if _ then _ else _ : List ℕ).Perm _
    split_ifs
    · exact (toPrefix_perm (h.mem_lru.mpr hnamed.1)).trans h.perm
    · exact h.perm
  · by_cases hzero : (s.all i).count - 1 = 0
    · have hlru : (Buffer.drop t dev sector i s).lru =
          toPrefix (busy (Buffer.drop t dev sector i s)) i s.lru := by
        unfold Buffer.drop
        rw [if_pos hzero]
        rfl
      rw [hlru]
      refine h.free.toPrefix h.lru_nodup ?_ hbusy
      unfold busy
      rw [hall, if_pos rfl, hzero]
      rfl
    · have hlru : (Buffer.drop t dev sector i s).lru = s.lru := by
        unfold Buffer.drop
        rw [if_neg hzero]
        rfl
      rw [hlru]
      refine h.free.congr fun j _ => ?_
      by_cases hj : j = i
      · unfold busy
        rw [hall, if_pos hj, hj]
        simp only [ne_eq, decide_not]
        congr 1
        simp only [decide_eq_decide]
        omega
      · exact hbusy j hj
  · refine h.refs.drop (i := t) (k := i) (by rw [ht]; exact refOf_use hp.2) ?_ (fun u hu => ?_) ?_ fun j hj => ?_
    · rw [hpc, if_pos rfl]
      rfl
    · rw [hpc, if_neg hu]
    · rw [hall, if_pos rfl]
    · rw [hall, if_neg hj]
  · intro j u
    rw [hrest.1, h.sem, hpc]
    split_ifs with hu
    · rw [hu, ht, ownOf_use hp.1]
      rfl
    · rfl
  · intro u q dev' sector' j hu hq
    rw [hdescribes]
    rw [hpc] at hu
    split_ifs at hu
    · cases hu
      exact absurd rfl hq
    · exact h.named u q dev' sector' j hu hq
  · intro u dev' sector' hu
    rw [hpc] at hu
    split_ifs at hu
    · simp at hu
    · exact h.tried u dev' sector' hu
  · intro j k dev' sector' hj hk
    rw [hdescribes] at hj hk
    exact h.one j k dev' sector' hj hk
  · intro u q dev' sector' j hu
    rw [hpc] at hu
    rw [hrest.2.2]
    split_ifs at hu
    · cases hu
      trivial
    · refine (h.place u q dev' sector' j hu).congr ?_ ?_ ?_
      all_goals
        rw [hall]
        split_ifs with hj
        · rw [hj]
        · rfl
  · intro j hj
    rw [hall] at hj ⊢
    split_ifs at hj ⊢ with hji
    · refine ⟨(h.clean i hj).1, fun hzero => ?_⟩
      change (s.all i).dirty = true at hj
      rw [hdirty hzero] at hj
      cases hj
    · exact h.clean j hj
  · intro j dev' sector' hj hup
    rw [hdescribes] at hj
    rw [hrest.2.2]
    rw [hall] at hup ⊢
    split_ifs at hup ⊢ with hji
    · rw [hji] at hj
      exact h.data i dev' sector' hj hup
    · exact h.data j dev' sector' hj hup
  · intro dev' sector' hd
    rw [hrest.2.1, hrest.2.2]
    refine (h.disk dev' sector' hd).imp_right ?_
    rintro ⟨j, hj, hcause⟩
    refine ⟨j, (hdescribes j dev' sector').mpr hj, ?_⟩
    rcases hcause with hcause | ⟨u, q, hu, hq⟩
    · refine Or.inl ?_
      rw [hall]
      split_ifs with hji
      · rw [hji] at hcause
        exact hcause
      · exact hcause
    · refine Or.inr ⟨u, q, ?_, hq⟩
      rw [hpc, if_neg]
      · exact hu
      · rintro rfl
        rw [ht] at hu
        cases hu
        rw [hpending] at hq
        cases hq

/-- A task gets the semaphore of its buffer, or gives it back at the end. -/
theorem Inv.semaphore {pc : Pc} {o : Option ℕ} (h : Inv s) (ht : s.pc t = .use p dev sector i)
    (hpc : p = .locking ∧ s.sem i = none ∧ pc = .use .got dev sector i ∧ o = some t ∨
      p = .upping ∧ pc = .idle ∧ o = none) : Inv (setPc t pc { s with sem := update s.sem i o }) := by
  have hpcs : ∀ u, (setPc t pc { s with sem := update s.sem i o }).pc u =
      if u = t then pc else s.pc u := fun u => update_apply ..
  refine { h with refs := ?_, sem := ?_, named := ?_, tried := ?_, place := ?_, disk := ?_ }
  · refine h.refs.congr (fun u => ?_) fun _ => rfl
    rw [hpcs]
    split_ifs with hu
    · obtain ⟨rfl, -, rfl, -⟩ | ⟨rfl, rfl, -⟩ := hpc
      · rw [hu, ht]
        rfl
      · rw [hu, ht]
        rfl
    · rfl
  · intro j u
    change update s.sem i o j = some u ↔ _
    have hold := h.sem j u
    rw [hpcs, update_apply]
    obtain ⟨rfl, hfree, rfl, rfl⟩ | ⟨rfl, rfl, rfl⟩ := hpc
    · split_ifs with hj hu hu
      · simp [hu, hj, ownOf]
      · rw [← hold, hj, hfree]
        simp [Ne.symm hu]
      · rw [hold, hu, ht]
        simp [ownOf, Ne.symm hj]
      · exact hold
    · split_ifs with hj hu hu
      · simp [ownOf]
      · rw [← hold, hj, (h.sem i t).mpr (by rw [ht]; rfl)]
        simp [Ne.symm hu]
      · rw [hold, hu, ht]
        simp [ownOf, Ne.symm hj]
      · exact hold
  · intro u q dev' sector' j hu hq
    rw [hpcs] at hu
    split_ifs at hu with hut
    · obtain ⟨rfl, -, rfl, -⟩ | ⟨rfl, rfl, -⟩ := hpc
      · cases hu
        exact h.named t .locking dev sector i ht (by simp)
      · cases hu
    · exact h.named u q dev' sector' j hu hq
  · intro u dev' sector' hu
    rw [hpcs] at hu
    split_ifs at hu with hut
    · obtain ⟨rfl, -, rfl, -⟩ | ⟨rfl, rfl, -⟩ := hpc
      · simp at hu
      · simp at hu
    · exact h.tried u dev' sector' hu
  · intro u q dev' sector' j hu
    rw [hpcs] at hu
    split_ifs at hu with hut
    · obtain ⟨rfl, -, rfl, -⟩ | ⟨rfl, rfl, -⟩ := hpc
      · cases hu
        trivial
      · cases hu
    · exact h.place u q dev' sector' j hu
  · intro dev' sector' hd
    refine (h.disk dev' sector' hd).imp_right ?_
    rintro ⟨j, hj, hcause⟩
    refine ⟨j, hj, hcause.imp_right ?_⟩
    rintro ⟨u, q, hu, hq⟩
    refine ⟨u, q, ?_, hq⟩
    rw [hpcs, if_neg]
    · exact hu
    · rintro rfl
      rw [ht] at hu
      cases hu
      obtain ⟨rfl, -⟩ | ⟨rfl, -⟩ := hpc
      · cases hq
      · cases hq

/-- The disk has the bytes of the sector, or the buffer is dirty. -/
theorem Inv.settled (h : Inv s) (ht : s.pc t = .use p dev sector i)
    (hp : p ≠ .locking ∧ p ≠ .upping) (hpending : pending p = false) :
    s.disk dev sector = s.latest dev sector ∨ (s.all i).dirty = true := by
  have hnamed := h.named t p dev sector i ht hp.2
  refine (h.disk dev sector hnamed.2.1).imp_right ?_
  rintro ⟨j, hj, hcause⟩
  obtain rfl := h.one j i dev sector hj hnamed
  rcases hcause with hdirty | ⟨u, q, hu, hq⟩
  · exact hdirty
  · by_cases hut : u = t
    · rw [hut, ht] at hu
      cases hu
      rw [hpending] at hq
      cases hq
    · rw [h.locking_of_ne ht hp.1 hu hut] at hq
      cases hq

theorem findBuffer_some (hfind : findBuffer dev sector s = some i) :
    i < nrBh ∧ (s.all i).dev = dev ∧ (s.all i).sector = sector := by
  have hmem := List.mem_of_find?_eq_some hfind
  have htrue := List.find?_some hfind
  simp only [Bool.and_eq_true, decide_eq_true_eq] at htrue
  exact ⟨List.mem_range.mp hmem, htrue⟩

theorem findBuffer_none (hfind : findBuffer dev sector s = none) : ¬ Describes s j dev sector := by
  rintro ⟨hj, -, hdev, hsector⟩
  have hfalse := List.find?_eq_none.mp hfind j (List.mem_range.mpr hj)
  simp [hdev, hsector] at hfalse

theorem Inv.getBuffer (h : Inv s) (ht : s.pc t = .trying dev sector) : Inv (getBuffer t dev sector s) := by
  unfold Buffer.getBuffer
  split
  · rename_i i hfind
    obtain ⟨hi, hdev, hsector⟩ := findBuffer_some hfind
    have hself : Describes s i dev sector := ⟨hi, h.tried t dev sector (Or.inl ht), hdev, hsector⟩
    exact h.take ht hi ⟨hdev, hsector, rfl⟩ (fun j hj => h.one j i dev sector hj hself) (Or.inl ⟨hself, rfl, rfl, rfl⟩)
  · rename_i hfind
    split
    · exact h
    · rename_i i hhead
      have hi : i < nrBh := h.mem_lru.mp (List.mem_of_head? hhead)
      split_ifs with hbusy
      · refine h.rest (by simp [ht, refOf, ownOf]) (by simp) ?_
        intro dev' sector' hpc
        simp only [reduceCtorEq, Pc.asleep.injEq, false_or] at hpc
        rw [← hpc.1]
        exact h.tried t dev sector (Or.inl ht)
      · have hzero : (s.all i).count = 0 := by simpa using hbusy
        exact h.take ht hi ⟨rfl, rfl, rfl⟩ (fun j hj => absurd hj (findBuffer_none hfind)) (Or.inr ⟨hzero, rfl, rfl⟩)

theorem Inv.bsync {release : Bool} (h : Inv s) (ht : s.pc t = .use p dev sector i)
    (hp : p = .holding ∧ release = false ∨ p = .syncing ∧ release = true) : Inv (bsync t dev sector i release s) := by
  have hplaces : (p ≠ .locking ∧ p ≠ .upping) ∧ pending p = false := by
    obtain ⟨rfl, -⟩ | ⟨rfl, -⟩ := hp
    · simp [pending]
    · simp [pending]
  have hup : (s.all i).upToDate = true := by
    have hplace := h.place t p dev sector i ht
    obtain ⟨rfl, -⟩ | ⟨rfl, -⟩ := hp
    · exact hplace
    · exact hplace
  have hnamed := h.named t p dev sector i ht hplaces.1.2
  have hdata := h.data i dev sector hnamed hup
  unfold Buffer.bsync
  by_cases hdirty : ((s.all i).upToDate && (s.all i).dirty) = true
  · rw [if_pos hdirty]
    exact h.work ht hplaces.1 (by simp) ⟨rfl, rfl, rfl⟩ ⟨hup, rfl⟩ (by simp) (fun _ => hdata)
      (fun _ _ _ => ⟨rfl, rfl⟩) (Or.inr (Or.inr rfl))
  · have hclean : (s.all i).dirty = false := by simpa [hup] using hdirty
    have hdisk := (h.settled ht hplaces.1 hplaces.2).resolve_right (by simp [hclean])
    have hsame : setHead i (s.all i) s = s := by
      unfold setHead
      rw [update_eq_self]
    have hwork : Inv (setPc t (.use (if release then .dropping else .holding) dev sector i)
        (setHead i (s.all i) s)) :=
      h.work ht hplaces.1 (by split_ifs <;> simp) ⟨rfl, rfl, rfl⟩
        (by split_ifs <;> simp [PlaceOk, hup, hclean]) (fun hd => (h.clean i hd).1) (fun _ => hdata)
        (fun _ _ _ => ⟨rfl, rfl⟩) (Or.inl hdisk)
    rw [hsame] at hwork
    rw [if_neg hdirty]
    exact hwork

theorem Inv.brelse (h : Inv s) (ht : s.pc t = .use .holding dev sector i) : Inv (brelse t dev sector i s) := by
  have hup : (s.all i).upToDate = true := h.place t .holding dev sector i ht
  have hnamed := h.named t .holding dev sector i ht (by simp)
  have hpos := h.refs.pos (i := t) (k := i) (by rw [ht]; rfl)
  by_cases hzero : (s.all i).count - 1 = 0
  · have hone : 1 = (s.all i).count := by omega
    unfold Buffer.brelse
    rw [if_pos hzero]
    refine h.work ht (by simp) (by simp) ⟨rfl, rfl, hone⟩ hup (fun hd => (h.clean i hd).1)
      (fun _ => h.data i dev sector hnamed hup) (fun _ _ _ => ⟨rfl, rfl⟩) ?_
    exact (h.settled ht (by simp) rfl).imp_right Or.inl
  · have hdrop : Buffer.brelse t dev sector i s = Buffer.drop t dev sector i s := by
      unfold Buffer.brelse Buffer.drop
      rw [if_neg hzero, if_neg hzero]
      rfl
    rw [hdrop]
    exact h.drop ht (by simp) rfl fun hcount => absurd hcount hzero

theorem Inv.step {a : Label β} (h : Inv s) (hstep : Step s a s') : Inv s' := by
  cases a with
  | bread t dev sector =>
    dsimp only [Step, exec] at hstep
    by_cases hpc : s.pc t = .idle
    · rw [if_pos hpc] at hstep
      cases hstep
      split_ifs with hsize
      · refine h.rest (by simp [hpc, refOf, ownOf]) (by simp) ?_
        rintro dev' sector' (heq | heq)
        · cases heq
          rintro rfl
          simp [getSectorSize, major] at hsize
        · cases heq
      · exact h
    · rw [if_neg hpc] at hstep
      cases hstep
  | getBuffer t =>
    dsimp only [Step, exec] at hstep
    split at hstep
    · rename_i hpc
      cases hstep
      exact h.getBuffer hpc
    · cases hstep
  | retry t =>
    dsimp only [Step, exec] at hstep
    split at hstep
    · rename_i dev sector hpc
      cases hstep
      refine h.rest (by simp [hpc, refOf, ownOf]) (by simp) ?_
      rintro dev' sector' (heq | heq)
      · cases heq
        exact h.tried t dev sector (Or.inr hpc)
      · cases heq
    · cases hstep
  | down t =>
    dsimp only [Step, exec] at hstep
    split at hstep
    · rename_i hpc
      split_ifs at hstep with hsem
      cases hstep
      exact h.semaphore hpc (Or.inl ⟨rfl, hsem, rfl, rfl⟩)
    · cases hstep
  | check t =>
    dsimp only [Step, exec] at hstep
    split at hstep
    · rename_i dev sector i hpc
      cases hstep
      have hnamed := h.named t .got dev sector i hpc (by simp)
      have hsame : setHead i (s.all i) s = s := by
        unfold setHead
        rw [update_eq_self]
      have hwork : Inv (setPc t
          (.use (if (s.all i).upToDate then .holding else .reading) dev sector i)
          (setHead i (s.all i) s)) :=
        h.work hpc (by simp) (by split_ifs <;> simp) ⟨rfl, rfl, rfl⟩
          (by split_ifs with hup <;> simp [PlaceOk, hup])
          (fun hd => (h.clean i hd).1) (h.data i dev sector hnamed) (fun _ _ _ => ⟨rfl, rfl⟩)
          ((h.settled hpc (by simp) rfl).imp_right Or.inl)
      rw [hsame] at hwork
      exact hwork
    · cases hstep
  | blkdevRead t =>
    dsimp only [Step, exec] at hstep
    split at hstep
    · rename_i dev sector i hpc
      cases hstep
      have hnamed := h.named t .reading dev sector i hpc (by simp)
      have hup : (s.all i).upToDate = false := h.place t .reading dev sector i hpc
      have hclean : (s.all i).dirty ≠ true := by
        intro hd
        rw [(h.clean i hd).1] at hup
        cases hup
      have hdisk := (h.settled hpc (by simp) rfl).resolve_right hclean
      refine h.work hpc (by simp) (by simp) ⟨rfl, rfl, rfl⟩ ⟨hup, ?_⟩ (fun hd => absurd hd hclean)
        (fun hup' => ?_) (fun _ _ _ => ⟨rfl, rfl⟩) (Or.inl hdisk)
      · change s.disk (s.all i).dev (s.all i).sector = s.latest dev sector
        rw [hnamed.2.2.1, hnamed.2.2.2]
        exact hdisk
      · change (s.all i).upToDate = true at hup'
        rw [hup] at hup'
        cases hup'
    · cases hstep
  | setUp2date t =>
    dsimp only [Step, exec] at hstep
    split at hstep
    · rename_i dev sector i hpc
      cases hstep
      have hplace := h.place t .readDone dev sector i hpc
      have hclean : (s.all i).dirty ≠ true := by
        intro hd
        have hup := hplace.1
        rw [(h.clean i hd).1] at hup
        cases hup
      exact h.work hpc (by simp) (by simp) ⟨rfl, rfl, rfl⟩ rfl (by simp) (fun _ => hplace.2)
        (fun _ _ _ => ⟨rfl, rfl⟩)
        (Or.inl ((h.settled hpc (by simp) rfl).resolve_right hclean))
    · cases hstep
  | modify t data =>
    dsimp only [Step, exec] at hstep
    split at hstep
    · rename_i dev sector i hpc
      cases hstep
      have hup : (s.all i).upToDate = true := h.place t .holding dev sector i hpc
      exact h.work hpc (by simp) (by simp) ⟨rfl, rfl, rfl⟩ hup (fun hd => (h.clean i hd).1)
        (fun _ => (put_self ..).symm) (fun _ _ hne => ⟨rfl, put_other _ _ hne⟩)
        (Or.inr (Or.inr rfl))
    · cases hstep
  | setDirty t =>
    dsimp only [Step, exec] at hstep
    split at hstep
    · rename_i dev sector i hpc
      cases hstep
      have hup : (s.all i).upToDate = true := h.place t .modified dev sector i hpc
      have hnamed := h.named t .modified dev sector i hpc (by simp)
      exact h.work hpc (by simp) (by simp) ⟨rfl, rfl, rfl⟩ hup (fun _ => hup)
        (h.data i dev sector hnamed) (fun _ _ _ => ⟨rfl, rfl⟩) (Or.inr (Or.inl rfl))
    · cases hstep
  | bsync t =>
    dsimp only [Step, exec] at hstep
    split at hstep
    · rename_i hpc
      cases hstep
      exact h.bsync hpc (Or.inl ⟨rfl, rfl⟩)
    · cases hstep
  | blkdevWrite t =>
    dsimp only [Step, exec] at hstep
    split at hstep
    · rename_i release dev sector i hpc
      cases hstep
      have hplace := h.place t (.flushing release) dev sector i hpc
      have hnamed := h.named t (.flushing release) dev sector i hpc (by simp)
      have hdata := h.data i dev sector hnamed hplace.1
      have hsame : setHead i (s.all i) s = s := by
        unfold setHead
        rw [update_eq_self]
      have hwork : Inv (setPc t (.use (if release then .dropping else .holding) dev sector i)
          { setHead i (s.all i) s with disk := put s.disk dev sector (s.all i).data }) :=
        h.work hpc (by simp) (by split_ifs <;> simp) ⟨rfl, rfl, rfl⟩
          (by split_ifs <;> simp [PlaceOk, hplace.1, hplace.2]) (fun hd => (h.clean i hd).1)
          (h.data i dev sector hnamed) (fun _ _ hne => ⟨put_other _ _ hne, rfl⟩)
          (Or.inl ((put_self ..).trans hdata))
      rw [hsame] at hwork
      rw [hnamed.2.2.1, hnamed.2.2.2]
      exact hwork
    · cases hstep
  | brelse t =>
    dsimp only [Step, exec] at hstep
    split at hstep
    · rename_i hpc
      cases hstep
      exact h.brelse hpc
    · cases hstep
  | brelseSync t =>
    dsimp only [Step, exec] at hstep
    split at hstep
    · rename_i hpc
      cases hstep
      exact h.bsync hpc (Or.inr ⟨rfl, rfl⟩)
    · cases hstep
  | drop t =>
    dsimp only [Step, exec] at hstep
    split at hstep
    · rename_i dev sector i hpc
      cases hstep
      exact h.drop hpc (by simp) rfl fun _ => (h.place t .dropping dev sector i hpc).2
    · cases hstep
  | up t =>
    dsimp only [Step, exec] at hstep
    split at hstep
    · rename_i hpc
      cases hstep
      exact h.semaphore hpc (Or.inr ⟨rfl, rfl, rfl⟩)
    · cases hstep

theorem Initial.inv (h : Initial s) : Inv s := by
  constructor
  · rw [h.lru]
  · refine List.pairwise_of_forall ?_
    intro i j hbusy
    simp [busy, h.count] at hbusy
  · exact holders_none (fun t => by rw [h.pc]; rfl) h.count
  · intro i t
    rw [h.sem, h.pc]
    simp [ownOf]
  · intro t p dev sector i ht
    rw [h.pc] at ht
    cases ht
  · intro t dev sector ht
    rw [h.pc] at ht
    simp at ht
  · rintro i j dev sector ⟨-, hdev, heq, -⟩
    rw [h.dev] at heq
    exact absurd heq.symm hdev
  · intro t p dev sector i ht
    rw [h.pc] at ht
    cases ht
  · intro i hi
    rw [h.dirty] at hi
    cases hi
  · intro i dev sector _ hup
    rw [h.upToDate] at hup
    cases hup
  · intro dev sector _
    rw [h.latest]
    exact Or.inl rfl

/-! ## Refinement -/

/-- The buffer stays the one of its sector. -/
def KeepsKey (b b' : BufferHead β) : Prop := b'.dev = b.dev ∧ b'.sector = b.sector

theorem keepsKey_update (hall : s'.all = update s.all i b) (hb : KeepsKey (s.all i) b)
    (j : ℕ) : KeepsKey (s.all j) (s'.all j) := by
  rw [hall, update_apply]
  split_ifs with hj
  · rw [hj]
    exact hb
  · exact ⟨rfl, rfl⟩

theorem getBuffer_keepsKey (hj : 0 < (s.all j).count) : KeepsKey (s.all j) ((getBuffer t dev sector s).all j) := by
  unfold getBuffer
  split
  · exact keepsKey_update rfl (by exact ⟨rfl, rfl⟩) j
  · split
    · exact ⟨rfl, rfl⟩
    · rename_i i _
      split_ifs with hbusy
      · exact ⟨rfl, rfl⟩
      · have hne : j ≠ i := by
          rintro rfl
          omega
        change KeepsKey (s.all j) (update s.all i _ j)
        rw [update_of_ne hne]
        exact ⟨rfl, rfl⟩

theorem brelse_keepsKey (j : ℕ) : KeepsKey (s.all j) ((brelse t dev sector i s).all j) := by
  dsimp only [brelse]
  split_ifs
  · exact keepsKey_update rfl (by exact ⟨rfl, rfl⟩) j
  · exact keepsKey_update rfl (by exact ⟨rfl, rfl⟩) j

theorem bsync_keepsKey {release : Bool} (j : ℕ) : KeepsKey (s.all j) ((bsync t dev sector i release s).all j) := by
  unfold bsync
  split_ifs
  · exact keepsKey_update rfl (by exact ⟨rfl, rfl⟩) j
  · exact ⟨rfl, rfl⟩
  · exact ⟨rfl, rfl⟩

theorem drop_keepsKey (j : ℕ) : KeepsKey (s.all j) ((drop t dev sector i s).all j) := by
  unfold drop
  split_ifs
  · exact keepsKey_update rfl (by exact ⟨rfl, rfl⟩) j
  · exact keepsKey_update rfl (by exact ⟨rfl, rfl⟩) j

theorem Step.keepsKey {a : Label β} (hstep : Step s a s') (hj : 0 < (s.all j).count) :
    KeepsKey (s.all j) (s'.all j) := by
  cases a with
  | bread t dev sector =>
    dsimp only [Step, exec] at hstep
    split_ifs at hstep
    · cases hstep
      exact ⟨rfl, rfl⟩
    · cases hstep
      exact ⟨rfl, rfl⟩
  | getBuffer t =>
    dsimp only [Step, exec] at hstep
    split at hstep
    · cases hstep
      exact getBuffer_keepsKey hj
    · cases hstep
  | bsync t | brelseSync t =>
    dsimp only [Step, exec] at hstep
    split at hstep
    · cases hstep
      exact bsync_keepsKey j
    · cases hstep
  | brelse t =>
    dsimp only [Step, exec] at hstep
    split at hstep
    · cases hstep
      exact brelse_keepsKey j
    · cases hstep
  | drop t =>
    dsimp only [Step, exec] at hstep
    split at hstep
    · cases hstep
      exact drop_keepsKey j
    · cases hstep
  | blkdevRead t | setUp2date t | modify t data | setDirty t =>
    dsimp only [Step, exec] at hstep
    split at hstep
    · cases hstep
      exact keepsKey_update rfl (by exact ⟨rfl, rfl⟩) j
    · cases hstep
  | down t =>
    dsimp only [Step, exec] at hstep
    split at hstep
    · split_ifs at hstep
      cases hstep
      exact ⟨rfl, rfl⟩
    · cases hstep
  | retry t | check t | blkdevWrite t | up t =>
    dsimp only [Step, exec] at hstep
    split at hstep
    · cases hstep
      exact ⟨rfl, rfl⟩
    · cases hstep

theorem Inv.refines (h : Inv s) : Refines s := by
  constructor
  · exact h.one
  · intro t dev sector i ht
    have hnamed := h.named t .holding dev sector i ht (by simp)
    exact ⟨hnamed, h.data i dev sector hnamed (h.place t .holding dev sector i ht)⟩
  · intro i _ hcount
    by_contra hdirty
    exact (h.clean i (by simpa using hdirty)).2 hcount
  · refine h.free.imp ?_
    intro i j hij hi
    have hj := hij (by simp [busy, Nat.ne_of_gt hi])
    simp only [busy, ne_eq, decide_not, Bool.not_eq_true', decide_eq_false_iff_not] at hj
    omega
  · rintro a s' i hstep (hcount | ⟨t, dev, sector, release, ht⟩)
    · exact hstep.keepsKey hcount
    · exact hstep.keepsKey (h.refs.pos (i := t) (by rw [ht]; rfl))

/-- The buffer cache refines the disk. -/
theorem buffer_refines_disk (s₀ : State β) (hinit : Initial s₀) (labs : List (Label β))
    (s : State β) (hrun : Run Step s₀ labs s) : Refines s :=
  (hrun.invariant (P := Inv) hinit.inv fun hu hstep => hu.step hstep).refines

/-- One disk with sectors of 512 bytes. -/
def boot : State ℕ :=
  { all := fun _ => ⟨0, 0, 0, false, false, 0⟩
    lru := List.range nrBh
    sem := fun _ => none
    disk := fun _ _ => 7
    info := fun _ => some 512
    pc := fun _ => .idle
    latest := fun _ _ => 7 }

theorem boot_initial : Initial boot := by
  constructor <;> intros <;> rfl

/-- Task 1 changes a sector and flushes it as the last user, and task 2 reads it meanwhile. -/
def flushed : List (Label ℕ) :=
  [.bread 1 256 5, .getBuffer 1, .down 1, .check 1, .blkdevRead 1, .setUp2date 1, .modify 1 8,
    .setDirty 1, .brelse 1, .brelseSync 1, .bread 2 256 5, .getBuffer 2, .blkdevWrite 1, .drop 1,
    .up 1, .down 2, .check 2]

theorem flushed_replays : (replay (fun _ _ => True) exec boot flushed).isSome := by
  decide +kernel

/-- The state in which task 2 has the sector. -/
def afterFlush : State ℕ := (replay (fun _ _ => True) exec boot flushed).get flushed_replays

theorem flushed_run : Run Step boot flushed afterFlush :=
  (run_of_replay (Option.some_get flushed_replays).symm).mono fun _ _ _ hstep => hstep.2

theorem buffer_refines_disk_flushed :
    Initial boot ∧ Run Step boot flushed afterFlush ∧ afterFlush.pc 2 = .use .holding 256 5 0 ∧
      (afterFlush.all 0).data = 8 ∧ Refines afterFlush :=
  ⟨boot_initial, flushed_run, by decide +kernel, by decide +kernel,
    buffer_refines_disk boot boot_initial flushed afterFlush flushed_run⟩

/-! ## What the disk has -/

/-- What the disk lacks is in a buffer that somebody uses, and it is there when `bsync` returns. -/
structure Durable (s : State β) : Prop where
  used : ∀ dev sector, dev ≠ 0 → s.disk dev sector ≠ s.latest dev sector →
    ∃ t p i, s.pc t = .use p dev sector i ∧ p ≠ .upping
  synced : ∀ t s' p dev sector i, Step s (.bsync t) s' ∨ Step s (.brelseSync t) s' ∨ Step s (.blkdevWrite t) s' →
    s'.pc t = .use p dev sector i → pending p = false → s'.disk dev sector = s'.latest dev sector

theorem refOf_eq_some {pc : Pc} (h : refOf pc = some i) : ∃ p dev sector, pc = .use p dev sector i ∧ p ≠ .upping := by
  unfold refOf at h
  split at h <;> simp_all

theorem Inv.durable (h : Inv s) : Durable s := by
  constructor
  · intro dev sector hdev hdisk
    obtain ⟨i, hi, hdirty | ⟨t, p, ht, hp⟩⟩ := (h.disk dev sector hdev).resolve_left hdisk
    · obtain ⟨t, ht⟩ := h.refs.exists_of_pos (k := i) (h.clean i hdirty).2
      obtain ⟨p, dev', sector', hpc, hp⟩ := refOf_eq_some ht
      obtain ⟨-, -, rfl, rfl⟩ := h.named t p dev' sector' i hpc hp
      obtain ⟨-, -, rfl, rfl⟩ := hi
      exact ⟨t, p, i, hpc, hp⟩
    · exact ⟨t, p, i, ht, by rintro rfl; cases hp⟩
  · intro t s' p dev sector i hstep hpc hp
    have hclean : p ≠ .locking ∧ p ≠ .upping ∧ (s'.all i).dirty = false := by
      rcases hstep with hs | hs | hs
      all_goals
        dsimp only [Step, exec] at hs
        split at hs <;> cases hs
        have hplace := h.place _ _ _ _ _ ‹_›
        simp only [Buffer.bsync, Buffer.setPc] at hpc ⊢
        split_ifs at hpc ⊢ <;> simp_all [PlaceOk] <;> grind [pending]
    have h' : Inv s' := by rcases hstep with hs | hs | hs <;> exact h.step hs
    simpa [hclean.2.2] using h'.settled hpc ⟨hclean.1, hclean.2.1⟩ hp

/-- What the disk lacks is in use in every state of every run, and `bsync` leaves the latest bytes there. -/
theorem buffer_durable (s₀ : State β) (hinit : Initial s₀) (labs : List (Label β)) (s : State β)
    (hrun : Run Step s₀ labs s) : Durable s :=
  (hrun.invariant (P := Inv) hinit.inv fun hu hstep => hu.step hstep).durable

theorem buffer_durable_flushed : afterFlush.disk 256 5 = 8 ∧ Durable afterFlush :=
  ⟨by decide +kernel, buffer_durable boot boot_initial flushed afterFlush flushed_run⟩

end Mario.Fs.Buffer
