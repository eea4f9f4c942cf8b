import Mario.Lib.FreePrefix
import Mario.Lib.HashChains
import Mario.Lib.Runs

/-!
# The inode cache

A step is a critical section of `inode_lock`, or what a task does to an inode that it has. An inode
is named by its index in `all`. When an operation sleeps, the cache stays as it is, and the task
makes the step again later. When `__iget` crosses a mount, an `iref` and an `iput` follow. What
`read_inode` fills in is of any type `φ`.
-/

namespace Mario.Fs.InodeCache

open Mario.Lib Function

variable {φ : Type*}

def nrInode : ℕ := 2048

def hashInode (key : UInt16 × UInt32) : ℕ := ((key.1.toUInt32 * 31 + key.2) &&& 255).toNat

/-- `struct inode`; a superblock is named by its slot. `i_count` is a natural number here: fewer than 2^32 references. -/
structure Inode (φ : Type*) where
  dev : UInt16
  ino : UInt32
  sb : Option ℕ
  mount : Option ℕ
  count : ℕ
  dirty : Bool
  upToDate : Bool
  pipe : Bool
  hashed : Bool
  socket : Bool
  contents : Option φ

/-- An inode after `memset`. -/
def blank : Inode φ :=
  { dev := 0, ino := 0, sb := none, mount := none, count := 0, dirty := false, upToDate := false
    pipe := false, hashed := false, socket := false, contents := none }

/-- The inodes, `lru` and `inode_hash`. -/
structure Cache (φ : Type*) where
  all : ℕ → Inode φ
  lru : List ℕ
  hash : ℕ → List ℕ

/-- An inode changes. -/
def set (i : ℕ) (x : Inode φ) (c : Cache φ) : Cache φ := { c with all := update c.all i x }

def findInode (dev : UInt16) (ino : UInt32) (c : Cache φ) : Option ℕ :=
  (c.hash (hashInode (dev, ino))).find? fun i => (c.all i).dev = dev && (c.all i).ino = ino

/-- Does somebody use the inode? -/
def busy (c : Cache φ) (i : ℕ) : Bool := (c.all i).count ≠ 0

/-- `clear_inode`; `list_del` takes the inode off its chain, whichever it is. -/
def clearInode (i : ℕ) (c : Cache φ) : Cache φ :=
  set i blank (if (c.all i).hashed then { c with hash := fun h => (c.hash h).erase i } else c)

/-- The inode goes to the end of `lru`. -/
def touch (i : ℕ) (c : Cache φ) : Cache φ := { c with lru := toTail i c.lru }

/-- The inode that is used anew, and nothing when the task has to sleep. -/
def victim (c : Cache φ) : Option ℕ :=
  match c.lru.head? with
  | none => none
  | some i => if (c.all i).count ≠ 0 then none else some i

def getEmptyInode (c : Cache φ) : Option (ℕ × Cache φ) :=
  (victim c).map fun i =>
    let c := clearInode i c
    (i, touch i (set i { c.all i with count := 1 } c))

def getPipeInode (c : Cache φ) : Option (ℕ × Cache φ) :=
  (getEmptyInode c).map fun r => (r.1, set r.1 { r.2.all r.1 with pipe := true } r.2)

def getSocketInode (c : Cache φ) : Option (ℕ × Cache φ) :=
  (getEmptyInode c).map fun r => (r.1, set r.1 { r.2.all r.1 with socket := true } r.2)

/-- The inode gets a key and goes on its chain. -/
def hashNew (i sb : ℕ) (dev : UInt16) (ino : UInt32) (c : Cache φ) : Cache φ :=
  set i { c.all i with sb := some sb, dev := dev, ino := ino, mount := none, hashed := true }
    { c with
      hash := update c.hash (hashInode (dev, ino)) (i :: c.hash (hashInode (dev, ino))) }

def iref (i : ℕ) (c : Cache φ) : Cache φ :=
  set i { c.all i with count := (c.all i).count + 1 } c

/-- The critical section of `__iget`. -/
def iget (sb : ℕ) (dev : UInt16) (ino : UInt32) (c : Cache φ) : Option (ℕ × Cache φ) :=
  match findInode dev ino c with
  | some i => some (i, touch i (iref i c))
  | none => (victim c).map fun i => (i, touch i (iref i (hashNew i sb dev ino (clearInode i c))))

def writeInode (x : Inode φ) : Inode φ :=
  if x.upToDate && x.dirty then { x with dirty := false } else x

/-- `read_inode`, where the filesystem gives what is read. -/
def readInode (read : Option φ) (x : Inode φ) : Inode φ :=
  if x.upToDate then x else { x with contents := read, upToDate := true, dirty := false }

/-- The rest of `__iget`, under `i_sem`. -/
def refresh (i : ℕ) (read : Option φ) (c : Cache φ) : Cache φ :=
  set i (readInode read (writeInode (c.all i))) c

/-- What `iput` does to an inode that nobody uses any more. -/
def retire (x : Inode φ) : Inode φ :=
  if x.pipe then { writeInode x with pipe := false, upToDate := false } else writeInode x

def intoLruList (i : ℕ) (c : Cache φ) : Cache φ := { c with lru := toPrefix (busy c) i c.lru }

def iput (i : ℕ) (c : Cache φ) : Cache φ :=
  if (c.all i).count - 1 = 0 then
    intoLruList i (set i (retire { c.all i with count := (c.all i).count - 1 }) c)
  else set i { c.all i with count := (c.all i).count - 1 } c

def inodeInvalidate (dev : UInt16) (ino : UInt32) (c : Cache φ) : Cache φ :=
  match findInode dev ino c with
  | some i => set i { c.all i with upToDate := false, dirty := false } c
  | none => c

/-- The operations. -/
inductive Label (φ : Type*)
  | iget (sb : ℕ) (dev : UInt16) (ino : UInt32)
  | refresh (i : ℕ) (read : Option φ)
  /-- A task changes an inode that it has. -/
  | setDirty (i : ℕ)
  | getEmptyInode
  | getPipeInode
  | getSocketInode
  | iref (i : ℕ)
  | iput (i : ℕ)
  | inodeInvalidate (dev : UInt16) (ino : UInt32)
  deriving DecidableEq

/-- What an operation that may sleep leaves. -/
def orSleep (r : Option (ℕ × Cache φ)) (c : Cache φ) : Cache φ :=
  match r with
  | some r => r.2
  | none => c

/-- The next state. A task that calls `iref` or `iput` has a reference; `iput` asserts it. -/
def exec (c : Cache φ) : Label φ → Option (Cache φ)
  | .iget sb dev ino => some (orSleep (iget sb dev ino c) c)
  | .refresh i read => if 0 < (c.all i).count then some (refresh i read c) else none
  | .setDirty i =>
      if 0 < (c.all i).count then some (set i { c.all i with dirty := true } c) else none
  | .getEmptyInode => some (orSleep (getEmptyInode c) c)
  | .getPipeInode => some (orSleep (getPipeInode c) c)
  | .getSocketInode => some (orSleep (getSocketInode c) c)
  | .iref i => if 0 < (c.all i).count then some (iref i c) else none
  | .iput i => if 0 < (c.all i).count then some (iput i c) else none
  | .inodeInvalidate dev ino => some (inodeInvalidate dev ino c)

def Step (c : Cache φ) (a : Label φ) (c' : Cache φ) : Prop := exec c a = some c'

/-- After `inode_init`. -/
structure Initial (c : Cache φ) : Prop where
  all : ∀ i, c.all i = blank
  lru : c.lru = List.range nrInode
  hash : ∀ h, c.hash h = []

/-- The inode is still the same one. -/
def SameInode (x y : Inode φ) : Prop :=
  y.dev = x.dev ∧ y.ino = x.ino ∧ y.sb = x.sb ∧ y.mount = x.mount ∧ y.hashed = x.hashed ∧
    y.socket = x.socket

/-- The cache has its inodes in order. -/
structure Sound (c : Cache φ) : Prop where
  one : ∀ i j, i < nrInode → j < nrInode → (c.all i).hashed = true → (c.all j).hashed = true →
    (c.all i).dev = (c.all j).dev → (c.all i).ino = (c.all j).ino → i = j
  chain : ∀ i, i < nrInode → (c.all i).hashed = true → ∀ h, i ∈ c.hash h ↔
    h = hashInode ((c.all i).dev, (c.all i).ino)
  lru : c.lru.Pairwise fun i j => 0 < (c.all i).count → 0 < (c.all j).count
  sleep : ∀ sb dev ino, iget sb dev ino c = none ∨ getEmptyInode c = none →
    ∀ i, i < nrInode → 0 < (c.all i).count
  kept : ∀ a c' i, Step c a c' → 0 < (c.all i).count → SameInode (c.all i) (c'.all i)

/-! ## The invariant -/

/-- The key of a hashed inode. -/
def keyOf (x : Inode φ) : Option (UInt16 × UInt32) :=
  if x.hashed then some (x.dev, x.ino) else none

/-- The order of the inodes, and the chains. -/
structure Inv (c : Cache φ) : Prop where
  perm : c.lru.Perm (List.range nrInode)
  free : FreePrefix (busy c) c.lru
  inside : ∀ i, nrInode ≤ i → (c.all i).count = 0 ∧ (c.all i).hashed = false
  chained : Chained hashInode (fun i => keyOf (c.all i)) c.hash

variable {c c' : Cache φ} {i j sb : ℕ} {dev : UInt16} {ino : UInt32} {x : Inode φ}

theorem set_all (i : ℕ) (x : Inode φ) (c : Cache φ) (j : ℕ) :
    (set i x c).all j = if j = i then x else c.all j := update_apply ..

theorem keyOf_set (hkey : keyOf x = keyOf (c.all i)) (j : ℕ) : keyOf ((set i x c).all j) = keyOf (c.all j) := by
  rw [set_all]
  split_ifs with hj
  · rw [hj, hkey]
  · rfl

theorem keyOf_eq_some {k : UInt16 × UInt32} : keyOf x = some k ↔ x.hashed = true ∧ (x.dev, x.ino) = k := by
  unfold keyOf
  split_ifs with hx
  · simp [hx]
  · simp [hx]

theorem Inv.mem_lru (h : Inv c) : i ∈ c.lru ↔ i < nrInode := by
  rw [h.perm.mem_iff, List.mem_range]

theorem Inv.lru_nodup (h : Inv c) : c.lru.Nodup := h.perm.nodup_iff.mpr List.nodup_range

theorem Inv.lt_of_count (h : Inv c) (hi : (c.all i).count ≠ 0) : i < nrInode := by
  by_contra hle
  exact hi (h.inside i (by omega)).1

theorem Inv.lt_of_hashed (h : Inv c) (hi : (c.all i).hashed = true) : i < nrInode := by
  by_contra hle
  rw [(h.inside i (by omega)).2] at hi
  cases hi

theorem Inv.findInode_some (h : Inv c) (hfind : findInode dev ino c = some i) : keyOf (c.all i) = some (dev, ino) := by
  refine h.chained.find_some ?_ hfind
  intro j k hk hj
  rw [keyOf_eq_some] at hk
  simp only [Bool.and_eq_true, decide_eq_true_eq] at hj
  rw [← hk.2, hj.1, hj.2]

theorem Inv.findInode_none (h : Inv c) (hfind : findInode dev ino c = none) (j : ℕ) :
    keyOf (c.all j) ≠ some (dev, ino) := by
  refine h.chained.find_none ?_ hfind j
  intro j hj
  rw [keyOf_eq_some, Prod.mk.injEq] at hj
  simp [hj.2.1, hj.2.2]

/-- An inode changes, but not its key, and it stays used or unused. -/
theorem Inv.set_same (h : Inv c) (hkey : keyOf x = keyOf (c.all i))
    (hcount : x.count = 0 ↔ (c.all i).count = 0) : Inv (set i x c) := by
  have hcounts : ∀ j, ((set i x c).all j).count = 0 ↔ (c.all j).count = 0 := by
    intro j
    rw [set_all]
    split_ifs with hj
    · rw [hj, hcount]
    · rfl
  refine ⟨h.perm, ?_, ?_, h.chained.congr (keyOf_set hkey)⟩
  · refine h.free.congr fun j _ => ?_
    simp only [busy, ne_eq, hcounts]
  · intro j hj
    refine ⟨(hcounts j).mpr (h.inside j hj).1, ?_⟩
    have hnone : keyOf ((set i x c).all j) = none := by
      rw [keyOf_set hkey, keyOf, if_neg]
      simp [(h.inside j hj).2]
    by_contra hhashed
    rw [Bool.not_eq_false] at hhashed
    rw [keyOf, if_pos hhashed] at hnone
    cases hnone

theorem Inv.touch (h : Inv c) (hi : i < nrInode) (hkey : keyOf x = keyOf (c.all i))
    (hcount : x.count ≠ 0) : Inv (touch i (set i x c)) := by
  refine ⟨(toTail_perm (h.mem_lru.mpr hi)).trans h.perm, ?_, ?_, h.chained.congr (keyOf_set hkey)⟩
  · refine h.free.toTail h.lru_nodup ?_ ?_
    · change decide (((set i x c).all i).count ≠ 0) = true
      rw [set_all, if_pos rfl]
      exact decide_eq_true hcount
    · intro j hj
      change decide (((set i x c).all j).count ≠ 0) = _
      rw [set_all, if_neg hj]
      rfl
  · intro j hj
    change ((set i x c).all j).count = 0 ∧ ((set i x c).all j).hashed = false
    rw [set_all, if_neg (by omega)]
    exact h.inside j hj

theorem clearInode_all (i : ℕ) (c : Cache φ) (j : ℕ) : (clearInode i c).all j = if j = i then blank else c.all j := by
  unfold clearInode
  rw [set_all]
  split_ifs <;> rfl

theorem Inv.clearInode (h : Inv c) (hcount : (c.all i).count = 0) : Inv (clearInode i c) := by
  have hall := clearInode_all i c
  have hlru : (InodeCache.clearInode i c).lru = c.lru := by
    unfold InodeCache.clearInode
    split_ifs <;> rfl
  have hhash : ∀ m, (InodeCache.clearInode i c).hash m = (c.hash m).erase i := by
    intro m
    unfold InodeCache.clearInode
    split_ifs with hhashed
    · rfl
    · refine (List.erase_of_not_mem fun hmem => ?_).symm
      obtain ⟨k, hk, -⟩ := (h.chained.mem i m).mp hmem
      exact hhashed (keyOf_eq_some.mp hk).1
  constructor
  · rw [hlru]
    exact h.perm
  · rw [hlru]
    refine h.free.congr fun j _ => ?_
    unfold busy
    rw [hall]
    split_ifs with hj
    · rw [hj, hcount]
      rfl
    · rfl
  · intro j hj
    rw [hall]
    split_ifs
    · exact ⟨rfl, rfl⟩
    · exact h.inside j hj
  · refine h.chained.erase (a := i) ?_ ?_ hhash
    · rw [hall, if_pos rfl]
      rfl
    · intro j hj
      rw [hall, if_neg hj]

theorem Inv.hashNew (h : Inv c) (hi : i < nrInode) (hfree : (c.all i).hashed = false)
    (hnew : ∀ j, keyOf (c.all j) ≠ some (dev, ino)) : Inv (hashNew i sb dev ino c) := by
  have hall : ∀ j, j ≠ i → (InodeCache.hashNew i sb dev ino c).all j = c.all j :=
    fun j hj => update_of_ne hj ..
  have hself : (InodeCache.hashNew i sb dev ino c).all i =
      { c.all i with sb := some sb, dev := dev, ino := ino, mount := none, hashed := true } :=
    update_self ..
  refine ⟨h.perm, ?_, ?_, ?_⟩
  · refine h.free.congr fun j _ => ?_
    unfold busy
    by_cases hj : j = i
    · rw [hj, hself]
    · rw [hall j hj]
  · intro j hj
    rw [hall j (by omega)]
    exact h.inside j hj
  · refine h.chained.insert (a := i) (k := (dev, ino)) ?_ hnew ?_ ?_ rfl
    · simp [keyOf, hfree]
    · rw [hself]
      rfl
    · intro j hj
      rw [hall j hj]

theorem Inv.intoLruList (h : Inv c) (hi : i < nrInode) (hkey : keyOf x = keyOf (c.all i))
    (hcount : x.count = 0) : Inv (intoLruList i (set i x c)) := by
  refine ⟨(toPrefix_perm (h.mem_lru.mpr hi)).trans h.perm, ?_, ?_, h.chained.congr (keyOf_set hkey)⟩
  · refine h.free.toPrefix h.lru_nodup ?_ ?_
    · change decide (((set i x c).all i).count ≠ 0) = false
      rw [set_all, if_pos rfl]
      simp [hcount]
    · intro j hj
      change decide (((set i x c).all j).count ≠ 0) = _
      rw [set_all, if_neg hj]
      rfl
  · intro j hj
    change ((set i x c).all j).count = 0 ∧ ((set i x c).all j).hashed = false
    rw [set_all, if_neg (by omega)]
    exact h.inside j hj

theorem Inv.victim_some (h : Inv c) (hvictim : victim c = some i) : i < nrInode ∧ (c.all i).count = 0 := by
  unfold victim at hvictim
  split at hvictim
  · cases hvictim
  · rename_i j hhead
    split_ifs at hvictim with hcount
    cases hvictim
    exact ⟨h.mem_lru.mp (List.mem_of_head? hhead), by simpa using hcount⟩

/-- There is nothing to use anew only when all inodes are in use. -/
theorem Inv.victim_none (h : Inv c) (hvictim : victim c = none) (hi : i < nrInode) : 0 < (c.all i).count := by
  have hmem : i ∈ c.lru := h.mem_lru.mpr hi
  have hfree := h.free
  unfold victim at hvictim
  cases hlru : c.lru with
  | nil => simp [hlru] at hmem
  | cons j l =>
    rw [hlru] at hvictim hfree hmem
    simp only [List.head?_cons] at hvictim
    split_ifs at hvictim with hcount
    have hbusy := hfree.all_busy (by simp [busy, hcount]) i hmem
    exact Nat.pos_of_ne_zero (by simpa [busy] using hbusy)

theorem Inv.getEmptyInode {r : ℕ × Cache φ} (h : Inv c) (hget : getEmptyInode c = some r) :
    Inv r.2 ∧ r.1 < nrInode ∧ (c.all r.1).count = 0 := by
  obtain ⟨i, hvictim, rfl⟩ := Option.map_eq_some_iff.mp hget
  obtain ⟨hi, hcount⟩ := h.victim_some hvictim
  refine ⟨(h.clearInode hcount).touch hi rfl ?_, hi, hcount⟩
  simp

theorem getEmptyInode_all {r : ℕ × Cache φ} (hget : getEmptyInode c = some r) (j : ℕ) :
    r.2.all j = if j = r.1 then { blank with count := 1 } else c.all j := by
  obtain ⟨i, -, rfl⟩ := Option.map_eq_some_iff.mp hget
  change (set i _ (clearInode i c)).all j = _
  rw [set_all, clearInode_all, clearInode_all, if_pos rfl]
  split_ifs <;> rfl

/-- What `__iget` leaves: it has found the inode of the key, or made a new one. -/
theorem Inv.iget_all {r : ℕ × Cache φ} (h : Inv c) (hget : iget sb dev ino c = some r) :
    ∃ y, (∀ j, r.2.all j = if j = r.1 then y else c.all j) ∧
      (keyOf (c.all r.1) = some (dev, ino) ∧
          y = { c.all r.1 with count := (c.all r.1).count + 1 } ∨
        (c.all r.1).count = 0 ∧ (∀ j, keyOf (c.all j) ≠ some (dev, ino)) ∧
          y = { blank with sb := some sb, dev := dev, ino := ino, hashed := true, count := 1 }) := by
  unfold InodeCache.iget at hget
  split at hget
  · rename_i i hfind
    cases hget
    exact ⟨_, set_all i _ c, Or.inl ⟨h.findInode_some hfind, rfl⟩⟩
  · rename_i hfind
    obtain ⟨i, hvictim, rfl⟩ := Option.map_eq_some_iff.mp hget
    refine ⟨_, ?_, Or.inr ⟨(h.victim_some hvictim).2, h.findInode_none hfind, rfl⟩⟩
    intro j
    change (set i _ (set i _ _)).all j = _
    rw [set_all, set_all]
    split_ifs with hj
    · simp [InodeCache.hashNew, InodeCache.set, clearInode_all, blank]
    · change (InodeCache.clearInode i c).all j = _
      rw [clearInode_all, if_neg hj]

theorem Inv.mark {r : ℕ × Cache φ} (h : Inv c) (hget : InodeCache.getEmptyInode c = some r)
    (hkey : keyOf x = keyOf (r.2.all r.1)) (hcount : x.count = (r.2.all r.1).count) : Inv (set r.1 x r.2) := by
  refine (h.getEmptyInode hget).1.set_same hkey ?_
  rw [hcount]

theorem Inv.iget {r : ℕ × Cache φ} (h : Inv c) (hget : iget sb dev ino c = some r) : Inv r.2 := by
  unfold InodeCache.iget at hget
  split at hget
  · rename_i i hfind
    cases hget
    have hkey := keyOf_eq_some.mp (h.findInode_some hfind)
    exact h.touch (h.lt_of_hashed hkey.1) rfl (by simp)
  · rename_i hfind
    obtain ⟨i, hvictim, rfl⟩ := Option.map_eq_some_iff.mp hget
    obtain ⟨hi, hcount⟩ := h.victim_some hvictim
    have hcleared := h.clearInode hcount
    have hnew : ∀ j, keyOf ((InodeCache.clearInode i c).all j) ≠ some (dev, ino) := by
      intro j
      rw [clearInode_all]
      split_ifs
      · simp [keyOf, blank]
      · exact h.findInode_none hfind j
    have hblank : ((InodeCache.clearInode i c).all i).hashed = false := by
      rw [clearInode_all, if_pos rfl]
      rfl
    exact (hcleared.hashNew hi hblank hnew).touch hi rfl (by simp)

theorem writeInode_key (x : Inode φ) : keyOf (writeInode x) = keyOf x := by
  unfold writeInode
  split_ifs <;> rfl

theorem writeInode_count (x : Inode φ) : (writeInode x).count = x.count := by
  unfold writeInode
  split_ifs <;> rfl

theorem readInode_key (read : Option φ) (x : Inode φ) : keyOf (readInode read x) = keyOf x := by
  unfold readInode
  split_ifs <;> rfl

theorem readInode_count (read : Option φ) (x : Inode φ) : (readInode read x).count = x.count := by
  unfold readInode
  split_ifs <;> rfl

theorem retire_key (x : Inode φ) : keyOf (retire x) = keyOf x := by
  unfold retire
  split_ifs
  · exact writeInode_key x
  · exact writeInode_key x

theorem retire_count (x : Inode φ) : (retire x).count = x.count := by
  unfold retire
  split_ifs
  · exact writeInode_count x
  · exact writeInode_count x

theorem Inv.refresh (h : Inv c) (i : ℕ) (read : Option φ) : Inv (refresh i read c) := by
  refine h.set_same ?_ ?_
  · rw [readInode_key, writeInode_key]
  · rw [readInode_count, writeInode_count]

theorem Inv.iref (h : Inv c) (hcount : 0 < (c.all i).count) : Inv (iref i c) := by
  refine h.set_same rfl ?_
  simp [Nat.ne_of_gt hcount]

theorem Inv.iput (h : Inv c) (hcount : 0 < (c.all i).count) : Inv (iput i c) := by
  unfold InodeCache.iput
  split_ifs with hlast
  · refine h.intoLruList (h.lt_of_count (Nat.ne_of_gt hcount)) ?_ ?_
    · rw [retire_key]
      rfl
    · rw [retire_count]
      exact hlast
  · refine h.set_same rfl ?_
    simp only [hlast, Nat.ne_of_gt hcount]

theorem Inv.inodeInvalidate (h : Inv c) : Inv (inodeInvalidate dev ino c) := by
  unfold InodeCache.inodeInvalidate
  split
  · exact h.set_same rfl Iff.rfl
  · exact h

theorem Inv.orSleep {r : Option (ℕ × Cache φ)} (h : Inv c) (hr : ∀ p, r = some p → Inv p.2) : Inv (orSleep r c) := by
  cases r with
  | none => exact h
  | some p => exact hr p rfl

theorem Inv.step {a : Label φ} (h : Inv c) (hstep : Step c a c') : Inv c' := by
  cases a with
  | iget sb dev ino =>
    cases hstep
    exact h.orSleep fun _ => h.iget
  | refresh i read =>
    dsimp only [Step, exec] at hstep
    split_ifs at hstep with hcount
    cases hstep
    exact h.refresh i read
  | setDirty i =>
    dsimp only [Step, exec] at hstep
    split_ifs at hstep with hcount
    cases hstep
    exact h.set_same rfl Iff.rfl
  | getEmptyInode =>
    cases hstep
    exact h.orSleep fun _ hget => (h.getEmptyInode hget).1
  | getPipeInode =>
    cases hstep
    refine h.orSleep fun p hget => ?_
    obtain ⟨r, hr, rfl⟩ := Option.map_eq_some_iff.mp hget
    exact h.mark hr rfl rfl
  | getSocketInode =>
    cases hstep
    refine h.orSleep fun p hget => ?_
    obtain ⟨r, hr, rfl⟩ := Option.map_eq_some_iff.mp hget
    exact h.mark hr rfl rfl
  | iref i =>
    dsimp only [Step, exec] at hstep
    split_ifs at hstep with hcount
    cases hstep
    exact h.iref hcount
  | iput i =>
    dsimp only [Step, exec] at hstep
    split_ifs at hstep with hcount
    cases hstep
    exact h.iput hcount
  | inodeInvalidate dev ino =>
    cases hstep
    exact h.inodeInvalidate

theorem Initial.inv (h : Initial c) : Inv c := by
  constructor
  · rw [h.lru]
  · refine List.pairwise_of_forall ?_
    intro i j hbusy
    simp [busy, h.all, blank] at hbusy
  · intro i _
    rw [h.all]
    exact ⟨rfl, rfl⟩
  · refine chained_empty (fun i => ?_) h.hash
    rw [h.all]
    rfl

/-! ## Soundness -/

theorem sameInode_set (hx : SameInode (c.all i) x) (j : ℕ) : SameInode (c.all j) ((set i x c).all j) := by
  rw [set_all]
  split_ifs with hj
  · rw [hj]
    exact hx
  · exact ⟨rfl, rfl, rfl, rfl, rfl, rfl⟩

theorem writeInode_same (x : Inode φ) : SameInode x (writeInode x) := by
  unfold writeInode
  split_ifs <;> exact ⟨rfl, rfl, rfl, rfl, rfl, rfl⟩

theorem readInode_same (read : Option φ) (x : Inode φ) : SameInode x (readInode read x) := by
  unfold readInode
  split_ifs <;> exact ⟨rfl, rfl, rfl, rfl, rfl, rfl⟩

theorem retire_same (x : Inode φ) : SameInode x (retire x) := by
  unfold retire
  split_ifs
  · exact writeInode_same x
  · exact writeInode_same x

theorem SameInode.trans {x y z : Inode φ} (hxy : SameInode x y) (hyz : SameInode y z) : SameInode x z := by
  obtain ⟨hdev, hino, hsb, hmount, hhashed, hsocket⟩ := hxy
  exact ⟨hyz.1.trans hdev, hyz.2.1.trans hino, hyz.2.2.1.trans hsb, hyz.2.2.2.1.trans hmount,
    hyz.2.2.2.2.1.trans hhashed, hyz.2.2.2.2.2.trans hsocket⟩

theorem Inv.getEmptyInode_same {r : ℕ × Cache φ} (h : Inv c)
    (hget : InodeCache.getEmptyInode c = some r) (x : Inode φ) (hj : 0 < (c.all j).count) :
    SameInode (c.all j) (r.2.all j) ∧ SameInode (c.all j) ((set r.1 x r.2).all j) := by
  have hne : j ≠ r.1 := by
    rintro rfl
    have hzero := (h.getEmptyInode hget).2.2
    omega
  rw [set_all, if_neg hne, getEmptyInode_all hget, if_neg hne]
  exact ⟨⟨rfl, rfl, rfl, rfl, rfl, rfl⟩, ⟨rfl, rfl, rfl, rfl, rfl, rfl⟩⟩

theorem Inv.iget_same {r : ℕ × Cache φ} (h : Inv c) (hget : InodeCache.iget sb dev ino c = some r)
    (hj : 0 < (c.all j).count) : SameInode (c.all j) (r.2.all j) := by
  obtain ⟨y, hall, hcase⟩ := h.iget_all hget
  rw [hall]
  split_ifs with hjr
  · rw [hjr] at hj ⊢
    obtain ⟨-, rfl⟩ | ⟨hzero, -⟩ := hcase
    · exact ⟨rfl, rfl, rfl, rfl, rfl, rfl⟩
    · omega
  · exact ⟨rfl, rfl, rfl, rfl, rfl, rfl⟩

/-- What `iput` leaves of the inode. -/
def putInode (x : Inode φ) : Inode φ :=
  if x.count - 1 = 0 then retire { x with count := x.count - 1 }
  else { x with count := x.count - 1 }

theorem iput_all (i : ℕ) (c : Cache φ) (j : ℕ) : (iput i c).all j = if j = i then putInode (c.all i) else c.all j := by
  unfold iput putInode
  split_ifs with hlast hj hj
  · exact (set_all ..).trans (if_pos hj)
  · exact (set_all ..).trans (if_neg hj)
  · exact (set_all ..).trans (if_pos hj)
  · exact (set_all ..).trans (if_neg hj)

theorem iput_same (j : ℕ) : SameInode (c.all j) ((iput i c).all j) := by
  unfold iput
  split_ifs
  · refine sameInode_set (SameInode.trans ?_ (retire_same _)) j
    exact ⟨rfl, rfl, rfl, rfl, rfl, rfl⟩
  · exact sameInode_set (by exact ⟨rfl, rfl, rfl, rfl, rfl, rfl⟩) j

theorem sameInode_orSleep {r : Option (ℕ × Cache φ)} (hr : ∀ p, r = some p → SameInode (c.all j) (p.2.all j)) :
    SameInode (c.all j) ((orSleep r c).all j) := by
  cases r with
  | none => exact ⟨rfl, rfl, rfl, rfl, rfl, rfl⟩
  | some p => exact hr p rfl

theorem Inv.step_same {a : Label φ} (h : Inv c) (hstep : Step c a c') (hj : 0 < (c.all j).count) :
    SameInode (c.all j) (c'.all j) := by
  cases a with
  | iget sb dev ino =>
    cases hstep
    exact sameInode_orSleep fun _ hget => h.iget_same hget hj
  | refresh i read =>
    dsimp only [Step, exec] at hstep
    split_ifs at hstep with hcount
    cases hstep
    exact sameInode_set ((writeInode_same _).trans (readInode_same _ _)) j
  | setDirty i =>
    dsimp only [Step, exec] at hstep
    split_ifs at hstep with hcount
    cases hstep
    exact sameInode_set (by exact ⟨rfl, rfl, rfl, rfl, rfl, rfl⟩) j
  | getEmptyInode =>
    cases hstep
    exact sameInode_orSleep fun _ hget => (h.getEmptyInode_same hget blank hj).1
  | getPipeInode =>
    cases hstep
    refine sameInode_orSleep fun p hget => ?_
    obtain ⟨r, hr, rfl⟩ := Option.map_eq_some_iff.mp hget
    exact (h.getEmptyInode_same hr _ hj).2
  | getSocketInode =>
    cases hstep
    refine sameInode_orSleep fun p hget => ?_
    obtain ⟨r, hr, rfl⟩ := Option.map_eq_some_iff.mp hget
    exact (h.getEmptyInode_same hr _ hj).2
  | iref i =>
    dsimp only [Step, exec] at hstep
    split_ifs at hstep with hcount
    cases hstep
    exact sameInode_set (by exact ⟨rfl, rfl, rfl, rfl, rfl, rfl⟩) j
  | iput i =>
    dsimp only [Step, exec] at hstep
    split_ifs at hstep with hcount
    cases hstep
    exact iput_same j
  | inodeInvalidate dev ino =>
    cases hstep
    unfold InodeCache.inodeInvalidate
    split
    · exact sameInode_set (by exact ⟨rfl, rfl, rfl, rfl, rfl, rfl⟩) j
    · exact ⟨rfl, rfl, rfl, rfl, rfl, rfl⟩

theorem Inv.sound (h : Inv c) : Sound c := by
  constructor
  · intro i j _ _ hi hj hdev hino
    refine h.chained.inj i j ((c.all i).dev, (c.all i).ino) ?_ ?_
    · exact keyOf_eq_some.mpr ⟨hi, rfl⟩
    · exact keyOf_eq_some.mpr ⟨hj, by rw [hdev, hino]⟩
  · intro i _ hi m
    rw [h.chained.mem, keyOf, if_pos hi]
    simp [eq_comm]
  · refine h.free.imp ?_
    intro i j hij hi
    have hj := hij (by simp [busy, Nat.ne_of_gt hi])
    exact Nat.pos_of_ne_zero (by simpa [busy] using hj)
  · rintro sb dev ino hsleep i hi
    refine h.victim_none ?_ hi
    rcases hsleep with hget | hget
    · unfold InodeCache.iget at hget
      split at hget
      · cases hget
      · exact Option.map_eq_none_iff.mp hget
    · exact Option.map_eq_none_iff.mp hget
  · exact fun a c' i hstep hi => h.step_same hstep hi

/-- The inode cache keeps its order and its keys. -/
theorem inode_cache_sound (c₀ : Cache φ) (hinit : Initial c₀) (labs : List (Label φ)) (c : Cache φ)
    (hrun : Run Step c₀ labs c) : Sound c :=
  (hrun.invariant (P := Inv) hinit.inv fun hu hstep => hu.step hstep).sound

/-- The empty cache. -/
def boot : Cache ℕ := { all := fun _ => blank, lru := List.range nrInode, hash := fun _ => [] }

theorem boot_initial : Initial boot := by
  constructor
  · exact fun _ => rfl
  · dsimp only [boot]
  · exact fun _ => rfl

/-- Inode 2 of device 3 is got twice and put back, and a pipe is made. -/
def twice : List (Label ℕ) :=
  [.iget 0 3 2, .refresh 0 (some 9), .iget 0 3 2, .getPipeInode, .iput 0, .iput 0]

theorem twice_replays : (replay (fun _ _ => True) exec boot twice).isSome := by decide +kernel

/-- The cache afterwards. -/
def afterTwice : Cache ℕ := (replay (fun _ _ => True) exec boot twice).get twice_replays

theorem twice_run : Run Step boot twice afterTwice :=
  (run_of_replay (Option.some_get twice_replays).symm).mono fun _ _ _ hstep => hstep.2

theorem inode_cache_sound_twice :
    Initial boot ∧ Run Step boot twice afterTwice ∧ Sound afterTwice :=
  ⟨boot_initial, twice_run, inode_cache_sound boot boot_initial twice afterTwice twice_run⟩

end Mario.Fs.InodeCache
