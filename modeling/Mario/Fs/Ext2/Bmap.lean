import Mario.Fs.Ext2.AllocSafety

/-!
# The block map of ext2

`bmap.c` on the bytes of the disk: the walk from the pointers of the inode over up to three levels of indirect
blocks, which looks a block of a file up or makes it.
-/

namespace Mario.Fs.Ext2

open Mario.Lib Function

/-- `ext2_write32`. -/
def write32 (p : Buffer) (o : ℕ) (v : BitVec 32) : Buffer := fun i =>
  if o ≤ i ∧ i < o + 4 then v.extractLsb' (8 * (i - o)) 8 else p i

/-- What the block map changes in an inode: `i_block` and `i_blocks` of the raw inode, `i_nr_block` and the dirty
bit. -/
structure RawInode where
  iBlock : ℕ → BitVec 32
  iBlocks : BitVec 32
  iNrBlock : BitVec 32
  dirty : Bool

/-- The file system and an inode. -/
structure FileState where
  fs : State
  inode : RawInode

/-- The answers to one call of `ext2_new_block`. -/
structure NewBlock where
  alloc : Answers
  bufMem : Bool
  write : Write
  free : Answers

/-- The answers to one call of `ext2_bmap`: for the indirect blocks by level, for the loads and stores of pointers
in their order, and for the block of data. -/
structure BmapAnswers where
  newIndirect : ℕ → NewBlock
  newData : NewBlock
  ptrsMem : ℕ → Bool
  ptrsRead : ℕ → Bool
  ptrsWrite : ℕ → Write
  dataWrite : Write

variable (m : Layout)

/-- `EXT2_ADDRS_PER_BLOCK`. -/
def per : ℕ := m.blockSize / 4

/-- The sectors of a block. -/
def sectors : BitVec 32 := BitVec.ofNat 32 (m.blockSize / 512)

def ext2NewBlock (a : NewBlock) (st : FileState) : Outcome (BitVec 32) × FileState :=
  match ext2AllocBlock m 0 a.alloc st.fs with
  | (.error e, s) => (.error e, { st with fs := s })
  | (.ok block, s) =>
      if !a.bufMem then (.error .enomem, { st with fs := (ext2FreeBlock m block a.free s).2 })
      else
        match writeBlock m s block (fun _ => 0) a.write with
        | (.error e, s') => (.error e, { st with fs := (ext2FreeBlock m block a.free s').2 })
        | (.ok _, s') =>
            (.ok (BitVec.ofNat 32 block),
              { fs := s'
                inode :=
                  { st.inode with
                    iBlocks := st.inode.iBlocks + sectors m
                    iNrBlock := st.inode.iNrBlock + sectors m
                    dirty := true } })

/-- `ext2_ensure_indirect` for a pointer of the inode. -/
def ensureSlot (a : NewBlock) (slot : ℕ) (st : FileState) : Outcome (BitVec 32) × FileState :=
  if st.inode.iBlock slot ≠ 0 then (.ok (st.inode.iBlock slot), st)
  else
    match ext2NewBlock m a st with
    | (.error e, st') => (.error e, st')
    | (.ok block, st') =>
        (.ok block, { st' with inode :=
          { st'.inode with iBlock := update st'.inode.iBlock slot block } })

/-- `ext2_ensure_indirect` and `ext2_ensure_data` for a pointer of a buffer, which may change. -/
def ensurePtr (a : NewBlock) (ptrs : Buffer) (index : ℕ) (st : FileState) :
    Outcome (BitVec 32 × Buffer) × FileState :=
  if read32 ptrs (4 * index) ≠ 0 then (.ok (read32 ptrs (4 * index), ptrs), st)
  else
    match ext2NewBlock m a st with
    | (.error e, st') => (.error e, st')
    | (.ok block, st') => (.ok (block, write32 ptrs (4 * index) block), st')

/-- `ext2_load_ptrs`; the number is that of the load. -/
def loadPtrs (a : BmapAnswers) (n : ℕ) (block : BitVec 32) (st : FileState) : Outcome Buffer × FileState :=
  (if !a.ptrsMem n then .error .enomem else readBlock m st.fs block.toNat (a.ptrsRead n), st)

/-- `ext2_store_ptrs`. -/
def storePtrs (w : Write) (block : BitVec 32) (ptrs : Buffer) (st : FileState) : Outcome Unit × FileState :=
  let r := writeBlock m st.fs block.toNat ptrs w
  (r.1, { st with fs := r.2 })

/-- Go on after a success, and return 0 after an error. -/
def orZero {α : Type*} (r : Outcome α × FileState) (f : α → FileState → BitVec 32 × FileState) :
    BitVec 32 × FileState :=
  match r.1 with
  | .error _ => (0, r.2)
  | .ok x => f x r.2

/-- Go down from an indirect block to the one that a pointer of it leads to. -/
def descend (a : BmapAnswers) (n : ℕ) (block : BitVec 32) (index : ℕ) (st : FileState)
    (f : BitVec 32 → FileState → BitVec 32 × FileState) : BitVec 32 × FileState :=
  orZero (loadPtrs m a n block st) fun ptrs st =>
    orZero (ensurePtr m (a.newIndirect (n + 1)) ptrs index st) fun r st =>
      orZero (storePtrs m (a.ptrsWrite n) block r.2 st) fun _ st => f r.1 st

/-- The end of a walk, at the indirect block with the pointer to the data. -/
def lastPtr (a : BmapAnswers) (n : ℕ) (create : Bool) (block : BitVec 32) (index : ℕ) (st : FileState) :
    BitVec 32 × FileState :=
  orZero (loadPtrs m a n block st) fun ptrs st =>
    if read32 ptrs (4 * index) = 0 ∧ create = true then
      orZero (ensurePtr m a.newData ptrs index st) fun r st =>
        orZero (storePtrs m a.dataWrite block r.2 st) fun _ st => (r.1, st)
    else (read32 ptrs (4 * index), st)

def ext2Bmap (a : BmapAnswers) (block : ℕ) (create : Bool) (st : FileState) : BitVec 32 × FileState :=
  let singleStart := 12
  let doubleStart := singleStart + per m
  let tripleStart := doubleStart + per m * per m
  if block < 12 then
    if st.inode.iBlock block ≠ 0 then (st.inode.iBlock block, st)
    else if !create then (0, st)
    else
      orZero (ext2NewBlock m a.newData st) fun result st =>
        (result, { st with inode :=
          { st.inode with iBlock := update st.inode.iBlock block result } })
  else if block < doubleStart then
    orZero (ensureSlot m (a.newIndirect 0) 12 st) fun indirect st =>
      lastPtr m a 0 create indirect (block - singleStart) st
  else if block < tripleStart then
    let index := block - doubleStart
    orZero (ensureSlot m (a.newIndirect 0) 13 st) fun dind st =>
      descend m a 0 dind (index / per m) st fun indBlock st =>
        lastPtr m a 1 create indBlock (index % per m) st
  else
    let index := block - tripleStart
    orZero (ensureSlot m (a.newIndirect 0) 14 st) fun tind st =>
      descend m a 0 tind (index / (per m * per m)) st fun dindBlock st =>
        descend m a 1 dindBlock (index / per m % per m) st fun indBlock st =>
          lastPtr m a 2 create indBlock (index % per m) st

/-! ## What the pointers denote -/

/-- The pointer of the inode that a block of a file is reached from, and the pointers on the way. -/
def blockPath (block : ℕ) : ℕ × List ℕ :=
  let doubleStart := 12 + per m
  let tripleStart := doubleStart + per m * per m
  if block < 12 then (block, [])
  else if block < doubleStart then (12, [block - 12])
  else if block < tripleStart then
    (13, [(block - doubleStart) / per m, (block - doubleStart) % per m])
  else
    (14, [(block - tripleStart) / (per m * per m), (block - tripleStart) / per m % per m,
      (block - tripleStart) % per m])

/-- What is reached from a pointer: the null pointer is a hole. -/
def follow (s : State) : BitVec 32 → List ℕ → BitVec 32
  | v, [] => v
  | v, i :: path => if v = 0 then 0 else follow s (read32 (s.disk v.toNat) (4 * i)) path

/-- The block that the pointer tree denotes. -/
def denoted (block : ℕ) (st : FileState) : BitVec 32 :=
  follow st.fs (st.inode.iBlock (blockPath m block).1) (blockPath m block).2

/-- A block of a file that the three levels reach. -/
structure FileBlock where
  index : ℕ
  lt : index < 12 + per m + per m * per m + per m * per m * per m

/-- An attempt to make the missing indirect block of a level fails and leaves everything as it is. -/
def Refused (a : BmapAnswers) (n : ℕ) (st : FileState) : Prop :=
  ∃ e, ext2NewBlock m (a.newIndirect n) st = (.error e, st)

/-- A load or a store of pointers succeeds. -/
def Loads (a : BmapAnswers) (n : ℕ) (block : BitVec 32) : Prop :=
  a.ptrsMem n = true ∧ a.ptrsRead n = true ∧ block.toNat < m.blocksCount

def Stores (a : BmapAnswers) (n : ℕ) (block : BitVec 32) : Prop :=
  a.ptrsWrite n = .done ∧ block.toNat < m.blocksCount

/-- What a walk from an indirect block needs: a missing indirect block cannot be made, and where the walk leads to
a block, the pointers on the way can be loaded and, but for the last ones, stored again. -/
def Passes (a : BmapAnswers) (st : FileState) : ℕ → BitVec 32 → List ℕ → Prop
  | _, _, [] => True
  | n, v, i :: path =>
      if v = 0 then Refused m a n st
      else
        let w := read32 (st.fs.disk v.toNat) (4 * i)
        (Loads m a n v ∨ follow st.fs w path = 0) ∧
          (Loads m a n v → path ≠ [] →
            (w = 0 → Refused m a (n + 1) st) ∧
              (w ≠ 0 → (Stores m a n v ∨ follow st.fs w path = 0) ∧
                (Stores m a n v → Passes a st (n + 1) w path)))

/-- The same for a block of a file; the blocks that the inode points to need nothing. -/
def Looks (a : BmapAnswers) (block : ℕ) (st : FileState) : Prop :=
  (blockPath m block).2 ≠ [] →
    Passes m a st 0 (st.inode.iBlock (blockPath m block).1) (blockPath m block).2

/-! ## Looking a block up -/

variable {m} {a : BmapAnswers} {st : FileState} {n : ℕ} {v : BitVec 32}

/-- The walk without `create` from an indirect block, along the indexes of the pointers. -/
def walk (m : Layout) (a : BmapAnswers) : ℕ → BitVec 32 → List ℕ → FileState → BitVec 32 × FileState
  | _, v, [], st => (v, st)
  | n, v, [i], st => lastPtr m a n false v i st
  | n, v, i :: j :: path, st => descend m a n v i st fun w st => walk m a (n + 1) w (j :: path) st

/-- `ext2_bmap` without `create` follows the path of the block. -/
theorem ext2Bmap_eq_walk (block : ℕ) :
    ext2Bmap m a block false st =
      if (blockPath m block).2 = [] then (st.inode.iBlock (blockPath m block).1, st)
      else orZero (ensureSlot m (a.newIndirect 0) (blockPath m block).1 st)
        fun v st => walk m a 0 v (blockPath m block).2 st := by
  unfold ext2Bmap blockPath
  simp only
  by_cases hdirect : block < 12
  · simp only [if_pos hdirect, if_true, Bool.not_false]
    split_ifs with hptr
    · rfl
    · rw [not_not.mp hptr]
  · simp only [if_neg hdirect]
    by_cases hsingle : block < 12 + per m
    · simp only [if_pos hsingle, reduceCtorEq, if_false, walk]
    · simp only [if_neg hsingle]
      by_cases hdouble : block < 12 + per m + per m * per m
      · simp only [if_pos hdouble, reduceCtorEq, if_false, walk]
      · simp only [if_neg hdouble, reduceCtorEq, if_false, walk]

theorem loadPtrs_of_loads (h : Loads m a n v) (st : FileState) :
    loadPtrs m a n v st = (.ok (st.fs.disk v.toNat), st) := by
  obtain ⟨hmem, hread, hlt⟩ := h
  unfold loadPtrs readBlock
  have hge : ¬ m.blocksCount ≤ v.toNat := by omega
  simp only [hmem, hread, Bool.not_true, Bool.false_eq_true, if_false, if_true, if_neg hge]

theorem loadPtrs_of_not_loads (h : ¬ Loads m a n v) (st : FileState) : ∃ e, loadPtrs m a n v st = (.error e, st) := by
  unfold loadPtrs
  cases hmem : a.ptrsMem n with
  | false => exact ⟨_, rfl⟩
  | true =>
    unfold readBlock
    by_cases hlt : m.blocksCount ≤ v.toNat
    · exact ⟨.einval, by rw [if_pos hlt]; rfl⟩
    · cases hread : a.ptrsRead n with
      | false => exact ⟨.eio, by rw [if_neg hlt]; rfl⟩
      | true => exact absurd ⟨hmem, hread, by omega⟩ h

/-- Writing back what a block holds changes nothing, also when it fails. -/
theorem writeBlock_same (s : State) (b : ℕ) (w : Write) : (writeBlock m s b (s.disk b) w).2 = s := by
  unfold writeBlock
  split_ifs
  · rfl
  · have happly : w.apply (s.disk b) (s.disk b) = s.disk b := by
      funext o
      unfold Write.apply
      split_ifs <;> rfl
    simp only [happly, update_eq_self]

theorem storePtrs_same (w : Write) (st : FileState) :
    storePtrs m w v (st.fs.disk v.toNat) st = ((writeBlock m st.fs v.toNat (st.fs.disk v.toNat) w).1, st) := by
  unfold storePtrs
  simp only [writeBlock_same]

theorem storePtrs_of_stores (h : Stores m a n v) (st : FileState) :
    storePtrs m (a.ptrsWrite n) v (st.fs.disk v.toNat) st = (.ok (), st) := by
  obtain ⟨hdone, hlt⟩ := h
  rw [storePtrs_same]
  unfold writeBlock
  rw [if_neg (by omega), hdone]

theorem storePtrs_of_not_stores (h : ¬ Stores m a n v) (st : FileState) :
    ∃ e, storePtrs m (a.ptrsWrite n) v (st.fs.disk v.toNat) st = (.error e, st) := by
  rw [storePtrs_same]
  unfold writeBlock
  by_cases hlt : m.blocksCount ≤ v.toNat
  · exact ⟨.einval, by rw [if_pos hlt]⟩
  · cases hwrite : a.ptrsWrite n with
    | done => exact absurd ⟨hwrite, by omega⟩ h
    | failed sectors => exact ⟨.eio, by rw [if_neg hlt]⟩

/-- A block that is made is counted in the inode, and a failure leaves the inode as it is. -/
theorem ext2NewBlock_cases (b : NewBlock) (st : FileState) :
    (∃ e st', ext2NewBlock m b st = (.error e, st') ∧ st'.inode = st.inode) ∨
      ∃ block st', ext2NewBlock m b st = (.ok block, st') ∧ st'.inode.iNrBlock = st.inode.iNrBlock + sectors m := by
  unfold ext2NewBlock
  rcases ext2AllocBlock m 0 b.alloc st.fs with ⟨e | block, s⟩
  · exact Or.inl ⟨e, _, rfl, rfl⟩
  · simp only
    split_ifs
    · exact Or.inl ⟨_, _, rfl, rfl⟩
    · rcases writeBlock m s block (fun _ => 0) b.write with ⟨e | u, s'⟩
      · exact Or.inl ⟨e, _, rfl, rfl⟩
      · exact Or.inr ⟨_, _, rfl, rfl⟩

/-- At most so many blocks are made. -/
def Adds (m : Layout) (k : ℕ) (st st' : FileState) : Prop :=
  ∃ j ≤ k, st'.inode.iNrBlock = st.inode.iNrBlock + BitVec.ofNat 32 (j * (m.blockSize / 512))

theorem Adds.same {st st' : FileState} (k : ℕ) (h : st'.inode.iNrBlock = st.inode.iNrBlock) :
    Adds m k st st' := ⟨0, Nat.zero_le k, by rw [h, Nat.zero_mul]; exact (BitVec.add_zero _).symm⟩

theorem Adds.mono {st st' : FileState} {k l : ℕ} (h : Adds m k st st') (hle : k ≤ l) : Adds m l st st' := by
  obtain ⟨j, hj, heq⟩ := h
  exact ⟨j, hj.trans hle, heq⟩

theorem Adds.next {st st' st'' : FileState} {k : ℕ}
    (hfirst : st'.inode.iNrBlock = st.inode.iNrBlock + sectors m) (h : Adds m k st' st'') :
    ∃ j ≤ k, st''.inode.iNrBlock = st.inode.iNrBlock + BitVec.ofNat 32 ((j + 1) * (m.blockSize / 512)) := by
  obtain ⟨j, hj, heq⟩ := h
  refine ⟨j, hj, ?_⟩
  rw [heq, hfirst, sectors, BitVec.add_assoc, ← BitVec.ofNat_add, Nat.succ_mul, Nat.add_comm]

theorem Adds.trans_same {st st' st'' : FileState} {k : ℕ} (h : Adds m k st' st'')
    (hsame : st'.inode.iNrBlock = st.inode.iNrBlock) : Adds m k st st'' := by
  obtain ⟨j, hj, heq⟩ := h
  exact ⟨j, hj, by rw [heq, hsame]⟩

theorem orZero_adds {α : Type*} {r : Outcome α × FileState} {f : α → FileState → BitVec 32 × FileState}
    {k : ℕ} (hr : r.2.inode.iNrBlock = st.inode.iNrBlock) (hf : ∀ x, Adds m k r.2 (f x r.2).2) :
    Adds m k st (orZero r f).2 := by
  obtain ⟨e | x, st'⟩ := r
  · exact Adds.same k hr
  · exact (hf x).trans_same hr

theorem walk_adds (n : ℕ) (v : BitVec 32) (path : List ℕ) (st : FileState) :
    Adds m path.length st (walk m a n v path st).2 := by
  induction path generalizing n v st with
  | nil => exact Adds.same _ rfl
  | cons i path ih =>
    cases path with
    | nil =>
      rw [walk]
      refine orZero_adds rfl fun ptrs => ?_
      simp only [Bool.false_eq_true, and_false, if_false]
      exact Adds.same _ rfl
    | cons j path =>
      rw [walk]
      refine orZero_adds rfl fun ptrs => ?_
      unfold ensurePtr
      split_ifs with hptr
      · refine orZero_adds rfl fun r => orZero_adds rfl fun _ => ?_
        exact (ih (n + 1) r.1 _).mono (Nat.le_succ _)
      · rcases ext2NewBlock_cases (m := m) (a.newIndirect (n + 1)) (loadPtrs m a n v st).2 with
          ⟨e, st', hnew, hinode⟩ | ⟨block, st', hnew, hcount⟩
        · rw [hnew]
          exact Adds.same _ (by rw [orZero, hinode])
        · rw [hnew]
          simp only [orZero]
          rcases hstore : storePtrs m (a.ptrsWrite n) v (write32 ptrs (4 * i) block) st' with ⟨e | u, st''⟩
          · have hsame : st''.inode = st'.inode := (congrArg (fun r => r.2.inode) hstore).symm
            refine ⟨1, by simp, ?_⟩
            rw [hsame, hcount, Nat.one_mul]
            rfl
          · have hsame : st''.inode = st'.inode := (congrArg (fun r => r.2.inode) hstore).symm
            have hfirst : st''.inode.iNrBlock = st.inode.iNrBlock + sectors m := by
              rw [hsame, hcount]
              rfl
            obtain ⟨k, hk, heq⟩ := (ih (n + 1) block st'').next hfirst
            exact ⟨k + 1, Nat.succ_le_succ hk, heq⟩

theorem not_same_of_adds {st st' st'' : FileState} {k : ℕ} (hpos : 0 < m.blockSize / 512)
    (hle : m.blockSize / 512 ≤ 8) (hk : k ≤ 3)
    (hfirst : st'.inode.iNrBlock = st.inode.iNrBlock + sectors m) (h : Adds m k st' st'') : st'' ≠ st := by
  rintro rfl
  obtain ⟨j, hj, heq⟩ := h.next hfirst
  have hzero := BitVec.self_eq_add_right.mp heq
  have hnat := congrArg BitVec.toNat hzero
  rw [BitVec.toNat_ofNat, Nat.mod_eq_of_lt] at hnat
  · have := Nat.mul_pos (by omega : 0 < j + 1) hpos
    simp only [BitVec.toNat_ofNat, Nat.zero_mod] at hnat
    omega
  · have := Nat.mul_le_mul (by omega : j + 1 ≤ 4) hle
    omega

/-- A walk from an indirect block finds what is denoted and changes nothing exactly when it passes. -/
theorem walk_eq_iff (hpos : 0 < m.blockSize / 512) (hle : m.blockSize / 512 ≤ 8) {path : List ℕ}
    (hlen : path.length ≤ 3) (hne : path ≠ []) (hv : v ≠ 0) :
    walk m a n v path st = (follow st.fs v path, st) ↔ Passes m a st n v path := by
  induction path generalizing n v with
  | nil => exact absurd rfl hne
  | cons i path ih =>
    rw [follow, Passes, if_neg hv, if_neg hv]
    generalize hw : read32 (st.fs.disk v.toNat) (4 * i) = w
    by_cases hload : Loads m a n v
    · have hok := loadPtrs_of_loads hload st
      cases path with
      | nil =>
        rw [walk, lastPtr, hok]
        simp only [orZero, hw, Bool.false_eq_true, and_false, if_false, follow, hload, true_or, ne_eq,
          not_true_eq_false, IsEmpty.forall_iff, implies_true, and_self]
      | cons j path =>
        rw [walk, descend, hok]
        simp only [hload, true_or, true_and, ne_eq, reduceCtorEq, not_false_eq_true, true_imp_iff]
        by_cases hzero : w = 0
        · have hfollow : follow st.fs w (j :: path) = 0 := by
            rw [follow, if_pos hzero]
          have hpass : (w = 0 → Refused m a (n + 1) st) ∧
              (w ≠ 0 → (Stores m a n v ∨ follow st.fs w (j :: path) = 0) ∧
                (Stores m a n v → Passes m a st (n + 1) w (j :: path))) ↔ Refused m a (n + 1) st :=
            ⟨fun h => h.1 hzero, fun h => ⟨fun _ => h, fun hne => absurd hzero hne⟩⟩
          rw [hpass, hfollow]
          simp only [orZero, ensurePtr, hw]
          rw [if_neg (not_not.mpr hzero)]
          rcases ext2NewBlock_cases (m := m) (a.newIndirect (n + 1)) st with
            ⟨e, st', hnew, -⟩ | ⟨block, st', hnew, hcount⟩
          · rw [Refused, hnew]
            simp only [Prod.mk.injEq, true_and]
            exact ⟨fun h => ⟨e, rfl, h⟩, fun ⟨_, _, h⟩ => h⟩
          · have hrefused : ¬ Refused m a (n + 1) st := by
              rintro ⟨e, he⟩
              rw [hnew] at he
              cases he
            refine ⟨fun h => ?_, fun h => absurd h hrefused⟩
            rw [hnew] at h
            have hstate := congrArg Prod.snd h
            simp only at hstate
            rcases hstore : storePtrs m (a.ptrsWrite n) v (write32 (st.fs.disk v.toNat) (4 * i) block) st' with
              ⟨e | u, st''⟩
            · have hsame : st''.inode = st'.inode := (congrArg (fun r => r.2.inode) hstore).symm
              rw [hstore] at hstate
              simp only at hstate
              exact absurd hstate (not_same_of_adds hpos hle (Nat.zero_le 3) hcount
                (Adds.same 0 (by rw [hsame])))
            · have hsame : st''.inode = st'.inode := (congrArg (fun r => r.2.inode) hstore).symm
              rw [hstore] at hstate
              simp only at hstate
              have hadds := walk_adds (m := m) (a := a) (n + 1) block (j :: path) st''
              rw [hstate] at hadds
              exact absurd rfl (not_same_of_adds hpos hle (by simpa using hlen) hcount
                (hadds.mono (Nat.le_succ _) |>.trans_same (by rw [hsame])))
        · simp only [orZero, ensurePtr, hw]
          rw [if_pos hzero]
          simp only [hzero, not_false_eq_true, true_imp_iff, IsEmpty.forall_iff, true_and]
          by_cases hstore : Stores m a n v
          · rw [storePtrs_of_stores hstore]
            simp only [hstore, true_or, true_imp_iff, true_and]
            exact ih (by simp only [List.length_cons] at hlen ⊢; omega) (by simp) hzero
          · obtain ⟨e, he⟩ := storePtrs_of_not_stores hstore st
            rw [he]
            simp only [hstore, false_or, IsEmpty.forall_iff, and_true, Prod.mk.injEq]
            exact eq_comm
    · obtain ⟨e, he⟩ := loadPtrs_of_not_loads hload st
      simp only [hload, false_or, IsEmpty.forall_iff, and_true]
      cases path with
      | nil =>
        rw [walk, lastPtr, he]
        simp only [orZero, Prod.mk.injEq, and_true]
        exact eq_comm
      | cons j path =>
        rw [walk, descend, he]
        simp only [orZero, Prod.mk.injEq, and_true]
        exact eq_comm

theorem blockPath_length (m : Layout) (block : ℕ) : (blockPath m block).2.length ≤ 3 := by
  unfold blockPath
  simp only
  split_ifs <;> simp

/-- A lookup without `create` finds the block that the pointers denote, and changes nothing, exactly when it comes
to no indirect block that is missing and can be made, and the pointers on the way to a block can be read. -/
theorem ext2Bmap_eq_iff (g : Geometry) (a : BmapAnswers) (b : FileBlock g.toLayout) (st : FileState) :
    ext2Bmap g.toLayout a b.index false st = (denoted g.toLayout b.index st, st) ↔ Looks g.toLayout a b.index st := by
  have hsize := g.blockSize_eq
  have hpos : 0 < g.blockSize / 512 := by omega
  have hle : g.blockSize / 512 ≤ 8 := by omega
  have hlen := blockPath_length g.toLayout b.index
  rw [ext2Bmap_eq_walk, Looks, denoted]
  generalize blockPath g.toLayout b.index = p at hlen ⊢
  obtain ⟨slot, path⟩ := p
  by_cases hdirect : path = []
  · subst hdirect
    simp [follow]
  · rw [if_neg hdirect]
    simp only [hdirect, ne_eq, not_false_eq_true, true_imp_iff]
    by_cases hzero : st.inode.iBlock slot = 0
    · have hfollow : follow st.fs (st.inode.iBlock slot) path = 0 := by
        cases path with
        | nil => exact hzero
        | cons i path => rw [follow, if_pos hzero]
      have hpass : Passes g.toLayout a st 0 (st.inode.iBlock slot) path ↔ Refused g.toLayout a 0 st := by
        cases path with
        | nil => exact absurd rfl hdirect
        | cons i path => rw [Passes, if_pos hzero]
      rw [hfollow, hpass]
      unfold ensureSlot
      rw [if_neg (not_not.mpr hzero)]
      rcases ext2NewBlock_cases (m := g.toLayout) (a.newIndirect 0) st with
        ⟨e, st', hnew, -⟩ | ⟨block, st', hnew, hcount⟩
      · rw [Refused, hnew]
        simp only [orZero, Prod.mk.injEq, true_and]
        exact ⟨fun h => ⟨e, rfl, h⟩, fun ⟨_, _, h⟩ => h⟩
      · have hrefused : ¬ Refused g.toLayout a 0 st := by
          rintro ⟨e, he⟩
          rw [hnew] at he
          cases he
        refine ⟨fun h => ?_, fun h => absurd h hrefused⟩
        rw [hnew] at h
        simp only [orZero] at h
        have hstate := congrArg Prod.snd h
        have hadds := walk_adds (m := g.toLayout) (a := a) 0 block path
          { st' with inode := { st'.inode with iBlock := update st'.inode.iBlock slot block } }
        dsimp only at hstate hadds
        rw [hstate] at hadds
        exact absurd rfl (not_same_of_adds hpos hle hlen hcount (hadds.trans_same rfl))
    · unfold ensureSlot
      rw [if_pos hzero]
      exact walk_eq_iff hpos hle hlen hdirect hzero

/-- The lookups of a reader, one after the other. -/
def lookups (m : Layout) (st : FileState) (l : List (BmapAnswers × ℕ)) : FileState :=
  l.foldl (fun st r => (ext2Bmap m r.1 r.2 false st).2) st

/-- The lookup: what is denoted is found and nothing changes, and a reader allocates nothing. -/
theorem ext2Bmap_frame (g : Geometry) :
    (∀ (a : BmapAnswers) (b : FileBlock g.toLayout) (st : FileState),
      ext2Bmap g.toLayout a b.index false st = (denoted g.toLayout b.index st, st) ↔
        Looks g.toLayout a b.index st) ∧
    ∀ (l : List (BmapAnswers × FileBlock g.toLayout)) (st : FileState),
      (∀ r ∈ l, Looks g.toLayout r.1 r.2.index st) →
        lookups g.toLayout st (l.map fun r => (r.1, r.2.index)) = st := by
  refine ⟨ext2Bmap_eq_iff g, fun l st hl => ?_⟩
  induction l with
  | nil => rfl
  | cons r l ih =>
    have hfirst := (ext2Bmap_eq_iff g r.1 r.2 st).mpr (hl r List.mem_cons_self)
    rw [lookups, List.map_cons, List.foldl_cons, hfirst]
    exact ih fun q hq => hl q (List.mem_cons_of_mem _ hq)

/-! ## A hole in the first indirect range -/

def allWork : NewBlock := ⟨working, true, .done, working⟩

def allLoads : BmapAnswers where
  newIndirect _ := allWork
  newData := allWork
  ptrsMem _ := true
  ptrsRead _ := true
  ptrsWrite _ := .done
  dataWrite := .done

/-- A file without blocks. -/
def sparseFile : FileState := ⟨emptyDisk, fun _ => 0, 0, 0, false⟩

/-- A lookup of block 12 makes an indirect block. -/
theorem ext2Bmap_allocates :
    ¬ ext2Bmap twoGroups.toLayout allLoads 12 false sparseFile =
      (denoted twoGroups.toLayout 12 sparseFile, sparseFile) := by
  intro h
  have hblocks := congrArg (fun r => r.2.inode.iNrBlock) h
  exact absurd hblocks (by decide +kernel)

end Mario.Fs.Ext2
