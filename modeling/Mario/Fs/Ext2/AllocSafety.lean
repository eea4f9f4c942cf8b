import Mario.Fs.Ext2.Alloc
import Mario.Lib.Runs

/-!
# The allocator keeps its four copies in step

A call changes one bit of a bitmap, the free count of the group, the counter of the superblock and
the descriptor on disk, or nothing of them. It does neither only where the descriptor cannot be
written any more, or where a bitmap that was changed cannot be changed back.
-/

namespace Mario.Fs.Ext2

open Mario.Lib Function

variable {m : Geometry} {s t u : State} {k : Kind} {g bit : ℕ} {a : Answers}

/-! ## The metadata blocks -/

namespace Geometry

theorem bitmap_mem (m : Geometry) (k : Kind) (hg : g < m.nrGroups) :
    m.bitmapBlock k g ∈ m.bitmaps k :=
  List.mem_map_of_mem (List.mem_range.mpr hg)

theorem bitmap_lt (m : Geometry) (k : Kind) (hg : g < m.nrGroups) : m.bitmapBlock k g < m.blocksCount := by
  refine m.metadata_lt _ ?_
  have hmem := m.bitmap_mem k hg
  cases k <;> simp [Layout.metadata, hmem]

theorem descPerBlock_pos (m : Geometry) : 0 < m.descPerBlock := by
  unfold Layout.descPerBlock
  rcases m.blockSize_eq with h | h | h <;> rw [h] <;> decide

theorem blockSize_pos (m : Geometry) : 0 < m.blockSize := by
  rcases m.blockSize_eq with h | h | h <;> omega

theorem desc_mem (m : Geometry) (hg : g < m.nrGroups) : m.descBlock g ∈ m.descBlocks := by
  refine List.mem_map.mpr ⟨g / m.descPerBlock, List.mem_range.mpr ?_, rfl⟩
  rw [Nat.div_lt_iff_lt_mul m.descPerBlock_pos]
  have hlast := Nat.lt_div_mul_add m.descPerBlock_pos (a := m.nrGroups + m.descPerBlock - 1)
  omega

theorem desc_lt (m : Geometry) (hg : g < m.nrGroups) : m.descBlock g < m.blocksCount := by
  refine m.metadata_lt _ ?_
  simp [Layout.metadata, m.desc_mem hg]

theorem bitmap_inj (m : Geometry) {k' : Kind} {g' : ℕ} (hg : g < m.nrGroups)
    (hg' : g' < m.nrGroups) (h : m.bitmapBlock k g = m.bitmapBlock k' g') : k = k' ∧ g = g' := by
  have hbitmaps := (List.nodup_append.mp (List.nodup_append.mp m.metadata_nodup).1).1
  obtain ⟨hblock, hinode, hdisjoint⟩ := List.nodup_append.mp hbitmaps
  have hinj (k : Kind) (hk : m.bitmapBlock k g = m.bitmapBlock k g') : g = g' := by
    have hnodup : (m.bitmaps k).Nodup := by cases k <;> assumption
    exact List.inj_on_of_nodup_map hnodup (List.mem_range.mpr hg) (List.mem_range.mpr hg') hk
  cases k <;> cases k'
  · exact ⟨rfl, hinj _ h⟩
  · exact absurd h (hdisjoint _ (m.bitmap_mem .block hg) _ (m.bitmap_mem .inode hg'))
  · exact absurd h.symm (hdisjoint _ (m.bitmap_mem .block hg') _ (m.bitmap_mem .inode hg))
  · exact ⟨rfl, hinj _ h⟩

theorem desc_ne_bitmap (m : Geometry) (k : Kind) {g' : ℕ} (hg : g < m.nrGroups)
    (hg' : g' < m.nrGroups) : m.descBlock g ≠ m.bitmapBlock k g' := by
  have hdisjoint := (List.nodup_append.mp (List.nodup_append.mp m.metadata_nodup).1).2.2
  have hmem := m.bitmap_mem k hg'
  refine (hdisjoint _ ?_ _ (m.desc_mem hg)).symm
  cases k <;> simp [hmem]

theorem table_ne (m : Geometry) {b : ℕ} (hb : b ∈ m.tables) (hg : g < m.nrGroups) :
    (∀ k, m.bitmapBlock k g ≠ b) ∧ m.descBlock g ≠ b := by
  have hdisjoint := (List.nodup_append.mp m.metadata_nodup).2.2
  constructor
  · intro k
    have hmem := m.bitmap_mem k hg
    refine hdisjoint _ ?_ _ hb
    cases k <;> simp [hmem]
  · exact hdisjoint _ (by simp [m.desc_mem hg]) _ hb

/-- Two descriptors are in different blocks or at different places of their block. -/
theorem desc_apart (m : Geometry) {g' : ℕ} (hne : g' ≠ g) (h : m.descBlock g' = m.descBlock g) :
    m.descOffset g' + 32 ≤ m.descOffset g ∨ m.descOffset g + 32 ≤ m.descOffset g' := by
  unfold Layout.descBlock at h
  unfold Layout.descOffset
  have hdiv : g' / m.descPerBlock = g / m.descPerBlock := by omega
  have hmod : g' % m.descPerBlock ≠ g % m.descPerBlock := by
    intro hmod
    apply hne
    rw [← Nat.div_add_mod g' m.descPerBlock, ← Nat.div_add_mod g m.descPerBlock, hdiv, hmod]
  omega

theorem groupBlocks_eq (m : Layout) (g : ℕ) :
    m.groupBlocks g = min (m.blocksCount - m.groupStart g) m.blocksPerGroup := by
  unfold Layout.groupBlocks
  split_ifs <;> omega

theorem valid_lt (m : Geometry) (k : Kind) (g : ℕ) : m.valid k g < 2 ^ 16 := by
  have hsize := m.blockSize_eq
  have hblocks := m.blocksPerGroup_le
  have hinodes := m.inodesPerGroup_le
  cases k
  · simp only [Layout.valid, Layout.groupBlocks]
    split_ifs <;> omega
  · simp only [Layout.valid]
    omega

end Geometry

/-! ## What is kept in step -/

/-- Where the free count is in a group descriptor. -/
def countOffset : Kind → ℕ
  | .block => 12
  | .inode => 14

/-- The free count in the group descriptor on disk. -/
def diskFree (m : Layout) (s : State) (k : Kind) (g : ℕ) : BitVec 16 :=
  read16 (s.disk (m.descBlock g)) (m.descOffset g + countOffset k)

/-- The counts agree with the bitmaps and with each other. -/
structure Consistent (m : Layout) (s : State) : Prop where
  /-- The free count of a group is the number of zero bits among the valid ones. -/
  group : ∀ k, ∀ g < m.nrGroups,
    (s.groupFree k g).toNat = Bitmap.zeros (s.disk (m.bitmapBlock k g)) (m.valid k g)
  /-- The counter of the superblock is the sum over the groups. -/
  super : ∀ k, (s.free k).toNat = total (fun g => (s.groupFree k g).toNat) (List.range m.nrGroups)
  /-- The descriptors on disk are the ones in memory. -/
  desc : ∀ k, ∀ g < m.nrGroups, diskFree m s k g = s.groupFree k g

/-- Nothing of it has changed. -/
structure Same (m : Layout) (s t : State) : Prop where
  bitmap : ∀ k, ∀ g < m.nrGroups, t.disk (m.bitmapBlock k g) = s.disk (m.bitmapBlock k g)
  desc : ∀ g < m.nrGroups, t.disk (m.descBlock g) = s.disk (m.descBlock g)
  groupFree : t.groupFree = s.groupFree
  free : t.free = s.free

/-- Whether a block is marked in its bitmap. -/
def blockUsed (m : Layout) (s : State) (b : ℕ) : Bool :=
  Bitmap.bit (s.disk (m.bitmapBlock .block ((b - m.firstDataBlock) / m.blocksPerGroup)))
    ((b - m.firstDataBlock) % m.blocksPerGroup)

/-- Whether an inode is marked in its bitmap. -/
def inodeUsed (m : Layout) (s : State) (ino : ℕ) : Bool :=
  Bitmap.bit (s.disk (m.bitmapBlock .inode ((ino - 1) / m.inodesPerGroup)))
    ((ino - 1) % m.inodesPerGroup)

/-- What a call promises. -/
structure Answered (m : Layout) (s : State) (l : Label) : Prop where
  /-- After an error everything is as it was. -/
  error : ∀ e, (run m s l).1 = .error e → Same m s (run m s l).2
  /-- A block that is returned is a block of the file system that was free and is not any more. -/
  block : ∀ goal b, l.call = .allocBlock goal → (run m s l).1 = .ok (some b) →
    m.firstDataBlock ≤ b ∧ b < m.blocksCount ∧ blockUsed m s b = false ∧
      blockUsed m (run m s l).2 b = true
  /-- The same for an inode. -/
  inode : ∀ mode ino, l.call = .allocInode mode → (run m s l).1 = .ok (some ino) →
    0 < ino ∧ ino ≤ m.inodesCount ∧ inodeUsed m s ino = false ∧
      inodeUsed m (run m s l).2 ino = true

/-- The bit of a group that a call changes, if it comes to that group. -/
def target (m : Layout) (s : State) (c : Call) (g : ℕ) : Option ℕ :=
  match c with
  | .allocBlock _ =>
      Bitmap.findFirstZeroBit (s.disk (m.bitmapBlock .block g)) (m.scanned .block g)
  | .allocInode _ =>
      Bitmap.findFirstZeroBit (s.disk (m.bitmapBlock .inode g)) (m.scanned .inode g)
  | .freeBlock b =>
      if g = (b - m.firstDataBlock) / m.blocksPerGroup then some (b - m.groupStart g) else none
  | .freeInode ino =>
      if g = (ino - 1) / m.inodesPerGroup then some ((ino - 1) % m.inodesPerGroup) else none

def Write.ok : Write → Bool
  | .done => true
  | .failed _ => false

/-- The steps after the change of a bitmap succeed: the descriptor is written, and the sector with
the changed bit is written again when the bit has to be changed back. -/
structure Good (m : Layout) (s : State) (l : Label) : Prop where
  descMem : l.answers.descMem = true
  descRead : l.answers.descRead = true
  descWrite : l.answers.descWrite.ok = true
  undo : ∀ g < m.nrGroups, ∀ bit ∈ target m s l.call g,
    (l.answers.bitmapWrite g).wrote (bit / 4096) = true →
      (l.answers.undoWrite g).wrote (bit / 4096) = true

/-- The calls one after the other. -/
def Step (m : Layout) (s : State) (l : Label) (t : State) : Prop := t = (run m s l).2

namespace Same

theorem refl (m : Layout) (s : State) : Same m s s :=
  ⟨fun _ _ _ => rfl, fun _ _ => rfl, rfl, rfl⟩

theorem trans {m : Layout} (h : Same m s t) (h' : Same m t u) : Same m s u where
  bitmap k g hg := (h'.bitmap k g hg).trans (h.bitmap k g hg)
  desc g hg := (h'.desc g hg).trans (h.desc g hg)
  groupFree := h'.groupFree.trans h.groupFree
  free := h'.free.trans h.free

end Same

theorem Same.consistent {m : Layout} (h : Same m s t) (hs : Consistent m s) : Consistent m t where
  group k g hg := by rw [h.groupFree, h.bitmap k g hg, hs.group k g hg]
  super k := by rw [h.free, h.groupFree, hs.super k]
  desc k g hg := by rw [diskFree, h.desc g hg, h.groupFree, ← hs.desc k g hg, diskFree]

/-! ## Blocks that are read and written -/

theorem readBlock_cases (m : Layout) (s : State) (b : ℕ) (ok : Bool) :
    (∃ e, readBlock m s b ok = .error e) ∨ readBlock m s b ok = .ok (s.disk b) := by
  unfold readBlock
  split_ifs
  · exact Or.inl ⟨_, rfl⟩
  · exact Or.inr rfl
  · exact Or.inl ⟨_, rfl⟩

theorem writeBlock_eq {m : Layout} {b : ℕ} (hb : b < m.blocksCount) (buf : Buffer) (w : Write) :
    writeBlock m s b buf w =
      (if w.ok then .ok () else .error .eio,
        { s with disk := update s.disk b (w.apply (s.disk b) buf) }) := by
  unfold writeBlock
  rw [if_neg (by omega)]
  cases w <;> rfl

theorem Write.apply_of_ok {w : Write} (h : w.ok = true) (old new : Buffer) : w.apply old new = new := by
  cases w with
  | done => rfl
  | failed sectors => cases h

/-- Writing another block than the bitmaps and the descriptors. -/
theorem Same.writeBlock_table {b : ℕ} (hb : b ∈ m.tables) (buf : Buffer) (w : Write) :
    Same m.toLayout s (writeBlock m.toLayout s b buf w).2 := by
  have hlt : b < m.blocksCount := m.metadata_lt b (by simp [Layout.metadata, hb])
  rw [writeBlock_eq hlt]
  constructor
  · intro k g hg
    exact update_of_ne ((m.table_ne hb hg).1 k) _ _
  · intro g hg
    exact update_of_ne (m.table_ne hb hg).2 _ _
  · rfl
  · rfl

/-- A change of a bit that is written and then written back. -/
theorem Write.apply_undo {b : Buffer} {n : ℕ} {v : Bool} {w w' : Write} (hbit : Bitmap.bit b n = !v)
    (hundo : w.wrote (n / 4096) = true → w'.wrote (n / 4096) = true) :
    w'.apply (w.apply b (Bitmap.put b n v)) (Bitmap.put (Bitmap.put b n v) n (!v)) = b := by
  rw [Bitmap.put_put v hbit]
  funext o
  unfold Write.apply
  by_cases ho : o = n / 8
  · have hsector : o / 512 = n / 4096 := by omega
    rw [hsector]
    split_ifs with h' h
    · rfl
    · exact absurd (hundo h) h'
    · rfl
  · rw [Bitmap.put_apply_ne b v ho, ite_self, ite_self]

theorem Same.undo {v : Bool} {w w' : Write} {r : Outcome Unit} (hg : g < m.nrGroups)
    (hbit : Bitmap.bit (s.disk (m.bitmapBlock k g)) bit = !v)
    (hundo : w.wrote (bit / 4096) = true → w'.wrote (bit / 4096) = true)
    (hwrite : writeBlock m.toLayout s (m.bitmapBlock k g) (Bitmap.put (s.disk (m.bitmapBlock k g)) bit v) w = (r, u))
    (hsame : Same m.toLayout u t) : Same m.toLayout s
      (writeBlock m.toLayout t (m.bitmapBlock k g)
        (Bitmap.put (Bitmap.put (s.disk (m.bitmapBlock k g)) bit v) bit (!v)) w').2 := by
  rw [writeBlock_eq (m.bitmap_lt k hg)] at hwrite ⊢
  obtain ⟨-, rfl⟩ := Prod.mk.inj hwrite
  constructor
  · intro k' g' hg'
    by_cases hb : m.bitmapBlock k' g' = m.bitmapBlock k g
    · have hold := hsame.bitmap k g hg
      dsimp only at hold ⊢
      rw [update_self] at hold
      rw [hb, update_self, hold]
      exact Write.apply_undo hbit hundo
    · have hold := hsame.bitmap k' g' hg'
      dsimp only at hold ⊢
      rw [update_of_ne hb] at hold ⊢
      exact hold
  · intro g' hg'
    have hne := m.desc_ne_bitmap k hg' hg
    have hold := hsame.desc g' hg'
    dsimp only at hold ⊢
    rw [update_of_ne hne] at hold ⊢
    exact hold
  · exact hsame.groupFree
  · exact hsame.free

/-! ## The inode of a new file -/

theorem zeroChunks_same (a : Answers) (s : State) (block offset left i : ℕ)
    (h : ∀ j, j * m.blockSize < offset + left → block + j ∈ m.tables) :
    Same m.toLayout s (zeroChunks m.toLayout a s block offset left i).2 := by
  induction left using Nat.strong_induction_on generalizing s block offset i with
  | _ left ih =>
    rw [zeroChunks]
    by_cases hmore : 0 < left ∧ offset < m.blockSize
    · rw [dif_pos hmore]
      rcases readBlock_cases m.toLayout s block (a.zeroRead i) with
        ⟨e, hread⟩ | hread
      · rw [hread]
        exact Same.refl _ s
      · rw [hread]
        dsimp only
        have hblock : block ∈ m.tables := by simpa using h 0 (by omega)
        generalize hbuf : (fun o => if offset ≤ o ∧ o < offset + min left (m.blockSize - offset)
          then (0 : Byte) else s.disk block o) = buf
        have hwrite := Same.writeBlock_table (s := s) hblock buf (a.zeroWrite i)
        rcases hw : writeBlock m.toLayout s block buf (a.zeroWrite i) with ⟨e | _, s'⟩
        · rw [hw] at hwrite
          exact hwrite
        · rw [hw] at hwrite
          refine hwrite.trans (ih _ (by omega) s' (block + 1) 0 (i + 1) fun j hj => ?_)
          have hnext : (j + 1) * m.blockSize < offset + left := by
            rw [Nat.add_mul]
            omega
          have hmem := h (j + 1) hnext
          rwa [show block + (j + 1) = block + 1 + j by omega] at hmem
    · rw [dif_neg hmore]
      exact Same.refl _ s

theorem inodeLocation_mem {ino block offset : ℕ} (h : inodeLocation m.toLayout ino = .ok (block, offset)) {j : ℕ}
    (hj : j * m.blockSize < offset + m.inodeSize) : block + j ∈ m.tables := by
  unfold inodeLocation at h
  split_ifs at h with h0 hgroup
  obtain ⟨rfl, rfl⟩ := Prod.mk.inj (Except.ok.inj h)
  set index := (ino - 1) % m.inodesPerGroup with hindex
  have hlt : index < m.inodesPerGroup := Nat.mod_lt _ m.inodesPerGroup_pos
  refine List.mem_flatMap.mpr ⟨(ino - 1) / m.inodesPerGroup, List.mem_range.mpr (by omega), ?_⟩
  refine List.mem_map.mpr ⟨index * m.inodeSize / m.blockSize + j, List.mem_range.mpr ?_, by omega⟩
  unfold Layout.tableBlocks
  have hbs := m.blockSize_pos
  have hend : (index + 1) * m.inodeSize ≤ m.inodesPerGroup * m.inodeSize :=
    Nat.mul_le_mul_right _ hlt
  have hdiv := Nat.div_add_mod (index * m.inodeSize) m.blockSize
  rw [Nat.add_mul, Nat.one_mul] at hend
  have hfirst : (index * m.inodeSize / m.blockSize + j) * m.blockSize <
      m.inodesPerGroup * m.inodeSize := by
    rw [Nat.add_mul, Nat.mul_comm (index * m.inodeSize / m.blockSize)]
    omega
  rw [Nat.lt_div_iff_mul_lt hbs]
  omega

theorem zeroInode_same (a : Answers) (s : State) (ino : ℕ) : Same m.toLayout s (zeroInode m.toLayout a s ino).2 := by
  unfold zeroInode
  rcases hloc : inodeLocation m.toLayout ino with e | ⟨block, offset⟩
  · exact Same.refl _ s
  · dsimp only
    split_ifs
    · exact Same.refl _ s
    · exact zeroChunks_same a s block offset _ 0 fun j hj => inodeLocation_mem hloc hj

theorem setInodeMode_same (a : Answers) (s : State) (ino : ℕ) (mode : BitVec 16) :
    Same m.toLayout s (setInodeMode m.toLayout a s ino mode).2 := by
  unfold setInodeMode
  rcases hloc : inodeLocation m.toLayout ino with e | ⟨block, offset⟩
  · exact Same.refl _ s
  · have hblock : block ∈ m.tables := by
      have hpos := m.inodeSize_pos
      have hmem := inodeLocation_mem hloc (j := 0) (by omega)
      simpa using hmem
    dsimp only
    by_cases hmem : a.modeMem
    · rw [hmem]
      rcases readBlock_cases m.toLayout s block a.modeRead with
        ⟨e, hread⟩ | hread
      · rw [hread]
        exact Same.refl _ s
      · rw [hread]
        exact Same.writeBlock_table hblock _ _
    · rw [Bool.eq_false_iff.mpr hmem]
      exact Same.refl _ s

theorem prepareInode_same (mode : BitVec 16) (a : Answers) (s : State) (g bit : ℕ) :
    Same m.toLayout s (prepareInode m.toLayout mode a s g bit).2 := by
  unfold prepareInode
  split_ifs
  · exact Same.refl _ s
  · have hzero := zeroInode_same (m := m) a s (inodeNumber m.toLayout g bit)
    rcases h : zeroInode m.toLayout a s (inodeNumber m.toLayout g bit) with ⟨e | _, s'⟩
    · rw [h] at hzero
      exact hzero
    · rw [h] at hzero
      exact hzero.trans (setInodeMode_same a s' _ mode)

/-! ## A change that goes through -/

/-- The counters after a bit was set or cleared. -/
def State.count (s : State) (k : Kind) (g : ℕ) (v : Bool) : State :=
  if v then s.take k g else s.give k g

/-- A bit of a bitmap has changed, with the counts and the descriptor on disk. -/
structure Changed (m : Layout) (s : State) (k : Kind) (g bit : ℕ) (v : Bool) (t : State) : Prop where
  bitmap : t.disk (m.bitmapBlock k g) = Bitmap.put (s.disk (m.bitmapBlock k g)) bit v
  other : ∀ k', ∀ g' < m.nrGroups, ¬ (k' = k ∧ g' = g) →
    t.disk (m.bitmapBlock k' g') = s.disk (m.bitmapBlock k' g')
  groupFree : t.groupFree = (s.count k g v).groupFree
  free : t.free = (s.count k g v).free
  desc : ∀ k', ∀ g' < m.nrGroups, diskFree m t k' g' = t.groupFree k' g'

@[simp] theorem count_disk (s : State) (k : Kind) (g : ℕ) (v : Bool) : (s.count k g v).disk = s.disk := by
  cases v <;> rfl

theorem count_groupFree_self (s : State) (k : Kind) (g : ℕ) (v : Bool) :
    (s.count k g v).groupFree k g = if v then s.groupFree k g - 1 else s.groupFree k g + 1 := by
  cases v <;> simp [State.count, State.take, State.give]

theorem count_groupFree_other (s : State) {k' : Kind} {g' : ℕ} (v : Bool)
    (h : ¬ (k' = k ∧ g' = g)) : (s.count k g v).groupFree k' g' = s.groupFree k' g' := by
  by_cases hk : k' = k
  · have hg : g' ≠ g := fun hg => h ⟨hk, hg⟩
    subst hk
    cases v <;> simp [State.count, State.take, State.give, hg]
  · cases v <;> simp [State.count, State.take, State.give, hk]

theorem count_free_self (s : State) (k : Kind) (g : ℕ) (v : Bool) :
    (s.count k g v).free k = if v then s.free k - 1 else s.free k + 1 := by
  cases v <;> simp [State.count, State.take, State.give]

theorem count_free_other (s : State) {k' : Kind} (g : ℕ) (v : Bool) (h : k' ≠ k) :
    (s.count k g v).free k' = s.free k' := by
  cases v <;> simp [State.count, State.take, State.give, h]

theorem count_congr {v : Bool} (hgroup : t.groupFree = s.groupFree) (hfree : t.free = s.free) :
    (t.count k g v).groupFree = (s.count k g v).groupFree ∧ (t.count k g v).free = (s.count k g v).free := by
  cases v <;> simp [State.count, State.take, State.give, hgroup, hfree]

/-- The block of a group descriptor with the descriptor from memory. -/
def descBuffer (m : Layout) (s : State) (g : ℕ) : Buffer := fun o =>
  if m.descOffset g ≤ o ∧ o < m.descOffset g + 32 then descBytes m s g (o - m.descOffset g)
  else s.disk (m.descBlock g) o

theorem descBuffer_add {m : Layout} {o : ℕ} (ho : o < 32) :
    descBuffer m s g (m.descOffset g + o) = descBytes m s g o := by
  rw [descBuffer, if_pos (by omega), Nat.add_sub_cancel_left]

theorem descBuffer_other {m : Layout} {o : ℕ} (ho : o < m.descOffset g ∨ m.descOffset g + 32 ≤ o) :
    descBuffer m s g o = s.disk (m.descBlock g) o := by
  rw [descBuffer, if_neg (by omega)]

theorem writeGroupDesc_eq (hg : g < m.nrGroups) (hmem : a.descMem = true)
    (hread : a.descRead = true) (hwrite : a.descWrite.ok = true) :
    writeGroupDesc m.toLayout s g a =
      (.ok (), { s with
        disk := update s.disk (m.descBlock g) (descBuffer m.toLayout s g) }) := by
  have hlt := m.desc_lt hg
  have hok : readBlock m.toLayout s (m.descBlock g) a.descRead = .ok (s.disk (m.descBlock g)) := by
    rw [readBlock, if_neg (by omega), hread, if_pos rfl]
  rw [writeGroupDesc, if_neg (by omega), hmem, hok]
  dsimp only
  rw [if_neg (by decide), writeBlock_eq hlt, hwrite, if_pos rfl, Write.apply_of_ok hwrite]
  rfl

theorem halves_eq (x : BitVec 16) : x.extractLsb' 8 8 ++ x.setWidth 8 = x := by
  apply BitVec.eq_of_getLsbD_eq
  intro i hi
  rw [BitVec.getLsbD_append, BitVec.getLsbD_extractLsb', BitVec.getLsbD_setWidth]
  split_ifs with h
  · simp [h]
  · have hlt : i - 8 < 8 := by omega
    rw [decide_eq_true hlt, Bool.true_and]
    congr 1
    omega

theorem read16_descBytes (m : Layout) (s : State) (k : Kind) (g : ℕ) :
    read16 (descBytes m s g) (countOffset k) = s.groupFree k g := by
  cases k
  · exact halves_eq (s.groupFree .block g)
  · exact halves_eq (s.groupFree .inode g)

theorem countOffset_lt (k : Kind) : countOffset k + 1 < 32 := by
  cases k <;> decide

/-- The descriptor of the group is written, and no other one is touched. -/
theorem diskFree_descBuffer (m : Geometry) (s : State) (g : ℕ) (k' : Kind) (g' : ℕ) :
    diskFree m.toLayout { s with
        disk := update s.disk (m.descBlock g) (descBuffer m.toLayout s g) } k' g' =
      if g' = g then s.groupFree k' g' else diskFree m.toLayout s k' g' := by
  have hk := countOffset_lt k'
  unfold diskFree read16
  split_ifs with hgg
  · subst hgg
    dsimp only
    rw [update_self, ← read16_descBytes m.toLayout s k' g', read16, Nat.add_assoc,
      descBuffer_add hk, descBuffer_add (by omega)]
  · dsimp only
    by_cases hb : m.descBlock g' = m.descBlock g
    · have hapart := m.desc_apart hgg hb
      rw [hb, update_self, descBuffer_other (by omega), descBuffer_other (by omega)]
    · rw [update_of_ne hb]

/-- The bitmap is written, other blocks are written, the counters change and the descriptor is
written. -/
theorem Changed.of_writes {v : Bool} {w : Write} (hg : g < m.nrGroups)
    (hdesc : ∀ k, ∀ g < m.nrGroups, diskFree m.toLayout s k g = s.groupFree k g)
    (hwrite : writeBlock m.toLayout s (m.bitmapBlock k g)
      (Bitmap.put (s.disk (m.bitmapBlock k g)) bit v) w = (.ok (), u))
    (hsame : Same m.toLayout u t) :
    Changed m.toLayout s k g bit v { t.count k g v with
      disk := update t.disk (m.descBlock g) (descBuffer m.toLayout (t.count k g v) g) } := by
  rw [writeBlock_eq (m.bitmap_lt k hg)] at hwrite
  obtain ⟨hok, rfl⟩ := Prod.mk.inj hwrite
  have hw : w.ok = true := by
    by_contra hw
    rw [if_neg hw] at hok
    cases hok
  rw [Write.apply_of_ok hw] at hsame
  have hcount : _ ∧ _ :=
    count_congr (s := s) (t := t) (k := k) (g := g) (v := v) hsame.groupFree hsame.free
  constructor
  · have hold := hsame.bitmap k g hg
    dsimp only at hold ⊢
    rw [update_self] at hold
    rw [update_of_ne (m.desc_ne_bitmap k hg hg).symm, hold]
  · intro k' g' hg' hne
    have hold := hsame.bitmap k' g' hg'
    have hb : m.bitmapBlock k' g' ≠ m.bitmapBlock k g := fun hb => hne (m.bitmap_inj hg' hg hb)
    dsimp only at hold ⊢
    rw [update_of_ne hb] at hold
    rw [update_of_ne (m.desc_ne_bitmap k' hg hg').symm, hold]
  · exact hcount.1
  · exact hcount.2
  · intro k' g' hg'
    have hwritten := diskFree_descBuffer m (t.count k g v) g k' g'
    rw [count_disk] at hwritten
    rw [hwritten]
    split_ifs with hgg
    · rfl
    · have hne : ¬ (k' = k ∧ g' = g) := fun h => hgg h.2
      have hold := hsame.desc g' hg'
      dsimp only at hold ⊢
      rw [update_of_ne (m.desc_ne_bitmap k hg' hg)] at hold
      rw [count_groupFree_other t v hne, hsame.groupFree, ← hdesc k' g' hg', diskFree, count_disk, hold, diskFree]

/-! ## What a call can do -/

theorem total_valid_le (m : Geometry) (k : Kind) : total (m.valid k) (List.range m.nrGroups) < 2 ^ 32 := by
  -- In any number of groups there are no more than the file system has.
  have hsum (c p n : ℕ) : total (fun g => min (c - g * p) p) (List.range n) ≤ min c (n * p) := by
    induction n with
    | zero => exact Nat.zero_le _
    | succ n ih =>
      rw [total_range_succ, Nat.add_mul]
      omega
  cases k
  · have hblocks : m.valid .block =
        fun g => min (m.blocksCount - m.firstDataBlock - g * m.blocksPerGroup) m.blocksPerGroup := by
      funext g
      rw [Layout.valid, Geometry.groupBlocks_eq, Layout.groupStart, Nat.sub_sub]
    have hle := hsum (m.blocksCount - m.firstDataBlock) m.blocksPerGroup m.nrGroups
    have hsectors := m.sectors_le
    rw [hblocks]
    rcases m.blockSize_eq with h | h | h <;> rw [h] at hsectors <;> omega
  · have hle := hsum m.inodesCount m.inodesPerGroup m.nrGroups
    have hlt := m.inodesCount_lt
    have hinodes : m.valid .inode = fun g => min (m.inodesCount - g * m.inodesPerGroup) m.inodesPerGroup := rfl
    rw [hinodes]
    omega

/-- A bit that changes with the counts leaves them consistent. -/
theorem Changed.consistent {v : Bool} (hc : Changed m.toLayout s k g bit v t)
    (hs : Consistent m.toLayout s) (hg : g < m.nrGroups) (hvalid : bit < m.valid k g)
    (hbit : Bitmap.bit (s.disk (m.bitmapBlock k g)) bit = !v) : Consistent m.toLayout t := by
  have hother (k' : Kind) (g' : ℕ) (hne : ¬ (k' = k ∧ g' = g)) :
      t.groupFree k' g' = s.groupFree k' g' := by
    rw [hc.groupFree, count_groupFree_other s v hne]
  have hold := hs.group k g hg
  have hbound := m.valid_lt k g
  have hle := Bitmap.zeros_le (s.disk (m.bitmapBlock k g)) (m.valid k g)
  have hsumle : total (fun g => (s.groupFree k g).toNat) (List.range m.nrGroups) ≤
      total (m.valid k) (List.range m.nrGroups) := by
    refine total_mono fun g' hg' => ?_
    rw [hs.group k g' (List.mem_range.mp hg')]
    exact Bitmap.zeros_le _ _
  have hself : (t.groupFree k g).toNat = Bitmap.zeros (t.disk (m.bitmapBlock k g)) (m.valid k g) ∧
      (t.free k).toNat + (s.groupFree k g).toNat = (s.free k).toNat + (t.groupFree k g).toNat := by
    have hsuper := hs.super k
    have hlt := total_valid_le m k
    have hge : (s.groupFree k g).toNat ≤ (s.free k).toNat := by
      rw [hsuper]
      exact le_total (k := g) (l := List.range m.nrGroups)
        (g := fun g => (s.groupFree k g).toNat) (by simp [hg])
    rw [hc.bitmap, hc.groupFree, count_groupFree_self, hc.free, count_free_self]
    cases v
    · have hzeros := Bitmap.zeros_put_false hvalid hbit
      have hle' := Bitmap.zeros_le (Bitmap.put (s.disk (m.bitmapBlock k g)) bit false) (m.valid k g)
      -- A used bit is missing in the sum, so the counter of the superblock does not wrap.
      have hless : total (fun g => (s.groupFree k g).toNat) (List.range m.nrGroups) <
          total (m.valid k) (List.range m.nrGroups) := by
        have hchange := total_range_change (f := fun g => (s.groupFree k g).toNat)
          (e := update (fun g => (s.groupFree k g).toNat) g ((s.groupFree k g).toNat + 1)) hg
          fun g' hg' => update_of_ne hg' _ _
        have hmono : total (update (fun g => (s.groupFree k g).toNat) g
            ((s.groupFree k g).toNat + 1)) (List.range m.nrGroups) ≤
            total (m.valid k) (List.range m.nrGroups) := by
          refine total_mono fun g' hg' => ?_
          by_cases hgg : g' = g
          · subst hgg
            rw [update_self]
            omega
          · rw [update_of_ne hgg, hs.group k g' (List.mem_range.mp hg')]
            exact Bitmap.zeros_le _ _
        rw [update_self] at hchange
        omega
      rw [if_neg Bool.false_ne_true, if_neg Bool.false_ne_true, BitVec.toNat_add, BitVec.toNat_add]
      change (_ + 1) % 2 ^ 16 = _ ∧ (_ + 1) % 2 ^ 32 + _ = _ + (_ + 1) % 2 ^ 16
      omega
    · have hzeros := Bitmap.zeros_put_true hvalid hbit
      rw [if_pos rfl, if_pos rfl, BitVec.toNat_sub, BitVec.toNat_sub]
      change (2 ^ 16 - 1 + _) % 2 ^ 16 = _ ∧ (2 ^ 32 - 1 + _) % 2 ^ 32 + _ = _ + (2 ^ 16 - 1 + _) % 2 ^ 16
      omega
  constructor
  · intro k' g' hg'
    by_cases hne : k' = k ∧ g' = g
    · obtain ⟨rfl, rfl⟩ := hne
      exact hself.1
    · rw [hother k' g' hne, hc.other k' g' hg' hne, hs.group k' g' hg']
  · intro k'
    by_cases hk : k' = k
    · subst hk
      have hchange := total_range_change (f := fun g => (s.groupFree k' g).toNat)
        (e := fun g => (t.groupFree k' g).toNat) hg fun g' hg' => by
          rw [hother k' g' fun h => hg' h.2]
      have hsuper := hs.super k'
      omega
    · rw [hc.free, count_free_other s g v hk, hs.super k']
      refine total_congr fun g' _ => ?_
      rw [hother k' g' fun h => hk h.1]
  · exact hc.desc

section

variable (prepare : State → ℕ → ℕ → Outcome Unit × State)
  (hprepare : ∀ s g bit, Same m.toLayout s (prepare s g bit).2)
  (hmem : a.descMem = true) (hread : a.descRead = true) (hwrite : a.descWrite.ok = true)
  (hdesc : ∀ k, ∀ g < m.nrGroups, diskFree m.toLayout s k g = s.groupFree k g)

include hmem hread hwrite hdesc

theorem freeBit_cases (hg : g < m.nrGroups)
    (hundo : (a.bitmapWrite g).wrote (bit / 4096) = true → (a.undoWrite g).wrote (bit / 4096) = true) :
    (∃ e t, freeBit m.toLayout k a s g bit = (.error e, t) ∧ Same m.toLayout s t) ∨
      ∃ t, freeBit m.toLayout k a s g bit = (.ok (), t) ∧
        Bitmap.bit (s.disk (m.bitmapBlock k g)) bit = true ∧ Changed m.toLayout s k g bit false t := by
  unfold freeBit
  by_cases hbuf : a.bufferMem
  · rw [if_neg (by simp [hbuf])]
    rcases readBlock_cases m.toLayout s (m.bitmapBlock k g) (a.bitmapRead g) with ⟨e, h⟩ | h
    · rw [h]
      exact Or.inl ⟨e, s, rfl, Same.refl _ s⟩
    · rw [h]
      dsimp only
      by_cases hbit : Bitmap.bit (s.disk (m.bitmapBlock k g)) bit = true
      · rw [if_neg (by simp [hbit])]
        rcases hw : writeBlock m.toLayout s (m.bitmapBlock k g)
          (Bitmap.put (s.disk (m.bitmapBlock k g)) bit false) (a.bitmapWrite g) with ⟨e | _, u⟩
        · exact Or.inl ⟨_, _, rfl, Same.undo hg hbit hundo hw (Same.refl _ u)⟩
        · dsimp only
          rw [writeGroupDesc_eq hg hmem hread hwrite]
          exact Or.inr ⟨_, rfl, hbit, Changed.of_writes hg hdesc hw (Same.refl _ u)⟩
      · rw [if_pos (by simp [hbit])]
        exact Or.inl ⟨_, s, rfl, Same.refl _ s⟩
  · rw [if_pos (by simp [hbuf])]
    exact Or.inl ⟨_, s, rfl, Same.refl _ s⟩

include hprepare

/-- A round of an allocation ends the search with nothing changed, goes on, or sets the first zero
bit. -/
theorem allocIn_cases (hg : g < m.nrGroups)
    (hundo : ∀ bit, Bitmap.findFirstZeroBit (s.disk (m.bitmapBlock k g)) (m.scanned k g) = some bit →
      (a.bitmapWrite g).wrote (bit / 4096) = true → (a.undoWrite g).wrote (bit / 4096) = true) :
    (∃ e t, allocIn m.toLayout k a prepare s g = (.error e, t) ∧ Same m.toLayout s t) ∨
      allocIn m.toLayout k a prepare s g = (.ok none, s) ∨
      ∃ bit t, allocIn m.toLayout k a prepare s g = (.ok (some bit), t) ∧
        Bitmap.findFirstZeroBit (s.disk (m.bitmapBlock k g)) (m.scanned k g) = some bit ∧
        Changed m.toLayout s k g bit true t := by
  unfold allocIn
  rcases readBlock_cases m.toLayout s (m.bitmapBlock k g) (a.bitmapRead g) with ⟨e, h⟩ | h
  · rw [h]
    exact Or.inl ⟨e, s, rfl, Same.refl _ s⟩
  · rw [h]
    rcases hfind : Bitmap.findFirstZeroBit (s.disk (m.bitmapBlock k g)) (m.scanned k g) with _ | bit
    · dsimp only
      rw [hfind]
      exact Or.inr (Or.inl rfl)
    · dsimp only
      rw [hfind]
      dsimp only
      have hbit := (Bitmap.findFirstZeroBit_eq_some hfind).2.1
      rcases hw : writeBlock m.toLayout s (m.bitmapBlock k g)
        (Bitmap.put (s.disk (m.bitmapBlock k g)) bit true) (a.bitmapWrite g) with ⟨e | _, u⟩
      · exact Or.inl ⟨_, _, rfl, Same.undo hg hbit (hundo bit hfind) hw (Same.refl _ u)⟩
      · dsimp only
        have hprep := hprepare u g bit
        rcases hp : prepare u g bit with ⟨e | _, u'⟩
        · rw [hp] at hprep
          exact Or.inl ⟨_, _, rfl, Same.undo hg hbit (hundo bit hfind) hw hprep⟩
        · rw [hp] at hprep
          dsimp only
          rw [writeGroupDesc_eq hg hmem hread hwrite]
          exact Or.inr (Or.inr ⟨bit, _, rfl, rfl, Changed.of_writes hg hdesc hw hprep⟩)

/-- The loop over the groups changes nothing, or it sets the first zero bit of a group that has a
free one. -/
theorem allocLoop_cases {gs : List ℕ} (hgs : ∀ g ∈ gs, g < m.nrGroups)
    (hundo : ∀ g ∈ gs, ∀ bit,
      Bitmap.findFirstZeroBit (s.disk (m.bitmapBlock k g)) (m.scanned k g) = some bit →
      (a.bitmapWrite g).wrote (bit / 4096) = true → (a.undoWrite g).wrote (bit / 4096) = true) :
    (∃ e t, allocLoop m.toLayout k a prepare s gs = (.error e, t) ∧ Same m.toLayout s t) ∨
      ∃ g bit t, allocLoop m.toLayout k a prepare s gs = (.ok (g, bit), t) ∧ g < m.nrGroups ∧
        s.groupFree k g ≠ 0 ∧
        Bitmap.findFirstZeroBit (s.disk (m.bitmapBlock k g)) (m.scanned k g) = some bit ∧
        Changed m.toLayout s k g bit true t := by
  induction gs with
  | nil => exact Or.inl ⟨_, s, rfl, Same.refl _ s⟩
  | cons g gs ih =>
    have hrest := ih (fun g' hg' => hgs g' (List.mem_cons_of_mem g hg'))
      fun g' hg' => hundo g' (List.mem_cons_of_mem g hg')
    rw [allocLoop]
    split_ifs with hskip
    · exact hrest
    · have hg := hgs g List.mem_cons_self
      rcases allocIn_cases prepare hprepare hmem hread hwrite hdesc (k := k) hg
        (hundo g List.mem_cons_self) with ⟨e, t, h, hsame⟩ | h | ⟨bit, t, h, hfind, hchanged⟩
      · rw [h]
        exact Or.inl ⟨e, t, rfl, hsame⟩
      · rw [h]
        exact hrest
      · rw [h]
        exact Or.inr ⟨g, bit, t, rfl, hg, fun h0 => hskip (Or.inr h0), hfind, hchanged⟩

end

/-- The first zero bit of a group with a free count is a valid one. -/
theorem Consistent.found_valid (hs : Consistent m.toLayout s) (hg : g < m.nrGroups) (hfree : s.groupFree k g ≠ 0)
    (hfind : Bitmap.findFirstZeroBit (s.disk (m.bitmapBlock k g)) (m.scanned k g) = some bit) : bit < m.valid k g := by
  have hpos : 0 < (s.groupFree k g).toNat := by
    have hne : (s.groupFree k g).toNat ≠ 0 := fun h => hfree (BitVec.eq_of_toNat_eq h)
    omega
  rw [hs.group k g hg, Bitmap.zeros_pos] at hpos
  obtain ⟨j, hj, hzero⟩ := hpos
  have hfirst := (Bitmap.findFirstZeroBit_eq_some hfind).2.2
  by_contra hge
  have hused := hfirst j (by omega)
  rw [hzero] at hused
  cases hused

/-- A valid bit has changed, with everything that belongs to it. -/
structure Flipped (m : Layout) (s : State) (k : Kind) (g bit : ℕ) (v : Bool) (t : State) : Prop where
  group : g < m.nrGroups
  valid : bit < m.valid k g
  old : Bitmap.bit (s.disk (m.bitmapBlock k g)) bit = !v
  changed : Changed m s k g bit v t

theorem Flipped.new {m : Layout} {v : Bool} (h : Flipped m s k g bit v t) :
    Bitmap.bit (t.disk (m.bitmapBlock k g)) bit = v := by
  rw [h.changed.bitmap, Bitmap.bit_put_self]

theorem ext2AllocBlock_cases {goal : ℕ} (hs : Consistent m.toLayout s)
    (hgood : Good m.toLayout s ⟨.allocBlock goal, a⟩) :
    (∃ e t, ext2AllocBlock m.toLayout goal a s = (.error e, t) ∧ Same m.toLayout s t) ∨
      ∃ g bit t, ext2AllocBlock m.toLayout goal a s = (.ok (m.groupStart g + bit), t) ∧
        Flipped m.toLayout s .block g bit true t := by
  unfold ext2AllocBlock
  by_cases hro : m.readonly
  · rw [if_pos hro]
    exact Or.inl ⟨_, s, rfl, Same.refl _ s⟩
  rw [if_neg hro]
  by_cases hfree : s.free .block = 0
  · rw [if_pos hfree]
    exact Or.inl ⟨_, s, rfl, Same.refl _ s⟩
  rw [if_neg hfree]
  by_cases hbuf : (!a.bufferMem) = true
  · rw [if_pos hbuf]
    exact Or.inl ⟨_, s, rfl, Same.refl _ s⟩
  rw [if_neg hbuf]
  have hgs : ∀ g ∈ (List.range m.nrGroups).map
      fun i => (firstGroup m.toLayout goal + i) % m.nrGroups, g < m.nrGroups := by
    intro g hg
    obtain ⟨i, hi, rfl⟩ := List.mem_map.mp hg
    have hlt := List.mem_range.mp hi
    exact Nat.mod_lt _ (by omega)
  rcases allocLoop_cases (k := .block) (fun s _ _ => (.ok (), s))
    (fun s _ _ => Same.refl m.toLayout s) hgood.descMem hgood.descRead hgood.descWrite hs.desc hgs
    fun g hg => hgood.undo g (hgs g hg) with ⟨e, t, h, hsame⟩ | ⟨g, bit, t, h, hg, hne, hfind, hc⟩
  · rw [h]
    exact Or.inl ⟨e, t, rfl, hsame⟩
  · rw [h]
    exact Or.inr ⟨g, bit, t, rfl, hg, hs.found_valid hg hne hfind, (Bitmap.findFirstZeroBit_eq_some hfind).2.1, hc⟩

theorem ext2AllocInode_cases {mode : BitVec 16} (hs : Consistent m.toLayout s)
    (hgood : Good m.toLayout s ⟨.allocInode mode, a⟩) :
    (∃ e t, ext2AllocInode m.toLayout mode a s = (.error e, t) ∧ Same m.toLayout s t) ∨
      ∃ g bit t, ext2AllocInode m.toLayout mode a s = (.ok (inodeNumber m.toLayout g bit), t) ∧
        Flipped m.toLayout s .inode g bit true t := by
  unfold ext2AllocInode
  by_cases hro : m.readonly
  · rw [if_pos hro]
    exact Or.inl ⟨_, s, rfl, Same.refl _ s⟩
  rw [if_neg hro]
  by_cases hfree : s.free .inode = 0
  · rw [if_pos hfree]
    exact Or.inl ⟨_, s, rfl, Same.refl _ s⟩
  rw [if_neg hfree]
  by_cases hbuf : (!a.bufferMem) = true
  · rw [if_pos hbuf]
    exact Or.inl ⟨_, s, rfl, Same.refl _ s⟩
  rw [if_neg hbuf]
  rcases allocLoop_cases (k := .inode) (prepareInode m.toLayout mode a)
    (prepareInode_same mode a) hgood.descMem hgood.descRead hgood.descWrite hs.desc
    (fun g hg => List.mem_range.mp hg) fun g hg => hgood.undo g (List.mem_range.mp hg) with
    ⟨e, t, h, hsame⟩ | ⟨g, bit, t, h, hg, hne, hfind, hc⟩
  · rw [h]
    exact Or.inl ⟨e, t, rfl, hsame⟩
  · rw [h]
    exact Or.inr ⟨g, bit, t, rfl, hg, hs.found_valid hg hne hfind, (Bitmap.findFirstZeroBit_eq_some hfind).2.1, hc⟩

/-- A block number is in a group, and its bit is a valid one. -/
theorem block_valid {b : ℕ} (hfirst : m.firstDataBlock ≤ b) (hlt : b < m.blocksCount) :
    b - m.groupStart ((b - m.firstDataBlock) / m.blocksPerGroup) <
      m.valid .block ((b - m.firstDataBlock) / m.blocksPerGroup) := by
  have hpos := m.blocksPerGroup_pos
  have hmod := Nat.mod_lt (b - m.firstDataBlock) hpos
  have hdiv := Nat.div_add_mod' (b - m.firstDataBlock) m.blocksPerGroup
  rw [Layout.valid, Geometry.groupBlocks_eq, Layout.groupStart]
  omega

theorem inode_valid {ino : ℕ} (hpos : 0 < ino) (hle : ino ≤ m.inodesCount) :
    (ino - 1) % m.inodesPerGroup < m.valid .inode ((ino - 1) / m.inodesPerGroup) := by
  have hmod := Nat.mod_lt (ino - 1) m.inodesPerGroup_pos
  have hdiv := Nat.div_add_mod' (ino - 1) m.inodesPerGroup
  rw [Layout.valid]
  omega

theorem ext2FreeBlock_cases {b : ℕ} (hs : Consistent m.toLayout s) (hgood : Good m.toLayout s ⟨.freeBlock b, a⟩) :
    (∃ e t, ext2FreeBlock m.toLayout b a s = (.error e, t) ∧ Same m.toLayout s t) ∨
      ∃ g bit t, ext2FreeBlock m.toLayout b a s = (.ok (), t) ∧ Flipped m.toLayout s .block g bit false t := by
  unfold ext2FreeBlock
  by_cases hro : m.readonly
  · rw [if_pos hro]
    exact Or.inl ⟨_, s, rfl, Same.refl _ s⟩
  rw [if_neg hro]
  by_cases hrange : b < m.firstDataBlock ∨ m.blocksCount ≤ b
  · rw [if_pos hrange]
    exact Or.inl ⟨_, s, rfl, Same.refl _ s⟩
  rw [if_neg hrange]
  by_cases hgroup : m.nrGroups ≤ (b - m.firstDataBlock) / m.blocksPerGroup
  · rw [if_pos hgroup]
    exact Or.inl ⟨_, s, rfl, Same.refl _ s⟩
  rw [if_neg hgroup]
  have hg : (b - m.firstDataBlock) / m.blocksPerGroup < m.nrGroups := by omega
  rcases freeBit_cases (k := .block) hgood.descMem hgood.descRead hgood.descWrite hs.desc hg
    (hgood.undo _ hg _ (if_pos rfl)) with ⟨e, t, h, hsame⟩ | ⟨t, h, hbit, hc⟩
  · exact Or.inl ⟨e, t, h, hsame⟩
  · exact Or.inr ⟨_, _, t, h, hg, block_valid (by omega) (by omega), hbit, hc⟩

theorem ext2FreeInode_cases {ino : ℕ} (hs : Consistent m.toLayout s) (hgood : Good m.toLayout s ⟨.freeInode ino, a⟩) :
    (∃ e t, ext2FreeInode m.toLayout ino a s = (.error e, t) ∧ Same m.toLayout s t) ∨
      ∃ g bit t, ext2FreeInode m.toLayout ino a s = (.ok (), t) ∧ Flipped m.toLayout s .inode g bit false t := by
  unfold ext2FreeInode
  by_cases hrange : m.readonly ∨ ino = 0 ∨ m.inodesCount < ino
  · rw [if_pos hrange]
    exact Or.inl ⟨_, s, rfl, Same.refl _ s⟩
  rw [if_neg hrange]
  by_cases hgroup : m.nrGroups ≤ (ino - 1) / m.inodesPerGroup
  · rw [if_pos hgroup]
    exact Or.inl ⟨_, s, rfl, Same.refl _ s⟩
  rw [if_neg hgroup]
  have hg : (ino - 1) / m.inodesPerGroup < m.nrGroups := by omega
  rcases freeBit_cases (k := .inode) hgood.descMem hgood.descRead hgood.descWrite hs.desc hg
    (hgood.undo _ hg _ (if_pos rfl)) with ⟨e, t, h, hsame⟩ | ⟨t, h, hbit, hc⟩
  · exact Or.inl ⟨e, t, h, hsame⟩
  · refine Or.inr ⟨_, _, t, h, hg, inode_valid ?_ ?_, hbit, hc⟩
    · omega
    · omega

/-- What a call returns when it changes a bit. -/
def returned (m : Layout) : Call → ℕ → ℕ → Option ℕ
  | .allocBlock _, g, bit => some (m.groupStart g + bit)
  | .allocInode _, g, bit => some (inodeNumber m g bit)
  | .freeBlock _, _, _ => none
  | .freeInode _, _, _ => none

/-- The bitmap that a call changes, and whether it sets a bit. -/
def changes : Call → Kind × Bool
  | .allocBlock _ => (.block, true)
  | .allocInode _ => (.inode, true)
  | .freeBlock _ => (.block, false)
  | .freeInode _ => (.inode, false)

/-- A call returns an error and changes nothing, or it changes a valid bit with the counts. -/
theorem run_cases {l : Label} (hs : Consistent m.toLayout s) (hgood : Good m.toLayout s l) :
    (∃ e, (run m.toLayout s l).1 = .error e ∧ Same m.toLayout s (run m.toLayout s l).2) ∨
      ∃ g bit, (run m.toLayout s l).1 = .ok (returned m.toLayout l.call g bit) ∧
        Flipped m.toLayout s (changes l.call).1 g bit (changes l.call).2 (run m.toLayout s l).2 := by
  obtain ⟨call, a⟩ := l
  cases call with
  | allocBlock goal =>
    rcases ext2AllocBlock_cases hs hgood with ⟨e, t, h, hsame⟩ | ⟨g, bit, t, h, hflip⟩
    · left
      simp only [run, h]
      exact ⟨e, rfl, hsame⟩
    · right
      simp only [run, h]
      exact ⟨g, bit, rfl, hflip⟩
  | freeBlock b =>
    rcases ext2FreeBlock_cases hs hgood with ⟨e, t, h, hsame⟩ | ⟨g, bit, t, h, hflip⟩
    · left
      simp only [run, h]
      exact ⟨e, rfl, hsame⟩
    · right
      simp only [run, h]
      exact ⟨g, bit, rfl, hflip⟩
  | allocInode mode =>
    rcases ext2AllocInode_cases hs hgood with ⟨e, t, h, hsame⟩ | ⟨g, bit, t, h, hflip⟩
    · left
      simp only [run, h]
      exact ⟨e, rfl, hsame⟩
    · right
      simp only [run, h]
      exact ⟨g, bit, rfl, hflip⟩
  | freeInode ino =>
    rcases ext2FreeInode_cases hs hgood with ⟨e, t, h, hsame⟩ | ⟨g, bit, t, h, hflip⟩
    · left
      simp only [run, h]
      exact ⟨e, rfl, hsame⟩
    · right
      simp only [run, h]
      exact ⟨g, bit, rfl, hflip⟩

theorem Consistent.run {l : Label} (hs : Consistent m.toLayout s) (hgood : Good m.toLayout s l) :
    Consistent m.toLayout (run m.toLayout s l).2 := by
  rcases run_cases hs hgood with ⟨e, -, hsame⟩ | ⟨g, bit, -, hflip⟩
  · exact hsame.consistent hs
  · exact hflip.changed.consistent hs hflip.group hflip.valid hflip.old

theorem groupStart_div (hvalid : bit < m.valid .block g) :
    (m.groupStart g + bit - m.firstDataBlock) / m.blocksPerGroup = g ∧
      (m.groupStart g + bit - m.firstDataBlock) % m.blocksPerGroup = bit := by
  rw [Layout.valid, Geometry.groupBlocks_eq] at hvalid
  have hlt : bit < m.blocksPerGroup := by omega
  have heq : m.groupStart g + bit - m.firstDataBlock = g * m.blocksPerGroup + bit := by
    unfold Layout.groupStart
    omega
  rw [heq, Nat.mul_comm]
  exact ⟨by rw [Nat.mul_add_div m.blocksPerGroup_pos, Nat.div_eq_of_lt hlt, Nat.add_zero],
    by rw [Nat.mul_add_mod, Nat.mod_eq_of_lt hlt]⟩

theorem inodeNumber_div (hvalid : bit < m.valid .inode g) :
    (inodeNumber m.toLayout g bit - 1) / m.inodesPerGroup = g ∧
      (inodeNumber m.toLayout g bit - 1) % m.inodesPerGroup = bit := by
  rw [Layout.valid] at hvalid
  have hlt : bit < m.inodesPerGroup := by omega
  rw [inodeNumber, Nat.add_sub_cancel, Nat.mul_comm]
  exact ⟨by rw [Nat.mul_add_div m.inodesPerGroup_pos, Nat.div_eq_of_lt hlt, Nat.add_zero],
    by rw [Nat.mul_add_mod, Nat.mod_eq_of_lt hlt]⟩

theorem Consistent.answered {l : Label} (hs : Consistent m.toLayout s)
    (hgood : Good m.toLayout s l) : Answered m.toLayout s l := by
  rcases run_cases hs hgood with ⟨e, hr, hsame⟩ | ⟨g, bit, hr, hflip⟩
  · refine ⟨fun _ _ => hsame, fun goal b _ hb => ?_, fun mode ino _ hino => ?_⟩
    · rw [hr] at hb
      cases hb
    · rw [hr] at hino
      cases hino
  · refine ⟨fun e he => ?_, fun goal b hcall hb => ?_, fun mode ino hcall hino => ?_⟩
    · rw [hr] at he
      cases he
    · rw [hcall] at hr hflip
      rw [hr] at hb
      obtain rfl : m.groupStart g + bit = b := Option.some.inj (Except.ok.inj hb)
      obtain ⟨hdiv, hmod⟩ := groupStart_div hflip.valid
      have hvalid := hflip.valid
      simp only [changes, Layout.valid, Geometry.groupBlocks_eq] at hvalid
      refine ⟨by unfold Layout.groupStart; omega, by omega, ?_, ?_⟩
      · rw [blockUsed, hdiv, hmod]
        exact hflip.old
      · rw [blockUsed, hdiv, hmod]
        exact hflip.new
    · rw [hcall] at hr hflip
      rw [hr] at hino
      obtain rfl : inodeNumber m.toLayout g bit = ino := Option.some.inj (Except.ok.inj hino)
      obtain ⟨hdiv, hmod⟩ := inodeNumber_div hflip.valid
      have hvalid := hflip.valid
      simp only [changes, Layout.valid] at hvalid
      refine ⟨Nat.succ_pos _, by unfold inodeNumber; omega, ?_, ?_⟩
      · rw [inodeUsed, hdiv, hmod]
        exact hflip.old
      · rw [inodeUsed, hdiv, hmod]
        exact hflip.new

/-- As long as the steps after the change of a bitmap succeed, the counts agree with the bitmaps in
every state that is reached, a call that allocates returns something valid that was free, and a
call that returns an error has changed nothing. -/
theorem alloc_consistent (m : Geometry) {s₀ s : State} {ls : List Label}
    (hinit : Consistent m.toLayout s₀)
    (hrun : Run (Guarded (Good m.toLayout) (Step m.toLayout)) s₀ ls s) :
    Consistent m.toLayout s ∧ ∀ l, Good m.toLayout s l → Answered m.toLayout s l := by
  have hs : Consistent m.toLayout s := by
    refine hrun.invariant hinit ?_
    rintro u v l hu ⟨hgood, rfl⟩
    exact hu.run hgood
  exact ⟨hs, fun l hgood => hs.answered hgood⟩

/-! ## A file system with two groups -/

/-- Blocks of 1024 bytes, a first group of sixteen blocks and a second one of eight. -/
def twoGroups : Geometry where
  blockSize := 1024
  firstDataBlock := 1
  blocksCount := 25
  inodesCount := 16
  blocksPerGroup := 16
  inodesPerGroup := 8
  nrGroups := 2
  inodeSize := 128
  readonly := false
  groupDesc g o :=
    if o = 0 then (if g = 0 then 3 else 17)
    else if o = 4 then (if g = 0 then 4 else 18)
    else if o = 8 then (if g = 0 then 5 else 19)
    else 0
  blockSize_eq := Or.inl rfl
  firstDataBlock_eq := rfl
  first_lt := by decide
  blocksPerGroup_pos := by decide
  blocksPerGroup_le := by decide
  inodesPerGroup_pos := by decide
  inodesPerGroup_le := by decide
  nrGroups_eq := rfl
  inodesCount_le := by decide
  inodesCount_lt := by decide
  inodeSize_pos := by decide
  sectors_le := by decide
  metadata_lt := by decide
  metadata_nodup := by decide

/-- Only the metadata and two inodes are marked. -/
def emptyDisk : State where
  disk b o :=
    if b = 2 then
      if o = 12 then 11 else if o = 14 then 6 else if o = 44 then 5 else if o = 46 then 8 else 0
    else if b = 3 ∧ o = 0 then 0x1f
    else if b = 4 ∧ o = 0 then 0x03
    else if b = 17 ∧ o = 0 then 0x07
    else 0
  groupFree k g :=
    match k with
    | .block => if g = 0 then 11 else 5
    | .inode => if g = 0 then 6 else 8
  free k :=
    match k with
    | .block => 16
    | .inode => 14

/-- Memory and the device never fail. -/
def working : Answers where
  bufferMem := true
  bitmapRead _ := true
  bitmapWrite _ := .done
  undoWrite _ := .done
  zeroMem := true
  zeroRead _ := true
  zeroWrite _ := .done
  modeMem := true
  modeRead := true
  modeWrite := .done
  descMem := true
  descRead := true
  descWrite := .done

theorem emptyDisk_consistent : Consistent twoGroups.toLayout emptyDisk := by
  refine ⟨fun k => ?_, fun k => ?_, fun k => ?_⟩ <;> cases k <;> decide +kernel

/-- A block is allocated near a goal in the second group, an inode cannot be written and is given
back, and the block is freed. -/
def threeCalls : List Label :=
  [⟨.allocBlock 20, working⟩,
   ⟨.allocInode 0, { working with modeWrite := .failed fun _ => true }⟩,
   ⟨.freeBlock 20, working⟩]

theorem run_foldl (m : Layout) (s : State) (ls : List Label) :
    Run (Step m) s ls (ls.foldl (fun s l => (run m s l).2) s) := by
  induction ls generalizing s with
  | nil => exact Run.nil s
  | cons l ls ih => exact Run.cons rfl (ih _)

theorem threeCalls_good (m : Layout) : ∀ l ∈ threeCalls, ∀ s, Good m s l := by
  intro l hl s
  have hanswers : l.answers.descMem = true ∧ l.answers.descRead = true ∧
      l.answers.descWrite.ok = true ∧ ∀ g i, (l.answers.undoWrite g).wrote i = true := by
    simp only [threeCalls, List.mem_cons, List.not_mem_nil, or_false] at hl
    rcases hl with rfl | rfl | rfl <;> exact ⟨rfl, rfl, rfl, fun _ _ => rfl⟩
  exact ⟨hanswers.1, hanswers.2.1, hanswers.2.2.1, fun g _ _ _ _ => hanswers.2.2.2 g _⟩

/-- The theorem at a run of three calls, and the block that the first one returns. -/
theorem alloc_consistent_three_calls :
    (run twoGroups.toLayout emptyDisk ⟨.allocBlock 20, working⟩).1 = .ok (some 20) ∧
      ∃ s, Run (Guarded (Good twoGroups.toLayout) (Step twoGroups.toLayout)) emptyDisk threeCalls s ∧
        Consistent twoGroups.toLayout s ∧ Answered twoGroups.toLayout s ⟨.allocBlock 0, working⟩ := by
  have hrun := (run_foldl twoGroups.toLayout emptyDisk threeCalls).guarded
    (threeCalls_good twoGroups.toLayout)
  obtain ⟨hconsistent, hanswered⟩ := alloc_consistent twoGroups emptyDisk_consistent hrun
  exact ⟨rfl, _, hrun, hconsistent, hanswered _ ⟨rfl, rfl, rfl, fun _ _ _ _ _ => rfl⟩⟩

/-- The descriptor cannot be read back: the call returns an error, and the bit stays set. -/
theorem failed_alloc_keeps_bit :
    Consistent twoGroups.toLayout emptyDisk ∧
      (run twoGroups.toLayout emptyDisk ⟨.allocBlock 20, { working with descRead := false }⟩).1 =
        .error .eio ∧
      ¬ Same twoGroups.toLayout emptyDisk
        (run twoGroups.toLayout emptyDisk
          ⟨.allocBlock 20, { working with descRead := false }⟩).2 := by
  refine ⟨emptyDisk_consistent, rfl, fun hsame => ?_⟩
  have hbyte := congrFun (hsame.bitmap .block 1 (by decide)) 0
  exact absurd hbyte (by decide +kernel)

end Mario.Fs.Ext2
