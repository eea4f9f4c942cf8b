import Mario.Lib.Bitmap

/-!
# Block and inode allocation of ext2

`balloc.c` and `ialloc.c` on the bytes of the disk. What the allocator knows is kept four times: in
a bitmap, in the group descriptor in memory, in the group descriptor on disk and in the counter of
the superblock. Memory allocation and the block device answer each call; a write that fails may have
written any of the sectors of its block.
-/

namespace Mario.Fs.Ext2

open Mario.Lib Function

abbrev Byte := BitVec 8

/-- A block, or a buffer that holds one. -/
abbrev Buffer := ℕ → Byte

inductive Errno
  | ebusy
  | eexist
  | einval
  | eio
  | eisdir
  | emlink
  | enametoolong
  | enoent
  | enomem
  | enospc
  | enotdir
  | enotempty
  | enotsup
  | eperm
  | erofs
  deriving DecidableEq, Repr

/-- What a function returns. -/
abbrev Outcome := Except Errno

/-- `ext2_read16`. -/
def read16 (p : Buffer) (o : ℕ) : BitVec 16 := p (o + 1) ++ p o

/-- `ext2_read32`. -/
def read32 (p : Buffer) (o : ℕ) : BitVec 32 := p (o + 3) ++ p (o + 2) ++ p (o + 1) ++ p o

/-- The two bitmaps of a group. -/
inductive Kind
  | block
  | inode
  deriving DecidableEq, Repr

/-- The fields of `struct ext2_sb_info` that stay as the mount has set them. -/
structure Layout where
  blockSize : ℕ
  firstDataBlock : ℕ
  blocksCount : ℕ
  inodesCount : ℕ
  blocksPerGroup : ℕ
  inodesPerGroup : ℕ
  nrGroups : ℕ
  inodeSize : ℕ
  readonly : Bool
  /-- The bytes of each group descriptor. Those of the two free counts are not read. -/
  groupDesc : ℕ → Buffer

namespace Layout

def descPerBlock (m : Layout) : ℕ := m.blockSize / 32

/-- `bg_block_bitmap` and `bg_inode_bitmap`. -/
def bitmapBlock (m : Layout) : Kind → ℕ → ℕ
  | .block, g => (read32 (m.groupDesc g) 0).toNat
  | .inode, g => (read32 (m.groupDesc g) 4).toNat

/-- `bg_inode_table`. -/
def inodeTable (m : Layout) (g : ℕ) : ℕ := (read32 (m.groupDesc g) 8).toNat

/-- The block that holds a group descriptor. -/
def descBlock (m : Layout) (g : ℕ) : ℕ := m.firstDataBlock + 1 + g / m.descPerBlock

/-- Where in its block a group descriptor is. -/
def descOffset (m : Layout) (g : ℕ) : ℕ := g % m.descPerBlock * 32

/-- `ext2_group_start`. -/
def groupStart (m : Layout) (g : ℕ) : ℕ := m.firstDataBlock + g * m.blocksPerGroup

/-- `ext2_group_blocks`. -/
def groupBlocks (m : Layout) (g : ℕ) : ℕ :=
  if m.blocksCount ≤ m.groupStart g then 0
  else min (m.blocksCount - m.groupStart g) m.blocksPerGroup

/-- The bits of a bitmap that a search looks at. -/
def scanned (m : Layout) : Kind → ℕ → ℕ
  | .block, g => m.groupBlocks g
  | .inode, _ => m.inodesPerGroup

/-- The bits of a bitmap that stand for something. -/
def valid (m : Layout) : Kind → ℕ → ℕ
  | .block, g => m.groupBlocks g
  | .inode, g => min (m.inodesCount - g * m.inodesPerGroup) m.inodesPerGroup

/-- The number of blocks of an inode table. -/
def tableBlocks (m : Layout) : ℕ :=
  (m.inodesPerGroup * m.inodeSize + m.blockSize - 1) / m.blockSize

/-- The bitmaps, the blocks of the group descriptors and the inode tables. -/
def bitmaps (m : Layout) (k : Kind) : List ℕ := (List.range m.nrGroups).map (m.bitmapBlock k)

def descBlocks (m : Layout) : List ℕ :=
  (List.range ((m.nrGroups + m.descPerBlock - 1) / m.descPerBlock)).map
    fun i => m.firstDataBlock + 1 + i

def tables (m : Layout) : List ℕ :=
  (List.range m.nrGroups).flatMap fun g => (List.range m.tableBlocks).map fun i => m.inodeTable g + i

/-- The blocks that allocation reads and writes. -/
def metadata (m : Layout) : List ℕ :=
  m.bitmaps .block ++ m.bitmaps .inode ++ m.descBlocks ++ m.tables

end Layout

/-- A file system that `ext2_read_super` accepts and that is laid out as the format prescribes. -/
structure Geometry extends Layout where
  blockSize_eq : blockSize = 1024 ∨ blockSize = 2048 ∨ blockSize = 4096
  firstDataBlock_eq : firstDataBlock = if blockSize = 1024 then 1 else 0
  first_lt : firstDataBlock < blocksCount
  blocksPerGroup_pos : 0 < blocksPerGroup
  blocksPerGroup_le : blocksPerGroup ≤ 8 * blockSize
  inodesPerGroup_pos : 0 < inodesPerGroup
  inodesPerGroup_le : inodesPerGroup ≤ 8 * blockSize
  nrGroups_eq : nrGroups = (blocksCount - firstDataBlock + blocksPerGroup - 1) / blocksPerGroup
  inodesCount_le : inodesCount ≤ nrGroups * inodesPerGroup
  inodesCount_lt : inodesCount < 2 ^ 32
  inodeSize_pos : 0 < inodeSize
  /-- The device has sectors for all blocks, and the number of a sector is a word. -/
  sectors_le : blocksCount * (blockSize / 512) ≤ 2 ^ 32
  metadata_lt : ∀ b ∈ toLayout.metadata, b < blocksCount
  metadata_nodup : toLayout.metadata.Nodup

/-! ## The state -/

/-- The disk and what allocation changes in memory. -/
structure State where
  disk : ℕ → Buffer
  /-- `bg_free_blocks_count` and `bg_free_inodes_count` of the descriptors in memory. -/
  groupFree : Kind → ℕ → BitVec 16
  /-- `free_blocks_count` and `free_inodes_count`. -/
  free : Kind → BitVec 32

/-- How a write of a block ends. -/
inductive Write
  | done
  /-- With an error, after some of the sectors were written. -/
  | failed (sectors : ℕ → Bool)

/-- Whether a sector of the block was written. -/
def Write.wrote : Write → ℕ → Bool
  | .done, _ => true
  | .failed sectors, i => sectors i

/-- The answers to one call. Each place asks at most once. -/
structure Answers where
  bufferMem : Bool
  bitmapRead : ℕ → Bool
  bitmapWrite : ℕ → Write
  /-- The second write of a bitmap, on the way out of an error. -/
  undoWrite : ℕ → Write
  zeroMem : Bool
  zeroRead : ℕ → Bool
  zeroWrite : ℕ → Write
  modeMem : Bool
  modeRead : Bool
  modeWrite : Write
  descMem : Bool
  descRead : Bool
  descWrite : Write

/-- `ext2_read_block`. -/
def readBlock (m : Layout) (s : State) (b : ℕ) (ok : Bool) : Outcome Buffer :=
  if m.blocksCount ≤ b then .error .einval else if ok then .ok (s.disk b) else .error .eio

/-- What a block holds after a write. -/
def Write.apply (w : Write) (old new : Buffer) : Buffer :=
  fun o => if w.wrote (o / 512) then new o else old o

/-- `ext2_write_block`. -/
def writeBlock (m : Layout) (s : State) (b : ℕ) (buf : Buffer) (w : Write) :
    Outcome Unit × State :=
  if m.blocksCount ≤ b then (.error .einval, s)
  else
    (match w with
      | .done => .ok ()
      | .failed _ => .error .eio,
     { s with disk := update s.disk b (w.apply (s.disk b) buf) })

/-- The bytes of a group descriptor in memory. -/
def descBytes (m : Layout) (s : State) (g : ℕ) : Buffer := fun o =>
  if o = 12 then (s.groupFree .block g).setWidth 8
  else if o = 13 then (s.groupFree .block g).extractLsb' 8 8
  else if o = 14 then (s.groupFree .inode g).setWidth 8
  else if o = 15 then (s.groupFree .inode g).extractLsb' 8 8
  else m.groupDesc g o

/-- `ext2_write_group_desc`. -/
def writeGroupDesc (m : Layout) (s : State) (g : ℕ) (a : Answers) : Outcome Unit × State :=
  if m.nrGroups ≤ g then (.error .einval, s)
  else if !a.descMem then (.error .enomem, s)
  else
    match readBlock m s (m.descBlock g) a.descRead with
    | .error e => (.error e, s)
    | .ok buf =>
        let new : Buffer := fun o =>
          if m.descOffset g ≤ o ∧ o < m.descOffset g + 32 then
            descBytes m s g (o - m.descOffset g)
          else buf o
        writeBlock m s (m.descBlock g) new a.descWrite

/-! ## The inode of a new file -/

/-- `ext2_inode_location`. -/
def inodeLocation (m : Layout) (ino : ℕ) : Outcome (ℕ × ℕ) :=
  if ino = 0 ∨ m.inodesCount < ino then .error .einval
  else if m.nrGroups ≤ (ino - 1) / m.inodesPerGroup then .error .einval
  else
    .ok (m.inodeTable ((ino - 1) / m.inodesPerGroup) +
        (ino - 1) % m.inodesPerGroup * m.inodeSize / m.blockSize,
      (ino - 1) % m.inodesPerGroup * m.inodeSize % m.blockSize)

/-- The loop of `ext2_zero_inode`. Round `i` asks the answers with that number. -/
def zeroChunks (m : Layout) (a : Answers) (s : State) (block offset left i : ℕ) :
    Outcome Unit × State :=
  if _h : 0 < left ∧ offset < m.blockSize then
    let chunk := min left (m.blockSize - offset)
    match readBlock m s block (a.zeroRead i) with
    | .error e => (.error e, s)
    | .ok buf =>
        let new : Buffer := fun o => if offset ≤ o ∧ o < offset + chunk then 0 else buf o
        match writeBlock m s block new (a.zeroWrite i) with
        | (.error e, s') => (.error e, s')
        | (.ok _, s') => zeroChunks m a s' (block + 1) 0 (left - chunk) (i + 1)
  else (.ok (), s)
  termination_by left
  decreasing_by omega

/-- `ext2_zero_inode`. -/
def zeroInode (m : Layout) (a : Answers) (s : State) (ino : ℕ) : Outcome Unit × State :=
  match inodeLocation m ino with
  | .error e => (.error e, s)
  | .ok (block, offset) =>
      if !a.zeroMem then (.error .enomem, s) else zeroChunks m a s block offset m.inodeSize 0

/-- `ext2_set_inode_mode`. -/
def setInodeMode (m : Layout) (a : Answers) (s : State) (ino : ℕ) (mode : BitVec 16) :
    Outcome Unit × State :=
  match inodeLocation m ino with
  | .error e => (.error e, s)
  | .ok (block, offset) =>
      if !a.modeMem then (.error .enomem, s)
      else
        match readBlock m s block a.modeRead with
        | .error e => (.error e, s)
        | .ok buf =>
            let new : Buffer := fun o =>
              if o = offset then mode.setWidth 8
              else if o = offset + 1 then mode.extractLsb' 8 8
              else buf o
            writeBlock m s block new a.modeWrite

/-- The number of the inode behind a bit. -/
def inodeNumber (m : Layout) (g bit : ℕ) : ℕ := g * m.inodesPerGroup + bit + 1

/-- What `ext2_alloc_inode` does between the bitmap and the counters. -/
def prepareInode (m : Layout) (mode : BitVec 16) (a : Answers) (s : State) (g bit : ℕ) :
    Outcome Unit × State :=
  if m.inodesCount < inodeNumber m g bit then (.error .enospc, s)
  else
    match zeroInode m a s (inodeNumber m g bit) with
    | (.error e, s') => (.error e, s')
    | (.ok _, s') => setInodeMode m a s' (inodeNumber m g bit) mode

/-! ## Taking and giving back a bit -/

/-- The counters after a bit was taken. -/
def State.take (s : State) (k : Kind) (g : ℕ) : State :=
  { s with
    groupFree := update s.groupFree k (update (s.groupFree k) g (s.groupFree k g - 1))
    free := update s.free k (s.free k - 1) }

/-- The counters after a bit was given back. -/
def State.give (s : State) (k : Kind) (g : ℕ) : State :=
  { s with
    groupFree := update s.groupFree k (update (s.groupFree k) g (s.groupFree k g + 1))
    free := update s.free k (s.free k + 1) }

/-- The body of the loops of `ext2_alloc_block` and `ext2_alloc_inode`, for a group with a free
count: nothing when the bitmap has no zero bit. -/
def allocIn (m : Layout) (k : Kind) (a : Answers)
    (prepare : State → ℕ → ℕ → Outcome Unit × State) (s : State) (g : ℕ) :
    Outcome (Option ℕ) × State :=
  match readBlock m s (m.bitmapBlock k g) (a.bitmapRead g) with
  | .error e => (.error e, s)
  | .ok bitmap =>
      match Bitmap.findFirstZeroBit bitmap (m.scanned k g) with
      | none => (.ok none, s)
      | some bit =>
          let taken := Bitmap.put bitmap bit true
          let undo (s : State) : State :=
            (writeBlock m s (m.bitmapBlock k g) (Bitmap.put taken bit false) (a.undoWrite g)).2
          match writeBlock m s (m.bitmapBlock k g) taken (a.bitmapWrite g) with
          | (.error e, s₁) => (.error e, undo s₁)
          | (.ok _, s₁) =>
              match prepare s₁ g bit with
              | (.error e, s₂) => (.error e, undo s₂)
              | (.ok _, s₂) =>
                  match writeGroupDesc m (s₂.take k g) g a with
                  | (.error e, s₃) => (.error e, s₃)
                  | (.ok _, s₃) => (.ok (some bit), s₃)

/-- The loops of `ext2_alloc_block` and `ext2_alloc_inode`: the groups in order, up to the first
one that ends the search. -/
def allocLoop (m : Layout) (k : Kind) (a : Answers)
    (prepare : State → ℕ → ℕ → Outcome Unit × State) (s : State) :
    List ℕ → Outcome (ℕ × ℕ) × State
  | [] => (.error .enospc, s)
  | g :: gs =>
      if m.scanned k g = 0 ∨ s.groupFree k g = 0 then allocLoop m k a prepare s gs
      else
        match allocIn m k a prepare s g with
        | (.error e, s') => (.error e, s')
        | (.ok none, s') => allocLoop m k a prepare s' gs
        | (.ok (some bit), s') => (.ok (g, bit), s')

/-- The part of `ext2_free_block` and `ext2_free_inode` after the checks. -/
def freeBit (m : Layout) (k : Kind) (a : Answers) (s : State) (g bit : ℕ) :
    Outcome Unit × State :=
  if !a.bufferMem then (.error .enomem, s)
  else
    match readBlock m s (m.bitmapBlock k g) (a.bitmapRead g) with
    | .error e => (.error e, s)
    | .ok bitmap =>
        if !Bitmap.bit bitmap bit then (.error .eio, s)
        else
          let given := Bitmap.put bitmap bit false
          match writeBlock m s (m.bitmapBlock k g) given (a.bitmapWrite g) with
          | (.error e, s₁) =>
              (.error e,
                (writeBlock m s₁ (m.bitmapBlock k g) (Bitmap.put given bit true) (a.undoWrite g)).2)
          | (.ok _, s₁) => writeGroupDesc m (s₁.give k g) g a

/-! ## The calls -/

/-- The group that a search for a block starts with. -/
def firstGroup (m : Layout) (goal : ℕ) : ℕ :=
  let group := if m.firstDataBlock ≤ goal then (goal - m.firstDataBlock) / m.blocksPerGroup else 0
  if m.nrGroups ≤ group then 0 else group

def ext2AllocBlock (m : Layout) (goal : ℕ) (a : Answers) (s : State) : Outcome ℕ × State :=
  if m.readonly then (.error .erofs, s)
  else if s.free .block = 0 then (.error .enospc, s)
  else if !a.bufferMem then (.error .enomem, s)
  else
    match allocLoop m .block a (fun s _ _ => (.ok (), s)) s
        ((List.range m.nrGroups).map fun i => (firstGroup m goal + i) % m.nrGroups) with
    | (.error e, s') => (.error e, s')
    | (.ok (g, bit), s') => (.ok (m.groupStart g + bit), s')

def ext2FreeBlock (m : Layout) (block : ℕ) (a : Answers) (s : State) : Outcome Unit × State :=
  if m.readonly then (.error .erofs, s)
  else if block < m.firstDataBlock ∨ m.blocksCount ≤ block then (.error .einval, s)
  else if m.nrGroups ≤ (block - m.firstDataBlock) / m.blocksPerGroup then (.error .einval, s)
  else
    freeBit m .block a s ((block - m.firstDataBlock) / m.blocksPerGroup)
      (block - m.groupStart ((block - m.firstDataBlock) / m.blocksPerGroup))

def ext2AllocInode (m : Layout) (mode : BitVec 16) (a : Answers) (s : State) :
    Outcome ℕ × State :=
  if m.readonly then (.error .erofs, s)
  else if s.free .inode = 0 then (.error .enospc, s)
  else if !a.bufferMem then (.error .enomem, s)
  else
    match allocLoop m .inode a (prepareInode m mode a) s (List.range m.nrGroups) with
    | (.error e, s') => (.error e, s')
    | (.ok (g, bit), s') => (.ok (inodeNumber m g bit), s')

def ext2FreeInode (m : Layout) (ino : ℕ) (a : Answers) (s : State) : Outcome Unit × State :=
  if m.readonly ∨ ino = 0 ∨ m.inodesCount < ino then (.error .einval, s)
  else if m.nrGroups ≤ (ino - 1) / m.inodesPerGroup then (.error .einval, s)
  else freeBit m .inode a s ((ino - 1) / m.inodesPerGroup) ((ino - 1) % m.inodesPerGroup)

inductive Call
  | allocBlock (goal : ℕ)
  | freeBlock (block : ℕ)
  | allocInode (mode : BitVec 16)
  | freeInode (ino : ℕ)

/-- A call with the answers to it. -/
structure Label where
  call : Call
  answers : Answers

/-- What a call returns, a number for the two that allocate, and the state it leaves. -/
def run (m : Layout) (s : State) (l : Label) : Outcome (Option ℕ) × State :=
  match l.call with
  | .allocBlock goal => ((ext2AllocBlock m goal l.answers s).1.map some,
      (ext2AllocBlock m goal l.answers s).2)
  | .freeBlock block => ((ext2FreeBlock m block l.answers s).1.map fun _ => none,
      (ext2FreeBlock m block l.answers s).2)
  | .allocInode mode => ((ext2AllocInode m mode l.answers s).1.map some,
      (ext2AllocInode m mode l.answers s).2)
  | .freeInode ino => ((ext2FreeInode m ino l.answers s).1.map fun _ => none,
      (ext2FreeInode m ino l.answers s).2)

end Mario.Fs.Ext2
