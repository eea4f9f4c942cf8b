import Mario.Fs.Ext2.Bmap
import Mario.Lib.PointerTree

/-!
# Cutting a file of ext2

`ext2_truncate` and `ext2_free_branch` of `file.c`, on the bytes of the disk. The logical numbers of the code are
words; those of three levels of blocks of at most 4096 bytes fit. The pages of the file in memory are not part of
the state.
-/

namespace Mario.Fs.Ext2

open Mario.Lib Mario.Lib.PointerTree

/-- `S_IFMT` and the types of files that can be cut. -/
def sIfmt : BitVec 16 := 0xf000
def sIfdir : BitVec 16 := 0x4000
def sIfreg : BitVec 16 := 0x8000
def sIflnk : BitVec 16 := 0xa000

/-- `S_ISDIR`, `S_ISREG` and `S_ISLNK`. -/
def isDir (mode : BitVec 16) : Bool := mode &&& sIfmt == sIfdir
def isReg (mode : BitVec 16) : Bool := mode &&& sIfmt == sIfreg
def isLnk (mode : BitVec 16) : Bool := mode &&& sIfmt == sIflnk

/-- An inode with what a truncation reads and changes. The size and the times are also in the raw inode, and change
there with those in memory. -/
structure SizedFile extends FileState where
  iMode : BitVec 16
  iSize : BitVec 32
  iMtime : BitVec 32
  iCtime : BitVec 32
  /-- The blocks that `ext2_free_block` has taken back, in their order. -/
  freed : List (BitVec 32)

/-- The answers to one call, by block: each block is read, written and given back at most once. -/
structure TruncateAnswers where
  ptrsMem : BitVec 32 → Bool
  ptrsRead : BitVec 32 → Bool
  ptrsWrite : BitVec 32 → Write
  free : BitVec 32 → Answers
  currentTime : BitVec 32

/-- Go on after a success. -/
def andThen {α β : Type*} (r : Outcome α × SizedFile) (f : α → SizedFile → Outcome β × SizedFile) :
    Outcome β × SizedFile :=
  match r.1 with
  | .error e => (.error e, r.2)
  | .ok x => f x r.2

/-- A loop with an early exit after an error. -/
def forEach {γ : Type*} (step : ℕ → γ → SizedFile → Outcome γ × SizedFile) :
    List ℕ → γ → SizedFile → Outcome γ × SizedFile
  | [], c, st => (.ok c, st)
  | i :: l, c, st => andThen (step i c st) (forEach step l)

variable (m : Layout) (a : TruncateAnswers)

/-- `ext2_free_inode_block`. -/
def freeInodeBlock (block : BitVec 32) (st : SizedFile) : Outcome Unit × SizedFile :=
  match ext2FreeBlock m block.toNat (a.free block) st.fs with
  | (.error e, s) => (.error e, { st with fs := s })
  | (.ok _, s) =>
      let left := if sectors m ≤ st.inode.iNrBlock then st.inode.iNrBlock - sectors m else 0
      (.ok (), { st with
        fs := s
        inode := { st.inode with iNrBlock := left, iBlocks := left }
        freed := st.freed ++ [block] })

/-- The buffer of `ext2_free_branch` and its two flags. -/
structure Branch where
  ptrs : Buffer
  changed : Bool
  allZero : Bool

/-- The pointer is written to zero. -/
def Branch.clear (c : Branch) (i : ℕ) : Branch := ⟨write32 c.ptrs (4 * i) 0, true, c.allZero⟩

/-- The body of the loop of `ext2_free_branch`; `below` is the call for the level below. -/
def freeChild (newBlocks level : ℕ) (below : BitVec 32 → ℕ → SizedFile → Outcome Bool × SizedFile)
    (logicalStart i : ℕ) (c : Branch) (st : SizedFile) : Outcome Branch × SizedFile :=
  let chunk := per m ^ level
  let child := read32 c.ptrs (4 * i)
  let childLogical := logicalStart + i * chunk
  let release (st : SizedFile) : Outcome Branch × SizedFile :=
    andThen (freeInodeBlock m a child st) fun _ st => (.ok (c.clear i), st)
  if child = 0 then (.ok c, st)
  else if level = 0 then
    if newBlocks ≤ childLogical then release st else (.ok { c with allZero := false }, st)
  else if newBlocks ≤ childLogical then
    andThen (below child childLogical st) fun childEmpty st =>
      if !childEmpty then (.error .eio, st) else release st
  else if newBlocks < childLogical + chunk then
    andThen (below child childLogical st) fun childEmpty st =>
      if childEmpty then release st else (.ok { c with allZero := false }, st)
  else (.ok { c with allZero := false }, st)

/-- `ext2_read_block` into a new buffer. Without memory the buffer is null. -/
def readBranch (branch : BitVec 32) (st : SizedFile) : Outcome Buffer × SizedFile :=
  (if !a.ptrsMem branch then .error .einval else readBlock m st.fs branch.toNat (a.ptrsRead branch), st)

/-- `ext2_write_block` of the buffer. -/
def writeBranch (branch : BitVec 32) (ptrs : Buffer) (st : SizedFile) : Outcome Unit × SizedFile :=
  let r := writeBlock m st.fs branch.toNat ptrs (a.ptrsWrite branch)
  (r.1, { st with fs := r.2 })

/-- The body of `ext2_free_branch`; the result is `*empty`. -/
def branchBody (newBlocks level : ℕ) (below : BitVec 32 → ℕ → SizedFile → Outcome Bool × SizedFile)
    (branch : BitVec 32) (logicalStart : ℕ) (st : SizedFile) : Outcome Bool × SizedFile :=
  andThen (readBranch m a branch st) fun ptrs st =>
    andThen (forEach (freeChild m a newBlocks level below logicalStart) (List.range (per m))
      ⟨ptrs, false, true⟩ st) fun c st =>
        if c.changed && !c.allZero then
          andThen (writeBranch m a branch c.ptrs st) fun _ st => (.ok c.allZero, st)
        else (.ok c.allZero, st)

/-- `ext2_free_branch`. There is no call below level zero. -/
def ext2FreeBranch (newBlocks : ℕ) : ℕ → BitVec 32 → ℕ → SizedFile → Outcome Bool × SizedFile
  | 0 => branchBody m a newBlocks 0 fun _ _ st => (.ok true, st)
  | level + 1 => branchBody m a newBlocks (level + 1) (ext2FreeBranch newBlocks level)

/-- A pointer of the inode is written. -/
def SizedFile.setSlot (st : SizedFile) (slot : ℕ) (v : BitVec 32) : SizedFile :=
  { st with inode := { st.inode with iBlock := Function.update st.inode.iBlock slot v } }

/-- The body of the first loop of `ext2_truncate`. -/
def freeDirect (i : ℕ) (_ : Unit) (st : SizedFile) : Outcome Unit × SizedFile :=
  let block := st.inode.iBlock i
  if block = 0 then (.ok (), st)
  else andThen (freeInodeBlock m a block st) fun _ st => (.ok (), st.setSlot i 0)

/-- The first block of a file that a pointer of the inode leads to, and the levels of pointers below it. -/
def slotStart (slot : ℕ) : ℕ :=
  if slot = 14 then 12 + per m + per m * per m else if slot = 13 then 12 + per m else slot

def slotHeight (slot : ℕ) : ℕ := slot - 11

/-- The body of the second loop, by the slot that it sets. -/
def freeSlot (newBlocks slot : ℕ) (_ : Unit) (st : SizedFile) : Outcome Unit × SizedFile :=
  let branch := st.inode.iBlock slot
  if branch = 0 then (.ok (), st)
  else
    andThen (ext2FreeBranch m a newBlocks (slot - 12) branch (slotStart m slot) st) fun empty st =>
      if empty then andThen (freeInodeBlock m a branch st) fun _ st => (.ok (), st.setSlot slot 0)
      else (.ok (), st)

/-- The number of blocks for a size, in the arithmetic of words. -/
def blocksOf (size : BitVec 32) : ℕ :=
  (size + BitVec.ofNat 32 m.blockSize - 1).toNat / m.blockSize

/-- The blocks that the first loop comes to. -/
def directRange (oldBlocks newBlocks : ℕ) : List ℕ := List.range' newBlocks (min 12 oldBlocks - newBlocks)

def ext2Truncate (size : BitVec 32) (st : SizedFile) : Outcome Unit × SizedFile :=
  if !isReg st.iMode && !isDir st.iMode && !isLnk st.iMode then (.error .einval, st)
  else if size.msb then (.error .einval, st)
  else
    let oldBlocks := blocksOf m st.iSize
    let newBlocks := blocksOf m size
    if oldBlocks ≤ newBlocks then
      (.ok (), { st with iSize := size, inode := { st.inode with dirty := true } })
    else
      andThen (forEach (freeDirect m a) (directRange oldBlocks newBlocks) () st) fun _ st =>
        andThen (forEach (freeSlot m a newBlocks) [12, 13, 14] () st) fun _ st =>
          (.ok (), { st with
            iSize := size
            iMtime := a.currentTime
            iCtime := a.currentTime
            inode := { st.inode with dirty := true } })

/-- The number of blocks that a size takes. -/
def ceilBlocks (size : ℕ) : ℕ := (size + m.blockSize - 1) / m.blockSize

/-! ## What a truncation is for -/

/-- A pointer of an indirect block. -/
def pointer (s : State) (v : BitVec 32) (i : ℕ) : BitVec 32 := read32 (s.disk v.toNat) (4 * i)

/-- The data and the indirect blocks that a pointer of the inode leads to. -/
def slotItems (st : FileState) (slot : ℕ) : List (Item (BitVec 32)) :=
  items (pointer st.fs) (per m) (slotHeight slot) (slotStart m slot) (st.inode.iBlock slot)

/-- The data and the indirect blocks of a file. -/
def fileItems (st : FileState) : List (Item (BitVec 32)) := (List.range 15).flatMap (slotItems m st)

/-- A block of data below the bound, or an indirect block that leads to one. -/
def liveAt (st : FileState) (newBlocks : ℕ) (p : Item (BitVec 32)) : Bool :=
  lives (pointer st.fs) (per m) newBlocks p

/-- Some blocks are given back: their marks in the bitmaps are cleared, and no others change. -/
def GivesBack (l : List (BitVec 32)) (st st' : SizedFile) : Prop :=
  st'.freed = st.freed ++ l ∧
    ∀ b, m.firstDataBlock ≤ b → b < m.blocksCount →
      blockUsed m st'.fs b = (blockUsed m st.fs b && !l.any fun x => x.toNat == b)

/-- A truncation has done what it is for. -/
structure Truncated (newBlocks : ℕ) (st st' : SizedFile) : Prop where
  /-- The blocks of data from the bound on are given back, and the indirect blocks that lead to none below it,
  each once. -/
  freed : ∃ l, GivesBack m l st st' ∧
    l.Perm (((fileItems m st.toFileState).filter fun p => !liveAt m st.toFileState newBlocks p).map Item.block)
  /-- The pointers to them are null, and the other ones are unchanged. -/
  pointers : ∀ slot < 15,
    Pruned (pointer st.fs) (per m) newBlocks (pointer st'.fs) (slotHeight slot) (slotStart m slot)
      (st.inode.iBlock slot) (st'.inode.iBlock slot)
  /-- The blocks below the bound are mapped as before, and no others are. -/
  mapped : ∀ b : FileBlock m, denoted m b.index st'.toFileState =
    if b.index < newBlocks then denoted m b.index st.toFileState else 0

/-- An inode of a file system whose indirect blocks are their own: none is used twice or for the metadata. -/
structure Ext2File (g : Geometry) extends SizedFile where
  nodup : (((fileItems g.toLayout toSizedFile.toFileState).filter fun p => p.height ≠ 0).map Item.block).Nodup
  apart : ∀ p ∈ fileItems g.toLayout toSizedFile.toFileState, p.height ≠ 0 → p.block.toNat ∉ g.metadata

/-- The code comes to a block: the file gets shorter, and the block is a direct one below the old end, is an indirect
block that the inode points to, or is or leads to blocks from the new end on. -/
def ComesTo (oldBlocks newBlocks slot : ℕ) (p : Item (BitVec 32)) : Prop :=
  newBlocks < oldBlocks ∧
    if slot < 12 then slot < oldBlocks
    else p.height = slotHeight slot ∨ newBlocks < p.start + per m ^ p.height

/-- All that has to be given back is something that the code comes to. -/
def NothingMissed (newBlocks : ℕ) (st : SizedFile) : Prop :=
  ∀ slot < 15, ∀ p ∈ slotItems m st.toFileState slot,
    liveAt m st.toFileState newBlocks p = true ∨ ComesTo m (blocksOf m st.iSize) newBlocks slot p

end Mario.Fs.Ext2
