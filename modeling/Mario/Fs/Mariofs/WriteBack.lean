import Mario.Lib.Runs
import Mathlib.Tactic.Common

/-!
# Inodes of a MarioFS in memory and on the disk

The position of a directory entry on the disk is the number of its inode, so that entries and inodes are
both numbered by positions. A directory has the positions of its entries, block after block, without `.`
and `..`, and is known by its first block. The contents of files, the free blocks and times are left out.
The calls come from `namei`, so no name has a zero or is `.` or `..`; every block can be read and written,
and no FIFO is opened.
-/

namespace Mario.Fs.Mariofs.WriteBack

open Mario.Lib Function

abbrev Bytes := List UInt8

/-- The bytes before the first zero. -/
def cstr (l : Bytes) : Bytes := l.takeWhile (· ≠ 0)

/-- `strcpy`: the zero behind the bytes is not copied. -/
def strcpy (dst src : Bytes) : Bytes := cstr src ++ dst.drop (cstr src).length

/-- `strcmp` finds no difference. -/
def strsame (a b : Bytes) : Bool := cstr a = cstr b

def marioNameLen : ℕ := 30
def marioZeroEntry : ℕ := 0xfefefefe
def marioFreeEntry : ℕ := 0xffffffff

def sIfmt : UInt16 := 0o170000
def modeReg : UInt16 := 0o100000
def modeDir : UInt16 := 0o040000

/-- What an entry and an inode have in common. `data` is `i_rdev` of the inode. -/
structure Attr where
  mode : UInt16
  data : ℕ
  size : ℕ
  blocks : ℕ
  deriving DecidableEq

def Attr.isDir (a : Attr) : Bool := a.mode &&& sIfmt = modeDir

def Attr.isReg (a : Attr) : Bool := a.mode &&& sIfmt = modeReg

/-- `struct mario_dir_entry`. The name has all its bytes. -/
structure Slot where
  attr : Attr
  name : Bytes
  deriving DecidableEq

/-- A slot of zeros. -/
def Slot.zero : Slot := ⟨⟨0, 0, 0, 0⟩, List.replicate marioNameLen 0⟩

/-- A slot that `mario_add_entry` can use. -/
def Slot.unused (x : Slot) : Bool := x.attr.data = 0 ∨ x.attr.data = marioFreeEntry

structure Inode where
  count : ℕ
  upToDate : Bool
  dirty : Bool
  attr : Attr
  /-- `MARIO_INODE_NAME`, with all its bytes. -/
  name : Bytes
  deriving DecidableEq

/-- An inode after `memset`. -/
def blank : Inode := ⟨0, false, false, ⟨0, 0, 0, 0⟩, List.replicate marioNameLen 0⟩

structure State where
  nrBlocks : ℕ
  slot : ℕ → Slot
  dir : ℕ → Option (List (List ℕ))
  /-- The inodes in `inode_hash`. -/
  cache : ℕ → Option Inode
  /-- What the inode of a position had when it was last changed. No call reads it. -/
  last : ℕ → Attr

def State.setSlot (s : State) (p : ℕ) (x : Slot) : State := { s with slot := update s.slot p x }

def State.setInode (s : State) (p : ℕ) (i : Inode) : State := { s with cache := update s.cache p (some i) }

def State.inode (s : State) (p : ℕ) : Inode := (s.cache p).getD blank

/-! ## The inode cache -/

def marioReadInode (s : State) (p : ℕ) : State :=
  s.setInode p { s.inode p with
    attr := (s.slot p).attr, name := strcpy (s.inode p).name (s.slot p).name, upToDate := true, dirty := false }

def marioWriteInode (s : State) (p : ℕ) : State :=
  if strsame (s.slot p).name (s.inode p).name then
    s.setSlot p ⟨(s.inode p).attr, strcpy (s.slot p).name (s.inode p).name⟩
  else s

def readInode (s : State) (p : ℕ) : State := if (s.inode p).upToDate then s else marioReadInode s p

def writeInode (s : State) (p : ℕ) : State :=
  if (s.inode p).upToDate ∧ (s.inode p).dirty then
    (marioWriteInode s p).setInode p { s.inode p with dirty := false }
  else s

def iget (s : State) (p : ℕ) : State :=
  readInode (writeInode (s.setInode p { s.inode p with count := (s.inode p).count + 1 }) p) p

def iput (s : State) (p : ℕ) : State :=
  let s := s.setInode p { s.inode p with count := (s.inode p).count - 1 }
  if (s.inode p).count = 0 then writeInode s p else s

/-- `clear_inode`, for an inode that nobody uses. -/
def clearInode (s : State) (p : ℕ) : State := { s with cache := update s.cache p none }

def inodeInvalidate (s : State) (p : ℕ) : State :=
  { s with cache := update s.cache p ((s.cache p).map fun i => { i with upToDate := false, dirty := false }) }

def inodeIsBusy (s : State) (p : ℕ) : Bool := 0 < (s.inode p).count

/-! ## Directories -/

/-- `mario_find_entry`. -/
def findEntry (s : State) (d : ℕ) (name : Bytes) : Option ℕ :=
  (s.dir d).bind fun blocks => blocks.findSome? fun ps =>
    (ps.takeWhile fun p => (s.slot p).attr.data ≠ 0).find? fun p =>
      (s.slot p).attr.data ≠ marioFreeEntry ∧ cstr (s.slot p).name = name

/-- The loop of `mario_add_entry`. -/
def findUnused (s : State) (d : ℕ) : Option ℕ :=
  (s.dir d).bind fun blocks => blocks.flatten.find? fun p => (s.slot p).unused ∧ ¬ inodeIsBusy s p

/-- The slots of a block of the free chain, with what they have from before. -/
abbrev Block := List (ℕ × Slot)

/-- The block is behind the last block of a directory. Its second slot is cleared, and the first is for the
entry. -/
def grow (s : State) (d : ℕ) (block : Block) : State :=
  let s := (block.drop 2).foldl (fun s x => s.setSlot x.1 x.2) s
  let s := match block with
    | _ :: x :: _ => s.setSlot x.1 Slot.zero
    | _ => s
  { s with dir := update s.dir d ((s.dir d).map fun blocks => blocks ++ [block.map Prod.fst]) }

/-- The entry is written to its place. -/
def putEntry (s : State) (p : ℕ) (e : Slot) : State :=
  inodeInvalidate { s.setSlot p e with last := update s.last p e.attr } p

/-- The place that `mario_add_entry` finds, after it has got a block when there is one. -/
def entryPlace (s : State) (d : ℕ) (more : Option Block) : Option (State × ℕ) :=
  match findUnused s d, more with
  | some p, _ => some (s, p)
  | none, some (x :: block) => some (grow s d (x :: block), x.1)
  | none, _ => none

/-- `mario_add_entry` with the place of the entry, without `iget`. -/
def addEntry (s : State) (d : ℕ) (e : Slot) (more : Option Block) : Option (State × ℕ) :=
  (entryPlace s d more).map fun r => (putEntry r.1 r.2 e, r.2)

/-- What `mario_del_entry` does to the slot. -/
def delEntry (s : State) (p : ℕ) : State :=
  s.setSlot p { s.slot p with attr := { (s.slot p).attr with data := marioFreeEntry } }

/-- `empty_dir` with the count so far. -/
def emptyDir (s : State) (blocks : List (List ℕ)) : Bool :=
  match blocks with
  | [] => true
  | ps :: blocks =>
    match (ps.find? fun p => (s.slot p).attr.data ≠ marioFreeEntry) with
    | some p => (s.slot p).attr.data = 0
    | none => emptyDir s blocks

/-! ## Calls -/

/-- The name field of a new entry. -/
def nameField (name : Bytes) : Bytes := name ++ List.replicate (marioNameLen - name.length) 0

def newEntry (name : Bytes) : Slot := ⟨⟨modeReg, marioZeroEntry, 0, 0⟩, nameField name⟩

def marioCreate (s : State) (d : ℕ) (name : Bytes) (more : Option Block) : State :=
  match addEntry s d (newEntry name) more with
  | some (s, p) => iget s p
  | none => s

/-- What `mario_file_write` does to the inode: the file has a first block, gets `grown` blocks more and
is written up to `pos`. -/
def marioFileWrite (a : Attr) (block grown pos : ℕ) : Attr :=
  let a := if a.blocks = 0 then { a with data := block, blocks := 1 } else a
  { a with blocks := a.blocks + grown, size := max a.size pos }

/-- The bytes of a block that a file can use. -/
def maxUsed : ℕ := 508

/-- What `mario_file_truncate` does to the inode. -/
def marioFileTruncate (a : Attr) (head size : ℕ) : Attr :=
  let n := (size + maxUsed - 1) / maxUsed
  let data := if a.blocks < n then (if a.blocks = 0 then head else a.data)
    else if n < a.blocks then (if n = 0 then marioZeroEntry else a.data) else a.data
  { a with data := data, size := size, blocks := n }

/-- A task changes an inode that it has. -/
def changeInode (s : State) (p : ℕ) (a : Attr) : State :=
  { s.setInode p { s.inode p with attr := a, dirty := true } with last := update s.last p a }

/-- `mario_unlink`. When it fails it keeps the inode. -/
def marioUnlink (s : State) (p : ℕ) : State :=
  let s := iget s p
  if (s.inode p).attr.isDir then s
  else if 1 < (s.inode p).count then s
  else iput (delEntry s p) p

/-- The checks of `do_mario_rename` for a target that exists. -/
def targetRefused (s : State) (o t : ℕ) : Bool :=
  if (s.inode t).attr.isDir then
    ¬ (s.inode o).attr.isDir ∨ ¬ emptyDir s ((s.dir (s.inode t).attr.data).getD [])
  else (s.inode o).attr.isDir

/-- The target is deleted; a directory is gone with its blocks. -/
def delTarget (s : State) (t : ℕ) : State :=
  let s' := delEntry s t
  if (s.inode t).attr.isDir then { s' with dir := update s'.dir (s.inode t).attr.data none } else s'

/-- The old entry is deleted, or the call is over. -/
def delOld (s : State) (o : ℕ) : State × Option Attr :=
  if 1 < (s.inode o).count then (iput s o, none) else (delEntry s o, some (s.inode o).attr)

/-- `do_mario_rename` before the entry is added, with what the entry has if the call is not over. -/
def renameFrom (s : State) (o : ℕ) (d' : ℕ) (name' : Bytes) : State × Option Attr :=
  let s := iget s o
  match findEntry s d' name' with
  | none => delOld s o
  | some t =>
    let s := iget s t
    if t = o ∨ targetRefused s o t then (iput (iput s t) o, none)
    else if 1 < (s.inode t).count then (iput (iput s t) o, none)
    else delOld (iput (delTarget s t) t) o

def doMarioRename (s : State) (o : ℕ) (d' : ℕ) (name' : Bytes) (more : Option Block) : State :=
  match renameFrom s o d' name' with
  | (s, none) => s
  | (s, some a) =>
    match addEntry s d' ⟨a, nameField name'⟩ more with
    | some (s, _) => iput s o
    | none => iput s o

/-- A name that a call can have. -/
def Named (name : Bytes) : Prop := 1 ≤ name.length ∧ name.length ≤ marioNameLen - 1 ∧ 0 ∉ name

instance (name : Bytes) : Decidable (Named name) := inferInstanceAs (Decidable (_ ∧ _ ∧ _))

/-- A block that `mario_get_block` can give is in no directory. -/
def Free (s : State) (block : Block) : Prop :=
  (block.map Prod.fst).Nodup ∧
    ∀ d < s.nrBlocks, ∀ blocks ∈ s.dir d, ∀ x ∈ block, x.1 ∉ blocks.flatten

instance (s : State) (block : Block) : Decidable (Free s block) := inferInstanceAs (Decidable (_ ∧ _))

inductive Label
  | create (d : ℕ) (name : Bytes) (more : Option Block)
  | write (p block grown pos : ℕ)
  | truncate (p head size : ℕ)
  | unlink (d : ℕ) (name : Bytes)
  | rename (d : ℕ) (name : Bytes) (d' : ℕ) (name' : Bytes) (more : Option Block)
  /-- A name is looked up, and the inode is kept. -/
  | lookup (d : ℕ) (name : Bytes)
  | iput (p : ℕ)
  /-- An inode is used for another number. -/
  | clear (p : ℕ)

/-- A number that a block can have, which is then `i_rdev` of a file. -/
def Begins (block : ℕ) : Prop := 0 < block ∧ block < marioFreeEntry

instance (block : ℕ) : Decidable (Begins block) := inferInstanceAs (Decidable (_ ∧ _))

/-- The inode is a regular file that a task has. -/
def held (s : State) (p : ℕ) : Bool := 0 < (s.inode p).count ∧ (s.inode p).upToDate ∧ (s.inode p).attr.isReg

/-- The step of a call. A call that finds no entry does nothing. -/
def exec (s : State) : Label → Option State
  | .create d name more =>
    if Named name ∧ findEntry s d name = none ∧ ∀ block ∈ more, Free s block then some (marioCreate s d name more)
    else none
  | .write p block grown pos =>
    if held s p ∧ Begins block then some (changeInode s p (marioFileWrite (s.inode p).attr block grown pos)) else none
  | .truncate p head size =>
    if held s p ∧ Begins head then some (changeInode s p (marioFileTruncate (s.inode p).attr head size)) else none
  | .unlink d name => if Named name then (findEntry s d name).map (marioUnlink s) else none
  | .rename d name d' name' more =>
    if Named name ∧ Named name' ∧ ∀ block ∈ more, Free s block then
      (findEntry s d name).map fun o => doMarioRename s o d' name' more
    else none
  | .lookup d name => if Named name then (findEntry s d name).map (iget s) else none
  | .iput p => if 0 < (s.inode p).count then some (iput s p) else none
  | .clear p => if (s.inode p).count = 0 then some (clearInode s p) else none

def Step (s : State) (l : Label) (t : State) : Prop := exec s l = some t

/-! ## The statement -/

/-- What is in the cache for a place has no longer name than the new entry. -/
def Fits (s : State) (p : ℕ) (name : Bytes) : Prop := ∀ i ∈ s.cache p, (cstr i.name).length ≤ name.length

instance (s : State) (p : ℕ) (name : Bytes) : Decidable (Fits s p name) := inferInstanceAs (Decidable (∀ i ∈ _, _))

/-- A block of the free chain has no entries behind its second slot, and no inode of its slots is in use. -/
def Clean (s : State) (block : Block) : Prop :=
  (∀ x ∈ block.drop 2, x.2.unused = true) ∧ ∀ x ∈ block, inodeIsBusy s x.1 = false

instance (s : State) (block : Block) : Decidable (Clean s block) := inferInstanceAs (Decidable (_ ∧ _))

/-- The place of a new entry is fit for its name. -/
def FitPlace (s : State) (d : ℕ) (name : Bytes) (more : Option Block) : Prop :=
  (∀ block ∈ more, Clean s block) ∧ ∀ r ∈ entryPlace s d more, Fits r.1 r.2 name

instance (s : State) (d : ℕ) (name : Bytes) (more : Option Block) : Decidable (FitPlace s d name more) :=
  inferInstanceAs (Decidable (_ ∧ _))

/-- The inode in the cache for the place of a new entry, if there is one, has no longer name. -/
def Good (s : State) : Label → Prop
  | .create d name more => FitPlace s d name more
  | .rename d name d' name' more => ∀ o ∈ findEntry s d name, (renameFrom s o d' name').2.isSome = true →
      FitPlace (renameFrom s o d' name').1 d' name' more
  | _ => True

instance (s : State) (l : Label) : Decidable (Good s l) :=
  match l with
  | .create d name more => inferInstanceAs (Decidable (FitPlace s d name more))
  | .rename d name d' name' more => inferInstanceAs (Decidable (∀ o ∈ findEntry s d name,
      (renameFrom s o d' name').2.isSome = true → FitPlace (renameFrom s o d' name').1 d' name' more))
  | .write .. | .truncate .. | .unlink .. | .lookup .. | .iput _ | .clear _ => isTrue trivial

/-- The inode of an entry on the disk. -/
def Live (s : State) (p : ℕ) : Prop := (s.slot p).unused = false

instance (s : State) (p : ℕ) : Decidable (Live s p) := inferInstanceAs (Decidable (_ = _))

structure Lossless (s : State) : Prop where
  /-- The last `iput` of a dirty inode writes what it has, and it is read again. -/
  reread : ∀ p i, Live s p → s.cache p = some i → i.count = 1 → i.upToDate = true → i.dirty = true →
    ((iget (clearInode (iput s p) p) p).inode p).attr = i.attr
  /-- An inode that nobody has is not dirty. -/
  put : ∀ p i, s.cache p = some i → i.count = 0 → i.dirty = false
  /-- The entry of an inode that is not dirty has what the inode last had. -/
  stored : ∀ p, Live s p → (s.inode p).dirty = false → (s.slot p).attr = s.last p
  /-- So has the inode. -/
  cached : ∀ p, Live s p → (s.inode p).upToDate = true → (s.inode p).attr = s.last p

/-- A volume with no inode in memory. -/
structure Initial (s : State) : Prop where
  cache : ∀ p, s.cache p = none
  last : ∀ p, s.last p = (s.slot p).attr

end Mario.Fs.Mariofs.WriteBack
