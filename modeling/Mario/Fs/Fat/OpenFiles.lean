import Mario.Fs.Fat.EntryChains

/-!
# Open files in a FAT

The number of an inode is the position of its directory entry. A position can be deleted and used
again while a descriptor still has the inode in memory, and after a rename the inode in memory has the
old number and the entry another one. The disk does every write here, and only room can be missing. An
entry says which file it is, what is not on the disk. A directory is an entry, and so is the root
directory. A position is the number itself, as long as the volume has no two positions with one number of
32 bits, and sizes are below `2 ^ 31`; both are conditions. The count of the references of an inode is the number of its descriptors, since the
references that a call takes are dropped at its end.
-/

namespace Mario.Fs.Fat.OpenFiles

open Mario.Lib Clusters

/-- A directory entry, with the file that it is for. -/
structure Entry where
  file : ℕ
  dir : Bool
  start : ℕ
  size : ℕ

/-- An inode in memory. -/
structure Core where
  upToDate : Bool
  dirty : Bool
  /-- The entry that the inode is written to, `dir_cluster` and `dir_offset`. -/
  pos : ℕ
  start : ℕ
  size : ℕ
  cache : Cache

/-- A descriptor has an inode, and was opened on a file. -/
structure Descriptor where
  ino : ℕ
  file : ℕ

structure State where
  table : Table
  clusterSize : ℕ
  slot : ℕ → Option Entry
  core : ℕ → Core
  fds : List Descriptor
  nextFile : ℕ

/-- `inode_is_busy`, that `fat_unlink` and `fat_rename` do not ask. -/
def State.busy (s : State) (ino : ℕ) : Bool := s.fds.any fun d => d.ino == ino

def State.setTable (s : State) (table : Table) : State := { s with table := table }

def State.setSlot (s : State) (pos : ℕ) (e : Option Entry) : State :=
  { s with slot := Function.update s.slot pos e }

def State.setCore (s : State) (ino : ℕ) (core : Core) : State :=
  { s with core := Function.update s.core ino core }

/-- `inode_invalidate`. -/
def State.invalidate (s : State) (ino : ℕ) : State :=
  s.setCore ino { s.core ino with upToDate := false, dirty := false }

/-- `fat_write_inode`. -/
def State.writeInode (s : State) (ino : ℕ) : State :=
  let core := s.core ino
  match s.slot core.pos with
  | some e => s.setSlot core.pos (some { e with start := core.start, size := core.size })
  | none => s

/-- `write_inode` of the cache of the inodes. -/
def State.flush (s : State) (ino : ℕ) : State :=
  if (s.core ino).upToDate = true ∧ (s.core ino).dirty = true then
    (s.writeInode ino).setCore ino { s.core ino with dirty := false }
  else s

/-- `fat_read_inode`, that fails when there is no entry. -/
def State.readInode (s : State) (ino : ℕ) : Core :=
  match s.slot ino with
  | some e => { s.core ino with pos := ino, start := e.start, size := e.size }
  | none => s.core ino

def State.iget (s : State) (ino : ℕ) : State :=
  let s := s.flush ino
  if (s.core ino).upToDate then s
  else s.setCore ino { s.readInode ino with upToDate := true, dirty := false }

/-- The fields of an inode for the calls that change chains. -/
def Core.node (core : Core) : Node where
  live := true
  dir := false
  start := core.start
  entryStart := core.start
  size := core.size
  entrySize := core.size
  cache := core.cache

/-- Whether `fat_file_write` writes a byte. -/
def wrote (a : Answers) (clusterSize : ℕ) (nd : Node) (t : Table) (pos count : ℕ) : Bool :=
  if count = 0 then false
  else
    match zeroGap a clusterSize nd t pos with
    | (false, _, _) => false
    | (true, nd, t) =>
        (touch a a.data (span clusterSize pos (pos + count)) (pos / clusterSize) nd.start t).1 ≠ 0

/-- `fat_file_write`. -/
def State.write (s : State) (ino pos count : ℕ) : State :=
  let core := s.core ino
  let wrote := wrote done s.clusterSize core.node s.table pos count
  let (nd, table) := Clusters.write done true s.clusterSize core.node s.table pos count
  let s := (s.setTable table).setCore ino { core with
    dirty := core.dirty || wrote, start := nd.start, size := nd.size, cache := nd.cache }
  if wrote then s.writeInode ino else s

/-- The inode of a directory, as far as `fat_add_entry_name` uses it. -/
def Entry.node (e : Entry) : Node := newDirectory e.start forgotten

/-- A directory. -/
def State.dir (s : State) (pos : ℕ) : Option Entry := (s.slot pos).filter fun e => e.dir

/-- An entry is deleted. -/
def State.remove (s : State) (pos : ℕ) : State := (s.setSlot pos none).invalidate pos

/-- The inode of an entry is read, and the entry is deleted. -/
def State.take (s : State) (pos : ℕ) : State := (s.iget pos).remove pos

/-- The inode in memory of an entry that was moved is written to the new entry. -/
def State.repoint (s : State) (old new : ℕ) : State :=
  (s.setCore old { s.core old with pos := new }).writeInode old

/-- An entry gets a free position. -/
def State.add (s : State) (pos : ℕ) (e : Entry) : Option State :=
  if (s.slot pos).isNone then some ((s.setSlot pos (some e)).invalidate pos) else none

inductive Label
  | openFile (pos : ℕ)
  | close (d : ℕ)
  /-- A cluster is looked up for a descriptor. -/
  | read (d index : ℕ)
  | write (d pos count : ℕ)
  /-- A file is created in a directory that needs so many new clusters. -/
  | create (pos dir need : ℕ) (added : Added)
  /-- When the chain cannot be freed the entry is added again. -/
  | unlink (pos back : ℕ)
  | rename (old new : ℕ) (target : Option ℕ) (dir need : ℕ) (added : Added) (back targetBack : ℕ)
  /-- The memory of an inode is used for another one. -/
  | evict (ino : ℕ)

/-- The inode of an entry that was not used before. -/
def blank : Core where
  upToDate := false
  dirty := false
  pos := 0
  start := 0
  size := 0
  cache := forgotten

/-- The two entries of a rename are added again. -/
def State.addBack (s : State) (e : Entry) (target : Option Entry) (back targetBack : ℕ) :
    Option State :=
  (s.add back e).bind fun s =>
    match target with
    | some te => s.add targetBack te
    | none => some s

/-- `fat_rename` behind the deletion of the entries. -/
def State.moveEntry (s : State) (old new : ℕ) (e : Entry) (target : Option Entry) (dir : Entry)
    (need : ℕ) (added : Added) (back targetBack : ℕ) : Option State :=
  match addEntry done s.table dir.node need added with
  | (.failed, t) => (s.setTable t).addBack e target back targetBack
  | (.late, t) =>
      if (s.slot new).isNone then
        ((s.setTable t).setSlot new (some e)).addBack e target back targetBack
      else none
  | (.ok, t) =>
      ((s.setTable t).add new e).map fun s =>
        match target with
        | some te => (s.repoint old new).setTable (t.freeChain done te.start).2
        | none => s.repoint old new

def exec (s : State) : Label → Option State
  | .openFile pos =>
      match s.slot pos with
      | some e =>
          if e.dir then none
          else
            let s := s.iget pos
            some { s with fds := s.fds ++ [⟨pos, e.file⟩] }
      | none => none
  | .close d =>
      match s.fds[d]? with
      | some fd =>
          let s := { s with fds := s.fds.eraseIdx d }
          some (if s.busy fd.ino then s else s.flush fd.ino)
      | none => none
  | .read d index =>
      match s.fds[d]? with
      | some fd =>
          let core := s.core fd.ino
          some (s.setCore fd.ino
            { core with cache := (s.table.clusterAt core.start core.cache index).2 })
      | none => none
  | .write d pos count => (s.fds[d]?).map fun fd => s.write fd.ino pos count
  | .create pos dir need added =>
      match s.dir dir, s.slot pos with
      | some de, none =>
          let e : Entry := { file := s.nextFile, dir := false, start := 0, size := 0 }
          match addEntry done s.table de.node need added with
          | (.failed, t) => some (s.setTable t)
          | (.late, t) => some { (s.setTable t).setSlot pos (some e) with nextFile := s.nextFile + 1 }
          | (.ok, t) =>
              let s := { ((s.setTable t).setSlot pos (some e)).invalidate pos with
                nextFile := s.nextFile + 1 }
              some (s.iget pos)
      | _, _ => none
  | .unlink pos back =>
      match s.slot pos with
      | some e =>
          if e.dir then none
          else
            match s.table.freeChain done e.start with
            | (true, t) => some ((s.remove pos).setTable t)
            | (false, t) => ((s.remove pos).setTable t).add back e
      | none => none
  | .rename old new target dir need added back targetBack =>
      match (s.iget old).slot old, s.dir dir with
      | some e, some de =>
          match target with
          | none => (s.take old).moveEntry old new e none de need added back targetBack
          | some t =>
              -- the inodes are different, so the first entry can be deleted before the second is read
              if t = old ∨ t = dir then none
              else
                match ((s.take old).iget t).slot t with
                | some te =>
                    ((s.take old).take t).moveEntry old new e (some te) de need added back targetBack
                | none => none
      | _, _ => none
  | .evict ino => if s.busy ino then none else some (s.setCore ino blank)

/-! ## The statement -/

/-- What is read and written through the descriptors belongs to the file that each was opened on. -/
structure Kept (s : State) : Prop where
  /-- As long as the file has an entry its clusters are found. -/
  data : ∀ d ∈ s.fds, ∀ pos e, s.slot pos = some e → e.file = d.file →
    ∃ l, Chain s.table e.start l ∧
      ∀ index, (s.table.clusterAt (s.core d.ino).start (s.core d.ino).cache index).1 = l.getD index 0
  /-- No cluster of another file is found, for reading or for writing. -/
  clusters : ∀ d ∈ s.fds, ∀ pos e, s.slot pos = some e → e.file ≠ d.file →
    ∀ l, Chain s.table e.start l → ∀ index,
      (s.table.clusterAt (s.core d.ino).start (s.core d.ino).cache index).1 ∉ l ∧
        (s.table.clusterAtAlloc done (s.core d.ino).start index).1 ∉ l
  /-- The inode is not written to the entry of another file. -/
  entry : ∀ d ∈ s.fds, ∀ e, s.slot (s.core d.ino).pos = some e → e.file = d.file

/-- No entry is deleted or moved while its inode is open, every entry that is written behind the end of
a directory is found, a file that is written has clusters when it has bytes, and no lookup is remembered
for the first cluster of a file that is opened or that gets its first cluster. -/
def Careful (s : State) : Label → Prop
  | .openFile pos => ∀ e, s.slot pos = some e → (s.core pos).upToDate = false →
      (s.core pos).cache.FitsStart e.start
  | .write d pos count => ∀ fd, s.fds[d]? = some fd → SizeFits (s.core fd.ino).node (pos + count) ∧
      ((s.core fd.ino).start = 0 ↔ (s.core fd.ino).size = 0) ∧
        ((s.core fd.ino).start = 0 → ∀ c, s.table.scan = some c → (s.core fd.ino).cache.FitsStart c)
  | .unlink pos _ => s.busy pos = false
  | .rename old _ target _ _ added _ _ =>
      s.busy old = false ∧ (∀ t, target = some t → s.busy t = false) ∧ added ≠ .late
  | _ => True

/-- No two positions have one number of 32 bits. -/
def InoFits (s : State) : Prop := s.table.total * s.clusterSize ≤ 2 ^ 32

def Good (s : State) (l : Label) : Prop := InoFits s ∧ Careful s l

def Step (s : State) (l : Label) (t : State) : Prop := exec s l = some t

/-- A mounted volume where nothing is open. -/
structure Initial (s : State) : Prop where
  clusterSize : 0 < s.clusterSize
  /-- The entries have chains that share no cluster. -/
  chains : ∃ (head : Option ℕ → ℕ) (chain : Option ℕ → List ℕ), head none = 0 ∧ Layout s.table head chain ∧
    (∀ pos e, s.slot pos = some e → head (some e.file) = e.start) ∧
    ∀ f, (∀ pos e, s.slot pos = some e → e.file ≠ f) → head (some f) = 0
  unique : ∀ p q e e', s.slot p = some e → s.slot q = some e' → e.file = e'.file → p = q
  next : ∀ pos e, s.slot pos = some e → e.file < s.nextFile
  dir : ∀ pos e, s.slot pos = some e → e.dir = true → e.start ≠ 0
  core : ∀ ino, s.core ino = blank
  fds : s.fds = []

end Mario.Fs.Fat.OpenFiles
