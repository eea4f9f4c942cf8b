import Mario.Lib.Runs
import Mario.Fs.Fat.AllocSafety

/-!
# Files and directories in a FAT

The calls that change chains: reading, writing and truncating files, and making, deleting and moving
entries. An inode has its fields in memory and the first cluster of its entry on the disk. Names and
slots are not here: a call says how many clusters its directory needs for the entry. A call that
fails its checks changes nothing and is left out. Sizes and positions in a file are below `2 ^ 31`, where
`i_size` is not negative, and no two slots have one number of 32 bits; both are conditions.
-/

namespace Mario.Fs.Fat.Clusters

open Mario.Lib

/-- An inode in memory, with the first cluster and the size that its entry has on the disk. -/
structure Node where
  /-- Whether there is an entry. -/
  live : Bool
  dir : Bool
  start : ℕ
  entryStart : ℕ
  size : ℕ
  entrySize : ℕ
  cache : Cache

structure State where
  table : Table
  clusterSize : ℕ
  node : ℕ → Option Node

/-- The loop of `fat_zero_range` and of `fat_file_write`: so many clusters from an index on are looked
up, allocated and written. It gives the number of clusters that were written. -/
def touch (a : Answers) (io : ℕ → Bool) : ℕ → ℕ → ℕ → Table → ℕ × ℕ × Table
  | 0, _, start, s => (0, start, s)
  | n + 1, index, start, s =>
      match s.clusterAtAlloc a start index with
      | (c, start, s) =>
          if c = 0 ∨ io c = false then (0, start, s)
          else
            match touch a io n (index + 1) start s with
            | (done, start, s) => (done + 1, start, s)

/-- The number of clusters from the one of the first byte to the one of the last. -/
def span (clusterSize first stop : ℕ) : ℕ :=
  if first < stop then (stop - 1) / clusterSize - first / clusterSize + 1 else 0

/-- The clusters that bytes need. -/
def clustersOf (clusterSize size : ℕ) : ℕ := (size + clusterSize - 1) / clusterSize

/-- `fat_file_rollback_to_clusters`. -/
def rollback (a : Answers) (nd : Node) (s : Table) (keep : ℕ) : Node × Table :=
  if keep = 0 then
    ({ nd with start := 0, cache := { nd.cache with valid := false } }, (s.freeChain a nd.start).2)
  else
    match s.clusterAt nd.start nd.cache (keep - 1) with
    | (c, cache) =>
        if c = 0 then ({ nd with cache := cache }, s)
        else
          match s.next c with
          | .cluster tail =>
              match s.write a .cut c fatEocMax with
              | (false, s) => ({ nd with cache := cache }, s)
              | (true, s) =>
                  ({ nd with cache := { cache with valid := false } }, (s.freeChain a tail).2)
          | _ => ({ nd with cache := cache }, s)

/-- The first part of `fat_file_truncate`, that changes the length of the chain, with whether it goes
on. -/
def resize (a : Answers) (nd : Node) (s : Table) (needed : ℕ) : Bool × Node × Table :=
  let have_ := (s.walk s.total nd.start).length
  if needed < have_ then
    if needed = 0 then
      match s.freeChain a nd.start with
      | (false, s) => (false, nd, s)
      | (true, s) => (true, { nd with start := 0 }, s)
    else
      match s.clusterAtAlloc a nd.start (needed - 1) with
      | (keep, start, s) =>
          if keep = 0 then (false, { nd with start := start }, s)
          else
            match s.next keep with
            | .error => (false, nd, s)
            | .last =>
                let (ok, s) := s.write a .cut keep fatEocMax
                (ok, nd, s)
            | .cluster tail =>
                match s.write a .cut keep fatEocMax with
                | (false, s) => (false, nd, s)
                | (true, s) =>
                    let (ok, s) := s.freeChain a tail
                    (ok, nd, s)
  else if have_ < needed then
    match s.clusterAtAlloc a nd.start (needed - 1) with
    | (c, start, s) => (c ≠ 0, { nd with start := start }, s)
  else (true, nd, s)

/-- The part of `fat_file_truncate` and `fat_file_write` that fills a gap with zeros and undoes an
extension that fails, with whether the call goes on. -/
def zeroGap (a : Answers) (clusterSize : ℕ) (nd : Node) (s : Table) (stop : ℕ) : Bool × Node × Table :=
  let n := span clusterSize nd.size stop
  match touch a a.zero n (nd.size / clusterSize) nd.start s with
  | (done, start, s) =>
      if done = n then (true, { nd with start := start }, s)
      else (false, rollback a { nd with start := start } s (clustersOf clusterSize nd.size))

/-- `fat_file_truncate`. The write of the inode to its entry is done or fails. -/
def truncate (a : Answers) (inode : Bool) (clusterSize : ℕ) (nd : Node) (s : Table) (size : ℕ) :
    Node × Table :=
  match resize a nd s (clustersOf clusterSize size) with
  | (false, nd, s) => (nd, s)
  | (true, nd, s) =>
      match zeroGap a clusterSize nd s size with
      | (false, nd, s) => (nd, s)
      | (true, nd, s) =>
          ({ nd with
            size := size
            entryStart := if inode then nd.start else nd.entryStart
            entrySize := if inode then size else nd.entrySize }, s)

/-- The position behind the bytes that a write of some clusters has written. -/
def reached (clusterSize pos count done : ℕ) : ℕ :=
  if done = 0 then pos else min (pos + count) ((pos / clusterSize + done) * clusterSize)

/-- `fat_file_write`. -/
def write (a : Answers) (inode : Bool) (clusterSize : ℕ) (nd : Node) (s : Table) (pos count : ℕ) :
    Node × Table :=
  if count = 0 then (nd, s)
  else
  let old := clustersOf clusterSize nd.size
  match zeroGap a clusterSize nd s pos with
  | (false, nd, s) => (nd, s)
  | (true, nd, s) =>
      match touch a a.data (span clusterSize pos (pos + count)) (pos / clusterSize) nd.start s with
      | (done, start, s) =>
          let nd := { nd with start := start, size := max nd.size (reached clusterSize pos count done) }
          if done = 0 then rollback a nd s old
          else
            ({ nd with
              entryStart := if inode then start else nd.entryStart
              entrySize := if inode then nd.size else nd.entrySize }, s)

/-- How adding an entry ends when there is room. -/
inductive Added
  | ok
  /-- There is no entry. -/
  | failed
  /-- There is an entry, and the call fails behind it. -/
  | late
  deriving DecidableEq

/-- The loop that extends a directory by zeroed clusters. -/
def growDir (a : Answers) : ℕ → Table → ℕ → ℕ → Bool × Table
  | 0, s, _, _ => (true, s)
  | n + 1, s, previous, firstNew =>
      match s.alloc a previous with
      | (none, s) => (false, s)
      | (some c, s) =>
          let firstNew := if firstNew = 0 then c else firstNew
          if a.zero c then growDir a n s c firstNew else (false, (s.freeChain a firstNew).2)

/-- `fat_add_entry_name`, for a directory that needs so many new clusters. -/
def addEntry (a : Answers) (s : Table) (dir : Node) (need : ℕ) (added : Added) : Added × Table :=
  match growDir a need s ((s.walk s.total dir.start).getLastD 0) 0 with
  | (false, s) => (.failed, s)
  | (true, s) => (added, s)

inductive Label
  /-- A cluster is looked up with `fat_cluster_at`. -/
  | read (id index : ℕ)
  | truncate (id size : ℕ) (a : Answers) (inode : Bool)
  | write (id pos count : ℕ) (a : Answers) (inode : Bool)
  /-- The inode in memory may remember a lookup for the entry that had its slot. -/
  | create (dir id : ℕ) (cache : Cache) (a : Answers) (need : ℕ) (added : Added)
  | mkdir (dir id : ℕ) (cache : Cache) (a : Answers) (need : ℕ) (added : Added)
  /-- `fat_unlink` and `fat_rmdir`. When freeing fails the entry is added again, or that fails. -/
  | delete (id : ℕ) (a : Answers) (again : Bool)
  /-- `fat_delete_entry_at` fails, before or behind the write of the entry. Then `fat_rmdir` adds the entry
  again, in another slot. -/
  | deleteFails (id : ℕ) (gone : Bool) (twin : Option (ℕ × Cache))
  /-- The entry gets another slot, and with it another inode. When there is no room the entries are
  added again, or that fails. -/
  | rename (id new : ℕ) (target : Option ℕ) (newDir : ℕ) (cache : Cache) (a : Answers) (need : ℕ)
      (added : Added) (again inode : Bool)
  /-- An entry that was added again has another slot. -/
  | relocate (id new : ℕ) (cache : Cache)
  /-- The inode leaves the memory and is read again. Before that it is written to its entry, or that fails. -/
  | evict (id : ℕ) (inode : Bool)

def State.setNode (s : State) (id : ℕ) (nd : Node) : State :=
  { s with node := Function.update s.node id (some nd) }

def State.setTable (s : State) (table : Table) : State := { s with table := table }

/-- The entry of an inode is deleted. -/
def State.dropEntry (s : State) (id : ℕ) : State :=
  match s.node id with
  | some nd => s.setNode id { nd with live := false }
  | none => s

/-- A live directory. -/
def State.dir (s : State) (id : ℕ) : Option Node := (s.node id).filter fun nd => nd.live && nd.dir

/-- The inode of the root directory, that has no entry. -/
def root : ℕ := 0

/-- An inode with an entry. -/
def State.entry (s : State) (id : ℕ) : Option Node :=
  if id = root then none else (s.node id).filter fun nd => nd.live

/-- What the cache of a lookup can be when an inode is read again. -/
def Cache.Plain (k : Cache) : Prop :=
  (k.index = 0 → k.cluster = k.start) ∧ (k.start = 0 → k.index = 0)

instance (k : Cache) : Decidable k.Plain := inferInstanceAs (Decidable (_ ∧ _))

/-- The inode of a new directory. -/
def newDirectory (c : ℕ) (cache : Cache) : Node where
  live := true
  dir := true
  start := c
  entryStart := c
  size := 0
  entrySize := 0
  cache := cache

/-- The inode of a new file. -/
def newFile (cache : Cache) : Node where
  live := true
  dir := false
  start := 0
  entryStart := 0
  size := 0
  entrySize := 0
  cache := cache

/-- The inode that is read from its entry. -/
def Node.moved (nd : Node) (cache : Cache) : Node :=
  { nd with start := nd.entryStart, size := nd.entrySize, cache := cache }

/-- `fat_write_inode`, done or not. -/
def Node.written (nd : Node) (inode : Bool) : Node :=
  if inode then { nd with entryStart := nd.start, entrySize := nd.size } else nd

/-- Nothing is remembered. -/
def forgotten : Cache := { valid := false, start := 0, index := 0, cluster := 0 }

def exec (s : State) : Label → Option State
  | .read id index =>
      match s.node id with
      | some nd =>
          some (s.setNode id { nd with cache := (s.table.clusterAt nd.start nd.cache index).2 })
      | none => none
  | .truncate id size a inode =>
      match s.node id with
      | some nd =>
          if nd.dir then none
          else
            let (nd, table) := truncate a inode s.clusterSize nd s.table size
            some ((s.setTable table).setNode id nd)
      | none => none
  | .write id pos count a inode =>
      match s.node id with
      | some nd =>
          if nd.dir then none
          else
            let (nd, table) := write a inode s.clusterSize nd s.table pos count
            some ((s.setTable table).setNode id nd)
      | none => none
  | .create dir id cache a need added =>
      match s.dir dir, s.node id with
      | some dirNode, none =>
          if cache.Plain then
            match addEntry a s.table dirNode need added with
            | (.failed, table) => some (s.setTable table)
            | (_, table) => some ((s.setTable table).setNode id (newFile cache))
          else none
      | _, _ => none
  | .mkdir dir id cache a need added =>
      match s.dir dir, s.node id with
      | some dirNode, none =>
          if cache.Plain then
            match s.table.alloc a 0 with
            | (none, table) => some (s.setTable table)
            | (some c, table) =>
                let nd := newDirectory c cache
                if a.zero c then
                  match addEntry a table dirNode need added with
                  | (.ok, table) => some ((s.setTable table).setNode id nd)
                  | (.failed, table) => some (s.setTable (table.freeChain a c).2)
                  | (.late, table) => some ((s.setTable (table.freeChain a c).2).setNode id nd)
                else some (s.setTable (table.freeChain a c).2)
          else none
      | _, _ => none
  | .delete id a again =>
      match s.entry id with
      | some nd =>
          match s.table.freeChain a nd.entryStart with
          | (true, table) => some ((s.dropEntry id).setTable table)
          | (false, table) => some ((if again then s else s.dropEntry id).setTable table)
      | none => none
  | .rename id new target newDir cache a need added again inode =>
      match s.entry id, s.node new, s.dir newDir with
      | some nd, none, some dirNode =>
          if cache.Plain ∧ target ≠ some id ∧ target ≠ some newDir ∧
              (target = none ∨ (target.bind s.entry).isSome) then
            let dropped := (match target with | some t => s.dropEntry t | none => s).dropEntry id
            match addEntry a s.table dirNode need added with
            | (.failed, table) =>
                some ((if again then s else dropped).setTable table)
            | (.late, table) =>
                some (((if again then s else dropped).setTable table).setNode new (nd.moved cache))
            | (.ok, table) =>
                -- the inode in memory is written to the new entry
                let moved := (dropped.setTable table).setNode new ((nd.written inode).moved cache)
                match if inode then target.bind s.entry else none with
                | some td => some (moved.setTable (table.freeChain a td.entryStart).2)
                | none => some moved
          else none
      | _, _, _ => none
  | .relocate id new cache =>
      match s.entry id, s.node new with
      | some nd, none =>
          if cache.Plain then some ((s.dropEntry id).setNode new (nd.moved cache)) else none
      | _, _ => none
  | .deleteFails id gone twin =>
      match s.entry id with
      | some nd =>
          let left := if gone then s.dropEntry id else s
          match twin with
          | none => some left
          | some (new, cache) =>
              if nd.dir ∧ (s.node new).isNone ∧ cache.Plain then some (left.setNode new (nd.moved cache)) else none
      | none => none
  | .evict id inode => (s.entry id).map fun nd => s.setNode id ((nd.written inode).moved forgotten)

/-! ## The statements -/

/-- The chain that starts at the first cluster of an inode in memory. -/
def State.head (s : State) : Option ℕ → ℕ
  | none => 0
  | some id => match s.node id with
    | some nd => if nd.live then nd.start else 0
    | none => 0

/-- The first cluster in an entry. -/
def State.entryHead (s : State) (id : ℕ) : ℕ :=
  match s.node id with
  | some nd => if nd.live then nd.entryStart else 0
  | none => 0

/-- The entries have chains without cycles of clusters that are not free, every cluster that is not
free is in just one of them, and the count of the free clusters is right. -/
structure Sound (s : State) : Prop where
  chains : ∃ chain : ℕ → List ℕ, (∀ id, Chain s.table (s.entryHead id) (chain id) ∧ (chain id).Nodup) ∧
    ∀ c, s.table.Valid c → s.table.entry c ≠ 0 → ∃! id, c ∈ chain id
  count : s.table.freeClusters = cells s.table.total fun k => s.table.entry (k + 2) == 0

/-- A lookup that is remembered for a first cluster is the lookup of that cluster. -/
def Cache.FitsStart (k : Cache) (c : ℕ) : Prop := k.valid = true → k.start = c → k.index = 0

/-- The first cluster that a file gets is not the one of a remembered lookup further on. -/
def FitsFirst (s : State) (nd : Node) : Prop :=
  nd.start = 0 → ∀ c, s.table.scan = some c → nd.cache.FitsStart c

/-- No two slots have one number of 32 bits. -/
def InoFits (s : State) : Prop := s.table.total * s.clusterSize ≤ 2 ^ 32

/-- The size of a file and the end of what a call does in it are not negative in `i_size`. -/
def SizeFits (nd : Node) (stop : ℕ) : Prop := nd.size < 2 ^ 31 ∧ stop < 2 ^ 31

instance (nd : Node) (stop : ℕ) : Decidable (SizeFits nd stop) := inferInstanceAs (Decidable (_ ∧ _))

/-- No write of the FAT fails where it is not undone, no zeroing of a directory and no deletion of an entry
fails, only files with an entry are written, an inode that is read again has reached its entry, and when a
chain is cut or begins no lookup behind the cut or of the old chain is remembered. -/
def Careful (s : State) : Label → Prop
  | .read _ _ => True
  | .truncate id size a _ => a.Clean ∧ ∀ nd, s.node id = some nd → SizeFits nd size ∧ nd.live = true ∧ FitsFirst s nd ∧
      (0 < clustersOf s.clusterSize size →
        clustersOf s.clusterSize size < (s.table.walk s.table.total nd.start).length →
        nd.cache.valid = true → nd.cache.start = nd.start →
        nd.cache.index < clustersOf s.clusterSize size)
  | .write id pos count a _ => a.Clean ∧ ∀ nd, s.node id = some nd →
      SizeFits nd (pos + count) ∧ nd.live = true ∧ FitsFirst s nd
  | .create _ _ _ a need added => a.Clean ∧ (0 < need → ∀ c, a.zero c = true) ∧ added ≠ .late
  | .mkdir _ _ cache a need added => a.Clean ∧ (0 < need → ∀ c, a.zero c = true) ∧ added ≠ .late ∧
      ∀ c, s.table.scan = some c → cache.FitsStart c
  | .delete id a _ => a.Clean ∧ ∀ nd, s.node id = some nd → nd.entryStart = nd.start
  | .rename id _ target _ cache a need added again inode =>
      a.Clean ∧ (0 < need → ∀ c, a.zero c = true) ∧ added ≠ .late ∧ again = true ∧ inode = true ∧
        (∀ nd, s.node id = some nd → cache.FitsStart nd.start) ∧
        ∀ t td, target = some t → s.node t = some td → td.entryStart = td.start
  | .relocate id _ cache => ∀ nd, s.node id = some nd →
      nd.entryStart = nd.start ∧ cache.FitsStart nd.start
  | .deleteFails _ gone twin => gone = false ∧ twin = none
  | .evict id inode => ∀ nd, s.node id = some nd → inode = true ∨ nd.entryStart = nd.start

def Good (s : State) (l : Label) : Prop := InoFits s ∧ Careful s l

/-- Also every change of a first cluster reaches the entry: the write of the inode is done, a file has
clusters when it has bytes, and an empty file that gets longer finds its clusters. -/
def Strict (s : State) (l : Label) : Prop :=
  Good s l ∧ match l with
    | .truncate id size a inode => inode = true ∧ ∀ nd, s.node id = some nd →
        (nd.start = 0 ↔ nd.size = 0) ∧
          (nd.start = 0 → (∀ c, a.fat .mark c = .ok) ∧
            clustersOf s.clusterSize size ≤ s.table.freeClusters)
    | .write id _ _ _ inode => inode = true ∧ ∀ nd, s.node id = some nd → (nd.start = 0 ↔ nd.size = 0)
    | _ => True

def Step (s : State) (l : Label) (t : State) : Prop := exec s l = some t

/-- A mounted volume: the entries have chains that share no cluster, directories have a cluster, and
no lookup is remembered. -/
structure Initial (s : State) : Prop where
  clusterSize : 0 < s.clusterSize
  chains : ∃ chain, Layout s.table s.head chain
  cache : ∀ id nd, s.node id = some nd → nd.cache.valid = false
  entry : ∀ id nd, s.node id = some nd → nd.entryStart = nd.start
  dir : ∀ id nd, s.node id = some nd → nd.live = true → nd.dir = true → nd.start ≠ 0

end Mario.Fs.Fat.Clusters
