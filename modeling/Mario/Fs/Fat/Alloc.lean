import Mario.Lib.Chains
import Mario.Lib.Totals

/-!
# Chains of clusters

The functions that follow, lengthen and free chains in a FAT whose entries are read from the disk or
its cache. A write of an entry is done, fails and leaves the entry, or fails in a later copy of the
FAT. No call writes the same value to the same entry twice, so the answers of the disk in a call are
functions of what is written. The FSInfo sector is left out.
-/

namespace Mario.Fs.Fat.Clusters

open Mario.Lib

def fatEocMin : ℕ := 0x0ffffff8
def fatEocMax : ℕ := 0x0fffffff
def fatBadCluster : ℕ := 0x0ffffff7

/-- The entries of the first FAT and the fields of `struct fat_sb_info` for the allocation. -/
structure Table where
  total : ℕ
  entry : ℕ → ℕ
  nextFree : ℕ
  freeClusters : ℕ

/-- The clusters that the functions accept. -/
def Table.Valid (s : Table) (c : ℕ) : Prop := 2 ≤ c ∧ c - 2 < s.total

instance (s : Table) (c : ℕ) : Decidable (s.Valid c) := inferInstanceAs (Decidable (_ ∧ _))

/-- What the disk does when an entry is written. -/
inductive Answer
  | ok
  /-- The write fails and the first FAT has the old entry. -/
  | before
  /-- The write of a copy fails when the first FAT has the new entry. -/
  | after
  deriving DecidableEq

/-- What an entry is written for. -/
inductive Write
  /-- A free cluster becomes the end of a chain. -/
  | mark
  /-- A cluster gets a successor. -/
  | link
  /-- A cluster in a chain becomes its end. -/
  | cut
  | free
  deriving DecidableEq

/-- The answers of the disk in a call. -/
structure Answers where
  fat : Write → ℕ → Answer
  /-- Whether a cluster can be filled with zeros. -/
  zero : ℕ → Bool
  /-- Whether data can be written to a cluster. -/
  data : ℕ → Bool

/-- `fat_write_fat_entry`. -/
def Table.write (s : Table) (a : Answers) (w : Write) (c value : ℕ) : Bool × Table :=
  if s.Valid c then
    match a.fat w c with
    | .ok => (true, { s with entry := Function.update s.entry c value })
    | .before => (false, s)
    | .after => (false, { s with entry := Function.update s.entry c value })
  else (false, s)

/-- What `fat_next_cluster` finds. -/
inductive Next
  | error
  | last
  | cluster (c : ℕ)

/-- `fat_next_cluster`. -/
def Table.next (s : Table) (c : ℕ) : Next :=
  if s.Valid c then
    let value := s.entry c
    if fatEocMin ≤ value ∧ value ≤ fatEocMax then .last
    else if value = 0 ∨ value = 1 ∨ value = fatBadCluster ∨ s.total ≤ value - 2 then .error
    else .cluster value
  else .error

/-- Where `fat_alloc_cluster` starts. -/
def Table.scanStart (s : Table) : ℕ :=
  if s.nextFree < 2 ∨ s.total ≤ s.nextFree - 2 then 2 else s.nextFree

/-- The cluster that `fat_alloc_cluster` takes. -/
def Table.scan (s : Table) : Option ℕ :=
  (List.range' s.scanStart (s.total + 2 - s.scanStart) ++
    List.range' 2 (s.scanStart - 2)).find? fun c => s.entry c = 0

/-- `fat_alloc_cluster`. -/
def Table.alloc (s : Table) (a : Answers) (previous : ℕ) : Option ℕ × Table :=
  if previous ≠ 0 ∧ ¬ s.Valid previous then (none, s)
  else
    match s.scan with
    | none => (none, s)
    | some c =>
        match s.write a .mark c fatEocMax with
        | (false, s) => (none, s)
        | (true, s) =>
            match if previous = 0 then (true, s) else s.write a .link previous c with
            | (false, s) => (none, s)
            | (true, s) => (some c, { s with
                nextFree := if s.total ≤ c + 1 - 2 then 2 else c + 1
                freeClusters := (s.freeClusters + 2 ^ 32 - 1) % 2 ^ 32 })

/-- One more cluster is free. -/
def Table.count (s : Table) : Table :=
  if s.freeClusters < s.total then { s with freeClusters := s.freeClusters + 1 } else s

/-- The loop of `fat_free_cluster_chain`. -/
def Table.freeLoop (a : Answers) : ℕ → Table → ℕ → Bool × Table
  | 0, s, c => (c = 0, s)
  | fuel + 1, s, c =>
      if c = 0 then (true, s)
      else
        match s.next c with
        | .error => (false, s)
        | .last =>
            match s.write a .free c 0 with
            | (false, s) => (false, s)
            | (true, s) => (true, s.count)
        | .cluster next =>
            match s.write a .free c 0 with
            | (false, s) => (false, s)
            | (true, s) => freeLoop a fuel s.count next

/-- `fat_free_cluster_chain`. -/
def Table.freeChain (s : Table) (a : Answers) (c : ℕ) : Bool × Table := s.freeLoop a s.total c

/-- The clusters of a chain, as `fat_cluster_count` and `fat_dir_last_cluster` go through them. -/
def Table.walk (s : Table) : ℕ → ℕ → List ℕ
  | 0, _ => []
  | fuel + 1, c =>
      if c = 0 then []
      else c :: match s.next c with
        | .cluster next => walk s fuel next
        | _ => []

/-- The loop of `fat_cluster_at_alloc` that allocates clusters behind a cluster. -/
def Table.grow (a : Answers) : ℕ → Table → ℕ → List ℕ × Table
  | 0, s, _ => ([], s)
  | n + 1, s, previous =>
      match s.alloc a previous with
      | (none, s) => ([], s)
      | (some c, s) =>
          let (l, s) := grow a n s c
          (c :: l, s)

/-- What the first loop of `fat_cluster_at_alloc` finds. -/
inductive Place
  | error
  | found (c : ℕ)
  /-- The chain ends at a cluster, and so many clusters are missing. -/
  | missing (previous n : ℕ)

/-- The first loop of `fat_cluster_at_alloc`. -/
def Table.seek (s : Table) : ℕ → ℕ → Place
  | 0, c => .found c
  | n + 1, c =>
      match s.next c with
      | .error => .error
      | .last => .missing c (n + 1)
      | .cluster next => seek s n next

/-- `fat_cluster_at_alloc`: the cluster, or zero, with the first cluster of the chain. -/
def Table.clusterAtAlloc (s : Table) (a : Answers) (start index : ℕ) : ℕ × ℕ × Table :=
  let place := if start = 0 then .missing 0 (index + 1) else s.seek index start
  match place with
  | .error => (0, start, s)
  | .found c => (c, start, s)
  | .missing previous n =>
      let (l, s) := Table.grow a n s previous
      (if l.length = n then l.getLastD 0 else 0, if start = 0 then l.headD 0 else start, s)

/-- The fields of the inode that remember a lookup. -/
structure Cache where
  valid : Bool
  start : ℕ
  index : ℕ
  cluster : ℕ

/-- The loop of `fat_cluster_at`. -/
def Table.advance (s : Table) : ℕ → Cache → ℕ × Cache
  | 0, k => (k.cluster, k)
  | n + 1, k =>
      match s.next k.cluster with
      | .cluster next => advance s n { k with cluster := next, index := k.index + 1 }
      | _ => (0, k)

/-- What `fat_cluster_at` starts from. -/
def Cache.rewind (k : Cache) (start index : ℕ) : Cache :=
  if k.valid = false ∨ k.start ≠ start then { valid := true, start := start, index := 0, cluster := start }
  else if index < k.index then { k with index := 0, cluster := start }
  else k

/-- `fat_cluster_at`. -/
def Table.clusterAt (s : Table) (start : ℕ) (k : Cache) (index : ℕ) : ℕ × Cache :=
  let k := k.rewind start index
  s.advance (index - k.index) k

end Mario.Fs.Fat.Clusters
