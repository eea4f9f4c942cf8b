import Mario.Fs.Fat.AllocSafety
import Mario.Fs.Readdir

/-!
# Reading a directory of a FAT volume

`fat_readdir` of `dir.c` with the assembly of long names, on the slots of the clusters. The position is the offset of
a slot in the directory. The entries of the FAT and the clusters can be read, and there is memory for a cluster.
-/

namespace Mario.Fs.Fat.DirList

open Mario.Lib Mario.Lib.Listing Mario.Fs.Readdir Mario.Fs.Fat.Clusters

/-- The bytes of a cluster, or of a slot. -/
abbrev Buffer := ℕ → Byte

/-- `FAT_ENTRY_SIZE`. -/
def entrySize : ℕ := 32

/-- `FAT_ATTR_LFN`, `FAT_ATTR_VOLUME_ID` and `FAT_ATTR_DIRECTORY`. -/
def attrLfn : Byte := 0x0f
def attrVolumeId : Byte := 0x08
def attrDirectory : Byte := 0x10

/-- `fat_read16`. -/
def read16 (p : Buffer) (o : ℕ) : BitVec 16 := p (o + 1) ++ p o

/-! ## Names -/

/-- `struct fat_lfn`. -/
structure Lfn where
  name : ℕ → Byte
  len : ℕ
  checksum : Byte
  haveLast : Bool
  nextSeq : ℕ

/-- `fat_lfn_reset`. -/
def Lfn.reset : Lfn := ⟨fun _ => 0, 0, 0, false, 0⟩

/-- `fat_lfn_offsets`. -/
def lfnOffsets : List ℕ := [1, 3, 5, 7, 9, 14, 16, 18, 20, 22, 24, 28, 30]

/-- `fat_short_name_checksum`. -/
def shortNameChecksum (entry : Buffer) : Byte :=
  (List.range 11).foldl (fun sum i => (if sum &&& 1 = 0 then 0 else 0x80) + (sum >>> 1) + entry i) 0

/-- The loop of `fat_lfn_add`. -/
def lfnChars (entry : Buffer) (base : ℕ) : List ℕ → (ℕ → Byte) → ℕ → (ℕ → Byte) × ℕ
  | [], name, count => (name, count)
  | o :: offsets, name, count =>
      let value := read16 entry o
      if value = 0 ∨ value = 0xffff then (name, count)
      else if 255 ≤ base + count then (name, count)
      else
        let ch : Byte := if value < 0x80 then value.setWidth 8 else 0x3f
        lfnChars entry base offsets (Function.update name (base + count) ch) (count + 1)

/-- `fat_lfn_add`. After an error the caller resets the name. -/
def fatLfnAdd (lfn : Lfn) (entry : Buffer) : Option Lfn :=
  let seq := (entry 0 &&& 0x1f).toNat
  let checksum := entry 13
  if entry 11 ≠ attrLfn ∨ entry 12 ≠ 0 ∨ seq = 0 ∨ 20 < seq then none
  else
    let started :=
      if !lfn.haveLast then
        if entry 0 &&& 0x40 = 0 then none
        else some { Lfn.reset with haveLast := true, nextSeq := seq - 1, checksum := checksum }
      else if seq ≠ lfn.nextSeq ∨ checksum ≠ lfn.checksum then none
      else some { lfn with nextSeq := lfn.nextSeq - 1 }
    started.bind fun lfn =>
      let base := (seq - 1) * 13
      if 255 ≤ base then none
      else
        let r := lfnChars entry base lfnOffsets lfn.name 0
        some { lfn with name := r.1, len := max lfn.len (base + r.2) }

def fatLfnFinish (lfn : Lfn) (entry : Buffer) : Bool :=
  lfn.haveLast && lfn.nextSeq == 0 && shortNameChecksum entry == lfn.checksum && decide (0 < lfn.len)

/-- A letter in lower case. -/
def toLower (c : Byte) : Byte := if 0x41 ≤ c ∧ c ≤ 0x5a then c + 0x20 else c

/-- The bytes of a field up to the first space. -/
def field (entry : Buffer) (start n : ℕ) (lower : Bool) : Name :=
  (((List.range n).map fun i => entry (start + i)).takeWhile fun c => c ≠ 0x20).map
    fun c => if lower then toLower c else c

/-- `fat_short_name_from_entry`, up to the first zero. -/
def shortName (entry : Buffer) : Name :=
  (field entry 0 8 (entry 12 &&& 0x08 ≠ 0) ++
    if entry 8 ≠ 0x20 then 0x2e :: field entry 8 3 (entry 12 &&& 0x10 ≠ 0) else []).takeWhile fun c => c ≠ 0

/-- The pieces of a long name so far, and `lfn_pending`. -/
structure Pending where
  lfn : Lfn
  pending : Bool

def Pending.reset : Pending := ⟨Lfn.reset, false⟩

/-- The name that `fat_readdir` gives. -/
def emitName (p : Pending) (entry : Buffer) : Name :=
  if p.pending && fatLfnFinish p.lfn entry then (List.range p.lfn.len).map p.lfn.name else shortName entry

/-! ## The loops -/

/-- A directory: the FAT, the first cluster, the slots of a cluster and the bytes of the clusters. -/
structure Dir where
  table : Table
  start : ℕ
  perCluster : ℕ
  read : ℕ → Buffer

/-- `FAT_CLUSTER_SIZE`. -/
def Dir.clusterSize (d : Dir) : ℕ := d.perCluster * entrySize

/-- A slot of a cluster. -/
def Dir.slot (d : Dir) (cluster offset : ℕ) : Buffer := fun i => d.read cluster (offset + i)

/-- What a short slot says about an entry, with `fat_entry_ino` and `IFTODT` of `fat_entry_mode`. -/
def slotEntry (d : Dir) (p : Pending) (cluster offset : ℕ) : Entry :=
  let entry := d.slot cluster offset
  ⟨1 + 1 + (cluster - 2) * d.clusterSize + offset, if entry 11 &&& attrDirectory ≠ 0 then 4 else 8, emitName p entry⟩

/-- The loop of `fat_readdir` over the slots of a cluster, with the number of those that are left: what the function
returns from it, if it does, `f_pos`, the buffer and the long name. -/
def readdirSlots (f : Format) (d : Dir) (cluster index : ℕ) :
    ℕ → ℕ → Pending → ℕ → Callback → Option ℤ × ℕ × Callback × Pending
  | 0, _, p, pos, b => (none, pos, b, p)
  | left + 1, offset, p, _, b =>
      let entryLogical := index * d.clusterSize + offset
      let next := entryLogical + entrySize
      let entry := d.slot cluster offset
      if entry 0 = 0 then (some 0, entryLogical, b, p)
      else if entry 0 = 0xe5 then readdirSlots f d cluster index left (offset + entrySize) Pending.reset next b
      else if entry 11 = attrLfn then
        match fatLfnAdd p.lfn entry with
        | some lfn => readdirSlots f d cluster index left (offset + entrySize) ⟨lfn, true⟩ next b
        | none => readdirSlots f d cluster index left (offset + entrySize) Pending.reset next b
      else if entry 11 &&& attrVolumeId ≠ 0 then
        readdirSlots f d cluster index left (offset + entrySize) Pending.reset next b
      else
        match filldir f b (slotEntry d p cluster offset) next with
        | (true, b) => (some 0, next, b, p)
        | (false, b) => readdirSlots f d cluster index left (offset + entrySize) Pending.reset next b

/-- What a call reads and changes: `f_pos` and what the inode remembers of its chain. -/
abbrev Position := ℕ × Cache

/-- The loop over the clusters, with the number of clusters that the index can still reach. -/
def readdirClusters (f : Format) (d : Dir) :
    ℕ → ℕ → ℕ → Pending → Position → Callback → ℤ × Position × Callback
  | left, index, offset, p, (pos, cache), b =>
      let r := d.table.clusterAt d.start cache index
      if r.1 = 0 then (0, (pos, r.2), b)
      else
        match left with
        | 0 => (Readdir.eio, (pos, r.2), b)
        | left + 1 =>
            match readdirSlots f d r.1 index ((d.clusterSize - offset + entrySize - 1) / entrySize) offset p pos b with
            | (some ret, pos, b, _) => (ret, (pos, r.2), b)
            | (none, pos, b, p) =>
                match d.table.next r.1 with
                | .last => (0, (pos, r.2), b)
                | .error => (Readdir.eio, (pos, r.2), b)
                | .cluster _ => readdirClusters f d left (index + 1) 0 p (pos, r.2) b

def fatReaddir (f : Format) (d : Dir) (p : Position) (b : Callback) : ℤ × Position × Callback :=
  readdirClusters f d (d.table.total - p.1 / d.clusterSize) (p.1 / d.clusterSize) (p.1 % d.clusterSize)
    Pending.reset p b

/-- The calls of a reader. -/
def fatGetdents (f : Format) (d : Dir) (p : Position) (count : BitVec 32) : Reply Entry Position :=
  entries (doGetdents (fatReaddir f d) Prod.fst p count)

/-! ## The live entries -/

/-- A slot with the short name of a file. -/
def isShort (entry : Buffer) : Bool :=
  entry 0 ≠ 0xe5 && entry 11 ≠ attrLfn && entry 11 &&& attrVolumeId = 0

/-- What a slot that is not short does to the long name. -/
def lfnStep (p : Pending) (entry : Buffer) : Pending :=
  if entry 0 ≠ 0xe5 ∧ entry 11 = attrLfn then
    match fatLfnAdd p.lfn entry with
    | some lfn => ⟨lfn, true⟩
    | none => Pending.reset
  else Pending.reset

/-- The entries of some slots, each given by its cluster and its offset, up to the end of the directory. -/
def liveSlots (d : Dir) : Pending → List (ℕ × ℕ) → List Entry
  | _, [] => []
  | p, s :: slots =>
      if d.slot s.1 s.2 0 = 0 then []
      else if isShort (d.slot s.1 s.2) then slotEntry d p s.1 s.2 :: liveSlots d Pending.reset slots
      else liveSlots d (lfnStep p (d.slot s.1 s.2)) slots

/-- The slots of a cluster from one on. -/
def clusterSlots (d : Dir) (j cluster : ℕ) : List (ℕ × ℕ) :=
  (List.range' j (d.perCluster - j)).map fun i => (cluster, i * entrySize)

/-- A directory with its chain of clusters. Its positions are positive numbers of type `off_t`, and its entries have names. -/
structure ChainDir extends Dir where
  chain : List ℕ
  isChain : Chain table start chain
  small : table.total + 2 ≤ Clusters.fatBadCluster
  short : chain.length * toDir.clusterSize < 2 ^ 31
  named : ∀ e ∈ liveSlots toDir Pending.reset (chain.flatMap (clusterSlots toDir 0)), e.name ≠ []
  perCluster_pos : 0 < perCluster

/-- The entries of a directory. -/
def liveEntries (d : ChainDir) : List Entry :=
  liveSlots d.toDir Pending.reset (d.chain.flatMap (clusterSlots d.toDir 0))

/-- The slots from one of a cluster of the chain on. -/
def slotsFrom (d : ChainDir) (i j : ℕ) : List (ℕ × ℕ) :=
  match d.chain.drop i with
  | [] => []
  | c :: l => clusterSlots d.toDir j c ++ l.flatMap (clusterSlots d.toDir 0)

/-- A position is at a slot, with some entries from there on. -/
def AtSlot (d : ChainDir) (p : Position) (l : List Entry) : Prop :=
  p.2.Ok d.start d.chain ∧ ∃ i j, p.1 = i * d.clusterSize + j * entrySize ∧ j < d.perCluster ∧
    l = liveSlots d.toDir Pending.reset (slotsFrom d i j)

/-! ## A call -/

section Call

variable {f : Format} {d : Dir} {b : Callback} {p : Pending} {cluster index j left offset pos : ℕ}

@[simp] theorem liveSlots_nil : liveSlots d p [] = [] := rfl

theorem isShort_iff {entry : Buffer} :
    isShort entry = true ↔ entry 0 ≠ 0xe5 ∧ entry 11 ≠ attrLfn ∧ (entry 11 &&& attrVolumeId) = 0 := by
  simp only [isShort, Bool.and_eq_true, decide_eq_true_eq, and_assoc]

theorem liveSlots_skip {s : ℕ × ℕ} {slots : List (ℕ × ℕ)} (hused : d.slot s.1 s.2 0 ≠ 0)
    (hskip : isShort (d.slot s.1 s.2) = false) :
    liveSlots d p (s :: slots) = liveSlots d (lfnStep p (d.slot s.1 s.2)) slots := by
  rw [liveSlots, if_neg hused, if_neg (by rw [hskip]; exact Bool.false_ne_true)]

theorem liveSlots_short {s : ℕ × ℕ} {slots : List (ℕ × ℕ)} (hused : d.slot s.1 s.2 0 ≠ 0)
    (hshort : isShort (d.slot s.1 s.2) = true) :
    liveSlots d p (s :: slots) = slotEntry d p s.1 s.2 :: liveSlots d Pending.reset slots := by
  rw [liveSlots, if_neg hused, if_pos hshort]

theorem liveSlots_end {s : ℕ × ℕ} {slots : List (ℕ × ℕ)} (hend : d.slot s.1 s.2 0 = 0) :
    liveSlots d p (s :: slots) = [] := by
  rw [liveSlots, if_pos hend]

theorem readdirSlots_skip (hused : d.slot cluster offset 0 ≠ 0) (hskip : isShort (d.slot cluster offset) = false) :
    readdirSlots f d cluster index (left + 1) offset p pos b =
      readdirSlots f d cluster index left (offset + entrySize) (lfnStep p (d.slot cluster offset))
        (index * d.clusterSize + offset + entrySize) b := by
  rw [readdirSlots, if_neg hused, lfnStep]
  by_cases hfree : d.slot cluster offset 0 = 0xe5
  · rw [if_pos hfree, if_neg (fun h => h.1 hfree)]
  · rw [if_neg hfree]
    by_cases hlfn : d.slot cluster offset 11 = attrLfn
    · rw [if_pos hlfn, if_pos ⟨hfree, hlfn⟩]
      cases fatLfnAdd p.lfn (d.slot cluster offset) with
      | some lfn => rfl
      | none => rfl
    · have hvolume : (d.slot cluster offset 11 &&& attrVolumeId) ≠ 0 := by
        intro hzero
        rw [isShort_iff.mpr ⟨hfree, hlfn, hzero⟩] at hskip
        cases hskip
      rw [if_neg hlfn, if_pos hvolume, if_neg (fun h => hlfn h.2)]

theorem readdirSlots_short (hused : d.slot cluster offset 0 ≠ 0) (hshort : isShort (d.slot cluster offset) = true) :
    readdirSlots f d cluster index (left + 1) offset p pos b =
      if (filldir f b (slotEntry d p cluster offset) (index * d.clusterSize + offset + entrySize)).1 then
        (some 0, index * d.clusterSize + offset + entrySize,
          (filldir f b (slotEntry d p cluster offset) (index * d.clusterSize + offset + entrySize)).2, p)
      else
        readdirSlots f d cluster index left (offset + entrySize) Pending.reset
          (index * d.clusterSize + offset + entrySize)
          (filldir f b (slotEntry d p cluster offset) (index * d.clusterSize + offset + entrySize)).2 := by
  obtain ⟨hfree, hlfn, hvolume⟩ := isShort_iff.mp hshort
  rw [readdirSlots, if_neg hused, if_neg hfree, if_neg hlfn, if_neg (not_not.mpr hvolume)]
  rcases filldir f b (slotEntry d p cluster offset) (index * d.clusterSize + offset + entrySize) with ⟨refused, b'⟩
  cases refused with
  | true => rfl
  | false => rfl

/-- Some slots of a cluster. -/
def someSlots (j left cluster : ℕ) : List (ℕ × ℕ) := (List.range' j left).map fun i => (cluster, i * entrySize)

theorem someSlots_succ : someSlots j (left + 1) cluster = (cluster, j * entrySize) :: someSlots (j + 1) left cluster := by
  rw [someSlots, List.range'_succ, List.map_cons]
  rfl

/-- The loop over the slots of a cluster goes through all of them, or stops at the end of the directory, or at an
entry that is refused, with the position behind its slot. -/
theorem readdirSlots_puts (f : Format) (d : Dir) (cluster left : ℕ) (p : Pending) (b : Callback)
    (slots : List (ℕ × ℕ)) (hpos : pos = index * d.clusterSize + j * entrySize) :
    ((readdirSlots f d cluster index left (j * entrySize) p pos b).1 = none ∧
        (readdirSlots f d cluster index left (j * entrySize) p pos b).2.1 =
          index * d.clusterSize + (j + left) * entrySize ∧
        ∃ part, Puts f b part [] (readdirSlots f d cluster index left (j * entrySize) p pos b).2.2.1 ∧
          liveSlots d p (someSlots j left cluster ++ slots) =
            part ++ liveSlots d (readdirSlots f d cluster index left (j * entrySize) p pos b).2.2.2 slots) ∨
      ((readdirSlots f d cluster index left (j * entrySize) p pos b).1 = some 0 ∧
        ∃ rest n m, Puts f b (liveSlots d p (someSlots j left cluster ++ slots)) rest
            (readdirSlots f d cluster index left (j * entrySize) p pos b).2.2.1 ∧ n + m = j + left ∧
          (readdirSlots f d cluster index left (j * entrySize) p pos b).2.1 =
            index * d.clusterSize + n * entrySize ∧
          rest.tail = liveSlots d Pending.reset (someSlots n m cluster ++ slots)) := by
  induction left generalizing j p pos b with
  | zero => exact Or.inl ⟨rfl, hpos, [], Puts.nil f b, rfl⟩
  | succ left ih =>
    have hnext : index * d.clusterSize + j * entrySize + entrySize = index * d.clusterSize + (j + 1) * entrySize := by
      rw [Nat.succ_mul, Nat.add_assoc]
    have hsum : j + 1 + left = j + (left + 1) := by omega
    have hoffset : j * entrySize + entrySize = (j + 1) * entrySize := (Nat.succ_mul ..).symm
    rw [someSlots_succ, List.cons_append]
    by_cases hend : d.slot cluster (j * entrySize) 0 = 0
    · have hloop : readdirSlots f d cluster index (left + 1) (j * entrySize) p pos b =
          (some 0, index * d.clusterSize + j * entrySize, b, p) := by
        rw [readdirSlots, if_pos hend]
      rw [hloop, liveSlots_end hend]
      refine Or.inr ⟨rfl, [], j, left + 1, Puts.nil f b, rfl, rfl, ?_⟩
      rw [someSlots_succ, List.cons_append, liveSlots_end hend]
      rfl
    · by_cases hshort : isShort (d.slot cluster (j * entrySize)) = true
      · rw [readdirSlots_short hend hshort, liveSlots_short hend hshort, hnext, hoffset]
        rcases hfill : filldir f b (slotEntry d p cluster (j * entrySize))
          (index * d.clusterSize + (j + 1) * entrySize) with ⟨refused, b'⟩
        cases refused with
        | true =>
          rw [if_pos rfl]
          exact Or.inr ⟨rfl, _, j + 1, left, Puts.refused _ hfill, hsum, rfl, rfl⟩
        | false =>
          rw [if_neg Bool.false_ne_true]
          rcases ih (j := j + 1) Pending.reset b' rfl with
            ⟨hnone, hpos', part, hputs, hlive⟩ | ⟨hsome, rest, n, m, hputs, hnm, hpos', hrest⟩
          · refine Or.inl ⟨hnone, by rw [hpos', hsum], _, Puts.cons hfill hputs, ?_⟩
            rw [hlive]
            rfl
          · exact Or.inr ⟨hsome, rest, n, m, Puts.cons hfill hputs, by rw [hnm, hsum], hpos', hrest⟩
      · have hskip : isShort (d.slot cluster (j * entrySize)) = false := Bool.eq_false_of_not_eq_true hshort
        rw [readdirSlots_skip hend hskip, liveSlots_skip hend hskip, hnext, hoffset, ← hsum]
        exact ih _ _ rfl

variable {d : ChainDir} {pos : Position}

theorem slotsFrom_zero (i : ℕ) : slotsFrom d i 0 = (d.chain.drop i).flatMap (clusterSlots d.toDir 0) := by
  rw [slotsFrom]
  cases d.chain.drop i with
  | nil => rfl
  | cons c l => rfl

theorem slotsFrom_full (i : ℕ) : slotsFrom d i d.perCluster = slotsFrom d (i + 1) 0 := by
  rw [slotsFrom_zero, slotsFrom, ← List.drop_drop]
  cases d.chain.drop i with
  | nil => rfl
  | cons c l => simp [clusterSlots]

theorem slotsFrom_nil {i : ℕ} (h : d.chain.length ≤ i) : slotsFrom d i j = [] := by
  rw [slotsFrom, List.drop_eq_nil_of_le h]

theorem atSlot_of_le (pos : Position) {i n : ℕ} (hcache : pos.2.Ok d.start d.chain) (hn : n ≤ d.perCluster)
    (hpos : pos.1 = i * d.clusterSize + n * entrySize) :
    AtSlot d pos (liveSlots d.toDir Pending.reset (slotsFrom d i n)) := by
  refine ⟨hcache, ?_⟩
  rcases Nat.lt_or_eq_of_le hn with hlt | rfl
  · exact ⟨i, n, hpos, hlt, rfl⟩
  · refine ⟨i + 1, 0, ?_, d.perCluster_pos, by rw [slotsFrom_full]⟩
    rw [hpos, Nat.succ_mul, Nat.zero_mul, Nat.add_zero]
    rfl

theorem chain_succ_eq_zero (h : index < d.chain.length) :
    d.table.succ d.chain[index] = 0 ↔ d.chain.length ≤ index + 1 := by
  have hlinked := d.isChain.linked
  rw [← List.take_append_drop index d.chain, List.drop_eq_getElem_cons h] at hlinked
  obtain ⟨q, -, hq⟩ := hlinked.suffix
  have hused : ∀ c ∈ d.chain[index] :: d.chain.drop (index + 1), d.table.Valid c ∧ d.table.entry c ≠ 0 := by
    intro c hc
    rw [← List.drop_eq_getElem_cons h] at hc
    exact d.isChain.used c (List.mem_of_mem_drop hc)
  rw [Chain.succ_eq_zero_iff ⟨hq, hused⟩, List.drop_eq_nil_iff]

theorem getD_chain (hle : d.chain.length ≤ index) : d.chain.getD index 0 = 0 := by
  rw [List.getD_eq_getElem?_getD, List.getElem?_eq_none hle]
  rfl

theorem readdirClusters_end (hcache : pos.2.Ok d.start d.chain) (hle : d.chain.length ≤ index) :
    readdirClusters f d.toDir left index offset p pos b =
      (0, (pos.1, (d.table.clusterAt d.start pos.2 index).2), b) := by
  have hzero : (d.table.clusterAt d.start pos.2 index).1 = 0 := by
    rw [(hcache.clusterAt d.isChain d.small index).1, getD_chain hle]
  rw [readdirClusters.eq_def]
  exact if_pos hzero

theorem readdirClusters_behind (hcache : pos.2.Ok d.start d.chain) (hle : d.chain.length ≤ index)
    (hj : j < d.perCluster) (hpos : pos.1 = index * d.clusterSize + j * entrySize) :
    (readdirClusters f d.toDir left index (j * entrySize) p pos b).1 = 0 ∧
      ∃ rest, Puts f b (liveSlots d.toDir p (slotsFrom d index j)) rest
          (readdirClusters f d.toDir left index (j * entrySize) p pos b).2.2 ∧
        AtSlot d (readdirClusters f d.toDir left index (j * entrySize) p pos b).2.1 rest.tail := by
  rw [readdirClusters_end hcache hle, slotsFrom_nil hle]
  refine ⟨rfl, [], Puts.nil f b, (hcache.clusterAt d.isChain d.small index).2, index, j, hpos, hj, ?_⟩
  rw [slotsFrom_nil hle]
  rfl

theorem readdirClusters_puts (hcache : pos.2.Ok d.start d.chain) (hj : j < d.perCluster)
    (hpos : pos.1 = index * d.clusterSize + j * entrySize) (hleft : d.table.total ≤ index + left) :
    (readdirClusters f d.toDir left index (j * entrySize) p pos b).1 = 0 ∧
      ∃ rest, Puts f b (liveSlots d.toDir p (slotsFrom d index j)) rest
          (readdirClusters f d.toDir left index (j * entrySize) p pos b).2.2 ∧
        AtSlot d (readdirClusters f d.toDir left index (j * entrySize) p pos b).2.1 rest.tail := by
  induction left generalizing index j p pos b with
  | zero =>
    have hle : d.chain.length ≤ index := by
      have := d.isChain.length_le
      omega
    exact readdirClusters_behind hcache hle hj hpos
  | succ left ih =>
    by_cases hin : index < d.chain.length
    · obtain ⟨hcluster, hok⟩ := hcache.clusterAt d.isChain d.small index
      have hmem : d.chain[index] ∈ d.chain := List.getElem_mem hin
      have hget : d.chain.getD index 0 = d.chain[index] := by
        rw [List.getD_eq_getElem?_getD, List.getElem?_eq_getElem hin]
        rfl
      have hne : d.chain[index] ≠ 0 := (d.isChain.used _ hmem).1.pos
      have hslots : (d.clusterSize - j * entrySize + entrySize - 1) / entrySize = d.perCluster - j := by
        unfold Dir.clusterSize entrySize
        omega
      have hfrom : ∀ n, slotsFrom d index n = someSlots n (d.perCluster - n) d.chain[index] ++
          slotsFrom d (index + 1) 0 := by
        intro n
        rw [slotsFrom_zero, slotsFrom, List.drop_eq_getElem_cons hin]
        rfl
      rw [readdirClusters]
      rw [hcluster, hget, if_neg hne, hslots, hfrom]
      rcases readdirSlots_puts f d.toDir d.chain[index] (d.perCluster - j) p b
        (slotsFrom d (index + 1) 0) hpos with ⟨hnone, hpos', part, hputs, hlive⟩ |
        ⟨hsome, rest, n, m, hputs, hnm, hpos', hrest⟩
      · generalize readdirSlots f d.toDir d.chain[index] index (d.perCluster - j) (j * entrySize) p pos.1 b = r
          at hnone hpos' hputs hlive ⊢
        obtain ⟨ret, pos', b', p'⟩ := r
        simp only at hnone hpos' hputs hlive
        have hend : pos' = index * d.clusterSize + d.perCluster * entrySize := by
          rw [hpos', Nat.add_sub_cancel' hj.le]
        rw [hnone, hlive, d.isChain.next d.small hmem]
        simp only
        by_cases hlast : d.table.succ d.chain[index] = 0
        · rw [if_pos hlast]
          have hnil : slotsFrom d (index + 1) 0 = [] := slotsFrom_nil ((chain_succ_eq_zero hin).mp hlast)
          rw [hnil, liveSlots_nil, List.append_nil]
          refine ⟨rfl, [], hputs, ?_⟩
          have hat := atSlot_of_le (pos', (d.table.clusterAt d.start pos.2 index).2) hok le_rfl hend
          rw [slotsFrom_full, hnil] at hat
          exact hat
        · rw [if_neg hlast]
          simp only
          have hstart : pos' = (index + 1) * d.clusterSize + 0 * entrySize := by
            rw [hend, Nat.succ_mul, Nat.zero_mul, Nat.add_zero]
            rfl
          obtain ⟨hret, rest, hputs', hat⟩ := @ih b' p' (index + 1) 0 (pos', (d.table.clusterAt d.start pos.2 index).2)
            hok d.perCluster_pos hstart (by omega)
          rw [Nat.zero_mul] at hret hputs' hat
          exact ⟨hret, rest, hputs.append hputs', hat⟩
      · generalize readdirSlots f d.toDir d.chain[index] index (d.perCluster - j) (j * entrySize) p pos.1 b = r
          at hsome hpos' hputs ⊢
        obtain ⟨ret, pos', b', p'⟩ := r
        simp only at hsome hputs hpos'
        rw [hsome]
        refine ⟨rfl, rest, hputs, ?_⟩
        have hm : m = d.perCluster - n := by omega
        rw [hrest, hm, ← hfrom]
        exact atSlot_of_le _ hok (by omega) hpos'
    · exact readdirClusters_behind hcache (by omega) hj hpos

theorem fatReaddir_puts {l : List Entry} (hat : AtSlot d pos l) :
    (fatReaddir f d.toDir pos b).1 = 0 ∧
      ∃ rest, Puts f b l rest (fatReaddir f d.toDir pos b).2.2 ∧
        AtSlot d (fatReaddir f d.toDir pos b).2.1 rest.tail := by
  obtain ⟨hcache, i, j, hpos, hj, rfl⟩ := hat
  have hlt : j * entrySize < d.clusterSize := Nat.mul_lt_mul_of_pos_right hj (by decide)
  have hdiv : pos.1 / d.clusterSize = i := by
    rw [hpos, Nat.mul_comm, Nat.mul_add_div (by omega), Nat.div_eq_of_lt hlt, Nat.add_zero]
  have hmod : pos.1 % d.clusterSize = j * entrySize := by
    rw [hpos, Nat.mul_comm i, Nat.mul_add_mod, Nat.mod_eq_of_lt hlt]
  rw [fatReaddir, hdiv, hmod]
  exact readdirClusters_puts hcache hj hpos (by omega)

theorem fatGetdents_skips (f : Format) (d : ChainDir) :
    Skips f.reclen BitVec.toInt (fatGetdents f d.toDir) (AtSlot d) := by
  intro pos l count hat
  obtain ⟨hok, rest, hputs, hnext⟩ := fatReaddir_puts (f := f) (b := ⟨[], count.toInt, 0⟩) hat
  obtain ⟨hfills, hret, hpos⟩ := doGetdents_fills (fatReaddir f d.toDir) Prod.fst pos count hok hputs
  exact ⟨rest, hfills, hret, by rw [fatGetdents, hpos]; exact hnext⟩

theorem atSlot_start (d : ChainDir) {cache : Cache} (hcache : cache.Ok d.start d.chain) :
    AtSlot d (0, cache) (liveEntries d) := by
  refine ⟨hcache, 0, 0, by simp, d.perCluster_pos, ?_⟩
  rw [slotsFrom_zero]
  rfl

end Call

end Mario.Fs.Fat.DirList
