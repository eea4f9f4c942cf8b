import Mario.Fs.Ext2.Dir

/-!
# The index of a directory against a scan of all its blocks

In a directory with an index the records of the files are in the leaves, ordered by the hash of
their names, and the first block has the records of `.` and `..`. The walk down the index ends at
the last leaf whose bound is not above the hash. It misses the first block, and it misses a leaf
that continues the hash of the leaf before it.
-/

namespace Mario.Fs.Ext2

open Mario.Lib

/-! ## Directories with an index -/

/-- The content of a block of the directory. -/
def Dir.block (d : Dir) (i : ℕ) : Buffer :=
  match d.read (d.bmap i) with
  | .ok buf => buf
  | .error _ => fun _ => 0

/-- The records from an offset on cover the rest of a block. -/
inductive Chain (buf : Buffer) (limit : ℕ) : ℕ → Prop
  | done : Chain buf limit limit
  | next {o : ℕ} : o < limit → 8 ≤ recLen buf o → o + recLen buf o ≤ limit →
      Chain buf limit (o + recLen buf o) → Chain buf limit o

/-- A record begins where the ones before it end. -/
inductive Reach (buf : Buffer) : ℕ → ℕ → Prop
  | refl (o : ℕ) : Reach buf o o
  | next {o p : ℕ} : Reach buf (o + recLen buf o) p → Reach buf o p

/-- A block of the directory has a record of a name. -/
def Dir.Record (d : Dir) (name : Name) (i p : ℕ) : Prop :=
  i * d.blockSize < d.size ∧ Reach (d.block i) 0 p ∧ p < d.blockSize ∧ Matches (d.block i) name p

/-- The entries of an index block, each with the lower bound of its hashes. The first one has the
bound of the whole block. -/
def dxEntries (e : Buffer) (lo : ℕ) : List (ℕ × ℕ) :=
  (List.range (dxCount e)).map fun i =>
    (if i = 0 then lo else dxEntryHash e i, dxEntryBlock e i)

/-- The entries of an interior index block. -/
def Dir.node (d : Dir) (i : ℕ) : Buffer := fun o => d.block i (nodeEntries + o)

/-- The entries of the root block. -/
def Dir.root (d : Dir) : Buffer := fun o => d.block 0 (rootEntries + o)

/-- The leaves below some entries. -/
def Dir.leavesBelow (d : Dir) : ℕ → List (ℕ × ℕ) → List (ℕ × ℕ)
  | 0, es => es
  | level + 1, es => es.flatMap fun e => d.leavesBelow level (dxEntries (d.node e.2) e.1)

/-- The interior index blocks below some entries. -/
def Dir.nodesBelow (d : Dir) : ℕ → List (ℕ × ℕ) → List ℕ
  | 0, _ => []
  | level + 1, es =>
      es.map Prod.snd ++ es.flatMap fun e => d.nodesBelow level (dxEntries (d.node e.2) e.1)

/-- All blocks below some entries. -/
def Dir.blocksBelow (d : Dir) : ℕ → List (ℕ × ℕ) → List ℕ
  | 0, es => es.map Prod.snd
  | level + 1, es =>
      es.map Prod.snd ++ es.flatMap fun e => d.blocksBelow level (dxEntries (d.node e.2) e.1)

/-- The leaves, with the lower bounds of their hashes. -/
def Dir.leaves (d : Dir) : List (ℕ × ℕ) :=
  d.leavesBelow (infoLevels (d.block 0)) (dxEntries d.root 0)

def Dir.nodes (d : Dir) : List ℕ := d.nodesBelow (infoLevels (d.block 0)) (dxEntries d.root 0)

def Dir.indexed (d : Dir) : List ℕ := d.blocksBelow (infoLevels (d.block 0)) (dxEntries d.root 0)

/-- The counts of an index block fit. -/
def IndexOk (e : Buffer) (available : ℕ) : Prop :=
  dxLimit e ≤ available / 8 ∧ 1 ≤ dxCount e ∧ dxCount e ≤ dxLimit e

def dot : Name := [0x2e]

def dotdot : Name := [0x2e, 0x2e]

/-- A directory with an index as the format prescribes. The low bit of a bound marks a leaf that
continues the hash of the leaf before it. -/
structure HtreeDir extends Dir where
  nrBlocks : ℕ
  blockSize_eq : blockSize = 1024 ∨ blockSize = 2048 ∨ blockSize = 4096
  nrBlocks_pos : 0 < nrBlocks
  size_eq : size = nrBlocks * blockSize
  readable : ∀ i < nrBlocks, bmap i ≠ 0 ∧ read (bmap i) = .ok (toDir.block i)
  /-- The first block has the records of `.` and `..`, the second of which covers the index. -/
  dot_record : recInode (toDir.block 0) 0 ≠ 0 ∧ recLen (toDir.block 0) 0 = 12 ∧
    recName (toDir.block 0) 0 = dot
  dotdot_record : recInode (toDir.block 0) 12 ≠ 0 ∧ recLen (toDir.block 0) 12 = blockSize - 12 ∧
    recName (toDir.block 0) 12 = dotdot
  info : infoLength (toDir.block 0) = 8 ∧ infoLevels (toDir.block 0) ≤ 2
  root_ok : IndexOk toDir.root (blockSize - rootEntries)
  /-- An interior index block has one unused record. -/
  node_ok : ∀ i ∈ toDir.nodes, IndexOk (toDir.node i) (blockSize - nodeEntries) ∧
    recInode (toDir.block i) 0 = 0 ∧ recLen (toDir.block i) 0 = blockSize
  /-- The index has every other block once. -/
  indexed_nodup : toDir.indexed.Nodup
  mem_indexed : ∀ i, i ∈ toDir.indexed ↔ 0 < i ∧ i < nrBlocks
  sorted : toDir.leaves.Pairwise fun e e' => e.1 ≤ e'.1
  leaf_chain : ∀ e ∈ toDir.leaves, Chain (toDir.block e.2) blockSize 0
  /-- No name occurs twice, and none is empty. -/
  unique : ∀ name i p j q, toDir.Record name i p → toDir.Record name j q → i = j ∧ p = q
  named : ∀ name i p, toDir.Record name i p → name ≠ []
  /-- The hash of a name is in the range of its leaf. -/
  placed : infoVersion (toDir.block 0) = hashHalfMd4 → ∀ before e after name p,
    toDir.leaves = before ++ e :: after → toDir.Record name e.2 p →
      e.1 - e.1 % 2 ≤ hashInfo.hash name ∧ ∀ e' ∈ after, hashInfo.hash name < e'.1

/-- The index is interpreted: it was made with the hash that the driver knows. -/
def Dir.Interpreted (d : Dir) : Prop :=
  d.hashInfo.version = hashHalfMd4 ∧ infoVersion (d.block 0) = hashHalfMd4

/-- A record of the name is in a leaf that continues the hash of the name. -/
def Dir.Continued (d : Dir) (name : Name) : Prop :=
  ∃ e ∈ d.leaves, e.1 = d.hashInfo.hash name + 1 ∧ ∃ p, d.Record name e.2 p

/-- Memory is never short. -/
def enough : Place → Bool := fun _ => true

/-! ## The scan of a block -/

section Scan

variable {buf : Buffer} {name : Name} {limit o p : ℕ}

theorem Reach.le (h : Reach buf o p) : o ≤ p := by
  induction h with
  | refl o => exact Nat.le_refl o
  | next _ ih => omega

theorem scan_found (h : scan buf name limit o = .found p) : Reach buf o p ∧ p < limit ∧ Matches buf name p := by
  fun_induction scan buf name limit o with
  | case1 o ho hbad => cases h
  | case2 o ho hok hmatch =>
    obtain rfl : o = p := by simpa using h
    exact ⟨Reach.refl o, ho, hmatch⟩
  | case3 o ho hok hno ih =>
    obtain ⟨hreach, hlt, hmatch⟩ := ih h
    exact ⟨Reach.next hreach, hlt, hmatch⟩
  | case4 o ho => cases h

/-- On a chain the scan is never stopped, and it misses no record. -/
theorem Chain.scan (hc : Chain buf limit o) (name : Name) :
    (∃ p, Ext2.scan buf name limit o = .found p) ∨
      Ext2.scan buf name limit o = .finished ∧ ∀ p, Reach buf o p → p < limit → ¬ Matches buf name p := by
  induction hc with
  | done =>
    right
    refine ⟨by rw [Ext2.scan, if_neg (Nat.lt_irrefl _)], fun p hreach hlt => ?_⟩
    have hle := hreach.le
    omega
  | @next o ho hrec hend _ ih =>
    rw [Ext2.scan, if_pos ho, dif_neg (by omega)]
    by_cases hmatch : Matches buf name o
    · rw [if_pos hmatch]
      exact Or.inl ⟨o, rfl⟩
    · rw [if_neg hmatch]
      rcases ih with ⟨p, hp⟩ | ⟨hfin, hnone⟩
      · exact Or.inl ⟨p, hp⟩
      · refine Or.inr ⟨hfin, fun p hreach hlt => ?_⟩
        cases hreach with
        | refl => exact hmatch
        | next hreach => exact hnone p hreach hlt

end Scan

/-! ## All blocks are chains -/

namespace HtreeDir

variable (d : HtreeDir) {name : Name} {i p level : ℕ} {es : List (ℕ × ℕ)}

theorem blockSize_ge : 1024 ≤ d.blockSize := by
  rcases d.blockSize_eq with h | h | h <;> omega

theorem lt_size : i * d.blockSize < d.size ↔ i < d.nrBlocks := by
  have hpos := d.blockSize_ge
  rw [d.size_eq]
  exact Nat.mul_lt_mul_right (by omega)

theorem limit_eq (hi : i < d.nrBlocks) : d.limit i = d.blockSize := by
  have hle : (i + 1) * d.blockSize ≤ d.nrBlocks * d.blockSize := Nat.mul_le_mul_right _ hi
  rw [Nat.add_mul, Nat.one_mul] at hle
  rw [Dir.limit, d.size_eq, if_neg (by omega)]

theorem mem_blocksBelow (d : Dir) (level : ℕ) (es : List (ℕ × ℕ)) (i : ℕ) :
    i ∈ d.blocksBelow level es ↔ i ∈ d.nodesBelow level es ∨ ∃ e ∈ d.leavesBelow level es, e.2 = i := by
  induction level generalizing es with
  | zero => simp [Dir.blocksBelow, Dir.nodesBelow, Dir.leavesBelow]
  | succ level ih =>
    simp only [Dir.blocksBelow, Dir.nodesBelow, Dir.leavesBelow, List.mem_append, List.mem_flatMap, ih]
    constructor
    · rintro (h | ⟨e, he, h | ⟨e', he', h⟩⟩)
      · exact Or.inl (Or.inl h)
      · exact Or.inl (Or.inr ⟨e, he, h⟩)
      · exact Or.inr ⟨e', ⟨e, he, he'⟩, h⟩
    · rintro ((h | ⟨e, he, h⟩) | ⟨e', ⟨e, he, he'⟩, h⟩)
      · exact Or.inl h
      · exact Or.inr ⟨e, he, Or.inl h⟩
      · exact Or.inr ⟨e, he, Or.inr ⟨e', he', h⟩⟩

theorem leavesBelow_nodup (d : Dir) (level : ℕ) (es : List (ℕ × ℕ))
    (h : (d.blocksBelow level es).Nodup) : ((d.leavesBelow level es).map Prod.snd).Nodup := by
  induction level generalizing es with
  | zero => exact h
  | succ level ih =>
    obtain ⟨-, hbelow, -⟩ := List.nodup_append.mp h
    obtain ⟨hsub, hcross⟩ := List.nodup_flatMap.mp hbelow
    rw [Dir.leavesBelow, List.map_flatMap]
    refine List.nodup_flatMap.mpr ⟨fun e he => ih _ (hsub e he), hcross.imp ?_⟩
    intro a b hab x hxa hxb
    obtain ⟨y, hy, rfl⟩ := List.mem_map.mp hxa
    obtain ⟨z, hz, hzy⟩ := List.mem_map.mp hxb
    exact hab ((mem_blocksBelow ..).mpr (Or.inr ⟨y, hy, rfl⟩)) ((mem_blocksBelow ..).mpr (Or.inr ⟨z, hz, hzy⟩))

theorem leaves_nodup : (d.leaves.map Prod.snd).Nodup := leavesBelow_nodup _ _ _ d.indexed_nodup

theorem block_chain (hi : i < d.nrBlocks) : Chain (d.block i) d.blockSize 0 := by
  have hsize := d.blockSize_ge
  by_cases h0 : i = 0
  · subst h0
    obtain ⟨-, hdot, -⟩ := d.dot_record
    obtain ⟨-, hdotdot, -⟩ := d.dotdot_record
    refine Chain.next (by omega) (by omega) (by omega) ?_
    rw [hdot, Nat.zero_add]
    refine Chain.next (by omega) (by omega) (by omega) ?_
    rw [hdotdot, show 12 + (d.blockSize - 12) = d.blockSize by omega]
    exact Chain.done
  · have hmem := (d.mem_indexed i).mpr ⟨by omega, hi⟩
    rcases (mem_blocksBelow _ _ _ i).mp hmem with hnode | ⟨e, he, rfl⟩
    · obtain ⟨-, -, hlen⟩ := d.node_ok i hnode
      refine Chain.next (by omega) (by omega) (by omega) ?_
      rw [hlen, Nat.zero_add]
      exact Chain.done
    · exact d.leaf_chain e he

theorem record_leaf (h : d.Record name i p) (h0 : i ≠ 0) : ∃ e ∈ d.leaves, e.2 = i := by
  obtain ⟨hi, hreach, hlt, hmatch⟩ := h
  have hmem := (d.mem_indexed i).mpr ⟨by omega, d.lt_size.mp hi⟩
  rcases (mem_blocksBelow _ _ _ i).mp hmem with hnode | hleaf
  · obtain ⟨-, hinode, hlen⟩ := d.node_ok i hnode
    exfalso
    cases hreach with
    | refl => exact hmatch.1 hinode
    | next hreach =>
      have hle := hreach.le
      omega
  · exact hleaf

theorem record_zero : (∃ p, d.Record name 0 p) ↔ name = dot ∨ name = dotdot := by
  have hsize := d.blockSize_ge
  have hpos : 0 * d.blockSize < d.size := d.lt_size.mpr d.nrBlocks_pos
  obtain ⟨hino, hlen, hname⟩ := d.dot_record
  obtain ⟨hino', hlen', hname'⟩ := d.dotdot_record
  have hsecond : Reach (d.block 0) 0 12 := by
    refine Reach.next ?_
    rw [hlen]
    exact Reach.refl _
  constructor
  · rintro ⟨p, -, hreach, hlt, hmatch⟩
    cases hreach with
    | refl => exact Or.inl (hmatch.2.symm.trans hname)
    | next hreach =>
      rw [hlen, Nat.zero_add] at hreach
      cases hreach with
      | refl => exact Or.inr (hmatch.2.symm.trans hname')
      | next hreach =>
        have hle := hreach.le
        omega
  · rintro (rfl | rfl)
    · exact ⟨0, hpos, Reach.refl 0, by omega, hino, hname⟩
    · exact ⟨12, hpos, hsecond, by omega, hino', hname'⟩

/-! ## The scan of all blocks -/

theorem scan_block (hi : i < d.nrBlocks) (name : Name) :
    (∃ p, scan (d.block i) name (d.limit i) 0 = .found p ∧ d.Record name i p) ∨
      scan (d.block i) name (d.limit i) 0 = .finished ∧ ∀ p, ¬ d.Record name i p := by
  rw [d.limit_eq hi]
  rcases (d.block_chain hi).scan name with ⟨p, hp⟩ | ⟨hfin, hnone⟩
  · obtain ⟨hreach, hlt, hmatch⟩ := scan_found hp
    exact Or.inl ⟨p, hp, d.lt_size.mpr hi, hreach, hlt, hmatch⟩
  · refine Or.inr ⟨hfin, fun p hrec => ?_⟩
    exact hnone p hrec.2.1 hrec.2.2.1 hrec.2.2.2

/-- The scan finds a record in one of the blocks, or there is none in them. -/
theorem findBlocks_cases {is : List ℕ} (his : ∀ i ∈ is, i < d.nrBlocks) (name : Name) :
    (∃ i ∈ is, ∃ p, findBlocks d.toDir enough name is = .ok (d.bmap i, p) ∧ d.Record name i p) ∨
      (∃ e, findBlocks d.toDir enough name is = .error e) ∧ ∀ i ∈ is, ∀ p, ¬ d.Record name i p := by
  induction is with
  | nil => exact Or.inr ⟨⟨_, rfl⟩, fun i hi => by cases hi⟩
  | cons i is ih =>
    have hi := his i List.mem_cons_self
    obtain ⟨hmap, hread⟩ := d.readable i hi
    rw [findBlocks, if_neg hmap, if_neg (by simp [enough]), hread]
    dsimp only
    rcases d.scan_block hi name with ⟨p, hp, hrec⟩ | ⟨hfin, hnone⟩
    · rw [hp]
      exact Or.inl ⟨i, List.mem_cons_self, p, rfl, hrec⟩
    · rw [hfin]
      rcases ih fun j hj => his j (List.mem_cons_of_mem i hj) with
        ⟨j, hj, p, hfind, hrec⟩ | ⟨herr, hrest⟩
      · exact Or.inl ⟨j, List.mem_cons_of_mem i hj, p, hfind, hrec⟩
      · refine Or.inr ⟨herr, fun j hj => ?_⟩
        rcases List.mem_cons.mp hj with rfl | hj
        · exact hnone
        · exact hrest j hj

/-- The scan of all blocks returns the record of a name if there is one. -/
theorem linearFindEntry_iff (r : ℕ × ℕ) :
    linearFindEntry d.toDir enough name = .ok r ↔ ∃ i p, r = (d.bmap i, p) ∧ d.Record name i p := by
  have hpos := d.blockSize_ge
  have hblocks : (d.size + d.blockSize - 1) / d.blockSize = d.nrBlocks := by
    rw [d.size_eq, Nat.add_sub_assoc (by omega), Nat.add_comm, Nat.add_mul_div_right _ _ (by omega),
      Nat.div_eq_of_lt (by omega), Nat.zero_add]
  rw [linearFindEntry, hblocks]
  constructor
  · intro h
    rcases d.findBlocks_cases (fun i hi => List.mem_range.mp hi) name with
      ⟨i, -, p, hfind, hrec⟩ | ⟨⟨e, herr⟩, -⟩
    · exact ⟨i, p, Except.ok.inj (h.symm.trans hfind), hrec⟩
    · rw [herr] at h
      cases h
  · rintro ⟨i, p, rfl, hrec⟩
    rcases d.findBlocks_cases (fun i hi => List.mem_range.mp hi) name with
      ⟨j, -, q, hfind, hrec'⟩ | ⟨-, hnone⟩
    · obtain ⟨rfl, rfl⟩ := d.unique name i p j q hrec hrec'
      exact hfind
    · exact absurd hrec (hnone i (List.mem_range.mpr (d.lt_size.mp hrec.1)) p)

/-! ## The walk down the index -/

end HtreeDir

theorem length_dxEntries (e : Buffer) (lo : ℕ) : (dxEntries e lo).length = dxCount e := by
  rw [dxEntries, List.length_map, List.length_range]

theorem getElem_dxEntries (e : Buffer) (lo : ℕ) {i : ℕ} (hi : i < (dxEntries e lo).length) :
    (dxEntries e lo)[i] = (if i = 0 then lo else dxEntryHash e i, dxEntryBlock e i) := by
  simp only [dxEntries, List.getElem_map, List.getElem_range]

/-- A probe finds the last entry whose bound is not above the hash. -/
theorem dxProbe_eq {e : Buffer} {available h lo : ℕ} (hok : IndexOk e available) (hlo : lo ≤ h)
    (hsorted : (dxEntries e lo).Pairwise fun x y => x.1 ≤ y.1) :
    ∃ x, lastLe Prod.fst h (dxEntries e lo) = some x ∧ dxProbe e available h = .ok x.2 := by
  obtain ⟨hlimit, hcount, hle⟩ := hok
  have hlen := length_dxEntries e lo
  rw [dxProbe, if_neg (by omega)]
  by_cases hone : dxCount e = 1
  · rw [if_pos hone]
    refine ⟨(dxEntries e lo)[0], lastLe_getElem (by omega) ?_ fun j hj hpos => by omega, ?_⟩
    · rw [getElem_dxEntries]
      exact hlo
    · rw [getElem_dxEntries]
  · rw [if_neg hone]
    have hmono : ∀ i j, 1 ≤ i → i ≤ j → j ≤ dxCount e - 1 → dxEntryHash e i ≤ dxEntryHash e j := by
      intro i j hi hij hj
      rcases Nat.eq_or_lt_of_le hij with rfl | hlt
      · exact Nat.le_refl _
      · have hpair := List.pairwise_iff_getElem.mp hsorted i j (by omega) (by omega) hlt
        rw [getElem_dxEntries, getElem_dxEntries, if_neg (by omega), if_neg (by omega)] at hpair
        exact hpair
    obtain ⟨hge, hub, hbelow, habove⟩ := bisect_spec (h := h) Nat.one_pos (by omega) hmono
    set k := bisect (dxEntryHash e) h 1 (dxCount e - 1) with hk
    have hlt : k - 1 < (dxEntries e lo).length := by omega
    refine ⟨(dxEntries e lo)[k - 1], lastLe_getElem hlt ?_ fun j hj hkj => ?_, ?_⟩
    · rw [getElem_dxEntries]
      dsimp only
      split_ifs with hzero
      · exact hlo
      · exact hbelow (k - 1) (by omega) (by omega)
    · rw [getElem_dxEntries, if_neg (by omega)]
      exact habove j (by omega) (by omega)
    · rw [getElem_dxEntries]

/-- The first leaf below an index block has the bound of the block. -/
theorem leavesBelow_head (d : Dir) {e : Buffer} {level lo : ℕ} (hcount : 1 ≤ dxCount e)
    (hnodes : ∀ i ∈ d.nodesBelow level (dxEntries e lo), 1 ≤ dxCount (d.node i)) :
    ∃ b rest, d.leavesBelow level (dxEntries e lo) = (lo, b) :: rest := by
  have hcons : ∃ rest, dxEntries e lo = (lo, dxEntryBlock e 0) :: rest := by
    obtain ⟨n, hn⟩ : ∃ n, dxCount e = n + 1 := ⟨dxCount e - 1, by omega⟩
    rw [dxEntries, hn, List.range_succ_eq_map, List.map_cons]
    exact ⟨_, rfl⟩
  obtain ⟨rest, hrest⟩ := hcons
  induction level generalizing e rest with
  | zero => exact ⟨_, rest, hrest⟩
  | succ level ih =>
    rw [hrest] at hnodes
    have hchild : 1 ≤ dxCount (d.node (dxEntryBlock e 0)) :=
      hnodes _ (List.mem_append_left _ List.mem_cons_self)
    have hbelow : ∀ i ∈ d.nodesBelow level (dxEntries (d.node (dxEntryBlock e 0)) lo),
        1 ≤ dxCount (d.node i) := by
      intro i hi
      exact hnodes i (List.mem_append_right _ (List.mem_flatMap.mpr ⟨_, List.mem_cons_self, hi⟩))
    obtain ⟨n, hn⟩ : ∃ n, dxCount (d.node (dxEntryBlock e 0)) = n + 1 :=
      ⟨dxCount (d.node (dxEntryBlock e 0)) - 1, by omega⟩
    obtain ⟨b, rest', hfirst⟩ := ih hchild hbelow _
      (by rw [dxEntries, hn, List.range_succ_eq_map, List.map_cons]; rfl)
    rw [hrest, Dir.leavesBelow, List.flatMap_cons]
    dsimp only
    rw [hfirst, List.cons_append]
    exact ⟨b, _, rfl⟩

namespace HtreeDir

variable (d : HtreeDir) {name : Name} {i p : ℕ}

/-- The walk ends at the last leaf whose bound is not above the hash. -/
theorem dxWalk_eq {h : ℕ} {mem : ℕ → Bool} (hmem : ∀ level, mem level = true) (level : ℕ)
    (buf : Buffer) (entries lo : ℕ) (seen : List ℕ)
    (hok : IndexOk (fun o => buf (entries + o)) (d.blockSize - entries)) (hlo : lo ≤ h)
    (hnodes : ∀ i ∈ d.nodesBelow level (dxEntries (fun o => buf (entries + o)) lo),
      IndexOk (d.node i) (d.blockSize - nodeEntries))
    (hsorted : (d.leavesBelow level (dxEntries (fun o => buf (entries + o)) lo)).Pairwise
      fun x y => x.1 ≤ y.1)
    (hnodup : (d.blocksBelow level (dxEntries (fun o => buf (entries + o)) lo)).Nodup)
    (hrange : ∀ i ∈ d.blocksBelow level (dxEntries (fun o => buf (entries + o)) lo), 0 < i ∧ i < d.nrBlocks)
    (hseen : ∀ i ∈ seen, i ∉ d.blocksBelow level (dxEntries (fun o => buf (entries + o)) lo)) :
    ∃ x, lastLe Prod.fst h (d.leavesBelow level (dxEntries (fun o => buf (entries + o)) lo)) =
        some x ∧ dxWalk d.toDir mem h level buf entries seen = .ok x.2 := by
  induction level generalizing buf entries lo seen with
  | zero =>
    obtain ⟨x, hlast, hprobe⟩ := dxProbe_eq hok hlo hsorted
    refine ⟨x, hlast, ?_⟩
    have hx : x.2 ∈ d.blocksBelow 0 (dxEntries (fun o => buf (entries + o)) lo) :=
      List.mem_map_of_mem (mem_of_lastLe hlast)
    obtain ⟨hpos, hlt⟩ := hrange _ hx
    have hsize := d.lt_size.mpr hlt
    rw [dxWalk, hprobe]
    dsimp only
    rw [if_neg (by omega), if_neg fun hin => hseen _ hin hx]
  | succ level ih =>
    set es := dxEntries (fun o => buf (entries + o)) lo with hes
    obtain ⟨hsub, hcross⟩ := List.pairwise_flatMap.mp hsorted
    obtain ⟨htop, hbelow, hdisjoint⟩ := List.nodup_append.mp hnodup
    -- What the entry finds below it.
    have hchild : ∀ e ∈ es, ∀ i ∈ d.nodesBelow level (dxEntries (d.node e.2) e.1),
        IndexOk (d.node i) (d.blockSize - nodeEntries) := fun e he i hi =>
      hnodes i (List.mem_append_right _ (List.mem_flatMap.mpr ⟨e, he, hi⟩))
    have hnode : ∀ e ∈ es, IndexOk (d.node e.2) (d.blockSize - nodeEntries) := fun e he =>
      hnodes e.2 (List.mem_append_left _ (List.mem_map_of_mem he))
    have hhead : ∀ e ∈ es, ∃ b rest, d.leavesBelow level (dxEntries (d.node e.2) e.1) = (e.1, b) :: rest := fun e he =>
      leavesBelow_head d.toDir (hnode e he).2.1 fun i hi => (hchild e he i hi).2.1
    have hes_sorted : es.Pairwise fun x y => x.1 ≤ y.1 := by
      refine hcross.imp_of_mem fun {a b} ha hb hab => ?_
      obtain ⟨ba, ra, hra⟩ := hhead a ha
      obtain ⟨bb, rb, hrb⟩ := hhead b hb
      exact hab (a.1, ba) (by rw [hra]; exact List.mem_cons_self) (b.1, bb)
        (by rw [hrb]; exact List.mem_cons_self)
    obtain ⟨x, hlast, hprobe⟩ := dxProbe_eq hok hlo hes_sorted
    have hxes : x ∈ es := mem_of_lastLe hlast
    have hxtop : x.2 ∈ es.map Prod.snd := List.mem_map_of_mem hxes
    obtain ⟨hpos, hlt⟩ := hrange _ (List.mem_append_left _ hxtop)
    have hsize := d.lt_size.mpr hlt
    obtain ⟨hmap, hread⟩ := d.readable _ hlt
    have hin : ∀ i ∈ d.blocksBelow level (dxEntries (d.node x.2) x.1),
        i ∈ es.flatMap fun e => d.blocksBelow level (dxEntries (d.node e.2) e.1) := fun i hi =>
      List.mem_flatMap.mpr ⟨x, hxes, hi⟩
    obtain ⟨y, hylast, hywalk⟩ := ih (d.block x.2) nodeEntries x.1
      (seen ++ [x.2]) (hnode x hxes) (le_of_lastLe hlast) (hchild x hxes) (hsub x hxes)
      ((List.nodup_flatMap.mp hbelow).1 x hxes)
      (fun i hi => hrange i (List.mem_append_right _ (hin i hi)))
      (fun i hi hmem => by
        rcases List.mem_append.mp hi with hi | hi
        · exact hseen i hi (List.mem_append_right _ (hin i hmem))
        · obtain rfl := List.mem_singleton.mp hi
          exact hdisjoint _ hxtop _ (hin _ hmem) rfl)
    refine ⟨y, ?_, ?_⟩
    · rw [Dir.leavesBelow, lastLe_flatMap Prod.fst]
      · rw [hlast]
        exact hylast
      · intro e he
        obtain ⟨b, rest, hrest⟩ := hhead e he
        exact ⟨(e.1, b), by rw [hrest]; exact List.mem_cons_self, rfl⟩
      · intro e he c hc
        obtain ⟨b, rest, hrest⟩ := hhead e he
        have hpair := hsub e he
        rw [hrest] at hpair hc
        rcases List.mem_cons.mp hc with rfl | hc
        · exact Nat.le_refl _
        · exact (List.pairwise_cons.mp hpair).1 c hc
    · rw [dxWalk, hprobe]
      dsimp only
      rw [if_neg (by omega), if_neg fun hin => hseen _ hin (List.mem_append_left _ hxtop), if_neg hmap,
        if_neg (by simp [hmem]), hread]
      exact hywalk

theorem dxFindEntry_eq (hname : name ≠ []) (hint : d.Interpreted) :
    ∃ x, lastLe Prod.fst (d.hashInfo.hash name) d.leaves = some x ∧ 0 < x.2 ∧ x.2 < d.nrBlocks ∧
      dxFindEntry d.toDir enough name =
        match scan (d.block x.2) name (d.limit x.2) 0 with
        | .found o => .ok (d.bmap x.2, o)
        | .finished => .error .enoent
        | .malformed => .error .eio := by
  obtain ⟨hversion, hinfo⟩ := hint
  obtain ⟨hlength, hlevels⟩ := d.info
  have hmem : ∀ level, (fun level => enough (.node level)) level = true := fun _ => rfl
  obtain ⟨x, hlast, hwalk⟩ := d.dxWalk_eq (h := d.hashInfo.hash name) hmem
    (infoLevels (d.block 0)) (d.block 0) rootEntries 0 [] d.root_ok (Nat.zero_le _) (fun i hi => (d.node_ok i hi).1) d.sorted d.indexed_nodup
    (fun i hi => (d.mem_indexed i).mp hi) (fun i hi => by cases hi)
  have hx : x.2 ∈ d.indexed :=
    (mem_blocksBelow _ _ _ _).mpr (Or.inr ⟨x, mem_of_lastLe hlast, rfl⟩)
  obtain ⟨hpos, hlt⟩ := (d.mem_indexed _).mp hx
  obtain ⟨hmap, hread⟩ := d.readable _ hlt
  obtain ⟨hmap0, hread0⟩ := d.readable 0 d.nrBlocks_pos
  have hhash : dirhash d.hashInfo name = .ok (d.hashInfo.hash name) := by
    rw [dirhash, if_neg]
    rintro (h | h)
    · exact hname h
    · exact h hversion
  refine ⟨x, hlast, hpos, hlt, ?_⟩
  rw [dxFindEntry, hhash]
  dsimp only
  rw [if_neg hmap0, if_neg (by simp [enough]), hread0]
  dsimp only
  rw [if_neg (by omega)]
  rw [hwalk]
  dsimp only
  refine (if_neg hmap).trans ((if_neg (by simp [enough])).trans ?_)
  generalize d.read (d.bmap x.2) = data at hread ⊢
  obtain rfl := hread
  rfl

theorem dxFindEntry_unsupported (hint : name = [] ∨ ¬ d.Interpreted) :
    ∃ e, dxFindEntry d.toDir enough name = .error e := by
  obtain ⟨hmap0, hread0⟩ := d.readable 0 d.nrBlocks_pos
  rw [dxFindEntry, dirhash]
  by_cases hversion : name = [] ∨ d.hashInfo.version ≠ hashHalfMd4
  · rw [if_pos hversion]
    exact ⟨_, rfl⟩
  · rw [if_neg hversion]
    dsimp only
    rw [if_neg hmap0, if_neg (by simp [enough]), hread0]
    dsimp only
    rw [if_pos]
    · exact ⟨_, rfl⟩
    · left
      intro hinfo
      rcases hint with h | h
      · exact hversion (Or.inl h)
      · exact h ⟨by_contra fun hne => hversion (Or.inr hne), hinfo⟩

theorem hash_even (i : HashInfo) (name : Name) : i.hash name % 2 = 0 := by
  have hbit : ((dirhashLoop i.start name).b &&& ~~~1#32).getLsbD 0 = false := by
    rw [BitVec.getLsbD_and, BitVec.getLsbD_not]
    simp
  rw [HashInfo.hash]
  rw [BitVec.getLsbD, Nat.testBit_zero] at hbit
  have := decide_eq_false_iff_not.mp hbit
  omega

/-- What the lookup in the index returns is a record of the name. -/
theorem record_of_dxFindEntry {r : ℕ × ℕ} (h : dxFindEntry d.toDir enough name = .ok r) :
    name ≠ [] ∧ d.Interpreted ∧ ∃ x p, lastLe Prod.fst (d.hashInfo.hash name) d.leaves = some x ∧
      0 < x.2 ∧ r = (d.bmap x.2, p) ∧ d.Record name x.2 p := by
  have hsupported : ¬ (name = [] ∨ ¬ d.Interpreted) := by
    intro hint
    obtain ⟨e, he⟩ := d.dxFindEntry_unsupported hint
    rw [he] at h
    cases h
  rw [not_or, not_not] at hsupported
  obtain ⟨hname, hint⟩ := hsupported
  obtain ⟨x, hlast, hpos, hlt, hfind⟩ := d.dxFindEntry_eq hname hint
  refine ⟨hname, hint, x, ?_⟩
  rw [hfind] at h
  rcases d.scan_block hlt name with ⟨p, hp, hrec⟩ | ⟨hfin, -⟩
  · rw [hp] at h
    exact ⟨p, hlast, hpos, (Except.ok.inj h).symm, hrec⟩
  · rw [hfin] at h
    cases h

/-- The lookup in the index finds the record of a leaf whose bound is not above the hash. -/
theorem dxFindEntry_of_record (hint : d.Interpreted) {e : ℕ × ℕ} (he : e ∈ d.leaves)
    (hle : e.1 ≤ d.hashInfo.hash name) (hrec : d.Record name e.2 p) :
    dxFindEntry d.toDir enough name = .ok (d.bmap e.2, p) := by
  obtain ⟨before, after, hsplit⟩ := List.append_of_mem he
  have hafter := (d.placed hint.2 before e after name p hsplit hrec).2
  have hfound : lastLe Prod.fst (d.hashInfo.hash name) d.leaves = some e := by
    rw [hsplit]
    exact lastLe_split hle hafter
  obtain ⟨x, hlast, hpos, hlt, hfind⟩ := d.dxFindEntry_eq (d.named name _ _ hrec) hint
  obtain rfl : e = x := Option.some.inj (hfound.symm.trans hlast)
  rw [hfind]
  rcases d.scan_block hlt name with ⟨q, hq, hrec'⟩ | ⟨-, hnone⟩
  · obtain ⟨-, rfl⟩ := d.unique name _ p _ q hrec hrec'
    rw [hq]
  · exact absurd hrec (hnone p)

end HtreeDir

/-- The lookup in the index and the scan of all blocks agree on a name exactly when it is neither
`.` nor `..`, and the directory either has no such name, or its index is interpreted and the record
is not in a leaf that continues the hash of the name. -/
theorem dxFindEntry_agrees_iff (d : HtreeDir) (name : Name) :
    (∀ r, dxFindEntry d.toDir enough name = .ok r ↔ linearFindEntry d.toDir enough name = .ok r) ↔
      name ≠ dot ∧ name ≠ dotdot ∧
        ((∃ i p, d.Record name i p) → d.Interpreted ∧ ¬ d.Continued name) := by
  constructor
  · intro hagree
    -- A record is found by the scan, so the index leads to its block.
    have hdx : ∀ i p, d.Record name i p → d.Interpreted ∧ ∃ x,
        lastLe Prod.fst (d.hashInfo.hash name) d.leaves = some x ∧ 0 < x.2 ∧ i = x.2 := by
      intro i p hrec
      obtain ⟨-, hint, x, q, hlast, hpos, -, hrec'⟩ := d.record_of_dxFindEntry
        ((hagree _).mpr ((d.linearFindEntry_iff _).mpr ⟨i, p, rfl, hrec⟩))
      exact ⟨hint, x, hlast, hpos, (d.unique name i p x.2 q hrec hrec').1⟩
    have hzero : ¬ ∃ p, d.Record name 0 p := by
      rintro ⟨p, hrec⟩
      obtain ⟨-, x, -, hpos, hx⟩ := hdx 0 p hrec
      omega
    rw [d.record_zero, not_or] at hzero
    refine ⟨hzero.1, hzero.2, ?_⟩
    rintro ⟨i, p, hrec⟩
    refine ⟨(hdx i p hrec).1, ?_⟩
    rintro ⟨e, he, hbound, q, hrec'⟩
    obtain ⟨-, x, hlast, -, hx⟩ := hdx e.2 q hrec'
    -- The same block is once in the index, so the leaf is the one that the walk ends at.
    have hnodup : (d.leaves.map Prod.snd).Nodup := d.leaves_nodup
    obtain rfl : e = x := List.inj_on_of_nodup_map hnodup he (mem_of_lastLe hlast) hx
    have hle := le_of_lastLe hlast
    omega
  · rintro ⟨hdot, hdotdot, hcond⟩ r
    rw [d.linearFindEntry_iff]
    constructor
    · intro h
      obtain ⟨-, -, x, p, -, -, hr, hrec⟩ := d.record_of_dxFindEntry h
      exact ⟨x.2, p, hr, hrec⟩
    · rintro ⟨i, p, rfl, hrec⟩
      obtain ⟨hint, hcont⟩ := hcond ⟨i, p, hrec⟩
      have hne : i ≠ 0 := by
        rintro rfl
        rcases d.record_zero.mp ⟨p, hrec⟩ with h | h
        · exact hdot h
        · exact hdotdot h
      obtain ⟨e, he, rfl⟩ := d.record_leaf hrec hne
      refine d.dxFindEntry_of_record hint he ?_ hrec
      obtain ⟨before, after, hsplit⟩ := List.append_of_mem he
      have hplaced := (d.placed hint.2 before e after name p hsplit hrec).1
      have heven := HtreeDir.hash_even d.hashInfo name
      have hnot : e.1 ≠ d.hashInfo.hash name + 1 := fun h => hcont ⟨e, he, h, p, hrec⟩
      omega

/-! ## A directory with one leaf -/

/-- The root block: the two records, the index with one entry. -/
def rootBlock : Buffer := fun o =>
  if o = 0 ∨ o = 7 ∨ o = 12 ∨ o = 18 ∨ o = 19 then 2
  else if o = 4 then 12
  else if o = 6 ∨ o = 28 ∨ o = 34 ∨ o = 36 then 1
  else if o = 8 ∨ o = 20 ∨ o = 21 then 0x2e
  else if o = 16 then 0xf4
  else if o = 17 then 3
  else if o = 29 then 8
  else if o = 32 then 124
  else 0

/-- The leaf: one record that covers it. -/
def leafBlock : Buffer := fun o =>
  if o = 0 then 12 else if o = 5 then 4 else if o = 6 ∨ o = 7 then 1 else if o = 8 then 0x61 else 0

def oneLeafDir : Dir where
  blockSize := 1024
  size := 2048
  hashInfo := ⟨1, ⟨0, 0, 0, 0⟩⟩
  bmap i := 10 + i
  read b := if b = 10 then .ok rootBlock else if b = 11 then .ok leafBlock else .error .eio

theorem oneLeafDir_record {name : Name} {i p : ℕ} (h : oneLeafDir.Record name i p) :
    i = 0 ∧ p = 0 ∧ name = dot ∨ i = 0 ∧ p = 12 ∧ name = dotdot ∨ i = 1 ∧ p = 0 ∧ name = [0x61] := by
  obtain ⟨hi, hreach, hlt, -, hname⟩ := h
  have hi : i * 1024 < 2048 := hi
  have hlt : p < 1024 := hlt
  obtain rfl | rfl : i = 0 ∨ i = 1 := by omega
  · cases hreach with
    | refl => exact Or.inl ⟨rfl, rfl, hname.symm⟩
    | next hreach =>
      cases hreach with
      | refl => exact Or.inr (Or.inl ⟨rfl, rfl, hname.symm⟩)
      | next hreach =>
        have hle : 1024 ≤ p := hreach.le
        omega
  · cases hreach with
    | refl => exact Or.inr (Or.inr ⟨rfl, rfl, hname.symm⟩)
    | next hreach =>
      have hle : 1024 ≤ p := hreach.le
      omega

def oneLeaf : HtreeDir where
  toDir := oneLeafDir
  nrBlocks := 2
  blockSize_eq := Or.inl rfl
  nrBlocks_pos := by decide
  size_eq := rfl
  readable i hi := by
    obtain rfl | rfl : i = 0 ∨ i = 1 := by omega
    · exact ⟨by decide, rfl⟩
    · exact ⟨by decide, rfl⟩
  dot_record := by decide
  dotdot_record := by decide
  info := by decide
  root_ok := by unfold IndexOk; decide
  node_ok i hi := by
    have hnodes : oneLeafDir.nodes = [] := by decide
    rw [hnodes] at hi
    cases hi
  indexed_nodup := by decide
  mem_indexed i := by
    have hindexed : oneLeafDir.indexed = [1] := by decide
    rw [hindexed, List.mem_singleton]
    omega
  sorted := by decide
  leaf_chain := by
    have hleaves : oneLeafDir.leaves = [(0, 1)] := by decide
    rw [hleaves]
    intro e he
    obtain rfl := List.mem_singleton.mp he
    exact Chain.next (by decide) (by decide) (by decide) Chain.done
  unique name i p j q h h' := by
    rcases oneLeafDir_record h with ⟨rfl, rfl, rfl⟩ | ⟨rfl, rfl, rfl⟩ | ⟨rfl, rfl, rfl⟩ <;>
      rcases oneLeafDir_record h' with ⟨rfl, rfl, hn⟩ | ⟨rfl, rfl, hn⟩ | ⟨rfl, rfl, hn⟩ <;>
      first | exact ⟨rfl, rfl⟩ | exact absurd hn (by decide)
  named name i p h := by
    rcases oneLeafDir_record h with ⟨-, -, rfl⟩ | ⟨-, -, rfl⟩ | ⟨-, -, rfl⟩ <;> decide
  placed _ before e after name p hsplit _ := by
    have hleaves : oneLeafDir.leaves = [(0, 1)] := by decide
    rw [hleaves] at hsplit
    obtain ⟨rfl, rfl, rfl⟩ : before = [] ∧ e = (0, 1) ∧ after = [] := by
      rcases before with _ | ⟨x, xs⟩
      · obtain ⟨rfl, rfl⟩ := List.cons.inj hsplit
        exact ⟨rfl, rfl, rfl⟩
      · have hnil := (List.cons.inj hsplit).2
        simp at hnil
    exact ⟨Nat.zero_le _, fun e' he' => by cases he'⟩

/-- The record of `.` is in the first block, where the lookup in the index never looks. -/
theorem dot_not_found :
    dxFindEntry oneLeaf.toDir enough dot = .error .enoent ∧
      linearFindEntry oneLeaf.toDir enough dot = .ok (10, 0) := by
  constructor
  · decide +kernel
  · decide +kernel

end Mario.Fs.Ext2
