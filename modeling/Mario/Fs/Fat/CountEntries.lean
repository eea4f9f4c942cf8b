import Mario.Fs.Fat.Readdir

/-!
# Counting the entries of all directories

`fat_count_directory_entries` of `dir.c` has a stack of the directories that it has found and not yet read, and marks
those that it has found. It leaves the loop over the clusters of a directory with the last one in its hand, and takes that
for a chain that has not ended.
-/

namespace Mario.Fs.Fat.CountEntries

open Mario.Lib Mario.Fs.Fat.Clusters Function
open Mario.Fs.Readdir (einval eio)
open Mario.Fs.Fat.DirList (Buffer entrySize attrLfn attrVolumeId attrDirectory read16)

/-- `ENOENT` and `ENOMEM`. -/
def enoent : ℤ := -2
def enomem : ℤ := -12

/-- What the function reads of a mounted volume. -/
structure Volume where
  table : Table
  perCluster : ℕ
  rootCluster : ℕ
  read : ℕ → Buffer

/-- A slot of a cluster. -/
def Volume.slot (v : Volume) (cluster offset : ℕ) : Buffer := fun i => v.read cluster (offset + i)

def fatEntryFirstCluster (entry : Buffer) : ℕ := (read16 entry 20 ++ read16 entry 26).toNat

/-- A slot that is not used. -/
def isFree (entry : Buffer) : Bool := entry 0 = 0 ∨ entry 0 = 0xe5

/-- A slot with the short name of a file or directory. -/
def isLive (entry : Buffer) : Bool := !isFree entry && entry 11 ≠ attrLfn && entry 11 &&& attrVolumeId = 0

/-- The largest block of `kmalloc`. -/
def kmallocMax : ℕ := 262144 - 16 - 4

/-- The answers of the allocator, for sizes that it has, and of the disk, those of the loop by the number of clusters read
before. -/
structure Answers where
  seen : Bool
  stack : Bool
  buffer : ℕ → Bool
  read : ℕ → Option ℤ
  fat : ℕ → Option ℤ

/-- The stack, the marks and the counters of 32 bits. -/
structure State where
  stack : List ℕ
  seen : ℕ → Bool
  used : ℕ
  free : ℕ
  reads : ℕ

/-- The cells of the memory for the stack. -/
def stackSize (v : Volume) : ℕ := v.table.total * 4 % 2 ^ 32 / 4

/-- `stack[top++] = cluster`, or nothing when the cell is behind the memory. -/
def push (v : Volume) (cluster : ℕ) (s : State) : Option State :=
  if s.stack.length < stackSize v then some { s with stack := cluster :: s.stack } else none

/-- A slot of a cluster. -/
def countSlot (v : Volume) (entry : Buffer) (s : State) : Option State :=
  if isFree entry then some { s with free := (s.free + 1) % 2 ^ 32 }
  else if entry 11 = attrLfn ∨ entry 11 &&& attrVolumeId ≠ 0 then some s
  else
    let s := { s with used := (s.used + 1) % 2 ^ 32 }
    if entry 11 &&& attrDirectory = 0 then some s
    else
      let start := fatEntryFirstCluster entry
      if v.table.Valid start ∧ s.seen start = false then
        push v start { s with seen := update s.seen start true }
      else some s

/-- The loop over the slots of a cluster, with the number of those that are left. -/
def countSlots (v : Volume) (cluster : ℕ) : ℕ → ℕ → State → Option State
  | 0, _, s => some s
  | left + 1, offset, s =>
      (countSlot v (v.slot cluster offset) s).bind (countSlots v cluster left (offset + entrySize))

/-- How the loop over the clusters of a directory ends. -/
inductive ChainEnd
  /-- A cell behind the memory of the stack is written. -/
  | overflow
  | fails (error : ℤ)
  /-- With the value of `cluster`. -/
  | left (cluster : ℕ) (s : State)

/-- The loop over the clusters of a directory, with the number of clusters that it can still read. -/
def countChain (v : Volume) (a : Answers) : ℕ → ℕ → State → ChainEnd
  | 0, cluster, s => .left cluster s
  | left + 1, cluster, s =>
      if cluster = 0 then .left cluster s
      else if a.buffer s.reads = false then .fails enomem
      else if ¬ v.table.Valid cluster then .fails einval
      else
        match a.read s.reads with
        | some error => .fails error
        | none =>
            match countSlots v cluster v.perCluster 0 s with
            | none => .overflow
            | some s' =>
                let s' := { s' with reads := s.reads + 1 }
                match a.fat s.reads with
                | some error => if error = enoent then .left cluster s' else .fails error
                | none =>
                    match v.table.next cluster with
                    | .last => .left cluster s'
                    | .error => .fails eio
                    | .cluster next => countChain v a left next s'

/-- What the function does. -/
inductive Outcome
  | overflow
  | running
  | fails (error : ℤ)
  | counts (used free : ℕ)
  deriving DecidableEq

/-- The loop over the stack, with a bound for its rounds. -/
def countDirs (v : Volume) (a : Answers) : ℕ → State → Outcome
  | 0, _ => .running
  | rounds + 1, s =>
      match s.stack with
      | [] => .counts s.used s.free
      | cluster :: stack =>
          match countChain v a v.table.total cluster { s with stack := stack } with
          | .overflow => .overflow
          | .fails error => .fails error
          | .left cluster s => if cluster ≠ 0 then .fails eio else countDirs v a rounds s

def fatCountDirectoryEntries (v : Volume) (a : Answers) : Outcome :=
  if a.seen = false ∨ kmallocMax < v.table.total then .fails enomem
  else if a.stack = false ∨ kmallocMax < v.table.total * 4 % 2 ^ 32 then .fails enomem
  else
    match push v v.rootCluster
        ⟨[], update (fun _ => false) v.rootCluster (v.table.Valid v.rootCluster), 0, 0, 0⟩ with
    | none => .overflow
    | some s => countDirs v a (v.table.total + 2) s

/-! ## Directory trees -/

/-- `fat_next_cluster` leads from a cluster to another one. -/
def Follows (v : Volume) (x y : ℕ) : Prop := v.table.next x = .cluster y

/-- A directory has an entry of another one. -/
def Child (v : Volume) (c d : ℕ) : Prop :=
  ∃ x i, Relation.ReflTransGen (Follows v) c x ∧ i < v.perCluster ∧ isLive (v.slot x (i * entrySize)) = true ∧
    v.slot x (i * entrySize) 11 &&& attrDirectory ≠ 0 ∧ fatEntryFirstCluster (v.slot x (i * entrySize)) = d ∧ v.table.Valid d

/-- The directories that can be reached from the root. -/
def Reachable (v : Volume) (c : ℕ) : Prop := Relation.ReflTransGen (Child v) v.rootCluster c

/-- The chain of a directory comes back to one of its clusters. -/
def Cyclic (v : Volume) (c : ℕ) : Prop :=
  ∃ x, Relation.ReflTransGen (Follows v) c x ∧ Relation.TransGen (Follows v) x x

/-- The slots of some clusters. -/
def slots (v : Volume) (clusters : List ℕ) : List Buffer :=
  clusters.flatMap fun c => (List.range v.perCluster).map fun i => v.slot c (i * entrySize)

/-- The directories of a volume and their chains: the chains end and are apart, and behind the end of a directory all slots
are zero. -/
structure Tree (v : Volume) (dirs : List ℕ) (chain : ℕ → List ℕ) : Prop where
  nodup : dirs.Nodup
  mem : ∀ c, c ∈ dirs ↔ Reachable v c
  isChain : ∀ c ∈ dirs, Chain v.table c (chain c) ∧ chain c ≠ []
  apart : ∀ c ∈ dirs, ∀ d ∈ dirs, c ≠ d → (chain c).Disjoint (chain d)
  zeroed : ∀ c ∈ dirs, (slots v (chain c)).Pairwise fun e e' => e 0 = 0 → e' 0 = 0

/-- There is memory, and the disk can be read. -/
structure Answers.Clean (a : Answers) (v : Volume) : Prop where
  seen : a.seen = true
  stack : a.stack = true
  room : v.table.total * 4 ≤ kmallocMax
  buffer : ∀ n, a.buffer n = true
  read : ∀ n, a.read n = none
  fat : ∀ n, a.fat n = none

/-- What the function is there for: the entries of the directories of a tree are counted, each directory once, the stack has
room, and a chain that does not end is an error. -/
structure Promised (v : Volume) (a : Answers) : Prop where
  counts : ∀ dirs chain, Tree v dirs chain → a.Clean v → fatCountDirectoryEntries v a =
    .counts ((slots v (dirs.flatMap chain)).countP isLive) ((slots v (dirs.flatMap chain)).countP isFree)
  stack : fatCountDirectoryEntries v a ≠ .overflow
  cyclic : (∃ c, Reachable v c ∧ Cyclic v c) → ∃ error, fatCountDirectoryEntries v a = .fails error

/-! ## The loops -/

section Loops

variable {v : Volume} {a : Answers} {s : State} {cluster : ℕ}

/-- The directories on the stack are different, and they are marked. -/
structure Inv (v : Volume) (s : State) : Prop where
  nodup : s.stack.Nodup
  marked : ∀ c ∈ s.stack, v.table.Valid c ∧ s.seen c = true

theorem Inv.push (h : Inv v s) (hsize : stackSize v = v.table.total) (hvalid : v.table.Valid cluster)
    (hnew : s.seen cluster = false) :
    ∃ s', push v cluster { s with seen := update s.seen cluster true } = some s' ∧ Inv v s' := by
  have hmem : cluster ∉ s.stack := by
    intro hin
    have hseen := (h.marked cluster hin).2
    rw [hnew] at hseen
    cases hseen
  have hall : ∀ c ∈ cluster :: s.stack, v.table.Valid c := by
    intro c hc
    rcases List.mem_cons.mp hc with rfl | hc
    · exact hvalid
    · exact (h.marked c hc).1
  have hnodup : (cluster :: s.stack).Nodup := List.nodup_cons.mpr ⟨hmem, h.nodup⟩
  have hlen : ((cluster :: s.stack).map fun c => c - 2).length ≤ v.table.total := by
    refine length_le_of_nodup (hnodup.map_on fun x hx y hy hxy => ?_) fun b hb => ?_
    · have hx2 := (hall x hx).1
      have hy2 := (hall y hy).1
      omega
    · obtain ⟨x, hx, rfl⟩ := List.mem_map.mp hb
      exact (hall x hx).2
  rw [List.length_map, List.length_cons] at hlen
  refine ⟨_, if_pos (by dsimp only; omega), hnodup, fun c hc => ⟨hall c hc, ?_⟩⟩
  rcases List.mem_cons.mp hc with rfl | hc
  · exact update_self ..
  · dsimp only
    have hother : c ≠ cluster := by
      rintro rfl
      exact hmem hc
    rw [update_of_ne hother]
    exact (h.marked c hc).2

theorem Inv.countSlot (h : Inv v s) (hsize : stackSize v = v.table.total) (entry : Buffer) :
    ∃ s', countSlot v entry s = some s' ∧ Inv v s' := by
  unfold CountEntries.countSlot
  dsimp only
  split_ifs with hfree hskip hfile hnew
  · exact ⟨_, rfl, h.nodup, h.marked⟩
  · exact ⟨_, rfl, h⟩
  · exact ⟨_, rfl, h.nodup, h.marked⟩
  · have hinv : Inv v { s with used := (s.used + 1) % 2 ^ 32 } := ⟨h.nodup, h.marked⟩
    exact hinv.push hsize hnew.1 hnew.2
  · exact ⟨_, rfl, h.nodup, h.marked⟩

theorem Inv.countSlots (h : Inv v s) (hsize : stackSize v = v.table.total) (cluster left offset : ℕ) :
    ∃ s', countSlots v cluster left offset s = some s' ∧ Inv v s' := by
  induction left generalizing offset s with
  | zero => exact ⟨s, rfl, h⟩
  | succ left ih =>
    obtain ⟨s₁, hfirst, hinv⟩ := h.countSlot hsize (v.slot cluster offset)
    obtain ⟨s₂, hrest, hinv'⟩ := ih hinv (offset + entrySize)
    refine ⟨s₂, ?_, hinv'⟩
    rw [CountEntries.countSlots, hfirst]
    exact hrest

/-- The loop over the clusters ends with an error or with a cluster that is not zero. -/
theorem Inv.countChain (h : Inv v s) (hsize : stackSize v = v.table.total) (hne : cluster ≠ 0) (left : ℕ) :
    (∃ error, countChain v a left cluster s = .fails error) ∨
      ∃ c s', countChain v a left cluster s = .left c s' ∧ c ≠ 0 := by
  induction left generalizing cluster s with
  | zero => exact Or.inr ⟨cluster, s, rfl, hne⟩
  | succ left ih =>
    obtain ⟨s', hslots, hinv⟩ := h.countSlots hsize cluster v.perCluster 0
    have hinv' : Inv v { s' with reads := s.reads + 1 } := ⟨hinv.nodup, hinv.marked⟩
    rw [CountEntries.countChain, if_neg hne]
    by_cases hbuffer : a.buffer s.reads = false
    · rw [if_pos hbuffer]
      exact Or.inl ⟨_, rfl⟩
    · rw [if_neg hbuffer]
      by_cases hvalid : v.table.Valid cluster
      · rw [if_neg (not_not.mpr hvalid), hslots]
        rcases a.read s.reads with - | error
        · rcases a.fat s.reads with - | error
          · dsimp only
            cases hnext : v.table.next cluster with
            | last => exact Or.inr ⟨_, _, rfl, hne⟩
            | error => exact Or.inl ⟨_, rfl⟩
            | cluster next =>
              have hpos : next ≠ 0 := by
                unfold Table.next at hnext
                dsimp only at hnext
                split_ifs at hnext with hlast hbad
                obtain rfl := Next.cluster.inj hnext
                exact fun hzero => hbad (Or.inl hzero)
              exact ih hinv' hpos
          · dsimp only
            split_ifs
            · exact Or.inr ⟨_, _, rfl, hne⟩
            · exact Or.inl ⟨_, rfl⟩
        · exact Or.inl ⟨_, rfl⟩
      · rw [if_pos hvalid]
        exact Or.inl ⟨_, rfl⟩

theorem stackSize_eq (hsmall : v.table.total ≤ kmallocMax) : stackSize v = v.table.total := by
  have hmax : kmallocMax < 2 ^ 30 := by decide
  rw [stackSize, Nat.mod_eq_of_lt (by omega), Nat.mul_div_cancel _ (by decide)]

theorem fatCountDirectoryEntries_fails (hroot : 2 ≤ v.rootCluster) (htotal : 2 ≤ v.table.total) :
    ∃ error, fatCountDirectoryEntries v a = .fails error := by
  unfold fatCountDirectoryEntries
  by_cases hseen : a.seen = false ∨ kmallocMax < v.table.total
  · rw [if_pos hseen]
    exact ⟨_, rfl⟩
  · have hsize := stackSize_eq (Nat.not_lt.mp (not_or.mp hseen).2)
    rw [if_neg hseen]
    by_cases hstack : a.stack = false ∨ kmallocMax < v.table.total * 4 % 2 ^ 32
    · rw [if_pos hstack]
      exact ⟨_, rfl⟩
    · rw [if_neg hstack, CountEntries.push, if_pos (by simp only [List.length_nil]; omega)]
      dsimp only
      rw [countDirs]
      dsimp only
      have hempty : Inv v ⟨[], update (fun _ => false) v.rootCluster (v.table.Valid v.rootCluster), 0, 0, 0⟩ :=
        ⟨List.nodup_nil, fun c hc => absurd hc List.not_mem_nil⟩
      have hne : v.rootCluster ≠ 0 := by omega
      rcases hempty.countChain (a := a) hsize hne v.table.total with ⟨error, hfails⟩ | ⟨c, s', hleft, hc⟩
      · rw [hfails]
        exact ⟨error, rfl⟩
      · rw [hleft]
        dsimp only
        rw [if_pos hc]
        exact ⟨_, rfl⟩

/-- On no tree does the function do what it is there for, with memory and a disk that can be read: it never succeeds. -/
theorem fatCountDirectoryEntries_promised_iff (hroot : 2 ≤ v.rootCluster) (htotal : 2 ≤ v.table.total) :
    Promised v a ↔ ¬ (a.Clean v ∧ ∃ dirs chain, Tree v dirs chain) := by
  obtain ⟨error, hfails⟩ := fatCountDirectoryEntries_fails (a := a) hroot htotal
  constructor
  · rintro h ⟨hclean, dirs, chain, htree⟩
    have hcounts := h.counts dirs chain htree hclean
    rw [hfails] at hcounts
    cases hcounts
  · intro hnone
    refine ⟨fun dirs chain htree hclean => absurd ⟨hclean, dirs, chain, htree⟩ hnone, ?_, fun _ => ⟨error, hfails⟩⟩
    rw [hfails]
    exact nofun

end Loops

/-- A volume of two clusters whose root directory has one file. -/
def tinyVolume : Volume where
  table := { total := 2, entry := fun _ => Clusters.fatEocMax, nextFree := 3, freeClusters := 0 }
  perCluster := 2
  rootCluster := 2
  read := fun _ o => if o = 0 then 0x41 else if o = 11 then 0x20 else 0

def cleanAnswers : Answers := ⟨true, true, fun _ => true, fun _ => none, fun _ => none⟩

theorem cleanAnswers_clean : cleanAnswers.Clean tinyVolume := ⟨rfl, rfl, by decide, fun _ => rfl, fun _ => rfl, fun _ => rfl⟩

theorem tinyVolume_noChild (c d : ℕ) : ¬ Child tinyVolume c d := by
  rintro ⟨x, i, -, -, -, hdir, -⟩
  simp only [tinyVolume, Volume.slot] at hdir
  split_ifs at hdir <;> exact absurd hdir (by decide)

theorem tinyVolume_tree : Tree tinyVolume [2] fun _ => [2] where
  nodup := List.nodup_singleton 2
  mem c := by
    rw [List.mem_singleton]
    constructor
    · rintro rfl
      exact Relation.ReflTransGen.refl
    · intro hreach
      rcases Relation.ReflTransGen.cases_tail hreach with heq | ⟨d, -, hchild⟩
      · exact heq
      · exact absurd hchild (tinyVolume_noChild d c)
  isChain c hc := by
    rw [List.mem_singleton.mp hc]
    refine ⟨⟨⟨rfl, by decide, rfl⟩, ?_⟩, List.cons_ne_nil 2 []⟩
    intro x hx
    rw [List.mem_singleton.mp hx]
    exact ⟨⟨by decide, by decide⟩, by decide⟩
  apart c hc d hd hne := absurd ((List.mem_singleton.mp hc).trans (List.mem_singleton.mp hd).symm) hne
  zeroed c hc := by
    refine List.pairwise_pair.mpr fun hzero => ?_
    exact absurd hzero (by decide)

theorem fatCountDirectoryEntries_promised_iff_tiny : ¬ Promised tinyVolume cleanAnswers := fun h =>
  (fatCountDirectoryEntries_promised_iff (by decide) (by decide)).mp h
    ⟨cleanAnswers_clean, [2], fun _ => [2], tinyVolume_tree⟩

/-- One entry and one free slot are there to be counted, and the call fails. -/
theorem tinyVolume_fails : Tree tinyVolume [2] (fun _ => [2]) ∧ cleanAnswers.Clean tinyVolume ∧
    (slots tinyVolume [2]).countP isLive = 1 ∧ (slots tinyVolume [2]).countP isFree = 1 ∧
      fatCountDirectoryEntries tinyVolume cleanAnswers = .fails eio :=
  ⟨tinyVolume_tree, cleanAnswers_clean, by decide, by decide, by decide⟩

end Mario.Fs.Fat.CountEntries
