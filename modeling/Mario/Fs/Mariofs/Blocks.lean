import Mario.Lib.Runs
import Mario.Lib.Chains

/-!
# The blocks of a MarioFS

Blocks are linked by their last four bytes, into the free chain and into the chains of files and
directories. Names, slots and contents are not here: a step says what it finds there. An inode has
the fields of its entry.
-/

namespace Mario.Fs.Mariofs

open Mario.Lib Function

inductive Errno
  | enospc
  | eio
  | einval
  deriving DecidableEq

inductive Kind
  | regular
  | directory
  | symlink
  /-- A device or a FIFO. -/
  | special
  deriving DecidableEq

/-- A live inode. -/
structure Node where
  kind : Kind
  rdev : ℕ
  nrBlock : ℕ

/-- The data of an empty file. -/
def marioZeroEntry : ℕ := 0xfefefefe

/-- The bytes of a block without its link. -/
def maxUsed : ℕ := 508

structure State where
  nrBlocks : ℕ
  /-- The last four bytes of a block. -/
  next : ℕ → ℕ
  free : ℕ
  nrFree : ℕ
  node : ℕ → Option Node

/-- What a step finds outside of the chains. -/
structure Answers where
  /-- The blocks that can be read. -/
  read : ℕ → Bool
  /-- The block map of the inode is there or can be built, or the chain can be followed. -/
  map : Bool
  /-- The name is in the directory. -/
  found : Bool
  /-- The directory has no slot for one more entry. -/
  full : Bool
  /-- Somebody else uses the inode. For a link that was made since the mount that is always so: nobody gives
  back the reference that `mario_symlink` takes. -/
  busy : Bool
  /-- Somebody else uses the inode of the target of a rename. -/
  targetBusy : Bool
  /-- `empty_dir` is true. -/
  empty : Bool

/-! ## The functions -/

/-- The loop of `mario_get_block`: the last block it takes and the block behind that. -/
def takeBlocks (read : ℕ → Bool) (next : ℕ → ℕ) : ℕ → ℕ → Option (ℕ × ℕ)
  | 0, _ => none
  | nr + 1, j =>
      if j ≠ 0 ∧ read j = true then
        if nr = 0 then some (j, next j) else takeBlocks read next nr (next j)
      else none

/-- `mario_get_block`. -/
def State.getBlock (s : State) (read : ℕ → Bool) (nr : ℕ) : Except Errno (ℕ × ℕ × State) :=
  if nr = 0 then .error .einval
  else if s.nrFree < nr then .error .enospc
  else
    match takeBlocks read s.next nr s.free with
    | none => .error .eio
    | some (tail, rest) => .ok (s.free, tail,
        { s with next := update s.next tail 0, free := rest, nrFree := s.nrFree - nr })

/-- `mario_put_block`. -/
def State.putBlock (s : State) (read : ℕ → Bool) (head tail : ℕ) : Except Errno State :=
  if read tail then .ok { s with next := update s.next tail s.free, free := head }
  else .error .eio

/-- The map that `mario_alloc_block_map` makes. -/
def blockMap (next : ℕ → ℕ) : ℕ → ℕ → List ℕ
  | 0, _ => []
  | n + 1, block => block :: if next block = 0 then [] else blockMap next n (next block)

/-- The end of the chain of a directory. -/
def chainLast (next : ℕ → ℕ) : ℕ → ℕ → ℕ
  | 0, block => block
  | fuel + 1, block => if next block = 0 then block else chainLast next fuel (next block)

def State.setNode (s : State) (id : ℕ) (nd : Option Node) : State :=
  { s with node := update s.node id nd }

def State.setNext (s : State) (block value : ℕ) : State :=
  { s with next := update s.next block value }

/-- The last block of an inode, by `mario_nth_block`. -/
def State.lastBlock (s : State) (nd : Node) : ℕ :=
  if nd.kind = .regular then (blockMap s.next nd.nrBlock nd.rdev).getLastD 0
  else chainLast s.next s.nrBlocks nd.rdev

/-- `mario_file_truncate`. -/
def State.truncate (s : State) (a : Answers) (id : ℕ) (nd : Node) (size : ℕ) : State :=
  let n := (size + maxUsed - 1) / maxUsed
  if nd.nrBlock < n then
    match s.getBlock a.read (n - nd.nrBlock) with
    | .error _ => s
    | .ok (head, tail, s') =>
        if nd.nrBlock = 0 then s'.setNode id (some { nd with rdev := head, nrBlock := n })
        else if a.map then
          let last := s'.lastBlock nd
          if a.read last then
            (s'.setNext last head).setNode id (some { nd with nrBlock := n })
          else (s'.putBlock a.read head tail).toOption.getD s'
        else s'
  else if n < nd.nrBlock then
    let tail := if a.map then s.lastBlock nd else 0
    if n = 0 then
      ((s.putBlock a.read nd.rdev tail).toOption.getD s).setNode id
        (some { nd with rdev := marioZeroEntry, nrBlock := 0 })
    else
      match a.map, (blockMap s.next nd.nrBlock nd.rdev)[n - 1]? with
      | true, some last =>
          if a.read last then
            let s' := s.setNext last 0
            ((s'.putBlock a.read (s.next last) tail).toOption.getD s').setNode id
              (some { nd with nrBlock := n })
          else s
      | _, _ => s
  else s

/-- The loop of `mario_file_write`, at a block, with the number of blocks to go before the first byte
is written. -/
def writeBlocks (a : Answers) (id stop : ℕ) : ℕ → State → Node → ℕ → ℕ → ℕ → State
  | 0, s, _, _, _, _ => s
  | fuel + 1, s, nd, block, nr, start =>
      let start' := if nr = 0 then start + min (maxUsed - start % maxUsed) (stop - start) else start
      if a.read block = false ∨ nr = 0 ∧ start' = stop then s
      else if s.next block ≠ 0 then writeBlocks a id stop fuel s nd (s.next block) (nr - 1) start'
      else
        match s.getBlock a.read 1 with
        | .error _ => s
        | .ok (new, _, s') =>
            let nd' := { nd with nrBlock := nd.nrBlock + 1 }
            writeBlocks a id stop fuel ((s'.setNext block new).setNode id (some nd')) nd' new (nr - 1)
              start'

/-- `mario_file_write` behind the allocation of the first block. -/
def State.writeFrom (s : State) (a : Answers) (id : ℕ) (nd : Node) (start count : ℕ) : State :=
  let nr := start / maxUsed + 1
  let map := blockMap s.next nd.nrBlock nd.rdev
  if a.map then
    if nr ≤ nd.nrBlock then
      match map[nr - 1]? with
      | some block => writeBlocks a id (start + count) (count + 1) s nd block 0 start
      | none => s
    else writeBlocks a id (start + count) (nr - map.length + count + 1) s nd (map.getLastD 0)
      (nr - map.length) start
  else s

/-- `mario_file_write`. -/
def State.write (s : State) (a : Answers) (id : ℕ) (nd : Node) (start count : ℕ) : State :=
  if nd.nrBlock = 0 then
    match s.getBlock a.read 1 with
    | .error _ => s
    | .ok (block, _, s') =>
        let nd' := { nd with rdev := block, nrBlock := 1 }
        (s'.setNode id (some nd')).writeFrom a id nd' start count
  else s.writeFrom a id nd start count

/-- The blocks of a directory when `mario_add_entry` adds an entry, and whether it does. -/
def State.addEntry (s : State) (a : Answers) (dir : Node) : Bool × State :=
  if a.map = false then (false, s)
  else if a.full then
    match s.getBlock a.read 1 with
    | .error _ => (false, s)
    | .ok (block, _, s') => (a.read block, s'.setNext (s.lastBlock dir) block)
  else (true, s)

/-- `mario_del_entry`. -/
def State.delEntry (s : State) (a : Answers) (id : ℕ) (nd : Node) : Except Errno State :=
  if nd.kind = .special ∨ nd.kind ≠ .directory ∧ nd.nrBlock = 0 then .ok (s.setNode id none)
  else if a.map then do
    let s' ← s.putBlock a.read nd.rdev (s.lastBlock nd)
    .ok (s'.setNode id none)
  else .error .eio

/-- A live directory. -/
def State.dir (s : State) (id : ℕ) : Option Node := (s.node id).filter fun nd => nd.kind = .directory

/-- The target of a rename is deleted. -/
def State.delTarget (s : State) (a : Answers) (nd : Node) : Option ℕ → Except Errno State
  | none => .ok s
  | some t =>
      match s.node t with
      | none => .ok s
      | some td =>
          if (td.kind = .directory ↔ nd.kind = .directory) ∧ (td.kind = .directory → a.empty = true) ∧
              a.targetBusy = false then s.delEntry a t td
          else .error .einval

inductive Label
  | get (nr : ℕ) (a : Answers)
  | put (head tail : ℕ) (a : Answers)
  | truncate (id size : ℕ) (a : Answers)
  | write (id start count : ℕ) (a : Answers)
  /-- `mario_create` and `mario_mknod`. -/
  | create (dir id : ℕ) (kind : Kind) (rdev : ℕ) (a : Answers)
  | mkdir (dir id : ℕ) (a : Answers)
  | symlink (dir id : ℕ) (a : Answers)
  | unlink (id : ℕ) (a : Answers)
  | rmdir (id : ℕ) (a : Answers)
  | rename (id : ℕ) (target : Option ℕ) (newDir : ℕ) (a : Answers)

/-- A step, between live directories and inodes. -/
def exec (s : State) : Label → Option State
  | .get nr a =>
      match s.getBlock a.read nr with
      | .ok (_, _, s') => some s'
      | .error _ => some s
  | .put head tail a => some ((s.putBlock a.read head tail).toOption.getD s)
  | .truncate id size a =>
      match s.node id with
      | some nd => if nd.kind = .regular then some (s.truncate a id nd size) else some s
      | none => none
  | .write id start count a =>
      match s.node id with
      | some nd => if nd.kind = .regular then some (s.write a id nd start count) else some s
      | none => none
  | .create dir id kind rdev a =>
      match s.dir dir, s.node id with
      | some dirNode, none =>
          if a.found = true ∨ kind = .directory ∨ kind = .symlink then some s
          else
            let (ok, s') := s.addEntry a dirNode
            some (if ok then s'.setNode id (some { kind := kind, rdev := rdev, nrBlock := 0 }) else s')
      | _, _ => none
  | .mkdir dir id a =>
      match s.dir dir, s.node id with
      | some dirNode, none =>
          if a.found then some s
          else
            match s.getBlock a.read 1 with
            | .error _ => some s
            | .ok (block, _, s₁) =>
                let (ok, s₂) := if a.read block then s₁.addEntry a dirNode else (false, s₁)
                some (if ok then
                    s₂.setNode id (some { kind := .directory, rdev := block, nrBlock := 0 })
                  else (s₂.putBlock a.read block block).toOption.getD s₂)
      | _, _ => none
  | .symlink dir id a =>
      match s.dir dir, s.node id with
      | some dirNode, none =>
          if a.found then some s
          else
            let (ok, s₁) := s.addEntry a dirNode
            if ok then
              match s₁.getBlock a.read 1 with
              | .error _ => some s₁
              | .ok (block, _, s₂) =>
                  some (if a.read block then
                    s₂.setNode id (some { kind := .symlink, rdev := block, nrBlock := 1 })
                  else s₂)
            else some s₁
      | _, _ => none
  | .unlink id a =>
      match s.node id with
      | some nd =>
          if nd.kind = .directory ∨ a.busy = true then some s
          else some ((s.delEntry a id nd).toOption.getD s)
      | none => none
  | .rmdir id a =>
      match s.node id with
      | some nd =>
          if nd.kind ≠ .directory ∨ nd.rdev = 1 ∨ a.busy = true ∨ a.empty = false then some s
          else some ((s.delEntry a id nd).toOption.getD s)
      | none => none
  | .rename id target newDir a =>
      match s.node id, s.dir newDir with
      | some nd, some dirNode =>
          -- the root is its own `..`, and it is not empty
          if target = some id ∨ target = some newDir then some s
          else
            match s.delTarget a nd target with
            | .error _ => some s
            | .ok s₁ =>
                if a.busy = true then some s₁
                else
                  let (ok, s₂) := s₁.addEntry a dirNode
                  some (if ok then s₂ else s₂.setNode id none)
      | _, _ => none

/-! ## The statement -/

/-- The first block of an inode. -/
def Node.head (nd : Node) : Option ℕ :=
  match nd.kind with
  | .special => none
  | .directory => some nd.rdev
  | .regular | .symlink => if nd.nrBlock = 0 then none else some nd.rdev

/-- A list is the chain of an inode. -/
def Chain (next : ℕ → ℕ) (nd : Node) (l : List ℕ) : Prop :=
  match nd.head with
  | none => l = []
  | some b => b ≠ 0 ∧ Linked next 0 b l ∧ (nd.kind = .regular → l.length = nd.nrBlock)

/-- The free chain and the chains of the live inodes. -/
structure Layout (s : State) (free : List ℕ) (cells : ℕ → List ℕ) : Prop where
  linked : Linked s.next 0 s.free free
  count : s.nrFree = free.length
  node : ∀ id nd, s.node id = some nd → Chain s.next nd (cells id)
  gone : ∀ id, s.node id = none → cells id = []
  inside : ∀ id, ∀ b ∈ cells id, b < s.nrBlocks
  inside' : ∀ b ∈ free, b < s.nrBlocks
  apart : ∀ id, (cells id).Disjoint free
  disjoint : ∀ id id', id ≠ id' → (cells id).Disjoint (cells id')

/-- The free count is the length of the free chain, chains have no cycle and share no block, and a
request gets its blocks when the free chain has so many. -/
def Consistent (s : State) : Prop :=
  ∃ free cells, Layout s free cells ∧ free.Nodup ∧ (∀ id, (cells id).Nodup) ∧
    ∀ nr, 1 ≤ nr → ((∃ r, s.getBlock (fun _ => true) nr = .ok r) ↔ nr ≤ free.length)

/-- Deleting an inode gives its blocks back. -/
def State.Gives (s : State) (a : Answers) (nd : Node) : Prop :=
  ¬ (nd.kind = .special ∨ nd.kind ≠ .directory ∧ nd.nrBlock = 0) ∧ a.map = true ∧
    a.read (s.lastBlock nd) = true

/-- No block is given back. -/
def Good (s : State) : Label → Prop
  | .put _ tail a => a.read tail = false
  | .truncate id size a => ∀ nd, s.node id = some nd → nd.kind = .regular →
      nd.nrBlock ≤ (size + maxUsed - 1) / maxUsed ∧
        (nd.nrBlock < (size + maxUsed - 1) / maxUsed → 0 < nd.nrBlock → a.map = true →
          a.read (s.lastBlock nd) = true)
  | .mkdir _ _ a => a.found = false →
      (∀ block, a.read block = true) ∧ a.map = true ∧ (a.full = true → s.nrFree ≠ 1)
  | .unlink id a => ∀ nd, s.node id = some nd → nd.kind ≠ .directory → a.busy = false → ¬ s.Gives a nd
  | .rmdir id a => ∀ nd, s.node id = some nd → nd.kind = .directory → nd.rdev ≠ 1 → a.busy = false →
      a.empty = true → ¬ s.Gives a nd
  | .rename id target _ a => ∀ t td nd, target = some t → t ≠ id → s.node t = some td →
      s.node id = some nd → (td.kind = .directory ↔ nd.kind = .directory) →
      (td.kind = .directory → a.empty = true) → a.targetBusy = false → ¬ s.Gives a td
  | _ => True

def Step (s : State) (l : Label) (t : State) : Prop := exec s l = some t

end Mario.Fs.Mariofs
