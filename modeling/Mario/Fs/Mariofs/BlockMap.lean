import Mario.Fs.Mariofs.BlockChains
import Mathlib.Algebra.Group.Int.Defs
import Mathlib.Algebra.Group.Nat.Defs

/-!
# The block maps of a MarioFS

`mario_nth_block` keeps the numbers of the blocks of a regular file in memory once it has followed their chain. Truncating
and writing change chains and drop the map. The functions are those of `super_block.c` and `file.c`, with the map, the
bytes of the blocks and the size of a file. All of them run with the semaphore of the inode held, the readers of pages too.
-/

namespace Mario.Fs.Mariofs.Maps

open Mario.Lib Mario.Fs.Mariofs Function

abbrev Byte := BitVec 8

/-- A mounted volume: besides the chains the bytes of the blocks before the link, and the sizes and block maps of the
inodes. Sizes are words of 32 bits. -/
structure Volume extends State where
  data : ℕ → ℕ → Byte
  size : ℕ → ℕ
  map : ℕ → Option (List ℕ)

/-- What a block is read for. -/
inductive Site
  /-- Building a map or following a chain, for the first and for the second question of a call. -/
  | map
  | mapAgain
  | get
  | put
  /-- Writing the link of a block. -/
  | link
  /-- Writing the bytes of a block. -/
  | data
  deriving DecidableEq

/-- The answers of the disk and of the allocator in a call. No block is read twice at the same place of a call. -/
structure Calls where
  read : Site → ℕ → Bool
  memory : Site → Bool

def Volume.setMap (v : Volume) (id : ℕ) (map : Option (List ℕ)) : Volume := { v with map := update v.map id map }

def Volume.setSize (v : Volume) (id size : ℕ) : Volume := { v with size := update v.size id size }

/-- `mario_destroy_block_map`. -/
def Volume.destroyMap (v : Volume) (id : ℕ) : Volume := v.setMap id none

/-- A change of the chains. -/
def Volume.withState (v : Volume) (s : State) : Volume := { v with toState := s }

/-- Why an operation fails. -/
inductive Failure
  | enomem
  | errno (e : Errno)
  deriving DecidableEq

/-- The loop of `mario_alloc_block_map`, with the number of blocks that are left. -/
def buildMap (read : ℕ → Bool) (next : ℕ → ℕ) : ℕ → ℕ → Option (List ℕ)
  | 0, _ => some []
  | 1, block => some [block]
  | left + 2, block =>
      if read block = false then none
      else if next block = 0 then some [block]
      else (buildMap read next (left + 1) (next block)).map fun l => block :: l

/-- `mario_alloc_block_map`. -/
def allocBlockMap (v : Volume) (nd : Node) (a : Calls) (site : Site) : Except Failure (List ℕ) :=
  if nd.nrBlock = 0 then .ok []
  else if v.nrBlocks < nd.nrBlock then .error (.errno .eio)
  else if a.memory site = false then .error .enomem
  else
    match buildMap (a.read site) v.next nd.nrBlock nd.rdev with
    | none => .error (.errno .eio)
    | some l => .ok l

/-- The answer from a map: what the function returns, and the number of the block. -/
def lookup (map : List ℕ) (n : ℕ) : ℕ × ℕ :=
  if map.length = 0 then (0, 0)
  else if n = 0 then (map.length, map.getD (map.length - 1) 0)
  else if map.length < n then (map.length, 0)
  else (n, map.getD (n - 1) 0)

/-- The loop of `mario_chain_nth_block`, with a bound for the number of blocks. -/
def chainNth (read : ℕ → Bool) (next : ℕ → ℕ) (n : ℕ) : ℕ → ℕ → ℕ → Except Failure (ℕ × ℕ)
  | 0, i, block => .ok (i, block)
  | left + 1, i, block =>
      if n = i then .ok (i, block)
      else if read block = false then .error (.errno .eio)
      else if next block = 0 then .ok (i, block)
      else chainNth read next n left (i + 1) (next block)

/-- `mario_nth_block`: the answer, and the volume with the map that has been installed. -/
def nthBlock (v : Volume) (id : ℕ) (nd : Node) (a : Calls) (site : Site) (n : ℕ) :
    Except Failure (ℕ × ℕ) × Volume :=
  if nd.kind ≠ .regular then
    (if nd.rdev = 0 then .ok (0, 0) else chainNth (a.read site) v.next n v.nrBlocks 1 nd.rdev, v)
  else
    match v.map id with
    | some map => (.ok (lookup map n), v)
    | none =>
        match allocBlockMap v nd a site with
        | .error e => (.error e, v)
        | .ok map => if map.length = 0 then (.ok (0, 0), v) else (.ok (lookup map n), v.setMap id (some map))

/-- The number that `mario_nth_block` stores. It stores zero first. -/
def stored : Except Failure (ℕ × ℕ) → ℕ
  | .error _ => 0
  | .ok (_, block) => block

/-- The end of `mario_file_truncate`. -/
def Volume.truncated (v : Volume) (id : ℕ) (nd : Node) (rdev n size : ℕ) : Volume :=
  ((v.withState (v.setNode id (some { nd with rdev := rdev, nrBlock := n }))).destroyMap id).setSize id size

/-- `mario_put_block`, whose failures nobody sees. -/
def Volume.putBlock (v : Volume) (a : Calls) (head tail : ℕ) : Volume :=
  v.withState ((v.toState.putBlock (a.read .put) head tail).toOption.getD v.toState)

/-- `mario_file_truncate`. -/
def truncate (v : Volume) (id : ℕ) (nd : Node) (a : Calls) (size : ℕ) : Volume :=
  let v := v.destroyMap id
  let n := (size + maxUsed - 1) / maxUsed
  if nd.nrBlock < n then
    match v.toState.getBlock (a.read .get) (n - nd.nrBlock) with
    | .error _ => v
    | .ok (head, tail, s) =>
        let v := v.withState s
        if nd.nrBlock = 0 then v.truncated id nd head n size
        else
          match nthBlock v id nd a .map 0 with
          | (.error _, v) => v
          | (.ok (ret, last), v) =>
              if ret < 1 then v
              else if a.read .link last then (v.withState (v.setNext last head)).truncated id nd nd.rdev n size
              else v.putBlock a head tail
  else if n < nd.nrBlock then
    let r := nthBlock v id nd a .map 0
    let tail := stored r.1
    let v := r.2
    if n = 0 then (v.putBlock a nd.rdev tail).truncated id nd marioZeroEntry n size
    else
      match nthBlock v id nd a .mapAgain n with
      | (.error _, v) => v
      | (.ok (ret, last), v) =>
          if ret ≠ n then v
          else if a.read .link last then
            ((v.withState (v.setNext last 0)).putBlock a (v.next last) tail).truncated id nd nd.rdev n size
          else v
  else v.truncated id nd nd.rdev n size

/-- Bytes are written to a block from an offset on. -/
def fill (data : ℕ → Byte) (offset : ℕ) (bytes : List Byte) : ℕ → Byte :=
  fun o => if offset ≤ o then (bytes[o - offset]?).getD (data o) else data o

/-- A write at `write_a_block`: the block it is at, the number of blocks to go before the first byte is written, where it is
in the file, a word of 32 bits, the bytes that are left, the position of the file, the bytes that have been taken and the
error that will be returned. -/
structure Writing where
  vol : Volume
  node : Node
  block : ℕ
  nr : ℕ
  start : ℕ
  buf : List Byte
  pos : ℕ
  res : ℕ
  ret : Option Errno

/-- The number of bytes that go to the block. `stop` is a word of 32 bits. -/
def Writing.amount (w : Writing) (stop : ℕ) : ℕ :=
  min (maxUsed - w.start % maxUsed) ((stop + 2 ^ 32 - w.start) % 2 ^ 32)

/-- The bytes go to the block. -/
def Writing.fillBlock (w : Writing) (n : ℕ) : Writing :=
  { w with
    vol := { w.vol with
      data := update w.vol.data w.block (fill (w.vol.data w.block) (w.start % maxUsed) (w.buf.take n)) }
    start := (w.start + n) % 2 ^ 32
    buf := w.buf.drop n
    pos := w.pos + n
    res := w.res + n }

/-- A block is put behind the last one of the file. -/
def Writing.addBlock (w : Writing) (id new : ℕ) (s : State) : Writing :=
  { w with
    vol := (w.vol.withState ((s.setNext w.block new).setNode id
      (some { w.node with nrBlock := w.node.nrBlock + 1 }))).destroyMap id
    node := { w.node with nrBlock := w.node.nrBlock + 1 }
    block := new
    nr := w.nr - 1 }

/-- From `new_block` on: the write goes to the next block, or ends. -/
def Writing.nextBlock (w : Writing) (id : ℕ) (a : Calls) : Writing ⊕ Writing :=
  if w.vol.next w.block ≠ 0 then .inr { w with block := w.vol.next w.block, nr := w.nr - 1 }
  else
    match w.vol.toState.getBlock (a.read .get) 1 with
    | .error e => .inl { w with ret := some e }
    | .ok (new, _, s) => .inr (w.addBlock id new s)

/-- From `write_a_block` on. A write that ends is on the left. -/
def Writing.round (w : Writing) (id stop : ℕ) (a : Calls) : Writing ⊕ Writing :=
  if a.read .data w.block = false then .inl w
  else if 0 < w.nr then w.nextBlock id a
  else if (w.fillBlock (w.amount stop)).start = stop then .inl (w.fillBlock (w.amount stop))
  else (w.fillBlock (w.amount stop)).nextBlock id a

/-- The rounds of a write, at most so many. -/
def Writing.rounds (id stop : ℕ) (a : Calls) : ℕ → Writing → Writing
  | 0, w => w
  | left + 1, w =>
      match w.round id stop a with
      | .inl w' => w'
      | .inr w' => Writing.rounds id stop a left w'

/-- What the caller of `mario_file_write` sees. -/
inductive Reply
  | error (e : Failure)
  /-- An assertion fails, and the machine stops. -/
  | hung
  | wrote (n : ℕ)
  deriving DecidableEq

/-- A word of 32 bits as an `off_t`. -/
def offT (x : ℕ) : ℤ := if x < 2 ^ 31 then (x : ℤ) else (x : ℤ) - 2 ^ 32

/-- The first assertion at the end of `mario_file_write`: no block is behind the size. -/
def AssertedBlocks (nrBlock size : ℕ) : Prop := 0 < nrBlock → (nrBlock - 1) * maxUsed % 2 ^ 32 < size

/-- The second one: there are blocks for the size. -/
def AssertedSize (nrBlock size : ℕ) : Prop := size ≤ nrBlock * maxUsed % 2 ^ 32

instance (nrBlock size : ℕ) : Decidable (AssertedBlocks nrBlock size) := inferInstanceAs (Decidable (_ → _))

instance (nrBlock size : ℕ) : Decidable (AssertedSize nrBlock size) := inferInstanceAs (Decidable (_ ≤ _))

/-- The assertions at the end of `mario_file_write`. -/
def Asserted (nrBlock size : ℕ) : Prop := AssertedBlocks nrBlock size ∧ AssertedSize nrBlock size

instance (nrBlock size : ℕ) : Decidable (Asserted nrBlock size) := inferInstanceAs (Decidable (_ ∧ _))

/-- The size that a write leaves at `tail_2`. -/
def Writing.grown (w : Writing) (id : ℕ) : ℕ :=
  if offT (w.vol.size id) < (w.pos : ℤ) then w.pos % 2 ^ 32 else w.vol.size id

/-- The end of `mario_file_write`, from `tail_2` on. -/
def Writing.finish (w : Writing) (id : ℕ) : Reply × ℕ × Volume :=
  let v := w.vol.setSize id (w.grown id)
  match w.res, w.ret with
  | 0, some e => (.error (.errno e), w.pos, v)
  | res, _ => (if Asserted w.node.nrBlock (w.grown id) then .wrote res else .hung, w.pos, v)

/-- `mario_file_write` up to `write_a_block`, behind the allocation of the first block. It fails, or it is at the block of
its first byte or at the last one. -/
def enterFrom (v : Volume) (id : ℕ) (nd : Node) (a : Calls) (start pos : ℕ) (buf : List Byte) :
    Except Failure Writing × Volume :=
  let nr := start / maxUsed + 1
  if nr ≤ nd.nrBlock then
    match nthBlock v id nd a .map nr with
    | (.error e, v) => (.error e, v)
    | (.ok (nth, block), v) =>
        if nth ≠ nr then (.error (.errno .eio), v) else (.ok (.mk v nd block 0 start buf pos 0 none), v)
  else
    match nthBlock v id nd a .map 0 with
    | (.error e, v) => (.error e, v)
    | (.ok (nth, block), v) =>
        if nth = 0 then (.error (.errno .eio), v) else (.ok (.mk v nd block (nr - nth) start buf pos 0 none), v)

/-- `mario_file_write` up to `write_a_block`. An empty file gets its first block. -/
def enter (v : Volume) (id : ℕ) (nd : Node) (a : Calls) (start pos : ℕ) (buf : List Byte) :
    Except Failure Writing × Volume :=
  if nd.nrBlock = 0 then
    match v.toState.getBlock (a.read .get) 1 with
    | .error e => (.error (.errno e), v)
    | .ok (block, _, s) =>
        let nd := { nd with rdev := block, nrBlock := 1 }
        enterFrom (v.withState (s.setNode id (some nd))) id nd a start pos buf
  else enterFrom v id nd a start pos buf

/-- `mario_file_write`: the reply, the position of the file and the volume. -/
def fileWrite (v : Volume) (id : ℕ) (nd : Node) (a : Calls) (append : Bool) (pos : ℕ) (buf : List Byte) :
    Reply × ℕ × Volume :=
  let start := if append then v.size id else pos % 2 ^ 32
  match enter v id nd a start pos buf with
  | (.error e, v) => (.error e, pos, v)
  | (.ok w, _) =>
      (w.rounds id ((start + buf.length) % 2 ^ 32) a (start / maxUsed + buf.length + 2)).finish id

/-- `mario_add_entry` puts a block behind the chain of a directory whose blocks are full. It follows the chain as
`mario_chain_nth_block` does for the last block. -/
def extendDir (v : Volume) (nd : Node) (a : Calls) : Volume :=
  match chainNth (a.read .map) v.next 0 v.nrBlocks 1 nd.rdev with
  | .error _ => v
  | .ok (_, last) =>
      match v.toState.getBlock (a.read .get) 1 with
      | .error _ => v
      | .ok (block, _, s) => v.withState (s.setNext last block)

end Mario.Fs.Mariofs.Maps
