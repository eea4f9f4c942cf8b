import Mario.Lib.Runs
import Mario.Mm.Page
import Mathlib.Algebra.Group.Nat.Defs

/-!
# The bucket allocator

`mm/kmalloc.c` as the makefile builds it, with `CONFIG_KMALLOC_DEBUG`. A board is
a run of pages from the page allocator cut into blocks of one size. Free blocks
of a board are chained through their `next` words, and the boards of a bucket
that still have a free block are chained through their headers. A block that is
handed out has a mark in its header and a redzone behind the caller's bytes, and
`kfree` asserts both.

Memory is read through two typed views, the board headers and the block headers.
The `next` word of a block is the first word of the caller's data once the block
is handed out, so a caller's store changes it. The answer of `pages_alloc` is an
argument of `kmalloc`; zero is failure.
-/

namespace Mario.Kmalloc

open Function

/-- The constant fields of `struct bucket_desc`. -/
structure BucketDesc where
  /-- A board of this bucket is `2 ^ order` contiguous pages. -/
  order : ℕ
  /-- Size of a block, its header included. -/
  blockSize : ℕ
  /-- Number of blocks of a board. -/
  nblocks : ℕ
  deriving DecidableEq

/-- The table `buckets[]`. Its terminating row of zeros is the end of the list. -/
def buckets : List BucketDesc :=
  [⟨0, 34, 120⟩, ⟨0, 60, 68⟩, ⟨0, 120, 34⟩, ⟨0, 255, 16⟩, ⟨0, 510, 8⟩, ⟨0, 1020, 4⟩,
    ⟨0, 2040, 2⟩, ⟨0, 4096 - 16, 1⟩, ⟨1, 8192 - 16, 1⟩, ⟨2, 16384 - 16, 1⟩,
    ⟨3, 32768 - 16, 1⟩, ⟨4, 65536 - 16, 1⟩, ⟨5, 131072 - 16, 1⟩, ⟨6, 262144 - 16, 1⟩]

/-- Row `k` of the table, the terminating row past its end. -/
def bucket (k : ℕ) : BucketDesc := buckets.getD k ⟨0, 0, 0⟩

/-- `struct block_header`, without the owner, with the redzone of the block. -/
structure BlockHeader where
  magic : ℕ
  /-- The size the caller has asked for. -/
  size : ℕ
  /-- The word at `size` from the caller's pointer. -/
  redzone : ℕ
  /-- The board this block belongs to. -/
  board : ℕ
  /-- The next free block of the board; caller data while the block is in use. -/
  next : ℕ
  deriving DecidableEq

/-- `struct board_header`. The bucket pointer is an index into the table. -/
structure BoardHeader where
  /-- Number of free blocks. -/
  nfree : ℕ
  /-- The first free block. -/
  firstfree : ℕ
  /-- The bucket this board belongs to. -/
  bucket : ℕ
  /-- The next board of the bucket that has a free block. -/
  next : ℕ
  deriving DecidableEq

/-- `KMALLOC_USER_OFFSET`: the caller's pointer is `&block->next`. -/
def userOffset : ℕ := 16

/-- `KMALLOC_REDZONE_SIZE`. -/
def redzoneSize : ℕ := 4

/-- `KMALLOC_MAGIC_ALLOC`. -/
def magicAlloc : ℕ := 0x6d6b616c

/-- `KMALLOC_MAGIC_FREED`. -/
def magicFreed : ℕ := 0x6d6b6672

/-- `KMALLOC_REDZONE_VALUE`. -/
def redzoneValue : ℕ := 0x7265647a

/-- `sizeof(struct board_header)`. -/
def boardHeaderSize : ℕ := 16

/-- The allocator's memory and the boards it holds. -/
structure Heap where
  /-- `buckets[k].firstfree`. -/
  firstfree : ℕ → ℕ
  /-- Memory seen as board headers. -/
  board : ℕ → BoardHeader
  /-- Memory seen as block headers. -/
  block : ℕ → BlockHeader
  /-- Boards, with their orders, got from the page allocator and not given back. -/
  pages : List (ℕ × ℕ)

/-- The loop of `alloc_board` that chains the blocks: `i` more blocks follow. -/
def chainBlocks (board size : ℕ) : ℕ → ℕ → (ℕ → BlockHeader) → ℕ → BlockHeader
  | 0, blk, mem => update mem blk { mem blk with board := board, next := 0 }
  | i + 1, blk, mem =>
      chainBlocks board size i (blk + size)
        (update mem blk { mem blk with board := board, next := blk + size })

/-- `alloc_board`, where `got` is what `pages_alloc` answers. -/
def allocBoard (k got : ℕ) (h : Heap) : Heap × ℕ :=
  if got = 0 then (h, 0)
  else
    ({ h with
        board := update h.board got
          ⟨(bucket k).nblocks, got + boardHeaderSize, k, h.firstfree k⟩
        block := chainBlocks got (bucket k).blockSize ((bucket k).nblocks - 1)
          (got + boardHeaderSize) h.block
        pages := (got, (bucket k).order) :: h.pages }, got)

/-- `free_board`: the pages go back to the page allocator. -/
def freeBoard (b : ℕ) (h : Heap) : Heap :=
  { h with pages := h.pages.erase (b, (bucket (h.board b).bucket).order) }

/-- The bucket search of `kmalloc`; the sum is one of 32 bits. -/
def findBucket (size : ℕ) : Option ℕ :=
  buckets.findIdx? (fun d => decide ((size + redzoneSize) % wordSize ≤ d.blockSize - userOffset))

/-- `kmalloc` has blocks of this size. -/
def served (size : ℕ) : Bool := size ≠ 0 && (findBucket size).isSome

/-- Write the redzone of a block. Behind fewer than four bytes it lies over `next`, which is not read
before `kfree` sets it; with the last four sizes its address wraps, and it lies over the words before
the caller's second one. -/
def BlockHeader.setRedzone (x : BlockHeader) : BlockHeader :=
  if x.size + redzoneSize < wordSize then { x with redzone := redzoneValue }
  else
    let low := 256 ^ (x.size + redzoneSize - wordSize)
    let words := x.board + wordSize * x.next
    let words := words % low + low * (redzoneValue + wordSize * (words / (low * wordSize)))
    { x with redzone := redzoneValue, board := words % wordSize, next := words / wordSize }

/-- The part of `kmalloc` that makes sure that the bucket has a free board. -/
def ensureBoard (k got : ℕ) (h : Heap) : Heap :=
  if h.firstfree k = 0 then
    let r := allocBoard k got h
    { r.1 with firstfree := update r.1.firstfree k r.2 }
  else h

/-- The part of `kmalloc` that takes the first free block of the first board. -/
def takeBlock (k size : ℕ) (h : Heap) : Heap × ℕ :=
  let b := h.firstfree k
  let hd := h.board b
  let blk := hd.firstfree
  let n := (hd.nfree + (wordSize - 1)) % wordSize
  ({ h with
      firstfree := if n = 0 then update h.firstfree k hd.next else h.firstfree
      board := update h.board b { hd with nfree := n, firstfree := (h.block blk).next }
      block := update h.block blk { h.block blk with magic := magicAlloc, size := size }.setRedzone },
    blk + userOffset)

/-- `kmalloc(size)`, where `got` is what `pages_alloc` answers if it is asked.
The result zero is `NULL`. -/
def kmalloc (size got : ℕ) (h : Heap) : Heap × ℕ :=
  if size = 0 then (h, 0)
  else
    match findBucket size with
    | none => (h, 0)
    | some k =>
        let h := ensureBoard k got h
        if h.firstfree k = 0 then (h, 0) else takeBlock k size h

/-- The first half of `kfree`: the block goes to the front of its board's list. -/
def putBlock (blk : ℕ) (h : Heap) : Heap :=
  let b := (h.block blk).board
  let hd := h.board b
  { h with
    block := update h.block blk { h.block blk with magic := magicFreed, next := hd.firstfree }
    board := update h.board b
      { hd with firstfree := blk, nfree := (hd.nfree + 1) % wordSize } }

/-- The middle of `kfree`: a board that had no free block joins its bucket's list. -/
def linkBoard (b : ℕ) (h : Heap) : Heap :=
  if (h.board b).nfree = 1 then
    { h with
      board := update h.board b { h.board b with next := h.firstfree (h.board b).bucket }
      firstfree := update h.firstfree (h.board b).bucket b }
  else h

/-- The end of `kfree`: a board whose blocks are all free is given back. -/
def dropBoard (b : ℕ) (h : Heap) : Heap :=
  if (h.board b).nfree = (bucket (h.board b).bucket).nblocks then
    freeBoard b
      { h with firstfree := update h.firstfree (h.board b).bucket (h.board b).next }
  else h

/-- `kfree(ptr)`; nothing when an assertion fails, or when `memset` goes over all of memory. -/
def kfree (ptr : ℕ) (h : Heap) : Option Heap :=
  let blk := ptr - userOffset
  let x := h.block blk
  if ptr ≠ 0 ∧ x.magic = magicAlloc ∧ x.redzone = redzoneValue ∧ x.size + redzoneSize < wordSize then
    some (dropBoard x.board (linkBoard x.board (putBlock blk h)))
  else none

/-- The allocator together with what its callers hold: the pointers returned by
`kmalloc` and not freed since, each with the size asked for. -/
structure State where
  heap : Heap
  live : List (ℕ × ℕ)

def State.boot (h : Heap) : State :=
  ⟨{ h with firstfree := fun _ => 0, pages := [] }, []⟩

/-- The calls, and a caller's store to the first word of a block it holds. -/
inductive Op
  | malloc (size got : ℕ)
  | free (ptr : ℕ)
  | store (ptr value : ℕ)
  deriving DecidableEq

/-- The page allocator hands out a run of pages that overlaps none of those it
has handed out and not got back. -/
def FreshPages (pages : List (ℕ × ℕ)) (got order : ℕ) : Prop :=
  got ≠ 0 ∧ ∀ p ∈ pages,
    got + pageSize * 2 ^ order ≤ p.1 ∨ p.1 + pageSize * 2 ^ p.2 ≤ got

instance (pages : List (ℕ × ℕ)) (got order : ℕ) : Decidable (FreshPages pages got order) :=
  inferInstanceAs (Decidable (_ ∧ _))

/-- What callers and the page allocator promise: a size is a number of 32 bits, `pages_alloc`
fails or hands out fresh pages, and only live pointers are freed or written through. -/
def Legal (s : State) : Op → Prop
  | .malloc size got => size < wordSize ∧ ∀ k ∈ findBucket size,
      got = 0 ∨ FreshPages s.heap.pages got (bucket k).order
  | .free ptr => ptr ∈ s.live.map Prod.fst
  | .store ptr _ => ptr ∈ s.live.map Prod.fst

instance (s : State) : ∀ op, Decidable (Legal s op)
  | .malloc size got => inferInstanceAs (Decidable (size < wordSize ∧ ∀ k ∈ findBucket size,
      got = 0 ∨ FreshPages s.heap.pages got (bucket k).order))
  | .free ptr => inferInstanceAs (Decidable (ptr ∈ s.live.map Prod.fst))
  | .store ptr _ => inferInstanceAs (Decidable (ptr ∈ s.live.map Prod.fst))

def exec (s : State) : Op → Option State
  | .malloc size got =>
      let r := kmalloc size got s.heap
      some ⟨r.1, if r.2 = 0 then s.live else (r.2, size) :: s.live⟩
  | .free ptr => (kfree ptr s.heap).map fun h => ⟨h, s.live.filter (fun a => a.1 ≠ ptr)⟩
  | .store ptr value =>
      let blk := ptr - userOffset
      some ⟨{ s.heap with
          block := update s.heap.block blk { s.heap.block blk with next := value } },
        s.live⟩

def Step : State → Op → State → Prop := Lib.Partial Legal exec

end Mario.Kmalloc
