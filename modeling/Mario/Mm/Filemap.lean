import Mario.Lib.RefCount
import Mario.Lib.Runs
import Mario.Lib.Tables
import Mario.Mm.Page
import Mathlib.Data.Nat.Bitwise

/-!
# The page cache under concurrency

`mm/filemap.c` as tasks interleave in it, together with the operations of
`fs/ext2/file.c` that use it. A task takes at most one critical section of
`filemap_lock`, or one use of `i_sem`, in a step; what it keeps in its local variables
between two steps is its `Pc`. A structure `filemap_page` is named by its address, and
the structures that are allocated are those of the table `mem`.

The wait queue of a structure is the set of tasks that are in `sleep_on` on it: from
`in_wait_queue` on such a task is `asleep`, from `wake_up_all` on it is `woken`, and it
leaves the queue with `out_wait_queue`. The order of the queue does not matter, since
all tasks in it are woken together.

The blocks below a file are a function from offsets to bytes, with zeros in holes and in
new blocks. Answers of the allocators and of the disk are part of the labels.
-/

namespace Mario.Filemap

open Mario.Lib Function

/-- `FILEMAP_MAX_PAGES`. -/
def maxPages : ℕ := 8192

/-- `FILEMAP_HASH_SIZE`. -/
def hashSize : ℕ := 1024

/-- `filemap_hash_index`; an inode is named by its address. -/
def hashIndex (inode index : ℕ) : ℕ := (inode / 16 ^^^ index) % hashSize

/-- `enum filemap_page_state`. -/
inductive PageState
  | loading
  | uptodate
  | invalidated
  | error
  deriving DecidableEq

/-- `struct filemap_page`, without its links, its wait queue and what only the statistics
read. -/
structure Entry where
  inode : ℕ
  index : ℕ
  page : Option ℕ
  state : PageState
  error : ℤ
  deriving DecidableEq

/-- The page of an inode that a call of `filemap_get_page` asks for. -/
structure Request where
  inode : ℕ
  index : ℕ
  deriving DecidableEq

/-- Where a task is between two steps. -/
inductive Pc
  /-- At the label `retry` of `filemap_get_page`. -/
  | retry (r : Request)
  /-- The lookup has failed. -/
  | missed (r : Request)
  /-- The new structure is allocated, and not yet linked. -/
  | fresh (r : Request) (ptr : ℕ)
  /-- It is not needed, or the cache is full. -/
  | discard (r : Request) (ptr : ℕ) (full : Bool)
  /-- In `filemap_fill_page`, before `get_zero_page`. -/
  | fill (r : Request) (ptr : ℕ)
  /-- Before the file is read. -/
  | load (r : Request) (ptr page : ℕ)
  /-- At the label `finish`, with the page and the value of `ret`. -/
  | finish (r : Request) (ptr : ℕ) (page : Option ℕ) (ret : ℤ)
  /-- The structure was invalidated and is unlinked. -/
  | reap (r : Request) (ptr : ℕ) (page : Option ℕ)
  /-- The page could not be loaded. -/
  | failed (page : Option ℕ) (ret : ℤ)
  /-- In `sleep_on`, on the wait queue of a structure. -/
  | asleep (r : Request) (ptr : ℕ)
  /-- In `sleep_on` still, after `wake_up_all`. -/
  | woken (r : Request) (ptr : ℕ)
  /-- A structure in the state `FILEMAP_ERROR` is unlinked. -/
  | expired (ptr : ℕ) (error : ℤ)
  | returned (result : Except ℤ ℕ)
  /-- In the loop of `ext2_file_write`, with `i_sem`. -/
  | writing (inode start left : ℕ)
  /-- In `ext2_truncate`, with `i_sem`, before and after the cut. -/
  | truncating (inode size : ℕ)
  | shrunk (inode size : ℕ)

/-- The page cache, the frames, the files and the tasks. -/
structure State where
  /-- The structures that are allocated. -/
  mem : Table ℕ Entry
  /-- `filemap_pages`, the most recently used first. -/
  lru : List ℕ
  /-- `filemap_hash`. -/
  hash : ℕ → List ℕ
  /-- `filemap_page_count`. -/
  count : ℕ
  tasks : Table ℕ Pc
  pool : Pool ℕ
  /-- The frames that the rest of the kernel refers to, once for each reference. -/
  held : List ℕ
  data : ℕ → ℕ → ℕ
  /-- The bytes of a frame that were stored through a mapping and not written back. -/
  dirty : ℕ → ℕ → Bool
  disk : ℕ → ℕ → ℕ
  /-- `i_size`, as a word of 32 bits. -/
  size : ℕ → ℕ
  /-- The task that has `i_sem`. -/
  sem : ℕ → Option ℕ

/-! ## Structures and lists -/

/-- `filemap_lookup`. -/
def lookup (r : Request) (s : State) : Option ℕ :=
  (s.hash (hashIndex r.inode r.index)).find? fun ptr =>
    (s.mem.lookup ptr).any fun e => decide (e.inode = r.inode ∧ e.index = r.index)

/-- `put_page`, when there is a page. -/
def putPage (page : Option ℕ) (s : State) : State :=
  { s with pool := page.elim s.pool fun f => s.pool.put f }

/-- `filemap_remove_locked`. -/
def removeLocked (ptr : ℕ) (e : Entry) (s : State) : State :=
  putPage e.page
    { s with
      lru := s.lru.erase ptr
      hash := update s.hash (hashIndex e.inode e.index)
        ((s.hash (hashIndex e.inode e.index)).erase ptr)
      count := s.count - 1 }

def kfree (ptr : ℕ) (s : State) : State := { s with mem := s.mem.erase ptr }

/-- `filemap_touch_locked`. -/
def touchLocked (ptr : ℕ) (s : State) : State := { s with lru := ptr :: s.lru.erase ptr }

def setEntry (ptr : ℕ) (e : Entry) (s : State) : State := { s with mem := s.mem.insert ptr e }

def setPc (t : ℕ) (pc : Pc) (s : State) : State := { s with tasks := s.tasks.insert t pc }

/-- What `wake_up_all` does to a task. -/
def Pc.wake (ptr : ℕ) : Pc → Pc
  | .asleep r ptr' => if ptr' = ptr then .woken r ptr' else .asleep r ptr'
  | pc => pc

/-- `wake_up_all` on the wait queue of a structure. -/
def wakeUpAll (ptr : ℕ) (s : State) : State :=
  { s with tasks := Table.mapVal (fun _ pc => pc.wake ptr) s.tasks }

/-- The structure can be evicted: it is up to date, and only the cache refers to its
page. -/
def evictable (s : State) (ptr : ℕ) : Bool :=
  (s.mem.lookup ptr).any fun e =>
    decide (e.state = .uptodate) && e.page.any fun f => decide (s.pool.count f = 1)

/-- The structure that `filemap_evict_one_locked` finds. -/
def victim (s : State) : Option ℕ := s.lru.reverse.find? (evictable s)

/-- `filemap_evict_one_locked`. -/
def evictOne (s : State) : Option State :=
  (victim s).bind fun ptr => (s.mem.lookup ptr).map fun e => kfree ptr (removeLocked ptr e s)

/-! ## Invalidation -/

/-- The body of the loop of `filemap_invalidate_inode`, and of the first branch in
`filemap_invalidate_pages`. -/
def dropEntry (ptr : ℕ) (e : Entry) (s : State) : State :=
  if e.state = .loading then setEntry ptr { e with state := .invalidated } s
  else kfree ptr (removeLocked ptr e s)

/-- Change the bytes of a frame; they are not those of a mapping any more. -/
def overwrite (f : ℕ) (inside : ℕ → Bool) (bytes : ℕ → ℕ) (s : State) : State :=
  { s with
    data := update s.data f fun o => if inside o then bytes o else s.data f o
    dirty := update s.dirty f fun o => if inside o then false else s.dirty f o }

/-- The body of the loop of `filemap_invalidate_pages`. -/
def invalidateEntry (inode start : ℕ) (s : State) (ptr : ℕ) : State :=
  match s.mem.lookup ptr with
  | none => s
  | some e =>
      let pageStart := e.index * pageSize % wordSize
      if e.inode ≠ inode then s
      else if start ≤ pageStart then dropEntry ptr e s
      else if start < (pageStart + pageSize) % wordSize ∧ e.state = .uptodate then
        e.page.elim s fun f =>
          overwrite f (fun o => decide (start - pageStart ≤ o ∧ o < pageSize)) (fun _ => 0) s
      else s

/-- `filemap_invalidate_pages`. -/
def invalidatePages (inode start : ℕ) (s : State) : State :=
  s.lru.foldl (invalidateEntry inode start) s

/-- `filemap_invalidate_inode`. -/
def invalidateInode (inode : ℕ) (s : State) : State :=
  s.lru.foldl (fun s ptr =>
    match s.mem.lookup ptr with
    | none => s
    | some e => if e.inode ≠ inode then s else dropEntry ptr e s) s

/-! ## `filemap_get_page` -/

/-- The first critical section after the label `retry`. -/
def look (t : ℕ) (r : Request) (s : State) : Option State :=
  match lookup r s with
  | none => some (setPc t (.missed r) s)
  | some ptr =>
      (s.mem.lookup ptr).bind fun e =>
        match e.state with
        | .uptodate =>
            e.page.map fun f =>
              setPc t (.returned (.ok f)) (touchLocked ptr
                { s with pool := s.pool.ref f, held := f :: s.held })
        | .error => some (setPc t (.expired ptr e.error) (removeLocked ptr e s))
        | _ => some (setPc t (.asleep r ptr) s)

/-- `-ENOMEM`. -/
def enomem : ℤ := -12

/-- `-EINVAL`. -/
def einval : ℤ := -22

/-- `-ENOSPC`. -/
def enospc : ℤ := -28

/-- `-EIO`. -/
def eio : ℤ := -5

/-- The structure that `filemap_get_page` fills in. -/
def newEntry (r : Request) : Entry :=
  { inode := r.inode, index := r.index, page := none, state := .loading, error := 0 }

/-- Link a structure. -/
def link (ptr : ℕ) (r : Request) (s : State) : State :=
  { s with
    lru := ptr :: s.lru
    hash := update s.hash (hashIndex r.inode r.index)
      (ptr :: s.hash (hashIndex r.inode r.index))
    count := s.count + 1 }

/-- The second critical section of `filemap_get_page`. -/
def publish (t : ℕ) (r : Request) (ptr : ℕ) (s : State) : State :=
  if (lookup r s).isSome then setPc t (.discard r ptr false) s
  else if maxPages ≤ s.count then
    match evictOne s with
    | none => setPc t (.discard r ptr true) s
    | some s' => setPc t (.fill r ptr) (link ptr r s')
  else setPc t (.fill r ptr) (link ptr r s)

/-- A byte of a file, zero from `i_size` on. -/
def fileByte (s : State) (inode off : ℕ) : ℕ :=
  if off < s.size inode then s.disk inode off else 0

/-- `(uint64_t)inode->i_size`. The sign is extended. -/
def size64 (s : State) (inode : ℕ) : ℕ :=
  if s.size inode < wordSize / 2 then s.size inode else s.size inode + (2 ^ 64 - wordSize)

/-- `filemap_fill_page` from `down` to `up`. The bytes of a failed read do not matter. -/
def readPage (r : Request) (page : ℕ) (s : State) : State :=
  { s with
    data := update s.data page fun o =>
      if r.index * pageSize + o < size64 s r.inode then s.disk r.inode (r.index * pageSize + o) else 0 }

/-- `filemap_fill_page` from the label `finish` on. -/
def finish (t : ℕ) (r : Request) (ptr : ℕ) (page : Option ℕ) (ret : ℤ) (s : State) :
    Option State :=
  (s.mem.lookup ptr).bind fun e =>
    if e.state = .invalidated then
      some (setPc t (.reap r ptr page) (wakeUpAll ptr (removeLocked ptr e s)))
    else if ret ≠ 0 then
      some (setPc t (.failed page ret)
        (wakeUpAll ptr (setEntry ptr { e with state := .error, error := ret } s)))
    else
      page.map fun f =>
        setPc t (.returned (.ok f)) (wakeUpAll ptr (touchLocked ptr
          { setEntry ptr { e with page := some f, state := .uptodate } s with
            pool := s.pool.ref f, held := f :: s.held }))

/-! ## Writing and cutting a file -/

/-- What the code reads and never writes: `EXT2_BLOCK_SIZE`. -/
structure Config where
  blockSize : ℕ
  pos : 0 < blockSize

/-- A pass of the loop of `filemap_update_cached_range`, for the page with an index. -/
def updatePage (inode off count : ℕ) (bytes : ℕ → ℕ) (s : State) (index : ℕ) : State :=
  match (lookup ⟨inode, index⟩ s).bind fun ptr => s.mem.lookup ptr with
  | none => s
  | some e =>
      if e.state = .uptodate then
        e.page.elim s fun f =>
          overwrite f
            (fun o => decide (o < pageSize ∧ off ≤ index * pageSize + o ∧
              index * pageSize + o < off + count))
            (fun o => bytes (index * pageSize + o)) s
      else s

/-- The indices of the pages that a range meets. -/
def pagesOf (off count : ℕ) : List ℕ :=
  if count = 0 then []
  else List.range' (off / pageSize) ((off + count - 1) / pageSize - off / pageSize + 1)

/-- `filemap_update_cached_range`; `bytes` is indexed by the offset in the file. -/
def updateCachedRange (inode off count : ℕ) (bytes : ℕ → ℕ) (s : State) : State :=
  (pagesOf off count).foldl (updatePage inode off count bytes) s

/-- The length of the next chunk of `ext2_file_write`. -/
def chunkLength (c : Config) (start left : ℕ) : ℕ := min (c.blockSize - start % c.blockSize) left

/-- A pass of the loop of `ext2_file_write` that finds no error. The block is read and
written only with `i_sem`, so writing it and updating the cache are one step. -/
def writeChunk (t inode start left n : ℕ) (bytes : ℕ → ℕ) (s : State) : State :=
  setPc t (.writing inode ((start + n) % wordSize) (left - n))
    (updateCachedRange inode start n bytes
      { s with
        disk := update s.disk inode fun o =>
          if start ≤ o ∧ o < start + n then bytes o else s.disk inode o })

/-- Change `i_size` and release `i_sem`. -/
def setSize (inode size : ℕ) (s : State) : State :=
  { s with
    size := update s.size inode size
    sem := update s.sem inode none }

/-- The number of blocks of a file of a size. -/
def blocksOf (c : Config) (size : ℕ) : ℕ := (size + c.blockSize - 1) / c.blockSize

/-- Free some blocks of a file; they are holes then. -/
def freeBlocks (c : Config) (inode : ℕ) (freed : ℕ → Bool) (s : State) : State :=
  { s with
    disk := update s.disk inode fun o =>
      if freed (o / c.blockSize) then 0 else s.disk inode o }

/-- `ext2_truncate` up to the end of `filemap_invalidate_pages`, or to its end when it
frees no block. -/
def truncateBody (c : Config) (t inode size : ℕ) (s : State) : State :=
  if blocksOf c (s.size inode) ≤ blocksOf c size then
    setPc t (.returned (.ok 0)) (setSize inode size s)
  else
    setPc t (.shrunk inode size) (invalidatePages inode size
      (freeBlocks c inode (fun b => decide (blocksOf c size ≤ b)) s))

/-! ## Steps -/

/-- The steps, with the answers that they get. -/
inductive Label
  /-- A task calls `filemap_get_page`. -/
  | getPage (t inode offset : ℕ)
  | look (t : ℕ)
  | kmalloc (t : ℕ) (ptr : Option ℕ)
  | publish (t : ℕ)
  | discard (t : ℕ)
  | getZeroPage (t : ℕ) (page : Option ℕ)
  /-- The file is read; `ret` is zero or an error. -/
  | read (t : ℕ) (ret : ℤ)
  | finish (t : ℕ)
  | reap (t : ℕ)
  | failed (t : ℕ)
  | expired (t : ℕ)
  /-- `out_wait_queue`. -/
  | leave (t : ℕ)
  | invalidateInode (inode : ℕ)
  /-- `ext2_file_write` from its start to its end; an error ends it early. -/
  | writeStart (t inode pos : ℕ) (append : Bool) (count : ℕ)
  | writeChunk (t : ℕ) (bytes : ℕ → ℕ)
  | writeEnd (t : ℕ)
  /-- `ext2_truncate`, which may fail after it has freed some blocks. -/
  | truncateStart (t inode size : ℕ)
  | truncateBody (t : ℕ)
  | truncateEnd (t : ℕ)
  | truncateFail (t : ℕ) (freed : ℕ → Bool)
  /-- The rest of the kernel takes a frame, and takes and drops references. -/
  | hold (f : ℕ)
  | retain (f : ℕ)
  | release (f : ℕ)
  /-- A store through a shared mapping of a frame. -/
  | store (f o byte : ℕ)

/-- A task may start a call. -/
def ready (t : ℕ) (s : State) : Bool :=
  match s.tasks.lookup t with
  | none => true
  | some (.returned _) => true
  | some _ => false

/-- The state after a step; none when the task is not there, when the allocator cannot give
the answer, when `i_sem` is taken, or when a structure is used that is not allocated. -/
def exec (c : Config) (s : State) : Label → Option State
  | .getPage t inode offset =>
      if ready t s = false then none
      else if offset % wordSize % pageSize ≠ 0 then
        some (setPc t (.returned (.error einval)) s)
      else some (setPc t (.retry ⟨inode, offset % wordSize / pageSize⟩) s)
  | .look t =>
      match s.tasks.lookup t with
      | some (.retry r) => look t r s
      | _ => none
  | .kmalloc t ptr =>
      match s.tasks.lookup t with
      | some (.missed r) =>
          match ptr with
          | none => some (setPc t (.returned (.error enomem)) s)
          | some p =>
              if p ∈ s.mem then none
              else some (setPc t (.fresh r p) (setEntry p (newEntry r) s))
      | _ => none
  | .publish t =>
      match s.tasks.lookup t with
      | some (.fresh r ptr) => some (publish t r ptr s)
      | _ => none
  | .discard t =>
      match s.tasks.lookup t with
      | some (.discard r ptr full) =>
          some (setPc t (if full then .returned (.error enospc) else .retry r) (kfree ptr s))
      | _ => none
  | .getZeroPage t page =>
      match s.tasks.lookup t with
      | some (.fill r ptr) =>
          match page with
          | none => some (setPc t (.finish r ptr none enomem) s)
          | some g =>
              if s.pool.free g then
                some (setPc t (.load r ptr g)
                  { s with
                    pool := s.pool.take g
                    data := update s.data g fun _ => 0
                    dirty := update s.dirty g fun _ => false })
              else none
      | _ => none
  | .read t ret =>
      match s.tasks.lookup t with
      | some (.load r ptr g) =>
          if s.sem r.inode = none ∧ (ret = 0 ∨ r.index * pageSize < size64 s r.inode) then
            some (setPc t (.finish r ptr (some g) ret) (readPage r g s))
          else none
      | _ => none
  | .finish t =>
      match s.tasks.lookup t with
      | some (.finish r ptr page ret) => finish t r ptr page ret s
      | _ => none
  | .reap t =>
      match s.tasks.lookup t with
      | some (.reap r ptr page) => some (setPc t (.retry r) (kfree ptr (putPage page s)))
      | _ => none
  | .failed t =>
      match s.tasks.lookup t with
      | some (.failed page ret) => some (setPc t (.returned (.error ret)) (putPage page s))
      | _ => none
  | .expired t =>
      match s.tasks.lookup t with
      | some (.expired ptr err) => some (setPc t (.returned (.error err)) (kfree ptr s))
      | _ => none
  | .leave t =>
      match s.tasks.lookup t with
      | some (.woken r ptr) => if ptr ∈ s.mem then some (setPc t (.retry r) s) else none
      | _ => none
  | .invalidateInode inode => some (invalidateInode inode s)
  | .writeStart t inode pos append count =>
      if ready t s = false ∨ s.sem inode ≠ none then none
      else
        some (setPc t (.writing inode (if append then s.size inode % wordSize else pos % wordSize)
          (count % wordSize)) { s with sem := update s.sem inode (some t) })
  | .writeChunk t bytes =>
      match s.tasks.lookup t with
      | some (.writing inode start left) =>
          if left = 0 then none
          else some (writeChunk t inode start left (chunkLength c start left) bytes s)
      | _ => none
  | .writeEnd t =>
      match s.tasks.lookup t with
      | some (.writing inode start _) =>
          some (setPc t (.returned (.ok 0)) (setSize inode (max (s.size inode) start) s))
      | _ => none
  | .truncateStart t inode size =>
      if ready t s = false ∨ s.sem inode ≠ none ∨ wordSize / 2 ≤ size then none
      else
        some (setPc t (.truncating inode size)
          { s with sem := update s.sem inode (some t) })
  | .truncateBody t =>
      match s.tasks.lookup t with
      | some (.truncating inode size) => some (truncateBody c t inode size s)
      | _ => none
  | .truncateEnd t =>
      match s.tasks.lookup t with
      | some (.shrunk inode size) =>
          some (setPc t (.returned (.ok 0)) (setSize inode size s))
      | _ => none
  | .truncateFail t freed =>
      match s.tasks.lookup t with
      | some (.truncating inode size) =>
          if blocksOf c (s.size inode) ≤ blocksOf c size then none
          else
            some (setPc t (.returned (.error eio)) (setSize inode (s.size inode)
              (freeBlocks c inode (fun b => decide (blocksOf c size ≤ b) && freed b) s)))
      | _ => none
  | .hold f =>
      if s.pool.free f then some { s with pool := s.pool.take f, held := f :: s.held } else none
  | .retain f =>
      if f ∈ s.held then some { s with pool := s.pool.ref f, held := f :: s.held } else none
  | .release f =>
      if f ∈ s.held then some { s with pool := s.pool.put f, held := s.held.erase f } else none
  | .store f o byte =>
      if f ∈ s.held then
        some { s with
          data := update s.data f (update (s.data f) o byte)
          dirty := update s.dirty f (update (s.dirty f) o true) }
      else none

def Step (c : Config) (s : State) (lab : Label) (t : State) : Prop := exec c s lab = some t

/-- Before the first call nothing is cached, and no task is in a call. -/
structure Initial (s : State) : Prop where
  mem : s.mem = ∅
  lru : s.lru = []
  hash : ∀ h, s.hash h = []
  count : s.count = 0
  tasks : s.tasks = ∅
  balanced : s.pool.Balanced s.held
  sem : ∀ i, s.sem i = none

end Mario.Filemap
