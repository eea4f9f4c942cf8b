import Mario.Mm.Filemap

/-!
# Reading a file through the page cache

`generic_file_read` of `mm/filemap.c` for one task, with `filemap_get_page`, `filemap_fill_page` and
`filemap_read_uncached`. The cache is what it holds of one file. A page that another task is loading is waited
for, and is up to date or has an error then. What the allocators answer and whether there is room in the cache
is given for each pass of the loop.
-/

namespace Mario.FileRead

open Function

open Mario.Filemap (einval enomem enospc eio)

abbrev Byte := BitVec 8

abbrev Page := ℕ → Byte

/-- A file. Its method `read_page` gets an offset and the number of bytes that are valid; it returns a number
and fills in a page of zeros. -/
structure Inode where
  isReg : Bool
  iSize : BitVec 32
  readPage : ℕ → ℕ → ℤ × Page

/-- `(uint64_t) inode->i_size`, where `i_size` is signed. -/
def Inode.size64 (i : Inode) : ℕ := (i.iSize.signExtend 64).toNat

/-- A page of the file in the cache. -/
inductive CachePage
  | uptodate (page : Page)
  | error (error : ℤ)

abbrev Cache := ℕ → Option CachePage

/-- What a pass of the loop is told. -/
structure Answer where
  kmalloc : Bool
  /-- There is room for one more page, perhaps after an eviction. -/
  room : Bool
  /-- The page of this file that is evicted. -/
  evicted : Option ℕ
  /-- `get_zero_page` in `filemap_fill_page` and in `filemap_read_uncached`. -/
  zeroPage : Bool
  uncachedPage : Bool

/-- `filemap_fill_page` and `filemap_read_uncached` between `down` and `up`. -/
def loadPage (i : Inode) (offset : ℕ) : Except ℤ Page :=
  if offset < i.size64 then
    let valid := if i.size64 - offset < pageSize then i.size64 - offset else pageSize
    let ret := i.readPage offset valid
    if ret.1 = valid then .ok ret.2
    else if 0 ≤ ret.1 then .error eio
    else .error ret.1
  else .ok fun _ => 0

/-- `filemap_fill_page` for the entry of an index. -/
def fillPage (i : Inode) (index offset : ℕ) (zeroPage : Bool) (cache : Cache) :
    Except ℤ Page × Cache :=
  match if zeroPage then loadPage i offset else .error enomem with
  | .ok page => (.ok page, update cache index (some (.uptodate page)))
  | .error ret => (.error ret, update cache index (some (.error ret)))

/-- The eviction of a page. -/
def evict (evicted : Option ℕ) (cache : Cache) : Cache :=
  evicted.elim cache fun index => update cache index none

def filemapGetPage (i : Inode) (offset : ℕ) (ans : Answer) (cache : Cache) :
    Except ℤ Page × Cache :=
  if offset % wordSize % pageSize ≠ 0 then (.error einval, cache)
  else
    let index := offset % wordSize / pageSize
    match cache index with
    | some (.uptodate page) => (.ok page, cache)
    | some (.error error) => (.error error, update cache index none)
    | none =>
        if !ans.kmalloc then (.error enomem, cache)
        else if !ans.room then (.error enospc, cache)
        else fillPage i index offset ans.zeroPage (evict ans.evicted cache)

def filemapReadUncached (i : Inode) (offset : ℕ) (ans : Answer) : Except ℤ Page :=
  if ans.uncachedPage then loadPage i offset else .error enomem

/-- The page that a pass of the loop of `generic_file_read` reads from. -/
def readPass (i : Inode) (offset : ℕ) (ans : Answer) (cache : Cache) : Except ℤ Page × Cache :=
  let x := filemapGetPage i offset ans cache
  match x.1 with
  | .ok page => (.ok page, x.2)
  | .error error =>
      if error = enospc then (filemapReadUncached i offset ans, x.2) else (.error error, x.2)

/-- The `chunk` of a pass, with so many bytes left to be read. -/
def chunkSize (i : Inode) (pos left : ℕ) : ℕ :=
  let available := (i.size64 - pos) % wordSize
  let chunk := pageSize - pos % wordSize % pageSize
  let chunk := if chunk > available then available else chunk
  if chunk > left then left else chunk

/-- The cache, `f_pos` and the bytes that have been copied to the buffer. -/
structure ReadState where
  cache : Cache
  pos : ℕ
  out : List Byte

/-- The loop of `generic_file_read`, with a bound on its passes; `k` passes are done. -/
def readLoop (i : Inode) (ans : ℕ → Answer) (count : ℕ) :
    ℕ → ℕ → ReadState → Option (ℤ × ReadState)
  | 0, _, _ => none
  | fuel + 1, k, s =>
      let done := s.out.length
      if count ≤ done then some (done, s)
      else if i.size64 ≤ s.pos then some (done, s)
      else
        let offset := pageMask (s.pos % wordSize)
        let chunk := chunkSize i s.pos (count - done)
        let x := readPass i offset (ans k) s.cache
        match x.1 with
        | .error error => some (if done = 0 then error else done, { s with cache := x.2 })
        | .ok page =>
            readLoop i ans count fuel (k + 1)
              { cache := x.2
                pos := (s.pos + chunk) % 2 ^ 64
                out := s.out ++ (List.range chunk).map fun o => page (s.pos % wordSize % pageSize + o) }

/-- `generic_file_read`: the result and the state after it. -/
def genericFileRead (i : Inode) (ans : ℕ → Answer) (count : ℤ) (fuel : ℕ) (s : ReadState) :
    Option (ℤ × ReadState) :=
  if !i.isReg then some (einval, s)
  else if count ≤ 0 then some (0, s)
  else readLoop i ans count.toNat fuel 0 s

/-! ## What a read should do -/

/-- The number of bytes of a file. -/
def Inode.length (i : Inode) : ℕ := i.iSize.toNat

/-- The method `read_page` reads the bytes of the file. -/
def Reads (i : Inode) (content : ℕ → Byte) : Prop :=
  ∀ offset valid, pageSize ∣ offset → valid ≤ pageSize → offset + valid ≤ i.length →
    (i.readPage offset valid).1 = valid ∧
      ∀ o < valid, (i.readPage offset valid).2 o = content (offset + o)

/-- What is cached are the bytes of the file. -/
def Consistent (i : Inode) (content : ℕ → Byte) (cache : Cache) : Prop :=
  ∀ index entry, cache index = some entry → ∃ page, entry = .uptodate page ∧
    ∀ o < pageSize, index * pageSize + o < i.length → page o = content (index * pageSize + o)

/-- There is memory. The cache may be full. -/
def Answer.Memory (ans : Answer) : Prop :=
  ans.kmalloc = true ∧ ans.zeroPage = true ∧ ans.uncachedPage = true

/-- Whatever is cached, a read of so many bytes at a position copies the bytes of the file from there on, up to
its end, and moves the position behind them. -/
def ReadsExactly (iSize : BitVec 32) (pos : ℕ) (count : ℤ) : Prop :=
  ∀ (i : Inode) (content : ℕ → Byte) (cache : Cache) (ans : ℕ → Answer), i.isReg = true →
    i.iSize = iSize → Reads i content → Consistent i content cache → (∀ k, (ans k).Memory) →
    let n := min count.toNat (i.length - pos)
    ∃ fuel s, genericFileRead i ans count fuel ⟨cache, pos, []⟩ = some ((n : ℤ), s) ∧
      s.out = (List.range n).map (fun j => content (pos + j)) ∧ s.pos = pos + n

end Mario.FileRead
