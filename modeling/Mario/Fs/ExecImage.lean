import Mario.Fs.ExecArgs
import Mario.Lib.Overlay
import Mario.Mm.Exec
import Mario.Mm.Kmalloc
import Mario.Mm.MmapAtomic

/-!
# The image of a new program

`prep_exec`, `fill_exec` and the part of `do_exec` that maps the segments, on the bytes of the
program file. A page of the file is read as the page cache fills it, with zeros behind the end of
the file. `do_exec` ignores what `do_mmap` returns, so a mapping that is refused is just missing.
The pages of the arguments and of the stack are put into the page table before their areas are made,
so without the areas they show in whatever is mapped there.
-/

namespace Mario.Fs.Exec

open Mario.Lib Mario.Mm Mario.Paging

def eio : ℤ := 5
def einval : ℤ := 22

def maxPhdrs : ℕ := 16

/-! ## The headers -/

/-- A little-endian half word. -/
def le16 (b : ℕ → Byte) (o : ℕ) : ℕ := (b (o + 1) ++ b o).toNat

/-- A little-endian word. -/
def le32 (b : ℕ → Byte) (o : ℕ) : ℕ := (b (o + 3) ++ b (o + 2) ++ b (o + 1) ++ b o).toNat

theorem le32_lt (b : ℕ → Byte) (o : ℕ) : le32 b o < wordSize :=
  BitVec.isLt (b (o + 3) ++ b (o + 2) ++ b (o + 1) ++ b o)

/-- `struct Elf32_Phdr`, without the fields that nothing reads. -/
structure Phdr where
  pType : ℕ
  pOffset : ℕ
  pVaddr : ℕ
  pFilesz : ℕ
  pMemsz : ℕ
  pFlags : ℕ
  offset_lt : pOffset < wordSize
  vaddr_lt : pVaddr < wordSize
  filesz_lt : pFilesz < wordSize
  memsz_lt : pMemsz < wordSize
  deriving DecidableEq

/-- The header at an offset of a buffer. -/
def readPhdr (b : ℕ → Byte) (o : ℕ) : Phdr where
  pType := le32 b o
  pOffset := le32 b (o + 4)
  pVaddr := le32 b (o + 8)
  pFilesz := le32 b (o + 16)
  pMemsz := le32 b (o + 20)
  pFlags := le32 b (o + 24)
  offset_lt := le32_lt ..
  vaddr_lt := le32_lt ..
  filesz_lt := le32_lt ..
  memsz_lt := le32_lt ..

def ptLoad : ℕ := 1

def ptPhdr : ℕ := 6

/-- `PF_MASK & p_flags`: `PF_CODE` is five, `PF_RODATA` four and `PF_DATA` six. -/
def Phdr.flags (h : Phdr) : ℕ := h.pFlags % 8

/-- `p_vaddr + p_memsz`, as the source adds them. -/
def Phdr.fin (h : Phdr) : ℕ := (h.pVaddr + h.pMemsz) % wordSize

/-- The states of `fill_exec`. -/
inductive FillState
  | begin
  | code
  | data
  deriving DecidableEq

/-- The fields of `struct exec` that `fill_exec` sets. -/
structure Segments where
  state : FillState
  startCode : ℕ
  endCode : ℕ
  startData : ℕ
  endData : ℕ
  deriving DecidableEq

/-- A round of the second loop of `fill_exec`; nothing when it returns one. -/
def fillStep (x : Segments) (h : Phdr) : Option Segments :=
  match x.state with
  | .begin =>
      if h.flags = 5 then some { x with startCode := h.pVaddr, endCode := h.fin, state := .code }
      else none
  | .code =>
      if h.flags = 5 then some { x with endCode := h.fin }
      else if h.flags = 4 ∨ h.flags = 6 then
        some { x with startData := h.pVaddr, endData := h.fin, state := .data }
      else none
  | .data =>
      if h.flags = 4 ∨ h.flags = 6 then some { x with endData := h.fin } else none

/-- What `fill_exec` finds. -/
structure Exe where
  /-- `phdr`, as far as it is filled. -/
  phdr : List Phdr
  atPhdr : ℕ
  startCode : ℕ
  endCode : ℕ
  startData : ℕ
  endData : ℕ
  brk : ℕ
  deriving DecidableEq

/-- The `PT_LOAD` headers. -/
def loads (tbl : List Phdr) : List Phdr := tbl.filter fun h => h.pType = ptLoad

/-- `at_phdr`: the address in the last `PT_PHDR` header. -/
def findPhdr (tbl : List Phdr) : ℕ :=
  ((tbl.filter fun h => h.pType = ptPhdr).getLast?.map Phdr.pVaddr).getD 0

/-- The headers before the first one without an address, at which the loops stop. -/
def untilNull (l : List Phdr) : List Phdr := l.takeWhile fun h => h.pVaddr ≠ 0

def fillExec (tbl : List Phdr) : Except ℤ Exe :=
  if maxPhdrs < (loads tbl).length then .error (-einval)
  else if findPhdr tbl = 0 then .error (-einval)
  else
    match (untilNull (loads tbl)).foldlM fillStep ⟨.begin, 0, 0, 0, 0⟩ with
    | none => .error 1
    | some x =>
        if x.state = .begin then .error (-einval)
        else
          let startData := if x.startData = 0 then pageAlign x.endCode else x.startData
          let endData := if x.startData = 0 then pageAlign x.endCode else x.endData
          .ok ⟨loads tbl, findPhdr tbl, x.startCode, x.endCode, startData, endData, pageAlign endData⟩

/-- The program file, opened. `mmap` says whether its file system can map files; all that can have
`read_page` too. -/
structure Program where
  content : List Byte
  fd : ℕ
  file : ℕ
  inode : ℕ
  rdonly : Bool
  mmap : Bool
  writes : Bool
  fd_lt : fd < nrOpen
  /-- `i_size` is a signed number. -/
  size_lt : content.length < 2 ^ 31

/-- A byte of the file; zero behind its end. -/
def Program.byte (p : Program) (o : ℕ) : Byte := p.content.getD o 0

/-- The open files, of which only the program's is used. -/
def Program.files (p : Program) : ℕ → File :=
  fun _ => ⟨1, some ⟨p.inode, some p.rdonly, true⟩, some ⟨p.mmap, p.mmap, p.writes⟩⟩

/-- The descriptors, of which only the program's is used. -/
def Program.fds (p : Program) : ℕ → Option ℕ := fun fd => if fd = p.fd then some p.file else none

/-- `exec_read` of `n` bytes from `pos`. -/
def Program.canRead (p : Program) (pos n : ℕ) : Bool :=
  n = 0 || n < 2 ^ 31 && pos + n ≤ p.content.length

/-- `check_elf_header`. -/
def Program.validHeader (p : Program) : Bool :=
  p.byte 0 = 0x7f && p.byte 1 = 0x45 && p.byte 2 = 0x4c && p.byte 3 = 0x46 && p.byte 4 = 1 &&
    p.byte 5 = 1 && le16 p.byte 16 = 2 && le16 p.byte 18 = 3 && le32 p.byte 24 ≠ 0 &&
    le32 p.byte 28 ≠ 0 && le16 p.byte 44 ≠ 0

/-- `n` of `prep_exec`, the size of the buffer for the program headers. -/
def Program.tableSize (p : Program) : ℕ := le16 p.byte 44 * le16 p.byte 42

/-- The program header table as `fill_exec` reads it from the buffer; `stray` is what lies behind
the buffer, which a small `e_phentsize` makes it read. -/
def Program.phdrTbl (p : Program) (stray : ℕ → Byte) : List Phdr :=
  let n := p.tableSize
  let buffer := fun k => if k < n then p.byte (le32 p.byte 28 + k) else stray k
  (List.range (le16 p.byte 44)).map fun i => readPhdr buffer (32 * i)

/-- `prep_exec`. The flag is the answer of `kmalloc`, if it has blocks of the size. -/
def Program.prepExec (p : Program) (stray : ℕ → Byte) (kmalloc : Bool) : Except ℤ Exe :=
  if p.canRead 0 52 = false then .error (-eio)
  else if p.validHeader = false then .error (-einval)
  else if (kmalloc && Kmalloc.served p.tableSize) = false then .error (-enomem)
  else if p.canRead (le32 p.byte 28) p.tableSize = false then .error (-eio)
  else fillExec (p.phdrTbl stray)

/-! ## Mapping the segments -/

/-- The calls of `do_mmap` for a header. -/
def segmentCalls (fd : ℕ) (h : Phdr) : List MmapArgs :=
  if h.flags = 5 then [⟨h.pVaddr, h.pMemsz, 5, 0x12, fd, h.pOffset⟩]
  else if h.flags = 4 then [⟨h.pVaddr, h.pMemsz, 1, 0x12, fd, h.pOffset⟩]
  else if h.flags = 6 then
    if 0 < h.pFilesz then
      let sz := pageAlign h.pFilesz
      ⟨h.pVaddr, h.pFilesz, 3, 0x12, fd, h.pOffset⟩ ::
        if sz < h.pMemsz then
          [⟨(h.pVaddr + sz) % wordSize, h.pMemsz - sz, 3, 0x32, wordSize - 1, 0⟩]
        else []
    else [⟨h.pVaddr, h.pMemsz, 3, 0x32, wordSize - 1, 0⟩]
  else []

/-- The calls of `do_mmap` for the headers, each with the header's number. -/
def loadCalls (fd : ℕ) (l : List Phdr) : List (ℕ × MmapArgs) :=
  l.zipIdx.flatMap fun h => (segmentCalls fd h.1).map fun c => (h.2, c)

/-- The two calls of `setup_arg_pages`, with numbers that no header has. -/
def stackCalls (startStack : ℕ) : List (ℕ × MmapArgs) :=
  [(maxPhdrs, argsMmap startStack), (maxPhdrs + 1, stackMmap startStack)]

/-- All calls of `do_mmap`. -/
def execCalls (fd : ℕ) (l : List Phdr) (startStack : ℕ) : List (ℕ × MmapArgs) :=
  loadCalls fd l ++ stackCalls startStack

/-- An address space under construction. -/
structure Mapping where
  space : Space
  /-- The calls that have made a mapping, in their order. -/
  made : List (ℕ × MmapArgs)
  /-- The bytes in the pages that `set_page` has put in. -/
  present : ℕ → Option Byte

/-- The mapping of the call lies over the address. -/
def Covers (c : ℕ × MmapArgs) (a : ℕ) : Prop := c.2.addr ≤ a ∧ a < c.2.addr + pageAlign c.2.len

instance (c : ℕ × MmapArgs) (a : ℕ) : Decidable (Covers c a) := inferInstanceAs (Decidable (_ ∧ _))

/-- The header whose call has mapped the address last. -/
def Mapping.owner (m : Mapping) (a : ℕ) : Option ℕ := (overlay Covers m.made a).map Prod.fst

/-- What the environment decides while the segments are mapped. -/
structure MapEnv where
  stray : ℕ → Byte
  kmalloc : Bool
  /-- The answers of `kmalloc` in each call of `do_mmap`: the first for the area, and the others for
  the pieces of the areas that it cuts. -/
  memory : ℕ → MmapArgs → ℕ → Bool
  /-- The address space after `flush_old_exec`. -/
  fresh : ℕ
  frefs : ℕ → ℤ

/-- A call of `do_mmap`; nothing when an assertion of `unmap_fixup` fails. When an area overlaps the
range, `do_munmap` empties it. -/
def mapCall (p : Program) (e : MapEnv) (m : Mapping) (c : ℕ × MmapArgs) : Option Mapping :=
  (Scarce.doMmap p.files p.fds (fun x => e.memory c.1 c.2 (x - m.space.fresh)) c.2 m.space).map fun r =>
    match r.2 with
    | .ok _ =>
        { space := r.1
          made := m.made ++ [c]
          present :=
            if m.space.mmap.any fun v => v.vmStart < c.2.addr + pageAlign c.2.len && c.2.addr < v.vmEnd then
              removeRange c.2.addr (c.2.addr + pageAlign c.2.len) m.present
            else m.present }
    | .error _ => { m with space := r.1 }

/-- A round of the loop of `do_exec`; nothing also when the assertion on `p_vaddr` fails. -/
def mapHeader (p : Program) (e : MapEnv) (m : Mapping) (h : Phdr × ℕ) : Option Mapping :=
  if PageAligned h.1.pVaddr then (segmentCalls p.fd h.1).foldlM (fun m c => mapCall p e m (h.2, c)) m
  else none

/-- `do_exec` after `flush_old_exec`, up to `setup_arg_pages`. -/
def mapSegments (p : Program) (e : MapEnv) (l : List Phdr) : Option Mapping :=
  l.zipIdx.foldlM (mapHeader p e) ⟨⟨[], e.fresh, e.frefs⟩, [], fun _ => none⟩

/-- What the environment of the whole call decides. -/
structure ImageEnv extends MapEnv where
  /-- The number of the argument pages. -/
  nrPage : ℕ
  nrPage_pos : 0 < nrPage
  nrPage_le : nrPage ≤ maxArgPages
  /-- What the argument pages and the stack page hold. -/
  page : ℕ → Byte

def ImageEnv.startStack (e : ImageEnv) : ℕ := kernelBase - e.nrPage * pageSize

/-- The argument pages and the stack page in the page table. -/
def ImageEnv.pages (e : ImageEnv) (a : ℕ) : Option Byte :=
  if e.startStack - pageSize ≤ a ∧ a < kernelBase then some (e.page a) else none

/-- `setup_arg_pages`, when it gets its pages. -/
def mapStack (p : Program) (e : ImageEnv) (m : Mapping) : Option Mapping :=
  (stackCalls e.startStack).foldlM (mapCall p e.toMapEnv) { m with present := e.pages }

/-- The image of the new program. -/
structure Image where
  exe : Exe
  mapping : Mapping

/-- `execve`, as far as it builds the image, when it succeeds. -/
def execImage (p : Program) (e : ImageEnv) : Option Image :=
  match p.prepExec e.stray e.kmalloc with
  | .error _ => none
  | .ok exe =>
      ((mapSegments p e.toMapEnv (untilNull exe.phdr)).bind (mapStack p e)).map fun m => ⟨exe, m⟩

/-- The byte that is read at an address: of a page that is there, or of one that a page fault brings
in. -/
def Image.read (p : Program) (x : Image) (a : ℕ) : Option Byte :=
  match x.mapping.present a with
  | some b => some b
  | none => (view x.mapping.space.mmap a).map fun v =>
      match v.backing with
      | none => 0
      | some (_, o) => p.byte o

end Mario.Fs.Exec
