import Mario.Mm.Page
import Mathlib.Data.List.Basic

/-!
# Virtual memory areas

The area list of `mm/mm.c`. The list `mm->mmap` is the list of the structures in
link order; `ptr` is the address of a structure. A failed assertion is the
result `none`.
-/

namespace Mario.Mm

/-- The bits of `vm_flags` that are ever set. -/
structure VmFlags where
  read : Bool
  write : Bool
  exec : Bool
  shared : Bool
  growsdown : Bool
  deriving DecidableEq

/-- The attributes `PG_USER` and `PG_RW`; `PG_PRESENT` is always among them. -/
structure PageProt where
  user : Bool
  rw : Bool
  deriving DecidableEq

/-- `get_page_prot(flags)`. -/
def getPageProt (flags : VmFlags) : PageProt :=
  if flags.write then ⟨true, true⟩
  else if flags.read || flags.exec then ⟨true, false⟩
  else ⟨false, false⟩

/-- The two `vm_operations_struct` of `mm/filemap.c`. -/
inductive VmOps
  | fileShared
  | filePrivate
  deriving DecidableEq

/-- The choice of `generic_file_mmap` between them. -/
def fileMmapOps (flags : VmFlags) : VmOps :=
  if flags.shared then VmOps.fileShared else VmOps.filePrivate

/-- `struct vm_area_struct`. The share ring is kept outside. -/
structure Vma where
  /-- The address of the structure. -/
  ptr : ℕ
  vmStart : ℕ
  vmEnd : ℕ
  vmFlags : VmFlags
  vmPageProt : PageProt
  vmFile : Option ℕ
  vmInode : Option ℕ
  vmOffset : ℕ
  vmOps : Option VmOps
  /-- The structure that `do_mmap` made; copies of an area keep it. -/
  area : ℕ
  deriving DecidableEq

/-- The address lies in the area. -/
def Vma.Covers (v : Vma) (a : ℕ) : Prop := v.vmStart ≤ a ∧ a < v.vmEnd

instance (v : Vma) (a : ℕ) : Decidable (v.Covers a) := inferInstanceAs (Decidable (_ ∧ _))

/-- The offset in the file of an address of the area, as `filemap_nopage` and `filemap_sync_pte` compute it. -/
def Vma.pos (v : Vma) (a : ℕ) : ℕ := (v.vmOffset + (a - v.vmStart)) % wordSize

/-- `find_vma_nolock`: the first area whose end is above `addr`. -/
def findVma (addr : ℕ) (l : List Vma) : Option Vma := l.find? fun v => decide (addr < v.vmEnd)

def findVmaIntersection (startAddr endAddr : ℕ) (l : List Vma) : Option Vma :=
  (findVma startAddr l).filter fun v => decide (v.vmStart < endAddr)

def verifyVm : List Vma → Bool
  | [] => true
  | v :: l =>
      decide (v.vmStart < v.vmEnd ∧ PageAligned v.vmStart ∧ PageAligned v.vmEnd ∧
        ∀ w ∈ l.head?, v.vmEnd ≤ w.vmStart) && verifyVm l

/-- The search loop of `insert_vm_struct_locked`, with its assertions. -/
def linkVma (v : Vma) : List Vma → Option (List Vma)
  | [] => some [v]
  | m :: l =>
      if v.vmStart < m.vmStart then
        if v.vmEnd ≤ m.vmStart then some (v :: m :: l) else none
      else if m.vmEnd ≤ v.vmStart then (linkVma v l).map (m :: ·)
      else none

/-- `insert_vm_struct_locked`. -/
def insertVmStruct (v : Vma) (l : List Vma) : Option (List Vma) := (linkVma v l).filter verifyVm

/-- The condition of `merge_mmap` for joining an area with its successor. -/
def Mergeable (p q : Vma) : Prop :=
  p.vmEnd = q.vmStart ∧ p.vmFlags = q.vmFlags ∧ p.vmFlags.shared = false ∧
    p.vmFile = none ∧ q.vmFile = none ∧ p.vmInode = none ∧ q.vmInode = none

instance (p q : Vma) : Decidable (Mergeable p q) := inferInstanceAs (Decidable (_ ∧ _))

/-- The loop of `merge_mmap` at the area `p`. -/
def mergeFrom (p : Vma) : List Vma → List Vma
  | [] => [p]
  | q :: l =>
      if Mergeable p q then mergeFrom { p with vmEnd := q.vmEnd } l
      else p :: mergeFrom q l

def mergeMmap : List Vma → List Vma
  | [] => []
  | p :: l => mergeFrom p l

/-- The first loop of `do_munmap`: the areas that overlap the range move to the
`free` list, the last one first. -/
def unlinkRange (addr fin : ℕ) (free : List Vma) : List Vma → List Vma × List Vma
  | [] => ([], free)
  | v :: l =>
      if fin ≤ v.vmStart then (v :: l, free)
      else if v.vmEnd ≤ addr then (unlinkRange addr fin free l).map (v :: ·) id
      else unlinkRange addr fin (v :: free) l

/-- The areas that `unmap_fixup` inserts for what is left of `v`, in this order. -/
def unmapPieces (v : Vma) (addr fin fresh : ℕ) : List Vma :=
  let low := { v with ptr := fresh, vmEnd := addr }
  let high :=
    { v with ptr := fresh, vmStart := fin, vmOffset := (v.vmOffset + (fin - v.vmStart)) % wordSize }
  if addr = v.vmStart ∧ fin = v.vmEnd then []
  else if fin = v.vmEnd then [low]
  else if addr = v.vmStart then [high]
  else [high, { low with ptr := fresh + 1 }]

/-- The loop of `get_unmapped_area_locked`; zero is failure. -/
def searchGap (len : ℕ) : ℕ → List Vma → ℕ
  | addr, [] => if kernelBase - len < addr then 0 else addr
  | addr, v :: l =>
      if kernelBase - len < addr then 0
      else if v.vmEnd < addr then searchGap len addr l
      else if v.vmStart < addr + len then searchGap len v.vmEnd l
      else addr

/-- `get_unmapped_area_locked`. -/
def getUnmappedArea (addr len : ℕ) (l : List Vma) : ℕ :=
  if kernelBase < len then 0
  else searchGap len (pageAlign (if addr = 0 then kernelBase / 2 else addr)) l

/-- The loop of `sys_mprotect` over the areas. -/
def protectAreas (start fin : ℕ) (prot : VmFlags) : List Vma → List Vma
  | [] => []
  | v :: l =>
      if v.vmStart < fin then
        if v.vmEnd ≤ start then v :: protectAreas start fin prot l
        else
          let flags := { v.vmFlags with read := prot.read, write := prot.write, exec := prot.exec }
          { v with vmFlags := flags, vmPageProt := getPageProt flags } ::
            protectAreas start fin prot l
      else v :: l

/-- The stack growth of `do_page_fault`: `vm_start` moves down to the page of `addr`. -/
def growDown (addr : ℕ) (v : Vma) : Vma :=
  { v with
    vmStart := pageMask addr
    vmOffset := (v.vmOffset + wordSize + pageMask addr - v.vmStart) % wordSize }

/-- The write of `do_page_fault` to the area that `find_vma` has found. -/
def growFirst (addr : ℕ) : List Vma → List Vma
  | [] => []
  | v :: l => if addr < v.vmEnd then growDown addr v :: l else v :: growFirst addr l

end Mario.Mm
