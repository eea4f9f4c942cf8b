import Mario.Lib.Runs
import Mathlib.Algebra.Group.Nat.Defs
import Mathlib.Data.List.Range

/-!
# The buddy allocator

`alloc_pages`, `free_pages` and `expand` of `mm/page_alloc.c`. Pages are named by
their frame numbers. A free list is the list of frame numbers on it in link
order, and the buddy bitmap of an order is a function from pair numbers to bits.
A failed assertion is the result `none`; the spinlock makes each call atomic.
-/

namespace Mario.PageAlloc

def maxOrder : ℕ := 11

/-- `ORDER_MASK(order)`. -/
def orderMask (order : ℕ) : ℕ := 2 ^ order - 1

/-- `free_area[]` and `max_pfn`. -/
structure Buddy where
  /-- The free list of each order. -/
  freeList : ℕ → List ℕ
  /-- The buddy bitmap of each order. -/
  map : ℕ → ℕ → Bool
  /-- The number of managed page frames. -/
  maxPfn : ℕ

/-- `__free_area_bitmap_bits(order)`: the bits reserved for the order's bitmap. -/
def bitmapBits (maxPfn order : ℕ) : ℕ := ((maxPfn >>> (order + 1)) + 31) >>> 5 <<< 5

/-- `change_bit` on the bitmap of an order, after its range assertion. -/
def changeBit (nr order : ℕ) (s : Buddy) : Option Buddy :=
  if nr < bitmapBits s.maxPfn order then
    some { s with map := fun k i => s.map k i ^^ (k == order && i == nr) }
  else none

/-- `__free_list_add`, with its assertions. -/
def freeListAdd (pfn order : ℕ) (s : Buddy) : Option Buddy :=
  if order < maxOrder ∧ pfn < s.maxPfn ∧ pfn &&& orderMask order = 0 then
    some { s with freeList := Function.update s.freeList order (s.freeList order ++ [pfn]) }
  else none

/-- `__free_list_del`: unlink a page from the list it is on. The assertions on
the neighbours' links hold exactly when it is on one. -/
def freeListDel (pfn : ℕ) (s : Buddy) : Option Buddy :=
  ((List.range maxOrder).find? (fun order => decide (pfn ∈ s.freeList order))).map fun order =>
    { s with freeList := Function.update s.freeList order ((s.freeList order).erase pfn) }

/-- The search loop of `alloc_pages`: the first order from `order` on whose free
list is not empty. -/
def findOrder (order : ℕ) (s : Buddy) : Option ℕ :=
  (List.range' order (maxOrder - order)).find? (fun n => !(s.freeList n).isEmpty)

/-- The splitting loop of `alloc_pages`, entered at order `n`. -/
def split (pfn order : ℕ) : ℕ → Buddy → Option Buddy
  | 0, s => changeBit (pfn >>> 1) 0 s
  | n + 1, s =>
      (changeBit (pfn >>> (n + 2)) (n + 1) s).bind fun s =>
        if n + 1 = order then some s
        else (freeListAdd (pfn + 2 ^ n) n s).bind (split pfn order n)

/-- `alloc_pages(order)`: the frame number handed out, if there is one. -/
def allocPages (order : ℕ) (s : Buddy) : Option (Buddy × Option ℕ) :=
  if order < maxOrder then
    match findOrder order s with
    | none => some (s, none)
    | some n =>
        (s.freeList n).head?.bind fun pfn =>
          if pfn < s.maxPfn ∧ pfn &&& orderMask n = 0 then
            (freeListDel pfn s).bind fun s =>
              (split pfn order n s).map fun s => (s, some pfn)
          else none
  else none

/-- `expand(page, order)`: unlink the buddy and return the lower page of the pair. -/
def expand (pfn order : ℕ) (s : Buddy) : Option (Buddy × ℕ) :=
  let res := pfn >>> (order + 1) <<< (order + 1)
  if order < maxOrder - 1 ∧ pfn < s.maxPfn ∧ pfn &&& orderMask order = 0 ∧
      (pfn = res ∨ pfn = res + 2 ^ order) then
    (freeListDel (if pfn = res then pfn + 2 ^ order else pfn - 2 ^ order) s).map
      fun s => (s, res)
  else none

/-- The loop of `free_pages`, at order `order` with `rest` orders above it: the
largest order is the one with `rest = 0`. -/
def coalesce : ℕ → ℕ → ℕ → Buddy → Option Buddy
  | 0, pfn, order, s =>
      (changeBit (pfn >>> (order + 1)) order s).bind (freeListAdd pfn order)
  | rest + 1, pfn, order, s =>
      (changeBit (pfn >>> (order + 1)) order s).bind fun s' =>
        if s.map order (pfn >>> (order + 1)) then
          (expand pfn order s').bind fun r => coalesce rest r.2 (order + 1) r.1
        else freeListAdd pfn order s'

/-- `free_pages(page, order)`. -/
def freePages (pfn order : ℕ) (s : Buddy) : Option Buddy :=
  if order < maxOrder ∧ pfn < s.maxPfn ∧ pfn &&& orderMask order = 0 then
    coalesce (maxOrder - 1 - order) pfn order s
  else none

/-- `page_alloc_init`: empty lists and bitmaps, then each usable page is freed. -/
def pageAllocInit (maxPfn : ℕ) (pfns : List ℕ) : Option Buddy :=
  pfns.foldlM (fun s pfn => freePages pfn 0 s) ⟨fun _ => [], fun _ _ => false, maxPfn⟩

/-- The allocator with the allocations, as frame number and order, that have been
handed out and not freed. -/
structure State where
  buddy : Buddy
  out : List (ℕ × ℕ)

inductive Op
  | alloc (order : ℕ)
  | free (pfn order : ℕ)
  deriving DecidableEq

/-- Orders are below `MAX_ORDER`, and a free matches an outstanding allocation of
the same order. -/
def Legal (s : State) : Op → Prop
  | .alloc order => order < maxOrder
  | .free pfn order => (pfn, order) ∈ s.out

/-- The state after a call; `none` when an assertion fails. -/
def exec (s : State) : Op → Option State
  | .alloc order => (allocPages order s.buddy).map fun r =>
      ⟨r.1, r.2.elim s.out (fun pfn => (pfn, order) :: s.out)⟩
  | .free pfn order => (freePages pfn order s.buddy).map fun b => ⟨b, s.out.erase (pfn, order)⟩

/-- One legal call that returns. -/
def Step : State → Op → State → Prop := Lib.Partial Legal exec

end Mario.PageAlloc
