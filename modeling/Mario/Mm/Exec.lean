import Mario.Mm.Process

/-!
# Exec

`do_execveat` of `fs/exec.c`, as far as it works on page frames and address spaces:
the argument pages are taken first, then the old address space goes, the segments
are mapped, and the argument and stack pages are put into the new page table.
-/

namespace Mario.Paging

open Mario.Mm Mario.Lib

def maxArgPages : ℕ := 32

/-- What `do_execveat` reads and is told. -/
structure ExecArgs where
  /-- The frames of the argument pages and what is written into them. -/
  args : List (ℕ × (ℕ → ℕ))
  args_le : args.length ≤ maxArgPages
  /-- `prep_args` or the size check of `do_exec` fails. -/
  refused : Bool
  /-- The descriptors after the program file has been opened. -/
  fds : ℕ → Option ℕ
  /-- `exit_mmap` writes these pages back. -/
  io : ℕ → ℕ
  /-- The calls of `do_mmap` for the segments, with their answers. -/
  segments : List (MmapArgs × Bool × (ℕ → ℕ → ℕ))
  /-- The argument page at which `set_page` fails. -/
  setPage : Option ℕ
  /-- The frame of the stack page and what is written into it. -/
  stack : Option (ℕ × (ℕ → ℕ))
  /-- Whether `set_page` succeeds for the stack page. -/
  setStack : Bool
  /-- The answers to the two last calls of `do_mmap`. -/
  last : (Bool × (ℕ → ℕ → ℕ)) × (Bool × (ℕ → ℕ → ℕ))

/-- `get_zero_page` for every page, and what is written into it. -/
def takePages : List (ℕ × (ℕ → ℕ)) → Memory → Option Memory
  | [], m => some m
  | (g, bytes) :: l, m =>
      (getZeroPage g m).bind fun m =>
        takePages l { m with data := Function.update m.data g bytes }

/-- `set_page` for the first pages of a list. -/
def setPages (l : List ℕ) (pg : ℕ) (pt : PageTable) : PageTable :=
  l.zipIdx.foldl (fun pt e => pt.insert (pg + e.2) ⟨e.1, true, true, false⟩) pt

/-- `do_mmap` by the process, several times. -/
def mmapAll (k : Kernel) (p : ℕ) (calls : List (MmapArgs × Bool × (ℕ → ℕ → ℕ))) (s : Machine) :
    Option Machine :=
  calls.foldlM (fun s c => (s.procs.lookup p).bind fun P => sysMmap k p P c.1 c.2.1 c.2.2 s) s

def flushOldExec (k : Kernel) (p : ℕ) (P : Proc) (e : ExecArgs) (s : Machine) : Machine :=
  let x := freePageTables (closeAreas k e.io P.mmap (P.pt, s.mem))
  dropAreas P.mmap (s.setProc p ⟨[], x.1, e.fds⟩ x.2)

/-- The arguments of the two calls of `do_mmap` in `setup_arg_pages`. -/
def argsMmap (startStack : ℕ) : MmapArgs :=
  { addr := startStack, len := kernelBase - startStack, prot := 3, flags := 0x32
    fd := wordSize - 1, off := 0 }

def stackMmap (startStack : ℕ) : MmapArgs :=
  { addr := startStack - pageSize, len := pageSize, prot := 3, flags := 0x132
    fd := wordSize - 1, off := 0 }

/-- Put pages into the page table of the process. -/
def installPages (p : ℕ) (l : List ℕ) (pg : ℕ) (s : Machine) : Option Machine :=
  (s.procs.lookup p).map fun P => s.setProc p { P with pt := setPages l pg P.pt } s.mem

/-- `setup_arg_pages`, and what `do_execveat` does when it fails. -/
def setupArgPages (k : Kernel) (p : ℕ) (e : ExecArgs) (s : Machine) : Option Machine :=
  let pages := e.args.map Prod.fst
  let startStack := kernelBase - pages.length * pageSize
  match e.setPage with
  | some i =>
      -- `arg_page[i]` is cleared when the page has been set, so `do_execveat` drops the
      -- pages once more only when the very first one could not be set
      (installPages p (pages.take i) (startStack / pageSize) s).map fun s =>
        let m := putPages (pages.drop i) s.mem
        { s with mem := if i = 0 then putPages pages m else m }
  | none =>
      (installPages p pages (startStack / pageSize) s).bind fun s =>
        match e.stack with
        | none => some s
        | some (g, bytes) =>
            (takePages [(g, bytes)] s.mem).bind fun m =>
              if e.setStack then
                (installPages p [g] (startStack / pageSize - 1) { s with mem := m }).bind fun s =>
                  mmapAll k p [(argsMmap startStack, e.last.1), (stackMmap startStack, e.last.2)] s
              else some { s with mem := putPages [g] m }

/-- `do_execveat` after `prep_exec`. -/
def doExec (k : Kernel) (p : ℕ) (P : Proc) (e : ExecArgs) (s : Machine) : Option Machine :=
  (takePages e.args s.mem).bind fun m =>
    if e.refused then some { s with mem := putPages (e.args.map Prod.fst) m }
    else
      (mmapAll k p e.segments (flushOldExec k p P e { s with mem := m })).bind
        (setupArgPages k p e)

/-- A step of the system with `exec`. -/
inductive ExecLabel
  | plain (lab : Label)
  | exec (p : ℕ) (e : ExecArgs)

def execAny (k : Kernel) (s : Machine) : ExecLabel → Option Machine
  | .plain lab => exec k s lab
  | .exec p e => (s.procs.lookup p).bind fun P => doExec k p P e s

def ExecStep (k : Kernel) (s : Machine) (lab : ExecLabel) (t : Machine) : Prop :=
  execAny k s lab = some t

end Mario.Paging
