import Mario.Fs.ExecCuts

/-!
# Which program files `execve` handles safely

`do_execveat` on every byte content of the program file: `prep_exec` reads the program headers,
`fill_exec` checks their kinds, and `do_exec` maps them. No step checks `e_phentsize`, the
alignment of `p_vaddr`, the sum of `p_vaddr` and `p_memsz`, or that the segments lie apart.
-/

namespace Mario.Fs.Exec

open Mario.Lib Mario.Mm Mario.Paging

/-! ## The model -/

/-- How many headers the first loop of `fill_exec` reads when `j` segments are found: all of them,
or those up to the first that has no place in `phdr`. -/
def headersRead (j : ℕ) : List Phdr → ℕ
  | [] => 0
  | h :: tbl =>
      if h.pType = ptLoad then if j = maxPhdrs then 1 else headersRead (j + 1) tbl + 1
      else headersRead j tbl + 1

/-- `prep_exec` comes to `fill_exec`. -/
def Program.fillsTable (p : Program) (kmalloc : Bool) : Bool :=
  p.canRead 0 52 && p.validHeader && (kmalloc && Kmalloc.served p.tableSize) &&
    p.canRead (le32 p.byte 28) p.tableSize

/-- What the environment of a whole call decides. -/
structure LoadEnv extends ImageEnv where
  /-- The error for the arguments, from `prep_args` or from the check in `do_exec`. -/
  args : Option ℕ
  /-- `setup_arg_pages` gets its pages. -/
  argPages : Bool

/-- `do_exec` after its check of the arguments: the mappings that are made, and the result. -/
def doExec (p : Program) (e : LoadEnv) (exe : Exe) : Option (List (ℕ × MmapArgs) × ℤ) :=
  (mapSegments p e.toMapEnv (untilNull exe.phdr)).bind fun m =>
    if e.argPages then (mapStack p e.toImageEnv m).map fun m => (m.made, 0)
    else some (m.made, -enomem)

/-- What a call of `execve` does. -/
structure Outcome where
  /-- How many program headers are read. -/
  headers : ℕ
  /-- The segments that `fill_exec` finds. -/
  phdr : List Phdr
  /-- The mappings that are made, each with the number of its segment. -/
  made : List (ℕ × MmapArgs)
  result : ℤ

/-- `do_execveat`, when the file is opened; nothing when an assertion fails. -/
def execve (p : Program) (e : LoadEnv) : Option Outcome :=
  let headers := if p.fillsTable e.kmalloc then headersRead 0 (p.phdrTbl e.stray) else 0
  match p.prepExec e.stray e.kmalloc with
  | .error r => some ⟨headers, [], [], r⟩
  | .ok exe =>
      match e.args with
      | some err => some ⟨headers, exe.phdr, [], -err⟩
      | none => (doExec p e exe).map fun r => ⟨headers, exe.phdr, r.1, r.2⟩

/-! ## Safety -/

/-- The call ends with zero or an error, has read no header outside the buffer, and has mapped
nothing above `KERNEL_BASE` and nothing of a segment that ends behind the last address. -/
structure Outcome.Safe (p : Program) (o : Outcome) : Prop where
  result : o.result ≤ 0
  headers : 32 * o.headers ≤ p.tableSize
  below : ∀ m ∈ o.made, m.2.addr + pageAlign m.2.len ≤ kernelBase
  whole : ∀ i c h, (i, c) ∈ o.made → o.phdr[i]? = some h → h.pVaddr + h.pMemsz < wordSize

/-- No environment makes `execve` of the file unsafe. -/
def Program.Safe (p : Program) : Prop := ∀ e, ∃ o, execve p e = some o ∧ o.Safe p

/-- The header table, with zeros behind the buffer. -/
def Program.table (p : Program) : List Phdr := p.phdrTbl fun _ => 0

end Mario.Fs.Exec
