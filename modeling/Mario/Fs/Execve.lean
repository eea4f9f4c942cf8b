import Mario.Fs.ExecImage
import Mario.Fs.ExecStack
import Mario.Fs.Files

/-!
# What a failed execve has taken

`sys_execve`, `do_execveat`, `open_execat` and `setup_arg_pages` with the descriptor, the
`struct file`, the reference to the inode and the pages that they take. A call that fails before
`flush_old_exec` leaves a state; after it, what counts is how often each argument page is mapped and
released. The pages that the page cache fills with the file are not the call's. The walk over the
path answers an error, or an inode with a reference.
-/

namespace Mario.Fs.Exec

open Mario.Lib Mario.Lib.Bytes Mario.Mm Function
open Files (nrFile)

def eacces : ℤ := 13
def enfile : ℤ := 23
def emfile : ℤ := 24

/-- What a call of `execve` can change. The address space and the signal state are one part of it,
which nothing before `flush_old_exec` writes. -/
structure Task (ρ : Type*) where
  fd : ℕ → Option ℕ
  closeOnExec : ℕ → Bool
  file : ℕ → Files.File
  /-- `i_count`. -/
  inodeCount : ℕ → ℕ
  frames : Frames
  rest : ρ

/-- What the environment answers. -/
structure ExecEnv extends MapEnv where
  /-- `get_base_inode` and `open_namei`. -/
  namei : Except ℤ ℕ
  /-- The error of the open method. -/
  openError : Option ℤ
  /-- `S_ISREG` of the inode. -/
  isReg : Bool
  /-- `i_sb` of the inode. -/
  hasSb : Bool
  /-- `f_op` and its read method. -/
  hasRead : Bool
  /-- What the file holds. -/
  program : Program
  /-- `set_page` of each argument page. -/
  setPage : ℕ → Bool
  stackPage : Bool
  setStackPage : Bool

variable {ρ : Type*}

/-! ## The descriptor -/

/-- `release_file` of a file that the call alone refers to, and `put_file`. -/
def releaseFile (f : ℕ) (t : Task ρ) : Task ρ :=
  let t' := { t with
    file := update t.file f { t.file f with fCount := (t.file f).fCount - 1, fInode := none } }
  match (t.file f).fInode with
  | some i => { t' with inodeCount := update t.inodeCount i (t.inodeCount i - 1) }
  | none => t'

/-- `do_openat` with `O_RDONLY`: the descriptor and its file. -/
def doOpenat (e : ExecEnv) (t : Task ρ) : Except ℤ (ℕ × ℕ) × Task ρ :=
  match (List.range nrOpen).find? fun fd => t.fd fd = none with
  | none => (.error (-emfile), t)
  | some fd =>
      let t := { t with closeOnExec := update t.closeOnExec fd false }
      match (List.range nrFile).find? fun f => (t.file f).fCount = 0 with
      | none => (.error (-enfile), t)
      | some f =>
          let t := { t with
            file := update t.file f { (t.file f).empty with fFlags := 0, fMode := 1 } }
          match e.namei with
          | .error err => (.error err, releaseFile f t)
          | .ok i =>
              let t := { t with
                file := update t.file f { t.file f with fInode := some i, fOp := .plain }
                inodeCount := update t.inodeCount i (t.inodeCount i + 1) }
              match e.openError with
              | some err => (.error err, releaseFile f t)
              | none => (.ok (fd, f), { t with fd := update t.fd fd (some f) })

def openExecat (e : ExecEnv) (t : Task ρ) : Except ℤ (ℕ × ℕ) × Task ρ :=
  match doOpenat e t with
  | (.error err, t) => (.error err, t)
  | (.ok r, t) =>
      if e.isReg = false ∨ e.hasSb = false ∨ e.hasRead = false then (.error (-eacces), t)
      else (.ok r, t)

/-- `sys_close` of the descriptor that the call has opened. -/
def sysClose (fd f : ℕ) (t : Task ρ) : Task ρ :=
  releaseFile f { t with
    closeOnExec := update t.closeOnExec fd false
    fd := update t.fd fd none }

/-! ## The argument pages -/

/-- What happens to an argument page after `flush_old_exec`. -/
inductive PageEvent
  | mapped (frame : ℕ)
  | put (frame : ℕ)
  deriving DecidableEq

/-- The frame of an event. -/
def PageEvent.frame : PageEvent → ℕ
  | .mapped g => g
  | .put g => g

/-- The argument pages that are there. -/
def argPages (argPage : ℕ → Option ℕ) : List ℕ := (List.range maxArgPages).filterMap argPage

/-- The loop at `tail_2` of `do_execveat`: up to the first page that is not there. -/
def tailPages (argPage : ℕ → Option ℕ) : List ℕ :=
  ((List.range maxArgPages).takeWhile fun i => (argPage i).isSome).filterMap argPage

/-- The first loop of `setup_arg_pages`, from page `i` on with `n` pages left: whether it came to its
end, `arg_page` and what happened. -/
def mapArgPages (setPage : ℕ → Bool) : ℕ → ℕ → (ℕ → Option ℕ) → Bool × (ℕ → Option ℕ) × List PageEvent
  | _, 0, argPage => (true, argPage, [])
  | i, n + 1, argPage =>
      if setPage i then
        let r := mapArgPages setPage (i + 1) n (update argPage i none)
        (r.1, r.2.1, .mapped ((argPage i).getD 0) :: r.2.2)
      else (false, argPage, [])

/-- `setup_arg_pages`, as far as its argument pages go. -/
def setupPages (e : ExecEnv) (x : Args) : Option ℤ × (ℕ → Option ℕ) × List PageEvent :=
  let r := mapArgPages e.setPage 0 x.nrPage x.argPage
  if r.1 = true ∧ e.stackPage = true ∧ e.setStackPage = true then (none, r.2.1, r.2.2)
  else (some (-enomem), r.2.1, r.2.2 ++ (argPages r.2.1).map .put)

/-- What happens to the argument pages after `flush_old_exec`. -/
def pageEvents (e : ExecEnv) (x : Args) : List PageEvent :=
  let s := setupPages e x
  s.2.2 ++ if s.1 = none then [] else (tailPages s.2.1).map .put

/-! ## The call -/

/-- How a call ends. -/
inductive ExecResult (ρ : Type*)
  /-- With an error before `flush_old_exec`. -/
  | refused (error : ℤ) (task : Task ρ)
  /-- After `flush_old_exec`: the error if there is one, the argument pages, and what happened to
  them. -/
  | flushed (error : Option ℤ) (pages : List ℕ) (events : List PageEvent)

/-- Put pages one after the other. -/
def putPages (l : List ℕ) (m : Frames) : Frames := l.foldl (fun m g => m.putPage g) m

/-- `do_exec` after `flush_old_exec`, and what follows it in `do_execveat`. -/
def flushedExec (e : ExecEnv) (exe : Exe) (x : Args) : Option (ExecResult ρ) :=
  (mapSegments e.program e.toMapEnv (untilNull exe.phdr)).bind fun m =>
    let error := (setupPages e x).1
    let result : ExecResult ρ := .flushed error (argPages x.argPage) (pageEvents e x)
    if error = none then
      ((stackCalls x.startStack).foldlM (mapCall e.program e.toMapEnv) m).map fun _ => result
    else some result

/-- `do_execveat`. The result `none` is a failed assertion. -/
def doExecveat (u : UserSpace) (fuel : ℕ) (argv envp : Word) (e : ExecEnv) (t : Task ρ) :
    Option (ExecResult ρ) :=
  match openExecat e t with
  | (.error err, t) => some (.refused err t)
  | (.ok (fd, f), t) =>
      match e.program.prepExec e.stray e.kmalloc with
      | .error err => some (.refused err (sysClose fd f t))
      | .ok exe =>
          (prepArgs u fuel argv envp t.frames).bind fun r =>
            let refuse (err : ℤ) : ExecResult ρ :=
              .refused err (sysClose fd f { t with
                frames := putPages (tailPages r.2.argPage) r.2.frames })
            match r.1 with
            | .error err => some (refuse err)
            | .ok (argc, envc) =>
                if pageSize < getNWord argc envc * 4 then some (refuse (-einval))
                else flushedExec e exe r.2

def sysExecve (u : UserSpace) (fuel : ℕ) (filename argv envp : Word) (e : ExecEnv) (t : Task ρ) :
    Option (ExecResult ρ) :=
  match getname u filename t.frames with
  | (.error err, m) => some (.refused err { t with frames := m })
  | (.ok (g, _), m) =>
      (doExecveat u fuel argv envp e { t with frames := m }).bind fun r =>
        match r with
        | .refused err t =>
            (t.frames.pageFree (g * pageSize)).map fun m => .refused err { t with frames := m }
        | .flushed err pages events => some (.flushed err pages events)

end Mario.Fs.Exec
