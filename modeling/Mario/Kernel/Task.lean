import Mathlib.Data.BitVec

/-!
# Tasks and signals

The part of `task_struct` that scheduling and signals use, `send_sig`, and the critical
sections in which a task changes its own signals. Signal numbers start at 1, the bits of a
set at 0.
-/

namespace Mario.Kernel

/-- `unsigned long`. -/
abbrev Word := BitVec 32

/-- The values of `state`. -/
inductive TaskState
  | running
  | interruptible
  | uninterruptible
  | zombie
  | stopped
  deriving DecidableEq

/-! ## Signal numbers and sets -/

def sigkill : ℕ := 9
def sigchld : ℕ := 17
def sigcont : ℕ := 18
def sigstop : ℕ := 19
def sigtstp : ℕ := 20
def sigttin : ℕ := 21
def sigttou : ℕ := 22
def sigwinch : ℕ := 28

/-- `_S`. -/
def sigBit (nr : ℕ) : Word := BitVec.twoPow 32 (nr - 1)

def blockable : Word := ~~~(sigBit sigkill ||| sigBit sigstop)

/-- The signals that `SIGCONT` and `SIGKILL` take back. -/
def stopSignals : Word := sigBit sigstop ||| sigBit sigtstp ||| sigBit sigttin ||| sigBit sigttou

def sigDfl : Word := 0

def sigIgn : Word := 1

def saSiginfo : Word := 4

def saRestart : Word := 0x10000000

def saNomask : Word := 0x40000000

def saOneshot : Word := 0x80000000

structure Sigaction where
  saHandler : Word
  saFlags : Word
  saRestorer : Word
  saMask : Word
  deriving DecidableEq

/-- `struct task_struct`. -/
structure Task where
  state : TaskState
  counter : ℤ
  signal : Word
  blocked : Word
  exitCode : ℕ
  pid : ℕ
  cpu : ℕ
  cpusAllowed : Word
  /-- `run_list.next` is not `NULL`. -/
  onRunqueue : Bool
  sigaction : ℕ → Sigaction

def signalPending (p : Task) : Bool := p.signal &&& ~~~p.blocked != 0

/-! ## `send_sig` -/

/-- What `SIGKILL` and `SIGCONT` do to a stopped task before they are looked at further. -/
def resumeStopped (p : Task) : Task :=
  { p with
    state := if p.state = .stopped then .running else p.state
    exitCode := 0
    signal := p.signal &&& ~~~stopSignals }

/-- The stop signals take `SIGCONT` back. -/
def dropCont (p : Task) : Task := { p with signal := p.signal &&& ~~~sigBit sigcont }

/-- A signal that is ignored is not recorded; `SIGCHLD` is special. -/
def postSignal (sig : ℕ) (p : Task) : Task :=
  let handler := (p.sigaction (sig - 1)).saHandler
  if handler = sigIgn ∧ sig ≠ sigchld then p
  else if handler = sigDfl ∧ (sig = sigcont ∨ sig = sigchld ∨ sig = sigwinch) then p
  else { p with signal := p.signal ||| sigBit sig }

def sendSig (sig : ℕ) (p : Task) : Task :=
  if 32 < sig then p
  else if sig = 0 then p
  else if p.state = .zombie then p
  else
    let p := if sig = sigkill ∨ sig = sigcont then resumeStopped p else p
    let p := if sigstop ≤ sig ∧ sig ≤ sigttou then dropCont p else p
    postSignal sig p

theorem postSignal_place (sig : ℕ) (t : Task) :
    (postSignal sig t).cpu = t.cpu ∧ (postSignal sig t).onRunqueue = t.onRunqueue ∧
      (postSignal sig t).state = t.state := by
  unfold postSignal
  dsimp only
  split_ifs
  · exact ⟨rfl, rfl, rfl⟩
  · exact ⟨rfl, rfl, rfl⟩
  · exact ⟨rfl, rfl, rfl⟩

theorem sendSig_place (sig : ℕ) (t : Task) :
    (sendSig sig t).cpu = t.cpu ∧ (sendSig sig t).onRunqueue = t.onRunqueue := by
  unfold sendSig
  dsimp only
  split_ifs
  · exact ⟨rfl, rfl⟩
  · exact ⟨rfl, rfl⟩
  · exact ⟨rfl, rfl⟩
  all_goals exact ⟨(postSignal_place _ _).1, (postSignal_place _ _).2.1⟩

/-- The signals that start a stopped task. -/
def Continues (sig : ℕ) : Prop := sig = sigkill ∨ sig = sigcont

instance (sig : ℕ) : Decidable (Continues sig) := instDecidableOr

theorem sendSig_state (sig : ℕ) (t : Task) : (sendSig sig t).state =
    if Continues sig ∧ t.state = .stopped then .running else t.state := by
  have hnr : Continues sig → ¬ 32 < sig ∧ ¬ sig = 0 := by
    rintro (rfl | rfl)
    · decide
    · decide
  have hresume : (resumeStopped t).state = if t.state = .stopped then .running else t.state := rfl
  unfold sendSig
  dsimp only
  split_ifs with hlarge hcont hcont hzero hcont hcont
  all_goals grind [postSignal_place, dropCont, Continues]

/-! ## The calls of a task on its own signals -/

/-- `sys_sigprocmask`, when the areas of the user are valid. The result is `old_set`, or
nothing for `EINVAL`. -/
def sysSigprocmask (how : ℕ) (set : Option Word) (p : Task) : Task × Option Word :=
  match set with
  | none => (p, some p.blocked)
  | some set =>
      let newSet := set &&& blockable
      match how with
      | 0 => ({ p with blocked := p.blocked ||| newSet }, some p.blocked)
      | 1 => ({ p with blocked := p.blocked &&& ~~~newSet }, some p.blocked)
      | 2 => ({ p with blocked := newSet }, some p.blocked)
      | _ => (p, none)

def checkPending (signum : ℕ) (p : Task) : Task :=
  let handler := (p.sigaction (signum - 1)).saHandler
  if handler = sigIgn then
    if signum = sigchld then p else { p with signal := p.signal &&& ~~~sigBit signum }
  else if handler = sigDfl then
    if signum ≠ sigcont ∧ signum ≠ sigchld ∧ signum ≠ sigwinch then p
    else { p with signal := p.signal &&& ~~~sigBit signum }
  else p

/-- Signals whose action a task may not change. -/
def fixedSignal (signum : ℕ) : Bool :=
  decide (signum < 1 ∨ 32 < signum ∨ signum = sigkill ∨ signum = sigstop)

/-- Store an action and look at the pending signals again. -/
def setAction (signum : ℕ) (sa : Sigaction) (p : Task) : Task :=
  checkPending signum { p with sigaction := Function.update p.sigaction (signum - 1) sa }

/-- `sys_signal`; `valid` is the answer of `verify_area` for the handler. The result is the
handler before, or nothing for an error. -/
def sysSignal (signum : ℕ) (handler : Word) (valid : Bool) (p : Task) : Task × Option Word :=
  if fixedSignal signum then (p, none)
  else if handler ≠ sigDfl ∧ handler ≠ sigIgn ∧ valid = false then (p, none)
  else
    (setAction signum ⟨handler, saOneshot ||| saNomask, 0, 0⟩ p,
      some (p.sigaction (signum - 1)).saHandler)

/-- The mask that `sys_sigaction` stores. -/
def actionMask (signum : ℕ) (sa : Sigaction) : Word :=
  if sa.saFlags &&& saNomask ≠ 0 then 0 else (sa.saMask ||| sigBit signum) &&& blockable

/-- `sys_sigaction`, when the areas of the user are valid; `valid` is the answer of
`verify_area` for the handler. The result is the action before, or nothing for an error. -/
def sysSigaction (signum : ℕ) (act : Option Sigaction) (valid : Bool) (p : Task) :
    Task × Option Sigaction :=
  if fixedSignal signum then (p, none)
  else
    match act with
    | none => (p, some (p.sigaction (signum - 1)))
    | some sa =>
        if sa.saHandler ≠ sigDfl ∧ sa.saHandler ≠ sigIgn ∧ valid = false then (p, none)
        else if sa.saFlags &&& saSiginfo ≠ 0 then (p, none)
        else
          (setAction signum { sa with saMask := actionMask signum sa } p,
            some (p.sigaction (signum - 1)))

/-- What `do_sigreturn` and `do_sigsuspend` store from the user. -/
def setBlocked (mask : Word) (p : Task) : Task := { p with blocked := mask &&& blockable }

/-! ## The critical sections of `do_signal` -/

/-- `bsf`: the lowest bit that is set. -/
def bsf (w : Word) : Option ℕ := (List.range 32).find? fun i => w.getLsbD i

/-- How a pass of the first loop goes on. -/
inductive Pass
  /-- No signal is pending. -/
  | done
  | ignore
  /-- `SIGCHLD` is ignored: the children are reaped. -/
  | reap
  /-- The parent is notified, and the task sleeps. -/
  | stop
  | exit (nr : ℕ)
  /-- A handler will be invoked. -/
  | handle (nr : ℕ)
  deriving DecidableEq

/-- The default action of a signal that has been taken out of the pending ones. -/
def defaultAction (nr : ℕ) (p : Task) : Task × Pass :=
  if p.pid = 1 then (p, .ignore)
  else if nr = sigcont ∨ nr = sigchld ∨ nr = sigwinch then (p, .ignore)
  else if nr = sigstop ∨ nr = sigtstp ∨ nr = sigttin ∨ nr = sigttou then
    ({ p with state := .stopped, exitCode := nr }, .stop)
  else ({ p with signal := p.signal ||| sigBit (nr % 0x80) }, .exit nr)

/-- A pass of the first loop of `do_signal`, while it holds the lock of the task. -/
def signalPass (p : Task) : Task × Pass :=
  match bsf (p.signal &&& ~~~p.blocked) with
  | none => (p, .done)
  | some i =>
      let handler := (p.sigaction i).saHandler
      let q := { p with signal := p.signal &&& ~~~BitVec.twoPow 32 i }
      if handler = sigIgn then (q, if i + 1 = sigchld then .reap else .ignore)
      else if handler = sigDfl then defaultAction (i + 1) q
      else (q, .handle (i + 1))

/-- What `do_signal` does to the task when it has set up the frame of a signal. -/
def enterHandler (nr : ℕ) (p : Task) : Task :=
  let sa := p.sigaction (nr - 1)
  { p with
    sigaction :=
      if sa.saFlags &&& saOneshot ≠ 0 then
        Function.update p.sigaction (nr - 1) { sa with saHandler := sigDfl }
      else p.sigaction
    blocked := p.blocked ||| sa.saMask }

/-! ## `fork` and `exec` -/

/-- The signals of the child of `do_fork` and `do_clone`. -/
def forkSignals (pid : ℕ) (p : Task) : Task := { p with pid := pid, signal := 0 }

def flushOldExec (p : Task) : Task :=
  { p with
    signal := 0
    sigaction := fun i =>
      if i < 32 then
        { p.sigaction i with
          saHandler := if (p.sigaction i).saHandler = sigIgn then sigIgn else sigDfl
          saFlags := 0
          saMask := 0 }
      else p.sigaction i }

end Mario.Kernel
