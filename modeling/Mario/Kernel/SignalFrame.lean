import Mario.Kernel.Task
import Mario.Lib.ByteMemory

/-!
# Frames of signal handlers

`do_signal`, `setup_frame` and `do_sigreturn` on the trap frame of a task and on the memory of
its user stack, with the few instructions that `setup_frame` puts behind each frame.
-/

namespace Mario.Kernel

open Mario.Lib Mario.Lib.Bytes

structure TrapFrame where
  ebx : Word
  ecx : Word
  edx : Word
  esi : Word
  edi : Word
  ebp : Word
  eax : Word
  ds : BitVec 16
  es : BitVec 16
  fs : BitVec 16
  gs : BitVec 16
  errorCode : Word
  eip : Word
  cs : BitVec 16
  eflags : Word
  esp : Word
  ss : BitVec 16
  deriving DecidableEq

/-- What the frames save of `thread_struct`. -/
structure Thread where
  trapNo : Word
  errorCode : Word
  cr2 : Word

/-- A task on its way to user mode, and its user memory. -/
structure Machine where
  task : Task
  thread : Thread
  mem : Bytes
  tr : TrapFrame

/-- `struct sigcontext_struct`. -/
structure Sigcontext where
  gs : BitVec 16
  fs : BitVec 16
  es : BitVec 16
  ds : BitVec 16
  edi : Word
  esi : Word
  ebp : Word
  esp : Word
  ebx : Word
  edx : Word
  ecx : Word
  eax : Word
  eip : Word
  cs : BitVec 16
  eflags : Word
  ss : BitVec 16
  oldMask : Word

def userCs : BitVec 16 := 0x23

def userDs : BitVec 16 := 0x2b

def eintr : Word := 4
def erestartsys : Word := 512
def erestartnointr : Word := 513
def erestartnohand : Word := 514

def sysSigreturn : Word := 119

/-- The bits of `eflags` that a context may change. -/
def contextFlags : Word := 0x40DD5

/-! ## `do_sigreturn` -/

/-- The context at an address, as `memcpy_fromfs` copies it. -/
def readContext (mem : Bytes) (a : Word) : Sigcontext :=
  { gs := get16 mem (off a 0), fs := get16 mem (off a 4), es := get16 mem (off a 8)
    ds := get16 mem (off a 12), edi := get32 mem (off a 16), esi := get32 mem (off a 20)
    ebp := get32 mem (off a 24), esp := get32 mem (off a 28), ebx := get32 mem (off a 32)
    edx := get32 mem (off a 36), ecx := get32 mem (off a 40), eax := get32 mem (off a 44)
    eip := get32 mem (off a 56), cs := get16 mem (off a 60), eflags := get32 mem (off a 64)
    ss := get16 mem (off a 72), oldMask := get32 mem (off a 80) }

/-- `do_sigreturn`, and the result of the system call in `eax`. There is no result when
`verify_area` says that the context is not readable, and the task exits. -/
def doSigreturn (readable : Bool) (m : Machine) : Option Machine :=
  if readable then
    let c := readContext m.mem m.tr.esp
    some { m with
      task := setBlocked c.oldMask m.task
      tr :=
        { m.tr with
          ds := c.ds, es := c.es, fs := c.fs, gs := c.gs, ss := c.ss, cs := c.cs, eip := c.eip
          ecx := c.ecx, edx := c.edx, ebx := c.ebx, esp := c.esp, ebp := c.ebp, edi := c.edi
          esi := c.esi, eax := c.eax
          eflags := m.tr.eflags &&& ~~~contextFlags ||| c.eflags &&& contextFlags
          errorCode := -1 } }
  else none

/-! ## `setup_frame` -/

/-- The words of a frame. -/
def frameWords (frame fp eip : Word) (tr : TrapFrame) (thread : Thread) (signr : ℕ)
    (oldMask : Word) : List Word :=
  [off frame 96, BitVec.ofNat 32 signr, tr.gs.setWidth 32, tr.fs.setWidth 32, tr.es.setWidth 32,
    tr.ds.setWidth 32, tr.edi, tr.esi, tr.ebp, fp, tr.ebx, tr.edx, tr.ecx, tr.eax, thread.trapNo,
    thread.errorCode, eip, tr.cs.setWidth 32, tr.eflags, tr.esp, tr.ss.setWidth 32, 0, oldMask,
    thread.cr2]

/-- `setup_frame`, when the stack is writable: the memory and the frame. -/
def setupFrame (fp eip : Word) (tr : TrapFrame) (thread : Thread) (signr : ℕ) (oldMask : Word)
    (mem : Bytes) : Bytes × Word :=
  let frame := fp - 128
  let mem := putWords mem frame (frameWords frame fp eip tr thread signr oldMask)
  -- the three words of the code overlap
  let mem := put32 mem (off frame 96) 0x0000b858
  let mem := put32 mem (off frame 98) sysSigreturn
  (put32 mem (off frame 100) 0x80cd0000, frame)

/-! ## `do_signal` -/

/-- A system call that a handler interrupts. -/
def interrupted (sa : Sigaction) (tr : TrapFrame) : TrapFrame :=
  if 0 ≤ tr.errorCode.toInt ∧ (tr.eax = -erestartnohand ∨
      tr.eax = -erestartsys ∧ sa.saFlags &&& saRestart = 0) then
    { tr with eax := -eintr }
  else tr

/-- The first loop of `do_signal`. Before each pass other tasks may send signals. There is no
result when the task exits, or when the loop needs more passes. -/
def collect : List (List ℕ) → Task → TrapFrame → Word → Option (Task × TrapFrame × Word)
  | [], _, _, _ => none
  | sigs :: rest, t, tr, toHandle =>
      let r := signalPass (sigs.foldl (fun t sig => sendSig sig t) t)
      match r.2 with
      | .done => some (r.1, tr, toHandle)
      | .exit _ => none
      | .handle nr =>
          collect rest r.1 (interrupted (r.1.sigaction (nr - 1)) tr) (toHandle ||| sigBit nr)
      | _ => collect rest r.1 tr toHandle

/-- The system call is restarted. -/
def restart (tr : TrapFrame) : TrapFrame :=
  if 0 ≤ tr.errorCode.toInt ∧ (tr.eax = -erestartnohand ∨ tr.eax = -erestartsys ∨
      tr.eax = -erestartnointr) then
    { tr with eax := tr.errorCode, eip := tr.eip - 2 }
  else tr

/-- The local variables of the second loop. -/
structure Build where
  task : Task
  mem : Bytes
  tr : TrapFrame
  frame : Word
  eip : Word
  oldMask : Word

/-- The segments of user mode. -/
def userSegments (tr : TrapFrame) : TrapFrame :=
  { tr with cs := userCs, ss := userDs, ds := userDs, es := userDs }

/-- A pass of the second loop for a signal that is handled. -/
def buildFrame (writable : Word → Bool) (thread : Thread) (b : Build) (nr : ℕ) : Option Build :=
  let sa := b.task.sigaction (nr - 1)
  let r := setupFrame b.frame b.eip b.tr thread nr b.oldMask b.mem
  if writable r.2 then
    some
      { task := enterHandler nr b.task
        mem := r.1
        tr := userSegments b.tr
        frame := r.2
        eip := sa.saHandler
        oldMask := b.oldMask ||| sa.saMask }
  else none

/-- The signals of a set in the order of the second loop. -/
def handled (toHandle : Word) : List ℕ :=
  ((List.range 32).map (· + 1)).filter fun nr => toHandle.getLsbD (nr - 1)

/-- `do_signal`; `writable` are the answers of `verify_area` for the frames. -/
def doSignal (writable : Word → Bool) (passes : List (List ℕ)) (oldMask : Word) (m : Machine) :
    Option (Machine × Bool) :=
  (collect passes m.task m.tr 0).bind fun (t, tr, toHandle) =>
    if toHandle = 0 then some ({ m with task := t, tr := restart tr }, false)
    else
      ((handled toHandle).foldlM (buildFrame writable m.thread)
        ⟨t, m.mem, restart tr, (restart tr).esp, (restart tr).eip, oldMask⟩).map fun b =>
        ({ task := b.task
           thread := { m.thread with trapNo := 0, errorCode := 0 }
           mem := b.mem
           tr := { b.tr with esp := b.frame, eip := b.eip } }, true)

/-! ## Back from a handler -/

/-- The registers of the return code. -/
structure Cpu where
  eax : Word
  eip : Word
  esp : Word

/-- `popl %eax`, `movl $n, %eax` and `int $0x80`, which ends the code. -/
def insn (mem : Bytes) (c : Cpu) : Option (Cpu × Bool) :=
  if mem c.eip = 0x58 then
    some (⟨get32 mem c.esp, off c.eip 1, off c.esp 4⟩, false)
  else if mem c.eip = 0xb8 then
    some (⟨get32 mem (off c.eip 1), off c.eip 5, c.esp⟩, false)
  else if mem c.eip = 0xcd ∧ mem (off c.eip 1) = 0x80 then
    some (⟨c.eax, off c.eip 2, c.esp⟩, true)
  else none

/-- The code up to a system call, in at most `n` instructions. -/
def runCode (mem : Bytes) : ℕ → Cpu → Option Cpu
  | 0, _ => none
  | n + 1, c => (insn mem c).bind fun r => if r.2 then some r.1 else runCode mem n r.1

/-- How a handler leaves the machine: memory and registers, and what its own calls did to the
task. -/
structure HandlerRun where
  task : Task
  mem : Bytes
  regs : TrapFrame

/-- The handler returns from its frame, and the code there makes a system call. -/
def handlerReturn (r : HandlerRun) (frame : Word) : Option TrapFrame :=
  (runCode r.mem 3 ⟨r.regs.eax, get32 r.mem frame, off frame 4⟩).map fun c =>
    { r.regs with eax := c.eax, eip := c.eip, esp := c.esp, errorCode := c.eax }

/-- Handlers run one after the other, each up to the end of its `do_sigreturn`. The result has
the addresses at which they were entered. -/
def runHandlers (readable : Word → Bool) : List HandlerRun → Machine → Option (List Word × Machine)
  | [], m => some ([], m)
  | r :: rs, m =>
      (handlerReturn r m.tr.esp).bind fun tr =>
        if tr.eax = sysSigreturn then
          (doSigreturn (readable tr.esp) { m with task := r.task, mem := r.mem, tr := tr }).bind
            fun m' => (runHandlers readable rs m').map fun x => (m.tr.eip :: x.1, x.2)
        else none

end Mario.Kernel
