import Mario.Kernel.Task
import Mario.Lib.Runs

/-!
# The scheduler

Tasks, the run queue of each CPU, and `schedule`, `wake_up_process`, `send_sig`,
`sched_set_cpus_allowed` and `fork`. What is done under `scheduler_lock` is one step, except for
`schedule` itself: `send_sig` takes only the lock of its task, and a task that runs on another CPU
writes its own state without a lock, so `schedule` is cut between the tasks it looks at. A task
reads its CPU before it takes the lock.
-/

namespace Mario.Kernel.Sched

open Mario.Lib Function

/-- The idle task of a CPU, or another task. -/
inductive Tid
  | idle (cpu : ℕ)
  | task (n : ℕ)
  deriving DecidableEq

/-- What a CPU is doing. -/
inductive Phase
  /-- It runs its task. -/
  | running
  /-- In `schedule`: `current->cpu` is read. -/
  | entered (cpu : ℕ)
  /-- In `schedule`, under the lock: these tasks are still to be looked at. -/
  | scan (cpu : ℕ) (rest : List ℕ)
  /-- In `schedule`, under the lock: `next` is to be chosen. -/
  | picking (cpu : ℕ)
  deriving DecidableEq

structure State where
  nrCpuIds : ℕ
  task : Tid → Task
  /-- The task has a `task_struct`. -/
  alive : ℕ → Bool
  /-- The list of `for_each_task`. -/
  tasks : List ℕ
  rq : ℕ → List Tid
  /-- `cpu_info[c].current_task`. -/
  current : ℕ → Tid
  /-- The task on whose stack a CPU runs. -/
  running : ℕ → Tid
  phase : ℕ → Phase
  /-- The CPU that has `scheduler_lock` and `tasklist_lock`. -/
  lock : Option ℕ

def onlineCpuMask (s : State) : Word := if s.nrCpuIds = 0 then 1 else (1 <<< s.nrCpuIds) - 1

def nrCpus : ℕ := 8

def defCounter : ℤ := 10

def modify (p : Tid) (f : Task → Task) (s : State) : State :=
  { s with task := update s.task p (f (s.task p)) }

def setState (p : Tid) (st : TaskState) : State → State := modify p fun t => { t with state := st }

def setCpu (p : Tid) (cpu : ℕ) : State → State := modify p fun t => { t with cpu := cpu }

def setPhase (c : ℕ) (ph : Phase) (s : State) : State :=
  { s with phase := update s.phase c ph }

def enqueueTask (cpu : ℕ) (p : Tid) (s : State) : State :=
  { modify p (fun t => { t with onRunqueue := true }) s with
    rq := update s.rq cpu (s.rq cpu ++ [p]) }

def dequeueTask (p : Tid) (s : State) : State :=
  { modify p (fun t => { t with onRunqueue := false }) s with rq := fun c => (s.rq c).erase p }

def selectTaskCpu (p : Tid) (s : State) : ℕ :=
  let mask := (s.task p).cpusAllowed &&& onlineCpuMask s
  let allowed := if mask = 0 then 1 else mask
  let best := (List.range s.nrCpuIds).foldl
    (fun (best : Option ℕ × ℕ) cpu =>
      if allowed.getLsbD cpu ∧ (s.rq cpu).length < best.2 then (some cpu, (s.rq cpu).length)
      else best)
    (none, nrCpus + 1)
  best.1.getD (s.task p).cpu

def wakeUpProcess (p : Tid) (s : State) : State :=
  if (s.task p).state ≠ .running then
    if (s.task p).onRunqueue then setState p .running s
    else enqueueTask (s.task p).cpu p (setState p .running s)
  else if (s.task p).onRunqueue then s
  else enqueueTask (s.task p).cpu p s

/-- `schedule`: the outgoing task. -/
def resolveOutgoing (cpu : ℕ) (p : Tid) (s : State) : State :=
  if (s.task p).state ≠ .running ∧ p ≠ .idle cpu then
    if (s.task p).state = .interruptible ∧ signalPending (s.task p) then setState p .running s
    else if (s.task p).onRunqueue then dequeueTask p s
    else s
  else s

/-- `schedule`: another task, which may have a signal. -/
def scanTask (current p : Tid) (s : State) : State :=
  if p ≠ current ∧ (s.task p).state = .interruptible ∧ signalPending (s.task p) then
    if (s.task p).onRunqueue then setState p .running s
    else
      let target := selectTaskCpu p s
      enqueueTask target p (setCpu p target (setState p .running s))
  else s

/-- `schedule`: the outgoing task again. -/
def recheckCurrent (cpu : ℕ) (p : Tid) (s : State) : State :=
  if (s.task p).state = .interruptible ∧ signalPending (s.task p) then
    if (s.task p).onRunqueue then setState p .running s
    else enqueueTask cpu p (setState p .running s)
  else s

/-- `schedule`: the task of the queue with the largest counter, and its counter. -/
def pickNext (cpu : ℕ) (s : State) : ℤ × Tid :=
  (s.rq cpu).foldl
    (fun best p => if best.1 < (s.task p).counter then ((s.task p).counter, p) else best)
    (-100, .idle cpu)

/-- `schedule`: every task has a new time slice when the largest counter is 0. -/
def refill (c : ℤ) (s : State) : State :=
  if c = 0 then
    s.tasks.foldl (fun s n => modify (.task n) (fun t => { t with counter := defCounter }) s) s
  else s

/-- `switch_to` and `_switch_to`, which release the lock. -/
def switchTo (c : ℕ) (next : Tid) (s : State) : State :=
  { s with
    running := update s.running c next
    current := update s.current (s.task next).cpu next
    lock := none
    phase := update s.phase c .running }

/-- The last part of `schedule`. -/
def finishSchedule (c cpu : ℕ) (s : State) : State :=
  let best := pickNext cpu s
  let s' := refill best.1 s
  if best.2 = s.current c then setPhase c .running { s' with lock := none }
  else switchTo c best.2 s'

/-- The CPUs of `allowed` that `sched_set_cpus_allowed` looks for. -/
def firstAllowed (nrCpuIds : ℕ) (allowed : Word) : Option ℕ :=
  (List.range nrCpuIds).find? fun cpu => allowed.getLsbD cpu

/-- `sched_set_cpus_allowed` moves the task. -/
def Moves (p : Tid) (mask : Word) (s : State) : Prop :=
  ¬ ((mask &&& onlineCpuMask s).getLsbD (s.task p).cpu = true) ∧ (s.task p).state ≠ .running

instance (p : Tid) (mask : Word) (s : State) : Decidable (Moves p mask s) := instDecidableAnd

/-- `sched_set_cpus_allowed`, called on the CPU `c`. -/
def schedSetCpusAllowed (c : ℕ) (p : Tid) (mask : Word) (s : State) : State :=
  let allowed := mask &&& onlineCpuMask s
  if allowed = 0 then s
  else if p = s.current c ∧ ¬ allowed.getLsbD (s.task p).cpu = true then s
  else
    let s' := modify p (fun t => { t with cpusAllowed := allowed }) s
    if Moves p mask s then (firstAllowed s.nrCpuIds allowed).elim s' fun cpu => setCpu p cpu s'
    else s'

/-- The task of `do_fork` and `do_clone`. -/
def forkTask (c n : ℕ) (s : State) : State :=
  let cur := s.task (s.current c)
  let child : Task :=
    { cur with
      state := .uninterruptible
      counter := (cur.counter + 1) / 2
      signal := 0
      pid := n
      cpusAllowed := onlineCpuMask s
      onRunqueue := false }
  let s' := modify (s.current c) (fun t => { t with counter := t.counter / 2 }) s
  { modify (.task n) (fun _ => child) s' with alive := update s.alive n true }

/-- `irq_PIT`, as far as the time slice goes. -/
def irqPIT (c : ℕ) (s : State) : State :=
  if s.current c = .idle 0 then s
  else modify (s.current c)
    (fun t => { t with counter := if 0 < t.counter then t.counter - 1 else t.counter }) s

inductive Label
  /-- The task of a CPU sets its own state: to sleep, to stop, to exit, or not to sleep after
  all. -/
  | setState (c : ℕ) (st : TaskState)
  /-- A pass of `do_signal`, which may stop the task. -/
  | doSignal (c : ℕ)
  /-- The task of a CPU changes its own signals. -/
  | setSignals (c : ℕ) (signal blocked : Word) (sigaction : ℕ → Sigaction)
  | irqPIT (c : ℕ)
  | fork (c n : ℕ)
  /-- `SET_LINKS`. -/
  | setLinks (n : ℕ)
  | wakeUpProcess (n : ℕ)
  /-- `sys_exit_group` wakes a task that it has killed, unless the task is `TASK_RUNNING`. -/
  | exitGroupWake (n : ℕ)
  | sendSig (sig n : ℕ)
  | schedSetCpusAllowed (c n : ℕ) (mask : Word)
  /-- `schedule` is called. -/
  | schedule (c : ℕ)
  /-- `schedule` takes the locks and deals with the outgoing task. -/
  | resolve (c : ℕ)
  /-- `schedule` looks at one more task. -/
  | scan (c : ℕ)
  | recheck (c : ℕ)
  /-- `schedule` chooses the next task and switches to it. -/
  | switch (c : ℕ)

/-- The CPU that takes a step, where it matters. -/
def Label.cpu : Label → Option ℕ
  | .setState c _ | .doSignal c | .setSignals c _ _ _ | .irqPIT c | .fork c _
  | .schedSetCpusAllowed c _ _ | .schedule c | .resolve c | .scan c | .recheck c | .switch c => some c
  | .setLinks _ | .wakeUpProcess _ | .exitGroupWake _ | .sendSig _ _ => none

/-- The CPU exists. -/
def Legal (s : State) (a : Label) : Prop := ∀ c ∈ a.cpu, c < s.nrCpuIds

instance (s : State) (a : Label) : Decidable (Legal s a) := inferInstanceAs (Decidable (∀ c ∈ a.cpu, _))

def exec (s : State) : Label → Option State
  | .setState c st =>
      if s.phase c = .running ∧ s.current c ≠ .idle c then
        some (setState (s.current c) st s)
      else none
  | .doSignal c =>
      if s.phase c = .running ∧ s.current c ≠ .idle c then
        some (modify (s.current c) (fun t => (signalPass t).1) s)
      else none
  | .setSignals c signal blocked sigaction =>
      if s.phase c = .running then
        some (modify (s.current c)
          (fun t => { t with signal := signal, blocked := blocked, sigaction := sigaction }) s)
      else none
  | .irqPIT c => some (irqPIT c s)
  | .fork c n =>
      if s.phase c = .running ∧ s.alive n = false then some (forkTask c n s)
      else none
  | .setLinks n =>
      if s.lock = none ∧ s.alive n = true ∧ n ∉ s.tasks then some { s with tasks := s.tasks ++ [n] }
      else none
  | .wakeUpProcess n =>
      if s.lock = none ∧ s.alive n = true then some (wakeUpProcess (.task n) s) else none
  | .exitGroupWake n =>
      if s.lock = none ∧ s.alive n = true then
        some (if (s.task (.task n)).state ≠ .running then wakeUpProcess (.task n) s else s)
      else none
  | .sendSig sig n =>
      if s.alive n = true then some (modify (.task n) (sendSig sig) s) else none
  | .schedSetCpusAllowed c n mask =>
      if s.phase c = .running ∧ s.lock = none ∧ n ∈ s.tasks then
        some (schedSetCpusAllowed c (.task n) mask s)
      else none
  | .schedule c =>
      if s.phase c = .running then
        some (setPhase c (.entered (s.task (s.current c)).cpu) s)
      else none
  | .resolve c =>
      match s.phase c with
      | .entered cpu =>
          if s.lock = none then
            some (setPhase c (.scan cpu s.tasks)
              { resolveOutgoing cpu (s.current c) s with lock := some c })
          else none
      | _ => none
  | .scan c =>
      match s.phase c with
      | .scan cpu (n :: rest) =>
          some (setPhase c (.scan cpu rest) (scanTask (s.current c) (.task n) s))
      | _ => none
  | .recheck c =>
      match s.phase c with
      | .scan cpu [] => some (setPhase c (.picking cpu) (recheckCurrent cpu (s.current c) s))
      | _ => none
  | .switch c =>
      match s.phase c with
      | .picking cpu => some (finishSchedule c cpu s)
      | _ => none

def Step : State → Label → State → Prop := Partial Legal exec

/-- Every CPU runs its idle task, and there is no other task. -/
structure Initial (s : State) : Prop where
  idle : ∀ c, (s.task (.idle c)).cpu = c ∧ (s.task (.idle c)).onRunqueue = false ∧
    (s.task (.idle c)).state = .running
  task : ∀ n, (s.task (.task n)).onRunqueue = false
  alive : ∀ n, s.alive n = false
  tasks : s.tasks = []
  rq : ∀ c, s.rq c = []
  current : ∀ c, s.current c = .idle c
  running : ∀ c, s.running c = .idle c
  phase : ∀ c, s.phase c = .running
  lock : s.lock = none

end Mario.Kernel.Sched
