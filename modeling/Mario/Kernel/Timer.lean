import Mario.Kernel.Task
import Mario.Lib.Ring
import Mario.Lib.Runs

/-!
# Timers

The list `timer_head` and the life of the tasks whose `real_timer` can be on it. The timers are
nodes in a heap of pointers, as `list.h` has them: whether a timer is in the list is read off its
`next` pointer, and `fork` copies that pointer with the rest of the task. The operations are taken
one at a time. A sleep of `schedule_timeout` is two of them, since its timer is on the stack of the
task and stays in the list until the task comes back.
-/

namespace Mario.Kernel.Timer

open Mario.Lib Function

/-- The nodes of the list. -/
inductive Node
  /-- `timer_head`. -/
  | head
  /-- `real_timer` of a task. -/
  | real (p : ℕ)
  /-- The `timer` of `schedule_timeout`, on the stack of a task. -/
  | sleep (p : ℕ)
  deriving DecidableEq

/-- `ITIMER_REAL`, `ITIMER_VIRTUAL` and `ITIMER_PROF`. -/
inductive Which
  | real
  | virtual
  | prof
  deriving DecidableEq

/-- `it_real_value` and `it_real_incr`, and the same for the other two timers. -/
structure Interval where
  value : Word
  incr : Word

structure Timeval where
  sec : Word
  usec : Word
  deriving DecidableEq

structure Itimerval where
  interval : Timeval
  value : Timeval
  deriving DecidableEq

/-- Ticks in a second. -/
def hz : Word := 100

def tvtojiffies (v : Timeval) : Word :=
  hz * v.sec + (v.usec + (1000000 / hz - 1)).sdiv (1000000 / hz)

def jiffiestotv (j : Word) : Timeval := ⟨j.sdiv hz, j.srem hz * (1000000 / hz)⟩

def maxJiffyOffset : Word := (BitVec.allOnes 32 >>> 1) - 1

def timespecToJiffies (sec nsec : Word) : Word :=
  if maxJiffyOffset / hz ≤ sec then maxJiffyOffset
  else hz * sec + (nsec + (1000000000 / hz - 1)).sdiv (1000000000 / hz)

structure State where
  links : Links Node
  expires : Node → Word
  jiffies : Word
  /-- The task has a `task_struct`. -/
  alive : ℕ → Bool
  zombie : ℕ → Bool
  /-- The task is in `schedule_timeout`. -/
  sleeping : ℕ → Bool
  interval : ℕ → Which → Interval
  /-- `real_timer.data`. -/
  data : ℕ → ℕ
  /-- The timers that were armed and have neither fired nor been deleted. The kernel does not
  keep this. -/
  armed : Node → Bool

/-- Note that a timer is armed or is not. -/
def setArmed (n : Node) (b : Bool) (s : State) : State :=
  { s with armed := update s.armed n b }

def setExpires (n : Node) (e : Word) (s : State) : State :=
  { s with expires := update s.expires n e }

/-- Set an interval timer of a task. -/
def setInterval (p : ℕ) (w : Which) (i : Interval) (s : State) : State :=
  { s with interval := update s.interval p (update (s.interval p) w i) }

/-- The walk of `add_timer`: up to the first node that expires later, or to the head. -/
def findLater (L : Links Node) (expires : Node → Word) (e : Word) : ℕ → Node → Option Node
  | 0, _ => none
  | fuel + 1, tmp =>
      if tmp = .head ∨ e.slt (expires tmp) then some tmp
      else (L.next tmp).bind (findLater L expires e fuel)

/-- `add_timer`. There is no result when a pointer of the list is null, or when the walk does not
end. -/
def addTimer (fuel : ℕ) (n : Node) (s : State) : Option State :=
  let s' := setExpires n (s.expires n + s.jiffies) s
  (s.links.next .head).bind fun first =>
    (findLater s'.links s'.expires (s'.expires n) fuel first).bind fun tmp =>
      (s.links.prev tmp).map fun pr => { s' with links := Links.listAdd n pr tmp s.links }

/-- `__del_timer`. -/
def delTimerCore (n : Node) (s : State) : Option State :=
  (s.links.prev n).bind fun pr => (s.links.next n).map fun nx =>
    let e := s.expires n - s.jiffies
    setExpires n (if e.slt 0 then 0 else e)
      { s with links := Links.unlink n (Links.listDel pr nx s.links) }

def delTimer (n : Node) (s : State) : Option (Bool × State) :=
  if s.links.next n = none then some (false, s)
  else (delTimerCore n s).map fun s' => (true, s')

/-- The timer is set to expire in `j` ticks. -/
def arm (fuel : ℕ) (n : Node) (j : Word) (s : State) : Option State :=
  (addTimer fuel n (setExpires n j s)).map (setArmed n true)

/-- The timer is deleted by its owner. -/
def disarm (n : Node) (s : State) : Option State :=
  (delTimer n s).map fun r => setArmed n false r.2

def getitimer (fuel : ℕ) (p : ℕ) (w : Which) (s : State) : Option (Itimerval × State) :=
  match w with
  | .real =>
      (delTimer (.real p) s).bind fun r =>
        if r.1 then
          (addTimer fuel (.real p) r.2).map fun s' =>
            (⟨jiffiestotv (s.interval p .real).incr, jiffiestotv (r.2.expires (.real p))⟩, s')
        else some (⟨jiffiestotv (s.interval p .real).incr, jiffiestotv 0⟩, r.2)
  | w => some (⟨jiffiestotv (s.interval p w).incr, jiffiestotv (s.interval p w).value⟩, s)

/-- The second half of `_setitimer`. -/
def setTimer (fuel : ℕ) (p : ℕ) (w : Which) (i j : Word) (s : State) : Option State :=
  match w with
  | .real =>
      (disarm (.real p) s).bind fun s' =>
        if j = 0 then some (setInterval p .real ⟨j, i⟩ s')
        else arm fuel (.real p) j (setInterval p .real ⟨j, i⟩ s')
  | w => some (setInterval p w ⟨if j = 0 then j else j + 1, i⟩ s)

/-- `_setitimer`, with the old value if it is asked for. -/
def setitimer (fuel : ℕ) (p : ℕ) (w : Which) (v : Itimerval) (old : Bool) (s : State) :
    Option (Option Itimerval × State) :=
  if old then
    (getitimer fuel p w s).bind fun r =>
      (setTimer fuel p w (tvtojiffies v.interval) (tvtojiffies v.value) r.2).map fun s' =>
        (some r.1, s')
  else
    (setTimer fuel p w (tvtojiffies v.interval) (tvtojiffies v.value) s).map fun s' => (none, s')

/-- `sys_alarm`. -/
def alarm (fuel : ℕ) (p : ℕ) (seconds : Word) (s : State) : Option (Option Itimerval × State) :=
  setitimer fuel p .real ⟨⟨0, 0⟩, ⟨seconds, 0⟩⟩ true s

/-- `schedule_timeout`, up to the call of `schedule`. -/
def scheduleTimeout (fuel : ℕ) (p : ℕ) (timeout : Word) (s : State) : Option State :=
  arm fuel (.sleep p) timeout
    { s with
      links := Links.unlink (.sleep p) s.links
      sleeping := update s.sleeping p true }

/-- `schedule_timeout`, after the call of `schedule`. -/
def wake (p : ℕ) (s : State) : Option State :=
  (disarm (.sleep p) s).map fun s' => { s' with sleeping := update s'.sleeping p false }

/-- `sys_nanosleep`, up to the call of `schedule`. -/
def nanosleep (fuel : ℕ) (p : ℕ) (sec nsec : Word) (s : State) : Option State :=
  if BitVec.sle 1000000000 nsec ∨ nsec.slt 0 ∨ sec.slt 0 then some s
  else scheduleTimeout fuel p
    (timespecToJiffies sec nsec + if sec = 0 ∧ nsec = 0 then 0 else 1) s

def itRealFun (fuel : ℕ) (p : ℕ) (s : State) : Option State :=
  if (s.interval p .real).incr = 0 then some s
  else arm fuel (.real p) (s.interval p .real).incr s

/-- The function of a timer. That of `schedule_timeout` wakes the task. -/
def timerFun (fuel : ℕ) (s : State) : Node → Option State
  | .head => none
  | .real p => itRealFun fuel (s.data p) s
  | .sleep _ => some s

/-- A round of `run_timer_list` that finds an expired timer. -/
def runTimerList (fuel : ℕ) (s : State) : Option State :=
  (s.links.next .head).bind fun n =>
    if n = .head ∨ s.jiffies.slt (s.expires n) then none
    else (delTimerCore n s).bind fun s' => timerFun fuel (setArmed n false s') n

/-- A virtual timer counts down. -/
def countDown (i : Interval) : Interval :=
  if i.value = 0 then i
  else if i.value - 1 = 0 then { i with value := i.incr }
  else { i with value := i.value - 1 }

/-- `irq_PIT`, which interrupts a task other than the idle one. -/
def irqPIT (p : ℕ) (userland : Bool) (s : State) : State :=
  let s' := if userland then setInterval p .virtual (countDown (s.interval p .virtual)) s else s
  { setInterval p .prof (countDown (s.interval p .prof)) s' with jiffies := s.jiffies + 1 }

/-- The part of `do_fork` and `do_clone` about timers. They may fail after the copy. -/
def copyTask (p c : ℕ) (ok : Bool) (s : State) : State :=
  { s with
    links :=
      { next := update s.links.next (.real c) (s.links.next (.real p))
        prev := update s.links.prev (.real c) (s.links.prev (.real p)) }
    expires := update s.expires (.real c) (s.expires (.real p))
    interval := update s.interval c fun _ => ⟨0, 0⟩
    data := update s.data c c
    alive := update s.alive c ok
    zombie := update s.zombie c false
    sleeping := update s.sleeping c false
    armed := update s.armed (.real c) false }

inductive Label
  | fork (p c : ℕ) (ok : Bool)
  | clone (p c : ℕ) (ok : Bool)
  /-- No timer for a number that is none of the three. -/
  | setitimer (p : ℕ) (w : Option Which) (v : Itimerval) (old : Bool)
  | getitimer (p : ℕ) (w : Option Which)
  | alarm (p : ℕ) (seconds : Word)
  | nanosleep (p : ℕ) (sec nsec : Word)
  /-- `schedule` returns to `schedule_timeout`. -/
  | wake (p : ℕ)
  | exit (p : ℕ)
  /-- `sys_waitpid` frees the task. -/
  | reap (p : ℕ)
  /-- The interrupt of the clock. -/
  | tick (p : ℕ) (userland : Bool)
  /-- A round of the bottom half. -/
  | expire

/-- A task that can make a system call. -/
def Running (s : State) (p : ℕ) : Prop :=
  s.alive p = true ∧ s.zombie p = false ∧ s.sleeping p = false

instance (s : State) (p : ℕ) : Decidable (Running s p) := instDecidableAnd

/-- When a step is possible. -/
def Legal (s : State) : Label → Prop
  | .fork p c _ | .clone p c _ => Running s p ∧ s.alive c = false
  | .setitimer p _ _ _ | .getitimer p _ | .alarm p _ | .nanosleep p _ _ | .exit p => Running s p
  | .wake p => s.sleeping p = true
  | .reap p => s.alive p = true ∧ s.zombie p = true
  | .tick _ _ | .expire => True

def exec (fuel : ℕ) (s : State) : Label → Option State
  | .fork p c ok | .clone p c ok => some (copyTask p c ok s)
  | .setitimer _ none _ _ | .getitimer _ none => some s
  | .setitimer p (some w) v old => (setitimer fuel p w v old s).map Prod.snd
  | .getitimer p (some w) => (getitimer fuel p w s).map Prod.snd
  | .alarm p seconds => (alarm fuel p seconds s).map Prod.snd
  | .nanosleep p sec nsec => nanosleep fuel p sec nsec s
  | .wake p => wake p s
  | .exit p => some { s with zombie := update s.zombie p true }
  | .reap p => some { s with alive := update s.alive p false }
  | .tick p userland => some (irqPIT p userland s)
  | .expire => runTimerList fuel s

def Step (s : State) (a : Label) (s' : State) : Prop := Legal s a ∧ ∃ fuel, exec fuel s a = some s'

/-- No timer is armed. -/
structure Initial (s : State) : Prop where
  next : s.links.next .head = some .head
  prev : s.links.prev .head = some .head
  unlinked : ∀ p, s.alive p = true → s.links.next (.real p) = none
  data : ∀ p, s.alive p = true → s.data p = p
  awake : ∀ p, s.sleeping p = false
  armed : ∀ n, s.armed n = false

/-- A task is not copied while its `real_timer` is in the list, and it is not freed then. -/
def Good (s : State) : Label → Prop
  | .fork p _ ok | .clone p _ ok => ok = true → s.links.next (.real p) = none
  | .reap p => s.links.next (.real p) = none
  | _ => True

/-- The task in whose memory a timer is. -/
def owner : Node → Option ℕ
  | .head => none
  | .real p | .sleep p => some p

/-- The list has the armed timers, and they are timers of tasks that exist. -/
structure TimersOk (s : State) : Prop where
  list : ∃ l, s.links.Ring .head l ∧ ∀ n, n ∈ l ↔ s.armed n = true
  alive : ∀ n, s.armed n = true → ∃ p, owner n = some p ∧ s.alive p = true

end Mario.Kernel.Timer
