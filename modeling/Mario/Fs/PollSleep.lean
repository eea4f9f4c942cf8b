import Mario.Fs.Poll
import Mathlib.Algebra.Order.Group.Int

/-!
# A call of `do_poll` and the events

`do_poll` of `fs/poll.c` step by step, with `schedule_timeout` and what `schedule` does to the task. Between any
two steps the files change, queues are woken, signals and ticks of the clock come. The descriptors are looked at
one at a time, and so are the nodes on the wait queues. The queues that a method `poll` gives to `poll_wait` are
fixed; an event of the file wakes one of them, or nobody. Time is in microseconds.
-/

namespace Mario.Fs.PollSleep

open Mario.Lib Mario.Fs.Poll Function

/-- A `long`. -/
abbrev Word := BitVec 32

def hz : Word := 100

/-- The microseconds from one tick to the next. -/
def tickLength : ℕ := 10000

/-- What has woken the task. -/
inductive Cause
  | queue
  | timer
  | signal
  deriving DecidableEq

/-- The `node` of a `struct poll_entry`, with the queue `q`. -/
structure Node where
  q : ℕ
  linked : Bool
  deriving DecidableEq

/-- Where the call is, with its local variables `i`, `n_done` and `ctx.n` or `ctx.max`. -/
inductive Phase
  | start
  | first (i n q : ℕ)
  | second (i n most : ℕ)
  /-- The loop of `in_wait_queue`. -/
  | enqueue (i : ℕ)
  | third (i n : ℕ)
  /-- Before `schedule_timeout`. -/
  | arm
  /-- Before `schedule`. -/
  | schedule
  /-- In `schedule`; asleep as long as the task is not running. -/
  | parked
  /-- After `schedule`. -/
  | back
  | fourth (i n : ℕ)
  /-- The loop of `out_wait_queue`. -/
  | detach (i n : ℕ)
  | done (r : ℤ)
  deriving DecidableEq

/-- The call and what is around it. -/
structure State where
  file : ℕ → Option Bool
  /-- The queues of the file of a descriptor. -/
  queues : ℕ → List ℕ
  timeout : Word
  /-- The time at which the call began. -/
  began : ℕ
  phase : Phase
  fds : List Pollfd
  /-- What the method `poll` of the file of a descriptor answers. -/
  answer : ℕ → Short
  nodes : List Node
  /-- `current->state` is `TASK_RUNNING`, not `TASK_INTERRUPTIBLE`. -/
  running : Bool
  cause : Option Cause
  /-- `expires` of the timer of `schedule_timeout`, while it is in the list. -/
  timer : Option Word
  now : ℕ
  ticks : ℕ
  /-- A signal is pending that is not blocked. -/
  signal : Bool

/-- The steps. -/
inductive Label
  /-- The call goes on; `mem` is the answer of `kmalloc`. -/
  | advance (mem : Bool)
  /-- The file answers this from now on, and wakes one of its queues. -/
  | event (fd : ℕ) (m : Short) (q : ℕ)
  /-- The file answers this from now on, and wakes nobody: somebody has taken an event, the line of a
  terminal is full, its input has been flushed or is not canonical any more, or a slave has been bound. -/
  | change (fd : ℕ) (m : Short)
  /-- Time passes. -/
  | elapse (n : ℕ)
  /-- `irq_PIT`. -/
  | tick
  /-- `run_timer_list`. -/
  | timers
  /-- A signal becomes pending, or the last one is cleared. -/
  | signal (b : Bool)
  /-- `schedule` of another task finds the signal of this one. -/
  | notice

/-- The answers in one pass. No method reports `POLLPRI`. -/
def State.check (s : State) : Check where
  mask fd := s.answer fd &&& ~~~pollpri
  queues fd := (s.queues fd).length
  noPri fd := by
    rw [BitVec.and_assoc, BitVec.and_comm (~~~pollpri) pollpri, BitVec.and_not_self]
    exact BitVec.and_zero

/-- `poll_fds` counts the entry. -/
def ready (s : State) (p : Pollfd) : Bool := (pollFd s.file s.check p).2

/-- The queues that `poll_fds` gives to `poll_wait` for a descriptor. -/
def queuesOf (s : State) (fd : ℤ) : List ℕ :=
  if fd ≠ fdIgnore ∧ fileOf s.file fd = some true then s.queues fd.toNat else []

/-- One round of `poll_fds`. -/
def look (s : State) (i : ℕ) (p : Pollfd) : State :=
  { s with fds := s.fds.set i (pollFd s.file s.check p).1 }

def jiffies (s : State) : Word := BitVec.ofNat 32 s.ticks

/-- The argument of `schedule_timeout`. -/
def timeoutTicks (timeout : Word) : Word := (timeout * hz + 999).sdiv 1000

/-- Return. -/
def finish (r : ℤ) (s : State) : State := { s with phase := .done r }

/-- The call goes on by one step. -/
def advance (mem : Bool) (s : State) : Option State :=
  match s.phase with
  | .start =>
      if 4294967295 / 4 < s.fds.length ∨ !(mem && Kmalloc.served (4 * s.fds.length)) then some (finish enomem s)
      else some { s with phase := .first 0 0 0 }
  | .first i n q =>
      match s.fds[i]? with
      | some p =>
          some { look s i p with
            phase := .first (i + 1) (n + (ready s p).toNat) (q + (queuesOf s p.fd).length) }
      | none =>
          if 4294967295 < q then some (finish enomem s)
          else if 0 < n ∨ s.timeout = 0 ∨ q = 0 then some (finish n s)
          else if 4294967295 / pollEntrySize < q ∨ !(mem && Kmalloc.served (pollEntrySize * q)) then
            some (finish enomem s)
          else some { s with phase := .second 0 0 q }
  | .second i n most =>
      match s.fds[i]? with
      | some p =>
          some { look s i p with
            phase := .second (i + 1) (n + (ready s p).toNat) most
            nodes := s.nodes ++ (queuesOf s p.fd).map fun q => ⟨q, false⟩ }
      | none =>
          if most < s.nodes.length then some (finish enomem s)
          else if 0 < n ∨ s.nodes = [] then some (finish n s)
          else some { s with phase := .enqueue 0, running := false, cause := none }
  | .enqueue i =>
      match s.nodes[i]? with
      | some x => some { s with phase := .enqueue (i + 1), nodes := s.nodes.set i { x with linked := true } }
      | none => some { s with phase := .third 0 0 }
  | .third i n =>
      match s.fds[i]? with
      | some p => some { look s i p with phase := .third (i + 1) (n + (ready s p).toNat) }
      | none =>
          if 0 < n ∨ s.running = true then some { s with phase := .detach 0 n, running := true }
          else if s.timeout.toInt < 0 then some { s with phase := .schedule }
          else some { s with phase := .arm }
  | .arm =>
      -- `schedule_timeout` sets the state again
      some { s with
        phase := .schedule, running := false, cause := none
        timer := some (timeoutTicks s.timeout + jiffies s) }
  | .schedule =>
      if s.running then some { s with phase := .back }
      else if s.signal then some { s with phase := .back, running := true, cause := some .signal }
      else some { s with phase := .parked }
  | .parked => if s.running then some { s with phase := .back } else none
  | .back => some { s with phase := .fourth 0 0, timer := none }
  | .fourth i n =>
      match s.fds[i]? with
      | some p => some { look s i p with phase := .fourth (i + 1) (n + (ready s p).toNat) }
      | none => some { s with phase := .detach 0 n, running := true }
  | .detach i n =>
      match s.nodes[i]? with
      | some x => some { s with phase := .detach (i + 1) n, nodes := s.nodes.set i { x with linked := false } }
      | none => some (finish n s)
  | .done _ => none

/-- `wake_up_process`. -/
def wake (c : Cause) (s : State) : State :=
  if s.running then s else { s with running := true, cause := some c }

/-- A node of the call is on the queue. -/
def Listens (s : State) (q : ℕ) : Prop := ∃ x ∈ s.nodes, x.q = q ∧ x.linked = true

instance (s : State) (q : ℕ) : Decidable (Listens s q) :=
  inferInstanceAs (Decidable (∃ x ∈ s.nodes, x.q = q ∧ x.linked = true))

/-- The file answers this from now on. -/
def setAnswer (fd : ℕ) (m : Short) (s : State) : State :=
  { s with answer := update s.answer fd m }

/-- An event of a file, with `wake_up_interruptible` of the queue. -/
def event (fd : ℕ) (m : Short) (q : ℕ) (s : State) : State :=
  if Listens s q then wake .queue (setAnswer fd m s) else setAnswer fd m s

/-- The call has returned. -/
def Phase.isDone : Phase → Bool
  | .done _ => true
  | _ => false

def exec (s : State) (a : Label) : Option State :=
  if s.phase.isDone then none
  else
    match a with
    | .advance mem => advance mem s
    | .event fd m q => if q ∈ s.queues fd then some (event fd m q s) else none
    | .change fd m => some (setAnswer fd m s)
    | .elapse n => some { s with now := s.now + n }
    | .tick => if (s.ticks + 1) * tickLength ≤ s.now then some { s with ticks := s.ticks + 1 } else none
    | .timers =>
        match s.timer with
        | some expires =>
            if expires.toInt ≤ (jiffies s).toInt then some (wake .timer { s with timer := none }) else none
        | none => none
    | .signal b => some { s with signal := b }
    | .notice =>
        if s.phase = .parked ∧ s.running = false ∧ s.signal = true then some (wake .signal s) else none

/-- A call before its first step. -/
structure Initial (s : State) : Prop where
  phase : s.phase = .start
  nodes : s.nodes = []
  running : s.running = true
  cause : s.cause = none
  timer : s.timer = none
  began : s.began = s.now
  clock : s.ticks * tickLength ≤ s.now

/-- The timeout is over. -/
def TimeUp (s : State) : Prop :=
  0 < s.timeout.toInt ∧ (s.began : ℤ) + 1000 * s.timeout.toInt ≤ s.now

instance (s : State) : Decidable (TimeUp s) := inferInstanceAs (Decidable (_ ∧ _))

/-- The call may return 0 now. -/
def Excused (s : State) : Prop := s.signal = true ∨ TimeUp s

instance (s : State) : Decidable (Excused s) := inferInstanceAs (Decidable (_ ∨ _))

/-- What is right about a call. -/
structure Safe (s : State) : Prop where
  negative : s.phase = .done 0 → s.timeout.toInt < 0 → s.signal = true
  timed : s.phase = .done 0 → 0 < s.timeout.toInt → s.signal = false →
    (s.began : ℤ) + 1000 * s.timeout.toInt ≤ s.now
  /-- It does not sleep while an event is there that it has asked for. -/
  sleeps : s.phase = .parked → s.running = false → ∀ p ∈ s.fds, ready s p = false
  /-- The nodes are freed when the call returns. -/
  freed : ∀ r, s.phase = .done r → ∀ x ∈ s.nodes, x.linked = false

/-! ## The condition -/

/-- The timer does not fire before the timeout is over: `jiffies` and the ticks of the timeout do not wrap around,
and the tick at which the timer fires is late enough. -/
def InTime (s : State) : Prop :=
  (timeoutTicks s.timeout + jiffies s).toInt = (jiffies s).toInt + (timeoutTicks s.timeout).toInt ∧
    (s.began : ℤ) + 1000 * s.timeout.toInt ≤ (s.ticks + (timeoutTicks s.timeout).toInt) * tickLength

instance (s : State) : Decidable (InTime s) := inferInstanceAs (Decidable (_ ∧ _))

/-- The entries that the fourth pass has yet to look at, unless it has found one that is ready. -/
def awaited (s : State) : Option (List Pollfd) :=
  match s.phase with
  | .schedule | .parked | .back => some s.fds
  | .fourth i 0 => some (s.fds.drop i)
  | _ => none

/-- When a queue has woken the call, an event that it has asked for is there until its fourth pass has seen one. -/
def Supplied (s : State) : Prop :=
  s.cause = some .queue → ∀ l, awaited s = some l → ∃ p ∈ l, ready s p = true

instance (s : State) : Decidable (Supplied s) := by
  unfold Supplied
  cases awaited s with
  | none => exact isTrue fun _ l h => by cases h
  | some l =>
    refine decidable_of_iff (s.cause = some .queue → ∃ p ∈ l, ready s p = true) ?_
    simp only [Option.some.injEq, forall_eq']

/-- A step of the call that does what is expected: the first pass has found a queue or an entry that is ready;
nothing but such an entry has woken the call during the third pass; nothing that is still there has woken it
between that pass and `schedule_timeout`; and the timer does not fire too early. -/
def AdvanceGood (s : State) : Prop :=
  match s.phase with
  | .first i n q => s.fds[i]? = none → n = 0 → q = 0 → s.timeout ≠ 0 → Excused s
  | .third i n => s.fds[i]? = none → n = 0 → s.running = true → Excused s
  | .arm => (s.running = true → ∀ p ∈ s.fds, ready s p = false) ∧ InTime s
  | _ => True

instance (s : State) : Decidable (AdvanceGood s) := by
  unfold AdvanceGood
  split <;> infer_instance

/-- The entries that the third pass has looked at, until the call is woken. -/
def watched (s : State) : List Pollfd :=
  match s.phase with
  | .third i 0 => s.fds.take i
  | .arm | .schedule | .parked => s.fds
  | _ => []

/-- An event that wakes nobody is none that the call waits for. -/
def Unseen (fd : ℕ) (m : Short) (s : State) : Prop :=
  s.running = false → ∀ p ∈ watched s, ready (setAnswer fd m s) p = false

instance (fd : ℕ) (m : Short) (s : State) : Decidable (Unseen fd m s) := inferInstanceAs (Decidable (_ → _))

/-- A signal that ends the call is not taken back. -/
def SignalGood (s : State) : Prop :=
  s.cause ≠ some .signal ∧ ∀ i, s.phase = .detach i 0 → TimeUp s

/-- The condition on the steps. -/
def Good (s : State) : Label → Prop
  | .advance _ => AdvanceGood s
  | .event fd m q => Supplied (event fd m q s)
  | .change fd m => Supplied (setAnswer fd m s) ∧ Unseen fd m s
  | .signal b => s.signal = true → b = false → SignalGood s
  | _ => True

/-! ## The invariant -/

/-- The queues of the first entries. -/
def seenQueues (s : State) (i : ℕ) : List ℕ := ((s.fds.map Pollfd.fd).take i).flatMap (queuesOf s)

/-- The queues of all entries. -/
def allQueues (s : State) : List ℕ := (s.fds.map Pollfd.fd).flatMap (queuesOf s)

/-- Every queue has its node. -/
structure Registered (s : State) : Prop where
  queues : s.nodes.map Node.q = allQueues s
  linked : ∀ x ∈ s.nodes, x.linked = true

/-- None of the entries is ready, unless something has woken the call. -/
def Quiet (s : State) (l : List Pollfd) : Prop := s.running = false → ∀ p ∈ l, ready s p = false

/-- The task is running because something has woken it. -/
def Awake (s : State) : Prop := s.running = false ↔ s.cause = none

/-- What is right in each phase. -/
def PhaseOk (s : State) : Prop :=
  match s.phase with
  | .start => s.nodes = []
  | .first i _ q => s.nodes = [] ∧ q = (seenQueues s i).length
  | .second i _ most =>
      s.timeout ≠ 0 ∧ s.nodes.map Node.q = seenQueues s i ∧ (∀ x ∈ s.nodes, x.linked = false) ∧
        most = (allQueues s).length ∧ 0 < most
  | .enqueue i =>
      s.timeout ≠ 0 ∧ s.nodes.map Node.q = allQueues s ∧ (∀ x ∈ s.nodes.take i, x.linked = true) ∧ Awake s
  | .third i n => s.timeout ≠ 0 ∧ Registered s ∧ Awake s ∧ (n = 0 → Quiet s (s.fds.take i))
  | .arm => 0 < s.timeout.toInt ∧ Registered s ∧ Awake s ∧ Quiet s s.fds
  | .schedule | .parked => Registered s ∧ Awake s ∧ Quiet s s.fds
  | .back | .fourth _ _ => s.running = true ∧ s.cause ≠ none
  | .detach i n => (∀ x ∈ s.nodes.take i, x.linked = false) ∧ (n = 0 → Excused s)
  | .done r => (∀ x ∈ s.nodes, x.linked = false) ∧ (r = 0 → s.timeout = 0 ∨ Excused s)

/-- The timer does not fire before the timeout is over. -/
def TimerOk (s : State) : Prop :=
  ∀ expires, s.timer = some expires → 0 < s.timeout.toInt ∧
    ∃ t ≤ s.ticks, expires.toInt = (BitVec.ofNat 32 t).toInt + (timeoutTicks s.timeout).toInt ∧
      (s.began : ℤ) + 1000 * s.timeout.toInt ≤ (t + (timeoutTicks s.timeout).toInt) * tickLength

/-- What is right about a call between its steps. -/
structure Inv (s : State) : Prop where
  clock : s.ticks * tickLength ≤ s.now
  phase : PhaseOk s
  timer : TimerOk s
  timerCause : s.cause = some .timer → TimeUp s
  signalCause : s.cause = some .signal → s.signal = true
  supplied : Supplied s

variable {s s' : State}

/-! ### The passes -/

theorem ready_pollFd (s : State) (p : Pollfd) : ready s (pollFd s.file s.check p).1 = ready s p := by
  unfold ready
  rw [pollFd_pollFd]

theorem queuesOf_look (s : State) (i : ℕ) (p : Pollfd) : queuesOf (look s i p) = queuesOf s := rfl

theorem fds_look {i : ℕ} {p : Pollfd} (hp : s.fds[i]? = some p) :
    (look s i p).fds.map Pollfd.fd = s.fds.map Pollfd.fd := by
  have hfd : (pollFd s.file s.check p).1.fd = p.fd := pollFd_fd s.check p
  have hi : (s.fds.map Pollfd.fd)[i]? = some p.fd := by rw [List.getElem?_map, hp, Option.map_some]
  obtain ⟨hlt, hget⟩ := List.getElem?_eq_some_iff.mp hi
  unfold look
  rw [List.map_set, hfd, ← hget, List.set_getElem_self]

theorem allQueues_look {i : ℕ} {p : Pollfd} (hp : s.fds[i]? = some p) : allQueues (look s i p) = allQueues s := by
  unfold allQueues
  rw [fds_look hp, queuesOf_look]

theorem seenQueues_look {i j : ℕ} {p : Pollfd} (hp : s.fds[i]? = some p) :
    seenQueues (look s i p) j = seenQueues s j := by
  unfold seenQueues
  rw [fds_look hp, queuesOf_look]

theorem seenQueues_succ {i : ℕ} {p : Pollfd} (hp : s.fds[i]? = some p) :
    seenQueues s (i + 1) = seenQueues s i ++ queuesOf s p.fd := by
  have hi : (s.fds.map Pollfd.fd)[i]? = some p.fd := by rw [List.getElem?_map, hp, Option.map_some]
  unfold seenQueues
  rw [List.take_add_one, hi, Option.toList_some, List.flatMap_append, List.flatMap_singleton]

theorem seenQueues_end {i : ℕ} (hp : s.fds[i]? = none) : seenQueues s i = allQueues s := by
  have hi : (s.fds.map Pollfd.fd).length ≤ i := by
    rw [List.length_map]
    exact List.getElem?_eq_none_iff.mp hp
  unfold seenQueues allQueues
  rw [List.take_of_length_le hi]

/-- A pass that has found nothing so far finds nothing in one more entry that is not ready. -/
theorem quiet_look {i n : ℕ} {p : Pollfd} (hp : s.fds[i]? = some p) (hn : n + (ready s p).toNat = 0)
    (hquiet : n = 0 → Quiet s (s.fds.take i)) : Quiet (look s i p) ((look s i p).fds.take (i + 1)) := by
  intro hrunning x hx
  have hlt : i < s.fds.length := (List.getElem?_eq_some_iff.mp hp).1
  have hready : ready s p = false := by
    cases h : ready s p with
    | false => rfl
    | true =>
      rw [h] at hn
      simp at hn
  rw [List.take_add_one] at hx
  rcases List.mem_append.mp hx with hmem | hmem
  · unfold look at hmem
    rw [List.take_set_of_le (Nat.le_refl i)] at hmem
    exact hquiet (by omega) hrunning x hmem
  · unfold look at hmem
    rw [List.getElem?_set_self hlt, Option.toList_some, List.mem_singleton] at hmem
    rw [hmem]
    exact (ready_pollFd s p).trans hready

/-- The fourth pass goes on to an entry that is ready, or finds one now. -/
theorem awaited_look {i n : ℕ} {p : Pollfd} (hp : s.fds[i]? = some p) (hn : n + (ready s p).toNat = 0)
    (h : ∃ x ∈ s.fds.drop i, ready s x = true) : ∃ x ∈ (look s i p).fds.drop (i + 1), ready (look s i p) x = true := by
  obtain ⟨hlt, hget⟩ := List.getElem?_eq_some_iff.mp hp
  obtain ⟨x, hx, hready⟩ := h
  have hdrop : s.fds.drop i = p :: s.fds.drop (i + 1) := by rw [← hget, List.drop_eq_getElem_cons hlt]
  rw [hdrop, List.mem_cons] at hx
  rcases hx with rfl | hx
  · rw [hready] at hn
    simp at hn
  · refine ⟨x, ?_, hready⟩
    unfold look
    rw [List.drop_set, if_pos (by omega)]
    exact hx

/-! ### What is around the call -/

/-- The entry asks the file of the descriptor. -/
def Polls (s : State) (p : Pollfd) (fd : ℕ) : Prop :=
  p.fd ≠ fdIgnore ∧ fileOf s.file p.fd = some true ∧ p.fd.toNat = fd

theorem ready_of_not_polls {p : Pollfd} (h : ∀ fd, ¬ Polls s p fd) (answer : ℕ → Short) :
    ready { s with answer := answer } p = ready s p := by
  unfold ready pollFd
  by_cases hignore : p.fd = fdIgnore
  · rw [if_pos hignore, if_pos hignore]
  · rw [if_neg hignore, if_neg hignore]
    dsimp only
    rcases hfile : fileOf s.file p.fd with - | poll
    · rfl
    · cases poll with
      | false => rfl
      | true => exact absurd ⟨hignore, hfile, rfl⟩ (h p.fd.toNat)

theorem ready_of_polls {p : Pollfd} {fd : ℕ} (h : Polls s p fd) :
    ready s p = decide ((p.events ||| pollerr ||| pollhup) &&& (s.answer fd &&& ~~~pollpri) ≠ 0) := by
  unfold ready pollFd
  rw [if_neg h.1, h.2.1, ← h.2.2]
  rfl

theorem ready_setAnswer {p : Pollfd} {fd : ℕ} (m : Short) (h : ¬ Polls s p fd) :
    ready (setAnswer fd m s) p = ready s p := by
  by_cases hpolls : ∃ fd', Polls s p fd'
  · obtain ⟨fd', hfd'⟩ := hpolls
    have hne : fd' ≠ fd := by
      rintro rfl
      exact h hfd'
    have hfd'' : Polls (setAnswer fd m s) p fd' := hfd'
    rw [ready_of_polls hfd', ready_of_polls hfd'']
    simp only [setAnswer, update_of_ne hne]
  · exact ready_of_not_polls (fun fd' hfd' => hpolls ⟨fd', hfd'⟩) _

theorem Registered.listens {p : Pollfd} {fd q : ℕ} (h : Registered s) (hp : p ∈ s.fds) (hpolls : Polls s p fd)
    (hq : q ∈ s.queues fd) : Listens s q := by
  have hmem : q ∈ allQueues s := by
    refine List.mem_flatMap.mpr ⟨p.fd, List.mem_map_of_mem hp, ?_⟩
    unfold queuesOf
    rw [if_pos ⟨hpolls.1, hpolls.2.1⟩, hpolls.2.2]
    exact hq
  rw [← h.queues] at hmem
  obtain ⟨x, hx, hxq⟩ := List.mem_map.mp hmem
  exact ⟨x, hx, hxq, h.linked x hx⟩

/-- A step of something else than the call. -/
structure Around (s s' : State) : Prop where
  phase : s'.phase = s.phase
  fds : s'.fds = s.fds
  nodes : s'.nodes = s.nodes
  timeout : s'.timeout = s.timeout
  queues : queuesOf s' = queuesOf s
  awake : Awake s → Awake s'
  running : s.running = true → s'.running = true
  cause : s.cause ≠ none → s'.cause ≠ none
  quiet : Registered s → ∀ l, l ⊆ watched s → Quiet s l → Quiet s' l
  excused : ∀ i, s.phase = .detach i 0 → Excused s → Excused s'

theorem Around.seenQueues (h : Around s s') (i : ℕ) : seenQueues s' i = seenQueues s i := by
  unfold PollSleep.seenQueues
  rw [h.fds, h.queues]

theorem Around.allQueues (h : Around s s') : allQueues s' = allQueues s := by
  unfold PollSleep.allQueues
  rw [h.fds, h.queues]

theorem Around.registered (h : Around s s') (hreg : Registered s) : Registered s' where
  queues := by rw [h.nodes, h.allQueues, hreg.queues]
  linked := by
    rw [h.nodes]
    exact hreg.linked

theorem PhaseOk.around (hok : PhaseOk s) (hdone : s.phase.isDone = false) (h : Around s s') : PhaseOk s' := by
  unfold PhaseOk at hok ⊢
  rw [h.phase]
  cases hphase : s.phase with
  | start =>
    rw [hphase] at hok
    exact h.nodes.trans hok
  | first i n q =>
    rw [hphase] at hok
    exact ⟨h.nodes.trans hok.1, hok.2.trans (congrArg List.length (h.seenQueues i)).symm⟩
  | second i n most =>
    rw [hphase] at hok
    dsimp only at hok ⊢
    rw [h.timeout, h.nodes, h.seenQueues, h.allQueues]
    exact hok
  | enqueue i =>
    rw [hphase] at hok
    dsimp only at hok ⊢
    rw [h.timeout, h.nodes, h.allQueues]
    exact ⟨hok.1, hok.2.1, hok.2.2.1, h.awake hok.2.2.2⟩
  | third i n =>
    rw [hphase] at hok
    obtain ⟨htimeout, hreg, hawake, hquiet⟩ := hok
    refine ⟨by rw [h.timeout]; exact htimeout, h.registered hreg, h.awake hawake, fun hn => ?_⟩
    rw [h.fds]
    refine h.quiet hreg _ ?_ (hquiet hn)
    rw [watched, hphase, hn]
    exact List.Subset.refl _
  | arm =>
    rw [hphase] at hok
    obtain ⟨htimeout, hreg, hawake, hquiet⟩ := hok
    refine ⟨by rw [h.timeout]; exact htimeout, h.registered hreg, h.awake hawake, ?_⟩
    rw [h.fds]
    refine h.quiet hreg _ ?_ hquiet
    rw [watched, hphase]
    exact List.Subset.refl _
  | schedule =>
    rw [hphase] at hok
    obtain ⟨hreg, hawake, hquiet⟩ := hok
    refine ⟨h.registered hreg, h.awake hawake, ?_⟩
    rw [h.fds]
    refine h.quiet hreg _ ?_ hquiet
    rw [watched, hphase]
    exact List.Subset.refl _
  | parked =>
    rw [hphase] at hok
    obtain ⟨hreg, hawake, hquiet⟩ := hok
    refine ⟨h.registered hreg, h.awake hawake, ?_⟩
    rw [h.fds]
    refine h.quiet hreg _ ?_ hquiet
    rw [watched, hphase]
    exact List.Subset.refl _
  | back =>
    rw [hphase] at hok
    exact ⟨h.running hok.1, h.cause hok.2⟩
  | fourth i n =>
    rw [hphase] at hok
    exact ⟨h.running hok.1, h.cause hok.2⟩
  | detach i n =>
    rw [hphase] at hok
    refine ⟨by rw [h.nodes]; exact hok.1, fun hn => ?_⟩
    subst hn
    exact h.excused i hphase (hok.2 rfl)
  | done r =>
    rw [hphase] at hdone
    cases hdone

@[simp] theorem wake_of_running {c : Cause} (h : s.running = true) : wake c s = s := if_pos h

@[simp] theorem wake_of_not_running {c : Cause} (h : s.running = false) :
    wake c s = { s with running := true, cause := some c } := by
  unfold wake
  rw [h]
  rfl

theorem around_awake {t : State} (hphase : t.phase = s.phase) (hfds : t.fds = s.fds) (hnodes : t.nodes = s.nodes)
    (htimeout : t.timeout = s.timeout) (hqueues : queuesOf t = queuesOf s) (hrunning : t.running = true)
    (hcause : t.cause ≠ none) (hexc : Excused s → Excused t) : Around s t where
  phase := hphase
  fds := hfds
  nodes := hnodes
  timeout := htimeout
  queues := hqueues
  awake _ := by
    unfold Awake
    rw [hrunning]
    exact ⟨fun h => (by cases h), fun h => absurd h hcause⟩
  running _ := hrunning
  cause _ := hcause
  quiet _ _ _ _ h := by
    rw [hrunning] at h
    cases h
  excused _ _ := hexc

theorem around_wake (s : State) (c : Cause) : Around s (wake c s) := by
  cases hrunning : s.running with
  | true =>
    rw [wake_of_running hrunning]
    exact ⟨rfl, rfl, rfl, rfl, rfl, id, id, id, fun _ _ _ => id, fun _ _ => id⟩
  | false =>
    rw [wake_of_not_running hrunning]
    exact around_awake rfl rfl rfl rfl rfl rfl (fun h => by cases h) id

theorem around_change {fd : ℕ} {m : Short} (hunseen : Unseen fd m s) : Around s (setAnswer fd m s) where
  phase := rfl
  fds := rfl
  nodes := rfl
  timeout := rfl
  queues := rfl
  awake := id
  running := id
  cause := id
  quiet _ _ hl _ hrunning p hp := hunseen hrunning p (hl hp)
  excused _ _ := id

theorem watched_subset (s : State) : watched s ⊆ s.fds := by
  unfold watched
  split
  · exact List.take_subset _ _
  · exact List.Subset.refl _
  · exact List.Subset.refl _
  · exact List.Subset.refl _
  · exact List.nil_subset _

theorem around_event {fd q : ℕ} (m : Short) (hq : q ∈ s.queues fd) : Around s (event fd m q s) := by
  unfold event
  split_ifs with hlistens
  · cases hrunning : s.running with
    | true =>
      have hrunning' : (setAnswer fd m s).running = true := hrunning
      rw [wake_of_running hrunning']
      refine ⟨rfl, rfl, rfl, rfl, rfl, id, id, id, fun _ _ _ _ hno => ?_, fun _ _ => id⟩
      rw [hrunning'] at hno
      cases hno
    | false =>
      have hrunning' : (setAnswer fd m s).running = false := hrunning
      rw [wake_of_not_running hrunning']
      exact around_awake rfl rfl rfl rfl rfl rfl (fun h => by cases h) id
  · refine ⟨rfl, rfl, rfl, rfl, rfl, id, id, id, fun hreg l hl hquiet hrunning p hp => ?_, fun _ _ => id⟩
    rw [ready_setAnswer m fun hpolls => hlistens (hreg.listens (watched_subset s (hl hp)) hpolls hq)]
    exact hquiet hrunning p hp

/-! ### The timer -/

theorem toInt_ofNat_add_le (t k : ℕ) : (BitVec.ofNat 32 (t + k)).toInt ≤ (BitVec.ofNat 32 t).toInt + k := by
  rw [BitVec.toInt_ofNat', BitVec.toInt_ofNat']
  simp only [Int.bmod]
  split_ifs <;> omega

theorem timeUp_of_fired {expires : Word} (hclock : s.ticks * tickLength ≤ s.now) (htimer : TimerOk s)
    (hset : s.timer = some expires) (hfire : expires.toInt ≤ (jiffies s).toInt) : TimeUp s := by
  obtain ⟨hpos, t, ht, hexpires, hdue⟩ := htimer expires hset
  refine ⟨hpos, ?_⟩
  have hle := toInt_ofNat_add_le t (s.ticks - t)
  rw [Nat.add_sub_cancel' ht] at hle
  unfold jiffies at hfire
  have hticks : (timeoutTicks s.timeout).toInt ≤ s.ticks - t := by omega
  have hclock' : (s.ticks : ℤ) * tickLength ≤ s.now := by exact_mod_cast hclock
  have hmul : ((t : ℤ) + (timeoutTicks s.timeout).toInt) * tickLength ≤ s.ticks * tickLength := by
    unfold tickLength
    omega
  omega

/-! ### The steps -/

theorem Inv.elapse (h : Inv s) (hdone : s.phase.isDone = false) (n : ℕ) : Inv { s with now := s.now + n } where
  clock := h.clock.trans (Nat.le_add_right s.now n)
  phase := by
    refine h.phase.around hdone ⟨rfl, rfl, rfl, rfl, rfl, id, id, id, fun _ _ _ => id, fun _ _ hexc => ?_⟩
    refine hexc.imp id fun hup => ⟨hup.1, ?_⟩
    have := hup.2
    simp only at this ⊢
    omega
  timer := h.timer
  timerCause hcause := by
    obtain ⟨hpos, hle⟩ := h.timerCause hcause
    refine ⟨hpos, ?_⟩
    simp only at hle ⊢
    omega
  signalCause := h.signalCause
  supplied := h.supplied

theorem Inv.tick (h : Inv s) (hdone : s.phase.isDone = false) (hdue : (s.ticks + 1) * tickLength ≤ s.now) :
    Inv { s with ticks := s.ticks + 1 } where
  clock := hdue
  phase := h.phase.around hdone ⟨rfl, rfl, rfl, rfl, rfl, id, id, id, fun _ _ _ => id, fun _ _ => id⟩
  timer expires hset := by
    obtain ⟨hpos, t, ht, hrest⟩ := h.timer expires hset
    exact ⟨hpos, t, ht.trans (Nat.le_succ s.ticks), hrest⟩
  timerCause := h.timerCause
  signalCause := h.signalCause
  supplied := h.supplied

theorem Inv.wake (h : Inv s) (hdone : s.phase.isDone = false) {c : Cause} (hqueue : c ≠ .queue)
    (htimer : c = .timer → TimeUp s) (hsignal : c = .signal → s.signal = true) : Inv (wake c s) := by
  cases hrunning : s.running with
  | true =>
    rw [wake_of_running hrunning]
    exact h
  | false =>
    have haround := around_wake s c
    rw [wake_of_not_running hrunning] at haround ⊢
    exact
      { clock := h.clock
        phase := h.phase.around hdone haround
        timer := h.timer
        timerCause := fun hcause => htimer (Option.some.inj hcause)
        signalCause := fun hcause => hsignal (Option.some.inj hcause)
        supplied := fun hcause => absurd (Option.some.inj hcause) hqueue }

theorem Inv.timers (h : Inv s) (hdone : s.phase.isDone = false) {expires : Word} (hset : s.timer = some expires)
    (hfire : expires.toInt ≤ (jiffies s).toInt) : Inv (PollSleep.wake .timer { s with timer := none }) := by
  have hup := timeUp_of_fired h.clock h.timer hset hfire
  have hnone : Inv { s with timer := none } :=
    { clock := h.clock
      phase := h.phase.around hdone ⟨rfl, rfl, rfl, rfl, rfl, id, id, id, fun _ _ _ => id, fun _ _ => id⟩
      timer := fun expires' h' => by cases h'
      timerCause := h.timerCause
      signalCause := h.signalCause
      supplied := h.supplied }
  exact hnone.wake hdone (fun heq => by cases heq) (fun _ => hup) fun heq => by cases heq

theorem Inv.signal (h : Inv s) (hdone : s.phase.isDone = false) {b : Bool}
    (hgood : s.signal = true → b = false → SignalGood s) : Inv { s with signal := b } where
  clock := h.clock
  phase := by
    refine h.phase.around hdone ⟨rfl, rfl, rfl, rfl, rfl, id, id, id, fun _ _ _ => id, fun i hi hexc => ?_⟩
    cases b with
    | true => exact Or.inl rfl
    | false =>
      refine Or.inr (hexc.elim (fun hsignal => ?_) id)
      exact (hgood hsignal rfl).2 i hi
  timer := h.timer
  timerCause := h.timerCause
  signalCause hcause := by
    cases b with
    | true => rfl
    | false => exact absurd hcause (hgood (h.signalCause hcause) rfl).1
  supplied := h.supplied

theorem Inv.change (h : Inv s) (hdone : s.phase.isDone = false) {fd : ℕ} {m : Short}
    (hgood : Supplied (setAnswer fd m s) ∧ Unseen fd m s) : Inv (setAnswer fd m s) where
  clock := h.clock
  phase := h.phase.around hdone (around_change hgood.2)
  timer := h.timer
  timerCause := h.timerCause
  signalCause := h.signalCause
  supplied := hgood.1

theorem event_cases (fd : ℕ) (m : Short) (q : ℕ) (s : State) :
    event fd m q s = setAnswer fd m s ∨
      event fd m q s = { setAnswer fd m s with running := true, cause := some .queue } := by
  unfold event
  split_ifs
  · cases hrunning : s.running with
    | true => exact Or.inl (wake_of_running hrunning)
    | false => exact Or.inr (wake_of_not_running hrunning)
  · exact Or.inl rfl

theorem Inv.event (h : Inv s) (hdone : s.phase.isDone = false) {fd q : ℕ} {m : Short} (hq : q ∈ s.queues fd)
    (hgood : Supplied (event fd m q s)) : Inv (PollSleep.event fd m q s) := by
  have hphase := h.phase.around hdone (around_event m hq)
  rcases event_cases fd m q s with heq | heq
  · rw [heq] at hphase hgood ⊢
    exact ⟨h.clock, hphase, h.timer, h.timerCause, h.signalCause, hgood⟩
  · rw [heq] at hphase hgood ⊢
    exact ⟨h.clock, hphase, h.timer, fun hcause => (by cases hcause), fun hcause => (by cases hcause), hgood⟩

variable {mem : Bool}

/-- The call returns without nodes on queues, and not 0 unless it may. -/
theorem Inv.finish (h : Inv s) {r : ℤ} (hfree : ∀ x ∈ s.nodes, x.linked = false)
    (hexc : r = 0 → s.timeout = 0 ∨ Excused s) : Inv (finish r s) where
  clock := h.clock
  phase := ⟨hfree, hexc⟩
  timer := h.timer
  timerCause := h.timerCause
  signalCause := h.signalCause
  supplied _ _ hl := by cases hl

theorem Inv.start (h : Inv s) (hphase : s.phase = .start) (hstep : advance mem s = some s') : Inv s' := by
  have hok := h.phase
  unfold PhaseOk at hok
  unfold advance at hstep
  rw [hphase] at hok hstep
  dsimp only at hok hstep
  split_ifs at hstep
  · cases hstep
    refine h.finish (fun x hx => ?_) fun hr => (by cases hr)
    rw [hok] at hx
    cases hx
  · cases hstep
    exact ⟨h.clock, ⟨hok, rfl⟩, h.timer, h.timerCause, h.signalCause, fun _ _ hl => (by cases hl)⟩

theorem Inv.first {i n q : ℕ} (h : Inv s) (hphase : s.phase = .first i n q)
    (hgood : s.fds[i]? = none → n = 0 → q = 0 → s.timeout ≠ 0 → Excused s)
    (hstep : PollSleep.advance mem s = some s') : Inv s' := by
  have hok := h.phase
  unfold PhaseOk at hok
  unfold advance at hstep
  rw [hphase] at hok hstep
  dsimp only at hok hstep
  obtain ⟨hnodes, hq⟩ := hok
  have hfree : ∀ x ∈ s.nodes, x.linked = false := by
    rw [hnodes]
    exact fun x hx => by cases hx
  cases hp : s.fds[i]? with
  | some p =>
    rw [hp] at hstep
    cases hstep
    refine ⟨h.clock, ⟨hnodes, ?_⟩, h.timer, h.timerCause, h.signalCause, fun _ _ hl => (by cases hl)⟩
    rw [hq, ← List.length_append, ← seenQueues_succ hp, ← seenQueues_look hp]
    rfl
  | none =>
    rw [hp] at hstep
    dsimp only at hstep
    split_ifs at hstep with hlarge hfound hmem
    · cases hstep
      exact h.finish hfree fun hr => (by cases hr)
    · cases hstep
      refine h.finish hfree fun hr => ?_
      by_cases htimeout : s.timeout = 0
      · exact Or.inl htimeout
      · have hn : n = 0 := by omega
        have hq : q = 0 := (hfound.resolve_left (by omega)).resolve_left htimeout
        exact Or.inr (hgood hp hn hq htimeout)
    · cases hstep
      exact h.finish hfree fun hr => (by cases hr)
    · cases hstep
      obtain ⟨-, htimeout, hsome⟩ : ¬ 0 < n ∧ ¬ s.timeout = 0 ∧ ¬ q = 0 := by
        simpa only [not_or] using hfound
      refine ⟨h.clock, ⟨htimeout, by rw [hnodes]; rfl, hfree, ?_, by omega⟩, h.timer, h.timerCause, h.signalCause,
        fun _ _ hl => (by cases hl)⟩
      rw [hq, seenQueues_end hp]
      rfl

theorem Inv.second {i n most : ℕ} (h : Inv s) (hphase : s.phase = .second i n most)
    (hstep : PollSleep.advance mem s = some s') : Inv s' := by
  have hok := h.phase
  unfold PhaseOk at hok
  unfold advance at hstep
  rw [hphase] at hok hstep
  dsimp only at hok hstep
  obtain ⟨htimeout, hqueues, hfree, hmost, hpos⟩ := hok
  cases hp : s.fds[i]? with
  | some p =>
    rw [hp] at hstep
    cases hstep
    refine ⟨h.clock, ⟨htimeout, ?_, fun x hx => ?_, ?_, hpos⟩, h.timer, h.timerCause, h.signalCause,
      fun _ _ hl => (by cases hl)⟩
    · have hseen := (seenQueues_look hp).trans (seenQueues_succ hp)
      have hnew : ((queuesOf s p.fd).map fun q => (⟨q, false⟩ : Node)).map Node.q = queuesOf s p.fd := by
        rw [List.map_map]
        exact List.map_id _
      rw [List.map_append, hnew, hqueues]
      exact hseen.symm
    · rcases List.mem_append.mp hx with hx | hx
      · exact hfree x hx
      · obtain ⟨q, -, rfl⟩ := List.mem_map.mp hx
        rfl
    · rw [hmost, ← allQueues_look hp]
      rfl
  | none =>
    rw [hp] at hstep
    dsimp only at hstep
    split_ifs at hstep with hlarge hfound
    · cases hstep
      exact h.finish hfree fun hr => (by cases hr)
    · cases hstep
      refine h.finish hfree fun hr => ?_
      have hnodes : s.nodes = [] := hfound.resolve_left (by omega)
      rw [hnodes, seenQueues_end hp] at hqueues
      rw [hmost, ← hqueues] at hpos
      cases hpos
    · cases hstep
      refine ⟨h.clock, ⟨htimeout, ?_, fun x hx => (by cases hx), Iff.intro (fun _ => rfl) fun _ => rfl⟩, h.timer,
        fun hcause => (by cases hcause), fun hcause => (by cases hcause), fun _ _ hl => (by cases hl)⟩
      rw [hqueues, seenQueues_end hp]
      rfl

theorem take_set_linked {l : List Node} {i : ℕ} {x : Node} {b : Bool} (hx : l[i]? = some x)
    (h : ∀ y ∈ l.take i, y.linked = b) : ∀ y ∈ (l.set i { x with linked := b }).take (i + 1), y.linked = b := by
  have hlt : i < l.length := (List.getElem?_eq_some_iff.mp hx).1
  intro y hy
  rw [List.take_add_one, List.take_set_of_le (Nat.le_refl i), List.getElem?_set_self hlt] at hy
  rcases List.mem_append.mp hy with hy | hy
  · exact h y hy
  · rw [Option.toList_some, List.mem_singleton] at hy
    rw [hy]

theorem map_set_linked {l : List Node} {i : ℕ} {x : Node} (b : Bool) (hx : l[i]? = some x) :
    (l.set i { x with linked := b }).map Node.q = l.map Node.q := by
  have hi : (l.map Node.q)[i]? = some x.q := by rw [List.getElem?_map, hx, Option.map_some]
  obtain ⟨hlt, hget⟩ := List.getElem?_eq_some_iff.mp hi
  rw [List.map_set, ← hget, List.set_getElem_self]

theorem Inv.enqueue {i : ℕ} (h : Inv s) (hphase : s.phase = .enqueue i)
    (hstep : PollSleep.advance mem s = some s') : Inv s' := by
  have hok := h.phase
  unfold PhaseOk at hok
  unfold advance at hstep
  rw [hphase] at hok hstep
  dsimp only at hok hstep
  obtain ⟨htimeout, hqueues, hlinked, hawake⟩ := hok
  cases hx : s.nodes[i]? with
  | some x =>
    rw [hx] at hstep
    cases hstep
    refine ⟨h.clock, ⟨htimeout, ?_, take_set_linked hx hlinked, hawake⟩, h.timer, h.timerCause, h.signalCause,
      fun _ _ hl => (by cases hl)⟩
    exact (map_set_linked true hx).trans hqueues
  | none =>
    rw [hx] at hstep
    cases hstep
    rw [List.take_of_length_le (List.getElem?_eq_none_iff.mp hx)] at hlinked
    exact ⟨h.clock, ⟨htimeout, ⟨hqueues, hlinked⟩, hawake, fun _ _ _ hy => (by cases hy)⟩, h.timer, h.timerCause,
      h.signalCause, fun _ _ hl => (by cases hl)⟩

theorem Registered.look {i : ℕ} {p : Pollfd} (h : Registered s) (hp : s.fds[i]? = some p) :
    Registered (look s i p) where
  queues := h.queues.trans (allQueues_look hp).symm
  linked := h.linked

theorem Inv.third {i n : ℕ} (h : Inv s) (hphase : s.phase = .third i n)
    (hgood : s.fds[i]? = none → n = 0 → s.running = true → Excused s)
    (hstep : PollSleep.advance mem s = some s') : Inv s' := by
  have hok := h.phase
  unfold PhaseOk at hok
  unfold advance at hstep
  rw [hphase] at hok hstep
  dsimp only at hok hstep
  obtain ⟨htimeout, hreg, hawake, hquiet⟩ := hok
  cases hp : s.fds[i]? with
  | some p =>
    rw [hp] at hstep
    cases hstep
    obtain ⟨hqueues, hlinked⟩ := hreg.look hp
    exact ⟨h.clock, ⟨htimeout, ⟨hqueues, hlinked⟩, hawake, fun hn => quiet_look hp hn hquiet⟩, h.timer,
      h.timerCause, h.signalCause, fun _ _ hl => (by cases hl)⟩
  | none =>
    rw [hp] at hstep
    dsimp only at hstep
    have hall : s.fds.take i = s.fds := List.take_of_length_le (List.getElem?_eq_none_iff.mp hp)
    rw [hall] at hquiet
    split_ifs at hstep with hfound hnegative
    · cases hstep
      refine ⟨h.clock, ⟨fun x hx => (by cases hx), fun hn => ?_⟩, h.timer, h.timerCause, h.signalCause,
        fun _ _ hl => (by cases hl)⟩
      exact hgood hp hn (hfound.resolve_left (by omega))
    · cases hstep
      have hn : n = 0 := by omega
      have hsleeps : s.running = false := by simpa [hn] using hfound
      refine ⟨h.clock, ⟨⟨hreg.queues, hreg.linked⟩, hawake, hquiet hn⟩, h.timer, h.timerCause, h.signalCause,
        fun hcause => ?_⟩
      have hnone : s.cause = none := hawake.mp hsleeps
      exact absurd (hnone.symm.trans hcause) (fun heq => by cases heq)
    · cases hstep
      have hn : n = 0 := by omega
      have hpositive : 0 < s.timeout.toInt := by
        have hne : s.timeout.toInt ≠ 0 := fun hzero => htimeout (BitVec.toInt_inj.mp hzero)
        omega
      exact ⟨h.clock, ⟨hpositive, ⟨hreg.queues, hreg.linked⟩, hawake, hquiet hn⟩, h.timer, h.timerCause,
        h.signalCause, fun _ _ hl => (by cases hl)⟩

theorem Inv.arm (h : Inv s) (hphase : s.phase = .arm)
    (hgood : (s.running = true → ∀ p ∈ s.fds, ready s p = false) ∧ InTime s)
    (hstep : PollSleep.advance mem s = some s') : Inv s' := by
  have hok := h.phase
  unfold PhaseOk at hok
  unfold advance at hstep
  rw [hphase] at hok hstep
  dsimp only at hok hstep
  obtain ⟨hpos, hreg, -, hquiet⟩ := hok
  obtain ⟨hnotReady, hsum, hdue⟩ := hgood
  cases hstep
  have hnone : ∀ p ∈ s.fds, ready s p = false := by
    cases hrunning : s.running with
    | true => exact hnotReady hrunning
    | false => exact hquiet hrunning
  refine ⟨h.clock, ⟨⟨hreg.queues, hreg.linked⟩, Iff.intro (fun _ => rfl) fun _ => rfl, fun _ => hnone⟩, ?_,
    fun hcause => (by cases hcause), fun hcause => (by cases hcause), fun hcause => (by cases hcause)⟩
  intro expires hset
  cases hset
  exact ⟨hpos, s.ticks, Nat.le_refl _, hsum, hdue⟩

theorem Inv.schedule (h : Inv s) (hphase : s.phase = .schedule) (hstep : PollSleep.advance mem s = some s') :
    Inv s' := by
  have hok := h.phase
  unfold PhaseOk at hok
  unfold advance at hstep
  rw [hphase] at hok hstep
  dsimp only at hok hstep
  obtain ⟨hreg, hawake, hquiet⟩ := hok
  have hawaited : awaited s = some s.fds := by
    unfold awaited
    rw [hphase]
  split_ifs at hstep with hrunning hsignal
  · cases hstep
    have hcause : s.cause ≠ none := fun hnone => by
      rw [hawake.mpr hnone] at hrunning
      cases hrunning
    refine ⟨h.clock, ⟨hrunning, hcause⟩, h.timer, h.timerCause, h.signalCause, fun hqueue l hl => ?_⟩
    exact h.supplied hqueue l (hawaited.trans hl)
  · cases hstep
    exact ⟨h.clock, ⟨rfl, fun heq => (by cases heq)⟩, h.timer, fun hcause => (by cases hcause), fun _ => hsignal,
      fun hcause => (by cases hcause)⟩
  · cases hstep
    refine ⟨h.clock, ⟨⟨hreg.queues, hreg.linked⟩, hawake, hquiet⟩, h.timer, h.timerCause, h.signalCause,
      fun hqueue l hl => ?_⟩
    exact h.supplied hqueue l (hawaited.trans hl)

theorem Inv.parked (h : Inv s) (hphase : s.phase = .parked) (hstep : PollSleep.advance mem s = some s') : Inv s' := by
  have hok := h.phase
  unfold PhaseOk at hok
  unfold advance at hstep
  rw [hphase] at hok hstep
  dsimp only at hok hstep
  obtain ⟨-, hawake, -⟩ := hok
  have hawaited : awaited s = some s.fds := by
    unfold awaited
    rw [hphase]
  split_ifs at hstep with hrunning
  cases hstep
  have hcause : s.cause ≠ none := fun hnone => by
    rw [hawake.mpr hnone] at hrunning
    cases hrunning
  refine ⟨h.clock, ⟨hrunning, hcause⟩, h.timer, h.timerCause, h.signalCause, fun hqueue l hl => ?_⟩
  exact h.supplied hqueue l (hawaited.trans hl)

theorem Inv.back (h : Inv s) (hphase : s.phase = .back) (hstep : PollSleep.advance mem s = some s') : Inv s' := by
  have hok := h.phase
  unfold PhaseOk at hok
  unfold advance at hstep
  rw [hphase] at hok hstep
  dsimp only at hok hstep
  have hawaited : awaited s = some s.fds := by
    unfold awaited
    rw [hphase]
  cases hstep
  refine ⟨h.clock, hok, fun expires hset => (by cases hset), h.timerCause, h.signalCause, fun hqueue l hl => ?_⟩
  exact h.supplied hqueue l (hawaited.trans hl)

/-- The fourth pass finds the event that has woken the call. -/
theorem Inv.fourth {i n : ℕ} (h : Inv s) (hphase : s.phase = .fourth i n)
    (hstep : PollSleep.advance mem s = some s') : Inv s' := by
  have hok := h.phase
  unfold PhaseOk at hok
  unfold advance at hstep
  rw [hphase] at hok hstep
  dsimp only at hok hstep
  have hsupplied : n = 0 → s.cause = some .queue → ∃ p ∈ s.fds.drop i, ready s p = true := by
    rintro rfl hqueue
    refine h.supplied hqueue _ ?_
    unfold awaited
    rw [hphase]
    rfl
  cases hp : s.fds[i]? with
  | some p =>
    rw [hp] at hstep
    cases hstep
    refine ⟨h.clock, hok, h.timer, h.timerCause, h.signalCause, fun hqueue l hl => ?_⟩
    cases hn : n + (ready s p).toNat with
    | zero =>
      rw [hn] at hl
      cases hl
      exact awaited_look hp hn (hsupplied (by omega) hqueue)
    | succ k =>
      rw [hn] at hl
      cases hl
  | none =>
    rw [hp] at hstep
    cases hstep
    refine ⟨h.clock, ⟨fun x hx => (by cases hx), fun hn => ?_⟩, h.timer, h.timerCause, h.signalCause,
      fun _ _ hl => (by cases hl)⟩
    rcases hcause : s.cause with - | (- | - | -)
    · exact absurd hcause hok.2
    · obtain ⟨p, hmem, -⟩ := hsupplied hn hcause
      rw [List.drop_eq_nil_of_le (List.getElem?_eq_none_iff.mp hp)] at hmem
      cases hmem
    · exact Or.inr (h.timerCause hcause)
    · exact Or.inl (h.signalCause hcause)

theorem Inv.detach {i n : ℕ} (h : Inv s) (hphase : s.phase = .detach i n)
    (hstep : PollSleep.advance mem s = some s') : Inv s' := by
  have hok := h.phase
  unfold PhaseOk at hok
  unfold advance at hstep
  rw [hphase] at hok hstep
  dsimp only at hok hstep
  obtain ⟨hfree, hexc⟩ := hok
  cases hx : s.nodes[i]? with
  | some x =>
    rw [hx] at hstep
    cases hstep
    exact ⟨h.clock, ⟨take_set_linked hx hfree, hexc⟩, h.timer, h.timerCause, h.signalCause, fun _ _ hl => (by cases hl)⟩
  | none =>
    rw [hx] at hstep
    cases hstep
    rw [List.take_of_length_le (List.getElem?_eq_none_iff.mp hx)] at hfree
    exact h.finish hfree fun hr => Or.inr (hexc (by omega))

theorem Inv.advance (h : Inv s) (hgood : AdvanceGood s) (hstep : PollSleep.advance mem s = some s') : Inv s' := by
  unfold AdvanceGood at hgood
  cases hphase : s.phase with
  | start => exact h.start hphase hstep
  | first i n q =>
    rw [hphase] at hgood
    exact h.first hphase hgood hstep
  | second i n most => exact h.second hphase hstep
  | enqueue i => exact h.enqueue hphase hstep
  | third i n =>
    rw [hphase] at hgood
    exact h.third hphase hgood hstep
  | arm =>
    rw [hphase] at hgood
    exact h.arm hphase hgood hstep
  | schedule => exact h.schedule hphase hstep
  | parked => exact h.parked hphase hstep
  | back => exact h.back hphase hstep
  | fourth i n => exact h.fourth hphase hstep
  | detach i n => exact h.detach hphase hstep
  | done r =>
    unfold PollSleep.advance at hstep
    rw [hphase] at hstep
    cases hstep

theorem Inv.step {a : Label} (h : Inv s) (hgood : Good s a) (hstep : exec s a = some s') : Inv s' := by
  unfold exec at hstep
  by_cases hdone : s.phase.isDone = true
  · rw [if_pos hdone] at hstep
    cases hstep
  rw [if_neg hdone] at hstep
  have hdone' : s.phase.isDone = false := by simpa using hdone
  cases a with
  | advance mem => exact h.advance hgood hstep
  | event fd m q =>
    dsimp only at hstep
    split_ifs at hstep with hq
    cases hstep
    exact h.event hdone' hq hgood
  | change fd m =>
    cases hstep
    exact h.change hdone' hgood
  | elapse n =>
    cases hstep
    exact h.elapse hdone' n
  | tick =>
    dsimp only at hstep
    split_ifs at hstep with hdue
    cases hstep
    exact h.tick hdone' hdue
  | timers =>
    cases hset : s.timer with
    | none =>
      rw [hset] at hstep
      cases hstep
    | some expires =>
      rw [hset] at hstep
      dsimp only at hstep
      split_ifs at hstep with hfire
      cases hstep
      exact h.timers hdone' hset hfire
  | signal b =>
    cases hstep
    exact h.signal hdone' hgood
  | notice =>
    dsimp only at hstep
    split_ifs at hstep with hsignal
    cases hstep
    exact h.wake hdone' (fun heq => by cases heq) (fun heq => by cases heq) fun _ => hsignal.2.2

theorem Inv.safe (h : Inv s) : Safe s where
  negative hdone hneg := by
    have hok := h.phase
    unfold PhaseOk at hok
    rw [hdone] at hok
    rcases hok.2 rfl with hzero | hsignal | hup
    · rw [hzero] at hneg
      cases hneg
    · exact hsignal
    · have := hup.1
      omega
  timed hdone hpos hsignal := by
    have hok := h.phase
    unfold PhaseOk at hok
    rw [hdone] at hok
    rcases hok.2 rfl with hzero | hsignal' | hup
    · rw [hzero] at hpos
      cases hpos
    · rw [hsignal] at hsignal'
      cases hsignal'
    · exact hup.2
  sleeps hparked hsleeps := by
    have hok := h.phase
    unfold PhaseOk at hok
    rw [hparked] at hok
    exact hok.2.2 hsleeps
  freed r hdone := by
    have hok := h.phase
    unfold PhaseOk at hok
    rw [hdone] at hok
    exact hok.1

/-- The call is about to return 0. -/
def Phase.returnsZero : Phase → Bool
  | .detach _ 0 => true
  | _ => false

instance (s : State) : Decidable (SignalGood s) := by
  refine decidable_of_iff (s.cause ≠ some .signal ∧ (s.phase.returnsZero = true → TimeUp s)) ?_
  refine and_congr_right fun _ => ?_
  constructor
  · intro h i hi
    exact h (by rw [hi]; rfl)
  · intro h hzero
    cases hphase : s.phase <;> rw [hphase] at hzero <;> try cases hzero
    case detach i n =>
      cases n with
      | zero => exact h i hphase
      | succ n => cases hzero

instance (s : State) (a : Label) : Decidable (Good s a) := by
  cases a <;> unfold Good <;> infer_instance

/-- A call on the read end of a pipe, which is empty. -/
def waiting (timeout : Word) : State where
  file fd := if fd = 3 then some true else none
  queues fd := if fd = 3 then [7] else []
  timeout := timeout
  began := 20000
  phase := .start
  fds := [⟨3, pollin, 0⟩]
  answer _ := 0
  nodes := []
  running := true
  cause := none
  timer := none
  now := 20000
  ticks := 2
  signal := false

end Mario.Fs.PollSleep
