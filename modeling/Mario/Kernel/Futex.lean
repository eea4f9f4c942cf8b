import Mathlib.Data.Set.Card
import Mario.Kernel.Task
import Mario.Lib.Runs

/-!
# `sys_futex`

Waiters of all address spaces share the 64 queues, and a waiter is known by its task and its
address only. `futex_wait` compares the word and puts its node on the queue under `futex_lock`;
`futex_wake` takes the lock and gives it back before it goes through the queue, so every waiter
that compared before is on the queue by then. The walk through a queue is one step, under
`wait_queue_lock`.
-/

namespace Mario.Kernel.Futex

open Mario.Lib Function

def futexWaitCmd : Word := 0
def futexWakeCmd : Word := 1
def futexRequeue : Word := 3

/-- `FUTEX_PRIVATE | FUTEX_CLOCK_REALTIME`. -/
def futexFlags : Word := 128 ||| 256

/-- `struct futex_waiter`. -/
structure Waiter where
  task : ℕ
  uaddr : ℕ
  deriving DecidableEq

/-- What `sys_futex` goes on with. -/
inductive Call
  | wait (uaddr : ℕ) (val : ℤ)
  | wake (uaddr : ℕ) (nr : ℤ)
  /-- `-EFAULT` or `-ENOSYS`. -/
  | fail
  deriving DecidableEq

/-- `sys_futex` up to its locks; `readable` is the answer of `verify_area`. -/
def sysFutex (readable : Bool) (uaddr : ℕ) (op : Word) (val : ℤ) (timeout : Bool) (val3 : ℤ) :
    Call :=
  let cmd := op &&& ~~~futexFlags
  if !readable then .fail
  else if cmd = futexWaitCmd then if timeout then .fail else .wait uaddr val
  else if cmd = futexWakeCmd then .wake uaddr val
  else if cmd = futexRequeue then .wake uaddr val3
  else .fail

def futexQueue (addr : ℕ) : ℕ := (addr >>> 2) &&& 63

inductive Pc
  | user
  /-- In `futex_wait`, before `futex_lock`. -/
  | entered (uaddr : ℕ) (val : ℤ)
  /-- In `futex_wait`: the word has the value, and the lock is held. -/
  | compared (uaddr : ℕ)
  /-- In `futex_wait`: the state is set. -/
  | stateSet (uaddr : ℕ)
  /-- In `futex_wait`: the node is on the queue, and the lock is still held. -/
  | queued (uaddr : ℕ)
  /-- In `schedule`. -/
  | asleep (uaddr : ℕ)
  /-- Back from `schedule`. -/
  | woken (uaddr : ℕ)
  /-- In `futex_wake`, before `futex_lock`. -/
  | waking (uaddr : ℕ) (nr : ℤ)
  /-- In `wake_matching`. -/
  | walking (uaddr : ℕ) (nr : ℤ)
  deriving DecidableEq

structure State where
  /-- The address space of a task. -/
  mm : ℕ → ℕ
  /-- The words of an address space. -/
  word : ℕ → ℕ → ℤ
  /-- Who holds `futex_lock`. -/
  lock : Option ℕ
  queues : ℕ → List Waiter
  state : ℕ → TaskState
  pc : ℕ → Pc
  /-- The number of calls of `futex_wait` the task has made. -/
  calls : ℕ → ℕ
  /-- What the last `futex_wake` of the task returned. -/
  woke : ℕ → ℤ

/-- `state & (TASK_INTERRUPTIBLE | TASK_UNINTERRUPTIBLE)`. -/
def sleeps (st : TaskState) : Bool := st = .interruptible || st = .uninterruptible

/-- The loop of `wake_matching`. -/
def wakeLoop (uaddr : ℕ) (nr : ℤ) :
    List Waiter → ℤ → (ℕ → TaskState) → (ℕ → TaskState) × ℤ
  | [], woke, state => (state, woke)
  | w :: ws, woke, state =>
      if w.uaddr = uaddr ∧ sleeps (state w.task) then
        let state := update state w.task .running
        if nr ≤ woke + 1 then (state, woke + 1) else wakeLoop uaddr nr ws (woke + 1) state
      else wakeLoop uaddr nr ws woke state

/-- How many tasks `wake_matching` is asked for. -/
def wakeCount (nr : ℤ) : ℤ := if nr ≤ 0 then 0x7fffffff else nr

def setPc (t : ℕ) (pc : Pc) (s : State) : State := { s with pc := update s.pc t pc }

def setState (t : ℕ) (st : TaskState) (s : State) : State :=
  { s with state := update s.state t st }

def setQueue (h : ℕ) (ws : List Waiter) (s : State) : State :=
  { s with queues := update s.queues h ws }

def wakeMatching (t uaddr : ℕ) (nr : ℤ) (s : State) : State :=
  let res := wakeLoop uaddr (wakeCount nr) (s.queues (futexQueue uaddr)) 0 s.state
  setPc t .user { s with state := res.1, woke := update s.woke t res.2 }

/-- `sys_futex` starts. -/
def start (t : ℕ) (s : State) : Call → State
  | .wait uaddr val =>
      setPc t (.entered uaddr val) { s with calls := update s.calls t (s.calls t + 1) }
  | .wake uaddr nr => setPc t (.waking uaddr nr) s
  | .fail => s

inductive Label
  /-- A store to user memory. -/
  | store (mm uaddr : ℕ) (val : ℤ)
  | futex (t : ℕ) (readable : Bool) (uaddr : ℕ) (op : Word) (val : ℤ) (timeout : Bool) (val3 : ℤ)
  /-- `do_exit` wakes one waiter at `clear_child_tid`. -/
  | exitWake (t uaddr : ℕ)
  | compare (t : ℕ)
  | setSleeping (t : ℕ)
  | inWaitQueue (t : ℕ)
  | releaseLock (t : ℕ)
  /-- `schedule` returns. -/
  | resume (t : ℕ)
  | outWaitQueue (t : ℕ)
  | wakeLock (t : ℕ)
  | wakeMatching (t : ℕ)
  /-- `wake_up_process` because of a signal. -/
  | wakeUpProcess (t : ℕ)
  /-- A task outside of `sys_futex` changes its state or its address space. -/
  | setTask (t : ℕ) (st : TaskState) (mm : ℕ)
  deriving DecidableEq

def exec (s : State) : Label → Option State
  | .store mm uaddr val =>
      some { s with
        word := update s.word mm (update (s.word mm) uaddr val) }
  | .futex t readable uaddr op val timeout val3 =>
      if s.pc t = .user then some (start t s (sysFutex readable uaddr op val timeout val3)) else none
  | .exitWake t uaddr => if s.pc t = .user then some (setPc t (.waking uaddr 1) s) else none
  | .compare t =>
      match s.pc t with
      | .entered uaddr val =>
          if s.lock = none then
            if s.word (s.mm t) uaddr = val then
              some (setPc t (.compared uaddr) { s with lock := some t })
            else some (setPc t .user s)
          else none
      | _ => none
  | .setSleeping t =>
      match s.pc t with
      | .compared uaddr => some (setPc t (.stateSet uaddr) (setState t .interruptible s))
      | _ => none
  | .inWaitQueue t =>
      match s.pc t with
      | .stateSet uaddr =>
          some (setPc t (.queued uaddr)
            (setQueue (futexQueue uaddr) (s.queues (futexQueue uaddr) ++ [⟨t, uaddr⟩]) s))
      | _ => none
  | .releaseLock t =>
      match s.pc t with
      | .queued uaddr => some (setPc t (.asleep uaddr) { s with lock := none })
      | _ => none
  | .resume t =>
      match s.pc t with
      | .asleep uaddr => if s.state t = .running then some (setPc t (.woken uaddr) s) else none
      | _ => none
  | .outWaitQueue t =>
      match s.pc t with
      | .woken uaddr =>
          some (setPc t .user
            (setQueue (futexQueue uaddr) ((s.queues (futexQueue uaddr)).erase ⟨t, uaddr⟩) s))
      | _ => none
  | .wakeLock t =>
      match s.pc t with
      | .waking uaddr nr => if s.lock = none then some (setPc t (.walking uaddr nr) s) else none
      | _ => none
  | .wakeMatching t =>
      match s.pc t with
      | .walking uaddr nr => some (wakeMatching t uaddr nr s)
      | _ => none
  | .wakeUpProcess t => some (setState t .running s)
  | .setTask t st mm =>
      if s.pc t = .user then
        some (setState t st { s with mm := update s.mm t mm })
      else none

def Step (s : State) (a : Label) (s' : State) : Prop := exec s a = some s'

/-- After `futex_init`. -/
structure Initial (s : State) : Prop where
  lock : s.lock = none
  queues : ∀ h, s.queues h = []
  pc : ∀ t, s.pc t = .user

/-- The task is in `futex_wait` at the address and has compared the word. -/
def Waits (s : State) (uaddr t : ℕ) : Prop :=
  s.pc t = .compared uaddr ∨ s.pc t = .stateSet uaddr ∨ s.pc t = .queued uaddr ∨
    s.pc t = .asleep uaddr ∨ s.pc t = .woken uaddr

/-- The tasks asleep at the address, of all address spaces. -/
def sleepers (s : State) (uaddr : ℕ) : Set ℕ :=
  { t | (s.pc t = .queued uaddr ∨ s.pc t = .asleep uaddr) ∧ sleeps (s.state t) = true }

/-- The tasks that a step wakes. -/
def wakened (s s' : State) : Set ℕ :=
  { t | sleeps (s.state t) = true ∧ s'.state t = .running }

/-- A step of `wake_matching` wakes so many of these tasks, returns their number, and changes the
state of no other task. -/
structure Wakes (s s' : State) (t : ℕ) (waiters : Set ℕ) (n : ℕ) : Prop where
  only : wakened s s' ⊆ waiters
  count : (wakened s s').ncard = min n waiters.ncard
  returned : s'.woke t = (wakened s s').ncard
  others : ∀ u, u ∉ wakened s s' → s'.state u = s.state u

/-! ## The walk through a queue -/

variable {s s' : State} {t u uaddr : ℕ} {nr : ℤ} {state : ℕ → TaskState} {ws : List Waiter}

/-- The waiters that `wake_matching` may wake. -/
def candidates (uaddr : ℕ) (state : ℕ → TaskState) (ws : List Waiter) : List ℕ :=
  (ws.filter fun w => w.uaddr = uaddr && sleeps (state w.task)).map Waiter.task

theorem candidates_congr {state' : ℕ → TaskState} (h : ∀ w ∈ ws, state' w.task = state w.task) :
    candidates uaddr state' ws = candidates uaddr state ws := by
  unfold candidates
  congr 1
  apply List.filter_congr
  intro w hw
  rw [h w hw]

/-- The loop wakes the first candidates, as many as are still asked for. -/
theorem wakeLoop_spec (hnodup : (ws.map Waiter.task).Nodup) {woke : ℤ} (hwoke : woke < nr) :
    wakeLoop uaddr nr ws woke state =
      (fun u => if u ∈ (candidates uaddr state ws).take (nr - woke).toNat then .running else state u,
        woke + ((candidates uaddr state ws).take (nr - woke).toNat).length) := by
  induction ws generalizing woke state with
  | nil => simp [wakeLoop, candidates]
  | cons w ws ih =>
    rw [List.map_cons, List.nodup_cons] at hnodup
    obtain ⟨hw, hws⟩ := hnodup
    rw [wakeLoop]
    by_cases hc : w.uaddr = uaddr ∧ sleeps (state w.task) = true
    · have hcons : candidates uaddr state (w :: ws) = w.task :: candidates uaddr state ws := by
        simp [candidates, hc]
      have hrest : candidates uaddr (update state w.task .running) ws =
          candidates uaddr state ws := by
        apply candidates_congr
        intro v hv
        apply update_of_ne
        rintro heq
        exact hw (heq ▸ List.mem_map_of_mem hv)
      have hsplit : (nr - woke).toNat = (nr - (woke + 1)).toNat + 1 := by omega
      rw [if_pos hc, hcons, hsplit, List.take_succ_cons]
      split_ifs with hle
      · have hzero : (nr - (woke + 1)).toNat = 0 := by omega
        rw [hzero, List.take_zero]
        ext u
        · simp [update_apply]
        · simp
      · rw [ih hws (by omega), hrest]
        ext u
        · by_cases hu : u = w.task
          · simp [hu]
          · simp [hu]
        · simp
          omega
    · have hskip : candidates uaddr state (w :: ws) = candidates uaddr state ws := by
        simp [candidates, hc]
      rw [if_neg hc, hskip]
      exact ih hws hwoke

/-! ## The invariant -/

/-- Where the node of a task is on a queue. -/
def listedAt : Pc → Option ℕ
  | .queued uaddr | .asleep uaddr | .woken uaddr => some uaddr
  | _ => none

/-- The places where `futex_lock` is held. -/
def locks : Pc → Bool
  | .compared _ | .stateSet _ | .queued _ => true
  | _ => false

/-- The queues have the nodes of the tasks in `futex_wait`, each on the queue of its address. -/
structure Inv (s : State) : Prop where
  mem : ∀ h w, w ∈ s.queues h ↔ h = futexQueue w.uaddr ∧ listedAt (s.pc w.task) = some w.uaddr
  nodup : ∀ h, ((s.queues h).map Waiter.task).Nodup
  lock : ∀ t, locks (s.pc t) = true → s.lock = some t
  woken : ∀ t uaddr, s.pc t = .woken uaddr → s.state t = .running

theorem Inv.move {pc : Pc} (h : Inv s) (hqueues : s'.queues = s.queues)
    (hpc : s'.pc = update s.pc t pc) (hlisted : listedAt pc = listedAt (s.pc t))
    (hlock : ∀ u, locks (s'.pc u) = true → s'.lock = some u)
    (hwoken : ∀ u uaddr, s'.pc u = .woken uaddr → s'.state u = .running) : Inv s' := by
  refine ⟨fun k w => ?_, fun k => ?_, hlock, hwoken⟩
  · rw [hqueues, h.mem, hpc, update_apply]
    split_ifs with hw
    · rw [hlisted, hw]
    · rfl
  · rw [hqueues]
    exact h.nodup k

/-- The states of the tasks change, and those that have been woken stay so. -/
theorem Inv.setStates {state : ℕ → TaskState} (h : Inv s)
    (hstate : ∀ u, s.state u = .running → state u = .running ∨ s.pc u = .user) : Inv { s with state := state } := by
  refine { h with woken := fun u a hu => ?_ }
  exact (hstate u (h.woken u a hu)).resolve_right fun huser => by simp [huser] at hu

theorem Inv.compare {val : ℤ} (h : Inv s) (hpc : s.pc t = .entered uaddr val)
    (hlock : s.lock = none) : Inv (setPc t (.compared uaddr) { s with lock := some t }) := by
  have hfree : ∀ u, locks (s.pc u) = false := by
    intro u
    by_contra hu
    have := h.lock u (by simpa using hu)
    rw [hlock] at this
    cases this
  refine h.move rfl rfl (by rw [hpc]; rfl) (fun u hu => ?_) (fun u a hu => ?_)
  · change locks (update s.pc t (.compared uaddr) u) = true at hu
    rw [update_apply] at hu
    split_ifs at hu with hut
    · rw [hut]
      rfl
    · rw [hfree u] at hu
      cases hu
  · change update s.pc t (.compared uaddr) u = .woken a at hu
    rw [update_apply] at hu
    split_ifs at hu
    exact h.woken u a hu

/-- The task goes on and keeps what it has: its node, and the lock. -/
theorem Inv.setPc {pc : Pc} (h : Inv s) (hlisted : listedAt pc = listedAt (s.pc t))
    (hlocks : locks pc = true → locks (s.pc t) = true)
    (hwoken : ∀ uaddr, pc = .woken uaddr → s.state t = .running) : Inv (setPc t pc s) := by
  refine h.move rfl rfl hlisted (fun u hu => ?_) (fun u a hu => ?_)
  · change locks (update s.pc t pc u) = true at hu
    apply h.lock u
    rw [update_apply] at hu
    split_ifs at hu with hut
    · rw [hut]
      exact hlocks hu
    · exact hu
  · change update s.pc t pc u = .woken a at hu
    rw [update_apply] at hu
    split_ifs at hu with hut
    · rw [hut]
      exact hwoken a hu
    · exact h.woken u a hu

theorem Inv.inWaitQueue (h : Inv s) (hpc : s.pc t = .stateSet uaddr) :
    Inv (Futex.setPc t (.queued uaddr)
      (setQueue (futexQueue uaddr) (s.queues (futexQueue uaddr) ++ [⟨t, uaddr⟩]) s)) := by
  have hout : ∀ k w, w ∈ s.queues k → w.task ≠ t := by
    rintro k w hw rfl
    have := ((h.mem k w).mp hw).2
    rw [hpc] at this
    cases this
  have hpcs : ∀ u, (Futex.setPc t (.queued uaddr) (setQueue (futexQueue uaddr)
      (s.queues (futexQueue uaddr) ++ [⟨t, uaddr⟩]) s)).pc u =
      if u = t then .queued uaddr else s.pc u := fun u => update_apply ..
  have hqueues : ∀ k, (Futex.setPc t (.queued uaddr) (setQueue (futexQueue uaddr)
      (s.queues (futexQueue uaddr) ++ [⟨t, uaddr⟩]) s)).queues k =
      if k = futexQueue uaddr then s.queues (futexQueue uaddr) ++ [⟨t, uaddr⟩] else s.queues k :=
    fun k => update_apply ..
  constructor
  · intro k w
    have hold := h.mem k w
    rw [hqueues, hpcs]
    by_cases hw : w.task = t
    · have hnot : w ∉ s.queues k := fun hin => hout k w hin hw
      rw [if_pos hw]
      obtain ⟨task, a⟩ := w
      obtain rfl : task = t := hw
      split_ifs with hk
      · subst hk
        simp only [List.mem_append, hnot, List.mem_singleton, false_or]
        simp only [listedAt, Waiter.mk.injEq, true_and, Option.some.injEq]
        constructor
        · rintro rfl
          exact ⟨rfl, rfl⟩
        · rintro ⟨-, heq⟩
          exact heq.symm
      · simp only [hnot, listedAt, Option.some.injEq, false_iff, not_and]
        rintro rfl rfl
        exact hk rfl
    · rw [if_neg hw, ← hold]
      split_ifs with hk
      · subst hk
        simp only [List.mem_append, List.mem_singleton, or_iff_left_iff_imp]
        rintro rfl
        exact absurd rfl hw
      · rfl
  · intro k
    rw [hqueues]
    split_ifs
    · rw [List.map_append, List.nodup_append]
      refine ⟨h.nodup _, List.nodup_singleton _, ?_⟩
      intro a ha b hb
      obtain ⟨w, hw, rfl⟩ := List.mem_map.mp ha
      obtain rfl : b = t := by simpa using hb
      exact hout _ w hw
    · exact h.nodup k
  · intro u hu
    rw [hpcs] at hu
    apply h.lock u
    split_ifs at hu with hut
    · rw [hut, hpc]
      rfl
    · exact hu
  · intro u a hu
    rw [hpcs] at hu
    split_ifs at hu
    exact h.woken u a hu

theorem Inv.outWaitQueue (h : Inv s) (hpc : s.pc t = .woken uaddr) :
    Inv (Futex.setPc t .user (setQueue (futexQueue uaddr) ((s.queues (futexQueue uaddr)).erase ⟨t, uaddr⟩) s)) := by
  have hnodup : ∀ k, (s.queues k).Nodup := fun k => (h.nodup k).of_map
  have hpcs : ∀ u, (Futex.setPc t .user (setQueue (futexQueue uaddr)
      ((s.queues (futexQueue uaddr)).erase ⟨t, uaddr⟩) s)).pc u =
      if u = t then .user else s.pc u := fun u => update_apply ..
  have hqueues : ∀ k, (Futex.setPc t .user (setQueue (futexQueue uaddr)
      ((s.queues (futexQueue uaddr)).erase ⟨t, uaddr⟩) s)).queues k =
      if k = futexQueue uaddr then (s.queues (futexQueue uaddr)).erase ⟨t, uaddr⟩
      else s.queues k := fun k => update_apply ..
  constructor
  · intro k w
    have hold := h.mem k w
    rw [hqueues, hpcs]
    by_cases hw : w.task = t
    · rw [if_pos hw]
      rw [hw, hpc] at hold
      obtain ⟨task, a⟩ := w
      obtain rfl : task = t := hw
      simp only [listedAt, Option.some.injEq, reduceCtorEq, and_false, iff_false] at hold ⊢
      split_ifs with hk
      · subst hk
        rw [(hnodup _).mem_erase_iff]
        rintro ⟨hne, hin⟩
        obtain ⟨-, rfl⟩ := hold.mp hin
        exact hne rfl
      · intro hin
        obtain ⟨heq, rfl⟩ := hold.mp hin
        exact hk heq
    · rw [if_neg hw, ← hold]
      split_ifs with hk
      · subst hk
        rw [(hnodup _).mem_erase_iff, and_iff_right]
        rintro rfl
        exact hw rfl
      · rfl
  · intro k
    rw [hqueues]
    split_ifs
    · exact (h.nodup _).sublist ((List.erase_sublist).map _)
    · exact h.nodup k
  · intro u hu
    rw [hpcs] at hu
    split_ifs at hu
    · cases hu
    · exact h.lock u hu
  · intro u a hu
    rw [hpcs] at hu
    split_ifs at hu
    exact h.woken u a hu

theorem Inv.releaseLock (h : Inv s) (hpc : s.pc t = .queued uaddr) :
    Inv (Futex.setPc t (.asleep uaddr) { s with lock := none }) := by
  refine h.move rfl rfl (by rw [hpc]; rfl) (fun u hu => ?_) (fun u a hu => ?_)
  · change locks (update s.pc t (.asleep uaddr) u) = true at hu
    rw [update_apply] at hu
    split_ifs at hu with hut
    · cases hu
    · have htlock := h.lock t (by rw [hpc]; rfl)
      exact absurd (Option.some.inj ((h.lock u hu).symm.trans htlock)) hut
  · change update s.pc t (.asleep uaddr) u = .woken a at hu
    rw [update_apply] at hu
    split_ifs at hu
    exact h.woken u a hu

theorem wakeCount_pos (nr : ℤ) : 0 < wakeCount nr := by
  unfold wakeCount
  split_ifs
  · decide
  · omega

/-- The tasks that `wake_matching` wakes. -/
def chosen (s : State) (uaddr : ℕ) (nr : ℤ) : List ℕ :=
  (candidates uaddr s.state (s.queues (futexQueue uaddr))).take (wakeCount nr).toNat

theorem Inv.wakeMatching_state (h : Inv s) (u : ℕ) :
    (wakeMatching t uaddr nr s).state u =
      if u ∈ chosen s uaddr nr then .running else s.state u := by
  unfold Futex.wakeMatching
  change (wakeLoop uaddr (wakeCount nr) (s.queues (futexQueue uaddr)) 0 s.state).1 u = _
  rw [wakeLoop_spec (h.nodup _) (wakeCount_pos nr), sub_zero]
  rfl

theorem Inv.wakeMatching_woke (h : Inv s) : (wakeMatching t uaddr nr s).woke t = (chosen s uaddr nr).length := by
  unfold Futex.wakeMatching
  change update s.woke t (wakeLoop uaddr (wakeCount nr) (s.queues (futexQueue uaddr)) 0 s.state).2 t = _
  rw [update_self, wakeLoop_spec (h.nodup _) (wakeCount_pos nr), sub_zero, zero_add]
  rfl

theorem Inv.wakeMatching (h : Inv s) (hpc : s.pc t = .walking uaddr nr) : Inv (wakeMatching t uaddr nr s) := by
  have hmoved : Inv (Futex.setPc t .user s) := h.setPc (by rw [hpc]; rfl) (by simp [locks]) (by simp)
  refine { hmoved with woken := fun u a hu => ?_ }
  rw [h.wakeMatching_state]
  split_ifs
  · rfl
  · exact hmoved.woken u a hu

theorem Inv.step {a : Label} (h : Inv s) (hstep : Step s a s') : Inv s' := by
  cases a with
  | store m uaddr val =>
    cases hstep
    exact { h with }
  | futex t readable uaddr op val timeout val3 =>
    dsimp only [Step, exec] at hstep
    split_ifs at hstep with hpc
    cases hstep
    cases sysFutex readable uaddr op val timeout val3 with
    | wait uaddr val =>
      have hcalls : Inv { s with calls := update s.calls t (s.calls t + 1) } := { h with }
      exact hcalls.setPc (by rw [hpc]; rfl) (by simp [locks]) (by simp)
    | wake uaddr nr => exact h.setPc (by rw [hpc]; rfl) (by simp [locks]) (by simp)
    | fail => exact h
  | exitWake t uaddr =>
    dsimp only [Step, exec] at hstep
    split_ifs at hstep with hpc
    cases hstep
    exact h.setPc (by rw [hpc]; rfl) (by simp [locks]) (by simp)
  | compare t =>
    dsimp only [Step, exec] at hstep
    split at hstep
    · rename_i hpc
      split_ifs at hstep with hlock hval
      · cases hstep
        exact h.compare hpc hlock
      · cases hstep
        exact h.setPc (by rw [hpc]; rfl) (by simp [locks]) (by simp)
    · cases hstep
  | setSleeping t =>
    dsimp only [Step, exec] at hstep
    split at hstep
    · rename_i uaddr hpc
      cases hstep
      have hmoved : Inv (Futex.setPc t (.stateSet uaddr) s) :=
        h.setPc (by rw [hpc]; rfl) (by simp [hpc, locks]) (by simp)
      refine { hmoved with woken := fun u a hu => ?_ }
      change update s.state t .interruptible u = .running
      rw [update_of_ne]
      · exact hmoved.woken u a hu
      · rintro rfl
        simp [Futex.setPc] at hu
    · cases hstep
  | inWaitQueue t =>
    dsimp only [Step, exec] at hstep
    split at hstep
    · rename_i hpc
      cases hstep
      exact h.inWaitQueue hpc
    · cases hstep
  | releaseLock t =>
    dsimp only [Step, exec] at hstep
    split at hstep
    · rename_i hpc
      cases hstep
      exact h.releaseLock hpc
    · cases hstep
  | resume t =>
    dsimp only [Step, exec] at hstep
    split at hstep
    · rename_i hpc
      split_ifs at hstep with hrun
      cases hstep
      exact h.setPc (by rw [hpc]; rfl) (by simp [locks]) (fun _ _ => hrun)
    · cases hstep
  | outWaitQueue t =>
    dsimp only [Step, exec] at hstep
    split at hstep
    · rename_i hpc
      cases hstep
      exact h.outWaitQueue hpc
    · cases hstep
  | wakeLock t =>
    dsimp only [Step, exec] at hstep
    split at hstep
    · rename_i hpc
      split_ifs at hstep
      cases hstep
      exact h.setPc (by rw [hpc]; rfl) (by simp [locks]) (by simp)
    · cases hstep
  | wakeMatching t =>
    dsimp only [Step, exec] at hstep
    split at hstep
    · rename_i hpc
      cases hstep
      exact h.wakeMatching hpc
    · cases hstep
  | wakeUpProcess t =>
    cases hstep
    refine h.setStates fun u hu => Or.inl ?_
    rw [update_apply]
    split_ifs
    · rfl
    · exact hu
  | setTask t st m =>
    dsimp only [Step, exec] at hstep
    split_ifs at hstep with hpc
    cases hstep
    have hmm : Inv { s with mm := update s.mm t m } := { h with }
    refine hmm.setStates fun u hu => ?_
    by_cases hut : u = t
    · exact Or.inr (hut ▸ hpc)
    · rw [update_of_ne hut]
      exact Or.inl hu

theorem Initial.inv (h : Initial s) : Inv s := by
  constructor
  · intro k w
    rw [h.queues, h.pc]
    simp [listedAt]
  · intro k
    rw [h.queues]
    exact List.nodup_nil
  · intro t ht
    rw [h.pc] at ht
    cases ht
  · intro t a ht
    rw [h.pc] at ht
    cases ht

/-! ## What a wake-up does -/

theorem Inv.mem_candidates (h : Inv s) :
    u ∈ candidates uaddr s.state (s.queues (futexQueue uaddr)) ↔ u ∈ sleepers s uaddr := by
  have hlisted : u ∈ candidates uaddr s.state (s.queues (futexQueue uaddr)) ↔
      listedAt (s.pc u) = some uaddr ∧ sleeps (s.state u) = true := by
    simp only [candidates, List.mem_map, List.mem_filter, Bool.and_eq_true, decide_eq_true_eq]
    constructor
    · rintro ⟨w, ⟨hw, rfl, hsleeps⟩, rfl⟩
      exact ⟨((h.mem _ w).mp hw).2, hsleeps⟩
    · rintro ⟨hat, hsleeps⟩
      exact ⟨⟨u, uaddr⟩, ⟨(h.mem _ _).mpr ⟨rfl, hat⟩, rfl, hsleeps⟩, rfl⟩
  rw [hlisted]
  constructor
  · rintro ⟨hat, hsleeps⟩
    refine ⟨?_, hsleeps⟩
    cases hpc : s.pc u with
    | queued a =>
      rw [hpc] at hat
      exact Or.inl (congrArg Pc.queued (Option.some.inj hat))
    | asleep a =>
      rw [hpc] at hat
      exact Or.inr (congrArg Pc.asleep (Option.some.inj hat))
    | woken a =>
      rw [h.woken u a hpc] at hsleeps
      cases hsleeps
    | _ =>
      rw [hpc] at hat
      cases hat
  · rintro ⟨hpc | hpc, hsleeps⟩
    · exact ⟨by rw [hpc]; rfl, hsleeps⟩
    · exact ⟨by rw [hpc]; rfl, hsleeps⟩

theorem Inv.candidates_nodup (h : Inv s) :
    (candidates uaddr s.state (s.queues (futexQueue uaddr))).Nodup :=
  (h.nodup _).sublist (List.filter_sublist.map _)

/-- The size of a set that a list without repetition enumerates. -/
theorem ncard_of_nodup {l : List ℕ} {S : Set ℕ} (hnodup : l.Nodup) (hmem : ∀ u, u ∈ l ↔ u ∈ S) :
    S.ncard = l.length := by
  have hS : S = (l.toFinset : Set ℕ) := by
    ext u
    simp [hmem]
  rw [hS, Set.ncard_coe_finset, List.toFinset_card_of_nodup hnodup]

/-- `wake_matching` wakes as many tasks asleep at the address as it is asked for, if there are so
many, and all of them otherwise. -/
theorem Inv.wakes (h : Inv s) :
    Wakes s (Futex.wakeMatching t uaddr nr s) t (sleepers s uaddr) (wakeCount nr).toNat := by
  have hchosen : ∀ u, u ∈ chosen s uaddr nr ↔ u ∈ wakened s (Futex.wakeMatching t uaddr nr s) := by
    intro u
    constructor
    · intro hu
      refine ⟨(h.mem_candidates.mp (List.mem_of_mem_take hu)).2, ?_⟩
      rw [h.wakeMatching_state, if_pos hu]
    · rintro ⟨hsleeps, hrun⟩
      by_contra hu
      rw [h.wakeMatching_state, if_neg hu] at hrun
      rw [hrun] at hsleeps
      cases hsleeps
  have hcount := ncard_of_nodup (h.candidates_nodup.sublist (List.take_sublist _ _)) hchosen
  constructor
  · intro u hu
    exact h.mem_candidates.mp (List.mem_of_mem_take ((hchosen u).mpr hu))
  · rw [hcount, ncard_of_nodup h.candidates_nodup fun u => h.mem_candidates, List.length_take]
  · rw [hcount, h.wakeMatching_woke]
    rfl
  · intro u hu
    rw [h.wakeMatching_state, if_neg]
    rwa [hchosen]

/-! ## Waiters that compared before a wake-up -/

/-- Where a task goes from a place. -/
inductive Follows : Pc → Pc → Prop
  | waking (uaddr : ℕ) (nr : ℤ) : Follows .user (.waking uaddr nr)
  | walking (uaddr : ℕ) (nr : ℤ) : Follows (.waking uaddr nr) (.walking uaddr nr)
  | done (uaddr : ℕ) (nr : ℤ) : Follows (.walking uaddr nr) .user
  | changed (uaddr : ℕ) (val : ℤ) : Follows (.entered uaddr val) .user
  | compared (uaddr : ℕ) (val : ℤ) : Follows (.entered uaddr val) (.compared uaddr)
  | stateSet (uaddr : ℕ) : Follows (.compared uaddr) (.stateSet uaddr)
  | queued (uaddr : ℕ) : Follows (.stateSet uaddr) (.queued uaddr)
  | asleep (uaddr : ℕ) : Follows (.queued uaddr) (.asleep uaddr)
  | woken (uaddr : ℕ) : Follows (.asleep uaddr) (.woken uaddr)
  | out (uaddr : ℕ) : Follows (.woken uaddr) .user

theorem pc_follows {pc : Pc} (hpc : Follows (s.pc t) pc) (u : ℕ) :
    update s.pc t pc u = s.pc u ∨ Follows (s.pc u) (update s.pc t pc u) := by
  rw [update_apply]
  split_ifs with hu
  · rw [hu]
    exact Or.inr hpc
  · exact Or.inl rfl

/-- A step starts a new call of `futex_wait`, or the task stays or goes on to the next place. -/
theorem step_follows {a : Label} (hstep : Step s a s') (u : ℕ) :
    s'.calls u = s.calls u + 1 ∨ s'.calls u = s.calls u ∧ (s'.pc u = s.pc u ∨ Follows (s.pc u) (s'.pc u)) := by
  cases a with
  | store m uaddr val =>
    cases hstep
    exact Or.inr ⟨rfl, Or.inl rfl⟩
  | futex t readable uaddr op val timeout val3 =>
    dsimp only [Step, exec] at hstep
    split_ifs at hstep with hpc
    cases hstep
    cases sysFutex readable uaddr op val timeout val3 with
    | wait uaddr val =>
      change update s.calls t (s.calls t + 1) u = s.calls u + 1 ∨
        update s.calls t (s.calls t + 1) u = s.calls u ∧ (update s.pc t (.entered uaddr val) u = s.pc u ∨ _)
      by_cases hu : u = t
      · rw [hu, update_self]
        exact Or.inl rfl
      · rw [update_of_ne hu, update_of_ne hu]
        exact Or.inr ⟨rfl, Or.inl rfl⟩
    | wake uaddr nr => exact Or.inr ⟨rfl, pc_follows (hpc ▸ Follows.waking uaddr nr) u⟩
    | fail => exact Or.inr ⟨rfl, Or.inl rfl⟩
  | exitWake t uaddr =>
    dsimp only [Step, exec] at hstep
    split_ifs at hstep with hpc
    cases hstep
    exact Or.inr ⟨rfl, pc_follows (hpc ▸ Follows.waking uaddr 1) u⟩
  | compare t =>
    dsimp only [Step, exec] at hstep
    split at hstep
    · rename_i uaddr val hpc
      split_ifs at hstep
      · cases hstep
        exact Or.inr ⟨rfl, pc_follows (hpc ▸ Follows.compared uaddr val) u⟩
      · cases hstep
        exact Or.inr ⟨rfl, pc_follows (hpc ▸ Follows.changed uaddr val) u⟩
    · cases hstep
  | setSleeping t =>
    dsimp only [Step, exec] at hstep
    split at hstep
    · rename_i uaddr hpc
      cases hstep
      exact Or.inr ⟨rfl, pc_follows (hpc ▸ Follows.stateSet uaddr) u⟩
    · cases hstep
  | inWaitQueue t =>
    dsimp only [Step, exec] at hstep
    split at hstep
    · rename_i uaddr hpc
      cases hstep
      exact Or.inr ⟨rfl, pc_follows (hpc ▸ Follows.queued uaddr) u⟩
    · cases hstep
  | releaseLock t =>
    dsimp only [Step, exec] at hstep
    split at hstep
    · rename_i uaddr hpc
      cases hstep
      exact Or.inr ⟨rfl, pc_follows (hpc ▸ Follows.asleep uaddr) u⟩
    · cases hstep
  | resume t =>
    dsimp only [Step, exec] at hstep
    split at hstep
    · rename_i uaddr hpc
      split_ifs at hstep
      cases hstep
      exact Or.inr ⟨rfl, pc_follows (hpc ▸ Follows.woken uaddr) u⟩
    · cases hstep
  | outWaitQueue t =>
    dsimp only [Step, exec] at hstep
    split at hstep
    · rename_i uaddr hpc
      cases hstep
      exact Or.inr ⟨rfl, pc_follows (hpc ▸ Follows.out uaddr) u⟩
    · cases hstep
  | wakeLock t =>
    dsimp only [Step, exec] at hstep
    split at hstep
    · rename_i uaddr nr hpc
      split_ifs at hstep
      cases hstep
      exact Or.inr ⟨rfl, pc_follows (hpc ▸ Follows.walking uaddr nr) u⟩
    · cases hstep
  | wakeMatching t =>
    dsimp only [Step, exec] at hstep
    split at hstep
    · rename_i uaddr nr hpc
      cases hstep
      exact Or.inr ⟨rfl, pc_follows (hpc ▸ Follows.done uaddr nr) u⟩
    · cases hstep
  | wakeUpProcess t =>
    cases hstep
    exact Or.inr ⟨rfl, Or.inl rfl⟩
  | setTask t st m =>
    dsimp only [Step, exec] at hstep
    split_ifs at hstep
    cases hstep
    exact Or.inr ⟨rfl, Or.inl rfl⟩

/-- In this call of `futex_wait` the task is at one of these places. -/
def During (u k : ℕ) (places : Pc → Prop) (s : State) : Prop :=
  k ≤ s.calls u ∧ (s.calls u = k → places (s.pc u))

theorem During.run {k : ℕ} {places : Pc → Prop} {as : List Label} (h : During u k places s)
    (hclosed : ∀ p q, places p → Follows p q → places q) (hrun : Run Step s as s') : During u k places s' := by
  refine hrun.invariant h ?_
  rintro v w a ⟨hle, hplaces⟩ hstep
  rcases step_follows hstep u with hcalls | ⟨hcalls, hpc⟩
  · rw [During, hcalls]
    exact ⟨by omega, fun heq => by omega⟩
  · rw [During, hcalls]
    refine ⟨hle, fun heq => ?_⟩
    rcases hpc with hpc | hpc
    · rw [hpc]
      exact hplaces heq
    · exact hclosed _ _ (hplaces heq) hpc

/-- Out of `futex_wait`. -/
def Out (pc : Pc) : Prop :=
  pc = .user ∨ (∃ uaddr nr, pc = .waking uaddr nr) ∨ ∃ uaddr nr, pc = .walking uaddr nr

theorem Out.follows {p q : Pc} (h : Out p) (hpq : Follows p q) : Out q := by
  obtain rfl | ⟨uaddr, nr, rfl⟩ | ⟨uaddr, nr, rfl⟩ := h
  · cases hpq
    exact Or.inr (Or.inl ⟨_, _, rfl⟩)
  · cases hpq
    exact Or.inr (Or.inr ⟨uaddr, nr, rfl⟩)
  · cases hpq
    exact Or.inl rfl

/-- The places of `futex_wait` after the comparison, and after the lock. -/
def AfterCompare (uaddr : ℕ) (pc : Pc) : Prop :=
  pc = .compared uaddr ∨ pc = .stateSet uaddr ∨ pc = .queued uaddr ∨ pc = .asleep uaddr ∨
    pc = .woken uaddr ∨ Out pc

def AfterLock (uaddr : ℕ) (pc : Pc) : Prop :=
  pc = .asleep uaddr ∨ pc = .woken uaddr ∨ Out pc

theorem AfterLock.follows {p q : Pc} (h : AfterLock uaddr p) (hpq : Follows p q) : AfterLock uaddr q := by
  obtain rfl | rfl | hout := h
  · cases hpq
    exact Or.inr (Or.inl rfl)
  · cases hpq
    exact Or.inr (Or.inr (Or.inl rfl))
  · exact Or.inr (Or.inr (hout.follows hpq))

theorem AfterCompare.follows {p q : Pc} (h : AfterCompare uaddr p) (hpq : Follows p q) : AfterCompare uaddr q := by
  obtain rfl | rfl | rfl | hlock := h
  · cases hpq
    exact Or.inr (Or.inl rfl)
  · cases hpq
    exact Or.inr (Or.inr (Or.inl rfl))
  · cases hpq
    exact Or.inr (Or.inr (Or.inr (Or.inl rfl)))
  · exact Or.inr (Or.inr (Or.inr (AfterLock.follows hlock hpq)))

/-- A waiter that had compared before `futex_wake` took the lock is not asleep after a wake-up
that covers all waiters. -/
theorem Inv.not_left_asleep {as₁ as₂ : List Label} {s₁ s₂ s₃ s₄ : State} (h : Inv s)
    (hwaits : Waits s uaddr u) (hrun₁ : Run Step s as₁ s₁) (hlock : Step s₁ (.wakeLock t) s₂)
    (hrun₂ : Run Step s₂ as₂ s₃) (hpc : s₃.pc t = .walking uaddr nr)
    (hall : (sleepers s₃ uaddr).ncard ≤ (wakeCount nr).toNat)
    (hwalk : Step s₃ (.wakeMatching t) s₄) (hcall : s₄.calls u = s.calls u) :
    ¬ (Waits s₄ uaddr u ∧ sleeps (s₄.state u) = true) := by
  have hinv₁ : Inv s₁ := hrun₁.invariant (P := Inv) h fun hu hstep => hu.step hstep
  have hinv₃ : Inv s₃ :=
    hrun₂.invariant (P := Inv) (hinv₁.step hlock) fun hu hstep => hu.step hstep
  have hcompare : During u (s.calls u) (AfterCompare uaddr) s₁ := by
    have hstart : During u (s.calls u) (AfterCompare uaddr) s := by
      refine ⟨le_rfl, fun _ => ?_⟩
      obtain hpc | hpc | hpc | hpc | hpc := hwaits
      all_goals simp [AfterCompare, hpc]
    exact hstart.run (fun _ _ => AfterCompare.follows) hrun₁
  -- the lock was free, so the waiter was through with it
  have hafter₁ : During u (s.calls u) (AfterLock uaddr) s₁ := by
    refine ⟨hcompare.1, fun heq => ?_⟩
    have hfree : s₁.lock = none := by
      dsimp only [Step, exec] at hlock
      split at hlock
      · by_contra hne
        rw [if_neg hne] at hlock
        cases hlock
      · cases hlock
    have hnot : locks (s₁.pc u) = false := by
      by_contra hu
      have := hinv₁.lock u (by simpa using hu)
      rw [hfree] at this
      cases this
    obtain hpc | hpc | hpc | hafter := hcompare.2 heq
    · simp [hpc, locks] at hnot
    · simp [hpc, locks] at hnot
    · simp [hpc, locks] at hnot
    · exact hafter
  have hafter₃ : During u (s.calls u) (AfterLock uaddr) s₃ :=
    (hafter₁.run (fun _ _ => AfterLock.follows) (Run.snoc (Run.nil _) hlock)).run (fun _ _ => AfterLock.follows) hrun₂
  dsimp only [Step, exec] at hwalk
  rw [hpc] at hwalk
  cases hwalk
  rintro ⟨hwaits₄, hsleeps⟩
  have hwakes : Wakes s₃ (Futex.wakeMatching t uaddr nr s₃) t (sleepers s₃ uaddr) (wakeCount nr).toNat := hinv₃.wakes
  have hput : u ≠ t := by
    rintro rfl
    simp [Waits, Futex.wakeMatching, Futex.setPc] at hwaits₄
  have hsame : (Futex.wakeMatching t uaddr nr s₃).pc u = s₃.pc u := update_of_ne hput ..
  have hasleep : u ∈ sleepers s₃ uaddr := by
    have hnot : u ∉ wakened s₃ (Futex.wakeMatching t uaddr nr s₃) := by
      rintro ⟨-, hrunning⟩
      rw [hrunning] at hsleeps
      cases hsleeps
    rw [hwakes.others u hnot] at hsleeps
    refine ⟨?_, hsleeps⟩
    obtain hpc₃ | hpc₃ | hout := hafter₃.2 hcall
    · exact Or.inr hpc₃
    · rw [hinv₃.woken u uaddr hpc₃] at hsleeps
      cases hsleeps
    · rw [Waits, hsame] at hwaits₄
      obtain hpc₃ | ⟨a, m, hpc₃⟩ | ⟨a, m, hpc₃⟩ := hout
      all_goals simp [hpc₃] at hwaits₄
  -- every sleeper has been woken, so this one too
  have hfinite : (sleepers s₃ uaddr).Finite := by
    refine (List.finite_toSet (candidates uaddr s₃.state (s₃.queues (futexQueue uaddr)))).subset ?_
    exact fun v hv => hinv₃.mem_candidates.mpr hv
  have heq : wakened s₃ (Futex.wakeMatching t uaddr nr s₃) = sleepers s₃ uaddr := by
    apply Set.eq_of_subset_of_ncard_le hwakes.only _ hfinite
    rw [hwakes.count]
    exact le_min hall le_rfl
  have hrunning : (Futex.wakeMatching t uaddr nr s₃).state u = .running := by
    rw [← heq] at hasleep
    exact hasleep.2
  rw [hrunning] at hsleeps
  cases hsleeps

/-- A `futex_wake` wakes as many waiters as it is asked for, of whatever address space, and it
leaves none asleep that had compared before when it is asked for all. -/
theorem futexWake_exact (s₀ : State) (hinit : Initial s₀) (labs : List Label) (s : State)
    (hrun : Run Step s₀ labs s) :
    (∀ t uaddr nr s', s.pc t = .walking uaddr nr → Step s (.wakeMatching t) s' →
      Wakes s s' t (sleepers s uaddr) (wakeCount nr).toNat) ∧
    (∀ u uaddr, Waits s uaddr u → ∀ t nr as₁ s₁ s₂ as₂ s₃ s₄, Run Step s as₁ s₁ →
      Step s₁ (.wakeLock t) s₂ → Run Step s₂ as₂ s₃ → s₃.pc t = .walking uaddr nr →
      (sleepers s₃ uaddr).ncard ≤ (wakeCount nr).toNat → Step s₃ (.wakeMatching t) s₄ →
      s₄.calls u = s.calls u → ¬ (Waits s₄ uaddr u ∧ sleeps (s₄.state u) = true)) := by
  have hinv : Inv s := hrun.invariant (P := Inv) hinit.inv fun hu hstep => hu.step hstep
  constructor
  · intro t uaddr nr s' hpc hstep
    dsimp only [Step, exec] at hstep
    rw [hpc] at hstep
    cases hstep
    exact hinv.wakes
  · intro u uaddr hwaits t nr as₁ s₁ s₂ as₂ s₃ s₄ hrun₁ hlock hrun₂ hpc hall hwalk hcall
    exact hinv.not_left_asleep hwaits hrun₁ hlock hrun₂ hpc hall hwalk hcall

/-- Task 2 has an address space of its own. -/
def boot : State :=
  { mm := fun t => if t = 2 then 2 else 1
    word := fun _ _ => 0
    lock := none
    queues := fun _ => []
    state := fun _ => .running
    pc := fun _ => .user
    calls := fun _ => 0
    woke := fun _ => 0 }

theorem boot_initial : Initial boot := ⟨rfl, fun _ => rfl, fun _ => rfl⟩

/-- A task waits at an address. -/
def waitSteps (t uaddr : ℕ) : List Label :=
  [.futex t true uaddr futexWaitCmd 0 false 0, .compare t, .setSleeping t, .inWaitQueue t,
    .releaseLock t]

/-- Tasks 2 and 1 wait at the same address, and task 3 is about to wake one task there. -/
def twoSpaces : List Label :=
  waitSteps 2 4096 ++ waitSteps 1 4096 ++
    [.store 1 4096 1, .futex 3 true 4096 futexWakeCmd 1 false 0, .wakeLock 3]

theorem twoSpaces_replays : (replay (fun _ _ => True) exec boot twoSpaces).isSome := by
  decide +kernel

/-- The state before the walk. -/
def beforeWalk : State := (replay (fun _ _ => True) exec boot twoSpaces).get twoSpaces_replays

theorem twoSpaces_run : Run Step boot twoSpaces beforeWalk :=
  (run_of_replay (Option.some_get twoSpaces_replays).symm).mono fun _ _ _ hstep => hstep.2

theorem beforeWalk_step : Step beforeWalk (.wakeMatching 3) (wakeMatching 3 4096 1 beforeWalk) := by
  have hpc : beforeWalk.pc 3 = .walking 4096 1 := by decide +kernel
  dsimp only [Step, exec]
  rw [hpc]

theorem futexWake_exact_twoSpaces :
    Initial boot ∧ Run Step boot twoSpaces beforeWalk ∧
      Wakes beforeWalk (wakeMatching 3 4096 1 beforeWalk) 3 (sleepers beforeWalk 4096) 1 :=
  ⟨boot_initial, twoSpaces_run,
    (futexWake_exact boot boot_initial _ _ twoSpaces_run).1 3 4096 1 _ (by decide +kernel)
      beforeWalk_step⟩

/-- The key is the address alone, and a sleeper of another address space is woken. -/
theorem futexWake_crosses :
    ¬ ∀ (s₀ : State), Initial s₀ → ∀ labs s, Run Step s₀ labs s → ∀ t uaddr nr s',
      s.pc t = .walking uaddr nr → Step s (.wakeMatching t) s' →
      Wakes s s' t (sleepers s uaddr ∩ { u | s.mm u = s.mm t }) nr.toNat := by
  intro h
  have hwakes := h boot boot_initial _ _ twoSpaces_run 3 4096 1 _ (by decide +kernel)
    beforeWalk_step
  have hwoken : 2 ∈ wakened beforeWalk (wakeMatching 3 4096 1 beforeWalk) :=
    ⟨by decide +kernel, by decide +kernel⟩
  have hspace : beforeWalk.mm 2 = beforeWalk.mm 3 := (hwakes.only hwoken).2
  exact absurd hspace (by decide +kernel)

end Mario.Kernel.Futex
