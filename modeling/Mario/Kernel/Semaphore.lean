import Mario.Kernel.Task
import Mario.Lib.Runs

/-!
# `down` and `up`

Any number of tasks on one semaphore of `init_MUTEX`. The steps are the accesses of `down`,
`sleep_on` and `up` to the semaphore, to its wait queue and to the states of the tasks. A task
that sleeps comes back from `schedule` when it is `TASK_RUNNING` again, whoever made it so, and
`down` takes that for the ownership. So it matters who else calls `wake_up_process`.
-/

namespace Mario.Kernel.Semaphore

open Mario.Lib Function

/-- Where a task is in `down` or `up`. -/
inductive Pc
  | out
  /-- In `down`: the count was positive, and the lock is still held. -/
  | taken
  /-- In `down`: the count was not positive. -/
  | mustSleep
  /-- In `sleep_on`: the state is set. -/
  | stateSet
  /-- In `sleep_on`: the task is on the wait queue. -/
  | queued
  /-- In `schedule`, without the lock. -/
  | asleep
  /-- Back from `schedule`. -/
  | woken
  /-- Between the return of `down` and `up`. -/
  | holding
  /-- In `up`: there are waiters. -/
  | waking
  /-- In `up`: the lock is still held. -/
  | upDone
  deriving DecidableEq

structure State where
  count : ℤ
  /-- Who holds `sem->lock`. -/
  lock : Option ℕ
  /-- `sem->wait`. -/
  queue : List ℕ
  state : ℕ → TaskState
  pc : ℕ → Pc

/-- The steps of a task, and what the rest of the kernel does to it. -/
inductive Label
  | down (t : ℕ)
  | setSleeping (t : ℕ)
  | inWaitQueue (t : ℕ)
  | releaseLock (t : ℕ)
  /-- `schedule` returns. -/
  | resume (t : ℕ)
  | outWaitQueue (t : ℕ)
  | up (t : ℕ)
  | wakeUp1st (t : ℕ)
  /-- `wake_up_process` on the task, from anywhere else. -/
  | wakeUpProcess (t : ℕ)
  /-- The task changes its state outside of `down` and `up`. -/
  | setState (t : ℕ) (st : TaskState)
  deriving DecidableEq

def setPc (t : ℕ) (pc : Pc) (s : State) : State := { s with pc := update s.pc t pc }

def setState (t : ℕ) (st : TaskState) (s : State) : State :=
  { s with state := update s.state t st }

def wakeUpProcess (t : ℕ) (s : State) : State := setState t .running s

/-- Where a task goes when it releases the lock. -/
def afterRelease : Pc → Option Pc
  | .taken => some .holding
  | .queued => some .asleep
  | .upDone => some .out
  | _ => none

def exec (s : State) : Label → Option State
  | .down t =>
      if s.pc t = .out ∧ s.lock = none then
        some (setPc t (if s.count - 1 < 0 then .mustSleep else .taken)
          { s with lock := some t, count := s.count - 1 })
      else none
  | .setSleeping t =>
      if s.pc t = .mustSleep then
        some (setPc t .stateSet (setState t .uninterruptible s))
      else none
  | .inWaitQueue t =>
      if s.pc t = .stateSet then some (setPc t .queued { s with queue := s.queue ++ [t] }) else none
  | .releaseLock t => (afterRelease (s.pc t)).map fun pc => setPc t pc { s with lock := none }
  | .resume t =>
      if s.pc t = .asleep ∧ s.state t = .running then some (setPc t .woken s) else none
  | .outWaitQueue t =>
      if s.pc t = .woken then some (setPc t .holding { s with queue := s.queue.erase t }) else none
  | .up t =>
      if s.pc t = .holding ∧ s.lock = none then
        some (setPc t (if s.count + 1 ≤ 0 then .waking else .upDone)
          { s with lock := some t, count := s.count + 1 })
      else none
  | .wakeUp1st t =>
      if s.pc t = .waking then
        some (setPc t .upDone (s.queue.head?.elim s fun h => wakeUpProcess h s))
      else none
  | .wakeUpProcess t => some (wakeUpProcess t s)
  | .setState t st =>
      if s.pc t = .out ∨ s.pc t = .holding then some (setState t st s) else none

def Step (s : State) (a : Label) (s' : State) : Prop := exec s a = some s'

/-- `init_MUTEX`. -/
structure Initial (s : State) : Prop where
  count : s.count = 1
  lock : s.lock = none
  queue : s.queue = []
  pc : ∀ t, s.pc t = .out

/-- No other `wake_up_process` meets a task that waits in `down`. -/
def Good (s : State) : Label → Prop
  | .wakeUpProcess t =>
      s.state t = .running ∨ ¬ (s.pc t = .stateSet ∨ s.pc t = .queued ∨ s.pc t = .asleep)
  | _ => True

instance (s : State) : ∀ a, Decidable (Good s a)
  | .wakeUpProcess t => inferInstanceAs (Decidable
      (s.state t = .running ∨ ¬ (s.pc t = .stateSet ∨ s.pc t = .queued ∨ s.pc t = .asleep)))
  | .down _ | .setSleeping _ | .inWaitQueue _ | .releaseLock _ | .resume _ | .outWaitQueue _
  | .up _ | .wakeUp1st _ | .setState _ _ => isTrue trivial

/-- The task owns the semaphore, from `down` up to the wake-up in `up`. -/
def Owner (s : State) (t : ℕ) : Prop :=
  s.pc t = .taken ∨ s.pc t = .holding ∨ s.pc t = .waking

/-- The task waits in `down` and has been woken. -/
def Woken (s : State) (t : ℕ) : Prop :=
  s.pc t = .woken ∨ s.pc t = .asleep ∧ s.state t = .running

/-- At most one task is between `down` and `up`, and a task sleeps in `down` only while there
is an owner or a woken waiter. -/
structure Exclusive (s : State) : Prop where
  one : ∀ t u, s.pc t = .holding → s.pc u = .holding → t = u
  awake : (∀ t, ¬ Owner s t) → (∀ t, ¬ Woken s t) → ∀ t, s.pc t ≠ .asleep

/-! ## The invariant -/

/-- A task has the lock in order to sleep. -/
def entering (s : State) : Bool :=
  s.lock.any fun t => decide (s.pc t = .mustSleep ∨ s.pc t = .stateSet)

/-- A task has the lock in order to wake another one. -/
def wakesUp (s : State) : Bool := s.lock.any fun t => decide (s.pc t = .waking)

/-- The places where the lock is held. -/
def locks : Pc → Bool
  | .taken | .mustSleep | .stateSet | .queued | .waking | .upDone => true
  | _ => false

/-- The owner, or the waiter that has been woken to be the owner, and the other waiters. -/
structure Inv (s : State) (o : Option ℕ) (ws : List ℕ) : Prop where
  granted : ∀ t, o = some t → Woken s t → s.queue = t :: ws
  queue : (∀ t, o = some t → ¬ Woken s t) → s.queue = ws
  nodup : ws.Nodup
  waits : ∀ t ∈ ws, s.state t = .uninterruptible ∧ (s.pc t = .asleep ∨ s.pc t = .queued)
  sleeps : ∀ t, s.pc t = .stateSet → s.state t = .uninterruptible
  owner : ∀ t, o = some t → Owner s t ∨ Woken s t
  other : ∀ t, o ≠ some t → t ∉ ws →
    s.pc t = .out ∨ s.pc t = .upDone ∨ s.pc t = .mustSleep ∨ s.pc t = .stateSet
  lock : ∀ t, locks (s.pc t) = true → s.lock = some t
  wakes : ∀ t, s.pc t = .waking → ws ≠ []
  count : s.count = 1 - o.toList.length - ws.length - (entering s).toNat + (wakesUp s).toNat
  owned : ws ≠ [] ∨ entering s = true → o.isSome

variable {s s' : State} {o : Option ℕ} {ws : List ℕ} {t u : ℕ} {pc : Pc}

@[simp, grind =]
theorem setPc_pc (t : ℕ) (pc : Pc) (s : State) (u : ℕ) :
    (setPc t pc s).pc u = if u = t then pc else s.pc u := update_apply ..

@[simp, grind =]
theorem setPc_state : (setPc t pc s).state u = s.state u := rfl

@[simp, grind =]
theorem setPc_queue : (setPc t pc s).queue = s.queue := rfl

@[simp, grind =]
theorem setPc_lock : (setPc t pc s).lock = s.lock := rfl

@[simp, grind =]
theorem setPc_count : (setPc t pc s).count = s.count := rfl

variable {st : TaskState}

@[simp, grind =]
theorem setState_state (t : ℕ) (st : TaskState) (s : State) (u : ℕ) :
    (setState t st s).state u = if u = t then st else s.state u := update_apply ..

@[simp, grind =]
theorem setState_pc : (setState t st s).pc u = s.pc u := rfl

@[simp, grind =]
theorem setState_queue : (setState t st s).queue = s.queue := rfl

@[simp, grind =]
theorem setState_lock : (setState t st s).lock = s.lock := rfl

@[simp, grind =]
theorem setState_count : (setState t st s).count = s.count := rfl

/-- With the lock free nobody is on the way into the queue. -/
theorem entering_none (h : s.lock = none) : entering s = false := by
  unfold entering
  rw [h]
  rfl

/-- With the lock free nobody is about to wake a waiter. -/
theorem wakesUp_none (h : s.lock = none) : wakesUp s = false := by
  unfold wakesUp
  rw [h]
  rfl

theorem entering_setPc (h : s.pc t ≠ .mustSleep ∧ s.pc t ≠ .stateSet)
    (h' : pc ≠ .mustSleep ∧ pc ≠ .stateSet) : entering (setPc t pc s) = entering s := by
  unfold entering
  rw [setPc_lock]
  cases s.lock with
  | none => rfl
  | some u =>
    rw [Option.any_some, Option.any_some, setPc_pc]
    by_cases hut : u = t
    · rw [if_pos hut, hut, decide_eq_false (by tauto), decide_eq_false (by tauto)]
    · rw [if_neg hut]

theorem wakesUp_setPc (h : s.pc t ≠ .waking) (h' : pc ≠ .waking) : wakesUp (setPc t pc s) = wakesUp s := by
  unfold wakesUp
  rw [setPc_lock]
  cases s.lock with
  | none => rfl
  | some u =>
    rw [Option.any_some, Option.any_some, setPc_pc]
    by_cases hut : u = t
    · rw [if_pos hut, hut, decide_eq_false h, decide_eq_false h']
    · rw [if_neg hut]

/-- A task that is neither in its section nor woken for it is not the owner. -/
theorem Inv.not_owner (h : Inv s o ws) (hpc : ¬ Owner s t) (hwoken : ¬ Woken s t) : o ≠ some t := by
  intro ho
  exact (h.owner t ho).elim hpc hwoken

/-- Only tasks that sleep or are about to wait. -/
theorem Inv.not_waits (h : Inv s o ws) (hpc : s.pc t ≠ .asleep ∧ s.pc t ≠ .queued) : t ∉ ws := by
  intro hin
  exact (h.waits t hin).2.elim hpc.1 hpc.2

/-- `down` makes the task the owner when the count was positive, and else a waiter to be. -/
theorem Inv.down (h : Inv s o ws) (hpc : s.pc t = .out) (hlock : s.lock = none) :
    ∃ o' ws', Inv (setPc t (if s.count - 1 < 0 then .mustSleep else .taken)
          { s with lock := some t, count := s.count - 1 }) o' ws' := by
  have hcount := h.count
  rw [entering_none hlock, wakesUp_none hlock] at hcount
  have hout : o ≠ some t := h.not_owner (by simp [Owner, hpc]) (by simp [Woken, hpc])
  have hnot : t ∉ ws := h.not_waits (by simp [hpc])
  obtain ⟨hgranted, hqueue, hnodup, hwaits, hsleeps, howner, hother, hlocked, hwakes, -, howned⟩ := h
  by_cases hneg : s.count - 1 < 0
  · rw [if_pos hneg]
    refine ⟨o, ws, ?_⟩
    constructor
    all_goals grind [Owner, Woken, locks, entering, wakesUp]
  · have hnone : o = none := by
      cases o with
      | none => rfl
      | some g =>
        simp at hcount
        omega
    have hnil : ws = [] := by
      by_contra hne
      simpa [hnone] using howned (Or.inl hne)
    subst hnone hnil
    rw [if_neg hneg]
    refine ⟨some t, [], ?_⟩
    constructor
    all_goals grind [Owner, Woken, locks, entering, wakesUp]

theorem Inv.setSleeping (h : Inv s o ws) (hpc : s.pc t = .mustSleep) :
    Inv (setPc t .stateSet (setState t .uninterruptible s)) o ws := by
  have hlock : s.lock = some t := h.lock t (by rw [hpc]; rfl)
  have hout : o ≠ some t := h.not_owner (by simp [Owner, hpc]) (by simp [Woken, hpc])
  have hnot : t ∉ ws := h.not_waits (by simp [hpc])
  obtain ⟨hgranted, hqueue, hnodup, hwaits, hsleeps, howner, hother, hlocked, hwakes, hcount, howned⟩ := h
  constructor
  all_goals grind [Owner, Woken, locks, entering, wakesUp]

/-- The task is the last of the waiters. -/
theorem Inv.inWaitQueue (h : Inv s o ws) (hpc : s.pc t = .stateSet) :
    Inv (setPc t .queued { s with queue := s.queue ++ [t] }) o (ws ++ [t]) := by
  have hlock : s.lock = some t := h.lock t (by rw [hpc]; rfl)
  have hout : o ≠ some t := h.not_owner (by simp [Owner, hpc]) (by simp [Woken, hpc])
  have hnot : t ∉ ws := h.not_waits (by simp [hpc])
  have hstate := h.sleeps t hpc
  have hne : ws ++ [t] ≠ [] := List.concat_ne_nil t ws
  obtain ⟨hgranted, hqueue, hnodup, hwaits, hsleeps, howner, hother, hlocked, hwakes, hcount, howned⟩ := h
  constructor
  all_goals grind [Owner, Woken, locks, entering, wakesUp]

theorem afterRelease_cases {p : Pc} (h : afterRelease p = some pc) :
    p = .taken ∧ pc = .holding ∨ p = .queued ∧ pc = .asleep ∨ p = .upDone ∧ pc = .out := by
  cases p
  all_goals simp_all [afterRelease]

/-- The lock is given back at the end of a section. -/
theorem Inv.releaseLock (h : Inv s o ws) (hpc : afterRelease (s.pc t) = some pc) :
    Inv (setPc t pc { s with lock := none }) o ws := by
  have hpcs := afterRelease_cases hpc
  have hlock : s.lock = some t := h.lock t (by grind [locks])
  obtain ⟨hgranted, hqueue, hnodup, hwaits, hsleeps, howner, hother, hlocked, hwakes, hcount, howned⟩ := h
  constructor
  all_goals grind [Owner, Woken, locks, entering, wakesUp]

/-- A waiter that runs again has been woken by the owner before it. -/
theorem Inv.resume (h : Inv s o ws) (hpc : s.pc t = .asleep) (hrun : s.state t = .running) :
    Inv (setPc t .woken s) o ws := by
  have hnot : t ∉ ws := by
    intro hin
    have := (h.waits t hin).1
    rw [hrun] at this
    cases this
  have henter : entering (setPc t .woken s) = entering s :=
    entering_setPc (by simp [hpc]) (by simp)
  have hwake : wakesUp (setPc t .woken s) = wakesUp s := wakesUp_setPc (by simp [hpc]) (by simp)
  obtain ⟨hgranted, hqueue, hnodup, hwaits, hsleeps, howner, hother, hlocked, hwakes, hcount, howned⟩ := h
  constructor
  all_goals grind [Owner, Woken, locks]

/-- The new owner leaves the queue. -/
theorem Inv.outWaitQueue (h : Inv s o ws) (hpc : s.pc t = .woken) :
    Inv (setPc t .holding { s with queue := s.queue.erase t }) o ws := by
  have hnot : t ∉ ws := h.not_waits (by simp [hpc])
  have hown : o = some t := by
    by_contra hne
    have := h.other t hne hnot
    simp [hpc] at this
  have hqueue : s.queue.erase t = ws := by
    rw [h.granted t hown (Or.inl hpc), List.erase_cons_head]
  have henter : entering (setPc t .holding { s with queue := s.queue.erase t }) = entering s :=
    entering_setPc (s := { s with queue := s.queue.erase t }) (by simp [hpc]) (by simp)
  have hwake : wakesUp (setPc t .holding { s with queue := s.queue.erase t }) = wakesUp s :=
    wakesUp_setPc (s := { s with queue := s.queue.erase t }) (by simp [hpc]) (by simp)
  obtain ⟨hgranted, -, hnodup, hwaits, hsleeps, howner, hother, hlocked, hwakes, hcount, howned⟩ := h
  constructor
  all_goals grind [Owner, Woken, locks]

/-- `up` leaves the semaphore without an owner, and has somebody to wake when there are waiters. -/
theorem Inv.up (h : Inv s o ws) (hpc : s.pc t = .holding) (hlock : s.lock = none) :
    ∃ o' ws', Inv (setPc t (if s.count + 1 ≤ 0 then .waking else .upDone)
          { s with lock := some t, count := s.count + 1 }) o' ws' := by
  have hnot : t ∉ ws := h.not_waits (by simp [hpc])
  have hown : o = some t := by
    by_contra hne
    have := h.other t hne hnot
    simp [hpc] at this
  have hcount := h.count
  rw [entering_none hlock, wakesUp_none hlock, hown] at hcount
  simp at hcount
  obtain ⟨hgranted, hqueue, hnodup, hwaits, hsleeps, howner, hother, hlocked, hwakes, -, howned⟩ := h
  by_cases hle : s.count + 1 ≤ 0
  · rw [if_pos hle]
    refine ⟨o, ws, ?_⟩
    have hne : ws ≠ [] := by
      rintro rfl
      simp at hcount
      omega
    constructor
    all_goals grind [Owner, Woken, locks, entering, wakesUp]
  · rw [if_neg hle]
    have hnil : ws = [] := by
      apply List.eq_nil_of_length_eq_zero
      omega
    refine ⟨none, [], ?_⟩
    constructor
    all_goals grind [Owner, Woken, locks, entering, wakesUp]

/-- The first waiter that sleeps becomes the owner. -/
theorem Inv.wakeUp1st (h : Inv s o ws) (hpc : s.pc t = .waking) :
    ∃ o' ws', Inv (setPc t .upDone (s.queue.head?.elim s fun h => wakeUpProcess h s)) o' ws' := by
  have hlock : s.lock = some t := h.lock t (by rw [hpc]; rfl)
  have hnot : t ∉ ws := h.not_waits (by simp [hpc])
  have hown : o = some t := by
    by_contra hne
    have := h.other t hne hnot
    simp [hpc] at this
  obtain ⟨g, rest, rfl⟩ := List.exists_cons_of_ne_nil (h.wakes t hpc)
  have hqueue : s.queue = g :: rest := by
    apply h.queue
    intro u hu hwoken
    obtain rfl := Option.some.inj (hown.symm.trans hu)
    simp [Woken, hpc] at hwoken
  have hg := h.waits g List.mem_cons_self
  have hgt : g ≠ t := fun heq => hnot (heq ▸ List.mem_cons_self)
  have hasleep : s.pc g = .asleep := by
    refine hg.2.resolve_right fun hq => hgt ?_
    exact Option.some.inj ((h.lock g (by rw [hq]; rfl)).symm.trans hlock)
  rw [hqueue]
  refine ⟨some g, rest, ?_⟩
  simp only [List.head?_cons, Option.elim_some, wakeUpProcess]
  obtain ⟨hgranted, -, hnodup, hwaits, hsleeps, howner, hother, hlocked, hwakes, hcount, howned⟩ := h
  constructor
  all_goals grind [Owner, Woken, locks, entering, wakesUp]

/-- The state of a task changes that does not wait, or it becomes what it was. -/
theorem Inv.setState (h : Inv s o ws)
    (hgood : s.state t = st ∨ ¬ (s.pc t = .stateSet ∨ s.pc t = .queued ∨ s.pc t = .asleep)) :
    Inv (setState t st s) o ws := by
  have henter : entering (Semaphore.setState t st s) = entering s := rfl
  have hwake : wakesUp (Semaphore.setState t st s) = wakesUp s := rfl
  obtain ⟨hgranted, hqueue, hnodup, hwaits, hsleeps, howner, hother, hlocked, hwakes, hcount, howned⟩ := h
  constructor
  all_goals grind [Owner, Woken, locks]

/-! ## Runs -/

/-- Each step that meets the condition keeps the invariant, for some owner and waiters. -/
theorem Inv.step {a : Label} (h : Inv s o ws) (hgood : Good s a) (hstep : Step s a s') : ∃ o' ws', Inv s' o' ws' := by
  cases a with
  | down t =>
    dsimp only [Step, exec] at hstep
    by_cases hpc : s.pc t = .out ∧ s.lock = none
    · rw [if_pos hpc] at hstep
      cases hstep
      exact h.down hpc.1 hpc.2
    · rw [if_neg hpc] at hstep
      cases hstep
  | setSleeping t =>
    dsimp only [Step, exec] at hstep
    split_ifs at hstep with hpc
    cases hstep
    exact ⟨o, ws, h.setSleeping hpc⟩
  | inWaitQueue t =>
    dsimp only [Step, exec] at hstep
    split_ifs at hstep with hpc
    cases hstep
    exact ⟨o, ws ++ [t], h.inWaitQueue hpc⟩
  | releaseLock t =>
    obtain ⟨pc, hpc, rfl⟩ := Option.map_eq_some_iff.mp hstep
    exact ⟨o, ws, h.releaseLock hpc⟩
  | resume t =>
    dsimp only [Step, exec] at hstep
    split_ifs at hstep with hpc
    cases hstep
    exact ⟨o, ws, h.resume hpc.1 hpc.2⟩
  | outWaitQueue t =>
    dsimp only [Step, exec] at hstep
    split_ifs at hstep with hpc
    cases hstep
    exact ⟨o, ws, h.outWaitQueue hpc⟩
  | up t =>
    dsimp only [Step, exec] at hstep
    by_cases hpc : s.pc t = .holding ∧ s.lock = none
    · rw [if_pos hpc] at hstep
      cases hstep
      exact h.up hpc.1 hpc.2
    · rw [if_neg hpc] at hstep
      cases hstep
  | wakeUp1st t =>
    dsimp only [Step, exec] at hstep
    split_ifs at hstep with hpc
    cases hstep
    exact h.wakeUp1st hpc
  | wakeUpProcess t =>
    cases hstep
    exact ⟨o, ws, h.setState hgood⟩
  | setState t st =>
    dsimp only [Step, exec] at hstep
    split_ifs at hstep with hpc
    cases hstep
    refine ⟨o, ws, h.setState (Or.inr ?_)⟩
    rcases hpc with hpc | hpc
    · simp [hpc]
    · simp [hpc]

theorem Initial.inv (h : Initial s) : Inv s none [] := by
  obtain ⟨hcount, hlock, hqueue, hpc⟩ := h
  constructor
  all_goals grind [locks, entering, wakesUp]

/-- There is one owner. -/
theorem Inv.exclusive (h : Inv s o ws) : Exclusive s := by
  have howner : ∀ t, s.pc t = .holding → o = some t := by
    intro t hpc
    by_contra hne
    have hother := h.other t hne (h.not_waits (by simp [hpc]))
    simp [hpc] at hother
  constructor
  · intro t u ht hu
    exact Option.some.inj ((howner t ht).symm.trans (howner u hu))
  · intro hnone hasleep t hpc
    have ho : o = none := by
      cases o with
      | none => rfl
      | some g => exact absurd (h.owner g rfl) (not_or.mpr ⟨hnone g, hasleep g⟩)
    have hws : ws = [] := by
      by_contra hne
      have hsome := h.owned (Or.inl hne)
      rw [ho] at hsome
      cases hsome
    have hother := h.other t (by simp [ho]) (by simp [hws])
    simp [hpc] at hother

/-- In every run in which nobody else wakes a waiter, the semaphore is a mutex, and no waiter
is forgotten. -/
theorem mutex_exclusive (s₀ : State) (hinit : Initial s₀) (labs : List Label) (s : State)
    (hrun : Run (Guarded Good Step) s₀ labs s) : Exclusive s := by
  have hinv : ∃ o ws, Inv s o ws := by
    refine hrun.invariant (P := fun s => ∃ o ws, Inv s o ws) ⟨none, [], hinit.inv⟩ ?_
    rintro u v a ⟨o, ws, hu⟩ hstep
    exact hu.step hstep.1 hstep.2
  obtain ⟨o, ws, hinv⟩ := hinv
  exact hinv.exclusive

/-- The semaphore after `init_MUTEX`. -/
def initMutex : State :=
  { count := 1, lock := none, queue := [], state := fun _ => .running, pc := fun _ => .out }

theorem initMutex_initial : Initial initMutex := ⟨rfl, rfl, rfl, fun _ => rfl⟩

/-- Task 1 takes the semaphore, and task 2 waits for it. -/
def contended : List Label :=
  [.down 1, .releaseLock 1, .down 2, .setSleeping 2, .inWaitQueue 2, .releaseLock 2]

/-- The semaphore is handed over. -/
def handover : List Label :=
  contended ++ [.up 1, .wakeUp1st 1, .releaseLock 1, .resume 2, .outWaitQueue 2]

theorem handover_replays : (replay Good exec initMutex handover).isSome := by
  decide +kernel

/-- The second task waits for the first and gets the semaphore. -/
theorem mutex_exclusive_handover :
    Initial initMutex ∧ ∃ s, Run (Guarded Good Step) initMutex handover s ∧ s.pc 2 = .holding ∧
      Exclusive s := by
  have hrun : Run (Guarded Good Step) initMutex handover
      ((replay Good exec initMutex handover).get handover_replays) :=
    run_of_replay (Option.some_get handover_replays).symm
  exact ⟨initMutex_initial, _, hrun, by decide +kernel,
    mutex_exclusive initMutex initMutex_initial _ _ hrun⟩

/-- `sys_exit_group` wakes task 2. -/
def intruder : List Label := contended ++ [.wakeUpProcess 2, .resume 2, .outWaitQueue 2]

theorem intruder_replays : (replay (fun _ _ => True) exec initMutex intruder).isSome := by
  decide +kernel

/-- A waiter that somebody else wakes goes on as if it were the owner. -/
theorem mutex_shared :
    ¬ ∀ (s₀ : State), Initial s₀ → ∀ labs s, Run Step s₀ labs s → Exclusive s := by
  intro h
  have hrun : Run (Partial (fun _ _ => True) exec) initMutex intruder
      ((replay (fun _ _ => True) exec initMutex intruder).get intruder_replays) :=
    run_of_replay (Option.some_get intruder_replays).symm
  have hexclusive := h initMutex initMutex_initial _ _ (hrun.mono fun _ _ _ hstep => hstep.2)
  exact absurd (hexclusive.one 1 2 (by decide +kernel) (by decide +kernel)) (by decide)

/-! ## Progress -/

/-- A step of a task that is in `down` or `up` or has the semaphore. -/
def Label.goesOn : Label → Bool
  | .down _ | .wakeUpProcess _ | .setState _ _ => false
  | _ => true

/-- The semaphore is free, or some task can go on. -/
def Live (s : State) : Prop :=
  (∀ t, s.pc t = .out) ∧ s.count = 1 ∧ s.lock = none ∧ s.queue = [] ∨ ∃ a s', a.goesOn = true ∧ Step s a s'

/-- Whoever has the lock is at a place where it is held. -/
def Locked (s : State) : Prop := ∀ t, s.lock = some t → locks (s.pc t) = true

/-- Each step keeps the lock with a task in its section. -/
theorem Locked.step {a : Label} (h : Locked s) (hstep : Step s a s') : Locked s' := by
  unfold Locked at *
  cases a with
  | releaseLock t =>
    obtain ⟨pc, -, rfl⟩ := Option.map_eq_some_iff.mp hstep
    rintro u ⟨⟩
  | _ =>
    dsimp only [Step, exec] at hstep
    cases hhead : s.queue.head? <;> grind [locks, wakeUpProcess]

/-- From the invariant: the task with the lock, the owner or a task that waits can go on. -/
theorem Inv.live (h : Inv s o ws) (hlocked : Locked s) : Live s := by
  by_contra hlive
  have hstuck : ∀ a, a.goesOn = true → exec s a = none := fun a ha =>
    Option.eq_none_iff_forall_ne_some.mpr fun s' hs => hlive (Or.inr ⟨a, s', ha, hs⟩)
  have hlock : s.lock = none := by
    by_contra hsome
    obtain ⟨l, hl⟩ := Option.ne_none_iff_exists'.mp hsome
    have hpc := hlocked l hl
    cases hplace : s.pc l <;> simp [hplace, locks] at hpc
    case mustSleep => simpa [exec, hplace] using hstuck (.setSleeping l) rfl
    case stateSet => simpa [exec, hplace] using hstuck (.inWaitQueue l) rfl
    case waking => simpa [exec, hplace] using hstuck (.wakeUp1st l) rfl
    all_goals simpa [exec, hplace, afterRelease] using hstuck (.releaseLock l) rfl
  have hnot : ∀ t, locks (s.pc t) = false := fun t =>
    Bool.eq_false_iff.mpr fun ht => by cases hlock.symm.trans (h.lock t ht)
  have ho : o = none := by
    by_contra hsome
    obtain ⟨g, rfl⟩ := Option.ne_none_iff_exists'.mp hsome
    rcases h.owner g rfl with (hpc | hpc | hpc) | (hpc | hpc)
    · simpa [hpc, locks] using hnot g
    · simpa [exec, hpc, hlock] using hstuck (.up g) rfl
    · simpa [hpc, locks] using hnot g
    · simpa [exec, hpc] using hstuck (.outWaitQueue g) rfl
    · simpa [exec, hpc] using hstuck (.resume g) rfl
  have hws : ws = [] := by
    by_contra hne
    cases ho ▸ h.owned (Or.inl hne)
  have hcount := h.count
  rw [entering_none hlock, wakesUp_none hlock, ho, hws] at hcount
  refine hlive (Or.inl ⟨fun t => ?_, by simpa using hcount, hlock, (h.queue (by simp [ho])).trans hws⟩)
  grind [h.other t (by simp [ho]) (by simp [hws]), hnot t, locks]

/-- In every run in which nobody else wakes a waiter, the tasks never block each other for good. -/
theorem semaphore_live (s₀ : State) (hinit : Initial s₀) (labs : List Label) (s : State)
    (hrun : Run (Guarded Good Step) s₀ labs s) : Live s := by
  obtain ⟨⟨o, ws, h⟩, hlocked⟩ : (∃ o ws, Inv s o ws) ∧ Locked s := by
    refine hrun.invariant (P := fun s => (∃ o ws, Inv s o ws) ∧ Locked s)
      ⟨⟨none, [], hinit.inv⟩, fun t ht => by rw [hinit.lock] at ht; cases ht⟩ ?_
    rintro u v a ⟨⟨o, ws, hu⟩, hlocked⟩ hstep
    exact ⟨hu.step hstep.1 hstep.2, hlocked.step hstep.2⟩
  exact h.live hlocked

theorem semaphore_live_handover : ∃ s, Run (Guarded Good Step) initMutex handover s ∧ Live s := by
  have hrun : Run (Guarded Good Step) initMutex handover _ := run_of_replay (Option.some_get handover_replays).symm
  exact ⟨_, hrun, semaphore_live initMutex initMutex_initial _ _ hrun⟩

end Mario.Kernel.Semaphore
