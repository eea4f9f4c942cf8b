import Mario.Kernel.Reap

/-!
# Waiting for children

One task in `sys_waitpid`, and the exits and stops of its children. A child that is gone notifies
its parent from `_switch_to`: it sends a signal, tests the state of the waiter, and wakes it if it
sleeps. The waiter looks at its children first and sets its state then. The list of children can
grow at any time, since init inherits.
-/

namespace Mario.Kernel.WaitNotify

open Mario.Lib Function

/-- How far `notify_parent` is. -/
inductive Stage
  /-- `send_sig` is next. -/
  | signal
  /-- `wake_up` tests the state of the waiter next. -/
  | test
  /-- `wake_up_process` is next. -/
  | wake
  deriving DecidableEq

inductive ChildPc
  | running
  /-- In `do_signal`, stopped: it notifies its parent. -/
  | stopping (stage : Stage)
  /-- Stopped, in `schedule`. -/
  | stopped
  /-- In `do_exit`: the state is set. -/
  | zombie (code : ℕ)
  /-- In the last call of `schedule`. -/
  | last
  /-- Switched away from and parked: `_switch_to` notifies the parent. -/
  | parked (stage : Stage)
  /-- `notify_parent` has completed. -/
  | notified
  deriving DecidableEq

structure Child where
  state : TaskState
  exitCode : ℕ
  exitSignal : ℕ
  pgrp : ℤ
  parked : Bool
  pc : ChildPc
  deriving DecidableEq

inductive Pc
  | user
  /-- In `sys_waitpid`: these children are still to be looked at. -/
  | scan (rest : List ℕ) (flag : Bool)
  /-- The children were looked at, and the state is to be set. -/
  | mustSleep
  /-- The state is `TASK_INTERRUPTIBLE`, and `schedule` is called. -/
  | stateSet
  /-- Switched away from. -/
  | asleep
  /-- Back from `schedule`. -/
  | woken
  /-- On the way out. -/
  | tail
  deriving DecidableEq

structure State where
  task : Task
  pgrp : ℤ
  /-- The waiter is init. -/
  isInit : Bool
  /-- The arguments of `sys_waitpid`. -/
  pid : ℤ
  wnohang : Bool
  pc : Pc
  child : ℕ → Child
  /-- The list that starts at `p_cptr`. -/
  children : List ℕ

def saNocldstop : Word := 1

/-- The child is one that the waiter asks for. -/
def Matches (s : State) (c : ℕ) : Prop := waitMatches s.pid s.pgrp c (s.child c).pgrp = true

instance (s : State) (c : ℕ) : Decidable (Matches s c) := instDecidableEqBool _ _

def setChild (c : ℕ) (ch : Child) (s : State) : State :=
  { s with child := update s.child c ch }

def setState (st : TaskState) (s : State) : State := { s with task := { s.task with state := st } }

/-- `wake_up_process` on the waiter. -/
def wakeUpProcess (s : State) : State :=
  { s with task := { s.task with state := .running, onRunqueue := true } }

/-- `sys_waitpid` looks at a child. -/
def look (c : ℕ) (rest : List ℕ) (flag : Bool) (s : State) : State :=
  let ch := s.child c
  if Matches s c then
    if ch.state = .stopped then
      if ch.exitCode = 0 then { s with pc := .scan rest true }
      else { setChild c { ch with exitCode := 0 } s with pc := .tail }
    else if ch.state = .zombie then { s with children := s.children.erase c, pc := .tail }
    else { s with pc := .scan rest true }
  else { s with pc := .scan rest flag }

/-- What `notify_parent` does next, and how far it is then. There is no further stage at its
end. -/
def notifyParent (c : ℕ) (s : State) : Stage → State × Option Stage
  | .signal =>
      let sig := if s.isInit then sigchld else (s.child c).exitSignal
      ({ setChild c { s.child c with exitSignal := sig } s with task := sendSig sig s.task },
        some .test)
  | .test =>
      -- The waiter is on the queue from the start of `sys_waitpid` to its end.
      let sleeps := s.task.state = .interruptible ∨ s.task.state = .uninterruptible
      (s, if s.pc ≠ .user ∧ sleeps then some .wake else none)
  | .wake => (wakeUpProcess s, none)

/-- `schedule`, called by the waiter. -/
def schedule (s : State) : State :=
  if s.task.state = .running then { s with pc := .woken }
  else if s.task.state = .interruptible ∧ signalPending s.task then
    { setState .running s with pc := .woken }
  else { s with task := { s.task with onRunqueue := false }, pc := .asleep }

/-- `sys_waitpid`, after `schedule`. -/
def afterSchedule (s : State) : State :=
  let task := { s.task with signal := s.task.signal &&& ~~~sigBit sigchld }
  { s with task := task, pc := if signalPending task then .tail else .scan s.children false }

/-- The steps of the waiter, of its children, and of the rest of the system. -/
inductive Label
  | waitpid (pid : ℤ) (wnohang : Bool)
  | look
  | endScan
  | setSleeping
  | schedule
  /-- `schedule` returns. -/
  | resume
  | afterSchedule
  | tail
  /-- A signal to the waiter. -/
  | sendSig (sig : ℕ)
  /-- The waiter changes its own signals. -/
  | setSignals (signal blocked : Word) (sigaction : ℕ → Sigaction)
  /-- `schedule` on some CPU finds the waiter asleep with a signal. -/
  | rescue
  /-- A task that exits has called `notify_parent` for one of its zombies, which may not be parked yet, and the waiter is
  woken. Its signal is one of the others. -/
  | wakeUp
  /-- A new child, of `fork` or of a task that exits. A zombie among them notifies when it is parked. -/
  | adopt (c : ℕ) (ch : Child)
  /-- A child takes a stop signal. -/
  | stop (c sig : ℕ)
  /-- `SIGCONT` to a child. -/
  | cont (c : ℕ)
  /-- The child sets its own state. -/
  | setChildState (c : ℕ) (st : TaskState)
  | exit (c code : ℕ)
  | setExitCode (c : ℕ)
  /-- The last switch of a child, in which it is parked. -/
  | park (c : ℕ)
  | notify (c : ℕ)

/-- A child that can be adopted. The notification of a zombie is still to come. -/
def Adoptable (ch : Child) : Prop :=
  match ch.pc with
  | .running => ch.state ≠ .zombie
  | .zombie _ | .last => ch.state = .zombie ∧ ch.parked = false
  | .parked .signal => ch.state = .zombie ∧ ch.parked = true
  | _ => False

instance (ch : Child) : Decidable (Adoptable ch) := by
  unfold Adoptable
  split <;> infer_instance

def exec (s : State) : Label → Option State
  | .waitpid pid wnohang =>
      if s.pc = .user then
        some { s with pid := pid, wnohang := wnohang, pc := .scan s.children false }
      else none
  | .look =>
      match s.pc with
      | .scan (c :: rest) flag => some (look c rest flag s)
      | _ => none
  | .endScan =>
      match s.pc with
      | .scan [] flag =>
          some { s with pc := if flag = true ∧ s.wnohang = false then .mustSleep else .tail }
      | _ => none
  | .setSleeping =>
      if s.pc = .mustSleep then some { setState .interruptible s with pc := .stateSet } else none
  | .schedule => if s.pc = .stateSet then some (schedule s) else none
  | .resume =>
      if s.pc = .asleep ∧ s.task.state = .running then some { s with pc := .woken } else none
  | .afterSchedule => if s.pc = .woken then some (afterSchedule s) else none
  | .tail => if s.pc = .tail then some { s with pc := .user } else none
  | .sendSig sig => some { s with task := sendSig sig s.task }
  | .setSignals signal blocked sigaction =>
      if s.pc = .user then
        some { s with
          task := { s.task with signal := signal, blocked := blocked, sigaction := sigaction } }
      else none
  | .rescue =>
      if s.pc = .asleep ∧ s.task.state = .interruptible ∧ signalPending s.task then
        some (wakeUpProcess s)
      else none
  | .wakeUp => some (wakeUpProcess s)
  | .adopt c ch =>
      if c ∉ s.children ∧ Adoptable ch then
        some { setChild c ch s with children := c :: s.children }
      else none
  | .stop c sig =>
      if c ∈ s.children ∧ (s.child c).pc = .running then
        let quiet := (s.task.sigaction (sigchld - 1)).saFlags &&& saNocldstop ≠ 0
        some (setChild c { s.child c with
          state := .stopped
          exitCode := sig
          pc := if quiet then .stopped else .stopping .signal } s)
      else none
  | .cont c =>
      if c ∈ s.children ∧ (s.child c).state = .stopped then
        some (setChild c { s.child c with
          state := .running
          exitCode := 0
          pc := if (s.child c).pc = .stopped then .running else (s.child c).pc } s)
      else none
  | .setChildState c st =>
      if c ∈ s.children ∧ (s.child c).pc = .running ∧ st ≠ .zombie then
        some (setChild c { s.child c with state := st } s)
      else none
  | .exit c code =>
      if c ∈ s.children ∧ (s.child c).pc = .running then
        some (setChild c { s.child c with state := .zombie, pc := .zombie code } s)
      else none
  | .setExitCode c =>
      match (s.child c).pc with
      | .zombie code => some (setChild c { s.child c with exitCode := code, pc := .last } s)
      | _ => none
  | .park c =>
      if (s.child c).pc = .last then
        some (setChild c { s.child c with parked := true, pc := .parked .signal } s)
      else none
  | .notify c =>
      match (s.child c).pc with
      | .parked stage =>
          let r := notifyParent c s stage
          some (setChild c { r.1.child c with pc := r.2.elim .notified .parked } r.1)
      | .stopping stage =>
          let r := notifyParent c s stage
          some (setChild c { r.1.child c with
            pc := r.2.elim (if (s.child c).state = .stopped then .stopped else .running)
              .stopping } r.1)
      | _ => none

def Step (s : State) (a : Label) (s' : State) : Prop := exec s a = some s'

/-- The waiter has no children, and it runs its program. -/
structure Initial (s : State) : Prop where
  pc : s.pc = .user
  children : s.children = []
  state : s.task.state = .running
  child : ∀ c, (s.child c).pc = .running

/-- The waiter sleeps in `sys_waitpid`, and a child that it waits for is parked and has notified
it. -/
def Forgotten (s : State) (c : ℕ) : Prop :=
  s.pc = .asleep ∧ s.task.state = .interruptible ∧ s.task.onRunqueue = false ∧
    c ∈ s.children ∧ Matches s c ∧ (s.child c).state = .zombie ∧ (s.child c).parked = true ∧
    (s.child c).pc = .notified

/-- `SIGCHLD` is pending and not blocked. -/
def chldPending (t : Task) : Bool := (t.signal &&& ~~~t.blocked).getLsbD (sigchld - 1)

/-- The waiter has passed the child in this scan, and it has not set its state. -/
def Passed (s : State) (c : ℕ) : Prop :=
  match s.pc with
  | .scan rest _ => c ∉ rest
  | .mustSleep => True
  | _ => False

/-- `notify_parent` of a zombie does not test the state of the waiter between its look at the
child and the change of its state, unless `SIGCHLD` keeps the waiter from sleeping. -/
def Good (s : State) : Label → Prop
  | .notify c => (s.child c).pc = .parked .test → c ∈ s.children → Matches s c → Passed s c →
      chldPending s.task = true
  | _ => True

/-! ## Signals -/

theorem chldPending_iff {t : Task} : chldPending t = true ↔
    t.signal.getLsbD 16 = true ∧ t.blocked.getLsbD 16 = false := by
  unfold chldPending sigchld
  rw [BitVec.getLsbD_and, BitVec.getLsbD_not]
  simp

theorem signalPending_of_chld {t : Task} (h : chldPending t = true) : signalPending t = true := by
  unfold chldPending at h
  unfold signalPending
  rw [bne_iff_ne]
  intro hzero
  rw [hzero] at h
  exact absurd h (by decide)

theorem chldPending_sendSig {sig : ℕ} {t : Task} (h : chldPending t = true) : chldPending (sendSig sig t) = true := by
  have hpost : ∀ t, chldPending t = true → chldPending (postSignal sig t) = true := by
    intro t ht
    unfold postSignal
    dsimp only
    split_ifs
    · exact ht
    · exact ht
    · rw [chldPending_iff] at ht ⊢
      dsimp only
      rw [BitVec.getLsbD_or, ht.1]
      exact ⟨rfl, ht.2⟩
  have hresume : ∀ t, chldPending t = true → chldPending (resumeStopped t) = true := by
    intro t ht
    rw [chldPending_iff] at ht ⊢
    unfold resumeStopped
    dsimp only
    rw [BitVec.getLsbD_and, ht.1]
    exact ⟨by decide, ht.2⟩
  have hdrop : ∀ t, chldPending t = true → chldPending (dropCont t) = true := by
    intro t ht
    rw [chldPending_iff] at ht ⊢
    unfold dropCont
    dsimp only
    rw [BitVec.getLsbD_and, ht.1]
    exact ⟨by decide, ht.2⟩
  unfold sendSig
  dsimp only
  split_ifs
  · exact h
  · exact h
  · exact h
  · exact hpost _ (hdrop _ (hresume _ h))
  · exact hpost _ (hdrop _ h)
  · exact hpost _ (hresume _ h)
  · exact hpost _ h

/-! ## The invariant -/

variable {s s' : State} {c d : ℕ} {ch : Child}

/-- The child has exited. -/
def Exited : ChildPc → Prop
  | .zombie _ | .last | .parked _ | .notified => True
  | _ => False

/-- The test of the waiter's state is over. -/
def Tested : ChildPc → Prop
  | .parked .wake | .notified => True
  | _ => False

theorem Tested.exited {pc : ChildPc} (h : Tested pc) : Exited pc := by
  cases pc with
  | parked stage => trivial
  | notified => trivial
  | _ => exact h.elim

/-- A child that has notified the waiter keeps it from sleeping. -/
structure Inv (s : State) : Prop where
  exited : ∀ c, Exited (s.child c).pc → (s.child c).state = .zombie
  state : s.pc = .stateSet ∨ s.pc = .asleep →
    s.task.state = .interruptible ∨ s.task.state = .running
  passed : ∀ c ∈ s.children, Matches s c → Tested (s.child c).pc → Passed s c →
    chldPending s.task = true
  stateSet : s.pc = .stateSet → ∀ c ∈ s.children, Matches s c → (s.child c).pc = .notified →
    chldPending s.task = true ∨ s.task.state = .running
  asleep : s.pc = .asleep → ∀ c ∈ s.children, Matches s c → (s.child c).pc = .notified →
    s.task.state = .running

theorem Inv.not_forgotten (h : Inv s) (c : ℕ) : ¬ Forgotten s c := by
  rintro ⟨hpc, hstate, -, hc, hmatch, -, -, hnotified⟩
  have hrunning := h.asleep hpc c hc hmatch hnotified
  rw [hstate] at hrunning
  cases hrunning

theorem Inv.leave {pc : Pc} {task : Task} {l : List ℕ} (h : Inv s) (hpc : pc = .user ∨ pc = .woken ∨ pc = .tail) :
    Inv { s with task := task, children := l, pc := pc } := by
  have hne : pc ≠ .stateSet ∧ pc ≠ .asleep := by
    rcases hpc with rfl | rfl | rfl
    · simp
    · simp
    · simp
  refine ⟨h.exited, fun hbad => ?_, fun c _ _ _ hpassed => ?_, fun hbad => absurd hbad hne.1,
    fun hbad => absurd hbad hne.2⟩
  · exact (not_or.mpr hne hbad).elim
  · rcases hpc with rfl | rfl | rfl
    · exact hpassed.elim
    · exact hpassed.elim
    · exact hpassed.elim

theorem Inv.startScan {task : Task} {pid : ℤ} {wnohang : Bool} (h : Inv s) :
    Inv { s with task := task, pid := pid, wnohang := wnohang, pc := .scan s.children false } := by
  refine ⟨h.exited, fun hbad => ?_, fun c hc _ _ hpassed => absurd hc hpassed, nofun, nofun⟩
  rcases hbad with hbad | hbad
  · cases hbad
  · cases hbad

theorem matches_setChild (hd : d ≠ c) : Matches (setChild c ch s) d ↔ Matches s d := by
  unfold Matches setChild
  dsimp only
  rw [update_of_ne hd]

/-- A child changes. When its test is over, it keeps the waiter from sleeping. -/
theorem Inv.setChild (h : Inv s) (hexited : Exited ch.pc → ch.state = .zombie)
    (hpassed : Tested ch.pc → c ∈ s.children → Matches (setChild c ch s) c → Passed s c → chldPending s.task = true)
    (hstate : ch.pc = .notified → (s.pc = .stateSet ∨ s.pc = .asleep) → s.task.state = .running) :
    Inv (setChild c ch s) := by
  have hself : (WaitNotify.setChild c ch s).child c = ch := update_self ..
  have hother : ∀ d, d ≠ c → (WaitNotify.setChild c ch s).child d = s.child d :=
    fun d hd => update_of_ne hd ..
  refine ⟨fun d hd => ?_, h.state, fun d hmem hmatches hd hpass => ?_,
    fun hpc d hmem hmatches hd => ?_, fun hpc d hmem hmatches hd => ?_⟩
  · by_cases hdc : d = c
    · rw [hdc, hself] at hd ⊢
      exact hexited hd
    · rw [hother d hdc] at hd ⊢
      exact h.exited d hd
  · by_cases hdc : d = c
    · subst hdc
      rw [hself] at hd
      exact hpassed hd hmem hmatches hpass
    · rw [hother d hdc] at hd
      exact h.passed d hmem ((matches_setChild hdc).mp hmatches) hd hpass
  · by_cases hdc : d = c
    · rw [hdc, hself] at hd
      exact Or.inr (hstate hd (Or.inl hpc))
    · rw [hother d hdc] at hd
      exact h.stateSet hpc d hmem ((matches_setChild hdc).mp hmatches) hd
  · by_cases hdc : d = c
    · rw [hdc, hself] at hd
      exact hstate hd (Or.inr hpc)
    · rw [hother d hdc] at hd
      exact h.asleep hpc d hmem ((matches_setChild hdc).mp hmatches) hd

theorem Inv.setUntested (h : Inv s) (hexited : Exited ch.pc → ch.state = .zombie)
    (htested : ¬ Tested ch.pc) : Inv (WaitNotify.setChild c ch s) := by
  apply h.setChild hexited fun ht => absurd ht htested
  intro hpc
  rw [hpc] at htested
  exact absurd trivial htested

theorem Inv.wakeUpProcess (h : Inv s) : Inv (wakeUpProcess s) :=
  ⟨h.exited, fun _ => Or.inr rfl, h.passed, fun _ _ _ _ _ => Or.inr rfl, fun _ _ _ _ _ => rfl⟩

theorem Inv.sendSig {sig : ℕ} (h : Inv s) : Inv { s with task := sendSig sig s.task } := by
  have hrunning : s.task.state = .running → (Kernel.sendSig sig s.task).state = .running := by
    intro hstate
    rw [sendSig_state, hstate]
    simp
  refine ⟨h.exited, fun hpc => ?_, fun c hc hmatches hd hpass => ?_, fun hpc c hc hmatches hd => ?_,
    fun hpc c hc hmatches hd => ?_⟩
  · rcases h.state hpc with hint | hrun
    · refine Or.inl ?_
      dsimp only
      rw [sendSig_state, hint]
      simp
    · exact Or.inr (hrunning hrun)
  · exact chldPending_sendSig (h.passed c hc hmatches hd hpass)
  · exact (h.stateSet hpc c hc hmatches hd).imp chldPending_sendSig hrunning
  · exact hrunning (h.asleep hpc c hc hmatches hd)

/-! ## The steps -/

theorem Inv.look {rest : List ℕ} {flag : Bool} (h : Inv s) (hpc : s.pc = .scan (c :: rest) flag) :
    Inv (look c rest flag s) := by
  have hgo : ∀ flag, (Matches s c → (s.child c).state ≠ .zombie) →
      Inv { s with pc := .scan rest flag } := by
    intro flag hc
    refine ⟨h.exited, fun hbad => ?_, fun d hd hmatches htested hpass => ?_, nofun, nofun⟩
    · rcases hbad with hbad | hbad
      · cases hbad
      · cases hbad
    · have hdc : d ≠ c := by
        rintro rfl
        exact hc hmatches (h.exited d htested.exited)
      apply h.passed d hd hmatches htested
      unfold Passed
      rw [hpc]
      exact List.not_mem_cons_of_ne_of_not_mem hdc hpass
  unfold WaitNotify.look
  dsimp only
  split_ifs with hmatches hstopped hcode hzombie
  · exact hgo true fun _ => by rw [hstopped]; exact nofun
  · have hchild : Inv (WaitNotify.setChild c { s.child c with exitCode := 0 } s) := by
      apply h.setUntested
      · exact h.exited c
      · intro htested
        have hzombie := h.exited c htested.exited
        rw [hstopped] at hzombie
        cases hzombie
    exact hchild.leave (Or.inr (Or.inr rfl))
  · exact h.leave (Or.inr (Or.inr rfl))
  · exact hgo true fun _ => hzombie
  · exact hgo flag fun hm => absurd hm hmatches

theorem Inv.endScan {flag : Bool} (h : Inv s) (hpc : s.pc = .scan [] flag) : Inv { s with pc := .mustSleep } := by
  refine ⟨h.exited, fun hbad => ?_, fun c hc hmatches htested _ => ?_, nofun, nofun⟩
  · rcases hbad with hbad | hbad
    · cases hbad
    · cases hbad
  · apply h.passed c hc hmatches htested
    unfold Passed
    rw [hpc]
    exact List.not_mem_nil

theorem Inv.setSleeping (h : Inv s) (hpc : s.pc = .mustSleep) :
    Inv { setState .interruptible s with pc := .stateSet } := by
  refine ⟨h.exited, fun _ => Or.inl rfl, fun c _ _ _ hpass => hpass.elim,
    fun _ c hc hmatches hnotified => Or.inl ?_, nofun⟩
  apply h.passed c hc hmatches
  · rw [show (s.child c).pc = .notified from hnotified]
    trivial
  · unfold Passed
    rw [hpc]
    trivial

/-- The waiter goes to sleep only when no child has notified it. -/
theorem Inv.schedule (h : Inv s) (hpc : s.pc = .stateSet) : Inv (schedule s) := by
  unfold WaitNotify.schedule
  split_ifs with hrunning hsignal
  · exact h.leave (Or.inr (Or.inl rfl))
  · exact Inv.leave (s := s) h (Or.inr (Or.inl rfl))
  · have hint : s.task.state = .interruptible :=
      (h.state (Or.inl hpc)).resolve_right hrunning
    refine ⟨h.exited, fun _ => Or.inl hint, fun c _ _ _ hpass => hpass.elim, nofun, fun _ c hc hmatches hnotified => ?_⟩
    rcases h.stateSet hpc c hc hmatches hnotified with hchld | hrun
    · exact absurd ⟨hint, signalPending_of_chld hchld⟩ hsignal
    · exact hrun

theorem Inv.afterSchedule (h : Inv s) : Inv (afterSchedule s) := by
  unfold WaitNotify.afterSchedule
  dsimp only
  split_ifs
  · exact h.leave (Or.inr (Or.inr rfl))
  · exact h.startScan

theorem Inv.adopt (h : Inv s) (hch : Adoptable ch) :
    Inv { WaitNotify.setChild c ch s with children := c :: s.children } := by
  have hpc : ¬ Tested ch.pc := by
    unfold Adoptable at hch
    split at hch <;> simp_all [Tested]
  have hexited : Exited ch.pc → ch.state = .zombie := by
    unfold Adoptable at hch
    split at hch <;> simp_all [Exited]
  have hinv : Inv (WaitNotify.setChild c ch s) := h.setUntested hexited hpc
  have hself : (WaitNotify.setChild c ch s).child c = ch := update_self ..
  -- The new child is not through with its notification.
  have hmem : ∀ d ∈ c :: s.children, Tested ((WaitNotify.setChild c ch s).child d).pc →
      d ∈ s.children := by
    intro d hd htested
    rcases List.mem_cons.mp hd with rfl | hd
    · rw [hself] at htested
      exact absurd htested hpc
    · exact hd
  have hnotified : ∀ d, ((WaitNotify.setChild c ch s).child d).pc = .notified →
      Tested ((WaitNotify.setChild c ch s).child d).pc := by
    intro d hd
    rw [hd]
    trivial
  exact ⟨hinv.exited, hinv.state,
    fun d hd hmatches htested hpass =>
      hinv.passed d (hmem d hd htested) hmatches htested hpass,
    fun hpc d hd hmatches hnot =>
      hinv.stateSet hpc d (hmem d hd (hnotified d hnot)) hmatches hnot,
    fun hpc d hd hmatches hnot =>
      hinv.asleep hpc d (hmem d hd (hnotified d hnot)) hmatches hnot⟩

theorem Inv.notifyExit {stage : Stage} (h : Inv s) (hpc : (s.child c).pc = .parked stage) (hgood : Good s (.notify c)) :
    Inv (WaitNotify.setChild c { (notifyParent c s stage).1.child c with
      pc := (notifyParent c s stage).2.elim .notified .parked } (notifyParent c s stage).1) := by
  have hzombie : (s.child c).state = .zombie := by
    apply h.exited c
    rw [hpc]
    trivial
  have hsame : ∀ {pc}, Matches (WaitNotify.setChild c { s.child c with pc := pc } s) c →
      Matches s c := by
    intro pc hmatches
    unfold Matches WaitNotify.setChild at hmatches
    dsimp only at hmatches
    rw [update_self] at hmatches
    exact hmatches
  cases stage with
  | signal =>
    have hchild : Inv (WaitNotify.setChild c { s.child c with
        exitSignal := if s.isInit then sigchld else (s.child c).exitSignal } s) := by
      apply h.setUntested
      · exact fun _ => hzombie
      · dsimp only
        rw [hpc]
        exact id
    apply Inv.setUntested hchild.sendSig
    · intro _
      dsimp only [notifyParent, WaitNotify.setChild]
      rw [update_self]
      exact hzombie
    · exact id
  | test =>
    dsimp only [notifyParent]
    apply h.setChild
    · exact fun _ => hzombie
    · exact fun _ hmem hmatches => hgood hpc hmem (hsame hmatches)
    · intro hnotified hsleep
      have huser : s.pc ≠ .user := by
        rcases hsleep with hsleep | hsleep
        · rw [hsleep]
          exact nofun
        · rw [hsleep]
          exact nofun
      rcases h.state hsleep with hint | hrun
      · rw [if_pos ⟨huser, Or.inl hint⟩] at hnotified
        cases hnotified
      · exact hrun
  | wake =>
    dsimp only [notifyParent]
    apply h.wakeUpProcess.setChild
    · exact fun _ => hzombie
    · intro _ hmem hmatches
      apply h.passed c hmem (hsame hmatches)
      rw [hpc]
      trivial
    · exact fun _ _ => rfl

theorem Inv.notifyStop {stage : Stage} {pc : ChildPc} (h : Inv s)
    (hold : (s.child c).pc = .stopping stage) (hpc : ¬ Exited pc) :
    Inv (WaitNotify.setChild c { (notifyParent c s stage).1.child c with pc := pc }
      (notifyParent c s stage).1) := by
  have htested : ¬ Tested pc := fun ht => hpc ht.exited
  cases stage with
  | signal =>
    have hchild : Inv (WaitNotify.setChild c { s.child c with
        exitSignal := if s.isInit then sigchld else (s.child c).exitSignal } s) := by
      apply h.setUntested
      · exact h.exited c
      · dsimp only
        rw [hold]
        exact id
    exact Inv.setUntested hchild.sendSig (fun he => absurd he hpc) htested
  | test => exact h.setUntested (fun he => absurd he hpc) htested
  | wake => exact h.wakeUpProcess.setUntested (fun he => absurd he hpc) htested

/-! ## The runs -/

theorem Inv.step {a : Label} (h : Inv s) (hgood : Good s a) (hstep : Step s a s') : Inv s' := by
  cases a with
  | waitpid pid wnohang =>
    dsimp only [Step, exec] at hstep
    split_ifs at hstep
    cases hstep
    exact h.startScan
  | look =>
    dsimp only [Step, exec] at hstep
    split at hstep
    · rename_i hpc
      cases hstep
      exact h.look hpc
    · cases hstep
  | endScan =>
    dsimp only [Step, exec] at hstep
    split at hstep
    · rename_i hpc
      cases hstep
      split_ifs
      · exact h.endScan hpc
      · exact h.leave (Or.inr (Or.inr rfl))
    · cases hstep
  | setSleeping =>
    dsimp only [Step, exec] at hstep
    split_ifs at hstep with hpc
    cases hstep
    exact h.setSleeping hpc
  | schedule =>
    dsimp only [Step, exec] at hstep
    split_ifs at hstep with hpc
    cases hstep
    exact h.schedule hpc
  | resume =>
    dsimp only [Step, exec] at hstep
    split_ifs at hstep with hpc
    cases hstep
    exact h.leave (Or.inr (Or.inl rfl))
  | afterSchedule =>
    dsimp only [Step, exec] at hstep
    split_ifs at hstep
    cases hstep
    exact h.afterSchedule
  | tail =>
    dsimp only [Step, exec] at hstep
    split_ifs at hstep
    cases hstep
    exact h.leave (Or.inl rfl)
  | sendSig sig =>
    cases hstep
    exact h.sendSig
  | setSignals signal blocked sigaction =>
    dsimp only [Step, exec] at hstep
    split_ifs at hstep with hpc
    cases hstep
    exact Inv.leave (s := s) h (Or.inl hpc)
  | rescue =>
    dsimp only [Step, exec] at hstep
    split_ifs at hstep
    cases hstep
    exact h.wakeUpProcess
  | wakeUp =>
    cases hstep
    exact h.wakeUpProcess
  | adopt c ch =>
    dsimp only [Step, exec] at hstep
    split_ifs at hstep with hc
    cases hstep
    exact h.adopt hc.2
  | stop c sig =>
    dsimp only [Step, exec] at hstep
    by_cases hc : c ∈ s.children ∧ (s.child c).pc = .running
    · rw [if_pos hc] at hstep
      cases hstep
      apply h.setUntested
      · dsimp only
        split_ifs
        · exact False.elim
        · exact False.elim
      · dsimp only
        split_ifs
        · exact id
        · exact id
    · rw [if_neg hc] at hstep
      cases hstep
  | cont c =>
    dsimp only [Step, exec] at hstep
    by_cases hstopped : c ∈ s.children ∧ (s.child c).state = .stopped
    · rw [if_pos hstopped] at hstep
      cases hstep
      have halive : ¬ Exited (s.child c).pc := by
        intro he
        rw [h.exited c he] at hstopped
        cases hstopped.2
      have hpc : ¬ Exited (if (s.child c).pc = .stopped then .running else (s.child c).pc) := by
        split_ifs
        · exact id
        · exact halive
      exact h.setUntested (fun he => absurd he hpc) fun ht => hpc ht.exited
    · rw [if_neg hstopped] at hstep
      cases hstep
  | setChildState c st =>
    dsimp only [Step, exec] at hstep
    split_ifs at hstep with hc
    cases hstep
    have hpc : ¬ Exited (s.child c).pc := by
      rw [hc.2.1]
      exact id
    exact h.setUntested (fun he => absurd he hpc) fun ht => hpc ht.exited
  | exit c code =>
    dsimp only [Step, exec] at hstep
    split_ifs at hstep
    cases hstep
    exact h.setUntested (fun _ => rfl) id
  | setExitCode c =>
    dsimp only [Step, exec] at hstep
    split at hstep
    · rename_i hpc
      cases hstep
      refine h.setUntested (fun _ => h.exited c ?_) id
      rw [hpc]
      trivial
    · cases hstep
  | park c =>
    dsimp only [Step, exec] at hstep
    split_ifs at hstep with hpc
    cases hstep
    refine h.setUntested (fun _ => h.exited c ?_) id
    rw [hpc]
    trivial
  | notify c =>
    dsimp only [Step, exec] at hstep
    split at hstep
    · rename_i stage hpc
      cases hstep
      exact h.notifyExit hpc hgood
    · rename_i stage hpc
      cases hstep
      apply h.notifyStop hpc
      cases (notifyParent c s stage).2 with
      | none =>
        rw [Option.elim_none]
        split_ifs
        · exact id
        · exact id
      | some stage => exact id
    · cases hstep

theorem Initial.inv (h : Initial s) : Inv s := by
  refine ⟨fun c he => ?_, fun hpc => Or.inr h.state, fun c hc => ?_, fun hpc => ?_, fun hpc => ?_⟩
  · rw [h.child] at he
    exact he.elim
  · rw [h.children] at hc
    cases hc
  · rw [h.pc] at hpc
    cases hpc
  · rw [h.pc] at hpc
    cases hpc

/-- In every run in which no child tests the state of the waiter after the waiter has looked at it
and before it has set its state, or `SIGCHLD` is pending then, the waiter does not sleep while a
child that it waits for is parked and has notified it. -/
theorem none_forgotten (s₀ : State) (hinit : Initial s₀) (labs : List Label) (s : State)
    (hrun : Run (Guarded Good Step) s₀ labs s) (c : ℕ) : ¬ Forgotten s c := by
  have hinv : Inv s := by
    refine hrun.invariant (P := Inv) hinit.inv ?_
    intro u v a hu hstep
    exact hu.step hstep.1 hstep.2
  exact hinv.not_forgotten c

/-- A task without children, which has not set any action. -/
def alone : State :=
  { task :=
      { state := .running, counter := 0, signal := 0, blocked := 0, exitCode := 0, pid := 2, cpu := 0
        cpusAllowed := 1, onRunqueue := true, sigaction := fun _ => ⟨0, 0, 0, 0⟩ }
    pgrp := 2
    isInit := false
    pid := 0
    wnohang := false
    pc := .user
    child := fun _ => ⟨.running, 0, sigchld, 2, false, .running⟩
    children := [] }

theorem alone_initial : Initial alone := ⟨rfl, rfl, rfl, fun _ => rfl⟩

/-- The waiter has a child, looks at it, and has to sleep. -/
def looked : List Label :=
  [.adopt 3 ⟨.running, 0, sigchld, 2, false, .running⟩, .waitpid (-1) false, .look, .endScan]

/-- The child exits, and `_switch_to` notifies its parent. -/
def exits : List Label := [.exit 3 0, .setExitCode 3, .park 3, .notify 3, .notify 3]

instance (s : State) (c : ℕ) : Decidable (Passed s c) :=
  match h : s.pc with
  | .scan rest _ => decidable_of_iff (c ∉ rest) (by simp [Passed, h])
  | .mustSleep => isTrue (by simp [Passed, h])
  | .user | .stateSet | .asleep | .woken | .tail => isFalse (by simp [Passed, h])

instance (s : State) : ∀ a, Decidable (Good s a)
  | .notify c => inferInstanceAs (Decidable ((s.child c).pc = .parked .test → c ∈ s.children →
      Matches s c → Passed s c → chldPending s.task = true))
  | .waitpid _ _ | .look | .endScan | .setSleeping | .schedule | .resume | .afterSchedule | .tail
  | .sendSig _ | .setSignals _ _ _ | .rescue | .wakeUp | .adopt _ _ | .stop _ _ | .cont _ | .setChildState _ _
  | .exit _ _ | .setExitCode _ | .park _ => isTrue trivial

/-- The child exits when the waiter sleeps. -/
def inTime : List Label :=
  looked ++ [.setSleeping, .schedule] ++ exits ++ [.notify 3, .resume, .afterSchedule]

theorem inTime_replays : (replay Good exec alone inTime).isSome := by
  decide +kernel

theorem none_forgotten_inTime :
    Initial alone ∧ ∃ s, Run (Guarded Good Step) alone inTime s ∧ s.pc = .scan [3] false ∧
      (s.child 3).pc = .notified ∧ ¬ Forgotten s 3 := by
  have hrun : Run (Guarded Good Step) alone inTime _ :=
    run_of_replay (Option.some_get inTime_replays).symm
  exact ⟨alone_initial, _, hrun, by decide +kernel, by decide +kernel,
    none_forgotten alone alone_initial _ _ hrun 3⟩

/-- The child exits just before the waiter sets its state. -/
def tooLate : List Label := looked ++ exits ++ [.setSleeping, .schedule]

theorem tooLate_replays : (replay (fun _ _ => True) exec alone tooLate).isSome := by
  decide +kernel

/-- The parent then sleeps, and nobody is going to wake it. -/
theorem child_forgotten :
    ¬ ∀ (s₀ : State), Initial s₀ → ∀ labs s, Run Step s₀ labs s → ∀ c, ¬ Forgotten s c := by
  intro h
  have hrun : Run (Partial (fun _ _ => True) exec) alone tooLate
      ((replay (fun _ _ => True) exec alone tooLate).get tooLate_replays) :=
    run_of_replay (Option.some_get tooLate_replays).symm
  apply h alone alone_initial _ _ (hrun.mono fun _ _ _ hstep => hstep.2) 3
  unfold Forgotten
  decide +kernel

end Mario.Kernel.WaitNotify
