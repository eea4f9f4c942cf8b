import Mario.Kernel.Task
import Mario.Lib.Runs

/-!
# Signals of all tasks

The tasks of the system as they change signals: their own calls, the critical sections of
`do_signal` one by one, and `send_sig` from anywhere at any time. What a call keeps between two
critical sections is its `Pc`. In every reachable state `SIGKILL` and `SIGSTOP` are not blocked
and have their default action, and `SIGCONT` is not pending together with a stop signal.
-/

namespace Mario.Kernel.Signals

open Mario.Lib Function

/-- Where a task is between two critical sections. -/
inductive Pc
  /-- Outside of the calls that are modelled. -/
  | idle
  /-- Asleep in `do_sigsuspend`. -/
  | suspended (oldMask : Word)
  /-- In the first loop of `do_signal`. -/
  | passes (oldMask toHandle : Word) (suspend : Bool)
  /-- In the second loop of `do_signal`, before the signal `nr`. -/
  | frames (oldMask toHandle : Word) (nr : ℕ)
  /-- In `do_exit`. -/
  | gone
  deriving DecidableEq

structure State where
  task : ℕ → Option Task
  pc : ℕ → Pc

/-- The calls, with what the user gives them. -/
inductive Label
  | sigprocmask (p how : ℕ) (set : Option Word)
  | signal (p signum : ℕ) (handler : Word) (valid : Bool)
  | sigaction (p signum : ℕ) (act : Option Sigaction) (valid : Bool)
  | sigsuspend (p : ℕ) (mask : Word)
  /-- `do_sigsuspend` comes back from `schedule`. -/
  | resume (p : ℕ)
  /-- `do_signal` on the way to user mode. -/
  | doSignal (p : ℕ)
  | pass (p : ℕ)
  /-- The second loop looks at a signal; `valid` is the answer of `verify_area`. -/
  | frame (p : ℕ) (valid : Bool)
  /-- `do_sigreturn` with the `old_mask` of any context, or with none. -/
  | sigreturn (p : ℕ) (oldMask : Option Word)
  | sendSig (sig p : ℕ)
  | fork (p child : ℕ)
  | exec (p : ℕ)

/-- Change a task and the place where it is. -/
def put (s : State) (p : ℕ) (t : Task) (pc : Pc) : State :=
  { task := update s.task p (some t), pc := update s.pc p pc }

/-- The end of a pass of the first loop. -/
def afterPass (oldMask toHandle : Word) (suspend : Bool) : Pass → Pc
  | .done =>
      if toHandle = 0 then if suspend then .suspended oldMask else .idle
      else .frames oldMask toHandle 1
  | .handle nr => .passes oldMask (toHandle ||| sigBit nr) suspend
  | .exit _ => .gone
  | _ => .passes oldMask toHandle suspend

/-- A step of the second loop. -/
def stepFrame (oldMask toHandle : Word) (nr : ℕ) (valid : Bool) (t : Task) : Task × Pc :=
  if 32 < nr then (t, .idle)
  else if toHandle.getLsbD (nr - 1) = false then (t, .frames oldMask toHandle (nr + 1))
  else if valid = false then (t, .gone)
  else
    (enterHandler nr t,
      .frames (oldMask ||| (t.sigaction (nr - 1)).saMask) toHandle (nr + 1))

/-- The step of a task in a call of its own. -/
def ownStep (t : Task) : Pc → Label → Option (Task × Pc)
  | .idle, .sigprocmask _ how set => some ((sysSigprocmask how set t).1, .idle)
  | .idle, .signal _ signum handler valid => some ((sysSignal signum handler valid t).1, .idle)
  | .idle, .sigaction _ signum act valid => some ((sysSigaction signum act valid t).1, .idle)
  | .idle, .sigsuspend _ mask => some (setBlocked mask t, .suspended t.blocked)
  | .suspended oldMask, .resume _ => some (t, .passes oldMask 0 true)
  | .idle, .doSignal _ => if signalPending t then some (t, .passes t.blocked 0 false) else none
  | .passes oldMask toHandle suspend, .pass _ =>
      some ((signalPass t).1, afterPass oldMask toHandle suspend (signalPass t).2)
  | .frames oldMask toHandle nr, .frame _ valid => some (stepFrame oldMask toHandle nr valid t)
  | .idle, .sigreturn _ oldMask =>
      some (oldMask.elim (t, .gone) fun mask => (setBlocked mask t, .idle))
  | .idle, .exec _ => some (flushOldExec t, .idle)
  | _, _ => none

/-- The task that takes the step. -/
def Label.task : Label → ℕ
  | .sigprocmask p _ _ | .signal p _ _ _ | .sigaction p _ _ _ | .sigsuspend p _ | .resume p
  | .doSignal p | .pass p | .frame p _ | .sigreturn p _ | .sendSig _ p | .fork p _ | .exec p => p

def exec (s : State) (a : Label) : Option State :=
  (s.task a.task).bind fun t =>
    match a with
    | .sendSig sig p => some (put s p (sendSig sig t) (s.pc p))
    | .fork p child =>
        if s.pc p = .idle ∧ s.task child = none then
          some (put s child (forkSignals child t) .idle)
        else none
    | a => (ownStep t (s.pc a.task) a).map fun r => put s a.task r.1 r.2

def Step (s : State) (a : Label) (s' : State) : Prop := exec s a = some s'

/-- The tasks that there are at boot have no signals and only default actions. -/
structure Boot (s : State) : Prop where
  signal : ∀ p t, s.task p = some t → t.signal = 0
  blocked : ∀ p t, s.task p = some t → t.blocked = 0
  sigaction : ∀ p t i, s.task p = some t → t.sigaction i = ⟨sigDfl, 0, 0, 0⟩
  pc : ∀ p, s.pc p = .idle

/-! ## Sets of signals -/

/-- The set has neither `SIGKILL` nor `SIGSTOP`. -/
def Blockable (w : Word) : Prop :=
  w.getLsbD (sigkill - 1) = false ∧ w.getLsbD (sigstop - 1) = false

/-- The set does not have `SIGCONT` and a stop signal. -/
def Consistent (w : Word) : Prop :=
  w.getLsbD (sigcont - 1) = false ∨
    ∀ nr, sigstop ≤ nr → nr ≤ sigttou → w.getLsbD (nr - 1) = false

variable {v w : Word}

theorem Blockable.zero : Blockable 0 := by
  constructor
  · decide
  · decide

theorem Blockable.or (hv : Blockable v) (hw : Blockable w) : Blockable (v ||| w) := by
  constructor
  · rw [BitVec.getLsbD_or, hv.1, hw.1, Bool.or_false]
  · rw [BitVec.getLsbD_or, hv.2, hw.2, Bool.or_false]

theorem Blockable.and (hv : Blockable v) (w : Word) : Blockable (v &&& w) := by
  constructor
  · rw [BitVec.getLsbD_and, hv.1, Bool.false_and]
  · rw [BitVec.getLsbD_and, hv.2, Bool.false_and]

theorem Blockable.of_mask (w : Word) : Blockable (w &&& blockable) := by
  have hkill : blockable.getLsbD (sigkill - 1) = false := by decide
  have hstop : blockable.getLsbD (sigstop - 1) = false := by decide
  constructor
  · rw [BitVec.getLsbD_and, hkill, Bool.and_false]
  · rw [BitVec.getLsbD_and, hstop, Bool.and_false]

theorem Blockable.and_blockable (hw : Blockable w) : w &&& blockable = w := by
  have hbit : ∀ i < 32, blockable.getLsbD i = (decide (i ≠ sigkill - 1) && decide (i ≠ sigstop - 1)) := by
    decide
  apply BitVec.eq_of_getLsbD_eq
  intro i hi
  rw [BitVec.getLsbD_and, hbit i hi]
  by_cases hkill : i = sigkill - 1
  · rw [hkill, hw.1, Bool.false_and]
  · by_cases hstop : i = sigstop - 1
    · rw [hstop, hw.2, Bool.false_and]
    · rw [decide_eq_true hkill, decide_eq_true hstop, Bool.and_true, Bool.and_true]

theorem Consistent.zero : Consistent 0 := Or.inl (by decide)

theorem Consistent.and (hv : Consistent v) (w : Word) : Consistent (v &&& w) := by
  rcases hv with hcont | hstop
  · left
    rw [BitVec.getLsbD_and, hcont, Bool.false_and]
  · right
    intro nr hlow hhigh
    rw [BitVec.getLsbD_and, hstop nr hlow hhigh, Bool.false_and]

theorem getLsbD_sigBit {nr i : ℕ} (hnr : 0 < nr) (hi : 0 < i) :
    (sigBit nr).getLsbD (i - 1) = (decide (nr ≤ 32) && decide (nr = i)) := by
  have hlow : nr - 1 < 32 ↔ nr ≤ 32 := by omega
  have heq : nr - 1 = i - 1 ↔ nr = i := by omega
  rw [sigBit, BitVec.getLsbD_twoPow, decide_eq_decide.mpr hlow, decide_eq_decide.mpr heq]

theorem Consistent.or_other {nr : ℕ} (hv : Consistent v) (hnr : 0 < nr) (hcont : nr ≠ sigcont)
    (hstop : nr < sigstop ∨ sigttou < nr) : Consistent (v ||| sigBit nr) := by
  rcases hv with hc | hs
  · left
    rw [BitVec.getLsbD_or, hc, getLsbD_sigBit hnr (by decide), decide_eq_false hcont, Bool.and_false, Bool.or_false]
  · right
    intro i hlow hhigh
    have hi : 0 < i := lt_of_lt_of_le (by decide) hlow
    have hne : ¬ nr = i := by omega
    rw [BitVec.getLsbD_or, hs i hlow hhigh, getLsbD_sigBit hnr hi, decide_eq_false hne, Bool.and_false, Bool.or_false]

/-- Adding `SIGCONT` after the stop signals were taken back. -/
theorem Consistent.or_cont (w : Word) : Consistent (w &&& ~~~stopSignals ||| sigBit sigcont) := by
  right
  intro i hlow hhigh
  have hbit : stopSignals.getLsbD (i - 1) = true ∧ (sigBit sigcont).getLsbD (i - 1) = false := by
    obtain rfl | rfl | rfl | rfl : i = 19 ∨ i = 20 ∨ i = 21 ∨ i = 22 := by
      simp only [sigstop, sigttou] at hlow hhigh
      omega
    all_goals decide
  rw [BitVec.getLsbD_or, BitVec.getLsbD_and, BitVec.getLsbD_not, hbit.1, hbit.2]
  simp

theorem Consistent.or_stop {nr : ℕ} (w : Word) (hnr : sigstop ≤ nr) :
    Consistent (w &&& ~~~sigBit sigcont ||| sigBit nr) := by
  left
  have hpos : 0 < nr := lt_of_lt_of_le (by decide) hnr
  have hself : (sigBit sigcont).getLsbD (sigcont - 1) = true := by decide
  have hne : ¬ nr = sigcont := by
    simp only [sigstop, sigcont] at hnr ⊢
    omega
  rw [BitVec.getLsbD_or, BitVec.getLsbD_and, BitVec.getLsbD_not, hself,
    getLsbD_sigBit hpos (by decide), decide_eq_false hne]
  simp

/-! ## One task -/

/-- The signals of a task are in order. -/
structure Ok (t : Task) : Prop where
  blocked : Blockable t.blocked
  masks : ∀ i, Blockable (t.sigaction i).saMask
  kill : (t.sigaction (sigkill - 1)).saHandler = sigDfl
  stop : (t.sigaction (sigstop - 1)).saHandler = sigDfl
  pending : Consistent t.signal

variable {t : Task} {signum : ℕ}

theorem Ok.setSignal (h : Ok t) (hw : Consistent w) : Ok { t with signal := w } :=
  ⟨h.blocked, h.masks, h.kill, h.stop, hw⟩

theorem Ok.setBlocked (h : Ok t) (hw : Blockable w) : Ok { t with blocked := w } :=
  ⟨hw, h.masks, h.kill, h.stop, h.pending⟩

theorem Ok.postSignal (h : Ok t) (hw : Consistent (t.signal ||| sigBit signum)) : Ok (postSignal signum t) := by
  unfold Kernel.postSignal
  dsimp only
  split_ifs
  · exact h
  · exact h
  · exact h.setSignal hw

theorem Ok.resumeStopped (h : Ok t) : Ok (resumeStopped t) :=
  ⟨h.blocked, h.masks, h.kill, h.stop, h.pending.and _⟩

theorem Ok.sendSig (h : Ok t) (sig : ℕ) : Ok (sendSig sig t) := by
  unfold Kernel.sendSig
  by_cases hlarge : 32 < sig
  · rw [if_pos hlarge]
    exact h
  by_cases hzero : sig = 0
  · rw [if_neg hlarge, if_pos hzero]
    exact h
  by_cases hzombie : t.state = .zombie
  · rw [if_neg hlarge, if_neg hzero, if_pos hzombie]
    exact h
  · rw [if_neg hlarge, if_neg hzero, if_neg hzombie]
    dsimp only
    by_cases hstop : sigstop ≤ sig ∧ sig ≤ sigttou
    · have hother : ¬ (sig = sigkill ∨ sig = sigcont) := by
        simp only [sigstop, sigttou, sigkill, sigcont] at hstop ⊢
        omega
      rw [if_pos hstop, if_neg hother]
      exact (h.setSignal (h.pending.and _)).postSignal (Consistent.or_stop _ hstop.1)
    · rw [if_neg hstop]
      by_cases hcont : sig = sigcont
      · rw [if_pos (Or.inr hcont), hcont]
        exact h.resumeStopped.postSignal (Consistent.or_cont _)
      · have hrest : sig < sigstop ∨ sigttou < sig := by omega
        split_ifs
        · exact h.resumeStopped.postSignal
            (h.resumeStopped.pending.or_other (by omega) hcont hrest)
        · exact h.postSignal (h.pending.or_other (by omega) hcont hrest)

theorem Ok.sysSigprocmask (h : Ok t) (how : ℕ) (set : Option Word) : Ok (sysSigprocmask how set t).1 := by
  unfold Kernel.sysSigprocmask
  cases set with
  | none => exact h
  | some set =>
    dsimp only
    split
    · exact h.setBlocked (h.blocked.or (Blockable.of_mask set))
    · exact h.setBlocked (h.blocked.and _)
    · exact h.setBlocked (Blockable.of_mask set)
    · exact h

theorem Ok.checkPending (h : Ok t) (signum : ℕ) : Ok (checkPending signum t) := by
  have hless : Ok { t with signal := t.signal &&& ~~~sigBit signum } :=
    h.setSignal (h.pending.and _)
  unfold Kernel.checkPending
  dsimp only
  split_ifs
  · exact h
  · exact hless
  · exact h
  · exact hless
  · exact h

/-- An action is stored; that of `SIGKILL` and `SIGSTOP` is the default one. -/
theorem Ok.updateAction (h : Ok t) {i : ℕ} {sa : Sigaction} (hmask : Blockable sa.saMask)
    (hfixed : i = sigkill - 1 ∨ i = sigstop - 1 → sa.saHandler = sigDfl) :
    Ok { t with sigaction := update t.sigaction i sa } := by
  have hhandler : ∀ j, j = sigkill - 1 ∨ j = sigstop - 1 →
      (t.sigaction j).saHandler = sigDfl →
      (update t.sigaction i sa j).saHandler = sigDfl := by
    intro j hj hdfl
    by_cases hji : j = i
    · rw [hji, update_self]
      exact hfixed (hji ▸ hj)
    · rw [update_of_ne hji]
      exact hdfl
  refine ⟨h.blocked, fun j => ?_, hhandler _ (Or.inl rfl) h.kill, hhandler _ (Or.inr rfl) h.stop, h.pending⟩
  dsimp only
  by_cases hji : j = i
  · rw [hji, update_self]
    exact hmask
  · rw [update_of_ne hji]
    exact h.masks j

theorem Ok.setAction (h : Ok t) {sa : Sigaction} (hfixed : fixedSignal signum = false)
    (hmask : Blockable sa.saMask) : Ok (setAction signum sa t) := by
  apply Ok.checkPending
  apply h.updateAction hmask
  intro hsignum
  have := of_decide_eq_false hfixed
  simp only [sigkill, sigstop] at this hsignum
  omega

theorem Ok.sysSignal (h : Ok t) (signum : ℕ) (handler : Word) (valid : Bool) :
    Ok (sysSignal signum handler valid t).1 := by
  unfold Kernel.sysSignal
  split_ifs with hfixed
  · exact h
  · exact h
  · exact h.setAction (Bool.eq_false_of_not_eq_true hfixed) Blockable.zero

theorem actionMask_blockable (signum : ℕ) (sa : Sigaction) : Blockable (actionMask signum sa) := by
  unfold actionMask
  split_ifs
  · exact Blockable.zero
  · exact Blockable.of_mask _

theorem Ok.sysSigaction (h : Ok t) (signum : ℕ) (act : Option Sigaction) (valid : Bool) :
    Ok (sysSigaction signum act valid t).1 := by
  unfold Kernel.sysSigaction
  split_ifs with hfixed
  · exact h
  · cases act with
    | none => exact h
    | some sa =>
      dsimp only
      split_ifs
      · exact h
      · exact h
      · exact h.setAction (Bool.eq_false_of_not_eq_true hfixed) (actionMask_blockable signum sa)

theorem Ok.defaultAction (h : Ok t) {nr : ℕ} (hnr : 0 < nr ∧ nr ≤ 32) : Ok (defaultAction nr t).1 := by
  unfold Kernel.defaultAction
  split_ifs with hinit hignored hstop
  · exact h
  · exact h
  · exact ⟨h.blocked, h.masks, h.kill, h.stop, h.pending⟩
  · -- the signal of a fatal default action is neither `SIGCONT` nor a stop signal
    rw [Nat.mod_eq_of_lt (by omega)]
    refine h.setSignal (h.pending.or_other hnr.1 (fun hcont => hignored (Or.inl hcont)) ?_)
    simp only [sigstop, sigtstp, sigttin, sigttou] at hstop ⊢
    omega

theorem bsf_lt {i : ℕ} (h : bsf w = some i) : i < 32 :=
  List.mem_range.mp (List.mem_of_find?_eq_some h)

theorem Ok.signalPass (h : Ok t) : Ok (signalPass t).1 := by
  unfold Kernel.signalPass
  cases hbsf : bsf (t.signal &&& ~~~t.blocked) with
  | none => exact h
  | some i =>
    have hless : Ok { t with signal := t.signal &&& ~~~BitVec.twoPow 32 i } :=
      h.setSignal (h.pending.and _)
    have hi := bsf_lt hbsf
    dsimp only
    split_ifs
    · exact hless
    · exact hless
    · exact hless.defaultAction (by omega)
    · exact hless

theorem Ok.enterHandler (h : Ok t) (nr : ℕ) : Ok (enterHandler nr t) := by
  have hblocked : Blockable (t.blocked ||| (t.sigaction (nr - 1)).saMask) :=
    h.blocked.or (h.masks _)
  unfold Kernel.enterHandler
  dsimp only
  split_ifs
  · have hdfl : Ok { t with
        sigaction := update t.sigaction (nr - 1)
          { t.sigaction (nr - 1) with saHandler := sigDfl } } :=
      h.updateAction (h.masks (nr - 1)) fun _ => rfl
    exact hdfl.setBlocked hblocked
  · exact h.setBlocked hblocked

theorem Ok.forkSignals (h : Ok t) {pid : ℕ} : Ok (forkSignals pid t) :=
  ⟨h.blocked, h.masks, h.kill, h.stop, Consistent.zero⟩

theorem Ok.flushOldExec (h : Ok t) : Ok (flushOldExec t) := by
  have hnotIgn : sigDfl ≠ sigIgn := by decide
  refine ⟨h.blocked, fun i => ?_, ?_, ?_, Consistent.zero⟩
  · unfold Kernel.flushOldExec
    dsimp only
    split_ifs
    · exact Blockable.zero
    · exact Blockable.zero
    · exact h.masks i
  · unfold Kernel.flushOldExec
    dsimp only
    rw [if_pos (by decide), if_neg (by rw [h.kill]; exact hnotIgn)]
  · unfold Kernel.flushOldExec
    dsimp only
    rw [if_pos (by decide), if_neg (by rw [h.stop]; exact hnotIgn)]

/-! ## Runs -/

theorem Ok.ownStep (h : Ok t) {pc : Pc} {a : Label} {r : Task × Pc} (hstep : ownStep t pc a = some r) : Ok r.1 := by
  unfold Signals.ownStep at hstep
  split at hstep
  · cases hstep
    exact h.sysSigprocmask _ _
  · cases hstep
    exact h.sysSignal _ _ _
  · cases hstep
    exact h.sysSigaction _ _ _
  · cases hstep
    exact h.setBlocked (Blockable.of_mask _)
  · cases hstep
    exact h
  · split_ifs at hstep
    cases hstep
    exact h
  · cases hstep
    exact h.signalPass
  · cases hstep
    unfold stepFrame
    split_ifs
    · exact h
    · exact h
    · exact h
    · exact h.enterHandler _
  · cases hstep
    rename_i oldMask
    cases oldMask with
    | none => exact h
    | some mask => exact h.setBlocked (Blockable.of_mask mask)
  · cases hstep
    exact h.flushOldExec
  · cases hstep

/-- The signals of every task are in order. -/
def AllOk (s : State) : Prop := ∀ p t, s.task p = some t → Ok t

theorem AllOk.put {s : State} (h : AllOk s) (p : ℕ) (ht : Ok t) (pc : Pc) : AllOk (put s p t pc) := by
  intro q u hu
  unfold Signals.put at hu
  dsimp only at hu
  by_cases hq : q = p
  · rw [hq, update_self] at hu
    cases hu
    exact ht
  · rw [update_of_ne hq] at hu
    exact h q u hu

theorem AllOk.step {s s' : State} {a : Label} (h : AllOk s) (hstep : Step s a s') : AllOk s' := by
  obtain ⟨t, ht, hexec⟩ := Option.bind_eq_some_iff.mp hstep
  have hok := h a.task t ht
  split at hexec
  · cases hexec
    exact h.put _ (hok.sendSig _) _
  · split_ifs at hexec
    cases hexec
    exact h.put _ hok.forkSignals _
  · obtain ⟨r, hr, rfl⟩ := Option.map_eq_some_iff.mp hexec
    exact h.put _ (hok.ownStep hr) _

theorem Boot.allOk {s : State} (h : Boot s) : AllOk s := by
  intro p t ht
  constructor
  · rw [h.blocked p t ht]
    exact Blockable.zero
  · intro i
    rw [h.sigaction p t i ht]
    exact Blockable.zero
  · rw [h.sigaction p t _ ht]
  · rw [h.sigaction p t _ ht]
  · rw [h.signal p t ht]
    exact Consistent.zero

/-- No reachable task blocks or catches `SIGKILL` and `SIGSTOP`, or has `SIGCONT` pending with a
stop signal. -/
theorem signals_ok (s₀ : State) (hboot : Boot s₀) (labs : List Label) (s : State)
    (hrun : Run Step s₀ labs s) (p : ℕ) (t : Task) (ht : s.task p = some t) :
    t.blocked.getLsbD (sigkill - 1) = false ∧ t.blocked.getLsbD (sigstop - 1) = false ∧
      (t.sigaction (sigkill - 1)).saHandler = sigDfl ∧
      (t.sigaction (sigstop - 1)).saHandler = sigDfl ∧
      ∀ nr ∈ [sigstop, sigtstp, sigttin, sigttou],
        ¬ (t.signal.getLsbD (sigcont - 1) = true ∧ t.signal.getLsbD (nr - 1) = true) := by
  have hok := hrun.invariant hboot.allOk (fun hinv hstep => hinv.step hstep) p t ht
  refine ⟨hok.blocked.1, hok.blocked.2, hok.kill, hok.stop, fun nr hnr hboth => ?_⟩
  rcases hok.pending with hcont | hstop
  · rw [hcont] at hboth
    exact Bool.false_ne_true hboth.1
  · have hrange : sigstop ≤ nr ∧ nr ≤ sigttou := by
      simp only [List.mem_cons, List.not_mem_nil, or_false, sigstop, sigtstp, sigttin,
        sigttou] at hnr ⊢
      omega
    rw [hstop nr hrange.1 hrange.2] at hboth
    exact Bool.false_ne_true hboth.2

/-- One task, as it is at boot. -/
def bootTask : Task :=
  { state := .running, counter := 10, signal := 0, blocked := 0, exitCode := 0, pid := 2, cpu := 0
    cpusAllowed := 1, onRunqueue := false, sigaction := fun _ => ⟨sigDfl, 0, 0, 0⟩ }

/-- The state with one task. -/
def bootState : State :=
  { task := fun p => if p = 2 then some bootTask else none, pc := fun _ => .idle }

theorem bootState_boot : Boot bootState := by
  have htask : ∀ p t, bootState.task p = some t → t = bootTask := by
    intro p t ht
    unfold bootState at ht
    dsimp only at ht
    split_ifs at ht
    exact (Option.some.inj ht).symm
  constructor
  · intro p t ht
    rw [htask p t ht]
    rfl
  · intro p t ht
    rw [htask p t ht]
    rfl
  · intro p t i ht
    rw [htask p t ht]
    rfl
  · exact fun _ => rfl

/-- The task tries to block and to catch everything, and is stopped and continued. -/
def stubbornRun : List Label :=
  [.sigprocmask 2 2 (some 0xffffffff), .sigaction 2 sigkill (some ⟨0x1000, 0, 0, 0⟩) true,
    .sigaction 2 sigcont (some ⟨0x1000, 0, 0, 0xffffffff⟩) true, .sendSig sigtstp 2,
    .sendSig sigcont 2, .sigreturn 2 (some 0xffffffff), .fork 2 3]

theorem stubbornRun_replays : (replay (fun _ _ => True) exec bootState stubbornRun).isSome := by
  decide +kernel

theorem signals_ok_stubborn :
    Boot bootState ∧ ∃ s t, Run Step bootState stubbornRun s ∧ s.task 2 = some t ∧
      t.blocked.getLsbD (sigkill - 1) = false ∧ t.signal.getLsbD (sigcont - 1) = true ∧
      ¬ (t.signal.getLsbD (sigcont - 1) = true ∧ t.signal.getLsbD (sigtstp - 1) = true) := by
  have hrun : Run Step bootState stubbornRun
      ((replay (fun _ _ => True) exec bootState stubbornRun).get stubbornRun_replays) :=
    (run_of_replay (Option.some_get stubbornRun_replays).symm).mono fun _ _ _ hstep => hstep.2
  obtain ⟨t, ht⟩ := Option.isSome_iff_exists.mp (show (((replay (fun _ _ => True) exec bootState
    stubbornRun).get stubbornRun_replays).task 2).isSome by decide +kernel)
  have hok := signals_ok bootState bootState_boot stubbornRun _ hrun 2 t ht
  have hcont : (((replay (fun _ _ => True) exec bootState stubbornRun).get
      stubbornRun_replays).task 2).any (fun t => t.signal.getLsbD (sigcont - 1)) = true := by
    decide +kernel
  rw [ht] at hcont
  exact ⟨bootState_boot, _, t, hrun, ht, hok.1, hcont, hok.2.2.2.2 sigtstp (by decide)⟩

end Mario.Kernel.Signals
