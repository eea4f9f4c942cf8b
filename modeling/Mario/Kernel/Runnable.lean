import Mario.Kernel.SchedSafety

/-!
# Runnable tasks

The state of a task is written in many places, and its link in `sched.c` only. A task that stops
is unlinked by its own call of `schedule`. Until then `send_sig` may make it `TASK_RUNNING` again,
but after that it would have to link it.
-/

namespace Mario.Kernel.Sched

open Mario.Lib

variable {s s' : State} {c n cpu : ℕ} {p : Tid} {f : Task → Task} {k : Tid → ℤ}

/-- `SIGKILL` and `SIGCONT` meet a stopped task only before its call of `schedule` has unlinked
it, and `sched_set_cpus_allowed` moves no running task. -/
def GoodSignals (s : State) (a : Label) : Prop :=
  Good s a ∧ match a with
    | .sendSig sig n => Continues sig → (s.task (.task n)).state = .stopped →
        (s.task (.task n)).onRunqueue = true
    | _ => True

/-- The task is on the queue of a CPU. -/
def Linked (s : State) (n : ℕ) : Prop := ∃ c, .task n ∈ s.rq c

/-- No runnable task is lost. -/
def NoneLost (s : State) : Prop :=
  ∀ n, s.alive n = true → (s.task (.task n)).state = .running → Linked s n

/-- What the code reads of a link. -/
def Tracked (s : State) : Prop :=
  ∀ n, s.alive n = true → (s.task (.task n)).state = .running →
    (s.task (.task n)).onRunqueue = true

theorem Inv.linked_iff (h : Inv s) : Linked s n ↔ (s.task (.task n)).onRunqueue = true := by
  constructor
  · rintro ⟨c, hmem⟩
    exact ((h.mem c (.task n)).mp hmem).1
  · intro hlink
    exact ⟨_, (h.mem _ (.task n)).mpr ⟨hlink, rfl⟩⟩

/-! ## The operations -/

theorem Tracked.modify (h : Tracked s) (hf : ∀ n, p = .task n → s.alive n = true →
    (f (s.task p)).state = .running → (f (s.task p)).onRunqueue = true) : Tracked (modify p f s) := by
  intro n halive hstate
  rw [modify_task] at hstate ⊢
  split_ifs at hstate ⊢ with hn
  · exact hf n hn.symm halive hstate
  · exact h n halive hstate

theorem Tracked.keep (h : Tracked s) (hf : ∀ t, (f t).state = t.state ∧
    (f t).onRunqueue = t.onRunqueue) : Tracked (Sched.modify p f s) := by
  apply h.modify
  rintro n rfl halive hstate
  rw [(hf _).1] at hstate
  rw [(hf _).2]
  exact h n halive hstate

theorem Tracked.wake (h : Tracked s) : Tracked (enqueueTask cpu p (setState p .running s)) := by
  intro n halive hstate
  rw [enqueueTask_task] at hstate ⊢
  split_ifs at hstate ⊢ with hn
  · rfl
  · rw [setState_task, if_neg hn] at hstate ⊢
    exact h n halive hstate

theorem Tracked.setRunning (h : Tracked s) (hlink : (s.task p).onRunqueue = true) :
    Tracked (setState p .running s) :=
  h.modify fun _ _ _ _ => hlink

theorem Tracked.wakeUpProcess (h : Tracked s) : Tracked (wakeUpProcess p s) := by
  unfold Sched.wakeUpProcess
  split_ifs with hstate hlink hlink
  · exact h.setRunning hlink
  · exact h.wake
  · exact h
  · intro m halive hm
    rw [enqueueTask_task] at hm ⊢
    split_ifs at hm ⊢
    · rfl
    · exact h m halive hm

/-- The task of `schedule` is unlinked only when it is not runnable. -/
theorem Tracked.resolveOutgoing (h : Tracked s) (hinv : Inv s) (hlock : s.lock = none) :
    Tracked (resolveOutgoing cpu (s.current c) s) := by
  unfold Sched.resolveOutgoing
  split_ifs with hsleeps hsignal hlink
  · apply h.modify
    intro n hn _ _
    rw [hn]
    exact hinv.linked c n hn (by rw [hlock]; exact nofun)
  · intro n halive hstate
    rw [dequeueTask_task] at hstate ⊢
    split_ifs at hstate ⊢ with hn
    · exact absurd hstate hsleeps.1
    · exact h n halive hstate
  · exact h
  · exact h

theorem Tracked.scanTask (h : Tracked s) (cur : Tid) : Tracked (scanTask cur p s) := by
  unfold Sched.scanTask
  split_ifs with hsignal hlink
  · exact h.setRunning hlink
  · intro m halive hstate
    rw [enqueueTask_task] at hstate ⊢
    split_ifs at hstate ⊢ with hm
    · rfl
    · rw [setCpu_task, if_neg hm, setState_task, if_neg hm] at hstate ⊢
      exact h m halive hstate
  · exact h

theorem Tracked.recheckCurrent (h : Tracked s) : Tracked (recheckCurrent cpu p s) := by
  unfold Sched.recheckCurrent
  split_ifs with hsignal hlink
  · exact h.setRunning hlink
  · exact h.wake
  · exact h

theorem Tracked.finishSchedule (h : Tracked s) : Tracked (finishSchedule c cpu s) := by
  obtain ⟨k, hk⟩ := refill_eq (pickNext cpu s).1 s
  unfold Sched.finishSchedule
  dsimp only
  rw [hk]
  split_ifs
  · exact h
  · exact h

theorem Tracked.schedSetCpusAllowed {mask : Word} (h : Tracked s) :
    Tracked (schedSetCpusAllowed c (.task n) mask s) := by
  have hmask : Tracked (Sched.modify (.task n) (fun t => { t with cpusAllowed := mask &&& onlineCpuMask s }) s) :=
    h.keep fun _ => ⟨rfl, rfl⟩
  unfold Sched.schedSetCpusAllowed
  dsimp only
  split_ifs
  · exact h
  · exact h
  · cases firstAllowed s.nrCpuIds (mask &&& onlineCpuMask s) with
    | none => exact hmask
    | some cpu =>
      rw [Option.elim_some]
      exact Tracked.keep hmask (f := fun t => { t with cpu := cpu }) fun _ => ⟨rfl, rfl⟩
  · exact hmask

theorem Tracked.forkTask (h : Tracked s) : Tracked (forkTask c n s) := by
  intro m halive hstate
  by_cases hm : m = n
  · subst hm
    unfold Sched.forkTask at hstate
    simp at hstate
  · have hmn : Tid.task m ≠ .task n := fun heq => hm (Tid.task.inj heq)
    change Function.update s.alive n true m = true at halive
    rw [Function.update_of_ne hm] at halive
    unfold Sched.forkTask at hstate ⊢
    dsimp only at hstate ⊢
    rw [modify_task, if_neg hmn, modify_task] at hstate ⊢
    split_ifs at hstate ⊢ with hcur
    · rw [← hcur] at hstate ⊢
      exact h m halive hstate
    · exact h m halive hstate

theorem Tracked.step {a : Label} (h : Tracked s) (hinv : Inv s) (hgood : GoodSignals s a)
    (hstep : Step s a s') : Tracked s' := by
  obtain ⟨-, hstep⟩ := hstep
  -- The task of a CPU that is outside of `schedule` is linked.
  have hown : ∀ {c f}, s.phase c = .running →
      (∀ t : Task, (f t).onRunqueue = t.onRunqueue) → Tracked (Sched.modify (s.current c) f s) := by
    intro c f hphase hf
    apply h.modify
    intro n hn _ _
    have hlock := hinv.phase c
    rw [hphase] at hlock
    rw [hf, hn]
    exact hinv.linked c n hn hlock
  cases a with
  | setState c st =>
    dsimp only [exec] at hstep
    split_ifs at hstep with hc
    cases hstep
    exact hown hc.1 fun _ => rfl
  | doSignal c =>
    dsimp only [exec] at hstep
    split_ifs at hstep with hc
    cases hstep
    exact hown hc.1 fun t => (signalPass_place t).2
  | setSignals c signal blocked sigaction =>
    dsimp only [exec] at hstep
    split_ifs at hstep with hc
    cases hstep
    exact hown hc fun _ => rfl
  | irqPIT c =>
    cases hstep
    unfold irqPIT
    split_ifs
    · exact h
    · exact h.keep fun _ => ⟨rfl, rfl⟩
  | fork c n =>
    dsimp only [exec] at hstep
    split_ifs at hstep with hc
    cases hstep
    exact h.forkTask
  | setLinks n =>
    dsimp only [exec] at hstep
    split_ifs at hstep with hc
    cases hstep
    exact h
  | wakeUpProcess n =>
    dsimp only [exec] at hstep
    split_ifs at hstep with hc
    cases hstep
    exact h.wakeUpProcess
  | exitGroupWake n =>
    dsimp only [exec] at hstep
    by_cases hc : s.lock = none ∧ s.alive n = true
    · rw [if_pos hc] at hstep
      cases hstep
      split_ifs
      · exact h.wakeUpProcess
      · exact h
    · rw [if_neg hc] at hstep
      cases hstep
  | sendSig sig n =>
    dsimp only [exec] at hstep
    split_ifs at hstep with hc
    cases hstep
    apply h.modify
    intro m hm halive hstate
    obtain rfl := Tid.task.inj hm
    rw [(sendSig_place sig _).2]
    rw [sendSig_state] at hstate
    split_ifs at hstate with hcont
    · exact hgood.2 hcont.1 hcont.2
    · exact h n halive hstate
  | schedSetCpusAllowed c n mask =>
    dsimp only [exec] at hstep
    split_ifs at hstep with hc
    cases hstep
    exact h.schedSetCpusAllowed
  | schedule c =>
    dsimp only [exec] at hstep
    split_ifs at hstep with hc
    cases hstep
    exact h
  | resolve c =>
    dsimp only [exec] at hstep
    split at hstep
    · split_ifs at hstep with hlock
      cases hstep
      exact h.resolveOutgoing hinv hlock
    · cases hstep
  | scan c =>
    dsimp only [exec] at hstep
    split at hstep
    · cases hstep
      exact h.scanTask _
    · cases hstep
  | recheck c =>
    dsimp only [exec] at hstep
    split at hstep
    · cases hstep
      exact h.recheckCurrent
    · cases hstep
  | switch c =>
    dsimp only [exec] at hstep
    split at hstep
    · cases hstep
      exact h.finishSchedule
    · cases hstep

/-! ## The runs -/

/-- In every run in which `SIGKILL` and `SIGCONT` meet no stopped task that is unlinked already, no
runnable task is lost, and these signals start a stopped task. -/
theorem none_lost (s₀ : State) (hinit : Initial s₀) (labs : List Label) (s : State)
    (hrun : Run (Guarded GoodSignals Step) s₀ labs s) :
    NoneLost s ∧ ∀ sig n s', Continues sig → (s.task (.task n)).state = .stopped →
      Guarded GoodSignals Step s (.sendSig sig n) s' →
      (s'.task (.task n)).state = .running ∧ Linked s' n := by
  have hboth : Inv s ∧ Tracked s := by
    refine hrun.invariant (P := fun s => Inv s ∧ Tracked s) ⟨hinit.inv, fun n halive => ?_⟩ ?_
    · rw [hinit.alive n] at halive
      cases halive
    · rintro u v a ⟨hinv, htracked⟩ hstep
      exact ⟨hinv.step hstep.1.1 hstep.2, htracked.step hinv hstep.1 hstep.2⟩
  obtain ⟨hinv, htracked⟩ := hboth
  constructor
  · intro n halive hstate
    rw [hinv.linked_iff]
    exact htracked n halive hstate
  · intro sig n s' hcont hstopped hstep
    have hinv' := hinv.step hstep.1.1 hstep.2
    rw [hinv'.linked_iff]
    obtain ⟨⟨-, hlinked⟩, -, hexec⟩ := hstep
    dsimp only [exec] at hexec
    split_ifs at hexec
    cases hexec
    rw [modify_task, if_pos rfl, (sendSig_place sig _).2, sendSig_state, if_pos ⟨hcont, hstopped⟩]
    exact ⟨rfl, hlinked hcont hstopped⟩

/-- Task 2 takes `SIGSTOP`, and it has not called `schedule` yet. -/
def stopping : List Label := twoTasks ++ [.sendSig sigstop 2, .doSignal 1]

instance (s : State) (a : Label) : Decidable (GoodSignals s a) :=
  match a with
  | .sendSig sig n => inferInstanceAs (Decidable (_ ∧ (Continues sig →
      (s.task (.task n)).state = .stopped → (s.task (.task n)).onRunqueue = true)))
  | .setState _ _ | .doSignal _ | .setSignals _ _ _ _ | .irqPIT _ | .fork _ _ | .setLinks _
  | .wakeUpProcess _ | .exitGroupWake _ | .schedSetCpusAllowed _ _ _ | .schedule _ | .resolve _
  | .scan _ | .recheck _ | .switch _ => inferInstanceAs (Decidable (_ ∧ True))

theorem stopping_replays : (replay (fun s a => GoodSignals s a ∧ Legal s a) exec boot stopping).isSome := by
  decide +kernel

/-- Task 2 is stopped, and it is still linked. -/
def stopped : State :=
  (replay (fun s a => GoodSignals s a ∧ Legal s a) exec boot stopping).get stopping_replays

theorem none_lost_stopped :
    Initial boot ∧ ∃ s', Run (Guarded GoodSignals Step) boot stopping stopped ∧
      Guarded GoodSignals Step stopped (.sendSig sigcont 2) s' ∧ NoneLost stopped ∧
      (s'.task (.task 2)).state = .running ∧ Linked s' 2 := by
  have hrun : Run (Guarded GoodSignals Step) boot stopping stopped :=
    (run_of_replay (Option.some_get stopping_replays).symm).mono
      fun _ _ _ hstep => ⟨hstep.1.1, hstep.1.2, hstep.2⟩
  have halive : stopped.alive 2 = true := by decide +kernel
  have hstep : Guarded GoodSignals Step stopped (.sendSig sigcont 2)
      (modify (.task 2) (sendSig sigcont) stopped) := by
    refine ⟨by decide +kernel, by decide +kernel, ?_⟩
    dsimp only [exec]
    rw [if_pos halive]
  obtain ⟨hnone, hcont⟩ := none_lost boot boot_initial _ _ hrun
  exact ⟨boot_initial, _, hrun, hstep, hnone,
    hcont sigcont 2 _ (Or.inr rfl) (by decide +kernel) hstep⟩

/-- Task 2 has stopped, and `sys_exit_group` kills it and does not link it. -/
def forgotten : List Label :=
  stopping ++ scheduleSteps 1 2 ++ [.sendSig sigkill 2, .exitGroupWake 2]

theorem forgotten_replays : (replay (fun s a => Good s a ∧ Legal s a) exec boot forgotten).isSome := by
  decide +kernel

/-- The task is then runnable and linked in no run queue. -/
theorem task_lost :
    ¬ ∀ (s₀ : State), Initial s₀ → ∀ labs s, Run Step s₀ labs s → NoneLost s := by
  intro h
  have hgood : Run (Guarded Good Step) boot forgotten
      ((replay (fun s a => Good s a ∧ Legal s a) exec boot forgotten).get forgotten_replays) :=
    (run_of_replay (Option.some_get forgotten_replays).symm).mono
      fun _ _ _ hstep => ⟨hstep.1.1, hstep.1.2, hstep.2⟩
  have hnone := h boot boot_initial _ _ (hgood.mono fun _ _ _ hstep => hstep.2)
  have hlinked := hnone 2 (by decide +kernel) (by decide +kernel)
  rw [(Inv.of_run boot_initial hgood).linked_iff] at hlinked
  exact absurd hlinked (by decide +kernel)

end Mario.Kernel.Sched
