import Mario.Kernel.Sched

/-!
# Where tasks run

A task that runs on a CPU has the number of that CPU and, but for the CPU that is inside
`schedule`, it is linked on the queue of that CPU. So a task that is not linked is not running,
and it can be moved.
-/

namespace Mario.Kernel.Sched

open Mario.Lib Function

variable {s s' : State} {c d n cpu : ℕ} {p q : Tid} {f : Task → Task}

/-! ## What the operations change -/

@[simp, grind =] theorem modify_task (p q : Tid) (f : Task → Task) (s : State) :
    (modify p f s).task q = if q = p then f (s.task p) else s.task q := update_apply ..

@[simp, grind =] theorem modify_rq : (modify p f s).rq c = s.rq c := rfl
@[simp, grind =] theorem modify_current : (modify p f s).current c = s.current c := rfl

/-! ## The invariant -/

/-- What holds of a CPU in each of its phases. -/
def PhaseOk (s : State) (c : ℕ) : Phase → Prop
  | .running => s.lock ≠ some c
  | .entered cpu => cpu = c ∧ s.lock ≠ some c
  | .scan cpu rest => cpu = c ∧ s.lock = some c ∧ ∀ n ∈ rest, s.alive n = true
  | .picking cpu => cpu = c ∧ s.lock = some c

/-- The places of the tasks. -/
structure Inv (s : State) : Prop where
  running : ∀ c, s.running c = s.current c
  cpu : ∀ c, (s.task (s.current c)).cpu = c
  mem : ∀ c p, p ∈ s.rq c ↔ (s.task p).onRunqueue = true ∧ (s.task p).cpu = c
  nodup : ∀ c, (s.rq c).Nodup
  idle : ∀ c, (s.task (.idle c)).onRunqueue = false
  idleCpu : ∀ c, (s.task (.idle c)).cpu = c
  idleState : ∀ c, (s.task (.idle c)).state = .running
  linked : ∀ c n, s.current c = .task n → s.lock ≠ some c → (s.task (.task n)).onRunqueue = true
  asleep : ∀ n, (s.task (.task n)).onRunqueue = true → (s.task (.task n)).state ≠ .running →
    ∃ c, s.current c = .task n ∧ s.lock ≠ some c
  aliveQueue : ∀ n, (s.task (.task n)).onRunqueue = true → s.alive n = true
  aliveCurrent : ∀ c n, s.current c = .task n → s.alive n = true
  aliveTasks : ∀ n ∈ s.tasks, s.alive n = true
  phase : ∀ c, PhaseOk s c (s.phase c)
  offline : ∀ c, s.nrCpuIds ≤ c → s.current c = .idle c

theorem Inv.current_inj (h : Inv s) (heq : s.current c = s.current d) : c = d := by
  rw [← h.cpu c, heq, h.cpu d]

/-- A task changes, but not its CPU and not its link. Only the task of a CPU can stop being
`TASK_RUNNING` in this way. -/
theorem Inv.modify (h : Inv s) (hcpu : (f (s.task p)).cpu = (s.task p).cpu)
    (hrq : (f (s.task p)).onRunqueue = (s.task p).onRunqueue)
    (hstate : (f (s.task p)).state = (s.task p).state ∨ (f (s.task p)).state = .running ∨
      ∃ n c, p = .task n ∧ s.current c = .task n ∧ s.lock ≠ some c) : Inv (modify p f s) := by
  have hcpu' : ∀ q, ((Sched.modify p f s).task q).cpu = (s.task q).cpu := by grind
  have hrq' : ∀ q, ((Sched.modify p f s).task q).onRunqueue = (s.task q).onRunqueue := by grind
  refine { h with
    cpu := fun c => ?_, mem := fun c q => ?_, idle := fun c => ?_, idleCpu := fun c => ?_,
    idleState := fun c => ?_, linked := fun c n hc hlock => ?_, asleep := fun n hn hne => ?_,
    aliveQueue := fun n hn => ?_ }
  · rw [hcpu']
    exact h.cpu c
  · rw [hcpu', hrq']
    exact h.mem c q
  · rw [hrq']
    exact h.idle c
  · rw [hcpu']
    exact h.idleCpu c
  · rw [modify_task]
    split_ifs with heq
    · subst heq
      rcases hstate with hsame | hrunning | ⟨n, c, hn, -⟩
      · rw [hsame]
        exact h.idleState c
      · exact hrunning
      · cases hn
    · exact h.idleState c
  · rw [hrq']
    exact h.linked c n hc hlock
  · rw [hrq'] at hn
    rw [modify_task] at hne
    split_ifs at hne with heq
    · subst heq
      rcases hstate with hsame | hrunning | ⟨m, c, hm, hc, hlock⟩
      · rw [hsame] at hne
        exact h.asleep n hn hne
      · exact absurd hrunning hne
      · exact ⟨c, hc.trans hm.symm, hlock⟩
    · exact h.asleep n hn hne
  · rw [hrq'] at hn
    exact h.aliveQueue n hn

/-- A task that is not linked and does not run can be changed at will. -/
theorem Inv.replace (h : Inv s) (hlink : (s.task (.task n)).onRunqueue = false)
    (hcurrent : ∀ c, s.current c ≠ .task n) (hf : (f (s.task (.task n))).onRunqueue = false) :
    Inv (Sched.modify (.task n) f s) := by
  have hother : ∀ q, q ≠ .task n → (Sched.modify (.task n) f s).task q = s.task q := by
    intro q hq
    rw [modify_task, if_neg hq]
  have hself : ((Sched.modify (.task n) f s).task (.task n)).onRunqueue = false := by
    rw [modify_task, if_pos rfl, hf]
  have hne : ∀ m, ((Sched.modify (.task n) f s).task (.task m)).onRunqueue = true →
      Tid.task m ≠ .task n := by
    intro m hm heq
    rw [heq, hself] at hm
    cases hm
  refine { h with
    cpu := fun c => ?_, mem := fun c q => ?_, idle := fun c => ?_, idleCpu := fun c => ?_,
    idleState := fun c => ?_, linked := fun c m hc hlock => ?_, asleep := fun m hm hstate => ?_,
    aliveQueue := fun m hm => ?_ }
  · rw [modify_current, hother _ (hcurrent c)]
    exact h.cpu c
  · by_cases hq : q = .task n
    · rw [hq, hself, modify_rq, h.mem, hlink]
      simp
    · rw [hother q hq]
      exact h.mem c q
  · rw [hother _ (by simp)]
    exact h.idle c
  · rw [hother _ (by simp)]
    exact h.idleCpu c
  · rw [hother _ (by simp)]
    exact h.idleState c
  · have hmn : Tid.task m ≠ .task n := fun heq => hcurrent c (hc.trans heq)
    rw [hother _ hmn]
    exact h.linked c m hc hlock
  · have hmn := hne m hm
    rw [hother _ hmn] at hm hstate
    exact h.asleep m hm hstate
  · have hmn := hne m hm
    rw [hother _ hmn] at hm
    exact h.aliveQueue m hm

@[simp, grind =] theorem enqueueTask_task (cpu : ℕ) (p q : Tid) (s : State) :
    (enqueueTask cpu p s).task q =
      if q = p then { s.task p with onRunqueue := true } else s.task q :=
  modify_task p q (fun t => { t with onRunqueue := true }) s

@[simp, grind =] theorem enqueueTask_rq (cpu c : ℕ) (p : Tid) (s : State) :
    (enqueueTask cpu p s).rq c = if c = cpu then s.rq cpu ++ [p] else s.rq c :=
  update_apply ..

/-- A task that is not linked is put on the queue of its CPU. -/
theorem Inv.enqueueTask (h : Inv s) (hlink : (s.task (.task n)).onRunqueue = false)
    (halive : s.alive n = true) (hstate : (s.task (.task n)).state = .running)
    (hcpu : (s.task (.task n)).cpu = cpu) : Inv (enqueueTask cpu (.task n) s) := by
  have hnot : .task n ∉ s.rq cpu := by
    rw [h.mem, hlink]
    simp
  refine { h with
    cpu := fun c => ?_, mem := fun c q => ?_, nodup := fun c => ?_, idle := fun c => ?_,
    idleCpu := fun c => ?_, idleState := fun c => ?_, linked := fun c m hc hlock => ?_,
    asleep := fun m hm hne => ?_, aliveQueue := fun m hm => ?_ }
  · have hc := h.cpu c
    rw [enqueueTask_task]
    change (if s.current c = .task n then _ else s.task (s.current c)).cpu = c
    split_ifs with heq
    · rw [heq] at hc
      exact hc
    · exact hc
  · have hmem := h.mem c q
    rw [enqueueTask_task, enqueueTask_rq]
    split_ifs with hc hq hq
    · subst hc hq
      simp [hcpu]
    · subst hc
      rw [List.mem_append, hmem]
      simp [hq]
    · subst hq
      rw [hmem, hlink, hcpu]
      simp [Ne.symm hc]
    · exact hmem
  · rw [enqueueTask_rq]
    split_ifs with hc
    · rw [← List.concat_eq_append]
      exact (h.nodup cpu).concat hnot
    · exact h.nodup c
  · rw [enqueueTask_task, if_neg (by simp)]
    exact h.idle c
  · rw [enqueueTask_task, if_neg (by simp)]
    exact h.idleCpu c
  · rw [enqueueTask_task, if_neg (by simp)]
    exact h.idleState c
  · rw [enqueueTask_task]
    split_ifs with hm
    · rfl
    · exact h.linked c m hc hlock
  · rw [enqueueTask_task] at hm hne
    split_ifs at hm hne with heq
    · exact absurd hstate hne
    · exact h.asleep m hm hne
  · rw [enqueueTask_task] at hm
    split_ifs at hm with heq
    · rw [Tid.task.inj heq]
      exact halive
    · exact h.aliveQueue m hm

theorem Inv.setPhase {ph : Phase} (h : Inv s) (hph : PhaseOk s c ph) : Inv (setPhase c ph s) := by
  refine { h with phase := fun d => ?_ }
  change PhaseOk s d (update s.phase c ph d)
  rw [update_apply]
  split_ifs with hdc
  · rw [hdc]
    exact hph
  · exact h.phase d

/-- No CPU is in the middle of `schedule` when the lock is free. -/
theorem PhaseOk.acquire {ph : Phase} (hph : PhaseOk s d ph) (hlock : s.lock = none) (hdc : d ≠ c) :
    PhaseOk { s with lock := some c } d ph := by
  have hne : some c ≠ some d := fun heq => hdc (Option.some.inj heq).symm
  cases ph with
  | running => exact hne
  | entered cpu => exact ⟨hph.1, hne⟩
  | scan cpu rest =>
    have hsome := hph.2.1
    rw [hlock] at hsome
    cases hsome
  | picking cpu =>
    have hsome := hph.2
    rw [hlock] at hsome
    cases hsome

/-- `schedule` takes the lock when its task is not going to sleep. -/
theorem Inv.acquire (h : Inv s) (hlock : s.lock = none)
    (hstate : ∀ n, s.current c = .task n → (s.task (.task n)).state = .running) :
    Inv (Sched.setPhase c (.scan c s.tasks) { s with lock := some c }) := by
  refine { h with
    linked := fun d n hd _ => ?_, asleep := fun n hn hne => ?_, phase := fun d => ?_ }
  · apply h.linked d n hd
    rw [hlock]
    exact nofun
  · obtain ⟨d, hd, -⟩ := h.asleep n hn hne
    refine ⟨d, hd, fun heq => ?_⟩
    cases heq
    exact hne (hstate n hd)
  · change PhaseOk { s with lock := some c } d (update s.phase c _ d)
    rw [update_apply]
    split_ifs with hdc
    · exact ⟨hdc.symm, congrArg some hdc.symm, h.aliveTasks⟩
    · exact (h.phase d).acquire hlock hdc

@[simp, grind =] theorem dequeueTask_task (p q : Tid) (s : State) :
    (dequeueTask p s).task q =
      if q = p then { s.task p with onRunqueue := false } else s.task q :=
  modify_task p q (fun t => { t with onRunqueue := false }) s

/-- `schedule` takes the lock, and its task is going to sleep. -/
theorem Inv.park (h : Inv s) (hlock : s.lock = none) (hc : s.current c = .task n) :
    Inv (Sched.setPhase c (.scan c s.tasks) { dequeueTask (.task n) s with lock := some c }) := by
  have htask : ∀ q, (Sched.setPhase c (.scan c s.tasks)
      { dequeueTask (.task n) s with lock := some c }).task q =
      if q = .task n then { s.task (.task n) with onRunqueue := false } else s.task q :=
    fun q => dequeueTask_task (.task n) q s
  refine { h with
    cpu := fun d => ?_, mem := fun d q => ?_, nodup := fun d => (h.nodup d).erase _,
    idle := fun d => ?_, idleCpu := fun d => ?_, idleState := fun d => ?_,
    linked := fun d m hd hne => ?_, asleep := fun m hm hne => ?_, aliveQueue := fun m hm => ?_, phase := fun d => ?_ }
  · have hd := h.cpu d
    rw [htask]
    change (if s.current d = .task n then _ else s.task (s.current d)).cpu = d
    split_ifs with heq
    · rw [heq] at hd
      exact hd
    · exact hd
  · have hmem := h.mem d q
    rw [htask]
    change q ∈ (s.rq d).erase (.task n) ↔ _
    rw [(h.nodup d).mem_erase_iff]
    split_ifs with hq
    · simp [hq]
    · rw [hmem]
      simp [hq]
  · rw [htask, if_neg (by simp)]
    exact h.idle d
  · rw [htask, if_neg (by simp)]
    exact h.idleCpu d
  · rw [htask, if_neg (by simp)]
    exact h.idleState d
  · have hmn : Tid.task m ≠ .task n := by
      intro heq
      obtain rfl : c = d := h.current_inj ((hc.trans heq.symm).trans hd.symm)
      exact hne rfl
    rw [htask, if_neg hmn]
    apply h.linked d m hd
    rw [hlock]
    exact nofun
  · rw [htask] at hm hne
    split_ifs at hm hne with hmn
    obtain ⟨d, hd, -⟩ := h.asleep m hm hne
    refine ⟨d, hd, fun heq => ?_⟩
    cases heq
    exact hmn (hd.symm.trans hc)
  · rw [htask] at hm
    split_ifs at hm with hmn
    exact h.aliveQueue m hm
  · change PhaseOk { s with lock := some c } d (update s.phase c _ d)
    rw [update_apply]
    split_ifs with hdc
    · exact ⟨hdc.symm, congrArg some hdc.symm, h.aliveTasks⟩
    · exact (h.phase d).acquire hlock hdc

/-- `schedule` releases the lock. The next task is linked or idle, and the outgoing one is still
the task of the CPU only if it is the next. -/
theorem Inv.release {next : Tid} (h : Inv s) (hlock : s.lock = some c) (hc : c < s.nrCpuIds)
    (hcpu : (s.task next).cpu = c)
    (hnext : next = .idle c ∨ (s.task next).onRunqueue = true) : Inv (switchTo c next s) := by
  have hcurrent : ∀ d, (switchTo c next s).current d = if d = c then next else s.current d := by
    intro d
    unfold switchTo
    rw [hcpu]
    exact update_apply ..
  have hsettled : ∀ n, (s.task (.task n)).onRunqueue = true → (s.task (.task n)).state ≠ .running →
      ∃ d, s.current d = .task n ∧ d ≠ c := by
    intro n hn hne
    obtain ⟨d, hd, hdlock⟩ := h.asleep n hn hne
    refine ⟨d, hd, ?_⟩
    rintro rfl
    exact hdlock hlock
  refine { h with
    running := fun d => ?_, cpu := fun d => ?_, linked := fun d n hd _ => ?_,
    asleep := fun n hn hne => ?_, aliveCurrent := fun d n hd => ?_, phase := fun d => ?_,
    offline := fun d hd => ?_ }
  · rw [hcurrent]
    change update s.running c next d = _
    rw [update_apply]
    split_ifs
    · rfl
    · exact h.running d
  · rw [hcurrent]
    split_ifs with hdc
    · rw [hdc]
      exact hcpu
    · exact h.cpu d
  · rw [hcurrent] at hd
    split_ifs at hd with hdc
    · subst hd
      exact hnext.resolve_left nofun
    · apply h.linked d n hd
      rw [hlock]
      exact fun heq => hdc (Option.some.inj heq).symm
  · obtain ⟨d, hd, hdc⟩ := hsettled n hn hne
    refine ⟨d, ?_, nofun⟩
    rw [hcurrent, if_neg hdc]
    exact hd
  · rw [hcurrent] at hd
    split_ifs at hd with hdc
    · subst hd
      exact h.aliveQueue n (hnext.resolve_left nofun)
    · exact h.aliveCurrent d n hd
  · change PhaseOk { s with lock := none } d (update s.phase c .running d)
    rw [update_apply]
    split_ifs with hdc
    · exact nofun
    · have hd := h.phase d
      cases hph : s.phase d with
      | running => exact nofun
      | entered cpu =>
        rw [hph] at hd
        exact ⟨hd.1, nofun⟩
      | scan cpu rest =>
        rw [hph] at hd
        exact absurd (Option.some.inj (hlock.symm.trans hd.2.1)).symm hdc
      | picking cpu =>
        rw [hph] at hd
        exact absurd (Option.some.inj (hlock.symm.trans hd.2)).symm hdc
  · have hdc : d ≠ c := (lt_of_lt_of_le hc hd).ne'
    rw [hcurrent, if_neg hdc]
    exact h.offline d hd

/-! ## The operations -/

theorem Inv.setRunning (h : Inv s) : Inv (setState p .running s) :=
  h.modify rfl rfl (Or.inr (Or.inl rfl))

@[simp, grind =] theorem setState_task (p q : Tid) (st : TaskState) (s : State) :
    (setState p st s).task q = if q = p then { s.task p with state := st } else s.task q :=
  modify_task p q (fun t => { t with state := st }) s

@[simp, grind =] theorem setCpu_task (p q : Tid) (cpu : ℕ) (s : State) :
    (setCpu p cpu s).task q = if q = p then { s.task p with cpu := cpu } else s.task q :=
  modify_task p q (fun t => { t with cpu := cpu }) s

theorem Inv.wakeUpProcess (h : Inv s) (halive : s.alive n = true) : Inv (wakeUpProcess (.task n) s) := by
  unfold Sched.wakeUpProcess
  split_ifs with hstate hlink hlink
  · exact h.setRunning
  · apply h.setRunning.enqueueTask
    · simpa using hlink
    · exact halive
    · simp
    · simp
  · exact h
  · apply h.enqueueTask
    · simpa using hlink
    · exact halive
    · simpa using hstate
    · rfl

theorem Inv.resolve (h : Inv s) (hlock : s.lock = none) :
    Inv (Sched.setPhase c (.scan c s.tasks)
      { resolveOutgoing c (s.current c) s with lock := some c }) := by
  unfold resolveOutgoing
  split_ifs with hsleeps hsignal hlink
  · refine (h.setRunning (p := s.current c)).acquire hlock fun n hn => ?_
    change s.current c = .task n at hn
    rw [setState_task, if_pos hn.symm]
  · have htask : ∃ n, s.current c = .task n := by
      cases hcur : s.current c with
      | idle d =>
        have hd := h.cpu c
        rw [hcur, h.idleCpu] at hd
        rw [hcur, hd] at hsleeps
        exact absurd rfl hsleeps.2
      | task n => exact ⟨n, rfl⟩
    obtain ⟨n, hn⟩ := htask
    rw [hn]
    exact h.park hlock hn
  · refine h.acquire hlock fun n hn => ?_
    -- The task of the CPU is linked before `schedule`.
    have hlinked := h.linked c n hn (by rw [hlock]; exact nofun)
    rw [hn] at hlink
    exact absurd hlinked hlink
  · refine h.acquire hlock fun n hn => ?_
    rw [not_and_or, not_not] at hsleeps
    rw [hn] at hsleeps
    exact hsleeps.resolve_right (by simp)

theorem Inv.scanTask (h : Inv s) (hlock : s.lock = some c) (halive : s.alive n = true) :
    Inv (scanTask (s.current c) (.task n) s) := by
  unfold Sched.scanTask
  split_ifs with hsignal hlink
  · exact h.setRunning
  · rw [Bool.not_eq_true] at hlink
    -- A task that runs on another CPU is linked, since that CPU is not inside `schedule`.
    have hcurrent : ∀ d, s.current d ≠ .task n := by
      intro d hd
      have hdc : s.lock ≠ some d := by
        rw [hlock]
        intro heq
        cases heq
        exact hsignal.1 hd.symm
      have hlinked := h.linked d n hd hdc
      rw [hlink] at hlinked
      cases hlinked
    have hmoved : Inv (setCpu (.task n) (selectTaskCpu (.task n) s)
        (setState (.task n) .running s)) := by
      apply h.setRunning.replace _ hcurrent
      · simpa using hlink
      · simpa using hlink
    apply hmoved.enqueueTask
    · simpa using hlink
    · exact halive
    · simp
    · simp
  · exact h

theorem scanTask_frame (cur p : Tid) (s : State) :
    (scanTask cur p s).lock = s.lock ∧ (scanTask cur p s).alive = s.alive := by
  unfold Sched.scanTask
  split_ifs
  · exact ⟨rfl, rfl⟩
  · exact ⟨rfl, rfl⟩
  · exact ⟨rfl, rfl⟩

theorem recheckCurrent_lock (cpu : ℕ) (p : Tid) (s : State) : (recheckCurrent cpu p s).lock = s.lock := by
  unfold Sched.recheckCurrent
  split_ifs
  · rfl
  · rfl
  · rfl

theorem Inv.recheckCurrent (h : Inv s) : Inv (recheckCurrent c (s.current c) s) := by
  unfold Sched.recheckCurrent
  split_ifs with hsignal hlink
  · exact h.setRunning
  · have hcpu := h.cpu c
    cases hcur : s.current c with
    | idle d =>
      rw [hcur, h.idleState] at hsignal
      cases hsignal.1
    | task n =>
      rw [hcur] at hlink hcpu
      apply h.setRunning.enqueueTask
      · simpa using hlink
      · exact h.aliveCurrent c n hcur
      · simp
      · simpa using hcpu
  · exact h

theorem pickNext_spec (cpu : ℕ) (s : State) : (pickNext cpu s).2 = .idle cpu ∨ (pickNext cpu s).2 ∈ s.rq cpu := by
  have hfold : ∀ (l : List Tid) (best : ℤ × Tid), (∀ p ∈ l, p ∈ s.rq cpu) →
      best.2 = .idle cpu ∨ best.2 ∈ s.rq cpu →
      (l.foldl (fun best p => if best.1 < (s.task p).counter then ((s.task p).counter, p)
        else best) best).2 = .idle cpu ∨
      (l.foldl (fun best p => if best.1 < (s.task p).counter then ((s.task p).counter, p)
        else best) best).2 ∈ s.rq cpu := by
    intro l
    induction l with
    | nil => exact fun _ _ hbest => hbest
    | cons p l ih =>
      intro best hl hbest
      rw [List.foldl_cons]
      apply ih _ fun q hq => hl q (List.mem_cons_of_mem p hq)
      split_ifs
      · exact Or.inr (hl p List.mem_cons_self)
      · exact hbest
  exact hfold (s.rq cpu) (-100, .idle cpu) (fun p hp => hp) (Or.inl rfl)

/-- The tasks with other counters. -/
def setCounters (k : Tid → ℤ) (s : State) : State :=
  { s with task := fun q => { s.task q with counter := k q } }

theorem refill_eq (c : ℤ) (s : State) : ∃ k, refill c s = setCounters k s := by
  have hfold : ∀ (l : List ℕ) (k : Tid → ℤ), ∃ k', l.foldl (fun s n => Sched.modify (.task n)
      (fun t => { t with counter := defCounter }) s) (setCounters k s) = setCounters k' s := by
    intro l
    induction l with
    | nil => exact fun k => ⟨k, rfl⟩
    | cons n l ih =>
      intro k
      have hone : Sched.modify (.task n) (fun t => { t with counter := defCounter })
          (setCounters k s) = setCounters (update k (.task n) defCounter) s := by
        unfold Sched.modify setCounters
        congr 1
        funext q
        by_cases hq : q = .task n
        · subst hq
          simp
        · simp [update_of_ne hq]
      rw [List.foldl_cons, hone]
      exact ih _
  unfold refill
  split_ifs
  · exact hfold s.tasks fun q => (s.task q).counter
  · exact ⟨fun q => (s.task q).counter, rfl⟩

theorem Inv.setCounters (h : Inv s) (k : Tid → ℤ) : Inv (setCounters k s) := { h with }

theorem Inv.finishSchedule (h : Inv s) (hlock : s.lock = some c) (hc : c < s.nrCpuIds) :
    Inv (finishSchedule c c s) := by
  obtain ⟨k, hk⟩ := refill_eq (pickNext c s).1 s
  have hnext := pickNext_spec c s
  generalize hp : (pickNext c s).2 = next at hnext
  have hcpu : (s.task next).cpu = c := by
    rcases hnext with rfl | hmem
    · exact h.idleCpu c
    · exact ((h.mem c next).mp hmem).2
  have hlinked : next = .idle c ∨ (s.task next).onRunqueue = true :=
    hnext.imp_right fun hmem => ((h.mem c next).mp hmem).1
  have hrelease : Inv (switchTo c next (Sched.setCounters k s)) :=
    (h.setCounters k).release hlock hc hcpu hlinked
  unfold Sched.finishSchedule
  dsimp only
  rw [hp, hk]
  split_ifs with heq
  · -- The same task goes on, which is a switch to itself.
    have hrunning : s.running c = next := by
      rw [h.running, heq]
    have hsame : switchTo c next (Sched.setCounters k s) =
        Sched.setPhase c .running { Sched.setCounters k s with lock := none } := by
      unfold switchTo Sched.setPhase
      change State.mk _ _ _ _ _ (update s.current (s.task next).cpu next)
        (update s.running c next) _ _ = State.mk _ _ _ _ _ s.current s.running _ _
      rw [hcpu, ← hrunning, update_eq_self, hrunning, heq, update_eq_self]
    rw [← hsame]
    exact hrelease
  · exact hrelease

theorem Inv.schedSetCpusAllowed {mask : Word} (h : Inv s)
    (hmoves : Moves (.task n) mask s → ∀ d < s.nrCpuIds, s.running d ≠ .task n) :
    Inv (schedSetCpusAllowed c (.task n) mask s) := by
  unfold Sched.schedSetCpusAllowed
  have hmask : Inv (Sched.modify (.task n) (fun t => { t with cpusAllowed := mask &&& onlineCpuMask s }) s) :=
    h.modify rfl rfl (Or.inl rfl)
  dsimp only
  split_ifs with hzero hself hmove
  · exact h
  · exact h
  · cases hfirst : firstAllowed s.nrCpuIds (mask &&& onlineCpuMask s) with
    | none => exact hmask
    | some cpu =>
      have hcurrent : ∀ d, s.current d ≠ .task n := by
        intro d hd
        by_cases honline : d < s.nrCpuIds
        · exact hmoves hmove d honline ((h.running d).trans hd)
        · rw [h.offline d (not_lt.mp honline)] at hd
          cases hd
      have hlink : (s.task (.task n)).onRunqueue = false := by
        rw [← Bool.not_eq_true]
        intro hlink
        obtain ⟨d, hd, -⟩ := h.asleep n hlink hmove.2
        exact hcurrent d hd
      rw [Option.elim_some]
      apply hmask.replace _ hcurrent
      · simpa using hlink
      · simpa using hlink
  · exact hmask

theorem Inv.forkTask (h : Inv s) (hn : s.alive n = false) : Inv (forkTask c n s) := by
  have hlink : (s.task (.task n)).onRunqueue = false := by
    rw [← Bool.not_eq_true]
    intro hlink
    rw [h.aliveQueue n hlink] at hn
    cases hn
  have hcurrent : ∀ d, s.current d ≠ .task n := by
    intro d hd
    rw [h.aliveCurrent d n hd] at hn
    cases hn
  unfold Sched.forkTask
  have hhalf : Inv (Sched.modify (s.current c) (fun t => { t with counter := t.counter / 2 }) s) :=
    h.modify rfl rfl (Or.inl rfl)
  have hhalf' : ((Sched.modify (s.current c) (fun t => { t with counter := t.counter / 2 })
      s).task (.task n)).onRunqueue = false := by
    rw [modify_task, if_neg (hcurrent c).symm]
    exact hlink
  have hle : ∀ m, s.alive m = true → update s.alive n true m = true := by
    intro m hm
    rw [update_apply]
    split_ifs
    · rfl
    · exact hm
  have hnew := hhalf.replace (f := fun _ =>
    { s.task (s.current c) with
      state := .uninterruptible
      counter := ((s.task (s.current c)).counter + 1) / 2
      signal := 0
      pid := n
      cpusAllowed := onlineCpuMask s
      onRunqueue := false }) hhalf' hcurrent rfl
  refine { hnew with
    aliveQueue := fun m hm => hle m (hnew.aliveQueue m hm)
    aliveCurrent := fun d m hd => hle m (hnew.aliveCurrent d m hd)
    aliveTasks := fun m hm => hle m (hnew.aliveTasks m hm)
    phase := fun d => ?_ }
  have hd := hnew.phase d
  change PhaseOk _ d (s.phase d)
  change PhaseOk _ d (s.phase d) at hd
  cases hph : s.phase d with
  | running =>
    rw [hph] at hd
    exact hd
  | entered cpu =>
    rw [hph] at hd
    exact hd
  | scan cpu rest =>
    rw [hph] at hd
    exact ⟨hd.1, hd.2.1, fun m hm => hle m (hd.2.2 m hm)⟩
  | picking cpu =>
    rw [hph] at hd
    exact hd

/-! ## The runs -/

/-- `sched_set_cpus_allowed` does not move a task that is running on some CPU. -/
def Good (s : State) : Label → Prop
  | .schedSetCpusAllowed _ n mask =>
      Moves (.task n) mask s → ∀ d < s.nrCpuIds, s.running d ≠ .task n
  | _ => True

instance (s : State) : ∀ a, Decidable (Good s a)
  | .schedSetCpusAllowed _ n mask => inferInstanceAs (Decidable
      (Moves (.task n) mask s → ∀ d < s.nrCpuIds, s.running d ≠ .task n))
  | .setState _ _ | .doSignal _ | .setSignals _ _ _ _ | .irqPIT _ | .fork _ _ | .setLinks _
  | .wakeUpProcess _ | .exitGroupWake _ | .sendSig _ _ | .schedule _ | .resolve _ | .scan _ | .recheck _ | .switch _ => isTrue trivial

/-- The task of a CPU is linked while it runs, unless it is the idle task. -/
theorem Inv.exists_task (h : Inv s) (hphase : s.phase c = .running) (hidle : s.current c ≠ .idle c) :
    ∃ n, s.current c = .task n ∧ s.lock ≠ some c := by
  have hlock := h.phase c
  rw [hphase] at hlock
  cases hcur : s.current c with
  | idle d =>
    have hd := h.cpu c
    rw [hcur, h.idleCpu] at hd
    rw [hcur, hd] at hidle
    exact absurd rfl hidle
  | task n => exact ⟨n, rfl, hlock⟩

/-- A pass of `do_signal` leaves the place of the task alone. -/
theorem signalPass_place (t : Task) : (signalPass t).1.cpu = t.cpu ∧ (signalPass t).1.onRunqueue = t.onRunqueue := by
  unfold signalPass
  split
  · exact ⟨rfl, rfl⟩
  · dsimp only
    split_ifs
    · exact ⟨rfl, rfl⟩
    · exact ⟨rfl, rfl⟩
    · unfold defaultAction
      split_ifs
      · exact ⟨rfl, rfl⟩
      · exact ⟨rfl, rfl⟩
      · exact ⟨rfl, rfl⟩
      · exact ⟨rfl, rfl⟩
    · exact ⟨rfl, rfl⟩

theorem Inv.step {a : Label} (h : Inv s) (hgood : Good s a) (hstep : Step s a s') : Inv s' := by
  obtain ⟨hlegal, hstep⟩ := hstep
  cases a with
  | setState c st =>
    dsimp only [exec] at hstep
    split_ifs at hstep with hc
    cases hstep
    obtain ⟨n, hn, hlock⟩ := h.exists_task hc.1 hc.2
    exact h.modify rfl rfl (Or.inr (Or.inr ⟨n, c, hn, hn, hlock⟩))
  | doSignal c =>
    dsimp only [exec] at hstep
    split_ifs at hstep with hc
    cases hstep
    obtain ⟨n, hn, hlock⟩ := h.exists_task hc.1 hc.2
    obtain ⟨hcpu, hrq⟩ := signalPass_place (s.task (s.current c))
    exact h.modify hcpu hrq (Or.inr (Or.inr ⟨n, c, hn, hn, hlock⟩))
  | setSignals c signal blocked sigaction =>
    dsimp only [exec] at hstep
    split_ifs at hstep with hc
    cases hstep
    exact h.modify rfl rfl (Or.inl rfl)
  | irqPIT c =>
    dsimp only [exec] at hstep
    cases hstep
    unfold irqPIT
    split_ifs
    · exact h
    · exact h.modify rfl rfl (Or.inl rfl)
  | fork c n =>
    dsimp only [exec] at hstep
    split_ifs at hstep with hc
    cases hstep
    exact h.forkTask hc.2
  | setLinks n =>
    dsimp only [exec] at hstep
    split_ifs at hstep with hc
    cases hstep
    refine { h with aliveTasks := fun m hm => ?_ }
    rcases List.mem_append.mp hm with hm | hm
    · exact h.aliveTasks m hm
    · rw [List.mem_singleton.mp hm]
      exact hc.2.1
  | wakeUpProcess n =>
    dsimp only [exec] at hstep
    split_ifs at hstep with hc
    cases hstep
    exact h.wakeUpProcess hc.2
  | exitGroupWake n =>
    dsimp only [exec] at hstep
    by_cases hc : s.lock = none ∧ s.alive n = true
    · rw [if_pos hc] at hstep
      cases hstep
      split_ifs
      · exact h.wakeUpProcess hc.2
      · exact h
    · rw [if_neg hc] at hstep
      cases hstep
  | sendSig sig n =>
    dsimp only [exec] at hstep
    split_ifs at hstep with hc
    cases hstep
    obtain ⟨hcpu, hrq⟩ := sendSig_place sig (s.task (.task n))
    apply h.modify hcpu hrq
    rw [sendSig_state]
    split_ifs
    · exact Or.inr (Or.inl rfl)
    · exact Or.inl rfl
  | schedSetCpusAllowed c n mask =>
    dsimp only [exec] at hstep
    split_ifs at hstep with hc
    cases hstep
    exact h.schedSetCpusAllowed hgood
  | schedule c =>
    dsimp only [exec] at hstep
    split_ifs at hstep with hc
    cases hstep
    have hlock := h.phase c
    rw [hc] at hlock
    exact h.setPhase ⟨h.cpu c, hlock⟩
  | resolve c =>
    have hphase := h.phase c
    dsimp only [exec] at hstep
    split at hstep
    · rename_i cpu hcpu
      split_ifs at hstep with hlock
      cases hstep
      rw [hcpu] at hphase
      rw [hphase.1]
      exact h.resolve hlock
    · cases hstep
  | scan c =>
    have hphase := h.phase c
    dsimp only [exec] at hstep
    split at hstep
    · rename_i cpu n rest hscan
      cases hstep
      rw [hscan] at hphase
      obtain ⟨hcpu, hlock, halive⟩ := hphase
      obtain ⟨hlock', halive'⟩ := scanTask_frame (s.current c) (.task n) s
      refine (h.scanTask hlock (halive n List.mem_cons_self)).setPhase ⟨hcpu, ?_, fun m hm => ?_⟩
      · rw [hlock', hlock]
      · rw [halive']
        exact halive m (List.mem_cons_of_mem n hm)
    · cases hstep
  | recheck c =>
    have hphase := h.phase c
    dsimp only [exec] at hstep
    split at hstep
    · rename_i cpu hscan
      cases hstep
      rw [hscan] at hphase
      obtain ⟨hcpu, hlock, -⟩ := hphase
      rw [hcpu]
      refine h.recheckCurrent.setPhase ⟨rfl, ?_⟩
      rw [recheckCurrent_lock, hlock]
    · cases hstep
  | switch c =>
    have hphase := h.phase c
    dsimp only [exec] at hstep
    split at hstep
    · rename_i cpu hpick
      cases hstep
      rw [hpick] at hphase
      rw [hphase.1]
      exact h.finishSchedule hphase.2 (hlegal c rfl)
    · cases hstep

theorem Initial.inv (h : Initial s) : Inv s := by
  have hrunning : ∀ c, s.running c = s.current c := by
    intro c
    rw [h.running, h.current]
  refine ⟨hrunning, fun c => ?_, fun c p => ?_, fun c => ?_, fun c => (h.idle c).2.1,
    fun c => (h.idle c).1, fun c => (h.idle c).2.2, fun c n hc => ?_, fun n hn => ?_,
    fun n hn => ?_, fun c n hc => ?_, fun n hn => ?_, fun c => ?_, fun c _ => h.current c⟩
  · rw [h.current]
    exact (h.idle c).1
  · cases p with
    | idle d => simp [h.rq, (h.idle d).2.1]
    | task n => simp [h.rq, h.task]
  · rw [h.rq]
    exact List.nodup_nil
  · rw [h.current] at hc
    cases hc
  · rw [h.task] at hn
    cases hn
  · rw [h.task] at hn
    cases hn
  · rw [h.current] at hc
    cases hc
  · rw [h.tasks] at hn
    cases hn
  · rw [h.phase]
    change s.lock ≠ some c
    rw [h.lock]
    exact nofun

/-- Every task is in one place. -/
structure Placed (s : State) : Prop where
  current : ∀ c d, s.current c = s.current d → c = d
  queue : ∀ p c d, p ∈ s.rq c → p ∈ s.rq d → c = d
  running : ∀ c, s.running c = s.current c ∧ (s.task (s.running c)).cpu = c

theorem Inv.placed (h : Inv s) : Placed s := by
  refine ⟨fun c d => h.current_inj, fun p c d hc hd => ?_, fun c => ⟨h.running c, ?_⟩⟩
  · rw [← ((h.mem c p).mp hc).2, ((h.mem d p).mp hd).2]
  · rw [h.running]
    exact h.cpu c

theorem Inv.of_run {s₀ : State} {labs : List Label} (hinit : Initial s₀)
    (hrun : Run (Guarded Good Step) s₀ labs s) : Inv s := by
  refine hrun.invariant (P := Inv) hinit.inv ?_
  intro u v a hu hstep
  exact hu.step hstep.1 hstep.2

/-- In every run in which `sched_set_cpus_allowed` moves no running task, every task is in one
place. -/
theorem tasks_placed (s₀ : State) (hinit : Initial s₀) (labs : List Label) (s : State)
    (hrun : Run (Guarded Good Step) s₀ labs s) : Placed s :=
  (Inv.of_run hinit hrun).placed

/-- Two CPUs with their idle tasks. -/
def boot : State :=
  { nrCpuIds := 2
    task := fun p =>
      { state := .running, counter := 0, signal := 0, blocked := 0, exitCode := 0, pid := 0
        cpu := match p with
          | .idle c => c
          | .task _ => 0
        cpusAllowed := 3, onRunqueue := false, sigaction := fun _ => ⟨0, 0, 0, 0⟩ }
    alive := fun _ => false
    tasks := []
    rq := fun _ => []
    current := .idle
    running := .idle
    phase := fun _ => .running
    lock := none }

theorem boot_initial : Initial boot :=
  ⟨fun _ => ⟨rfl, rfl, rfl⟩, fun _ => rfl, fun _ => rfl, rfl, fun _ => rfl, fun _ => rfl,
    fun _ => rfl, fun _ => rfl, rfl⟩

/-- A call of `schedule`, with a number of tasks. -/
def scheduleSteps (c tasks : ℕ) : List Label :=
  [.schedule c, .resolve c] ++ List.replicate tasks (.scan c) ++ [.recheck c, .switch c]

/-- Task 1 runs on CPU 0, and task 2 on CPU 1. -/
def twoTasks : List Label :=
  [.fork 0 1, .setLinks 1, .wakeUpProcess 1] ++ scheduleSteps 0 1 ++
    [.fork 0 2, .setLinks 2, .schedSetCpusAllowed 0 2 2, .wakeUpProcess 2] ++ scheduleSteps 1 2

/-- Task 1 sleeps, and then it is allowed on CPU 1 only, and a signal wakes it. -/
def moved : List Label :=
  twoTasks ++ [.setState 0 .interruptible] ++ scheduleSteps 0 2 ++
    [.schedSetCpusAllowed 1 1 2, .sendSig sigkill 1] ++ scheduleSteps 0 2

theorem moved_replays : (replay (fun s a => Good s a ∧ Legal s a) exec boot moved).isSome := by
  decide +kernel

theorem tasks_placed_moved :
    Initial boot ∧ ∃ s, Run (Guarded Good Step) boot moved s ∧ .task 1 ∈ s.rq 1 ∧
      s.running 1 = .task 2 ∧ Placed s := by
  have hrun : Run (Guarded Good Step) boot moved _ :=
    (run_of_replay (Option.some_get moved_replays).symm).mono
      fun _ _ _ hstep => ⟨hstep.1.1, hstep.1.2, hstep.2⟩
  exact ⟨boot_initial, _, hrun, by decide +kernel, by decide +kernel,
    tasks_placed boot boot_initial _ _ hrun⟩

/-- Task 1 is about to sleep, and it is moved before it has called `schedule`. -/
def dragged : List Label :=
  twoTasks ++ [.setState 0 .interruptible, .schedSetCpusAllowed 1 1 2]

theorem dragged_replays : (replay Legal exec boot dragged).isSome := by
  decide +kernel

/-- The task is then running on a CPU that is not its own. -/
theorem tasks_misplaced :
    ¬ ∀ (s₀ : State), Initial s₀ → ∀ labs s, Run Step s₀ labs s → Placed s := by
  intro h
  have hplaced := h boot boot_initial _ _ (run_of_replay (Option.some_get dragged_replays).symm)
  exact absurd (hplaced.running 0).2 (by decide +kernel)

end Mario.Kernel.Sched
