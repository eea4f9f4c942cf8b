import Mario.Kernel.Task
import Mario.Lib.Runs

/-!
# Exit and `sys_waitpid`

A task that exits gives its children to init, publishes `TASK_ZOMBIE`, and leaves its stack in its
last call of `schedule`; only then `_switch_to` sets `parked`, on behalf of the next task of the
CPU. Its parent looks at its state without a lock. The steps are the accesses of `do_exit`,
`_switch_to` and `sys_waitpid` to the children and to the states of tasks. When `sys_waitpid` comes
back from its sleep does not matter here, so it comes back at any time.
-/

namespace Mario.Kernel

open Function

/-- The children that `sys_waitpid` is asked for. -/
def waitMatches (pid mypgrp : ℤ) (child : ℕ) (pgrp : ℤ) : Bool :=
  if 0 < pid then (child : ℤ) == pid
  else if pid = 0 then pgrp == mypgrp
  else if pid = -1 then true
  else pgrp == -pid

namespace Reap

open Mario.Lib

inductive Pc
  /-- In its program, or in another system call. -/
  | user
  /-- In `sys_waitpid`: these children are still to be looked at. -/
  | scan (pid : ℤ) (wnohang : Bool) (rest : List ℕ) (flag : Bool)
  /-- In `sys_waitpid`: a zombie is found. -/
  | reap (child : ℕ)
  /-- In `sys_waitpid`: in `schedule`. -/
  | sleep (pid : ℤ)
  /-- In `do_exit`: the children are given to init. -/
  | reparent (code : ℕ)
  /-- In `do_exit`: the state is to be set. -/
  | leave (code : ℕ)
  /-- In `do_exit`: the state is set. -/
  | zombie (code : ℕ)
  /-- In the last call of `schedule`. -/
  | last
  /-- Switched away from for the last time. -/
  | away
  /-- `_switch_to` is through with the task. -/
  | gone
  deriving DecidableEq

structure State where
  state : ℕ → TaskState
  exitCode : ℕ → ℕ
  pgrp : ℕ → ℤ
  parked : ℕ → Bool
  /-- `p_pptr`. -/
  parent : ℕ → ℕ
  /-- The list that starts at `p_cptr`. -/
  children : ℕ → List ℕ
  pc : ℕ → Pc
  /-- The task has been created. -/
  born : ℕ → Bool
  /-- The number of calls of `free_task_struct` on the task. -/
  freed : ℕ → ℕ
  /-- The number of calls of `sys_waitpid` that returned the task after it had exited. -/
  returned : ℕ → ℕ

/-- The child reaper. -/
def init : ℕ := 1

def setPc (t : ℕ) (pc : Pc) (s : State) : State := { s with pc := update s.pc t pc }

/-- `do_fork`. -/
def fork (t c : ℕ) (s : State) : State :=
  { s with
    state := update s.state c .running
    exitCode := update s.exitCode c (s.exitCode t)
    pgrp := update s.pgrp c (s.pgrp t)
    parked := update s.parked c false
    parent := update s.parent c t
    children := update s.children t (c :: s.children t)
    pc := update s.pc c .user
    born := update s.born c true }

/-- `sys_waitpid` looks at a child. -/
def look (t : ℕ) (pid : ℤ) (wnohang : Bool) (c : ℕ) (rest : List ℕ) (flag : Bool) (s : State) :
    State :=
  if waitMatches pid (s.pgrp t) c (s.pgrp c) then
    if s.state c = .stopped then
      if s.exitCode c = 0 then setPc t (.scan pid wnohang rest true) s
      else setPc t .user { s with exitCode := update s.exitCode c 0 }
    else if s.state c = .zombie then setPc t (.reap c) s
    else setPc t (.scan pid wnohang rest true) s
  else setPc t (.scan pid wnohang rest flag) s

/-- `REMOVE_LINKS`, `free_task_struct`, and the return of `sys_waitpid`. -/
def free (t c : ℕ) (s : State) : State :=
  setPc t .user
    { s with
      children := update s.children (s.parent c) ((s.children (s.parent c)).erase c)
      freed := update s.freed c (s.freed c + 1)
      returned := update s.returned c (s.returned c + 1) }

/-- `do_exit` gives a child to init. -/
def adopt (t c : ℕ) (rest : List ℕ) (s : State) : State :=
  let children := update s.children t rest
  { s with
    parent := update s.parent c init
    children := update children init (c :: children init) }

inductive Label
  | fork (t c : ℕ)
  /-- The state of a task changes, but it does not exit. -/
  | setState (t : ℕ) (st : TaskState) (code : ℕ)
  | waitpid (t : ℕ) (pid : ℤ) (wnohang : Bool)
  | look (t : ℕ)
  | endScan (t : ℕ)
  | free (t : ℕ)
  /-- `schedule` returns to `sys_waitpid`, which goes on or returns because of a signal. -/
  | wake (t : ℕ) (signal : Bool)
  | exit (t code : ℕ)
  | adopt (t : ℕ)
  | publish (t : ℕ)
  | setExitCode (t : ℕ)
  | switch (t : ℕ)
  /-- `_switch_to` sets `parked`. -/
  | park (t : ℕ)
  deriving DecidableEq

def exec (s : State) : Label → Option State
  | .fork t c =>
      if s.born t = true ∧ s.pc t = .user ∧ s.born c = false then some (fork t c s) else none
  | .setState t st code =>
      if s.born t = true ∧ s.pc t = .user ∧ st ≠ .zombie then
        some { s with
          state := update s.state t st
          exitCode := update s.exitCode t code }
      else none
  | .waitpid t pid wnohang =>
      if s.born t = true ∧ s.pc t = .user then
        some (setPc t (.scan pid wnohang (s.children t) false) s)
      else none
  | .look t =>
      match s.pc t with
      | .scan pid wnohang (c :: rest) flag => some (look t pid wnohang c rest flag s)
      | _ => none
  | .endScan t =>
      match s.pc t with
      | .scan pid wnohang [] flag =>
          some (setPc t (if flag = true ∧ wnohang = false then .sleep pid else .user) s)
      | _ => none
  | .free t =>
      match s.pc t with
      | .reap c => some (free t c s)
      | _ => none
  | .wake t signal =>
      match s.pc t with
      | .sleep pid =>
          some (setPc t (if signal then .user else .scan pid false (s.children t) false) s)
      | _ => none
  | .exit t code =>
      if s.born t = true ∧ s.pc t = .user ∧ t ≠ init then some (setPc t (.reparent code) s)
      else none
  | .adopt t =>
      match s.pc t, s.children t with
      | .reparent _, c :: rest => some (adopt t c rest s)
      | .reparent code, [] => some (setPc t (.leave code) s)
      | _, _ => none
  | .publish t =>
      match s.pc t with
      | .leave code => some (setPc t (.zombie code) { s with
          state := update s.state t .zombie })
      | _ => none
  | .setExitCode t =>
      match s.pc t with
      | .zombie code => some (setPc t .last { s with
          exitCode := update s.exitCode t code })
      | _ => none
  | .switch t => if s.pc t = .last then some (setPc t .away s) else none
  | .park t =>
      if s.pc t = .away then
        some (setPc t .gone
          (if s.state t = .zombie then { s with parked := update s.parked t true } else s))
      else none

def Step (s : State) (a : Label) (s' : State) : Prop := exec s a = some s'

/-- Only init has been created. -/
structure Initial (s : State) : Prop where
  children : ∀ t, s.children t = if t = 0 then [init] else []
  parent : s.parent init = 0
  born : ∀ t, s.born t = decide (t = init)
  pc : ∀ t, s.pc t = .user
  parked : ∀ t, s.parked t = false
  freed : ∀ t, s.freed t = 0
  returned : ∀ t, s.returned t = 0

/-- The scan of `sys_waitpid` meets no zombie that is still on its way to its last switch. -/
def Good (s : State) : Label → Prop
  | .look t =>
      match s.pc t with
      | .scan pid _ (c :: _) _ =>
          waitMatches pid (s.pgrp t) c (s.pgrp c) = true → s.state c = .zombie → s.parked c = true
      | _ => True
  | _ => True

/-- A task is freed when it has left its stack for good, and every task is either the child of
one task, or it has been returned and freed once. -/
structure ReapedOnce (s : State) : Prop where
  gone : ∀ t, s.freed t ≠ 0 → s.parked t = true ∧ s.pc t = .gone
  once : ∀ t, s.born t = true →
    (s.freed t = 0 ∧ s.returned t = 0 ∧ ∃ q, ∀ u, t ∈ s.children u ↔ u = q) ∨
      (s.freed t = 1 ∧ s.returned t = 1 ∧ ∀ u, t ∉ s.children u)

/-! ## The invariant -/

variable {s s' : State} {t c q : ℕ}

/-- What is known of a task at its place. -/
def PcOk (s : State) (t : ℕ) : Pc → Prop
  | .scan _ _ rest _ => ∀ c ∈ rest, c ∈ s.children t
  | .reap c => c ∈ s.children t ∧ s.parked c = true
  | .zombie _ | .last | .away => s.state t = .zombie
  | .gone => s.parked t = true
  | .reparent _ => t ≠ init
  | _ => True

/-- Every task that has not been freed is in the list of its parent. -/
structure Inv (s : State) : Prop where
  mem : ∀ q c, c ∈ s.children q ↔ s.born c = true ∧ s.freed c = 0 ∧ s.parent c = q
  nodup : ∀ q, (s.children q).Nodup
  returned : ∀ c, s.returned c = s.freed c
  once : ∀ c, s.freed c = 0 ∨ s.freed c = 1 ∧ s.parked c = true
  parked : ∀ c, s.parked c = true → s.pc c = .gone
  unborn : ∀ c, s.born c = false → s.freed c = 0
  pc : ∀ t, PcOk s t (s.pc t)

/-- What is known of a task stays when its children do, and its own state. -/
theorem PcOk.mono {pc : Pc} (h : PcOk s t pc)
    (hchildren : ∀ c ∈ s.children t, c ∈ s'.children t ∧ (s.parked c = true → s'.parked c = true))
    (hstate : s'.state t = s.state t) (hparked : s.parked t = true → s'.parked t = true) : PcOk s' t pc := by
  cases pc with
  | scan pid wnohang rest flag => exact fun c hc => (hchildren c (h c hc)).1
  | reap c => exact ⟨(hchildren c h.1).1, (hchildren c h.1).2 h.2⟩
  | zombie code => exact hstate.trans h
  | last => exact hstate.trans h
  | away => exact hstate.trans h
  | gone => exact hparked h
  | _ => exact h

theorem Inv.reapedOnce (h : Inv s) : ReapedOnce s := by
  constructor
  · intro t ht
    have hparked := ((h.once t).resolve_left ht).2
    exact ⟨hparked, h.parked t hparked⟩
  · intro t hborn
    rw [h.returned]
    rcases h.once t with hzero | ⟨hone, -⟩
    · refine Or.inl ⟨hzero, hzero, s.parent t, fun u => ?_⟩
      rw [h.mem]
      constructor
      · exact fun hu => hu.2.2.symm
      · exact fun hu => ⟨hborn, hzero, hu.symm⟩
    · refine Or.inr ⟨hone, hone, fun u hu => ?_⟩
      have hzero := ((h.mem u t).mp hu).2.1
      omega

theorem Inv.setPc {pc : Pc} (h : Inv s) (hpc : PcOk s t pc) (hgone : s.pc t ≠ .gone) : Inv (setPc t pc s) := by
  refine { h with parked := fun c hc => ?_, pc := fun u => ?_ }
  · have hold := h.parked c hc
    change update s.pc t pc c = .gone
    rw [update_of_ne]
    · exact hold
    · rintro rfl
      exact hgone hold
  · change PcOk s u (update s.pc t pc u)
    rw [update_apply]
    split_ifs with hu
    · rw [hu]
      exact hpc
    · exact h.pc u

theorem Inv.look {pid : ℤ} {wnohang flag : Bool} {rest : List ℕ} (h : Inv s)
    (hpc : s.pc t = .scan pid wnohang (c :: rest) flag)
    (hparked : waitMatches pid (s.pgrp t) c (s.pgrp c) = true → s.state c = .zombie → s.parked c = true) :
    Inv (look t pid wnohang c rest flag s) := by
  have hmem := h.pc t
  rw [hpc] at hmem
  have hgone : s.pc t ≠ .gone := by simp [hpc]
  have hscan : ∀ flag, PcOk s t (.scan pid wnohang rest flag) :=
    fun _ c hc => hmem c (List.mem_cons_of_mem _ hc)
  unfold Reap.look
  split_ifs with hmatches hstopped hcode hzombie
  · exact h.setPc (hscan true) hgone
  · have hcode : Inv { s with exitCode := update s.exitCode c 0 } := { h with }
    exact hcode.setPc trivial hgone
  · exact h.setPc ⟨hmem c List.mem_cons_self, hparked hmatches hzombie⟩ hgone
  · exact h.setPc (hscan true) hgone
  · exact h.setPc (hscan flag) hgone

theorem Inv.free (h : Inv s) (hpc : s.pc t = .reap c) : Inv (free t c s) := by
  have hfound := h.pc t
  rw [hpc] at hfound
  obtain ⟨hchild, hparked⟩ := hfound
  obtain ⟨hborn, hzero, hparent⟩ := (h.mem t c).mp hchild
  have htc : t ≠ c := by
    rintro rfl
    have hgone := h.parked t hparked
    rw [hpc] at hgone
    cases hgone
  have hchildren : ∀ u, (Reap.free t c s).children u =
      if u = t then (s.children t).erase c else s.children u := by
    intro u
    change update s.children (s.parent c) ((s.children (s.parent c)).erase c) u = _
    rw [hparent]
    exact update_apply ..
  have hfreed : ∀ u, (Reap.free t c s).freed u = if u = c then s.freed c + 1 else s.freed u :=
    fun u => update_apply ..
  have hreturned : ∀ u, (Reap.free t c s).returned u =
      if u = c then s.returned c + 1 else s.returned u := fun u => update_apply ..
  have hpcs : ∀ u, (Reap.free t c s).pc u = if u = t then .user else s.pc u :=
    fun u => update_apply ..
  refine { h with
    mem := fun q d => ?_, nodup := fun q => ?_, returned := fun d => ?_, once := fun d => ?_,
    parked := fun d hd => ?_, unborn := fun d hd => ?_, pc := fun u => ?_ }
  · have hold := h.mem q d
    rw [hchildren, hfreed]
    change _ ↔ s.born d = true ∧ _ ∧ s.parent d = q
    split_ifs with hq hd hd
    · rw [hd, (h.nodup t).mem_erase_iff]
      simp
    · rw [hq] at hold ⊢
      rw [(h.nodup t).mem_erase_iff, hold]
      simp [hd]
    · rw [hd] at hold ⊢
      rw [hold, hparent]
      simp [Ne.symm hq]
    · exact hold
  · rw [hchildren]
    split_ifs
    · exact (h.nodup t).erase c
    · exact h.nodup q
  · rw [hreturned, hfreed]
    split_ifs
    · rw [h.returned]
    · exact h.returned d
  · rw [hfreed]
    split_ifs with hd
    · rw [hd, hzero]
      exact Or.inr ⟨rfl, hparked⟩
    · exact h.once d
  · rw [hpcs]
    have hold := h.parked d hd
    split_ifs with hdt
    · rw [hdt, hpc] at hold
      cases hold
    · exact hold
  · rw [hfreed]
    have hold := h.unborn d hd
    split_ifs with hdc
    · change s.born d = false at hd
      rw [hdc, hborn] at hd
      cases hd
    · exact hold
  · rw [hpcs]
    split_ifs with hu
    · trivial
    · refine (h.pc u).mono (fun d hd => ⟨?_, id⟩) rfl id
      rw [hchildren, if_neg hu]
      exact hd

theorem Inv.adopt {code : ℕ} {rest : List ℕ} (h : Inv s) (hpc : s.pc t = .reparent code)
    (hlist : s.children t = c :: rest) : Inv (adopt t c rest s) := by
  have hinit := h.pc t
  rw [hpc] at hinit
  change t ≠ init at hinit
  obtain ⟨hborn, hzero, hparent⟩ := (h.mem t c).mp (hlist ▸ List.mem_cons_self)
  have hnodup := h.nodup t
  rw [hlist, List.nodup_cons] at hnodup
  have hchildren : ∀ u, (Reap.adopt t c rest s).children u =
      if u = init then c :: s.children init else if u = t then rest else s.children u := by
    intro u
    change update (update s.children t rest) init (c :: update s.children t rest init) u = _
    rw [update_apply, update_of_ne hinit.symm, update_apply]
  have hparents : ∀ d, (Reap.adopt t c rest s).parent d = if d = c then init else s.parent d :=
    fun d => update_apply ..
  refine { h with mem := fun q d => ?_, nodup := fun q => ?_, pc := fun u => ?_ }
  · have hold := h.mem q d
    rw [hchildren, hparents]
    change _ ↔ s.born d = true ∧ s.freed d = 0 ∧ _
    split_ifs with hq hd hqt hd hd
    · simp [hd, hborn, hzero, hq]
    · rw [hq] at hold ⊢
      rw [List.mem_cons, hold]
      simp [hd]
    · rw [hd]
      simp [hnodup.1, Ne.symm hq]
    · rw [hqt, hlist, List.mem_cons] at hold
      rw [hqt, ← hold]
      simp [hd]
    · rw [hd] at hold ⊢
      rw [hold, hparent]
      simp [Ne.symm hq, Ne.symm hqt]
    · exact hold
  · rw [hchildren]
    split_ifs with hq hqt
    · rw [List.nodup_cons]
      refine ⟨?_, h.nodup init⟩
      rw [h.mem, hparent]
      exact fun hmem => hinit hmem.2.2
    · exact hnodup.2
    · exact h.nodup q
  · change PcOk _ u (s.pc u)
    by_cases hut : u = t
    · rw [hut, hpc]
      exact hinit
    · refine (h.pc u).mono (fun d hd => ⟨?_, id⟩) rfl id
      rw [hchildren]
      split_ifs with hu
      · rw [← hu]
        exact List.mem_cons_of_mem c hd
      · exact hd

theorem Inv.fork (h : Inv s) (ht : s.born t = true) (hc : s.born c = false) : Inv (fork t c s) := by
  have hct : c ≠ t := by
    rintro rfl
    rw [ht] at hc
    cases hc
  have hnot : ∀ q, c ∉ s.children q := by
    intro q hmem
    rw [((h.mem q c).mp hmem).1] at hc
    cases hc
  have hchildren : ∀ u, (Reap.fork t c s).children u =
      if u = t then c :: s.children t else s.children u := fun u => update_apply ..
  have hother : ∀ u, u ≠ c → (Reap.fork t c s).pc u = s.pc u ∧
      (Reap.fork t c s).state u = s.state u ∧ (Reap.fork t c s).parked u = s.parked u ∧
      (Reap.fork t c s).parent u = s.parent u ∧ (Reap.fork t c s).born u = s.born u := by
    intro u hu
    exact ⟨update_of_ne hu .., update_of_ne hu .., update_of_ne hu .., update_of_ne hu .., update_of_ne hu ..⟩
  have hself : (Reap.fork t c s).pc c = .user ∧ (Reap.fork t c s).parked c = false ∧
      (Reap.fork t c s).parent c = t ∧ (Reap.fork t c s).born c = true :=
    ⟨update_self .., update_self .., update_self .., update_self ..⟩
  refine { h with
    mem := fun q d => ?_, nodup := fun q => ?_, once := fun d => ?_, parked := fun d hd => ?_,
    unborn := fun d hd => ?_, pc := fun u => ?_ }
  · have hold := h.mem q d
    rw [hchildren]
    change _ ↔ _ ∧ s.freed d = 0 ∧ _
    by_cases hd : d = c
    · rw [hd, hself.2.2.1, hself.2.2.2, h.unborn c hc]
      split_ifs with hq
      · simp [hq]
      · simp [hnot, Ne.symm hq]
    · rw [(hother d hd).2.2.2.1, (hother d hd).2.2.2.2]
      split_ifs with hq
      · rw [hq] at hold ⊢
        rw [List.mem_cons, hold]
        simp [hd]
      · exact hold
  · rw [hchildren]
    split_ifs
    · exact List.nodup_cons.mpr ⟨hnot t, h.nodup t⟩
    · exact h.nodup q
  · by_cases hd : d = c
    · rw [hd]
      exact Or.inl (h.unborn c hc)
    · rw [(hother d hd).2.2.1]
      exact h.once d
  · by_cases hdc : d = c
    · rw [hdc, hself.2.1] at hd
      cases hd
    · rw [(hother d hdc).2.2.1] at hd
      rw [(hother d hdc).1]
      exact h.parked d hd
  · by_cases hdc : d = c
    · rw [hdc, hself.2.2.2] at hd
      cases hd
    · rw [(hother d hdc).2.2.2.2] at hd
      exact h.unborn d hd
  · by_cases huc : u = c
    · rw [huc, hself.1]
      trivial
    · rw [(hother u huc).1]
      refine (h.pc u).mono (fun d hd => ⟨?_, fun hp => ?_⟩) (hother u huc).2.1 fun hp => ?_
      · rw [hchildren]
        split_ifs with hu
        · rw [← hu]
          exact List.mem_cons_of_mem c hd
        · exact hd
      · have hdc : d ≠ c := by
          rintro rfl
          exact hnot u hd
        rw [(hother d hdc).2.2.1]
        exact hp
      · rw [(hother u huc).2.2.1]
        exact hp

/-- The state of a task is its own, and it goes on where its state is right. -/
theorem Inv.setState {pc : Pc} {st : TaskState} {code : ℕ → ℕ} (h : Inv s)
    (hpc : PcOk { s with state := update s.state t st, exitCode := code } t pc)
    (hgone : s.pc t ≠ .gone) :
    Inv (Reap.setPc t pc { s with state := update s.state t st, exitCode := code }) := by
  refine { h with parked := fun c hc => ?_, pc := fun u => ?_ }
  · have hold := h.parked c hc
    change update s.pc t pc c = .gone
    rw [update_of_ne]
    · exact hold
    · rintro rfl
      exact hgone hold
  · change PcOk _ u (update s.pc t pc u)
    rw [update_apply]
    split_ifs with hu
    · rw [hu]
      exact hpc
    · exact (h.pc u).mono (fun d hd => ⟨hd, id⟩) (update_of_ne hu ..) id

theorem Inv.park (h : Inv s) : Inv (Reap.setPc t .gone { s with parked := update s.parked t true }) := by
  have hle : ∀ c, s.parked c = true → update s.parked t true c = true := by
    intro c hc
    rw [update_apply]
    split_ifs
    · rfl
    · exact hc
  refine { h with once := fun c => ?_, parked := fun c hc => ?_, pc := fun u => ?_ }
  · exact (h.once c).imp_right fun hone => ⟨hone.1, hle c hone.2⟩
  · change update s.parked t true c = true at hc
    change update s.pc t .gone c = .gone
    rw [update_apply] at hc ⊢
    split_ifs at hc ⊢
    · rfl
    · exact h.parked c hc
  · change PcOk _ u (update s.pc t .gone u)
    rw [update_apply]
    split_ifs with hu
    · rw [hu]
      exact update_self ..
    · exact (h.pc u).mono (fun d hd => ⟨hd, hle d⟩) rfl (hle u)

/-! ## The runs -/

theorem Inv.step {a : Label} (h : Inv s) (hgood : Good s a) (hstep : Step s a s') : Inv s' := by
  cases a with
  | fork t c =>
    dsimp only [Step, exec] at hstep
    split_ifs at hstep with hc
    cases hstep
    exact h.fork hc.1 hc.2.2
  | setState t st code =>
    dsimp only [Step, exec] at hstep
    split_ifs at hstep with hc
    cases hstep
    have hsame : Reap.setPc t (s.pc t) { s with
        state := update s.state t st
        exitCode := update s.exitCode t code } = { s with
        state := update s.state t st
        exitCode := update s.exitCode t code } := by
      unfold Reap.setPc
      rw [update_eq_self]
    rw [← hsame, hc.2.1]
    exact h.setState trivial (by simp [hc.2.1])
  | waitpid t pid wnohang =>
    dsimp only [Step, exec] at hstep
    split_ifs at hstep with hc
    cases hstep
    exact h.setPc (fun _ hd => hd) (by simp [hc.2])
  | look t =>
    dsimp only [Step, exec] at hstep
    split at hstep
    · rename_i hpc
      cases hstep
      dsimp only [Good] at hgood
      rw [hpc] at hgood
      exact h.look hpc hgood
    · cases hstep
  | endScan t =>
    dsimp only [Step, exec] at hstep
    split at hstep
    · rename_i hpc
      cases hstep
      apply h.setPc _ (by simp [hpc])
      split_ifs
      · trivial
      · trivial
    · cases hstep
  | free t =>
    dsimp only [Step, exec] at hstep
    split at hstep
    · rename_i hpc
      cases hstep
      exact h.free hpc
    · cases hstep
  | wake t signal =>
    dsimp only [Step, exec] at hstep
    split at hstep
    · rename_i hpc
      cases hstep
      apply h.setPc _ (by simp [hpc])
      split_ifs
      · trivial
      · exact fun _ hd => hd
    · cases hstep
  | exit t code =>
    dsimp only [Step, exec] at hstep
    split_ifs at hstep with hc
    cases hstep
    exact h.setPc hc.2.2 (by simp [hc.2.1])
  | adopt t =>
    dsimp only [Step, exec] at hstep
    split at hstep
    · rename_i hpc hlist
      cases hstep
      exact h.adopt hpc hlist
    · rename_i hpc hlist
      cases hstep
      exact h.setPc trivial (by simp [hpc])
    · cases hstep
  | publish t =>
    dsimp only [Step, exec] at hstep
    split at hstep
    · rename_i hpc
      cases hstep
      exact h.setState (update_self ..) (by simp [hpc])
    · cases hstep
  | setExitCode t =>
    dsimp only [Step, exec] at hstep
    split at hstep
    · rename_i code hpc
      cases hstep
      have hzombie := h.pc t
      rw [hpc] at hzombie
      have hcode : Inv { s with exitCode := update s.exitCode t code } := { h with }
      exact hcode.setPc hzombie (by simp [hpc])
    · cases hstep
  | switch t =>
    dsimp only [Step, exec] at hstep
    split_ifs at hstep with hc
    cases hstep
    have hzombie := h.pc t
    rw [hc] at hzombie
    exact h.setPc hzombie (by simp [hc])
  | park t =>
    dsimp only [Step, exec] at hstep
    split_ifs at hstep with hc hzombie
    · cases hstep
      exact h.park
    · have hstate := h.pc t
      rw [hc] at hstate
      exact absurd hstate hzombie

theorem Initial.inv (h : Initial s) : Inv s := by
  constructor
  · intro q c
    rw [h.children, h.born, h.freed]
    by_cases hc : c = init
    · rw [hc, h.parent]
      by_cases hq : q = 0
      · simp [hq]
      · simp [hq, Ne.symm hq]
    · split_ifs
      · simp [hc]
      · simp [hc]
  · intro q
    rw [h.children]
    split_ifs
    · exact List.nodup_singleton _
    · exact List.nodup_nil
  · intro c
    rw [h.returned, h.freed]
  · exact fun c => Or.inl (h.freed c)
  · intro c hc
    rw [h.parked] at hc
    cases hc
  · exact fun c _ => h.freed c
  · intro t
    rw [h.pc]
    trivial

/-- In every run in which the scan of `sys_waitpid` meets parked zombies only, a task is freed when
it has left its stack for good, and it is returned and freed once. -/
theorem reaped_once (s₀ : State) (hinit : Initial s₀) (labs : List Label) (s : State)
    (hrun : Run (Guarded Good Step) s₀ labs s) : ReapedOnce s := by
  have hinv : Inv s := by
    refine hrun.invariant (P := Inv) hinit.inv ?_
    intro u v a hu hstep
    exact hu.step hstep.1 hstep.2
  exact hinv.reapedOnce

/-- Init, and no other task. -/
def boot : State :=
  { state := fun _ => .running
    exitCode := fun _ => 0
    pgrp := fun _ => 0
    parked := fun _ => false
    parent := fun _ => 0
    children := fun t => if t = 0 then [init] else []
    pc := fun _ => .user
    born := fun t => decide (t = init)
    freed := fun _ => 0
    returned := fun _ => 0 }

theorem boot_initial : Initial boot :=
  ⟨fun _ => rfl, rfl, fun _ => rfl, fun _ => rfl, fun _ => rfl, fun _ => rfl, fun _ => rfl⟩

instance (s : State) : ∀ a, Decidable (Good s a)
  | .look t => match h : s.pc t with
      | .scan pid _ (c :: _) _ => decidable_of_iff (waitMatches pid (s.pgrp t) c (s.pgrp c) = true →
          s.state c = .zombie → s.parked c = true) (by simp only [Good, h])
      | .user | .scan _ _ [] _ | .reap _ | .sleep _ | .reparent _ | .leave _ | .zombie _ | .last
      | .away | .gone => isTrue (by simp only [Good, h])
  | .fork _ _ | .setState _ _ _ | .waitpid _ _ _ | .endScan _ | .free _ | .wake _ _ | .exit _ _
  | .adopt _ | .publish _ | .setExitCode _ | .switch _ | .park _ => isTrue trivial

/-- Task 2 exits, and init inherits its child 3, waits, and gets task 2. -/
def inherited : List Label :=
  [.fork 1 2, .fork 2 3, .waitpid 1 (-1) false, .look 1, .endScan 1, .exit 2 0, .adopt 2, .adopt 2,
    .publish 2, .setExitCode 2, .switch 2, .park 2, .wake 1 false, .look 1, .look 1, .free 1]

theorem inherited_replays : (replay Good exec boot inherited).isSome := by
  decide +kernel

theorem reaped_once_inherited :
    Initial boot ∧ ∃ s, Run (Guarded Good Step) boot inherited s ∧ s.returned 2 = 1 ∧
      s.children 1 = [3] ∧ ReapedOnce s := by
  have hrun : Run (Guarded Good Step) boot inherited _ :=
    run_of_replay (Option.some_get inherited_replays).symm
  exact ⟨boot_initial, _, hrun, by decide +kernel, by decide +kernel,
    reaped_once boot boot_initial _ _ hrun⟩

/-- Init looks at task 2 when it is a zombie that has not left its stack. -/
def early : List Label :=
  [.fork 1 2, .exit 2 0, .adopt 2, .publish 2, .waitpid 1 (-1) false, .look 1, .free 1]

theorem early_replays : (replay (fun _ _ => True) exec boot early).isSome := by
  decide +kernel

/-- The task is then freed and still has to call `schedule`. -/
theorem freed_early :
    ¬ ∀ (s₀ : State), Initial s₀ → ∀ labs s, Run Step s₀ labs s → ReapedOnce s := by
  intro h
  have hrun : Run (Partial (fun _ _ => True) exec) boot early
      ((replay (fun _ _ => True) exec boot early).get early_replays) :=
    run_of_replay (Option.some_get early_replays).symm
  have honce := h boot boot_initial _ _ (hrun.mono fun _ _ _ hstep => hstep.2)
  exact absurd (honce.gone 2 (by decide +kernel)).2 (by decide +kernel)

end Reap

end Mario.Kernel
