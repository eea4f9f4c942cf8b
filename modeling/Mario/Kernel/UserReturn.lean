import Mario.Kernel.SignalFrame
import Mario.Kernel.Signals

/-!
# The trap frame on the way to user mode

A task goes back and forth between user mode, where it stores to its memory, and the kernel,
where `do_signal` and `do_sigreturn` change the trap frame. `do_sigreturn` masks `eflags` and
takes the selectors from the user as they are.
-/

namespace Mario.Kernel.UserReturn

open Mario.Lib Mario.Lib.Bytes

/-- The task, with `eflags` at the entry while it is in the kernel. -/
structure State where
  m : Machine
  entry : Option Word

/-- The steps. Signals, actions and the thread may become anything between them. -/
inductive Label
  /-- A store in user mode. -/
  | store (a : Word) (v : BitVec 8)
  /-- User code changes its registers; the selectors stay. -/
  | user (regs : TrapFrame)
  | enter (errorCode : Word)
  /-- The rest of the kernel. -/
  | other (t : Task) (thread : Thread) (eax : Word)
  | doSignal (writable : Word → Bool) (passes : List (List ℕ)) (oldMask : Word)
  | sigreturn (readable : Bool)
  | leave

/-- The next state; there is none for a task that exits. -/
def exec (s : State) : Label → Option State
  | .store a v =>
      if s.entry.isNone then
        some { s with m := { s.m with mem := Function.update s.m.mem a v } }
      else none
  | .user regs =>
      if s.entry.isNone then
        some { s with m := { s.m with
          tr := { regs with cs := s.m.tr.cs, ss := s.m.tr.ss, ds := s.m.tr.ds, es := s.m.tr.es } } }
      else none
  | .enter errorCode =>
      if s.entry.isNone then
        some { m := { s.m with tr := { s.m.tr with errorCode := errorCode } }
               entry := some s.m.tr.eflags }
      else none
  | .other t thread eax =>
      if s.entry.isSome then
        some { s with m := { s.m with task := t, thread := thread, tr := { s.m.tr with eax := eax } } }
      else none
  | .doSignal writable passes oldMask =>
      if s.entry.isSome then
        (Kernel.doSignal writable passes oldMask s.m).map fun r => { s with m := r.1 }
      else none
  | .sigreturn readable =>
      if s.entry.isSome then (doSigreturn readable s.m).map fun m => { s with m := m } else none
  | .leave => if s.entry.isSome then some { s with entry := none } else none

def Step (s : State) (a : Label) (s' : State) : Prop := exec s a = some s'

/-- A selector with the privilege level of user mode. -/
def UserSelector (sel : BitVec 16) : Prop := sel &&& 3 = 3

instance (sel : BitVec 16) : Decidable (UserSelector sel) :=
  inferInstanceAs (Decidable (sel &&& 3 = 3))

theorem userCs_user : UserSelector userCs := by decide

theorem userDs_user : UserSelector userDs := by decide

/-- The selectors of a trap frame. -/
def UserSelectors (tr : TrapFrame) : Prop :=
  UserSelector tr.cs ∧ UserSelector tr.ss ∧ UserSelector tr.ds ∧ UserSelector tr.es

instance (tr : TrapFrame) : Decidable (UserSelectors tr) :=
  inferInstanceAs (Decidable (_ ∧ _ ∧ _ ∧ _))

/-- The trap frame may be used to go back to user mode. -/
structure Safe (s : State) : Prop where
  selectors : UserSelectors s.m.tr
  eflags : ∀ e, s.entry = some e → (s.m.tr.eflags ^^^ e) &&& ~~~contextFlags = 0

/-- The context that `do_sigreturn` reads has selectors of user mode. -/
def Good (s : State) : Label → Prop
  | .sigreturn true =>
      let c := readContext s.m.mem s.m.tr.esp
      UserSelector c.cs ∧ UserSelector c.ss ∧ UserSelector c.ds ∧ UserSelector c.es
  | _ => True

instance (s : State) : ∀ a, Decidable (Good s a)
  | .sigreturn true => inferInstanceAs (Decidable (_ ∧ _ ∧ _ ∧ _))
  | .sigreturn false | .store _ _ | .user _ | .enter _ | .other _ _ _ | .doSignal _ _ _ | .leave =>
      isTrue trivial

/-- A task that runs in user mode. -/
def Initial (s : State) : Prop := s.entry = none ∧ UserSelectors s.m.tr

/-! ## `do_signal` -/

/-- Trap frames that agree in `eflags` and in the selectors. -/
structure SameMode (tr tr' : TrapFrame) : Prop where
  cs : tr'.cs = tr.cs
  ss : tr'.ss = tr.ss
  ds : tr'.ds = tr.ds
  es : tr'.es = tr.es
  eflags : tr'.eflags = tr.eflags

theorem SameMode.refl (tr : TrapFrame) : SameMode tr tr := ⟨rfl, rfl, rfl, rfl, rfl⟩

theorem SameMode.trans {tr tr' tr'' : TrapFrame} (h : SameMode tr tr') (h' : SameMode tr' tr'') :
    SameMode tr tr'' :=
  ⟨h'.cs.trans h.cs, h'.ss.trans h.ss, h'.ds.trans h.ds, h'.es.trans h.es, h'.eflags.trans h.eflags⟩

theorem SameMode.selectors {tr tr' : TrapFrame} (h : SameMode tr tr') (htr : UserSelectors tr) : UserSelectors tr' := by
  unfold UserSelectors
  rw [h.cs, h.ss, h.ds, h.es]
  exact htr

theorem interrupted_sameMode (sa : Sigaction) (tr : TrapFrame) : SameMode tr (interrupted sa tr) := by
  unfold interrupted
  split_ifs
  · exact ⟨rfl, rfl, rfl, rfl, rfl⟩
  · exact SameMode.refl tr

theorem restart_sameMode (tr : TrapFrame) : SameMode tr (restart tr) := by
  unfold restart
  split_ifs
  · exact ⟨rfl, rfl, rfl, rfl, rfl⟩
  · exact SameMode.refl tr

theorem collect_sameMode {passes : List (List ℕ)} {t : Task} {tr : TrapFrame} {toHandle : Word}
    {r : Task × TrapFrame × Word} (h : collect passes t tr toHandle = some r) : SameMode tr r.2.1 := by
  induction passes generalizing t tr toHandle with
  | nil => cases h
  | cons sigs passes ih =>
    unfold collect at h
    dsimp only at h
    split at h
    · cases h
      exact SameMode.refl tr
    · cases h
    · exact (interrupted_sameMode _ tr).trans (ih h)
    · exact ih h

/-- The second loop gives the trap frame the segments of user mode. -/
theorem buildFrames_selectors {writable : Word → Bool} {thread : Thread} {nrs : List ℕ} {b b' : Build}
    (h : nrs.foldlM (buildFrame writable thread) b = some b') (hb : UserSelectors b.tr) :
    UserSelectors b'.tr ∧ b'.tr.eflags = b.tr.eflags := by
  induction nrs generalizing b with
  | nil =>
    obtain rfl : b = b' := Option.some.inj h
    exact ⟨hb, rfl⟩
  | cons nr nrs ih =>
    rw [List.foldlM_cons] at h
    obtain ⟨b₁, hb₁, hrest⟩ := Option.bind_eq_some_iff.mp h
    unfold buildFrame at hb₁
    dsimp only at hb₁
    split_ifs at hb₁
    cases hb₁
    obtain ⟨hsel, heflags⟩ := ih hrest ⟨userCs_user, userDs_user, userDs_user, userDs_user⟩
    exact ⟨hsel, heflags⟩

theorem doSignal_selectors {writable : Word → Bool} {passes : List (List ℕ)} {oldMask : Word}
    {m : Machine} {r : Machine × Bool} (h : doSignal writable passes oldMask m = some r)
    (hm : UserSelectors m.tr) : UserSelectors r.1.tr ∧ r.1.tr.eflags = m.tr.eflags := by
  obtain ⟨⟨t, tr, toHandle⟩, hcollect, hrest⟩ := Option.bind_eq_some_iff.mp h
  have hsame : SameMode m.tr (restart tr) :=
    (collect_sameMode hcollect).trans (restart_sameMode tr)
  dsimp only at hrest
  split_ifs at hrest
  · cases hrest
    exact ⟨hsame.selectors hm, hsame.eflags⟩
  · obtain ⟨b, hfold, rfl⟩ := Option.map_eq_some_iff.mp hrest
    obtain ⟨hsel, heflags⟩ := buildFrames_selectors hfold (hsame.selectors hm)
    exact ⟨hsel, heflags.trans hsame.eflags⟩

/-! ## `do_sigreturn` -/

theorem eflags_masked {v e : Word} (w : Word) (h : (v ^^^ e) &&& ~~~contextFlags = 0) :
    ((v &&& ~~~contextFlags ||| w &&& contextFlags) ^^^ e) &&& ~~~contextFlags = 0 := by
  apply BitVec.eq_of_getLsbD_eq
  intro i hi
  have hbit := congrArg (fun x : Word => x.getLsbD i) h
  simp only [BitVec.getLsbD_and, BitVec.getLsbD_or, BitVec.getLsbD_xor, BitVec.getLsbD_not, hi,
    decide_true, Bool.true_and] at hbit ⊢
  rw [← hbit]
  cases contextFlags.getLsbD i with
  | false => simp only [Bool.and_false, Bool.or_false, Bool.not_false, Bool.and_true]
  | true => simp only [Bool.not_true, Bool.and_false]

theorem doSigreturn_safe {s : State} {m : Machine} (h : doSigreturn true s.m = some m)
    (hgood : Good s (.sigreturn true)) (hs : Safe s) : Safe { s with m := m } := by
  unfold doSigreturn at h
  cases h
  obtain ⟨hcs, hss, hds, hes⟩ := hgood
  constructor
  · exact ⟨hcs, hss, hds, hes⟩
  · intro e he
    exact eflags_masked _ (hs.eflags e he)

/-! ## Runs -/

theorem Safe.step {s s' : State} {a : Label} (h : Safe s) (hgood : Good s a) (hstep : Step s a s') : Safe s' := by
  cases a with
  | store a v =>
    dsimp only [Step, exec] at hstep
    split_ifs at hstep
    cases hstep
    exact ⟨h.selectors, h.eflags⟩
  | user regs =>
    dsimp only [Step, exec] at hstep
    split_ifs at hstep with hmode
    cases hstep
    refine ⟨h.selectors, fun e he => ?_⟩
    rw [Option.isNone_iff_eq_none] at hmode
    exact absurd (hmode.symm.trans he) (by simp)
  | enter errorCode =>
    dsimp only [Step, exec] at hstep
    split_ifs at hstep
    cases hstep
    refine ⟨h.selectors, fun e he => ?_⟩
    cases he
    rw [BitVec.xor_self]
    exact BitVec.zero_and
  | other t thread eax =>
    dsimp only [Step, exec] at hstep
    split_ifs at hstep
    cases hstep
    exact ⟨h.selectors, h.eflags⟩
  | doSignal writable passes oldMask =>
    dsimp only [Step, exec] at hstep
    split_ifs at hstep
    obtain ⟨r, hr, rfl⟩ := Option.map_eq_some_iff.mp hstep
    obtain ⟨hsel, heflags⟩ := doSignal_selectors hr h.selectors
    refine ⟨hsel, fun e he => ?_⟩
    dsimp only
    rw [heflags]
    exact h.eflags e he
  | sigreturn readable =>
    dsimp only [Step, exec] at hstep
    split_ifs at hstep
    obtain ⟨m, hm, rfl⟩ := Option.map_eq_some_iff.mp hstep
    cases readable with
    | false => cases hm
    | true => exact doSigreturn_safe hm hgood h
  | leave =>
    dsimp only [Step, exec] at hstep
    split_ifs at hstep
    cases hstep
    exact ⟨h.selectors, fun e he => by cases he⟩

/-- In every run in which the contexts have selectors of user mode, the trap frame stays one of
user mode, and `eflags` changes in the bits of the mask only. -/
theorem trapFrame_safe (s₀ : State) (hinit : Initial s₀) (labs : List Label) (s : State)
    (hrun : Run (Guarded Good Step) s₀ labs s) : Safe s := by
  have hstart : Safe s₀ := by
    refine ⟨hinit.2, fun e he => ?_⟩
    rw [hinit.1] at he
    cases he
  exact hrun.invariant hstart fun hs hstep => hs.step hstep.1 hstep.2

/-- A task in user mode, with zeros in its memory but for a context with the given selector of
the code segment. -/
def userState (cs : BitVec 8) : State :=
  { m :=
      { task := Signals.bootTask
        thread := ⟨0, 0, 0⟩
        mem := fun a =>
          if a = 0x803c then cs else if a = 0x8048 ∨ a = 0x800c ∨ a = 0x8008 then 0x2b else 0
        tr :=
          { ebx := 0, ecx := 0, edx := 0, esi := 0, edi := 0, ebp := 0, eax := 0, ds := userDs
            es := userDs, fs := userDs, gs := 0, errorCode := 0, eip := 0x1000, cs := userCs
            eflags := 0x202, esp := 0x8000, ss := userDs } }
    entry := none }

theorem userState_initial (cs : BitVec 8) : Initial (userState cs) :=
  ⟨rfl, userCs_user, userDs_user, userDs_user, userDs_user⟩

/-- `sigreturn` is called on the context. -/
def sigreturnRun : List Label := [.enter sysSigreturn, .sigreturn true]

theorem sigreturnRun_replays (cs : BitVec 8) : (replay (fun _ _ => True) exec (userState cs) sigreturnRun).isSome := by
  rfl

theorem sigreturnRun_replays_good : (replay Good exec (userState 0x23) sigreturnRun).isSome := by
  decide +kernel

theorem trapFrame_safe_sigreturn :
    Initial (userState 0x23) ∧ ∃ s, Run (Guarded Good Step) (userState 0x23) sigreturnRun s ∧
      Safe s := by
  have hrun : Run (Guarded Good Step) (userState 0x23) sigreturnRun
      ((replay Good exec (userState 0x23) sigreturnRun).get sigreturnRun_replays_good) :=
    run_of_replay (Option.some_get sigreturnRun_replays_good).symm
  exact ⟨userState_initial _, _, hrun, trapFrame_safe _ (userState_initial _) _ _ hrun⟩

/-- The context asks for the code segment of the kernel. -/
theorem trapFrame_kernelCs :
    ¬ ∀ (s₀ : State), Initial s₀ → ∀ labs s, Run Step s₀ labs s → Safe s := by
  intro h
  have hrun : Run (Partial (fun _ _ => True) exec) (userState 0x10) sigreturnRun
      ((replay (fun _ _ => True) exec (userState 0x10) sigreturnRun).get
        (sigreturnRun_replays 0x10)) :=
    run_of_replay (Option.some_get (sigreturnRun_replays 0x10)).symm
  have hsafe := h (userState 0x10) (userState_initial _) _ _ (hrun.mono fun _ _ _ hstep => hstep.2)
  exact absurd hsafe.selectors (by decide +kernel)

end Mario.Kernel.UserReturn
