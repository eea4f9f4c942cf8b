import Mario.Kernel.SignalRestore

/-!
# The masks of handlers that are invoked together

`do_signal` chooses the signals that it handles one after the other, and the mask of the task changes only when
it builds their frames. So the mask of a chosen handler does not hold back the signals that are chosen after it.
-/

namespace Mario.Kernel

variable {t : Task} {n a b i : ℕ}

/-! ## What a call takes -/

/-- The signal is pending and not blocked. -/
def Pending (t : Task) (nr : ℕ) : Prop :=
  0 < nr ∧ nr ≤ 32 ∧ (t.signal &&& ~~~t.blocked).getLsbD (nr - 1) = true

/-- The user has a handler for the signal. -/
def hasHandler (t : Task) (nr : ℕ) : Prop :=
  (t.sigaction (nr - 1)).saHandler ≠ sigIgn ∧ (t.sigaction (nr - 1)).saHandler ≠ sigDfl

/-- The default action of the signal ends the task. -/
def EndsTask (t : Task) (nr : ℕ) : Prop :=
  (t.sigaction (nr - 1)).saHandler = sigDfl ∧ t.pid ≠ 1 ∧ ¬ (nr = sigcont ∨ nr = sigchld ∨ nr = sigwinch) ∧
    ¬ (nr = sigstop ∨ nr = sigtstp ∨ nr = sigttin ∨ nr = sigttou)

/-- `b` is in the `sa_mask` of `a`. -/
def masks (t : Task) (a b : ℕ) : Bool := (t.sigaction (a - 1)).saMask.getLsbD (b - 1)

/-- The task does not come back from the pass. -/
def Pass.ends : Pass → Bool
  | .exit _ => true
  | _ => false

/-- The signals that the first loop of `do_signal` takes out of the pending ones in at most `n` passes, with
what it does about each, when no signals are sent meanwhile. -/
def taken : ℕ → Task → List (ℕ × Pass)
  | 0, _ => []
  | n + 1, t =>
      match bsf (t.signal &&& ~~~t.blocked) with
      | none => []
      | some i =>
          let r := signalPass t
          (i + 1, r.2) :: if r.2.ends then [] else taken n r.1

/-- Enough passes, in which no signals are sent. -/
def quiet : List (List ℕ) := List.replicate 33 []

/-- The frames below `fp` for which the stack is writable, up to the first that is not. -/
def writableFrames (writable : Word → Bool) (fp : Word) : List ℕ → List ℕ
  | [] => []
  | nr :: nrs => if writable (fp - 128) then nr :: writableFrames writable (fp - 128) nrs else []

/-- The signals for which a call of `do_signal` builds frames. -/
def framed (writable : Word → Bool) (m : Machine) : List ℕ :=
  match collect quiet m.task m.tr 0 with
  | none => []
  | some (_, tr, toHandle) => writableFrames writable tr.esp (handled toHandle)

/-- A signal in the mask of a handler that is chosen is neither taken after it nor handled in the same call, and
is blocked when the call is over. -/
structure Deferred (writable : Word → Bool) (oldMask : Word) (m : Machine) : Prop where
  taken : (taken 32 m.task).Pairwise fun x y => x.2 = .handle x.1 → masks m.task x.1 y.1 = false
  frames : (framed writable m).Pairwise fun a b => masks m.task a b = false
  blocked : ∀ m', doSignal writable quiet oldMask m = some (m', true) →
    ∀ a ∈ framed writable m, ∀ b, masks m.task a b = true → m'.task.blocked.getLsbD (b - 1) = true

/-! ## One pass -/

theorem bsf_lowest {w : Word} (h : bsf w = some i) : ∀ j < i, w.getLsbD j = false := by
  intro j hj
  have hlow := (List.find?_range_eq_some.mp h).2.2 j hj
  simpa using hlow

theorem pending_iff_of_bsf (h : bsf (t.signal &&& ~~~t.blocked) = some i) :
    Pending t (i + 1) ∧ ∀ c, Pending t c → i + 1 ≤ c := by
  have hi := Signals.bsf_lt h
  have hset : (t.signal &&& ~~~t.blocked).getLsbD i = true := List.find?_some h
  constructor
  · exact ⟨by omega, by omega, hset⟩
  · rintro c ⟨hpos, -, hbit⟩
    by_contra hlt
    rw [bsf_lowest h (c - 1) (by omega)] at hbit
    exact Bool.false_ne_true hbit

theorem not_pending_of_bsf (h : bsf (t.signal &&& ~~~t.blocked) = none) (c : ℕ) : ¬ Pending t c := by
  rintro ⟨hpos, hle, hbit⟩
  rw [bsf_eq_none h (by omega)] at hbit
  exact Bool.false_ne_true hbit

theorem signalPass_some (h : bsf (t.signal &&& ~~~t.blocked) = some i) :
    ((signalPass t).2.ends = true ↔ EndsTask t (i + 1)) ∧
      ((signalPass t).2 = .handle (i + 1) ↔ hasHandler t (i + 1)) ∧ (signalPass t).1.pid = t.pid ∧
      (¬ EndsTask t (i + 1) → (signalPass t).1.signal = t.signal &&& ~~~BitVec.twoPow 32 i) := by
  unfold EndsTask hasHandler signalPass
  rw [h]
  simp only [Nat.add_sub_cancel]
  have hdistinct : sigIgn ≠ sigDfl := by decide
  by_cases hign : (t.sigaction i).saHandler = sigIgn
  · rw [if_pos hign, hign]
    split_ifs with hchld
    · simp [Pass.ends, hdistinct]
    · simp [Pass.ends, hdistinct]
  · by_cases hdfl : (t.sigaction i).saHandler = sigDfl
    · rw [if_neg hign, if_pos hdfl, defaultAction]
      split_ifs with hinit hignored hstop
      · have hpid : t.pid = 1 := hinit
        simp [Pass.ends, hpid, hdfl]
      · simp [Pass.ends, hignored, hdfl]
      · simp [Pass.ends, hstop, hdfl]
      · have hends : (t.sigaction i).saHandler = sigDfl ∧ t.pid ≠ 1 ∧ _ ∧ _ := ⟨hdfl, hinit, hignored, hstop⟩
        exact ⟨⟨fun _ => hends, fun _ => rfl⟩, ⟨fun hhandle => by simp at hhandle, fun hcaught => absurd hdfl hcaught.2⟩,
          rfl, fun hgo => absurd hends hgo⟩
    · simp [Pass.ends, hign, hdfl]

theorem signalPass_names (h : bsf (t.signal &&& ~~~t.blocked) = some i) :
    (signalPass t).2 ≠ .done ∧ ∀ nr, (signalPass t).2 = .handle nr → nr = i + 1 := by
  unfold signalPass
  rw [h]
  dsimp only
  split_ifs
  · simp
  · simp
  · unfold defaultAction
    split_ifs
    all_goals simp
  · simp [eq_comm]

theorem Pass.ends_eq_false {p : Pass} (h : ∀ nr, p ≠ .exit nr) : p.ends = false := by
  cases p with
  | exit nr => exact absurd rfl (h nr)
  | done | ignore | reap | stop | handle nr => rfl

/-- After a pass that does not end the task the other signals are still pending. -/
theorem pending_signalPass (h : bsf (t.signal &&& ~~~t.blocked) = some i) (hends : ¬ EndsTask t (i + 1)) :
    Pending (signalPass t).1 b ↔ Pending t b ∧ b ≠ i + 1 := by
  have hi := Signals.bsf_lt h
  obtain ⟨-, -, -, hsignal⟩ := signalPass_some h
  unfold Pending
  rw [hsignal hends, (signalPass_sigaction t).2]
  constructor
  · rintro ⟨hpos, hle, hbit⟩
    simp only [BitVec.getLsbD_and, BitVec.getLsbD_not, BitVec.getLsbD_twoPow, Bool.and_eq_true] at hbit ⊢
    obtain ⟨⟨hset, hother⟩, hunblocked⟩ := hbit
    refine ⟨⟨hpos, hle, hset, hunblocked⟩, ?_⟩
    rintro rfl
    simp [hi] at hother
  · rintro ⟨⟨hpos, hle, hbit⟩, hne⟩
    simp only [BitVec.getLsbD_and, BitVec.getLsbD_not, BitVec.getLsbD_twoPow, Bool.and_eq_true] at hbit ⊢
    have hother : i ≠ b - 1 := by omega
    have hlt : b - 1 < 32 := by omega
    refine ⟨hpos, hle, ⟨hbit.1, ?_⟩, hbit.2⟩
    simp [hother, hlt]

theorem sigaction_signalPass (t : Task) : (signalPass t).1.sigaction = t.sigaction := (signalPass_sigaction t).1

theorem endsTask_signalPass (h : bsf (t.signal &&& ~~~t.blocked) = some i) :
    EndsTask (signalPass t).1 b ↔ EndsTask t b := by
  unfold EndsTask
  rw [sigaction_signalPass, (signalPass_some h).2.2.1]

/-! ## All passes -/

/-- All pending signals are among the last `n`. -/
def Last (n : ℕ) (t : Task) : Prop := ∀ c, Pending t c → 32 < c + n

theorem Last.next (h : Last (n + 1) t) (hbsf : bsf (t.signal &&& ~~~t.blocked) = some i)
    (hends : ¬ EndsTask t (i + 1)) : Last n (signalPass t).1 := by
  intro c hc
  obtain ⟨hpending, hne⟩ := (pending_signalPass hbsf hends).mp hc
  obtain ⟨hset, hlowest⟩ := pending_iff_of_bsf hbsf
  have hfirst := h _ hset
  have hle := hlowest c hpending
  omega

/-- The signals that are taken are those pending, up to the first that ends the task. -/
theorem mem_taken (h : Last n t) : (∃ p, (b, p) ∈ taken n t) ↔ Pending t b ∧ ∀ c < b, Pending t c → ¬ EndsTask t c := by
  induction n generalizing t with
  | zero =>
    constructor
    · rintro ⟨p, hp⟩
      exact absurd hp List.not_mem_nil
    · rintro ⟨hpending, -⟩
      have hlast := h b hpending
      have hle := hpending.2.1
      omega
  | succ n ih =>
    rw [taken]
    cases hbsf : bsf (t.signal &&& ~~~t.blocked) with
    | none =>
      have hnone := not_pending_of_bsf hbsf b
      simp [hnone]
    | some i =>
      obtain ⟨hset, hlowest⟩ := pending_iff_of_bsf hbsf
      obtain ⟨hexit, -⟩ := signalPass_some hbsf
      dsimp only
      split_ifs with hends
      · have hend : EndsTask t (i + 1) := hexit.mp hends
        constructor
        · rintro ⟨p, hp⟩
          obtain ⟨rfl, -⟩ := Prod.mk.inj (List.mem_singleton.mp hp)
          refine ⟨hset, fun c hc hpending => ?_⟩
          have hle := hlowest c hpending
          omega
        · rintro ⟨hpending, hbefore⟩
          have hle := hlowest b hpending
          by_cases heq : b = i + 1
          · subst heq
            exact ⟨_, List.mem_singleton_self _⟩
          · exact absurd hend (hbefore (i + 1) (by omega) hset)
      · have hgo : ¬ EndsTask t (i + 1) := fun hend => hends (hexit.mpr hend)
        have hrest := ih (h.next hbsf hgo)
        simp only [List.mem_cons, Prod.mk.injEq, exists_or, hrest, pending_signalPass hbsf hgo,
          endsTask_signalPass hbsf]
        constructor
        · rintro (⟨p, rfl, -⟩ | ⟨⟨hpending, hne⟩, hbefore⟩)
          · refine ⟨hset, fun c hc hpending => ?_⟩
            have hle := hlowest c hpending
            omega
          · refine ⟨hpending, fun c hc hc' => ?_⟩
            by_cases heq : c = i + 1
            · subst heq
              exact hgo
            · exact hbefore c hc ⟨hc', heq⟩
        · rintro ⟨hpending, hbefore⟩
          by_cases heq : b = i + 1
          · exact .inl ⟨_, heq, rfl⟩
          · exact .inr ⟨⟨hpending, heq⟩, fun c hc hc' => hbefore c hc hc'.1⟩

/-- No signal that the call comes to is in the mask of a handler of a lower pending signal. -/
def Unmasked (t : Task) : Prop :=
  ∀ a b, a < b → Pending t a → Pending t b → hasHandler t a → (∀ c < b, Pending t c → ¬ EndsTask t c) →
    masks t a b = false

theorem taken_pairwise_iff (h : Last n t) :
    (taken n t).Pairwise (fun x y => x.2 = .handle x.1 → masks t x.1 y.1 = false) ↔ Unmasked t := by
  induction n generalizing t with
  | zero =>
    constructor
    · rintro - a b hlt ha hb
      have hlast := h a ha
      have hle := hb.2.1
      omega
    · intro _
      exact List.Pairwise.nil
  | succ n ih =>
    rw [taken]
    cases hbsf : bsf (t.signal &&& ~~~t.blocked) with
    | none =>
      constructor
      · rintro - a b - ha
        exact absurd ha (not_pending_of_bsf hbsf a)
      · intro _
        exact List.Pairwise.nil
    | some i =>
      obtain ⟨hset, hlowest⟩ := pending_iff_of_bsf hbsf
      obtain ⟨hexit, hhandle, -⟩ := signalPass_some hbsf
      dsimp only
      split_ifs with hends
      · constructor
        · rintro - a b hlt ha hb - hbefore
          have hle := hlowest a ha
          exact absurd (hexit.mp hends) (hbefore (i + 1) (by omega) hset)
        · intro _
          exact List.pairwise_singleton ..
      · have hgo : ¬ EndsTask t (i + 1) := fun hend => hends (hexit.mpr hend)
        have hlast := h.next hbsf hgo
        have hmasks : ∀ a b, masks (signalPass t).1 a b = masks t a b := by
          intro a b
          rw [masks, sigaction_signalPass, masks]
        have hrest := ih hlast
        simp only [hmasks] at hrest
        rw [List.pairwise_cons, hrest]
        constructor
        · rintro ⟨hfirst, hothers⟩ a b hlt ha hb hcaught hbefore
          have hle := hlowest a ha
          have hb' : Pending (signalPass t).1 b := (pending_signalPass hbsf hgo).mpr ⟨hb, by omega⟩
          have hbefore' : ∀ c < b, Pending (signalPass t).1 c → ¬ EndsTask (signalPass t).1 c := by
            intro c hc hpending
            rw [endsTask_signalPass hbsf]
            exact hbefore c hc ((pending_signalPass hbsf hgo).mp hpending).1
          by_cases heq : a = i + 1
          · subst heq
            obtain ⟨p, hp⟩ := (mem_taken hlast).mpr ⟨hb', hbefore'⟩
            exact hfirst _ hp (hhandle.mpr hcaught)
          · have hunmasked := hothers a b hlt ((pending_signalPass hbsf hgo).mpr ⟨ha, heq⟩) hb' ?_ hbefore'
            · rwa [hmasks] at hunmasked
            · unfold hasHandler at hcaught ⊢
              rwa [sigaction_signalPass]
        · intro hunmasked
          constructor
          · rintro ⟨c, p⟩ hp hcaught
            obtain ⟨hc, hbefore⟩ := (mem_taken hlast).mp ⟨p, hp⟩
            obtain ⟨hc, hne⟩ := (pending_signalPass hbsf hgo).mp hc
            have hle := hlowest c hc
            apply hunmasked (i + 1) c (by omega) hset hc (hhandle.mp hcaught)
            intro d hd hpending
            by_cases heq : d = i + 1
            · subst heq
              exact hgo
            · rw [← endsTask_signalPass hbsf]
              exact hbefore d hd ((pending_signalPass hbsf hgo).mpr ⟨hpending, heq⟩)
          · intro a b hlt ha hb hcaught hbefore
            obtain ⟨ha, hane⟩ := (pending_signalPass hbsf hgo).mp ha
            obtain ⟨hb, -⟩ := (pending_signalPass hbsf hgo).mp hb
            rw [hmasks]
            apply hunmasked a b hlt ha hb
            · unfold hasHandler at hcaught ⊢
              rwa [sigaction_signalPass] at hcaught
            · intro d hd hpending
              by_cases heq : d = i + 1
              · subst heq
                exact hgo
              · rw [← endsTask_signalPass hbsf]
                exact hbefore d hd ((pending_signalPass hbsf hgo).mpr ⟨hpending, heq⟩)

/-! ## The frames -/

theorem interrupted_esp (sa : Sigaction) (tr : TrapFrame) : (interrupted sa tr).esp = tr.esp := by
  unfold interrupted
  split_ifs
  all_goals rfl

/-- The first loop chooses only signals that are pending and have handlers, and comes to its end only if none of
the pending ones ends the task. -/
theorem collect_quiet {tr : TrapFrame} {toHandle : Word} {r : Task × TrapFrame × Word}
    (h : collect (List.replicate n []) t tr toHandle = some r) :
    (∀ c, Pending t c → ¬ EndsTask t c) ∧ r.2.1.esp = tr.esp ∧ r.1.sigaction = t.sigaction ∧
      ∀ nr ∈ handled r.2.2, nr ∈ handled toHandle ∨ Pending t nr ∧ hasHandler t nr := by
  induction n generalizing t tr toHandle with
  | zero => cases h
  | succ n ih =>
    rw [List.replicate_succ] at h
    unfold collect at h
    dsimp only [List.foldl_nil] at h
    cases hbsf : bsf (t.signal &&& ~~~t.blocked) with
    | none =>
      have hpass : signalPass t = (t, .done) := by rw [signalPass, hbsf]
      rw [hpass] at h
      cases h
      refine ⟨fun c hc => absurd hc (not_pending_of_bsf hbsf c), rfl, rfl, fun nr hnr => .inl hnr⟩
    | some i =>
      obtain ⟨hset, hlowest⟩ := pending_iff_of_bsf hbsf
      obtain ⟨hexit, hhandle, -⟩ := signalPass_some hbsf
      have hnext : ¬ EndsTask t (i + 1) → ∀ {tr' : TrapFrame} {toHandle' : Word},
          collect (List.replicate n []) (signalPass t).1 tr' toHandle' = some r →
          (∀ c, Pending t c → ¬ EndsTask t c) ∧ r.2.1.esp = tr'.esp ∧ r.1.sigaction = t.sigaction ∧
            ∀ nr ∈ handled r.2.2, nr ∈ handled toHandle' ∨ Pending t nr ∧ hasHandler t nr := by
        intro hgo tr' toHandle' hcollect
        obtain ⟨hnone, hesp, hsas, hchosen⟩ := ih hcollect
        refine ⟨fun c hc => ?_, hesp, hsas.trans (sigaction_signalPass t), fun nr hnr => ?_⟩
        · by_cases heq : c = i + 1
          · subst heq
            exact hgo
          · rw [← endsTask_signalPass hbsf]
            exact hnone c ((pending_signalPass hbsf hgo).mpr ⟨hc, heq⟩)
        · refine (hchosen nr hnr).imp id fun hpending => ⟨((pending_signalPass hbsf hgo).mp hpending.1).1, ?_⟩
          have hcaught := hpending.2
          unfold hasHandler at hcaught ⊢
          rwa [sigaction_signalPass] at hcaught
      obtain ⟨hfound, hname⟩ := signalPass_names hbsf
      split at h
      · rename_i hdone
        exact absurd hdone hfound
      · cases h
      · rename_i nr hcaught
        obtain rfl := hname nr hcaught
        have hgo : ¬ EndsTask t (i + 1) := by
          rw [← hexit, hcaught]
          simp [Pass.ends]
        obtain ⟨hnone, hesp, hsas, hchosen⟩ := hnext hgo h
        refine ⟨hnone, hesp.trans (interrupted_esp _ _), hsas, fun nr hnr => ?_⟩
        rcases hchosen nr hnr with hold | hnew
        · rw [mem_handled] at hold
          obtain ⟨hpos, hle, hbit⟩ := hold
          rw [BitVec.getLsbD_or, Bool.or_eq_true, Signals.getLsbD_sigBit (by omega) hpos] at hbit
          rcases hbit with hbit | hbit
          · exact .inl (mem_handled.mpr ⟨hpos, hle, hbit⟩)
          · rw [Bool.and_eq_true, decide_eq_true_eq, decide_eq_true_eq] at hbit
            obtain ⟨-, rfl⟩ := hbit
            exact .inr ⟨hset, hhandle.mp hcaught⟩
        · exact .inr hnew
      · rename_i hend _
        have hgo : ¬ EndsTask t (i + 1) := by
          rw [← hexit, Pass.ends_eq_false hend]
          exact Bool.false_ne_true
        exact hnext hgo h

theorem mem_writableFrames {writable : Word → Bool} {fp : Word} {nrs : List ℕ} :
    (writableFrames writable fp nrs).Sublist nrs := by
  induction nrs generalizing fp with
  | nil => exact List.Sublist.refl _
  | cons nr nrs ih =>
    rw [writableFrames]
    split_ifs
    · exact ih.cons_cons nr
    · exact List.nil_sublist _

theorem enterHandler_masks (nr a b : ℕ) (t : Task) : masks (enterHandler nr t) a b = masks t a b := by
  unfold masks enterHandler
  dsimp only
  split_ifs
  · by_cases heq : a - 1 = nr - 1
    · rw [heq, Function.update_self]
    · rw [Function.update_of_ne heq]
  · rfl

/-- The mask of the task takes in those of all handlers whose frames are built. -/
theorem buildFrames_blocked {writable : Word → Bool} {thread : Thread} {nrs : List ℕ} {u v : Build}
    (h : nrs.foldlM (buildFrame writable thread) u = some v) :
    (∀ j, u.task.blocked.getLsbD j = true → v.task.blocked.getLsbD j = true) ∧
      ∀ a ∈ nrs, ∀ b, masks u.task a b = true → v.task.blocked.getLsbD (b - 1) = true := by
  induction nrs generalizing u with
  | nil =>
    obtain rfl : u = v := Option.some.inj h
    exact ⟨fun _ hj => hj, fun a ha => absurd ha List.not_mem_nil⟩
  | cons nr nrs ih =>
    rw [List.foldlM_cons] at h
    obtain ⟨w, hw, hrest⟩ := Option.bind_eq_some_iff.mp h
    unfold buildFrame at hw
    dsimp only at hw
    split_ifs at hw
    cases hw
    obtain ⟨hgrows, hmasks⟩ := ih hrest
    constructor
    · intro j hj
      apply hgrows
      rw [enterHandler, BitVec.getLsbD_or, hj, Bool.true_or]
    · intro a ha b hab
      rcases List.mem_cons.mp ha with rfl | ha
      · apply hgrows
        rw [enterHandler, BitVec.getLsbD_or]
        unfold masks at hab
        rw [hab, Bool.or_true]
      · apply hmasks a ha
        rw [enterHandler_masks]
        exact hab

theorem last_all (t : Task) : Last 32 t := by
  intro c hc
  have hpos := hc.1
  omega

/-- The signals in the masks of the handlers that a call invokes are deferred if and only if no signal that the
call comes to is in the mask of a handler of a lower pending signal. -/
theorem masked_signals_deferred_iff (writable : Word → Bool) (oldMask : Word) (m : Machine) :
    Deferred writable oldMask m ↔ Unmasked m.task := by
  constructor
  · intro h
    exact (taken_pairwise_iff (last_all m.task)).mp h.taken
  · intro h
    constructor
    · exact (taken_pairwise_iff (last_all m.task)).mpr h
    · unfold framed
      cases hcollect : collect quiet m.task m.tr 0 with
      | none => exact List.Pairwise.nil
      | some r =>
        obtain ⟨t', tr', toHandle⟩ := r
        obtain ⟨hnone, -, -, hchosen⟩ := collect_quiet hcollect
        apply List.Pairwise.sublist mem_writableFrames
        apply (handled_sorted toHandle).imp_of_mem
        intro a b ha hb hlt
        have hempty : ∀ nr, nr ∉ handled 0 := by
          intro nr hnr
          have hbit := (mem_handled.mp hnr).2.2
          rw [getLsbD_word_zero] at hbit
          exact Bool.false_ne_true hbit
        obtain ⟨hpending, hcaught⟩ := (hchosen a ha).resolve_left (hempty a)
        obtain ⟨hpending', -⟩ := (hchosen b hb).resolve_left (hempty b)
        exact h a b hlt hpending hpending' hcaught fun c _ hc => hnone c hc
    · intro m' hsignal a ha b hab
      unfold doSignal at hsignal
      obtain ⟨⟨t', tr', toHandle⟩, hcollect, hframes⟩ := Option.bind_eq_some_iff.mp hsignal
      obtain ⟨-, -, hsas, -⟩ := collect_quiet hcollect
      dsimp only at hframes hsas
      split_ifs at hframes with hzero
      · exact absurd (Prod.mk.inj (Option.some.inj hframes)).2 Bool.false_ne_true
      · obtain ⟨v, hfold, hv⟩ := Option.map_eq_some_iff.mp hframes
        obtain ⟨rfl, -⟩ := Prod.mk.inj hv
        have ha' : a ∈ handled toHandle := by
          unfold framed at ha
          rw [hcollect] at ha
          exact mem_writableFrames.subset ha
        apply (buildFrames_blocked hfold).2 a ha' b
        unfold masks at hab ⊢
        dsimp only
        rwa [hsas]

/-- Two signals with handlers are pending, and the mask of the first handler has the second one. -/
def overlapping : Machine :=
  { interruptedMachine with
    task :=
      { Signals.bootTask with
        pid := 7
        signal := sigBit 10 ||| sigBit 12
        sigaction := fun i => ⟨0x1000 + BitVec.ofNat 32 i, 0, 0, sigBit 10 ||| sigBit 12⟩ } }

/-- Frames are built for both. -/
theorem overlapping_not_deferred :
    framed (fun _ => true) overlapping = [10, 12] ∧ ¬ Deferred (fun _ => true) 0 overlapping := by
  have hframed : framed (fun _ => true) overlapping = [10, 12] := by decide +kernel
  refine ⟨hframed, fun h => ?_⟩
  have hpair := h.frames
  rw [hframed] at hpair
  exact absurd hpair (by decide +kernel)

end Mario.Kernel
