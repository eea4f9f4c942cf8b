import Mario.Kernel.Timer

/-!
# The list of timers

A timer that is put into the list must not be in it, and one that is taken out must be in it. The
first is known from the way the timers are used, and the second is what `timer_in_list` reads off
the `next` pointer. So the pointer has to be null in every task that has not armed its timer, and
this is where `fork` matters.
-/

namespace Mario.Kernel.Timer

open Mario.Lib Function

variable {s s' : State} {l l₁ l₂ : List Node} {n tmp : Node} {p c fuel : ℕ} {j : Word} {b : Bool}

/-! ## The pointers -/

theorem findLater_spec {L : Links Node} {expires : Node → Word} {e : Word} (h : L.Ring .head (l₁ ++ l₂))
    (hfind : findLater L expires e fuel (l₂.headD .head) = some tmp) :
    ∃ l₃ l₄, l₁ ++ l₂ = l₃ ++ l₄ ∧ tmp = l₄.headD .head := by
  induction fuel generalizing l₁ l₂ with
  | zero => cases hfind
  | succ fuel ih =>
    rw [findLater] at hfind
    split_ifs at hfind with hstop
    · exact ⟨l₁, l₂, rfl, (Option.some.inj hfind).symm⟩
    · cases l₂ with
      | nil => exact absurd (Or.inl rfl) hstop
      | cons y l₂ =>
        rw [List.headD_cons, (Links.path_append.mp h.2).2.next_eq, Option.bind_some] at hfind
        rw [List.append_cons] at h ⊢
        exact ih h hfind

theorem headD_mem : l₂.headD .head ∈ Node.head :: (l₁ ++ l₂) := by
  cases l₂ with
  | nil => exact List.mem_cons_self
  | cons y l₂ => simp

theorem findLater_ends {L : Links Node} {expires : Node → Word} {e : Word}
    (h : L.Ring .head (l₁ ++ l₂)) (hfuel : l₂.length < fuel) :
    ∃ tmp, findLater L expires e fuel (l₂.headD .head) = some tmp := by
  induction l₂ generalizing l₁ fuel with
  | nil =>
    obtain ⟨fuel, rfl⟩ := Nat.exists_eq_add_one_of_ne_zero (Nat.ne_zero_of_lt hfuel)
    exact ⟨.head, if_pos (Or.inl rfl)⟩
  | cons y l₂ ih =>
    obtain ⟨fuel, rfl⟩ := Nat.exists_eq_add_one_of_ne_zero (Nat.ne_zero_of_lt hfuel)
    rw [List.headD_cons, findLater]
    split_ifs with hstop
    · exact ⟨y, rfl⟩
    · rw [(Links.path_append.mp h.2).2.next_eq, Option.bind_some]
      rw [List.append_cons] at h
      rw [List.length_cons] at hfuel
      exact ih h (by omega)

theorem addTimer_spec (h : s.links.Ring .head l) (hn : n ∉ Node.head :: l) (hadd : addTimer fuel n s = some s') :
    ∃ L e l₁ l₂, s' = { s with links := L, expires := e } ∧ l = l₁ ++ l₂ ∧
      L.Ring .head (l₁ ++ n :: l₂) ∧ ∀ m, L.next m ≠ none → m = n ∨ s.links.next m ≠ none := by
  unfold addTimer at hadd
  obtain ⟨first, hfirst, hadd⟩ := Option.bind_eq_some_iff.mp hadd
  obtain ⟨tmp, htmp, hadd⟩ := Option.bind_eq_some_iff.mp hadd
  obtain ⟨pr, hpr, rfl⟩ := Option.map_eq_some_iff.mp hadd
  obtain rfl := Option.some.inj (h.2.next_eq.symm.trans hfirst)
  have hring : s.links.Ring .head ([] ++ l) := h
  obtain ⟨l₁, l₂, hl, rfl⟩ := findLater_spec hring htmp
  rw [List.nil_append] at hl
  rw [hl] at h hn
  refine ⟨_, _, l₁, l₂, rfl, hl, h.add hn rfl hpr, fun m hm => ?_⟩
  rw [Links.listAdd_next] at hm
  split_ifs at hm with hmpr hmn
  · subst hmpr
    exact Or.inr (h.next_ne_none (h.mem_prev headD_mem hpr))
  · exact Or.inl hmn
  · exact Or.inr hm

theorem addTimer_ends (h : s.links.Ring .head l) (hfuel : l.length < fuel) : ∃ s', addTimer fuel n s = some s' := by
  have hring : s.links.Ring .head ([] ++ l) := h
  obtain ⟨tmp, htmp⟩ := findLater_ends hring hfuel
  obtain ⟨l₁, l₂, hl, rfl⟩ := findLater_spec hring htmp
  rw [List.nil_append] at hl
  rw [hl] at h
  obtain ⟨pr, hpr⟩ := h.exists_prev headD_mem
  rw [← hl] at h
  exact ⟨_, Option.bind_eq_some_iff.mpr ⟨_, h.2.next_eq, Option.bind_eq_some_iff.mpr
    ⟨_, htmp, Option.map_eq_some_iff.mpr ⟨pr, hpr, rfl⟩⟩⟩⟩

theorem delTimerCore_spec (h : s.links.Ring .head l) (hn : n ∈ l) (hdel : delTimerCore n s = some s') :
    ∃ L e l₁ l₂, s' = { s with links := L, expires := e } ∧ l = l₁ ++ n :: l₂ ∧
      L.Ring .head (l₁ ++ l₂) ∧ ∀ m, L.next m ≠ none → m ≠ n ∧ s.links.next m ≠ none := by
  obtain ⟨l₁, l₂, rfl⟩ := List.append_of_mem hn
  obtain ⟨pr, nx, hpr, hnx, hring⟩ := h.del
  rw [delTimerCore, hpr, Option.bind_some, hnx, Option.map_some] at hdel
  cases hdel
  refine ⟨_, _, l₁, l₂, rfl, rfl, hring, fun m hm => ?_⟩
  rw [Links.unlink_next, Links.listDel_next] at hm
  split_ifs at hm with hmn hmpr
  · exact absurd rfl hm
  · subst hmpr
    exact ⟨hmn, h.next_ne_none (h.mem_prev (List.mem_cons_of_mem _ hn) hpr)⟩
  · exact ⟨hmn, hm⟩

theorem delTimerCore_ends (h : s.links.Ring .head l) (hn : n ∈ l) : ∃ s', delTimerCore n s = some s' := by
  obtain ⟨l₁, l₂, rfl⟩ := List.append_of_mem hn
  obtain ⟨pr, nx, hpr, hnx, -⟩ := h.del
  exact ⟨_, Option.bind_eq_some_iff.mpr ⟨pr, hpr, Option.map_eq_some_iff.mpr ⟨nx, hnx, rfl⟩⟩⟩

/-! ## The invariant -/

/-- The memory of a timer is in use. -/
def Valid (s : State) : Node → Prop
  | .head => False
  | .real p => s.alive p = true
  | .sleep p => s.sleeping p = true

/-- A list of timers in use, which are told from the others by their `next` pointers. -/
structure Listed (L : Links Node) (V : Node → Prop) (l : List Node) : Prop where
  ring : L.Ring .head l
  inList : ∀ n, V n → L.next n ≠ none → n ∈ l
  valid : ∀ n ∈ l, V n

/-- The list has the armed timers. -/
structure Inv (s : State) (l : List Node) : Prop where
  listed : Listed s.links (Valid s) l
  mem : ∀ n, n ∈ l ↔ s.armed n = true
  data : ∀ p, s.alive p = true → s.data p = p
  asleep : ∀ p, s.sleeping p = true → s.alive p = true ∧ s.zombie p = false

theorem Inv.timersOk (h : Inv s l) : TimersOk s := by
  constructor
  · exact ⟨l, h.listed.ring, h.mem⟩
  · intro n harmed
    have hvalid := h.listed.valid n ((h.mem n).mpr harmed)
    cases n with
    | head => cases hvalid
    | real p => exact ⟨p, rfl, hvalid⟩
    | sleep p => exact ⟨p, rfl, (h.asleep p hvalid).1⟩

/-- `add_timer` on a timer that is in use and not in the list. -/
theorem Listed.addTimer (h : Listed s.links (Valid s) l) (hvalid : Valid s n) (hn : n ∉ l)
    (hadd : addTimer fuel n s = some s') :
    ∃ L e l', s' = { s with links := L, expires := e } ∧ Listed L (Valid s) l' ∧ ∀ m, m ∈ l' ↔ m = n ∨ m ∈ l := by
  have hhead : n ∉ Node.head :: l := by
    rw [List.mem_cons, not_or]
    refine ⟨?_, hn⟩
    rintro rfl
    exact hvalid
  obtain ⟨L, e, l₁, l₂, rfl, rfl, hring, hnext⟩ := addTimer_spec h.ring hhead hadd
  have hmem : ∀ m, m ∈ l₁ ++ n :: l₂ ↔ m = n ∨ m ∈ l₁ ++ l₂ := by
    intro m
    rw [List.mem_append, List.mem_cons, List.mem_append]
    exact or_left_comm
  refine ⟨L, e, l₁ ++ n :: l₂, rfl, ⟨hring, ?_, ?_⟩, hmem⟩
  · intro m hm hmnext
    rw [hmem]
    rcases hnext m hmnext with rfl | hold
    · exact Or.inl rfl
    · exact Or.inr (h.inList m hm hold)
  · intro m hm
    rcases (hmem m).mp hm with rfl | hm
    · exact hvalid
    · exact h.valid m hm

theorem Listed.delTimerCore (h : Listed s.links (Valid s) l) (hn : n ∈ l) (hdel : delTimerCore n s = some s') :
    ∃ L e l', s' = { s with links := L, expires := e } ∧ Listed L (Valid s) l' ∧ ∀ m, m ∈ l' ↔ m ≠ n ∧ m ∈ l := by
  obtain ⟨L, e, l₁, l₂, rfl, rfl, hring, hnext⟩ := delTimerCore_spec h.ring hn hdel
  have hnot : n ∉ l₁ ++ l₂ := (List.nodup_middle.mp (List.nodup_cons.mp h.ring.1).2).notMem
  have hmem : ∀ m, m ∈ l₁ ++ l₂ ↔ m ≠ n ∧ m ∈ l₁ ++ n :: l₂ := by
    intro m
    constructor
    · intro hm
      refine ⟨?_, ?_⟩
      · rintro rfl
        exact hnot hm
      · rw [List.mem_append, List.mem_cons]
        exact (List.mem_append.mp hm).imp_right Or.inr
    · rintro ⟨hne, hm⟩
      rw [List.mem_append, List.mem_cons] at hm
      exact List.mem_append.mpr (hm.imp_right fun hm => hm.resolve_left hne)
  refine ⟨L, e, l₁ ++ l₂, rfl, ⟨hring, ?_, ?_⟩, hmem⟩
  · intro m hm hmnext
    obtain ⟨hne, hold⟩ := hnext m hmnext
    exact (hmem m).mpr ⟨hne, h.inList m hm hold⟩
  · intro m hm
    exact h.valid m ((hmem m).mp hm).2

theorem Listed.delTimer (h : Listed s.links (Valid s) l) (hvalid : Valid s n) (hdel : delTimer n s = some (b, s')) :
    ∃ L e l', s' = { s with links := L, expires := e } ∧ Listed L (Valid s) l' ∧
      (∀ m, m ∈ l' ↔ m ≠ n ∧ m ∈ l) ∧ (b = true → n ∈ l) := by
  unfold Timer.delTimer at hdel
  split_ifs at hdel with hnext
  · cases hdel
    have hn : n ∉ l := fun hn => h.ring.next_ne_none (List.mem_cons_of_mem _ hn) hnext
    refine ⟨s.links, s.expires, l, rfl, h, fun m => ?_, nofun⟩
    constructor
    · intro hm
      refine ⟨?_, hm⟩
      rintro rfl
      exact hn hm
    · exact And.right
  · have hn := h.inList n hvalid hnext
    obtain ⟨s₁, hcore, heq⟩ := Option.map_eq_some_iff.mp hdel
    cases heq
    obtain ⟨L, e, l', rfl, hlisted, hmem⟩ := h.delTimerCore hn hcore
    exact ⟨L, e, l', rfl, hlisted, hmem, fun _ => hn⟩

theorem Inv.arm (h : Inv s l) (hvalid : Valid s n) (hn : n ∉ l)
    (harm : arm fuel n j s = some s') : ∃ l', Inv s' l' := by
  obtain ⟨s₁, hadd, rfl⟩ := Option.map_eq_some_iff.mp harm
  obtain ⟨L, e, l', rfl, hlisted, hmem⟩ :=
    Listed.addTimer (s := setExpires n j s) h.listed hvalid hn hadd
  refine ⟨l', hlisted, fun m => ?_, h.data, h.asleep⟩
  change m ∈ l' ↔ update s.armed n true m = true
  rw [hmem, h.mem, update_apply]
  split_ifs with hmn
  · simp [hmn]
  · simp [hmn]

/-- A timer is taken out of the list, and it is not armed any more. -/
theorem Inv.unarm {L : Links Node} {e : Node → Word} {l' : List Node} (h : Inv s l)
    (hlisted : Listed L (Valid s) l') (hmem : ∀ m, m ∈ l' ↔ m ≠ n ∧ m ∈ l) :
    Inv (setArmed n false { s with links := L, expires := e }) l' := by
  refine ⟨hlisted, fun m => ?_, h.data, h.asleep⟩
  change m ∈ l' ↔ update s.armed n false m = true
  rw [hmem, h.mem, update_apply]
  split_ifs with hmn
  · simp [hmn]
  · simp [hmn]

theorem Inv.disarm (h : Inv s l) (hvalid : Valid s n) (hdisarm : disarm n s = some s') :
    ∃ L e l', s' = setArmed n false { s with links := L, expires := e } ∧ Inv s' l' ∧ n ∉ l' := by
  obtain ⟨⟨b, s₁⟩, hdel, rfl⟩ := Option.map_eq_some_iff.mp hdisarm
  obtain ⟨L, e, l', rfl, hlisted, hmem, -⟩ := h.listed.delTimer hvalid hdel
  refine ⟨L, e, l', rfl, h.unarm hlisted hmem, ?_⟩
  rw [hmem]
  simp

/-! ## The operations -/

theorem ne_of_mem_cons {m : Node} (hn : Node.real c ∉ l) (hm : m ∈ Node.head :: l) : m ≠ .real c := by
  rintro rfl
  exact hn ((List.mem_cons.mp hm).resolve_left nofun)

theorem Inv.setInterval (h : Inv s l) (w : Which) (i : Interval) : Inv (setInterval p w i s) l :=
  ⟨h.listed, h.mem, h.data, h.asleep⟩

theorem Inv.getitimer {w : Which} {v : Itimerval} (h : Inv s l) (hp : s.alive p = true)
    (hget : getitimer fuel p w s = some (v, s')) : ∃ L e l', s' = { s with links := L, expires := e } ∧ Inv s' l' := by
  have hother : s = s' → ∃ L e l', s' = { s with links := L, expires := e } ∧ Inv s' l' := by
    rintro rfl
    exact ⟨s.links, s.expires, l, rfl, h⟩
  cases w with
  | virtual => exact hother (Prod.mk.inj (Option.some.inj hget)).2
  | prof => exact hother (Prod.mk.inj (Option.some.inj hget)).2
  | real =>
    obtain ⟨⟨b, s₁⟩, hdel, hrest⟩ := Option.bind_eq_some_iff.mp hget
    obtain ⟨L, e, l', rfl, hlisted, hmem, hn⟩ := h.listed.delTimer (n := .real p) hp hdel
    have hnot : Node.real p ∉ l' := by
      rw [hmem]
      simp
    cases b with
    | true =>
      -- The timer was in the list, and it goes back into it.
      obtain ⟨s₂, hadd, heq⟩ := Option.map_eq_some_iff.mp hrest
      obtain rfl := (Prod.mk.inj heq).2
      obtain ⟨L', e', l'', rfl, hlisted', hmem'⟩ := Listed.addTimer
        (s := { s with links := L, expires := e }) (n := .real p) hlisted hp hnot hadd
      refine ⟨L', e', l'', rfl, hlisted', fun m => ?_, h.data, h.asleep⟩
      change m ∈ l'' ↔ s.armed m = true
      rw [hmem', hmem, ← h.mem]
      constructor
      · rintro (rfl | hm)
        · exact hn rfl
        · exact hm.2
      · intro hm
        by_cases heq : m = .real p
        · exact Or.inl heq
        · exact Or.inr ⟨heq, hm⟩
    | false =>
      obtain rfl := (Prod.mk.inj (Option.some.inj hrest)).2
      have hn : Node.real p ∉ l := by
        intro hn
        unfold delTimer at hdel
        rw [if_neg (h.listed.ring.next_ne_none (List.mem_cons_of_mem _ hn))] at hdel
        obtain ⟨s₂, -, heq⟩ := Option.map_eq_some_iff.mp hdel
        cases (Prod.mk.inj heq).1
      refine ⟨L, e, l', rfl, hlisted, fun m => ?_, h.data, h.asleep⟩
      change m ∈ l' ↔ s.armed m = true
      rw [hmem, ← h.mem]
      constructor
      · exact And.right
      · intro hm
        refine ⟨?_, hm⟩
        rintro rfl
        exact hn hm

theorem Inv.setTimer {w : Which} {i : Word} (h : Inv s l) (hp : s.alive p = true)
    (hset : setTimer fuel p w i j s = some s') : ∃ l', Inv s' l' := by
  cases w with
  | virtual =>
    cases hset
    exact ⟨l, h.setInterval _ _⟩
  | prof =>
    cases hset
    exact ⟨l, h.setInterval _ _⟩
  | real =>
    obtain ⟨s₁, hdisarm, hrest⟩ := Option.bind_eq_some_iff.mp hset
    obtain ⟨L, e, l', rfl, hinv, hn⟩ := h.disarm (n := .real p) hp hdisarm
    split_ifs at hrest with hj
    · cases hrest
      exact ⟨l', hinv.setInterval _ _⟩
    · exact (hinv.setInterval _ _).arm (n := .real p) hp hn hrest

theorem Inv.setitimer {w : Which} {v : Itimerval} {old : Bool} {r : Option Itimerval}
    (h : Inv s l) (hp : s.alive p = true) (hset : setitimer fuel p w v old s = some (r, s')) : ∃ l', Inv s' l' := by
  cases old with
  | false =>
    obtain ⟨s₁, hset₁, heq⟩ := Option.map_eq_some_iff.mp hset
    obtain rfl := (Prod.mk.inj heq).2
    exact h.setTimer hp hset₁
  | true =>
    obtain ⟨⟨v', s₁⟩, hget, hrest⟩ := Option.bind_eq_some_iff.mp hset
    obtain ⟨s₂, hset₂, heq⟩ := Option.map_eq_some_iff.mp hrest
    obtain rfl := (Prod.mk.inj heq).2
    obtain ⟨L, e, l', rfl, hinv⟩ := h.getitimer hp hget
    exact hinv.setTimer hp hset₂

theorem Inv.sleep_not_mem (h : Inv s l) (hp : s.sleeping p = false) : Node.sleep p ∉ l := by
  intro hn
  have hvalid : s.sleeping p = true := h.listed.valid _ hn
  rw [hp] at hvalid
  cases hvalid

/-- The timer on the stack is new when `schedule_timeout` begins. -/
theorem Inv.startSleep (h : Inv s l) (hp : Running s p) :
    Inv { s with
      links := Links.unlink (.sleep p) s.links
      sleeping := update s.sleeping p true } l := by
  obtain ⟨halive, hzombie, hawake⟩ := hp
  have hn := h.sleep_not_mem hawake
  have hvalid : ∀ m, m ≠ .sleep p →
      (Valid { s with
        links := Links.unlink (.sleep p) s.links
        sleeping := update s.sleeping p true } m ↔ Valid s m) := by
    intro m hm
    cases m with
    | head => exact Iff.rfl
    | real q => exact Iff.rfl
    | sleep q =>
      have hq : q ≠ p := fun heq => hm (congrArg Node.sleep heq)
      change update s.sleeping p true q = true ↔ s.sleeping q = true
      rw [update_of_ne hq]
  refine ⟨⟨?_, ?_, ?_⟩, h.mem, h.data, ?_⟩
  · refine h.listed.ring.congr (fun m hm => ?_) fun m _ => rfl
    have hne : m ≠ .sleep p := by
      rintro rfl
      exact hn ((List.mem_cons.mp hm).resolve_left nofun)
    rw [Links.unlink_next, if_neg hne]
  · intro m hm hnext
    rw [Links.unlink_next] at hnext
    split_ifs at hnext with hne
    · exact absurd rfl hnext
    · exact h.listed.inList m ((hvalid m hne).mp hm) hnext
  · intro m hm
    refine (hvalid m ?_).mpr (h.listed.valid m hm)
    rintro rfl
    exact hn hm
  · intro q hq
    change update s.sleeping p true q = true at hq
    rw [update_apply] at hq
    split_ifs at hq with heq
    · rw [heq]
      exact ⟨halive, hzombie⟩
    · exact h.asleep q hq

theorem Inv.scheduleTimeout (h : Inv s l) (hp : Running s p)
    (hsleep : scheduleTimeout fuel p j s = some s') : ∃ l', Inv s' l' := by
  refine (h.startSleep hp).arm ?_ (h.sleep_not_mem hp.2.2) hsleep
  exact update_self p true s.sleeping

theorem Inv.wake (h : Inv s l) (hp : s.sleeping p = true) (hwake : wake p s = some s') : ∃ l', Inv s' l' := by
  obtain ⟨s₁, hdisarm, rfl⟩ := Option.map_eq_some_iff.mp hwake
  obtain ⟨L, e, l', rfl, hinv, hn⟩ := h.disarm (n := .sleep p) hp hdisarm
  have hle : ∀ q, update s.sleeping p false q = true → s.sleeping q = true := by
    intro q hq
    rw [update_apply] at hq
    split_ifs at hq
    exact hq
  refine ⟨l', ⟨hinv.listed.ring, ?_, ?_⟩, hinv.mem, hinv.data, fun q hq => hinv.asleep q (hle q hq)⟩
  · intro m hm
    apply hinv.listed.inList m
    cases m with
    | head => exact hm
    | real q => exact hm
    | sleep q => exact hle q hm
  · intro m hm
    have hvalid := hinv.listed.valid m hm
    cases m with
    | head => exact hvalid
    | real q => exact hvalid
    | sleep q =>
      have hq : q ≠ p := by
        rintro rfl
        exact hn hm
      change update s.sleeping p false q = true
      rw [update_of_ne hq]
      exact hvalid

theorem Inv.first_mem (h : Inv s l) (hnext : s.links.next .head = some n) (hn : n ≠ .head) : n ∈ l := by
  have hhead := Option.some.inj (hnext.symm.trans h.listed.ring.2.next_eq)
  cases l with
  | nil => exact absurd hhead hn
  | cons y l =>
    rw [hhead]
    exact List.mem_cons_self

/-- A timer fires. The timer of a task is armed again only after it was taken out. -/
theorem Inv.runTimerList (h : Inv s l) (hrun : runTimerList fuel s = some s') : ∃ l', Inv s' l' := by
  obtain ⟨n, hnext, hrun⟩ := Option.bind_eq_some_iff.mp hrun
  split_ifs at hrun with hnone
  rw [not_or] at hnone
  obtain ⟨s₁, hdel, hfun⟩ := Option.bind_eq_some_iff.mp hrun
  have hn := h.first_mem hnext hnone.1
  obtain ⟨L, e, l', rfl, hlisted, hmem⟩ := h.listed.delTimerCore hn hdel
  have hinv : Inv (setArmed n false { s with links := L, expires := e }) l' :=
    h.unarm hlisted hmem
  cases n with
  | head => cases hfun
  | sleep p =>
    cases hfun
    exact ⟨l', hinv⟩
  | real p =>
    have halive : s.alive p = true := h.listed.valid _ hn
    change itRealFun fuel (s.data p) _ = some s' at hfun
    rw [h.data p halive] at hfun
    unfold itRealFun at hfun
    split_ifs at hfun with hincr
    · cases hfun
      exact ⟨l', hinv⟩
    · refine hinv.arm (n := .real p) halive ?_ hfun
      rw [hmem]
      simp

theorem Inv.irqPIT (h : Inv s l) : Inv (irqPIT p b s) l := by
  cases b with
  | false => exact ⟨h.listed, h.mem, h.data, h.asleep⟩
  | true => exact ⟨h.listed, h.mem, h.data, h.asleep⟩

/-- The copy of a task whose timer is not in the list is not taken for a timer in the list. -/
theorem Inv.copyTask (h : Inv s l) (hc : s.alive c = false)
    (hnext : b = true → s.links.next (.real p) = none) : Inv (copyTask p c b s) l := by
  have hn : Node.real c ∉ l := by
    intro hn
    have hvalid : s.alive c = true := h.listed.valid _ hn
    rw [hc] at hvalid
    cases hvalid
  have hcawake : s.sleeping c = false := by
    rw [← Bool.not_eq_true]
    intro hsleeping
    have halive := (h.asleep c hsleeping).1
    rw [hc] at halive
    cases halive
  refine ⟨⟨?_, ?_, ?_⟩, ?_, ?_, ?_⟩
  · refine h.listed.ring.congr (fun m hm => ?_) fun m hm => ?_
    · exact update_of_ne (ne_of_mem_cons hn hm) ..
    · exact update_of_ne (ne_of_mem_cons hn hm) ..
  · intro m hm hmnext
    change update s.links.next (.real c) (s.links.next (.real p)) m ≠ none at hmnext
    rw [update_apply] at hmnext
    split_ifs at hmnext with hmc
    · subst hmc
      change update s.alive c b c = true at hm
      rw [update_self] at hm
      exact absurd (hnext hm) hmnext
    · refine h.listed.inList m ?_ hmnext
      cases m with
      | head => exact hm
      | real q =>
        have hqc : q ≠ c := fun heq => hmc (congrArg Node.real heq)
        change update s.alive c b q = true at hm
        rw [update_of_ne hqc] at hm
        exact hm
      | sleep q =>
        change update s.sleeping c false q = true at hm
        rw [update_apply] at hm
        split_ifs at hm
        exact hm
  · intro m hm
    have hvalid := h.listed.valid m hm
    cases m with
    | head => exact hvalid
    | real q =>
      have hqc : q ≠ c := by
        rintro rfl
        exact hn hm
      exact (update_of_ne hqc b s.alive).trans hvalid
    | sleep q =>
      have hqc : q ≠ c := by
        rintro rfl
        cases hcawake.symm.trans hvalid
      exact (update_of_ne hqc false s.sleeping).trans hvalid
  · intro m
    change m ∈ l ↔ update s.armed (.real c) false m = true
    rw [h.mem, update_apply]
    split_ifs with hmc
    · rw [hmc, ← h.mem]
      simp [hn]
    · exact Iff.rfl
  · intro q hq
    change update s.alive c b q = true at hq
    change update s.data c c q = q
    rw [update_apply] at hq ⊢
    split_ifs at hq ⊢ with hqc
    · exact hqc.symm
    · exact h.data q hq
  · intro q hq
    change update s.sleeping c false q = true at hq
    rw [update_apply] at hq
    split_ifs at hq with hqc
    change update s.alive c b q = true ∧ update s.zombie c false q = false
    rw [update_of_ne hqc, update_of_ne hqc]
    exact h.asleep q hq

theorem Inv.exit (h : Inv s l) (hp : Running s p) : Inv { s with zombie := update s.zombie p true } l := by
  refine ⟨h.listed, h.mem, h.data, fun q hq => ?_⟩
  have hqp : q ≠ p := by
    rintro rfl
    cases hp.2.2.symm.trans hq
  change s.alive q = true ∧ update s.zombie p true q = false
  rw [update_of_ne hqp]
  exact h.asleep q hq

theorem Inv.reap (h : Inv s l) (hp : s.zombie p = true) (hnext : s.links.next (.real p) = none) :
    Inv { s with alive := update s.alive p false } l := by
  have hn : Node.real p ∉ l := fun hn =>
    h.listed.ring.next_ne_none (List.mem_cons_of_mem _ hn) hnext
  have hle : ∀ q, update s.alive p false q = true → s.alive q = true := by
    intro q hq
    rw [update_apply] at hq
    split_ifs at hq
    exact hq
  refine ⟨⟨h.listed.ring, ?_, ?_⟩, h.mem, fun q hq => h.data q (hle q hq), ?_⟩
  · intro m hm
    apply h.listed.inList m
    cases m with
    | head => exact hm
    | real q => exact hle q hm
    | sleep q => exact hm
  · intro m hm
    have hvalid := h.listed.valid m hm
    cases m with
    | head => exact hvalid
    | real q =>
      have hqp : q ≠ p := by
        rintro rfl
        exact hn hm
      exact (update_of_ne hqp false s.alive).trans hvalid
    | sleep q => exact hvalid
  · intro q hq
    have hold := h.asleep q hq
    have hqp : q ≠ p := by
      rintro rfl
      cases hp.symm.trans hold.2
    change update s.alive p false q = true ∧ s.zombie q = false
    rw [update_of_ne hqp]
    exact hold

/-! ## The runs -/

theorem Inv.step {a : Label} (h : Inv s l) (hgood : Good s a) (hstep : Step s a s') : ∃ l', Inv s' l' := by
  obtain ⟨hlegal, fuel, hexec⟩ := hstep
  cases a with
  | fork p c ok =>
    cases hexec
    exact ⟨l, h.copyTask hlegal.2 hgood⟩
  | clone p c ok =>
    cases hexec
    exact ⟨l, h.copyTask hlegal.2 hgood⟩
  | setitimer p w v old =>
    cases w with
    | none =>
      cases hexec
      exact ⟨l, h⟩
    | some w =>
      obtain ⟨⟨r, s₁⟩, hset, rfl⟩ := Option.map_eq_some_iff.mp hexec
      exact h.setitimer hlegal.1 hset
  | getitimer p w =>
    cases w with
    | none =>
      cases hexec
      exact ⟨l, h⟩
    | some w =>
      obtain ⟨⟨v, s₁⟩, hget, rfl⟩ := Option.map_eq_some_iff.mp hexec
      obtain ⟨L, e, l', -, hinv⟩ := h.getitimer hlegal.1 hget
      exact ⟨l', hinv⟩
  | alarm p seconds =>
    obtain ⟨⟨r, s₁⟩, hset, rfl⟩ := Option.map_eq_some_iff.mp hexec
    exact h.setitimer hlegal.1 hset
  | nanosleep p sec nsec =>
    change nanosleep fuel p sec nsec s = some s' at hexec
    unfold nanosleep at hexec
    split_ifs at hexec with hinval
    · cases hexec
      exact ⟨l, h⟩
    · exact h.scheduleTimeout hlegal hexec
    · exact h.scheduleTimeout hlegal hexec
  | wake p => exact h.wake hlegal hexec
  | exit p =>
    cases hexec
    exact ⟨l, h.exit hlegal⟩
  | reap p =>
    cases hexec
    exact ⟨l, h.reap hlegal.2 hgood⟩
  | tick p userland =>
    cases hexec
    exact ⟨l, h.irqPIT⟩
  | expire => exact h.runTimerList hexec

theorem Initial.inv (h : Initial s) : Inv s [] := by
  refine ⟨⟨⟨List.nodup_singleton _, h.next, h.prev⟩, fun n hn hnext => ?_, nofun⟩, fun n => ?_, h.data, fun p hp => ?_⟩
  · cases n with
    | head => exact hn.elim
    | real p => exact absurd (h.unlinked p hn) hnext
    | sleep p => cases (h.awake p).symm.trans hn
  · rw [h.armed n]
    simp
  · cases (h.awake p).symm.trans hp

theorem Inv.of_run {s₀ : State} {labs : List Label} (hinit : Initial s₀)
    (hrun : Run (Guarded Good Step) s₀ labs s) : ∃ l, Inv s l := by
  refine hrun.invariant (P := fun s => ∃ l, Inv s l) ⟨[], hinit.inv⟩ ?_
  rintro u v a ⟨l, hu⟩ hstep
  exact hu.step hstep.1 hstep.2

/-- In every run in which no task is copied or freed while its timer is in the list, the list has
exactly the armed timers, and all of them are timers of tasks that exist. -/
theorem timers_ok (s₀ : State) (hinit : Initial s₀) (labs : List Label) (s : State)
    (hrun : Run (Guarded Good Step) s₀ labs s) : TimersOk s := by
  obtain ⟨l, hinv⟩ := Inv.of_run hinit hrun
  exact hinv.timersOk

/-! ## The list is never left in pieces -/

theorem Listed.length_le {L : Links Node} {V : Node → Prop} {l' : List Node}
    (h : Listed L V l') (hsub : ∀ n ∈ l', n ∈ l) : l'.length ≤ l.length :=
  (h.ring.1.of_cons.subperm hsub).length_le

theorem Listed.delTimer_ends (h : Listed s.links (Valid s) l) (hvalid : Valid s n) :
    ∃ r, Timer.delTimer n s = some r := by
  unfold Timer.delTimer
  split_ifs with hnext
  · exact ⟨_, rfl⟩
  · obtain ⟨s', hs'⟩ := delTimerCore_ends h.ring (h.inList n hvalid hnext)
    exact ⟨_, Option.map_eq_some_iff.mpr ⟨s', hs', rfl⟩⟩

theorem arm_ends (h : s.links.Ring .head l) (hfuel : l.length < fuel) : ∃ s', arm fuel n j s = some s' := by
  have hring : (setExpires n j s).links.Ring .head l := h
  obtain ⟨s', hs'⟩ := addTimer_ends hring hfuel
  exact ⟨_, Option.map_eq_some_iff.mpr ⟨s', hs', rfl⟩⟩

theorem Inv.disarm_ends (h : Inv s l) (hvalid : Valid s n) : ∃ s', Timer.disarm n s = some s' := by
  obtain ⟨r, hr⟩ := h.listed.delTimer_ends hvalid
  exact ⟨_, Option.map_eq_some_iff.mpr ⟨r, hr, rfl⟩⟩

theorem Inv.getitimer_ends {w : Which} (h : Inv s l) (hp : s.alive p = true)
    (hfuel : l.length < fuel) : ∃ r, Timer.getitimer fuel p w s = some r := by
  cases w with
  | virtual => exact ⟨_, rfl⟩
  | prof => exact ⟨_, rfl⟩
  | real =>
    obtain ⟨⟨b, s₁⟩, hdel⟩ := h.listed.delTimer_ends (n := .real p) hp
    unfold Timer.getitimer
    dsimp only
    rw [hdel, Option.bind_some]
    obtain ⟨L, e, l', rfl, hlisted, hmem, -⟩ := h.listed.delTimer (n := .real p) hp hdel
    have hlength : l'.length ≤ l.length := hlisted.length_le fun m hm => ((hmem m).mp hm).2
    split_ifs
    · obtain ⟨s₂, hs₂⟩ := addTimer_ends (s := { s with links := L, expires := e }) (n := .real p)
        hlisted.ring (lt_of_le_of_lt hlength hfuel)
      exact ⟨_, Option.map_eq_some_iff.mpr ⟨s₂, hs₂, rfl⟩⟩
    · exact ⟨_, rfl⟩

theorem Inv.setTimer_ends {w : Which} {i : Word} (h : Inv s l) (hp : s.alive p = true)
    (hfuel : l.length < fuel) : ∃ s', Timer.setTimer fuel p w i j s = some s' := by
  cases w with
  | virtual => exact ⟨_, rfl⟩
  | prof => exact ⟨_, rfl⟩
  | real =>
    obtain ⟨s₁, hdisarm⟩ := h.disarm_ends (n := .real p) hp
    unfold Timer.setTimer
    dsimp only
    rw [hdisarm, Option.bind_some]
    obtain ⟨L, e, l', rfl, hinv, -⟩ := h.disarm (n := .real p) hp hdisarm
    have hlength : l'.length ≤ l.length := by
      apply hinv.listed.length_le
      intro m hm
      have harmed : update s.armed (.real p) false m = true := (hinv.mem m).mp hm
      rw [update_apply] at harmed
      split_ifs at harmed
      exact (h.mem m).mpr harmed
    split_ifs
    · exact ⟨_, rfl⟩
    · exact arm_ends (hinv.setInterval _ _).listed.ring (lt_of_le_of_lt hlength hfuel)

theorem Inv.setitimer_ends {w : Which} {v : Itimerval} {old : Bool} (h : Inv s l)
    (hp : s.alive p = true) (hfuel : l.length < fuel) : ∃ r, Timer.setitimer fuel p w v old s = some r := by
  cases old with
  | false =>
    obtain ⟨s', hs'⟩ := h.setTimer_ends hp hfuel
    exact ⟨_, Option.map_eq_some_iff.mpr ⟨s', hs', rfl⟩⟩
  | true =>
    obtain ⟨⟨v', s₁⟩, hget⟩ := h.getitimer_ends (w := w) hp hfuel
    obtain ⟨L, e, l', rfl, hinv⟩ := h.getitimer hp hget
    have hlength : l'.length ≤ l.length :=
      hinv.listed.length_le fun m hm => (h.mem m).mpr ((hinv.mem m).mp hm)
    obtain ⟨s₂, hs₂⟩ := hinv.setTimer_ends (w := w) (i := tvtojiffies v.interval)
      (j := tvtojiffies v.value) hp (lt_of_le_of_lt hlength hfuel)
    exact ⟨_, Option.bind_eq_some_iff.mpr ⟨_, hget, Option.map_eq_some_iff.mpr ⟨s₂, hs₂, rfl⟩⟩⟩

/-- The first timer has expired. -/
def Expired (s : State) : Prop :=
  ∃ n, s.links.next .head = some n ∧ n ≠ .head ∧ s.jiffies.slt (s.expires n) = false

theorem Inv.runTimerList_ends (h : Inv s l) (hexpired : Expired s) (hfuel : l.length < fuel) :
    ∃ s', Timer.runTimerList fuel s = some s' := by
  obtain ⟨n, hnext, hhead, hslt⟩ := hexpired
  have hn := h.first_mem hnext hhead
  obtain ⟨s₁, hdel⟩ := delTimerCore_ends h.listed.ring hn
  unfold Timer.runTimerList
  rw [hnext, Option.bind_some, if_neg (by simp [hhead, hslt]), hdel, Option.bind_some]
  obtain ⟨L, e, l', rfl, hlisted, hmem⟩ := h.listed.delTimerCore hn hdel
  have hlength : l'.length ≤ l.length := hlisted.length_le fun m hm => ((hmem m).mp hm).2
  cases n with
  | head => exact absurd rfl hhead
  | sleep p => exact ⟨_, rfl⟩
  | real p =>
    change ∃ s', itRealFun fuel _ _ = some s'
    unfold itRealFun
    split_ifs
    · exact ⟨_, rfl⟩
    · exact arm_ends hlisted.ring (lt_of_le_of_lt hlength hfuel)

/-- No operation faults on a pointer of the list, and none runs around in it. -/
theorem Inv.exec_ends {a : Label} (h : Inv s l) (hlegal : Legal s a)
    (hexpired : a = .expire → Expired s) : ∃ s', exec (l.length + 1) s a = some s' := by
  have hfuel : l.length < l.length + 1 := Nat.lt_succ_self _
  cases a with
  | fork p c ok => exact ⟨_, rfl⟩
  | clone p c ok => exact ⟨_, rfl⟩
  | setitimer p w v old =>
    cases w with
    | none => exact ⟨_, rfl⟩
    | some w =>
      obtain ⟨r, hr⟩ := h.setitimer_ends (w := w) (v := v) hlegal.1 hfuel
      exact ⟨_, Option.map_eq_some_iff.mpr ⟨r, hr, rfl⟩⟩
  | getitimer p w =>
    cases w with
    | none => exact ⟨_, rfl⟩
    | some w =>
      obtain ⟨r, hr⟩ := h.getitimer_ends (w := w) hlegal.1 hfuel
      exact ⟨_, Option.map_eq_some_iff.mpr ⟨r, hr, rfl⟩⟩
  | alarm p seconds =>
    obtain ⟨r, hr⟩ := h.setitimer_ends (w := .real) hlegal.1 hfuel
    exact ⟨_, Option.map_eq_some_iff.mpr ⟨r, hr, rfl⟩⟩
  | nanosleep p sec nsec =>
    dsimp only [exec]
    unfold nanosleep
    split_ifs
    · exact ⟨_, rfl⟩
    · exact arm_ends (h.startSleep hlegal).listed.ring hfuel
    · exact arm_ends (h.startSleep hlegal).listed.ring hfuel
  | wake p =>
    obtain ⟨s', hs'⟩ := h.disarm_ends (n := .sleep p) hlegal
    exact ⟨_, Option.map_eq_some_iff.mpr ⟨s', hs', rfl⟩⟩
  | exit p => exact ⟨_, rfl⟩
  | reap p => exact ⟨_, rfl⟩
  | tick p userland => exact ⟨_, rfl⟩
  | expire => exact h.runTimerList_ends (hexpired rfl) hfuel

/-- In such a run every operation that can be called ends in a next state, and so does a round of the bottom half that
finds an expired timer. -/
theorem timer_operations_end {s₀ : State} {labs : List Label} {a : Label} (hinit : Initial s₀)
    (hrun : Run (Guarded Good Step) s₀ labs s) (hlegal : Legal s a)
    (hexpired : a = .expire → Expired s) : ∃ s', Step s a s' := by
  obtain ⟨l, hinv⟩ := Inv.of_run hinit hrun
  obtain ⟨s', hs'⟩ := hinv.exec_ends hlegal hexpired
  exact ⟨s', hlegal, _, hs'⟩

/-- The first task, with no timer armed. -/
def boot : State :=
  { links := { next := fun n => if n = .head then some .head else none
               prev := fun n => if n = .head then some .head else none }
    expires := fun _ => 0
    jiffies := 0
    alive := fun p => decide (p = 1)
    zombie := fun _ => false
    sleeping := fun _ => false
    interval := fun _ _ => ⟨0, 0⟩
    data := fun p => p
    armed := fun _ => false }

theorem boot_initial : Initial boot :=
  ⟨rfl, rfl, fun _ _ => rfl, fun _ _ => rfl, fun _ => rfl, fun _ => rfl⟩

instance (s : State) : ∀ a, Decidable (Legal s a)
  | .fork _ _ _ | .clone _ _ _ => inferInstanceAs (Decidable (_ ∧ _))
  | .setitimer p _ _ _ | .getitimer p _ | .alarm p _ | .nanosleep p _ _ | .exit p =>
      inferInstanceAs (Decidable (Running s p))
  | .wake p => inferInstanceAs (Decidable (s.sleeping p = true))
  | .reap p => inferInstanceAs (Decidable (s.alive p = true ∧ s.zombie p = true))
  | .tick _ _ | .expire => isTrue trivial

instance (s : State) : ∀ a, Decidable (Good s a)
  | .fork p _ ok | .clone p _ ok =>
      inferInstanceAs (Decidable (ok = true → s.links.next (.real p) = none))
  | .reap p => inferInstanceAs (Decidable (s.links.next (.real p) = none))
  | .setitimer _ _ _ _ | .getitimer _ _ | .alarm _ _ | .nanosleep _ _ _ | .wake _ | .exit _
  | .tick _ _ | .expire => isTrue trivial

theorem boot_run {labs : List Label}
    (h : (replay (fun s a => Good s a ∧ Legal s a) (exec 4) boot labs).isSome) :
    Run (Guarded Good Step) boot labs ((replay (fun s a => Good s a ∧ Legal s a) (exec 4) boot labs).get h) :=
  (run_of_replay (Option.some_get h).symm).mono fun _ _ _ hstep => ⟨hstep.1.1, hstep.1.2, 4, hstep.2⟩

/-- A timer of one tick that is to be armed again, a sleep of the same task, and the tick. -/
def expiring : List Label := [.setitimer 1 (some .real) ⟨⟨0, 10000⟩, ⟨0, 10000⟩⟩ false, .nanosleep 1 1 0, .tick 1 true]

theorem expiring_replays : (replay (fun s a => Good s a ∧ Legal s a) (exec 4) boot expiring).isSome := by
  decide +kernel

/-- The timer of the task has expired, and is armed again in the round that finds it. -/
theorem timer_operations_end_expiring :
    ∃ s s', Run (Guarded Good Step) boot expiring s ∧ s.armed (.real 1) = true ∧ s.armed (.sleep 1) = true ∧
      Step s .expire s' := by
  have hrun := boot_run expiring_replays
  obtain ⟨s', hs'⟩ := timer_operations_end boot_initial hrun (a := .expire) trivial fun _ =>
    ⟨.real 1, by decide +kernel, by decide, by decide +kernel⟩
  exact ⟨_, s', hrun, by decide +kernel, by decide +kernel, hs'⟩

/-- Task 1 forks, both tasks have a timer of one second, and task 2 sleeps. -/
def forked : List Label :=
  [.fork 1 2 true, .alarm 1 1, .alarm 2 1, .nanosleep 2 0 1, .tick 1 true]

theorem forked_replays : (replay (fun s a => Good s a ∧ Legal s a) (exec 4) boot forked).isSome := by
  decide +kernel

theorem timers_ok_forked :
    Initial boot ∧ ∃ s, Run (Guarded Good Step) boot forked s ∧ s.armed (.real 1) = true ∧
      s.armed (.real 2) = true ∧ s.armed (.sleep 2) = true ∧ TimersOk s := by
  have hrun := boot_run forked_replays
  exact ⟨boot_initial, _, hrun, by decide +kernel, by decide +kernel, by decide +kernel,
    timers_ok boot boot_initial _ _ hrun⟩

/-- Task 1 has a timer when it forks, and then task 2 clears what it takes for its own. -/
def cleared : List Label := [.alarm 1 1, .fork 1 2 true, .alarm 2 0]

theorem cleared_replays : (replay Legal (exec 4) boot cleared).isSome := by
  decide +kernel

/-- Deleting the copy of the child takes the timer of the parent out of the list. -/
theorem timers_lost :
    ¬ ∀ (s₀ : State), Initial s₀ → ∀ labs s, Run Step s₀ labs s → TimersOk s := by
  intro h
  have hrun : Run Step boot cleared ((replay Legal (exec 4) boot cleared).get cleared_replays) :=
    (run_of_replay (Option.some_get cleared_replays).symm).mono
      fun _ _ _ hstep => ⟨hstep.1, 4, hstep.2⟩
  obtain ⟨⟨l, hring, hmem⟩, -⟩ := h boot boot_initial _ _ hrun
  -- The list is empty, and the timer of task 1 is armed.
  have hnext := hring.2.next_eq
  have harmed : Node.real 1 ∈ l := (hmem (.real 1)).mpr (by decide +kernel)
  cases l with
  | nil => cases harmed
  | cons n l =>
    have hhead : n = .head := by
      apply Option.some.inj
      exact hnext.symm.trans (by decide +kernel)
    rw [hhead] at hring
    exact (List.nodup_cons.mp hring.1).1 List.mem_cons_self

end Mario.Kernel.Timer
