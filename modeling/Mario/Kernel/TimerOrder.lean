import Mario.Kernel.Time
import Mathlib.Data.List.Basic

/-!
# When timers fire

The list of `kernel/timer.c` with the numbers in it: `add_timer` turns an offset into a tick and looks for the
place of the timer, and a round of `run_timer_list` takes the first timer when its tick has come. The functions
of the timers run between two rounds, so their calls come as events of their own. The tick that a caller has
asked for is kept beside the timers, without a bound.
-/

namespace Mario.Kernel.TimerOrder

open Mario.Kernel.Time Function

def maxJiffyOffset : ℤ := 2 ^ 31 - 2

/-- `timespec_to_jiffies`, for a time that is not negative. -/
def timespecToJiffies (sec nsec : ℤ) : ℤ :=
  if maxJiffyOffset / HZ ≤ sec then maxJiffyOffset
  else HZ * sec + (nsec + (1000000000 / HZ - 1)) / (1000000000 / HZ)

structure State where
  /-- `timer_head`. -/
  list : List ℕ
  expires : ℕ → ℤ
  jiffies : ℤ
  /-- The ticks since boot. -/
  now : ℤ
  /-- The tick that was asked for. -/
  due : ℕ → ℤ
  /-- When a sleep has begun, and how many nanoseconds it is to last. -/
  asleep : ℕ → ℤ × ℤ

/-- The place that `add_timer` finds. -/
def insertTimer (expires : ℕ → ℤ) (n : ℕ) : List ℕ → List ℕ
  | [] => [n]
  | t :: l => if expires n < expires t then n :: t :: l else t :: insertTimer expires n l

/-- `add_timer` of a timer with an offset. -/
def addTimer (s : State) (n : ℕ) (offset : ℤ) : State :=
  let expires := update s.expires n (toLong (offset + s.jiffies))
  { s with list := insertTimer expires n s.list, expires, due := update s.due n (s.now + offset) }

/-- `__del_timer`. -/
def delTimerCore (s : State) (n : ℕ) : State :=
  let left := toLong (s.expires n - s.jiffies)
  { s with list := s.list.erase n, expires := update s.expires n (if left < 0 then 0 else left) }

def delTimer (s : State) (n : ℕ) : State := if n ∈ s.list then delTimerCore s n else s

/-- The timer that a round of `run_timer_list` takes, if there is one. -/
def expired (s : State) : Option ℕ := s.list.head?.filter fun t => s.expires t ≤ s.jiffies

inductive Event
  | add (n : ℕ) (offset : ℤ)
  | del (n : ℕ)
  /-- The interrupt of the clock. -/
  | tick
  /-- A round of `run_timer_list`. The last round of a run takes no timer. -/
  | round
  /-- `sys_nanosleep`, up to the call of `schedule`. -/
  | sleep (n : ℕ) (sec nsec : ℤ)
  /-- The end of `sys_nanosleep`, which returns 0 when no ticks are left. -/
  | wake (n : ℕ)
  deriving DecidableEq

/-- The ticks of a sleep. -/
def sleepTicks (sec nsec : ℤ) : ℤ := timespecToJiffies sec nsec + if sec ≠ 0 ∨ nsec ≠ 0 then 1 else 0

/-- A call that `sys_nanosleep` accepts. -/
def Accepted (sec nsec : ℤ) : Prop := 0 ≤ sec ∧ sec < 2 ^ 31 ∧ 0 ≤ nsec ∧ nsec < 1000000000

def step (s : State) : Event → State
  | .add n offset => { addTimer s n offset with asleep := update s.asleep n (s.now, 0) }
  | .del n | .wake n => delTimer s n
  | .tick => { s with jiffies := toLong (s.jiffies + 1), now := s.now + 1 }
  | .round => (expired s).elim s (delTimerCore s)
  | .sleep n sec nsec =>
      { addTimer s n (sleepTicks sec nsec) with
        asleep := update s.asleep n (s.now, sec * 1000000000 + nsec) }

def start : State := ⟨[], fun _ => 0, 0, 0, fun _ => 0, fun _ => (0, 0)⟩

/-- What callers keep to: a timer is not added while it is in the list, and an offset is a `long` that is not
negative. -/
def Legal (s : State) : Event → Prop
  | .add n offset => n ∉ s.list ∧ 0 ≤ offset ∧ offset < 2 ^ 31
  | .sleep n sec nsec => n ∉ s.list ∧ Accepted sec nsec
  | _ => True

/-- The tick of a timer is a `long`, and so is that of the clock; a sleep is no longer than
`MAX_JIFFY_OFFSET`. -/
def Fits (s : State) : Event → Prop
  | .add _ offset => s.now + offset < 2 ^ 31
  | .tick => s.now + 1 < 2 ^ 31
  | .sleep _ sec nsec => s.now + sleepTicks sec nsec < 2 ^ 31 ∧
      HZ * sec + (nsec + (1000000000 / HZ - 1)) / (1000000000 / HZ) ≤ maxJiffyOffset
  | _ => True

/-- All events meet a condition when their turn comes. -/
def AllMeet (P : State → Event → Prop) : State → List Event → Prop
  | _, [] => True
  | s, e :: events => P s e ∧ AllMeet P (step s e) events

/-- The list is sorted; a round takes no timer before its tick, and one that takes none leaves no timer whose tick
has come; a sleep that ends with 0 has lasted, with all ticks but the first, as long as it was to last. -/
structure OnTime (s : State) (e : Event) : Prop where
  sorted : (step s e).list.Pairwise fun m n => (step s e).expires m ≤ (step s e).expires n
  fires : e = .round → ∀ n ∈ expired s, s.due n ≤ s.now
  all : e = .round → expired s = none → ∀ n ∈ s.list, s.now < s.due n
  sleeps : ∀ n, e = .wake n → (step s e).expires n = 0 →
    (s.asleep n).2 = 0 ∨ (s.asleep n).2 ≤ (s.now - (s.asleep n).1 - 1) * (1000000000 / HZ)

/-- The ticks in the list are those that were asked for. -/
structure Exact (s : State) : Prop where
  jiffies : s.jiffies = s.now
  now : 0 ≤ s.now ∧ s.now < 2 ^ 31
  sorted : s.list.Pairwise fun m n => s.expires m ≤ s.expires n
  nodup : s.list.Nodup
  expires : ∀ n ∈ s.list, s.expires n = s.due n ∧ s.due n < 2 ^ 31 ∧ 0 ≤ s.due n
  fired : ∀ n ∉ s.list, s.expires n = 0 → s.due n ≤ s.now
  asleep : ∀ n, (s.asleep n).2 = 0 ∨ (s.asleep n).2 ≤ (s.due n - (s.asleep n).1 - 1) * (1000000000 / HZ)

variable {s : State} {e : Event} {n : ℕ} {offset : ℤ} {l : List ℕ} {f : ℕ → ℤ}

/-! ## The list -/

theorem insertTimer_perm (f : ℕ → ℤ) (n : ℕ) (l : List ℕ) : (insertTimer f n l).Perm (n :: l) := by
  induction l with
  | nil => exact .refl _
  | cons t l ih =>
    rw [insertTimer]
    split_ifs
    · exact .refl _
    · exact (ih.cons t).trans (.swap n t l)

theorem insertTimer_sorted (h : l.Pairwise fun m n => f m ≤ f n) :
    (insertTimer f n l).Pairwise fun m n => f m ≤ f n := by
  induction l with
  | nil => exact List.pairwise_singleton _ _
  | cons t l ih =>
    obtain ⟨hfirst, hrest⟩ := List.pairwise_cons.mp h
    rw [insertTimer]
    split_ifs with hlt
    · refine List.pairwise_cons.mpr ⟨fun m hm => ?_, h⟩
      rcases List.mem_cons.mp hm with rfl | hm
      · exact Int.le_of_lt hlt
      · exact Int.le_trans (Int.le_of_lt hlt) (hfirst m hm)
    · refine List.pairwise_cons.mpr ⟨fun m hm => ?_, ih hrest⟩
      rcases List.mem_cons.mp ((insertTimer_perm f n l).mem_iff.mp hm) with rfl | hm
      · exact Int.not_lt.mp hlt
      · exact hfirst m hm

theorem mem_of_expired (h : n ∈ expired s) : n ∈ s.list ∧ s.expires n ≤ s.jiffies := by
  obtain ⟨hhead, hle⟩ := Option.filter_eq_some_iff.mp h
  exact ⟨List.mem_of_mem_head? hhead, of_decide_eq_true hle⟩

theorem pairwise_update {x : ℤ} (h : l.Pairwise fun m n => f m ≤ f n) (hn : n ∉ l) :
    l.Pairwise fun i j => update f n x i ≤ update f n x j := by
  refine h.imp_of_mem fun hi hj hle => ?_
  rwa [update_of_ne (ne_of_mem_of_not_mem hi hn), update_of_ne (ne_of_mem_of_not_mem hj hn)]

/-! ## Steps -/

theorem toLong_of_fits {x : ℤ} (h₀ : -2 ^ 31 ≤ x) (h₁ : x < 2 ^ 31) : toLong x = x := (toLong_eq_iff x).mpr ⟨h₀, h₁⟩

/-- A timer is added whose tick is a `long`; the sleep of its task, if any, begins now. -/
theorem Exact.add {ns : ℤ} (h : Exact s) (hn : n ∉ s.list) (hoffset : 0 ≤ offset) (hfits : s.now + offset < 2 ^ 31)
    (hns : ns = 0 ∨ ns ≤ (offset - 1) * (1000000000 / HZ)) :
    Exact { addTimer s n offset with asleep := update s.asleep n (s.now, ns) } := by
  obtain ⟨hzero, hnow⟩ := h.now
  have htick : toLong (offset + s.jiffies) = s.now + offset := by
    rw [h.jiffies, toLong_of_fits (by omega) (by omega), Int.add_comm]
  have hperm := insertTimer_perm (update s.expires n (s.now + offset)) n s.list
  unfold addTimer
  rw [htick]
  constructor
  · exact h.jiffies
  · exact h.now
  · exact insertTimer_sorted (pairwise_update h.sorted hn)
  · exact hperm.nodup_iff.mpr (List.nodup_cons.mpr ⟨hn, h.nodup⟩)
  · intro m hm
    rcases List.mem_cons.mp (hperm.mem_iff.mp hm) with rfl | hm
    · simp only [update_self]
      exact ⟨trivial, hfits, by omega⟩
    · have hne := ne_of_mem_of_not_mem hm hn
      simp only [update_of_ne hne]
      exact h.expires m hm
  · intro m hm
    have hout := fun hin => hm (hperm.mem_iff.mpr hin)
    have hne : m ≠ n := fun heq => hout (heq ▸ List.mem_cons_self)
    simp only [update_of_ne hne]
    exact h.fired m fun hin => hout (List.mem_cons_of_mem n hin)
  · intro m
    by_cases hm : m = n
    · subst hm
      simp only [update_self]
      have hsame : s.now + offset - s.now - 1 = offset - 1 := by omega
      rwa [hsame]
    · simp only [update_of_ne hm]
      exact h.asleep m

/-- The ticks that are left, when a timer is taken out of the list. -/
theorem Exact.left (h : Exact s) (hn : n ∈ s.list) : (delTimerCore s n).expires n = max (s.due n - s.now) 0 := by
  obtain ⟨hzero, hnow⟩ := h.now
  obtain ⟨heq, hlt, hdue⟩ := h.expires n hn
  unfold delTimerCore
  dsimp only
  rw [update_self, heq, h.jiffies, toLong_of_fits (by omega) (by omega)]
  split_ifs <;> omega

theorem Exact.delTimerCore (h : Exact s) (hn : n ∈ s.list) : Exact (delTimerCore s n) := by
  have hleft := h.left hn
  have hout : n ∉ s.list.erase n := fun hin => ((h.nodup.mem_erase_iff).mp hin).1 rfl
  have hother : ∀ m, m ≠ n → (TimerOrder.delTimerCore s n).expires m = s.expires m :=
    fun m hm => update_of_ne hm _ _
  constructor
  · exact h.jiffies
  · exact h.now
  · exact pairwise_update (h.sorted.sublist List.erase_sublist) hout
  · exact h.nodup.erase n
  · intro m hm
    obtain ⟨hne, hin⟩ := h.nodup.mem_erase_iff.mp hm
    rw [hother m hne]
    exact h.expires m hin
  · intro m hm hexpired
    by_cases hne : m = n
    · subst hne
      rw [hleft] at hexpired
      change s.due m ≤ s.now
      omega
    · rw [hother m hne] at hexpired
      exact h.fired m (fun hin => hm (h.nodup.mem_erase_iff.mpr ⟨hne, hin⟩)) hexpired
  · exact h.asleep

theorem Exact.delTimer (h : Exact s) : Exact (delTimer s n) := by
  unfold TimerOrder.delTimer
  split_ifs with hn
  · exact h.delTimerCore hn
  · exact h

/-- The ticks of a sleep and what it is to last. -/
theorem sleepTicks_spec {sec nsec : ℤ} (hacc : Accepted sec nsec)
    (hmax : HZ * sec + (nsec + (1000000000 / HZ - 1)) / (1000000000 / HZ) ≤ maxJiffyOffset) :
    0 ≤ sleepTicks sec nsec ∧ (sec * 1000000000 + nsec = 0 ∨
      sec * 1000000000 + nsec ≤ (sleepTicks sec nsec - 1) * (1000000000 / HZ)) := by
  obtain ⟨hsec, -, hnsec, hless⟩ := hacc
  unfold sleepTicks timespecToJiffies
  unfold maxJiffyOffset HZ at *
  split_ifs with hlarge hsome hsome
  all_goals omega

theorem Exact.step (h : Exact s) (hlegal : Legal s e) (hfits : Fits s e) : Exact (step s e) := by
  cases e with
  | add n offset => exact h.add hlegal.1 hlegal.2.1 hfits (.inl rfl)
  | del n => exact h.delTimer
  | wake n => exact h.delTimer
  | tick =>
    obtain ⟨hzero, hnow⟩ := h.now
    change s.now + 1 < 2 ^ 31 at hfits
    constructor
    · change toLong (s.jiffies + 1) = s.now + 1
      rw [h.jiffies, toLong_of_fits (by omega) hfits]
    · exact ⟨by change 0 ≤ s.now + 1; omega, hfits⟩
    · exact h.sorted
    · exact h.nodup
    · exact h.expires
    · exact fun n hn hexpired => Int.le_trans (h.fired n hn hexpired) (by change s.now ≤ s.now + 1; omega)
    · exact h.asleep
  | round =>
    unfold TimerOrder.step
    cases hexp : expired s with
    | none => exact h
    | some n => exact h.delTimerCore (mem_of_expired hexp).1
  | sleep n sec nsec =>
    obtain ⟨hticks, hlasts⟩ := sleepTicks_spec hlegal.2 hfits.2
    exact h.add hlegal.1 hticks hfits.1 hlasts

theorem Exact.onTime (h : Exact s) (hlegal : Legal s e) (hfits : Fits s e) : OnTime s e := by
  constructor
  · exact (h.step hlegal hfits).sorted
  · intro _ n hn
    obtain ⟨hin, hle⟩ := mem_of_expired hn
    rwa [(h.expires n hin).1, h.jiffies] at hle
  · intro _ hnone n hn
    rw [← (h.expires n hn).1, ← h.jiffies]
    have hsorted := h.sorted
    unfold expired at hnone
    cases hlist : s.list with
    | nil =>
      rw [hlist] at hn
      cases hn
    | cons t l =>
      rw [hlist] at hn hsorted hnone
      have hfirst : s.jiffies < s.expires t := by simpa using hnone
      rcases List.mem_cons.mp hn with rfl | hin
      · exact hfirst
      · exact Int.lt_of_lt_of_le hfirst ((List.pairwise_cons.mp hsorted).1 n hin)
  · rintro n rfl hzero
    have hdue : s.due n ≤ s.now := by
      change (TimerOrder.delTimer s n).expires n = 0 at hzero
      unfold TimerOrder.delTimer at hzero
      split_ifs at hzero with hn
      · rw [h.left hn] at hzero
        omega
      · exact h.fired n hn hzero
    refine (h.asleep n).imp id fun hle => Int.le_trans hle ?_
    exact Int.mul_le_mul_of_nonneg_right (by omega) (by decide)

theorem start_exact : Exact start := by
  constructor
  · rfl
  · decide
  · exact .nil
  · exact List.nodup_nil
  · exact fun n hn => absurd hn List.not_mem_nil
  · exact fun _ _ _ => Int.le_refl 0
  · exact fun _ => .inl rfl

/-- In every run whose ticks are all numbers of a `long`, timers fire on time and sleeps last long enough. -/
theorem timers_on_time (events : List Event) (e : Event) (hlegal : AllMeet Legal start (events ++ [e]))
    (hfits : AllMeet Fits start (events ++ [e])) : OnTime (events.foldl step start) e := by
  have hexact := start_exact
  generalize start = s at hlegal hfits hexact
  induction events generalizing s with
  | nil => exact hexact.onTime hlegal.1 hfits.1
  | cons e' events ih => exact ih _ hlegal.2 hfits.2 (hexact.step hlegal.1 hfits.1)

/-- Two timers, and a sleep of three milliseconds. -/
theorem timers_on_time_sleep : OnTime ([.add 0 2, .sleep 1 0 3000000, .tick, .tick, .round, .round, .tick].foldl step start)
    (.wake 1) := by
  refine timers_on_time [.add 0 2, .sleep 1 0 3000000, .tick, .tick, .round, .round, .tick] (.wake 1) ?_ ?_
  · simp only [List.cons_append, List.nil_append, AllMeet, Legal, Accepted, and_true]
    decide
  · simp only [List.cons_append, List.nil_append, AllMeet, Fits, and_true]
    decide

/-- One tick after boot the longest timer is added: its tick wraps, and it fires at once. -/
theorem long_timer_fires_early : AllMeet Legal start [.tick, .add 0 (2 ^ 31 - 1), .round] ∧
    ¬ OnTime ([.tick, .add 0 (2 ^ 31 - 1)].foldl step start) .round := by
  constructor
  · simp only [AllMeet, Legal, and_true, true_and]
    decide
  · intro h
    exact absurd (h.fires rfl 0 rfl) (by decide)

end Mario.Kernel.TimerOrder
