import Mathlib.Algebra.Group.Int.Defs
import Mathlib.Algebra.Group.Nat.Defs
import Mathlib.Tactic.SplitIfs

/-!
# The time of day

The clocks of `kernel/time.c`: the time at boot that is read from the CMOS, and what `clock_gettime` and
`gettimeofday` report at a tick. A `long` has 32 bits, and seconds that do not fit into it are cut;
`time_t` has 64 bits and holds every sum here. `HZ` divides the nanoseconds of a second, and the compiler
multiplies the remainder of the ticks by the quotient, so that no product of a fraction is cut. The two reads
of `jiffies` in a call see the same tick.
-/

namespace Mario.Kernel.Time

/-- Ticks in a second. -/
def HZ : ℤ := 100

/-- The values of `jiffies` that are not negative. -/
abbrev Ticks := Fin (2 ^ 31)

/-- A value as a `long`. -/
def toLong (x : ℤ) : ℤ := Int.bmod x (2 ^ 32)

/-- Seconds, and nanoseconds or microseconds. -/
structure Report where
  sec : ℤ
  part : ℤ
  deriving DecidableEq

/-- The numbers of clocks that are known. -/
inductive Clock
  | realtime
  | realtimeCoarse
  | realtimeAlarm
  | monotonic
  | monotonicRaw
  | monotonicCoarse
  | boottime
  | boottimeAlarm
  deriving DecidableEq

/-- What is added to the seconds since boot. -/
def Clock.base (bootTimeSec : ℤ) : Clock → ℤ
  | .realtime | .realtimeCoarse | .realtimeAlarm => bootTimeSec
  | .monotonic | .monotonicRaw | .monotonicCoarse | .boottime | .boottimeAlarm => 0

def doClockGettime64 (bootTimeSec : ℤ) (jiffies : Ticks) (clockid : Clock) : Report where
  sec := (jiffies : ℤ) / HZ + clockid.base bootTimeSec
  part := (jiffies : ℤ) % HZ * 1000000000 / HZ

/-- A call that reports the time. No call is for an unknown clock, which is `-EINVAL`. -/
inductive Call
  | gettimeofdayTime32
  | clockGettime64 (clockid : Clock)
  | clockGettime32 (clockid : Clock)

/-- What a call writes to the memory of the task. -/
def Call.report (bootTimeSec : ℤ) (jiffies : Ticks) : Call → Report
  | .gettimeofdayTime32 =>
      { sec := toLong (bootTimeSec + (jiffies : ℤ) / HZ)
        part := (jiffies : ℤ) % HZ * 1000000 / HZ }
  | .clockGettime64 clockid => doClockGettime64 bootTimeSec jiffies clockid
  | .clockGettime32 clockid =>
      let ts := doClockGettime64 bootTimeSec jiffies clockid
      { sec := toLong ts.sec, part := ts.part }

/-! ## What is to be reported -/

/-- Parts of a second. -/
def Call.unit : Call → ℤ
  | .gettimeofdayTime32 => 1000000
  | .clockGettime64 _ | .clockGettime32 _ => 1000000000

def Call.base (bootTimeSec : ℤ) : Call → ℤ
  | .gettimeofdayTime32 => bootTimeSec
  | .clockGettime64 clockid | .clockGettime32 clockid => clockid.base bootTimeSec

/-- A report is normalised, and it is the time of the tick. -/
structure Exact (call : Call) (bootTimeSec : ℤ) (jiffies : Ticks) (r : Report) : Prop where
  nonneg : 0 ≤ r.part
  lt : r.part < call.unit
  sec : r.sec = call.base bootTimeSec + (jiffies : ℤ) / HZ
  part : r.part * HZ = (jiffies : ℤ) % HZ * call.unit

/-- The pairs of seconds and parts in their order. -/
def Report.le (r r' : Report) : Prop := r.sec < r'.sec ∨ r.sec = r'.sec ∧ r.part ≤ r'.part

/-- Two reports are exact, and the later tick has no earlier report. -/
structure Faithful (call : Call) (bootTimeSec : ℤ) (j j' : Ticks) : Prop where
  first : Exact call bootTimeSec j (call.report bootTimeSec j)
  second : Exact call bootTimeSec j' (call.report bootTimeSec j')
  monotone : j ≤ j' → (call.report bootTimeSec j).le (call.report bootTimeSec j')

/-- The seconds fit into a `long`. -/
def FitsLong (call : Call) (bootTimeSec : ℤ) (jiffies : Ticks) : Prop :=
  -2 ^ 31 ≤ call.base bootTimeSec + (jiffies : ℤ) / HZ ∧
    call.base bootTimeSec + (jiffies : ℤ) / HZ < 2 ^ 31

/-- When a report is right: a call with 32 bits for the seconds does not cut them. -/
def Fits (call : Call) (bootTimeSec : ℤ) (jiffies : Ticks) : Prop :=
  match call with
  | .clockGettime64 _ => True
  | .gettimeofdayTime32 | .clockGettime32 _ => FitsLong call bootTimeSec jiffies

variable {call : Call} {bootTimeSec : ℤ} {j j' : Ticks}

/-! ## Numbers -/

theorem toLong_eq_iff (x : ℤ) : toLong x = x ↔ -2 ^ 31 ≤ x ∧ x < 2 ^ 31 := by
  unfold toLong
  rw [Int.bmod_def]
  split_ifs <;> omega

/-- Exact reports of two ticks are in the order of the ticks. -/
theorem Exact.le {r r' : Report} (h : Exact call bootTimeSec j r) (h' : Exact call bootTimeSec j' r')
    (hle : j ≤ j') : r.le r' := by
  have hsec := h.sec
  have hsec' := h'.sec
  have hpart := h.part
  have hpart' := h'.part
  have hticks : (j : ℤ) ≤ (j' : ℤ) := Int.ofNat_le.mpr hle
  unfold Report.le
  cases call <;> simp only [Call.unit] at hpart hpart' <;> unfold HZ at * <;> omega

end Mario.Kernel.Time
