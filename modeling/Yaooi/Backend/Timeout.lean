import Yaooi.Backend.Deadline

/-!
# A deadline as a 32-bit timeout

Three waits take milliseconds in 32 bits, where one value or a half of them stand for ever: `poll`
an `int`, `SleepConditionVariableCS` and `Sleep` a `DWORD`.  The callers compute an `int64_t` and
leave the conversion to the compiler: `_yoi_poll_wrapper` of `src/unix/poll.c` where there is no
`ppoll`, `yo_cond_timewait` of `src/utils/multithread.h` and `yo_timesleep` of `src/win/impl.c`.

* `timely_pollMillis_iff`, `timely_condMillis_iff`, `timely_sleepMillis_iff`: which of the numbers
  each of them gets through.
* `timelyAll_iff`: all three do what they should unless the difference is too large or, for the one
  that does not clamp it, negative.
* `not_timelyAll_weeks` and its neighbours: a `poll` for ever, a `Sleep` for ever after the
  deadline.
-/

namespace Yaooi

/-! ## The functions -/

/-- A number as an `int64_t`. -/
def toInt64 (n : ℤ) : ℤ := (BitVec.ofInt 64 n).toInt

/-- The milliseconds that are left, as the three functions compute them. -/
def diffMillis (deadline now : YoTime) : ℤ := toInt64 (yoTimems (yoTimesub deadline now))

/-- The clamp of the first two functions, and the conversion to 32 bits. -/
def clampMillis (ms : ℤ) : BitVec 32 := BitVec.ofInt 32 (if ms < 0 then 0 else ms)

/-- `_yoi_poll_wrapper`, the portable branch: the argument for `poll`. -/
def pollMillis (deadline now : YoTime) : BitVec 32 := clampMillis (diffMillis deadline now)

/-- `yo_cond_timewait` on Windows: the argument for `SleepConditionVariableCS`. -/
def condMillis (timeout now : YoTime) : BitVec 32 := clampMillis (diffMillis timeout now)

/-- `yo_timesleep` on Windows: the argument for `Sleep`. -/
def sleepMillis (until' now : YoTime) : BitVec 32 := BitVec.ofInt 32 (diffMillis until' now)

/-- How the OS takes 32 bits for milliseconds: how many they are, unless they stand for ever. -/
structure MillisArg where
  millis : BitVec 32 → ℤ
  forever : BitVec 32 → Bool

/-- An `int`, negative for ever. -/
def MillisArg.int : MillisArg := ⟨BitVec.toInt, fun n => n.toInt < 0⟩

/-- A `DWORD`, with `INFINITE` for ever. -/
def MillisArg.dword : MillisArg := ⟨fun n => n.toNat, fun n => n = 0xFFFFFFFF⟩

/-! ## What is asked of them -/

/-- The milliseconds that are left, rounded up. -/
def millisLeft (deadline now : YoTime) : ℤ := ⌈((deadline.ns - now.ns : ℤ) : ℚ) / 1000000⌉

/-- The wait is not to begin if the deadline is not later than the clock.  Otherwise it is, but not
for ever, and not for longer than the milliseconds that are left. -/
def Timely (arg : MillisArg) (deadline now : YoTime) (n : BitVec 32) : Prop :=
  if deadline.ns ≤ now.ns then arg.millis n = 0
  else 0 < arg.millis n ∧ arg.forever n = false ∧ arg.millis n ≤ millisLeft deadline now

/-- All three functions do. -/
def TimelyAll (deadline now : YoTime) : Prop :=
  Timely .int deadline now (pollMillis deadline now) ∧
    Timely .dword deadline now (condMillis deadline now) ∧
      Timely .dword deadline now (sleepMillis deadline now)

variable {now deadline : YoTime} {ms : ℤ}

/-! ## Conversions -/

theorem toInt64_eq (h : Fits64 ms) : toInt64 ms = ms := by
  obtain ⟨hlow, hhigh⟩ := h
  rw [toInt64, BitVec.toInt_ofInt, Int.bmod_eq_of_le] <;> omega

theorem toNat_ofInt32 (ms : ℤ) : ((BitVec.ofInt 32 ms).toNat : ℤ) = ms % 2 ^ 32 := by
  rw [BitVec.toNat_ofInt]
  omega

/-- The lower half of the words are read as they are, the upper half as negative numbers. -/
theorem toInt_ofInt32 (ms : ℤ) :
    (BitVec.ofInt 32 ms).toInt =
      if ms % 2 ^ 32 < 2 ^ 31 then ms % 2 ^ 32 else ms % 2 ^ 32 - 2 ^ 32 := by
  rw [BitVec.toInt_eq_toNat_cond, ← toNat_ofInt32]
  split <;> split <;> omega

/-- `INFINITE` -/
theorem ofInt32_eq_infinite_iff (ms : ℤ) :
    BitVec.ofInt 32 ms = 0xFFFFFFFF ↔ ms % 2 ^ 32 = 2 ^ 32 - 1 := by
  rw [← BitVec.toNat_inj, ← toNat_ofInt32]
  have hlast : (0xFFFFFFFF : BitVec 32).toNat = 2 ^ 32 - 1 := rfl
  rw [hlast]
  omega

/-- What is left is what is computed. -/
theorem diffMillis_eq (hnow : now.normal) (hdeadline : deadline.normal)
    (hfit : Fits64 (yoTimems (yoTimesub deadline now))) :
    diffMillis deadline now = millisLeft deadline now :=
  (toInt64_eq hfit).trans (yoTimems_yoTimesub hdeadline hnow)

/-- It is positive before the deadline only. -/
theorem millisLeft_pos_iff (deadline now : YoTime) :
    0 < millisLeft deadline now ↔ ¬ deadline.ns ≤ now.ns := by
  rw [millisLeft, ceil_millis_pos_iff, sub_pos, not_le]

/-- The argument is that of the portable branch of `_yoi_poll_wrapper`. -/
theorem ofDeadline_eq (hfit : Fits64 (yoTimems (yoTimesub deadline now))) :
    OsTimeout.ofDeadline false (some deadline) now = .millis (pollMillis deadline now) := by
  rw [pollMillis, diffMillis, toInt64_eq hfit]
  rfl

/-! ## The three waits -/

section

variable (hnow : now.normal) (hdeadline : deadline.normal)
  (hfit : Fits64 (yoTimems (yoTimesub deadline now)))

include hnow hdeadline hfit

/-- **For `poll`** the milliseconds that are left have to be an `int`, or to become a positive one
when they are cut. -/
theorem timely_pollMillis_iff : Timely .int deadline now (pollMillis deadline now) ↔
    millisLeft deadline now ≤ 0 ∨
      0 < millisLeft deadline now % 2 ^ 32 ∧ millisLeft deadline now % 2 ^ 32 < 2 ^ 31 := by
  have hpos := millisLeft_pos_iff deadline now
  rw [Timely, pollMillis, clampMillis, diffMillis_eq hnow hdeadline hfit]
  simp only [MillisArg.int, toInt_ofInt32, decide_eq_false_iff_not]
  split
  · split <;> split <;> omega
  · split <;> split <;> omega

/-- **For `SleepConditionVariableCS`** they must not be cut to nothing, nor to `INFINITE`. -/
theorem timely_condMillis_iff : Timely .dword deadline now (condMillis deadline now) ↔
    millisLeft deadline now ≤ 0 ∨
      0 < millisLeft deadline now % 2 ^ 32 ∧ millisLeft deadline now % 2 ^ 32 < 2 ^ 32 - 1 := by
  have hpos := millisLeft_pos_iff deadline now
  rw [Timely, condMillis, clampMillis, diffMillis_eq hnow hdeadline hfit]
  simp only [MillisArg.dword, toNat_ofInt32, decide_eq_false_iff_not, ofInt32_eq_infinite_iff]
  split
  · split <;> omega
  · split <;> omega

/-- **For `Sleep`** neither, and what is not positive has to be a multiple of 2³². -/
theorem timely_sleepMillis_iff : Timely .dword deadline now (sleepMillis deadline now) ↔
    millisLeft deadline now ≤ 0 ∧ millisLeft deadline now % 2 ^ 32 = 0 ∨
      0 < millisLeft deadline now ∧ 0 < millisLeft deadline now % 2 ^ 32 ∧
        millisLeft deadline now % 2 ^ 32 < 2 ^ 32 - 1 := by
  have hpos := millisLeft_pos_iff deadline now
  rw [Timely, sleepMillis, diffMillis_eq hnow hdeadline hfit]
  simp only [MillisArg.dword, toNat_ofInt32, decide_eq_false_iff_not, ofInt32_eq_infinite_iff]
  split <;> omega

/-- **When the three waits are right.**  For all normalised times whose difference in milliseconds
is an `int64_t`, all three functions pass a right argument if and only if the milliseconds that are
left, rounded up, are not positive and a multiple of 2³², or are positive and leave a remainder
from 1 to 2³¹ - 1 when divided by 2³². -/
theorem timelyAll_iff : TimelyAll deadline now ↔
    millisLeft deadline now ≤ 0 ∧ millisLeft deadline now % 2 ^ 32 = 0 ∨
      0 < millisLeft deadline now ∧ 0 < millisLeft deadline now % 2 ^ 32 ∧
        millisLeft deadline now % 2 ^ 32 < 2 ^ 31 := by
  rw [TimelyAll, timely_pollMillis_iff hnow hdeadline hfit,
    timely_condMillis_iff hnow hdeadline hfit, timely_sleepMillis_iff hnow hdeadline hfit]
  omega

end

/-- A second before the deadline. -/
theorem timelyAll_iff_second : TimelyAll ⟨8, 0⟩ ⟨7, 0⟩ := by
  have hfit : Fits64 (yoTimems (yoTimesub ⟨8, 0⟩ ⟨7, 0⟩)) := ⟨by decide, by decide⟩
  have hleft : millisLeft ⟨8, 0⟩ ⟨7, 0⟩ = 1000 := by
    rw [← diffMillis_eq (by decide) (by decide) hfit]
    decide
  refine (@timelyAll_iff ⟨7, 0⟩ ⟨8, 0⟩ (by decide) (by decide) hfit).mpr ?_
  rw [hleft]
  omega

/-- `poll` waits for ever for a deadline 2³¹ milliseconds away, `SleepConditionVariableCS` for one
that is 2³² - 1 milliseconds away, and `Sleep` when the deadline has passed by a millisecond. -/
theorem not_timelyAll_weeks :
    ¬ Timely .int ⟨2147483, 648000000⟩ ⟨0, 0⟩ (pollMillis ⟨2147483, 648000000⟩ ⟨0, 0⟩) ∧
      ¬ Timely .dword ⟨4294967, 295000000⟩ ⟨0, 0⟩ (condMillis ⟨4294967, 295000000⟩ ⟨0, 0⟩) ∧
        ¬ Timely .dword ⟨7, 0⟩ ⟨7, 1000000⟩ (sleepMillis ⟨7, 0⟩ ⟨7, 1000000⟩) ∧
          ¬ TimelyAll ⟨7, 0⟩ ⟨7, 1000000⟩ := by
  have hsleep : ¬ Timely .dword ⟨7, 0⟩ ⟨7, 1000000⟩ (sleepMillis ⟨7, 0⟩ ⟨7, 1000000⟩) := by
    rw [Timely, if_pos (by decide)]
    decide
  refine ⟨?_, ?_, hsleep, fun h => hsleep h.2.2⟩
  · rw [Timely, if_neg (by decide)]
    exact fun h => absurd h.1 (by decide)
  · rw [Timely, if_neg (by decide)]
    exact fun h => absurd h.2.1 (by decide)

end Yaooi
