import Mathlib.Data.Int.Notation
import Mathlib.Data.Nat.Notation

/-!
# Times

`yo_time_t` of `inc/yaooi/time.h` and the functions of `src/time.c`.  Seconds
are integers of any size, as nothing here comes near the limits of `int64_t`; nanoseconds are the
32-bit words they are, and wrap.
-/

namespace Yaooi

/-- `yo_time_t` -/
structure YoTime where
  sec : ℤ
  nsec : BitVec 32
  deriving DecidableEq, Repr

/-- `yo_timeadd` -/
def yoTimeadd (a b : YoTime) : YoTime :=
  let res : YoTime := ⟨a.sec + b.sec, a.nsec + b.nsec⟩
  if 1000000000 < res.nsec then ⟨res.sec + 1, res.nsec - 1000000000⟩ else res

/-- `yo_timesub` -/
def yoTimesub (a b : YoTime) : YoTime :=
  let a : YoTime := if a.nsec < b.nsec then ⟨a.sec - 1, a.nsec + 1000000000⟩ else a
  let res : YoTime := ⟨a.sec - b.sec, a.nsec - b.nsec⟩
  if 1000000000 < res.nsec then ⟨res.sec + 1, res.nsec - 1000000000⟩ else res

/-- `yo_timecmp` -/
def yoTimecmp (a b : YoTime) : ℤ :=
  if a.sec ≠ b.sec then (if a.sec < b.sec then -1 else 1)
  else if a.nsec ≠ b.nsec then (if a.nsec < b.nsec then -1 else 1)
  else 0

/-- `yo_timems` -/
def yoTimems (t : YoTime) : ℤ := t.sec * 1000 + ((t.nsec + 999999) / 1000000).toNat

namespace YoTime

/-- The time in nanoseconds. -/
def ns (t : YoTime) : ℤ := t.sec * 1000000000 + t.nsec.toNat

/-- The OS takes it as a `timespec`. -/
def valid (t : YoTime) : Bool := 0 ≤ t.sec && t.nsec < 1000000000

/-- The second time is not before the first. -/
def upto (a b : YoTime) : Prop := yoTimecmp a b ≤ 0

/-- A time is not before itself. -/
theorem upto_refl (a : YoTime) : a.upto a := by simp [upto, yoTimecmp]

end YoTime

/-- There is a later time. -/
theorem exists_later (a b : YoTime) : ∃ t : YoTime, a.upto t ∧ 0 < yoTimecmp t b := by
  refine ⟨⟨max a.sec b.sec + 1, 0⟩, ?_, ?_⟩
  · have hlt : a.sec < max a.sec b.sec + 1 := by omega
    have hne : a.sec ≠ max a.sec b.sec + 1 := by omega
    simp [YoTime.upto, yoTimecmp, hlt, hne]
  · have hlt : ¬ max a.sec b.sec + 1 < b.sec := by omega
    have hne : max a.sec b.sec + 1 ≠ b.sec := by omega
    simp [yoTimecmp, hlt, hne]

end Yaooi
