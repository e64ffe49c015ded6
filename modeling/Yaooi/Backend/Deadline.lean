import Mathlib.Algebra.Order.Floor.Ring
import Mathlib.Data.Rat.Floor
import Yaooi.Backend.Polling

/-!
# Three tests for one deadline

The epoll backend compares the clock with the deadline, the poll backend on Linux looks at the sign
of the seconds of their difference, and elsewhere the difference is taken in milliseconds.  All
three are functions of `src/time.c`, in 32-bit unsigned and 64-bit signed arithmetic.

* `ns_yoTimesub`: on normalised times the difference is exact, however it borrows.
* `yoTimems_eq_ceil`: milliseconds are rounded up.
* `deadline_tests_agree`: so the three tests agree on every pair of times.
* `fits_yoTimems`: integers stand for `int64_t` as long as the seconds stay below 2⁵².
-/

namespace Yaooi

namespace YoTime

/-- Less than a second of nanoseconds. -/
def normal (t : YoTime) : Prop := t.nsec < 1000000000

instance : DecidablePred normal := fun t => inferInstanceAs (Decidable (t.nsec < 1000000000))

theorem normal.toNat_lt {t : YoTime} (h : t.normal) : t.nsec.toNat < 1000000000 := by
  simpa [normal, BitVec.lt_def] using h

end YoTime

variable {a b t now deadline : YoTime}

/-! ## Differences -/

/-- The difference of normalised times: it borrows a second or not, and never carries one. -/
theorem yoTimesub_eq (ha : a.normal) (hb : b.normal) :
    yoTimesub a b =
      if a.nsec < b.nsec then ⟨a.sec - 1 - b.sec, a.nsec + 1000000000 - b.nsec⟩
      else ⟨a.sec - b.sec, a.nsec - b.nsec⟩ := by
  have ha' := ha.toNat_lt
  have hb' := hb.toNat_lt
  unfold yoTimesub
  by_cases hlt : a.nsec < b.nsec
  · have hcarry : ¬ 1000000000 < a.nsec + 1000000000 - b.nsec := by bv_omega
    simp only [if_pos hlt, if_neg hcarry]
  · have hcarry : ¬ 1000000000 < a.nsec - b.nsec := by bv_omega
    simp only [if_neg hlt, if_neg hcarry]

/-- It is normalised. -/
theorem normal_yoTimesub (ha : a.normal) (hb : b.normal) : (yoTimesub a b).normal := by
  have ha' := ha.toNat_lt
  have hb' := hb.toNat_lt
  rw [yoTimesub_eq ha hb]
  split <;> simp only [YoTime.normal] <;> bv_omega

/-- **It is exact.** -/
theorem ns_yoTimesub (ha : a.normal) (hb : b.normal) : (yoTimesub a b).ns = a.ns - b.ns := by
  have ha' := ha.toNat_lt
  have hb' := hb.toNat_lt
  rw [yoTimesub_eq ha hb]
  split
  · rename_i hlt
    have hborrow : (a.nsec + 1000000000 - b.nsec).toNat + b.nsec.toNat =
        a.nsec.toNat + 1000000000 := by bv_omega
    simp only [YoTime.ns]
    omega
  · rename_i hle
    have hdiff : (a.nsec - b.nsec).toNat + b.nsec.toNat = a.nsec.toNat := by bv_omega
    simp only [YoTime.ns]
    omega

/-! ## Signs -/

/-- Comparing two normalised times compares their nanoseconds. -/
theorem yoTimecmp_pos_iff (ha : a.normal) (hb : b.normal) : 0 < yoTimecmp a b ↔ b.ns < a.ns := by
  have ha' := ha.toNat_lt
  have hb' := hb.toNat_lt
  simp only [yoTimecmp, YoTime.ns]
  by_cases hsec : a.sec = b.sec
  · have hnsec : a.nsec = b.nsec ↔ a.nsec.toNat = b.nsec.toNat := BitVec.toNat_inj.symm
    have hlt : a.nsec < b.nsec ↔ a.nsec.toNat < b.nsec.toNat := BitVec.lt_def
    simp only [hsec, hnsec, hlt, ne_eq, not_true_eq_false, if_false]
    split
    · split <;> omega
    · omega
  · rw [if_pos hsec]
    split <;> omega

/-- The sign of a normalised time is the sign of its seconds. -/
theorem YoTime.normal.sec_neg_iff (h : t.normal) : t.sec < 0 ↔ t.ns < 0 := by
  have := h.toNat_lt
  simp only [ns]
  omega

/-! ## Milliseconds -/

/-- The part of `yo_timems` that is computed in 32 bits does not wrap. -/
theorem toNat_roundUp (h : t.normal) :
    ((t.nsec + 999999) / 1000000).toNat = (t.nsec.toNat + 999999) / 1000000 := by
  have hlt := h.toNat_lt
  have hsum : (t.nsec + 999999).toNat = t.nsec.toNat + 999999 := by bv_omega
  rw [BitVec.toNat_udiv, hsum]
  rfl

/-- The milliseconds of a time are the least number of them that covers it. -/
theorem yoTimems_bounds (h : t.normal) :
    (yoTimems t - 1) * 1000000 < t.ns ∧ t.ns ≤ yoTimems t * 1000000 := by
  simp only [yoTimems, YoTime.ns, toNat_roundUp h]
  omega

/-- **Milliseconds are nanoseconds divided by a million and rounded up.** -/
theorem yoTimems_eq_ceil (h : t.normal) : yoTimems t = ⌈(t.ns : ℚ) / 1000000⌉ := by
  obtain ⟨hlow, hhigh⟩ := yoTimems_bounds h
  refine (Int.ceil_eq_iff.mpr ⟨?_, ?_⟩).symm
  · rw [lt_div_iff₀ (by norm_num)]
    exact_mod_cast hlow
  · rw [div_le_iff₀ (by norm_num)]
    exact_mod_cast hhigh

/-- The milliseconds of a difference, from the nanoseconds of both times. -/
theorem yoTimems_yoTimesub (ha : a.normal) (hb : b.normal) :
    yoTimems (yoTimesub a b) = ⌈((a.ns - b.ns : ℤ) : ℚ) / 1000000⌉ := by
  rw [yoTimems_eq_ceil (normal_yoTimesub ha hb), ns_yoTimesub ha hb]

/-- What is rounded up is positive when there is anything to round. -/
theorem ceil_millis_pos_iff (n : ℤ) : 0 < ⌈(n : ℚ) / 1000000⌉ ↔ 0 < n := by
  rw [Int.ceil_pos, div_pos_iff_of_pos_right (by norm_num)]
  exact_mod_cast Iff.rfl

/-! ## Machine integers -/

/-- The number is an `int64_t`. -/
def Fits64 (n : ℤ) : Prop := -2 ^ 63 ≤ n ∧ n < 2 ^ 63

/-- No intermediate result of the three functions leaves `int64_t`, as long as the seconds of the
times stay below 2⁵². -/
theorem fits_yoTimems (ha : a.normal) (hb : b.normal) (hsa : |a.sec| < 2 ^ 52)
    (hsb : |b.sec| < 2 ^ 52) :
    Fits64 (a.sec - 1) ∧ Fits64 (yoTimesub a b).sec ∧ Fits64 ((yoTimesub a b).sec * 1000) ∧
      Fits64 (yoTimems (yoTimesub a b)) := by
  rw [abs_lt] at hsa hsb
  have hsec : a.sec - 1 - b.sec ≤ (yoTimesub a b).sec ∧ (yoTimesub a b).sec ≤ a.sec - b.sec := by
    rw [yoTimesub_eq ha hb]
    split <;> simp
  have hn := (normal_yoTimesub ha hb).toNat_lt
  have hround := toNat_roundUp (normal_yoTimesub ha hb)
  simp only [Fits64, yoTimems, hround]
  omega

/-! ## The tests -/

/-- **The three tests agree.**  For all normalised times, the clock has passed the deadline for the
epoll backend exactly when the difference has negative seconds for the poll backend on Linux; and
the milliseconds of the difference are its nanoseconds divided by a million and rounded up,
hence positive exactly when the deadline is later than the clock. -/
theorem deadline_tests_agree (hnow : now.normal) (hdeadline : deadline.normal) :
    (0 < yoTimecmp now deadline ↔ (yoTimesub deadline now).sec < 0) ∧
      yoTimems (yoTimesub deadline now) = ⌈((deadline.ns - now.ns : ℤ) : ℚ) / 1000000⌉ ∧
        (0 < yoTimems (yoTimesub deadline now) ↔ 0 < yoTimecmp deadline now) := by
  have hnormal := normal_yoTimesub hdeadline hnow
  have hns := ns_yoTimesub hdeadline hnow
  have hms := yoTimems_yoTimesub hdeadline hnow
  refine ⟨?_, hms, ?_⟩
  · rw [yoTimecmp_pos_iff hnow hdeadline, hnormal.sec_neg_iff, hns, sub_neg]
  · rw [hms, ceil_millis_pos_iff, yoTimecmp_pos_iff hdeadline hnow, sub_pos]

/-- A nanosecond before the deadline, across a second, is a millisecond to wait, and a nanosecond
after it is late. -/
theorem deadline_tests_agree_nanosecond :
    (0 < yoTimems (yoTimesub ⟨8, 0⟩ ⟨7, 999999999⟩) ∧
        yoTimems (yoTimesub ⟨8, 0⟩ ⟨7, 999999999⟩) = 1) ∧
      (yoTimesub ⟨7, 999999999⟩ ⟨8, 0⟩).sec < 0 := by
  refine ⟨⟨?_, by decide⟩, ?_⟩
  · exact (@deadline_tests_agree ⟨7, 999999999⟩ ⟨8, 0⟩ (by decide)
      (by decide)).2.2.mpr (by decide)
  · exact (@deadline_tests_agree ⟨8, 0⟩ ⟨7, 999999999⟩ (by decide)
      (by decide)).1.mp (by decide)

/-- The wait of the poll backend, on either system, is over as it begins exactly when the deadline
is not later than the clock, as long as its milliseconds are an `int`. -/
theorem ofDeadline_elapsed_iff (linux : Bool) (hnow : now.normal) (hdeadline : deadline.normal)
    (hshort : deadline.ns - now.ns < 2 ^ 50) :
    (OsTimeout.ofDeadline linux (some deadline) now).elapsed now now = true ↔
      deadline.ns ≤ now.ns := by
  have hnormal := normal_yoTimesub hdeadline hnow
  have hns := ns_yoTimesub hdeadline hnow
  cases linux with
  | true =>
    simp only [OsTimeout.ofDeadline, if_true, OsTimeout.elapsed, decide_eq_true_eq]
    split
    · rename_i hneg
      rw [hnormal.sec_neg_iff, hns] at hneg
      have hzero : (⟨0, 0⟩ : YoTime).ns = 0 := rfl
      omega
    · omega
  | false =>
    obtain ⟨hlow, hhigh⟩ := yoTimems_bounds hnormal
    have hint : ∀ n : ℤ, 0 ≤ n → n < 2 ^ 31 → (BitVec.ofInt 32 n).toInt = n := by
      intro n h₀ h₁
      rw [BitVec.toInt_ofInt, Int.bmod_eq_of_le] <;> omega
    simp only [OsTimeout.ofDeadline, OsTimeout.elapsed, Bool.false_eq_true, if_false,
      Bool.and_eq_true, decide_eq_true_eq]
    split
    · rw [hint 0 (by omega) (by omega)]
      omega
    · rw [hint _ (by omega) (by omega)]
      omega

end Yaooi
