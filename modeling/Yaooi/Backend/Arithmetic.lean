import Yaooi.Backend.Deadline

/-!
# Sums and differences of times

`yo_timeadd`, `yo_timesub` and `yo_timecmp` of `src/time.c` on normalised times.  Both functions
carry a second when the nanoseconds are more than a second, not when they are exactly one.  A
difference never has so many; a sum may have.

* `exact_yoTimesub`: differences are exact, always.
* `exact_yoTimeadd_iff`: sums are, unless the nanoseconds add up to exactly a second.
* `timeLaws_iff`: what is left of the laws of addition, subtraction and comparison.
* `fits_yoTimeadd`: integers stand for `int64_t` as long as the seconds stay below 2⁶¹.
-/

namespace Yaooi

namespace YoTime

/-- The time is normalised and `n` nanoseconds long. -/
def Exact (t : YoTime) (n : ℤ) : Prop := t.normal ∧ t.ns = n

instance (t : YoTime) (n : ℤ) : Decidable (t.Exact n) :=
  inferInstanceAs (Decidable (_ ∧ _))

end YoTime

variable {a b c d t u : YoTime}

/-! ## Sums -/

/-- **A difference is exact.** -/
theorem exact_yoTimesub (ha : a.normal) (hb : b.normal) : (yoTimesub a b).Exact (a.ns - b.ns) :=
  ⟨normal_yoTimesub ha hb, ns_yoTimesub ha hb⟩

/-- The nanoseconds of a sum do not wrap. -/
theorem toNat_nsec_add (ha : a.normal) (hb : b.normal) :
    (a.nsec + b.nsec).toNat = a.nsec.toNat + b.nsec.toNat := by
  have ha' := ha.toNat_lt
  have hb' := hb.toNat_lt
  bv_omega

/-- A sum that carries no second has the nanoseconds of both. -/
theorem yoTimeadd_of_le (ha : a.normal) (hb : b.normal)
    (h : a.nsec.toNat + b.nsec.toNat ≤ 1000000000) :
    yoTimeadd a b = ⟨a.sec + b.sec, a.nsec + b.nsec⟩ := by
  have hsum := toNat_nsec_add ha hb
  have hle : ¬ 1000000000 < a.nsec + b.nsec := by bv_omega
  simp only [yoTimeadd, if_neg hle]

/-- A sum has the right length, also where it is not normalised. -/
theorem ns_yoTimeadd (ha : a.normal) (hb : b.normal) : (yoTimeadd a b).ns = a.ns + b.ns := by
  have hsum := toNat_nsec_add ha hb
  by_cases h : a.nsec.toNat + b.nsec.toNat ≤ 1000000000
  · rw [yoTimeadd_of_le ha hb h]
    simp only [YoTime.ns, hsum]
    omega
  · have hlt : 1000000000 < a.nsec + b.nsec := by bv_omega
    have hcarry : (a.nsec + b.nsec - 1000000000).toNat + 1000000000 =
        a.nsec.toNat + b.nsec.toNat := by bv_omega
    simp only [yoTimeadd, if_pos hlt, YoTime.ns]
    omega

/-- It is normalised unless the nanoseconds are exactly a second. -/
theorem normal_yoTimeadd_iff (ha : a.normal) (hb : b.normal) :
    (yoTimeadd a b).normal ↔ a.nsec + b.nsec ≠ 1000000000 := by
  have ha' := ha.toNat_lt
  have hb' := hb.toNat_lt
  unfold yoTimeadd
  by_cases hlt : 1000000000 < a.nsec + b.nsec
  · simp only [if_pos hlt, YoTime.normal]
    bv_omega
  · simp only [if_neg hlt, YoTime.normal]
    bv_omega

/-- **A sum is exact unless its nanoseconds are exactly a second.** -/
theorem exact_yoTimeadd_iff (ha : a.normal) (hb : b.normal) :
    (yoTimeadd a b).Exact (a.ns + b.ns) ↔ a.nsec + b.nsec ≠ 1000000000 := by
  rw [YoTime.Exact, normal_yoTimeadd_iff ha hb, and_iff_left (ns_yoTimeadd ha hb)]

/-! ## Comparisons -/

/-- The code of a comparison, by the lengths in seconds and nanoseconds. -/
theorem yoTimecmp_eq (t u : YoTime) :
    yoTimecmp t u = if t.sec = u.sec then ((t.nsec.toNat : ℤ) - u.nsec.toNat).sign
      else (t.sec - u.sec).sign := by
  have hnsec : t.nsec = u.nsec ↔ t.nsec.toNat = u.nsec.toNat := BitVec.toNat_inj.symm
  have hlt : t.nsec < u.nsec ↔ t.nsec.toNat < u.nsec.toNat := BitVec.lt_def
  simp only [yoTimecmp, hnsec, hlt, ne_eq, ite_not]
  by_cases hsec : t.sec = u.sec
  · rw [if_pos hsec, if_pos hsec]
    rcases lt_trichotomy t.nsec.toNat u.nsec.toNat with h | h | h
    · rw [if_neg h.ne, if_pos h, Int.sign_eq_neg_one_of_neg (by omega)]
    · rw [if_pos h, h, sub_self, Int.sign_zero]
    · rw [if_neg h.ne', if_neg h.not_gt, Int.sign_eq_one_of_pos (by omega)]
  · rw [if_neg hsec, if_neg hsec]
    rcases lt_or_gt_of_ne hsec with h | h
    · rw [if_pos h, Int.sign_eq_neg_one_of_neg (by omega)]
    · rw [if_neg h.not_gt, Int.sign_eq_one_of_pos (by omega)]

/-- Comparing two normalised times gives the sign of the difference of their lengths. -/
theorem yoTimecmp_eq_sign (ht : t.normal) (hu : u.normal) :
    yoTimecmp t u = (t.ns - u.ns).sign := by
  have ht' := ht.toNat_lt
  have hu' := hu.toNat_lt
  rw [yoTimecmp_eq]
  simp only [YoTime.ns]
  split
  · rename_i hsec
    rw [hsec, add_sub_add_left_eq_sub]
  · rename_i hsec
    rcases lt_or_gt_of_ne hsec with h | h
    · rw [Int.sign_eq_neg_one_of_neg (by omega), Int.sign_eq_neg_one_of_neg (by omega)]
    · rw [Int.sign_eq_one_of_pos (by omega), Int.sign_eq_one_of_pos (by omega)]

/-- Comparing with a time that has a whole second of nanoseconds fails where the two are equal. -/
theorem yoTimecmp_second (ht : t.normal) (hu : u.nsec = 1000000000) :
    yoTimecmp t u = (t.ns - u.ns).sign ↔ t.ns ≠ u.ns := by
  have ht' := ht.toNat_lt
  have hu' : u.nsec.toNat = 1000000000 := by rw [hu]; rfl
  rw [yoTimecmp_eq]
  simp only [YoTime.ns, hu']
  rcases lt_trichotomy t.sec u.sec with h | h | h
  · rw [if_neg h.ne, Int.sign_eq_neg_one_of_neg (by omega), Int.sign_eq_neg_one_of_neg (by omega)]
    omega
  · rw [if_pos h, Int.sign_eq_neg_one_of_neg (by omega), Int.sign_eq_neg_one_of_neg (by omega)]
    omega
  · -- one second later, and no nanosecond: equal, but compared as later
    rw [if_neg h.ne', Int.sign_eq_one_of_pos (by omega), eq_comm, Int.sign_eq_one_iff_pos]
    omega

/-- A time is determined by its length, among the normalised ones. -/
theorem YoTime.normal.ext (ht : t.normal) (hu : u.normal) (h : t.ns = u.ns) : t = u := by
  have ht' := ht.toNat_lt
  have hu' := hu.toNat_lt
  simp only [ns] at h
  have hsec : t.sec = u.sec := by omega
  have hnsec : t.nsec = u.nsec := BitVec.eq_of_toNat_eq (by omega)
  cases t
  cases u
  simp_all

/-! ## The laws -/

/-- The laws: the sum and the difference of two times are exact, sums are compared by their lengths,
and what was subtracted can be added again. -/
def TimeLaws (a b c d : YoTime) : Prop :=
  (yoTimeadd a b).Exact (a.ns + b.ns) ∧ (yoTimesub a b).Exact (a.ns - b.ns) ∧
    yoTimecmp (yoTimeadd a b) (yoTimeadd c d) = (a.ns + b.ns - (c.ns + d.ns)).sign ∧
      yoTimeadd (yoTimesub a b) b = a

instance : Decidable (TimeLaws a b c d) := inferInstanceAs (Decidable (_ ∧ _ ∧ _ ∧ _))

/-- A difference and what was subtracted have a whole second of nanoseconds if a second was borrowed
and the nanoseconds were zero. -/
theorem nsec_yoTimesub_add (ha : a.normal) (hb : b.normal) :
    (yoTimesub a b).nsec + b.nsec = 1000000000 ↔ a.nsec = 0 ∧ b.nsec ≠ 0 := by
  have ha' := ha.toNat_lt
  have hb' := hb.toNat_lt
  rw [yoTimesub_eq ha hb]
  split
  · simp only
    bv_omega
  · simp only
    bv_omega

/-- Adding what was subtracted gives the time back, unless that happens. -/
theorem yoTimeadd_yoTimesub (ha : a.normal) (hb : b.normal) :
    yoTimeadd (yoTimesub a b) b = a ↔ (a.nsec = 0 → b.nsec = 0) := by
  have hsub := exact_yoTimesub ha hb
  have hexact := exact_yoTimeadd_iff hsub.1 hb
  rw [ne_eq, nsec_yoTimesub_add ha hb, not_and_not_right] at hexact
  rw [← hexact, hsub.2, sub_add_cancel]
  constructor
  · intro h
    rw [h]
    exact ⟨ha, rfl⟩
  · rintro ⟨hnormal, hns⟩
    exact hnormal.ext ha hns

/-- Sums are compared by their lengths, the first being exact, unless the second is not and they
are equal. -/
theorem yoTimecmp_yoTimeadd (ha : a.normal) (hb : b.normal) (hc : c.normal) (hd : d.normal)
    (hab : a.nsec + b.nsec ≠ 1000000000) :
    yoTimecmp (yoTimeadd a b) (yoTimeadd c d) = (a.ns + b.ns - (c.ns + d.ns)).sign ↔
      (c.nsec + d.nsec = 1000000000 → a.ns + b.ns ≠ c.ns + d.ns) := by
  obtain ⟨hnormal, hns⟩ := (exact_yoTimeadd_iff ha hb).mpr hab
  rw [← hns, ← ns_yoTimeadd hc hd]
  by_cases hcd : c.nsec + d.nsec = 1000000000
  · have hsum := toNat_nsec_add hc hd
    have hle : c.nsec.toNat + d.nsec.toNat ≤ 1000000000 := by bv_omega
    have hnsec : (yoTimeadd c d).nsec = 1000000000 := by rw [yoTimeadd_of_le hc hd hle, hcd]
    rw [yoTimecmp_second hnormal hnsec]
    exact ⟨fun h _ => h, fun h => h hcd⟩
  · exact iff_of_true (yoTimecmp_eq_sign hnormal ((normal_yoTimeadd_iff hc hd).mpr hcd))
      fun h => absurd h hcd

/-- **When the laws hold.**  For normalised times they do if and only if the nanoseconds of the two
do not add up to exactly a second, no second is borrowed from a time without nanoseconds, and
where the nanoseconds of the other two add up to exactly a second the sums are different. -/
theorem timeLaws_iff (ha : a.normal) (hb : b.normal) (hc : c.normal) (hd : d.normal) :
    TimeLaws a b c d ↔ a.nsec + b.nsec ≠ 1000000000 ∧ (a.nsec = 0 → b.nsec = 0) ∧
      (c.nsec + d.nsec = 1000000000 → a.ns + b.ns ≠ c.ns + d.ns) := by
  rw [TimeLaws, exact_yoTimeadd_iff ha hb, yoTimeadd_yoTimesub ha hb]
  constructor
  · rintro ⟨hab, -, hcmp, hback⟩
    exact ⟨hab, hback, (yoTimecmp_yoTimeadd ha hb hc hd hab).mp hcmp⟩
  · rintro ⟨hab, hback, hne⟩
    exact ⟨hab, exact_yoTimesub ha hb, (yoTimecmp_yoTimeadd ha hb hc hd hab).mpr hne, hback⟩

/-- They hold where a second is carried and one is borrowed. -/
theorem timeLaws_carry :
    TimeLaws ⟨7, 400000000⟩ ⟨-2, 999999999⟩ ⟨3, 1⟩ ⟨2, 999999998⟩ :=
  (timeLaws_iff (by decide) (by decide) (by decide) (by decide)).mpr (by decide)

/-- Two half seconds make a second that is not carried, and no sum of two times is equal to it. -/
theorem not_timeLaws_half :
    yoTimeadd ⟨0, 500000000⟩ ⟨0, 500000000⟩ = ⟨0, 1000000000⟩ ∧
      yoTimecmp (yoTimeadd ⟨1, 0⟩ ⟨0, 0⟩) (yoTimeadd ⟨0, 500000000⟩ ⟨0, 500000000⟩) = 1 ∧
        ¬ TimeLaws ⟨0, 500000000⟩ ⟨0, 500000000⟩ ⟨0, 0⟩ ⟨0, 0⟩ := by
  decide

/-- No result leaves `int64_t`, as long as the seconds of the times stay below 2⁶¹. -/
theorem fits_yoTimeadd (ha : a.normal) (hb : b.normal) (hsa : |a.sec| < 2 ^ 61)
    (hsb : |b.sec| < 2 ^ 61) :
    Fits64 (yoTimeadd a b).sec ∧ Fits64 (a.sec - 1) ∧ Fits64 (yoTimesub a b).sec := by
  rw [abs_lt] at hsa hsb
  have hadd : a.sec + b.sec ≤ (yoTimeadd a b).sec ∧ (yoTimeadd a b).sec ≤ a.sec + b.sec + 1 := by
    unfold yoTimeadd
    dsimp only
    split <;> simp
  have hsub : a.sec - 1 - b.sec ≤ (yoTimesub a b).sec ∧ (yoTimesub a b).sec ≤ a.sec - b.sec := by
    rw [yoTimesub_eq ha hb]
    split <;> simp
  simp only [Fits64]
  omega

end Yaooi
