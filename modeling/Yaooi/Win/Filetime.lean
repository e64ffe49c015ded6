import Yaooi.Backend.Arithmetic

/-!
# Times on Windows

`yoi_win_conv_filetime` and `yo_time` of `src/win/impl.c`.  A `FILETIME` counts ticks of 100
nanoseconds since 1601, ten million a second; the code takes them for a hundred million a second.

* `convFiletime_right_iff`: a time is converted rightly in the first second of 1601 only.
* `ns_cpu_lt`: the time of a thread is not that of its two parts, since the seconds from 1601 to
  1970 are subtracted from each of these, which are no points in time.
-/

namespace Yaooi

namespace Win

/-- `FILETIME` -/
structure Filetime where
  dwLowDateTime : BitVec 32
  dwHighDateTime : BitVec 32

/-- `total_ticks` -/
def Filetime.totalTicks (filetime : Filetime) : BitVec 64 :=
  filetime.dwHighDateTime.setWidth 64 <<< 32 ||| filetime.dwLowDateTime.setWidth 64

/-- The ticks as a number. -/
def Filetime.ticks (filetime : Filetime) : ℕ := filetime.totalTicks.toNat

/-- `EPOCH_DIFFERENCE` -/
def EPOCH_DIFFERENCE : BitVec 64 := 11644473600

/-- The ticks that are not whole seconds, as the code has them in a `long` of 32 bits. -/
def Filetime.rest (filetime : Filetime) : BitVec 32 :=
  (filetime.totalTicks % 100000000).setWidth 32

/-- `yoi_win_conv_filetime` -/
def yoiWinConvFiletime (filetime : Filetime) : YoTime where
  sec := (filetime.totalTicks / 100000000 - EPOCH_DIFFERENCE).toInt
  nsec := filetime.rest * 100

/-- The product in it does not fit into a `long`. -/
def Filetime.overflows (filetime : Filetime) : Bool := filetime.rest.smulOverflow 100

/-- `yo_clock_t` -/
inductive YoClock where
  | real
  | mono
  | cpu
  deriving DecidableEq

/-- What the clocks of the system say. -/
structure WinClocks where
  /-- `GetSystemTimePreciseAsFileTime` -/
  time : Filetime
  /-- `QueryPerformanceCounter` -/
  counter : BitVec 64
  /-- `QueryPerformanceFrequency` -/
  freq : BitVec 64
  /-- `GetThreadTimes` -/
  kernel : Filetime
  user : Filetime

/-- `yo_time` -/
def yoTime (w : WinClocks) : YoClock → YoTime
  | .real => yoiWinConvFiletime w.time
  | .mono => ⟨(w.counter.sdiv w.freq).toInt,
      (w.counter.srem w.freq * 1000000000 / w.freq).setWidth 32⟩
  | .cpu => yoTimeadd (yoiWinConvFiletime w.kernel) (yoiWinConvFiletime w.user)

/-- The time is normalised, it is that of the ticks, and nothing overflows. -/
def Filetime.Right (filetime : Filetime) : Prop :=
  (yoiWinConvFiletime filetime).Exact (filetime.ticks * 100 - 11644473600 * 1000000000) ∧
    filetime.overflows = false

variable {filetime : Filetime} {w : WinClocks}

/-! ## The two fields -/

/-- The seconds do not wrap. -/
theorem sec_convFiletime (filetime : Filetime) :
    (yoiWinConvFiletime filetime).sec = (filetime.ticks / 100000000 : ℕ) - 11644473600 := by
  have hlt := filetime.totalTicks.isLt
  have hdiv : (filetime.totalTicks / 100000000).toNat = filetime.ticks / 100000000 := by
    rw [BitVec.toNat_udiv]
    rfl
  have hepoch : EPOCH_DIFFERENCE.toNat = 11644473600 := rfl
  simp only [yoiWinConvFiletime]
  rw [BitVec.toInt_eq_toNat_cond, BitVec.toNat_sub, hdiv, hepoch]
  unfold Filetime.ticks
  split <;> omega

theorem toNat_rest (filetime : Filetime) : filetime.rest.toNat = filetime.ticks % 100000000 := by
  have hmod : (filetime.totalTicks % 100000000).toNat = filetime.ticks % 100000000 := by
    rw [BitVec.toNat_umod]
    rfl
  rw [Filetime.rest, BitVec.toNat_setWidth, hmod]
  omega

theorem overflows_eq_false_iff :
    filetime.overflows = false ↔ filetime.ticks % 100000000 * 100 < 2 ^ 31 := by
  have hrest := toNat_rest filetime
  have hint : filetime.rest.toInt = (filetime.ticks % 100000000 : ℕ) := by
    rw [BitVec.toInt_eq_toNat_cond, hrest]
    split <;> omega
  have hhundred : (100 : BitVec 32).toInt = 100 := by decide
  rw [Filetime.overflows, BitVec.smulOverflow, hint, hhundred]
  simp only [Bool.or_eq_false_iff, decide_eq_false_iff_not]
  omega

/-- Without an overflow the nanoseconds are a hundred for each tick that is left. -/
theorem toNat_nsec_convFiletime (h : filetime.overflows = false) :
    (yoiWinConvFiletime filetime).nsec.toNat = filetime.ticks % 100000000 * 100 := by
  rw [overflows_eq_false_iff] at h
  simp only [yoiWinConvFiletime]
  rw [BitVec.toNat_mul, toNat_rest]
  exact Nat.mod_eq_of_lt (by simp; omega)

/-! ## What is right -/

/-- **A time is converted rightly** in the first second after 1601, and at no other time. -/
theorem convFiletime_right_iff : filetime.Right ↔ filetime.ticks < 10000000 := by
  have hsec := sec_convFiletime filetime
  constructor
  · rintro ⟨⟨hnormal, hns⟩, hover⟩
    have hnsec := toNat_nsec_convFiletime hover
    have hlt := hnormal.toNat_lt
    rw [YoTime.ns, hsec, hnsec] at hns
    omega
  · intro hticks
    have hover : filetime.overflows = false := overflows_eq_false_iff.mpr (by omega)
    have hnsec := toNat_nsec_convFiletime hover
    refine ⟨⟨?_, ?_⟩, hover⟩
    · rw [YoTime.normal, BitVec.lt_def, hnsec]
      simp
      omega
    · rw [YoTime.ns, hsec, hnsec]
      omega

/-- A sum is less than six seconds longer than its seconds, whatever its nanoseconds are. -/
theorem ns_yoTimeadd_lt (a b : YoTime) :
    (yoTimeadd a b).ns < (a.sec + b.sec + 6) * 1000000000 := by
  have hnsec := (a.nsec + b.nsec).isLt
  have hcarry := (a.nsec + b.nsec - 1000000000).isLt
  by_cases hlt : 1000000000 < a.nsec + b.nsec
  · simp only [yoTimeadd, if_pos hlt, YoTime.ns]
    omega
  · simp only [yoTimeadd, if_neg hlt, YoTime.ns]
    omega

/-- **The time of a thread** is never the sum of its two parts, but less. -/
theorem ns_cpu_lt (w : WinClocks) :
    (yoTime w .cpu).ns < ((w.kernel.ticks + w.user.ticks : ℕ) : ℤ) * 100 := by
  have hadd := ns_yoTimeadd_lt (yoiWinConvFiletime w.kernel) (yoiWinConvFiletime w.user)
  rw [sec_convFiletime, sec_convFiletime] at hadd
  simp only [yoTime]
  omega

/-- **Times on Windows.**  Of all 64-bit times those of the first ten million ticks are converted
rightly, and no others; and the time of a thread never is the sum of its two parts. -/
theorem winTimes_right_iff (filetime : Filetime) (w : WinClocks) :
    (filetime.Right ↔ filetime.ticks < 10000000) ∧
    (yoTime w .cpu).ns ≠ ((w.kernel.ticks + w.user.ticks : ℕ) : ℤ) * 100 := by
  constructor
  · exact convFiletime_right_iff
  · exact (ns_cpu_lt w).ne

/-- One second after the start of 1601. -/
def oneSecond : Filetime := ⟨10000000, 0⟩

/-- It is a billion nanoseconds; the start of 1970 becomes a time three centuries before; and a
thread that has not run yet has a negative time. -/
theorem winTimes_not_right :
    ((yoiWinConvFiletime oneSecond).nsec = 1000000000 ∧ ¬ oneSecond.Right) ∧
    (yoiWinConvFiletime ⟨0xD53E8000, 0x019DB1DE⟩).sec = -10480026240 ∧
    yoTime ⟨⟨0, 0⟩, 0, 1, ⟨0, 0⟩, ⟨0, 0⟩⟩ .cpu = ⟨-23288947200, 0⟩ := by
  refine ⟨⟨by decide, ?_⟩, by decide, by decide⟩
  rw [convFiletime_right_iff]
  decide

end Win

end Yaooi
