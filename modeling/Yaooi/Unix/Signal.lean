import Yaooi.Lib.Transition
import Yaooi.Unix.Errno

/-!
# Signals

`yo_sig_on` and `yo_sig_off` of `src/unix/impl.c`.  A signal of the library stands for a group of
signals of the OS and has a reference count.  The first `yo_sig_on` adds the group to
`_core_sig_set`, the last `yo_sig_off` removes it, and each time the set becomes the mask of the
calling thread.

* `result_cases`: what a call can do.
* `counted_of_reach`: the counts, the set and the mask say the same, as long as no count wraps.
* `not_counted_wrapped`: 2⁶⁴ calls wrap one.
-/

namespace Yaooi

open Transition

/-- `yo_signo_t` -/
inductive YoSigno where
  | sigint | sigquit | sigabrt | sigterm | sigbadmem | sigbadop | sigbadpipe | sigtsize | sigtlost
  | sigusr1 | sigusr2
  deriving DecidableEq, Repr

/-- A signal of the OS: one that the library knows, or another one. -/
inductive OsSignal where
  | hup | int | quit | ill | abrt | bus | fpe | usr1 | segv | usr2 | pipe | term | stkflt | winch
  | sys | pwr
  | other (n : ℕ)
  deriving DecidableEq, Repr

/-- The signals that the `switch` statements of `yo_sig_on` and `yo_sig_off` add and remove. -/
def YoSigno.signals : YoSigno → List OsSignal
  | .sigint => [.int]
  | .sigquit => [.quit]
  | .sigabrt => [.abrt]
  | .sigterm => [.term]
  | .sigbadmem => [.segv, .bus, .stkflt]
  | .sigbadop => [.ill, .fpe, .sys]
  | .sigbadpipe => [.pipe]
  | .sigtsize => [.winch]
  | .sigtlost => [.hup]
  | .sigusr1 => [.usr1]
  | .sigusr2 => [.usr2]

/-- `yoi_unix_conv_signal`, which returns -1 for a signal it does not know. -/
def yoiUnixConvSignal : OsSignal → Option YoSigno
  | .hup => some .sigtlost
  | .int => some .sigint
  | .quit => some .sigquit
  | .ill => some .sigbadop
  | .abrt => some .sigabrt
  | .bus => some .sigbadmem
  | .fpe => some .sigbadop
  | .usr1 => some .sigusr1
  | .segv => some .sigbadmem
  | .usr2 => some .sigusr2
  | .pipe => some .sigbadpipe
  | .term => some .sigterm
  | .stkflt => some .sigbadmem
  | .winch => some .sigtsize
  | .sys => some .sigbadop
  | .pwr | .other _ => none

/-- `sigset_t` -/
abbrev Sigset := OsSignal → Bool

def sigemptyset : Sigset := fun _ => false
def sigfillset : Sigset := fun _ => true
def sigaddset (set : Sigset) (sig : OsSignal) : Sigset := Function.update set sig true
def sigdelset (set : Sigset) (sig : OsSignal) : Sigset := Function.update set sig false

/-- `_core_sig_init`, `_core_sig_counts` and `_core_sig_set`, with the mask of the calling
thread. -/
structure SigState where
  init : Bool
  counts : YoSigno → BitVec 64
  set : Sigset
  mask : Sigset

/-- A call, with the error that `yo_setmask` fails with if it is called. -/
inductive SigCall where
  | on (sig : YoSigno) (fault : Option Errno)
  | off (sig : YoSigno) (fault : Option Errno)

/-- The signal of a call. -/
def SigCall.sig : SigCall → YoSigno
  | .on sig _ | .off sig _ => sig

/-- It is a call of `yo_sig_on`. -/
def SigCall.isOn : SigCall → Bool
  | .on .. => true
  | .off .. => false

/-- What a call does: the state it leaves, its code, and the mask that it has set. -/
structure SigResult where
  state : SigState
  code : YoCode
  masked : Option Sigset

namespace SigState

/-- `_yoi_sig_init` -/
def sigInit (s : SigState) : SigState :=
  if s.init then s else { s with init := true, counts := fun _ => 0#64, set := sigemptyset }

/-- `_core_sig_counts[sig] = n` -/
def setCount (s : SigState) (sig : YoSigno) (n : BitVec 64) : SigState :=
  { s with counts := Function.update s.counts sig n }

/-- `yo_sig_on` -/
def yoSigOn (s : SigState) (sig : YoSigno) (fault : Option Errno) : SigResult :=
  let s := s.sigInit
  if s.counts sig = 0#64 then
    let oldSet := s.set
    let s := { s with set := sig.signals.foldl sigaddset s.set }
    match fault with
    | some e => ⟨{ s with set := oldSet }, yoiUnixConvErrno e, none⟩
    | none =>
      let s := { s with mask := s.set }
      ⟨s.setCount sig (s.counts sig + 1#64), .ok, some s.set⟩
  else ⟨s.setCount sig (s.counts sig + 1#64), .ok, none⟩

/-- The end of `yo_sig_off`. -/
def release (s : SigState) (sig : YoSigno) : SigState :=
  if s.counts sig ≠ 0#64 then s.setCount sig (s.counts sig - 1#64) else s

/-- `yo_sig_off` -/
def yoSigOff (s : SigState) (sig : YoSigno) (fault : Option Errno) : SigResult :=
  let s := s.sigInit
  if s.counts sig = 1#64 then
    let oldSet := s.set
    let s := { s with set := sig.signals.foldl sigdelset s.set }
    match fault with
    | some e => ⟨{ s with set := oldSet }, yoiUnixConvErrno e, none⟩
    | none =>
      let s := { s with mask := s.set }
      ⟨s.release sig, .ok, some s.set⟩
  else ⟨s.release sig, .ok, none⟩

/-- What a call does. -/
def result (s : SigState) : SigCall → SigResult
  | .on sig fault => s.yoSigOn sig fault
  | .off sig fault => s.yoSigOff sig fault

/-- Nothing has been called yet, and the mask of the thread is this. -/
def start (mask : Sigset) : SigState := ⟨false, fun _ => 0#64, sigemptyset, mask⟩

end SigState

/-- What a call did: whether it was `yo_sig_on`, for which signal, the count it found, the code it
returned, and the mask it set. -/
structure SigEvent where
  on : Bool
  sig : YoSigno
  found : BitVec 64
  code : YoCode
  masked : Option Sigset

namespace Signals

/-- The event of a call. -/
def event (s : SigState) (c : SigCall) : SigEvent :=
  ⟨c.isOn, c.sig, s.sigInit.counts c.sig, (s.result c).code, (s.result c).masked⟩

/-- The calls that a thread makes, whose mask is anything at first. -/
def system : System SigState SigCall where
  init s := ∃ mask, s = .start mask
  step s c := some (s.result c).state

/-- The same, with a log. -/
abbrev watched : System (SigState × List SigEvent) SigCall := system.logged fun s c _ => [event s c]

/-- `yo_sig_on` has turned the signal on. -/
def turnsOn (sig : YoSigno) (e : SigEvent) : Bool := e.on && e.sig = sig && e.code = .ok

/-- `yo_sig_off` has returned `YO_OK`. -/
def turnsOff (sig : YoSigno) (e : SigEvent) : Bool := !e.on && e.sig = sig && e.code = .ok

/-- It has done so when the signal was on. -/
def lowers (sig : YoSigno) (e : SigEvent) : Bool := turnsOff sig e && e.found ≠ 0#64

/-- The number of successful `yo_sig_on`. -/
def ons (sig : YoSigno) (log : List SigEvent) : ℕ := log.countP (turnsOn sig)

/-- The number of successful `yo_sig_off`. -/
def offs (sig : YoSigno) (log : List SigEvent) : ℕ := log.countP (turnsOff sig)

/-- The number of those that found the signal on. -/
def lowered (sig : YoSigno) (log : List SigEvent) : ℕ := log.countP (lowers sig)

/-- The last mask that was set. -/
def lastMask (log : List SigEvent) : Option Sigset := (log.filterMap SigEvent.masked).getLast?

/-- The count that `yo_sig_on` raises does not wrap. -/
def NoWrap (s : SigState) : SigCall → Prop
  | .on sig _ => s.counts sig + 1#64 ≠ 0#64
  | .off .. => True

instance (s : SigState) : ∀ c, Decidable (NoWrap s c)
  | .on sig _ => inferInstanceAs (Decidable (s.counts sig + 1#64 ≠ 0#64))
  | .off .. => inferInstanceAs (Decidable True)

/-- What the counts, the set and the mask should be, and that a call that fails changes neither the
counts nor the set. -/
structure Counted (s : SigState × List SigEvent) : Prop where
  counts : ∀ sig, (s.1.counts sig).toNat + lowered sig s.2 = ons sig s.2
  set : ∀ os, s.1.set os = true ↔ ∃ sig : YoSigno, os ∈ sig.signals ∧ s.1.counts sig ≠ 0#64
  mask : ∀ m, lastMask s.2 = some m → m = s.1.set
  failed : ∀ c, (s.1.result c).code ≠ .ok →
    (s.1.result c).state.counts = s.1.counts ∧ (s.1.result c).state.set = s.1.set

end Signals

/-! ## Groups -/

variable {set : Sigset} {os : OsSignal} {sig : YoSigno} {l : List OsSignal}

/-- The groups are those of `yoi_unix_conv_signal`. -/
theorem yoiUnixConvSignal_eq_some : yoiUnixConvSignal os = some sig ↔ os ∈ sig.signals := by
  cases os with
  | other n => cases sig <;> simp [yoiUnixConvSignal, YoSigno.signals]
  | _ => cases sig <;> decide

/-- So a signal of the OS belongs to one group at most. -/
theorem YoSigno.eq_of_mem {sig' : YoSigno} (h : os ∈ sig.signals) (h' : os ∈ sig'.signals) :
    sig = sig' := by
  rw [← yoiUnixConvSignal_eq_some] at h h'
  exact Option.some.inj (h.symm.trans h')

/-- No group is empty. -/
theorem YoSigno.exists_mem (sig : YoSigno) : ∃ os, os ∈ sig.signals := by
  cases sig <;> exact ⟨_, List.mem_cons_self ..⟩

theorem foldl_sigaddset : l.foldl sigaddset set os = (decide (os ∈ l) || set os) := by
  induction l generalizing set with
  | nil => simp
  | cons x l ih =>
    rw [List.foldl_cons, ih, sigaddset, Function.update_apply]
    by_cases hx : os = x <;> simp [hx]

theorem foldl_sigdelset : l.foldl sigdelset set os = (!decide (os ∈ l) && set os) := by
  induction l generalizing set with
  | nil => simp
  | cons x l ih =>
    rw [List.foldl_cons, ih, sigdelset, Function.update_apply]
    by_cases hx : os = x <;> simp [hx]

/-! ## What a call does -/

namespace SigState

variable {s : SigState} {c : SigCall}

/-- The memory is zero before the first call. -/
def Fresh (s : SigState) : Prop := s.init = false → s.counts = (fun _ => 0#64) ∧ s.set = sigemptyset

/-- So there is nothing to initialise. -/
theorem Fresh.sigInit (h : s.Fresh) : s.sigInit = { s with init := true } := by
  unfold SigState.sigInit
  cases hinit : s.init with
  | true => cases s; simp_all
  | false =>
    obtain ⟨hcounts, hset⟩ := h hinit
    simp [hcounts, hset]

/-- The count that a successful call leaves. -/
def nextCount (s : SigState) (c : SigCall) : BitVec 64 :=
  if c.isOn then s.counts c.sig + 1#64
  else if s.counts c.sig = 0#64 then 0#64 else s.counts c.sig - 1#64

/-- The set that the call makes. -/
def nextSet (s : SigState) (c : SigCall) : Sigset :=
  c.sig.signals.foldl (if c.isOn then sigaddset else sigdelset) s.set

/-- The count is at the border, so that the set changes. -/
def Border (s : SigState) (c : SigCall) : Prop := s.counts c.sig = if c.isOn then 0#64 else 1#64

/-- **What a call can do**: it changes the count; at the border it also changes the set and the
mask, or it fails and changes nothing. -/
theorem result_cases (h : s.Fresh) (c : SigCall) :
    (¬ s.Border c ∧ s.result c = ⟨{ s with
        init := true, counts := Function.update s.counts c.sig (s.nextCount c) }, .ok, none⟩) ∨
    (s.Border c ∧ s.result c = ⟨{ s with
        init := true, counts := Function.update s.counts c.sig (s.nextCount c),
        set := s.nextSet c, mask := s.nextSet c }, .ok, some (s.nextSet c)⟩) ∨
    (s.Border c ∧ ∃ e, s.result c = ⟨{ s with init := true }, yoiUnixConvErrno e, none⟩) := by
  cases c with
  | on sig fault =>
    simp only [result, yoSigOn, h.sigInit, Border, nextCount, nextSet, SigCall.isOn, SigCall.sig,
      if_true]
    by_cases hzero : s.counts sig = 0#64
    · cases fault with
      | none => simp [hzero, setCount]
      | some e => exact .inr (.inr ⟨hzero, e, by simp [hzero]⟩)
    · simp [hzero, setCount]
  | off sig fault =>
    simp only [result, yoSigOff, h.sigInit, Border, nextCount, nextSet, SigCall.isOn, SigCall.sig,
      release]
    by_cases hone : s.counts sig = 1#64
    · cases fault with
      | none => simp [hone, setCount]
      | some e => exact .inr (.inr ⟨by simpa using hone, e, by simp [hone]⟩)
    · by_cases hzero : s.counts sig = 0#64
      · have hupdate : Function.update s.counts sig 0#64 = s.counts := by
          rw [← hzero, Function.update_eq_self]
        simp [hzero, hupdate]
      · simp [hone, hzero, setCount]

/-- It does not fail unless the mask cannot be set. -/
theorem code_on_none : (s.result (.on sig none)).code = .ok := by
  unfold result yoSigOn
  dsimp only
  split <;> rfl

/-- The count that a call leaves is one higher or lower, unless there is nothing to lower. -/
theorem toNat_nextCount (h : Signals.NoWrap s c) :
    (s.nextCount c).toNat + (if c.isOn = false ∧ s.counts c.sig ≠ 0#64 then 1 else 0) =
      (s.counts c.sig).toNat + if c.isOn then 1 else 0 := by
  cases c with
  | on sig fault =>
    have hwrap : s.counts sig + 1#64 ≠ 0#64 := h
    have hnext : (s.counts sig + 1#64).toNat = (s.counts sig).toNat + 1 := by bv_omega
    simpa [nextCount, SigCall.isOn, SigCall.sig] using hnext
  | off sig fault =>
    by_cases hzero : s.counts sig = 0#64
    · simp [nextCount, SigCall.isOn, SigCall.sig, hzero]
    · have hnext : (s.counts sig - 1#64).toNat + 1 = (s.counts sig).toNat := by bv_omega
      simpa [nextCount, SigCall.isOn, SigCall.sig, hzero] using hnext

/-- At the border the signal is on afterwards if it was turned on. -/
theorem nextCount_of_border (h : s.Border c) : s.nextCount c ≠ 0#64 ↔ c.isOn = true := by
  unfold Border at h
  cases hon : c.isOn <;> simp [nextCount, hon, h]

/-- Elsewhere it is on if it was on. -/
theorem nextCount_of_not_border (hwrap : Signals.NoWrap s c) (h : ¬ s.Border c) :
    s.nextCount c ≠ 0#64 ↔ s.counts c.sig ≠ 0#64 := by
  cases c with
  | on sig fault => exact iff_of_true hwrap h
  | off sig fault =>
    have hone : s.counts sig ≠ 1#64 := h
    by_cases hzero : s.counts sig = 0#64
    · simp [nextCount, SigCall.isOn, SigCall.sig, hzero]
    · have hnext : s.counts sig - 1#64 ≠ 0#64 := by bv_omega
      simpa [nextCount, SigCall.isOn, SigCall.sig, hzero] using hnext

/-- The set afterwards, at the border. -/
theorem nextSet_eq_true (os : OsSignal) :
    s.nextSet c os = true ↔ if os ∈ c.sig.signals then c.isOn = true else s.set os = true := by
  unfold nextSet
  cases hon : c.isOn <;> by_cases hmem : os ∈ c.sig.signals <;>
    simp [foldl_sigaddset, foldl_sigdelset, hmem]

end SigState

/-! ## The log -/

namespace Signals

variable {s t : SigState × List SigEvent} {c : SigCall} {log : List SigEvent} {e : SigEvent}

theorem ons_append : ons sig (log ++ [e]) = ons sig log + if turnsOn sig e then 1 else 0 := by
  rw [ons, List.countP_append, List.countP_singleton, ons]

theorem lowered_append :
    lowered sig (log ++ [e]) = lowered sig log + if lowers sig e then 1 else 0 := by
  rw [lowered, List.countP_append, List.countP_singleton, lowered]

theorem lastMask_append : lastMask (log ++ [e]) = e.masked.or (lastMask log) := by
  cases hm : e.masked <;> simp [lastMask, hm]

/-- What a call leaves in the log and the state. -/
theorem watched_step : watched.step s c = some t ↔
    t.1 = (s.1.result c).state ∧ t.2 = s.2 ++ [event s.1 c] := by
  rw [System.logged_step]
  simp only [system, Option.some.injEq]
  exact and_congr_left fun _ => eq_comm

/-- **What a step can do.**  The three cases of `SigState.result_cases`, with the log. -/
theorem step_cases (hs : s.1.Fresh) (h : watched.step s c = some t) :
    t.1.init = true ∧
    ((¬ s.1.Border c ∧ t.1.counts = Function.update s.1.counts c.sig (s.1.nextCount c) ∧
        t.1.set = s.1.set ∧ t.1.mask = s.1.mask ∧
        t.2 = s.2 ++ [⟨c.isOn, c.sig, s.1.counts c.sig, .ok, none⟩]) ∨
      (s.1.Border c ∧ t.1.counts = Function.update s.1.counts c.sig (s.1.nextCount c) ∧
        t.1.set = s.1.nextSet c ∧ t.1.mask = s.1.nextSet c ∧
        t.2 = s.2 ++ [⟨c.isOn, c.sig, s.1.counts c.sig, .ok, some (s.1.nextSet c)⟩]) ∨
      (s.1.Border c ∧ t.1.counts = s.1.counts ∧ t.1.set = s.1.set ∧ t.1.mask = s.1.mask ∧
        ∃ e, t.2 = s.2 ++ [⟨c.isOn, c.sig, s.1.counts c.sig, yoiUnixConvErrno e, none⟩])) := by
  obtain ⟨hstate, hlog⟩ := watched_step.mp h
  have hfound : s.1.sigInit.counts = s.1.counts := by rw [hs.sigInit]
  rcases SigState.result_cases hs c with ⟨hborder, hres⟩ | ⟨hborder, hres⟩ | ⟨hborder, e, hres⟩
  · rw [hstate, hlog, event, hfound, hres]
    exact ⟨rfl, .inl ⟨hborder, rfl, rfl, rfl, rfl⟩⟩
  · rw [hstate, hlog, event, hfound, hres]
    exact ⟨rfl, .inr (.inl ⟨hborder, rfl, rfl, rfl, rfl⟩)⟩
  · rw [hstate, hlog, event, hfound, hres]
    exact ⟨rfl, .inr (.inr ⟨hborder, rfl, rfl, rfl, e, rfl⟩)⟩

/-- What a run keeps: the first three of `Counted`, and that the memory is zero at first. -/
structure Held (s : SigState × List SigEvent) : Prop where
  fresh : s.1.Fresh
  counts : ∀ sig, (s.1.counts sig).toNat + lowered sig s.2 = ons sig s.2
  set : ∀ os, s.1.set os = true ↔ ∃ sig : YoSigno, os ∈ sig.signals ∧ s.1.counts sig ≠ 0#64
  mask : ∀ m, lastMask s.2 = some m → m = s.1.set

theorem held_start (mask : Sigset) : Held (.start mask, []) where
  fresh _ := ⟨rfl, rfl⟩
  counts _ := rfl
  set os := by simp [SigState.start, sigemptyset]
  mask m hm := by cases hm

/-- A successful call keeps the counts in step with the log. -/
theorem counts_success {m : Option Sigset}
    (hs : ∀ sig, (s.1.counts sig).toNat + lowered sig s.2 = ons sig s.2) (hwrap : NoWrap s.1 c)
    (hcounts : t.1.counts = Function.update s.1.counts c.sig (s.1.nextCount c))
    (hlog : t.2 = s.2 ++ [⟨c.isOn, c.sig, s.1.counts c.sig, .ok, m⟩]) :
    ∀ sig, (t.1.counts sig).toNat + lowered sig t.2 = ons sig t.2 := by
  intro sig
  have hold := hs sig
  have hnext := SigState.toNat_nextCount hwrap
  rw [hcounts, hlog, ons_append, lowered_append]
  by_cases hsig : sig = c.sig
  · subst hsig
    simp only [turnsOn, lowers, turnsOff, Function.update_self]
    simp only [decide_true, Bool.and_true, Bool.and_eq_true, Bool.not_eq_true', decide_eq_true_eq]
    omega
  · have hsig' : c.sig ≠ sig := Ne.symm hsig
    simpa [turnsOn, lowers, turnsOff, hsig, hsig'] using hold

/-- A failed call is not counted. -/
theorem turns_failed (sig : YoSigno) (on : Bool) (sig' : YoSigno) (found : BitVec 64)
    (m : Option Sigset) (e : Errno) : turnsOn sig ⟨on, sig', found, yoiUnixConvErrno e, m⟩ = false ∧
      turnsOff sig ⟨on, sig', found, yoiUnixConvErrno e, m⟩ = false := by
  simp [turnsOn, turnsOff, yoiUnixConvErrno_ne_ok]

/-- **What a step keeps.** -/
theorem Held.step (hs : Held s) (hwrap : NoWrap s.1 c) (h : watched.step s c = some t) :
    Held t := by
  obtain ⟨hinit, hcases⟩ := step_cases hs.fresh h
  have hfresh : t.1.Fresh := fun e => absurd (hinit.symm.trans e) (by decide)
  rcases hcases with ⟨hborder, hcounts, hset, -, hlog⟩ | ⟨hborder, hcounts, hset, -, hlog⟩ |
    ⟨-, hcounts, hset, -, e, hlog⟩
  · refine ⟨hfresh, counts_success hs.counts hwrap hcounts hlog, fun os => ?_, fun m hm => ?_⟩
    · rw [hset, hs.set os, hcounts]
      refine exists_congr fun sig => and_congr_right fun _ => ?_
      by_cases hsig : sig = c.sig
      · subst hsig
        rw [Function.update_self]
        exact (SigState.nextCount_of_not_border hwrap hborder).symm
      · rw [Function.update_of_ne hsig]
    · rw [hset]
      rw [hlog, lastMask_append] at hm
      exact hs.mask m hm
  · refine ⟨hfresh, counts_success hs.counts hwrap hcounts hlog, fun os => ?_, fun m hm => ?_⟩
    · have hnext := SigState.nextCount_of_border hborder
      rw [hset, SigState.nextSet_eq_true, hcounts]
      by_cases hmem : os ∈ c.sig.signals
      · rw [if_pos hmem, ← hnext]
        constructor
        · intro h
          exact ⟨c.sig, hmem, by rwa [Function.update_self]⟩
        · rintro ⟨sig, hsig, h⟩
          obtain rfl := YoSigno.eq_of_mem hsig hmem
          rwa [Function.update_self] at h
      · rw [if_neg hmem, hs.set os]
        refine exists_congr fun sig => and_congr_right fun hsig => ?_
        have hne : sig ≠ c.sig := fun e => hmem (e ▸ hsig)
        rw [Function.update_of_ne hne]
    · rw [hlog, lastMask_append] at hm
      rw [hset]
      exact (Option.some.inj hm).symm
  · refine ⟨hfresh, fun sig => ?_, fun os => ?_, fun m hm => ?_⟩
    · obtain ⟨hon, hoff⟩ := turns_failed sig c.isOn c.sig (s.1.counts c.sig) none e
      rw [hcounts, hlog, ons_append, lowered_append, lowers, hon, hoff]
      exact hs.counts sig
    · rw [hset, hcounts]
      exact hs.set os
    · rw [hset]
      rw [hlog, lastMask_append] at hm
      exact hs.mask m hm

theorem held_of_reach (h : watched.Reach (fun s c => NoWrap s.1 c) s) : Held s := by
  refine h.invariant ?_ fun s c t _ hs hwrap ht => hs.step hwrap ht
  rintro ⟨s, log⟩ ⟨⟨mask, rfl⟩, hlog⟩
  obtain rfl : log = [] := hlog
  exact held_start mask

/-- A call that fails changes neither the counts nor the set. -/
theorem failed_unchanged {s : SigState} (hs : s.Fresh) (c : SigCall)
    (h : (s.result c).code ≠ .ok) :
    (s.result c).state.counts = s.counts ∧ (s.result c).state.set = s.set := by
  rcases SigState.result_cases hs c with ⟨-, hres⟩ | ⟨-, hres⟩ | ⟨-, e, hres⟩
  · exact absurd (by rw [hres]) h
  · exact absurd (by rw [hres]) h
  · rw [hres]
    exact ⟨rfl, rfl⟩

/-- **Reference counts.**  In every run in which no count wraps, each count is the number of
successful `yo_sig_on` less that of the successful `yo_sig_off` that found it nonzero, the set
consists of the groups whose count is not zero, the last mask that was set is the set, and a call
that fails changes neither. -/
theorem counted_of_reach (h : watched.Reach (fun s c => NoWrap s.1 c) s) : Counted s :=
  have hs := held_of_reach h
  ⟨hs.counts, hs.set, hs.mask, failed_unchanged hs.fresh⟩

/-- A signal is turned on twice, and off once. -/
theorem counted_pair : ∃ s, watched.run (.start sigemptyset, [])
    [.on .sigusr1 none, .on .sigusr1 none, .off .sigusr1 none] = some s ∧ Counted s :=
  have hstart : watched.Reach (fun s c => NoWrap s.1 c) (.start sigemptyset, []) :=
    .init ⟨⟨_, rfl⟩, rfl⟩
  ⟨_, rfl, counted_of_reach (((hstart.step (a := .on .sigusr1 none) (by decide) rfl).step
    (a := .on .sigusr1 none) (by decide) rfl).step (a := .off .sigusr1 none) (by decide) rfl)⟩

/-- A signal that is turned on `n` times. -/
theorem run_replicate_on (n : ℕ) : ∃ s, watched.run (.start sigemptyset, [])
    (List.replicate n (.on .sigusr1 none)) = some s ∧ s.1.Fresh ∧
      s.1.counts .sigusr1 = BitVec.ofNat 64 n ∧ ons .sigusr1 s.2 = n ∧
        lowered .sigusr1 s.2 = 0 := by
  induction n with
  | zero => exact ⟨_, rfl, (held_start _).fresh, rfl, rfl, rfl⟩
  | succ n ih =>
    obtain ⟨s, hrun, hfresh, hcount, hons, hlowered⟩ := ih
    obtain ⟨t, ht⟩ : ∃ t, watched.step s (.on .sigusr1 none) = some t := ⟨_, rfl⟩
    obtain ⟨hinit, hcases⟩ := step_cases hfresh ht
    have hfresh' : t.1.Fresh := fun e => absurd (hinit.symm.trans e) (by decide)
    have hnext : s.1.nextCount (.on .sigusr1 none) = BitVec.ofNat 64 (n + 1) := by
      rw [SigState.nextCount, if_pos (by rfl), SigCall.sig, hcount, BitVec.ofNat_add]
    -- the call succeeds, at the border or not
    obtain ⟨m, hcounts, hlog⟩ : ∃ m,
        t.1.counts = Function.update s.1.counts .sigusr1 (BitVec.ofNat 64 (n + 1)) ∧
          t.2 = s.2 ++ [⟨true, .sigusr1, s.1.counts .sigusr1, .ok, m⟩] := by
      rcases hcases with ⟨-, hcounts, -, -, hlog⟩ | ⟨-, hcounts, -, -, hlog⟩ | ⟨-, -, -, -, e, hlog⟩
      · exact ⟨_, hnext ▸ hcounts, hlog⟩
      · exact ⟨_, hnext ▸ hcounts, hlog⟩
      · have hevent := List.append_cancel_left (hlog.symm.trans (watched_step.mp ht).2)
        have hcode : yoiUnixConvErrno e = (s.1.result (.on .sigusr1 none)).code :=
          congrArg SigEvent.code (List.singleton_inj.mp hevent)
        exact absurd (hcode.trans SigState.code_on_none) (yoiUnixConvErrno_ne_ok e)
    refine ⟨t, ?_, hfresh', by rw [hcounts, Function.update_self], ?_, ?_⟩
    · rw [List.replicate_succ', System.run_append, hrun]
      exact ht
    · rw [hlog, ons_append, hons]
      rfl
    · rw [hlog, lowered_append, hlowered]
      rfl

/-- **A count that wraps.**  After 2⁶⁴ calls of `yo_sig_on` the count is zero. -/
theorem not_counted_wrapped : ∃ s, watched.run (.start sigemptyset, [])
    (List.replicate (2 ^ 64) (.on .sigusr1 none)) = some s ∧ s.1.counts .sigusr1 = 0#64 ∧
      ¬ Counted s := by
  obtain ⟨s, hrun, -, hcount, hons, hlowered⟩ := run_replicate_on (2 ^ 64)
  have hzero : s.1.counts .sigusr1 = 0#64 := by
    rw [hcount]
    decide
  refine ⟨s, hrun, hzero, fun h => ?_⟩
  have hcounts := h.counts .sigusr1
  rw [hzero, hlowered, hons] at hcounts
  exact absurd hcounts (by decide)

end Signals

end Yaooi
