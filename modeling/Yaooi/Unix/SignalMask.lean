import Yaooi.Unix.SignalWait

/-!
# The mask of the calling thread

`yo_sig_on` and `yo_sig_off` of `src/unix/impl.c` give the thread `_core_sig_set` as its mask, with
`SIG_SETMASK`.  They do not put together the old mask and the set, as `yo_sig_wait` does with
`SIG_BLOCK`, so what the thread had blocked before is lost.

* `Live.step`: the set consists of the groups that are still on.
* `Masked.step`: until a signal is turned on the mask is the old one, and then it is the set.
* `framed_iff`: what else the old mask must be for this to be right.
-/

namespace Yaooi

open Transition

namespace Signals

/-- Each signal has been turned off as often as on. -/
def Balanced (log : List SigEvent) : Prop := ∀ sig, offs sig log = ons sig log

/-- Signals that belong to no group that was turned on are blocked or not as they were, and after
as many calls of `yo_sig_off` as of `yo_sig_on` the whole mask is the old one. -/
def Framed (mask : Sigset) (s : SigState × List SigEvent) : Prop :=
  (∀ os, (∀ sig : YoSigno, os ∈ sig.signals → ons sig s.2 = 0) → s.1.mask os = mask os) ∧
    (Balanced s.2 → s.1.mask = mask)

/-- `yo_sig_off` has found the signal on for the last time. -/
def closes (sig : YoSigno) (e : SigEvent) : Bool := turnsOff sig e && e.found = 1#64

/-- The signal was turned on and not off for the last time since. -/
def stillOn (sig : YoSigno) (log : List SigEvent) : Bool :=
  log.foldl (fun b e => turnsOn sig e || b && !closes sig e) false

/-- What the set consists of. -/
structure Live (s : SigState × List SigEvent) : Prop where
  fresh : s.1.Fresh
  on : ∀ sig, s.1.counts sig ≠ 0#64 → stillOn sig s.2 = true
  set : ∀ os, s.1.set os = true ↔ ∃ sig : YoSigno, os ∈ sig.signals ∧ stillOn sig s.2 = true

/-- Nothing was turned on and the mask is the old one, or it is the set. -/
def Masked (mask : Sigset) (s : SigState × List SigEvent) : Prop :=
  (∀ sig, ons sig s.2 = 0) ∧ s.1.mask = mask ∨ (∃ sig, ons sig s.2 ≠ 0) ∧ s.1.mask = s.1.set

variable {mask : Sigset} {calls : List SigCall} {s t : SigState × List SigEvent} {c : SigCall}
  {log : List SigEvent} {e : SigEvent} {sig : YoSigno} {m : Option Sigset}

/-! ## The set -/

theorem stillOn_append :
    stillOn sig (log ++ [e]) = (turnsOn sig e || stillOn sig log && !closes sig e) := by
  rw [stillOn, List.foldl_append]
  rfl

/-- A call for one signal leaves the others on or off. -/
theorem stillOn_of_ne {code : YoCode} (h : sig ≠ c.sig) :
    stillOn sig (log ++ [⟨c.isOn, c.sig, s.1.counts c.sig, code, m⟩]) = stillOn sig log := by
  have hne : c.sig ≠ sig := Ne.symm h
  simp [stillOn_append, turnsOn, closes, turnsOff, hne]

/-- A successful call leaves its signal on if it turned it on, or if it was on and the count was
not one. -/
theorem stillOn_self :
    stillOn c.sig (log ++ [⟨c.isOn, c.sig, s.1.counts c.sig, .ok, m⟩]) =
      (c.isOn || stillOn c.sig log && s.1.counts c.sig ≠ 1#64) := by
  cases c.isOn <;> simp [stillOn_append, turnsOn, closes, turnsOff]

/-- A call that fails leaves every signal on or off. -/
theorem stillOn_failed {on : Bool} {sig' : YoSigno} {found : BitVec 64} (e : Errno) :
    stillOn sig (log ++ [⟨on, sig', found, yoiUnixConvErrno e, m⟩]) = stillOn sig log := by
  obtain ⟨hon, hoff⟩ := turns_failed sig on sig' found m e
  rw [stillOn_append, closes, hon, hoff]
  simp

/-- What is still on was turned on. -/
theorem ons_ne_zero (h : stillOn sig log = true) : ons sig log ≠ 0 := by
  induction log using List.reverseRecOn with
  | nil => cases h
  | append_singleton log e ih =>
    rw [stillOn_append, Bool.or_eq_true, Bool.and_eq_true] at h
    rw [ons_append]
    rcases h with h | ⟨h, -⟩
    · rw [if_pos h]
      omega
    · have := ih h
      omega

/-- Elsewhere than at the border, a signal is on afterwards if it was on before. -/
theorem stillOn_of_not_border (hs : Live s) (h : ¬ s.1.Border c) :
    stillOn sig (s.2 ++ [⟨c.isOn, c.sig, s.1.counts c.sig, .ok, m⟩]) = stillOn sig s.2 := by
  by_cases hsig : sig = c.sig
  · subst hsig
    rw [stillOn_self]
    cases hon : c.isOn with
    | true =>
      have hcount : s.1.counts c.sig ≠ 0#64 := fun e => h (by rw [SigState.Border, e, if_pos hon])
      rw [hs.on _ hcount]
      rfl
    | false =>
      have hcount : s.1.counts c.sig ≠ 1#64 := fun e => h (by rw [SigState.Border, e, hon]; rfl)
      simp [hcount]
  · exact stillOn_of_ne hsig

/-- At the border it turns out whether the signal is on. -/
theorem stillOn_of_border (h : s.1.Border c) :
    stillOn c.sig (s.2 ++ [⟨c.isOn, c.sig, s.1.counts c.sig, .ok, m⟩]) = c.isOn := by
  rw [stillOn_self]
  cases hon : c.isOn with
  | true => rfl
  | false =>
    have hone : s.1.counts c.sig = 1#64 := by rw [h, hon]; rfl
    simp [hone]

/-- A signal whose count is not zero after a successful call is on. -/
theorem Live.on_update (hs : Live s)
    (h : Function.update s.1.counts c.sig (s.1.nextCount c) sig ≠ 0#64) :
    stillOn sig (s.2 ++ [⟨c.isOn, c.sig, s.1.counts c.sig, .ok, m⟩]) = true := by
  by_cases he : sig = c.sig
  · subst he
    rw [Function.update_self, SigState.nextCount] at h
    rw [stillOn_self]
    cases hon : c.isOn with
    | true => rfl
    | false =>
      have hzero : s.1.counts c.sig ≠ 0#64 := fun e => h (by simp [hon, e])
      have hone : s.1.counts c.sig ≠ 1#64 := fun e => h (by simp [hon, e])
      simp [hs.on _ hzero, hone]
  · rw [Function.update_of_ne he] at h
    rw [stillOn_of_ne he]
    exact hs.on sig h

/-- The new set consists of the signals that are on. -/
theorem Live.set_border (hs : Live s) (h : s.1.Border c) (os : OsSignal) :
    s.1.nextSet c os = true ↔ ∃ sig : YoSigno, os ∈ sig.signals ∧
      stillOn sig (s.2 ++ [⟨c.isOn, c.sig, s.1.counts c.sig, .ok, m⟩]) = true := by
  rw [SigState.nextSet_eq_true]
  by_cases hmem : os ∈ c.sig.signals
  · rw [if_pos hmem]
    constructor
    · intro hon
      exact ⟨c.sig, hmem, by rw [stillOn_of_border h, hon]⟩
    · rintro ⟨sig, hos, hon⟩
      obtain rfl := YoSigno.eq_of_mem hos hmem
      rwa [stillOn_of_border h] at hon
  · rw [if_neg hmem, hs.set os]
    refine exists_congr fun sig => and_congr_right fun hos => ?_
    have hne : sig ≠ c.sig := fun e => hmem (e ▸ hos)
    rw [stillOn_of_ne hne]

/-- **What a step keeps.** -/
theorem Live.step (hs : Live s) (h : watched.step s c = some t) : Live t := by
  obtain ⟨hinit, hcases⟩ := step_cases hs.fresh h
  have hfresh : t.1.Fresh := fun e => absurd (hinit.symm.trans e) (by decide)
  rcases hcases with ⟨hborder, hcounts, hset, -, hlog⟩ | ⟨hborder, hcounts, hset, -, hlog⟩ |
    ⟨-, hcounts, hset, -, e, hlog⟩
  · refine ⟨hfresh, fun sig hsig => ?_, fun os => ?_⟩
    · rw [hcounts] at hsig
      rw [hlog]
      exact hs.on_update hsig
    · simp only [hset, hlog, stillOn_of_not_border hs hborder, hs.set os]
  · refine ⟨hfresh, fun sig hsig => ?_, fun os => ?_⟩
    · rw [hcounts] at hsig
      rw [hlog]
      exact hs.on_update hsig
    · rw [hset, hlog]
      exact hs.set_border hborder os
  · refine ⟨hfresh, fun sig hsig => ?_, fun os => ?_⟩
    · rw [hcounts] at hsig
      rw [hlog, stillOn_failed]
      exact hs.on sig hsig
    · simp only [hset, hlog, stillOn_failed, hs.set os]

/-! ## The mask -/

/-- What was turned on stays so in the log. -/
theorem exists_ons_append (h : ∃ sig, ons sig log ≠ 0) : ∃ sig, ons sig (log ++ [e]) ≠ 0 := by
  obtain ⟨sig, hsig⟩ := h
  refine ⟨sig, ?_⟩
  rw [ons_append]
  omega

/-- **What a step keeps.** -/
theorem Masked.step (hm : Masked mask s) (hs : Live s) (h : watched.step s c = some t) :
    Masked mask t := by
  rcases (step_cases hs.fresh h).2 with ⟨hborder, -, hset, hmask, hlog⟩ |
    ⟨hborder, -, hset, hmask, hlog⟩ | ⟨-, -, hset, hmask, e, hlog⟩
  · rcases hm with ⟨hnone, hm⟩ | ⟨hsome, hm⟩
    · -- with all counts at zero, the call was a `yo_sig_off` that did nothing
      have hzero : s.1.counts c.sig = 0#64 := by
        by_contra hne
        exact ons_ne_zero (hs.on _ hne) (hnone _)
      have hoff : c.isOn = false := by
        by_contra hon
        exact hborder (by rw [SigState.Border, hzero, if_pos (by simpa using hon)])
      refine .inl ⟨fun sig => ?_, hmask.trans hm⟩
      rw [hlog, ons_append, hnone sig, turnsOn, hoff]
      rfl
    · refine .inr ⟨hlog ▸ exists_ons_append hsome, ?_⟩
      rw [hmask, hset, hm]
  · refine .inr ⟨?_, hmask.trans hset.symm⟩
    cases hon : c.isOn with
    | true =>
      refine ⟨c.sig, ?_⟩
      rw [hlog, ons_append, turnsOn, hon]
      simp
    | false =>
      have hone : s.1.counts c.sig = 1#64 := by rw [hborder, hon]; rfl
      have hon' : stillOn c.sig s.2 = true := hs.on _ (by rw [hone]; decide)
      rw [hlog]
      exact exists_ons_append ⟨c.sig, ons_ne_zero hon'⟩
  · rcases hm with ⟨hnone, hm⟩ | ⟨hsome, hm⟩
    · refine .inl ⟨fun sig => ?_, hmask.trans hm⟩
      rw [hlog, ons_append, (turns_failed sig _ _ _ _ e).1]
      exact hnone sig
    · refine .inr ⟨hlog ▸ exists_ons_append hsome, ?_⟩
      rw [hmask, hset, hm]

/-- After any calls. -/
theorem masked_history (mask : Sigset) (calls : List SigCall) :
    Live (history mask calls) ∧ Masked mask (history mask calls) :=
  System.run_invariant (P := fun s => Live s ∧ Masked mask s)
    (fun _ _ _ hs h => ⟨hs.1.step h, hs.2.step hs.1 h⟩)
    ⟨⟨(held_start mask).fresh, fun _ h => absurd rfl h,
      fun _ => iff_of_false (by simp [SigState.start, sigemptyset]) (by simp [stillOn])⟩,
      .inl ⟨fun _ => rfl, rfl⟩⟩ run_history

/-- **When the mask is right.**  After any calls, it is so if and only if no signal has been turned
on, or what was blocked at first belongs to groups that were turned on and, where the calls are
balanced, to those that are still on. -/
theorem framed_iff (mask : Sigset) (calls : List SigCall) :
    Framed mask (history mask calls) ↔
      (∀ sig, ons sig (history mask calls).2 = 0) ∨
        (∀ os, mask os = true →
          ∃ sig : YoSigno, os ∈ sig.signals ∧ ons sig (history mask calls).2 ≠ 0) ∧
        (Balanced (history mask calls).2 → ∀ os, mask os = true ↔
          ∃ sig : YoSigno, os ∈ sig.signals ∧ stillOn sig (history mask calls).2 = true) := by
  obtain ⟨hs, hm⟩ := masked_history mask calls
  generalize history mask calls = s at hs hm
  rcases hm with ⟨hnone, hm⟩ | ⟨⟨sig, hsome⟩, hm⟩
  · exact iff_of_true ⟨fun os _ => by rw [hm], fun _ => hm⟩ (.inl hnone)
  · rw [or_iff_right fun h => hsome (h sig), Framed]
    refine and_congr (forall_congr' fun os => ?_) (imp_congr_right fun _ => ?_)
    · constructor
      · intro h hmask
        by_contra hno
        push Not at hno
        obtain ⟨sig, hos, hon⟩ := (hs.set os).mp (hm ▸ (h hno).trans hmask)
        exact ons_ne_zero hon (hno sig hos)
      · intro h hfree
        have hout : s.1.mask os = false := by
          rw [← Bool.not_eq_true, hm, hs.set os]
          rintro ⟨sig, hos, hon⟩
          exact ons_ne_zero hon (hfree sig hos)
        have hin : mask os = false := by
          rw [← Bool.not_eq_true]
          intro hmask
          obtain ⟨sig, hos, hne⟩ := h hmask
          exact hne (hfree sig hos)
        rw [hout, hin]
    · rw [funext_iff, hm]
      refine forall_congr' fun os => ?_
      rw [← hs.set os, Bool.eq_iff_iff]
      exact iff_comm

/-- The thread has blocked a signal of its own, and turning another one on and off unblocks it. -/
theorem not_framed_blocked :
    (history (sigaddset sigemptyset .usr1) [.on .sigint none, .off .sigint none]).1.mask .usr1 =
        false ∧
      ¬ Framed (sigaddset sigemptyset .usr1) (history (sigaddset sigemptyset .usr1)
        [.on .sigint none, .off .sigint none]) := by
  refine ⟨by decide, fun h => ?_⟩
  have hmask := h.1 .usr1 fun sig hsig => ?_
  · exact absurd hmask (by decide)
  · obtain rfl : sig = .sigusr1 := YoSigno.eq_of_mem hsig (List.mem_singleton_self _)
    decide

/-- As long as no count wraps, a signal is still on if it was turned on more often than it was
turned off when it was on. -/
theorem stillOn_iff (hs : Live s) (hheld : Held s) :
    stillOn sig s.2 = true ↔ lowered sig s.2 < ons sig s.2 := by
  obtain ⟨os, hos⟩ := sig.exists_mem
  have hone : ∀ P : YoSigno → Prop, (∃ sig' : YoSigno, os ∈ sig'.signals ∧ P sig') ↔ P sig :=
    fun P => ⟨fun ⟨sig', hos', h⟩ => YoSigno.eq_of_mem hos' hos ▸ h, fun h => ⟨sig, hos, h⟩⟩
  have hset := (hs.set os).symm.trans (hheld.set os)
  rw [hone, hone] at hset
  have hcount := hheld.counts sig
  rw [hset]
  bv_omega

end Signals

end Yaooi
