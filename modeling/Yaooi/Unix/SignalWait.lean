import Yaooi.Unix.Signal

/-!
# Waiting for a signal

`yo_sig_wait` of `src/unix/impl.c` blocks `SIGPWR`, by which it is cancelled, waits for a signal and
puts the mask back.  It waits for every signal there is, and not for those that `yo_sig_on` has
turned on, which `inc/yaooi/io.h` says it receives.

* `sigWaitLoop_eq_ok_iff`: the signal it reports is the first one that belongs to a group.
* `onlyActive_iff`: this is one that is on if and only if the first such signal that comes is.
* `onlyActive_forall_iff`: so it has to be on, whatever comes, only where all of them are.
-/

namespace Yaooi

namespace Signals

/-- What `sigwait` leaves in `res`, or the error of one that returns a negative number.  That of
POSIX never does: where it fails it returns a positive number, which the code does not look at, so
that it goes on with what is in `res`. -/
abbrev Answer := Except Errno OsSignal

/-- The loop of `yo_sig_wait` while this arrives: the code and the signal, or none if it still
waits. -/
def sigWaitLoop (full : Sigset) : List Answer → Option (YoCode × Option YoSigno)
  | [] => none
  | .error e :: _ => some (yoiUnixConvErrno e, none)
  | .ok res :: answers =>
    -- `sigwait` hands out what is in its set
    if full res = false then sigWaitLoop full answers
    else if res = .pwr then some (.ecanceled, none)
    else
      match yoiUnixConvSignal res with
      | none => sigWaitLoop full answers
      | some sig => some (.ok, some sig)

/-- `yo_sig_wait`, with the error that `yo_setmask` fails with. -/
def yoSigWait (s : SigState) (answers : List Answer) (fault : Option Errno) :
    SigState × Option (YoCode × Option YoSigno) :=
  let s := s.sigInit
  match fault with
  | some e => (s, some (yoiUnixConvErrno e, none))
  | none =>
    let old := s.mask
    let s := { s with mask := sigaddset s.mask .pwr }
    match sigWaitLoop sigfillset answers with
    | none => (s, none)
    | some res => ({ s with mask := old }, some res)

/-- The state and the log after these calls, on a thread with this mask. -/
def history (mask : Sigset) (calls : List SigCall) : SigState × List SigEvent :=
  calls.foldl (fun s c => ((s.1.result c).state, s.2 ++ [event s.1 c])) (.start mask, [])

/-- The signal has been turned on more often than off. -/
def Active (log : List SigEvent) (sig : YoSigno) : Prop := offs sig log < ons sig log

instance (log : List SigEvent) (sig : YoSigno) : Decidable (Active log sig) :=
  inferInstanceAs (Decidable (_ < _))

/-- `yo_sig_wait` answers `YO_OK` only with a signal that is on. -/
def OnlyActive (s : SigState × List SigEvent) (answers : List Answer) : Prop :=
  ∀ fault sig, (yoSigWait s.1 answers fault).2 = some (.ok, some sig) → Active s.2 sig

/-- A signal that belongs to no group and does not cancel the wait. -/
def Unknown (a : Answer) : Prop :=
  ∃ os, a = .ok os ∧ os ≠ .pwr ∧ ∀ sig : YoSigno, os ∉ sig.signals

variable {mask : Sigset} {calls : List SigCall} {answers : List Answer} {fault : Option Errno}
  {s : SigState} {sig : YoSigno} {os : OsSignal} {a : Answer}

/-- The calls are a run. -/
theorem run_history : watched.run (.start mask, []) calls = some (history mask calls) := by
  have hfold : ∀ s, watched.run s calls = some (calls.foldl
      (fun s c => ((s.1.result c).state, s.2 ++ [event s.1 c])) s) := by
    induction calls with
    | nil => exact fun s => rfl
    | cons c calls ih => exact fun s => ih _
  exact hfold _

/-- **The wait leaves everything as it was.**  Once it is over, the mask is the old one. -/
theorem yoSigWait_state (h : (yoSigWait s answers fault).2 ≠ none) :
    (yoSigWait s answers fault).1 = s.sigInit := by
  unfold yoSigWait at h ⊢
  cases fault with
  | some e => rfl
  | none => cases hloop : sigWaitLoop sigfillset answers <;> simp_all

theorem yoiUnixConvSignal_eq_none :
    yoiUnixConvSignal os = none ↔ ∀ sig : YoSigno, os ∉ sig.signals := by
  simp only [Option.eq_none_iff_forall_ne_some, ne_eq, yoiUnixConvSignal_eq_some]

/-- The first signal of a group is handed out after unknown ones. -/
def FirstIn (sig : YoSigno) (answers : List Answer) : Prop :=
  ∃ pre os post, answers = pre ++ .ok os :: post ∧ (∀ a ∈ pre, Unknown a) ∧ os ∈ sig.signals

/-- It is the next one, or it comes after an unknown one. -/
theorem firstIn_cons : FirstIn sig (a :: answers) ↔
    (∃ os, a = .ok os ∧ os ∈ sig.signals) ∨ Unknown a ∧ FirstIn sig answers := by
  constructor
  · rintro ⟨pre, os, post, heq, hpre, hos⟩
    cases pre with
    | nil =>
      obtain ⟨rfl, rfl⟩ := List.cons.inj heq
      exact .inl ⟨os, rfl, hos⟩
    | cons b pre =>
      obtain ⟨rfl, rfl⟩ := List.cons.inj heq
      obtain ⟨ha, hpre⟩ := List.forall_mem_cons.mp hpre
      exact .inr ⟨ha, pre, os, post, rfl, hpre, hos⟩
  · rintro (⟨os, rfl, hos⟩ | ⟨ha, pre, os, post, rfl, hpre, hos⟩)
    · exact ⟨[], os, answers, rfl, by simp, hos⟩
    · exact ⟨a :: pre, os, post, rfl, List.forall_mem_cons.mpr ⟨ha, hpre⟩, hos⟩

/-- **The signal that is reported** is that of the first group. -/
theorem sigWaitLoop_eq_ok_iff :
    sigWaitLoop sigfillset answers = some (.ok, some sig) ↔ FirstIn sig answers := by
  induction answers with
  | nil =>
    apply iff_of_false (by simp [sigWaitLoop])
    rintro ⟨pre, os, post, heq, -⟩
    simp at heq
  | cons a answers ih =>
    rw [firstIn_cons]
    cases a with
    | error e =>
      apply iff_of_false (by simp [sigWaitLoop])
      rintro (⟨os, h, -⟩ | ⟨⟨os, h, -⟩, -⟩) <;> cases h
    | ok os =>
      rw [sigWaitLoop, if_neg (by simp [sigfillset])]
      by_cases hpwr : os = .pwr
      · subst hpwr
        apply iff_of_false (by simp)
        rintro (⟨os, h, hos⟩ | ⟨⟨os, h, hne, -⟩, -⟩)
        · cases h
          exact absurd (yoiUnixConvSignal_eq_some.mpr hos) (by simp [yoiUnixConvSignal])
        · cases h
          exact hne rfl
      · rw [if_neg hpwr]
        cases hconv : yoiUnixConvSignal os with
        | none =>
          have hnone := yoiUnixConvSignal_eq_none.mp hconv
          rw [ih]
          constructor
          · intro h
            exact .inr ⟨⟨os, rfl, hpwr, hnone⟩, h⟩
          · rintro (⟨os', h, hos⟩ | ⟨-, h⟩)
            · cases h
              exact absurd hos (hnone sig)
            · exact h
        | some sig' =>
          have hsig' := yoiUnixConvSignal_eq_some.mp hconv
          constructor
          · rintro h
            obtain rfl : sig' = sig := by simpa using h
            exact .inl ⟨os, rfl, hsig'⟩
          · rintro (⟨os', h, hos⟩ | ⟨⟨os', h, -, hnone⟩, -⟩)
            · cases h
              rw [YoSigno.eq_of_mem hsig' hos]
            · cases h
              exact absurd hsig' (hnone sig')

/-- A wait whose mask could be set reports it. -/
theorem yoSigWait_eq_ok_iff : (yoSigWait s answers fault).2 = some (.ok, some sig) ↔
    fault = none ∧ FirstIn sig answers := by
  cases fault with
  | none =>
    rw [← sigWaitLoop_eq_ok_iff, yoSigWait]
    dsimp only
    cases sigWaitLoop sigfillset answers <;> simp
  | some e => simp [yoSigWait]

/-- **What may be reported.**  After any calls, and whatever comes, the signal that is reported is
on if and only if the first signal of a group that comes, with only unknown ones before, belongs to
one that is on. -/
theorem onlyActive_iff (mask : Sigset) (calls : List SigCall) (answers : List Answer) :
    OnlyActive (history mask calls) answers ↔
      ∀ pre os post, answers = pre ++ .ok os :: post → (∀ a ∈ pre, Unknown a) →
        ∀ sig : YoSigno, os ∈ sig.signals → Active (history mask calls).2 sig := by
  simp only [OnlyActive, yoSigWait_eq_ok_iff]
  constructor
  · intro h pre os post heq hpre sig hos
    exact h none sig ⟨rfl, pre, os, post, heq, hpre, hos⟩
  · rintro h fault sig ⟨-, pre, os, post, heq, hpre, hos⟩
    exact h pre os post heq hpre sig hos

/-- Where anything may come, this is so only while all signals are on. -/
theorem onlyActive_forall_iff (mask : Sigset) (calls : List SigCall) :
    (∀ answers, OnlyActive (history mask calls) answers) ↔
      ∀ sig, Active (history mask calls).2 sig := by
  constructor
  · intro h sig
    obtain ⟨os, hos⟩ := sig.exists_mem
    have hfirst : FirstIn sig [.ok os] := ⟨[], os, [], rfl, by simp, hos⟩
    exact h [.ok os] none sig (yoSigWait_eq_ok_iff.mpr ⟨rfl, hfirst⟩)
  · exact fun h _ _ sig _ => h sig

/-- A signal that nobody has turned on. -/
theorem not_onlyActive_usr1 :
    (yoSigWait (history sigemptyset [.on .sigint none]).1 [.ok .usr1] none).2 =
        some (.ok, some .sigusr1) ∧
      ¬ OnlyActive (history sigemptyset [.on .sigint none]) [.ok .usr1] :=
  ⟨rfl, fun h => absurd (h none .sigusr1 rfl) (by decide)⟩

end Signals

end Yaooi
