import Mathlib.Data.Nat.Notation
import Mathlib.Logic.Function.Basic

/-!
# Transition systems

A system is a set of initial states together with a guarded step: `step s a` is
`some s'` when the action `a` is enabled in `s`, and `none` otherwise, so one
definition serves to replay a run and to reason about all of them.

* `Reach ok` is the set of states of the runs whose steps all meet the
  condition `ok`; `Reach.invariant` is the induction rule over it.
* `run` replays a list of actions, `Along` says that a condition holds at each
  step of a replay; `reach_of_run` and `reachable_of_run` turn a replay into a run, and
  `along_congr` and `along_iff_along` compare conditions step by step.
* `Always` says that a property holds in each state of a replay; `always_iff_along` finds
  the condition on the steps for it, `last_iff_along` that for a property at the end.
* `exists_run_stuck` and `length_le_of_run` run a system down along a measure.
* `logged` adds a log of what the steps did.
* `Simulates` relates two systems in lockstep, over the same actions;
  `Simulates.reach` carries reachability across.
-/

namespace Transition

/-- A transition system over states `S` and actions `A`. -/
structure System (S A : Type*) where
  /-- The states a run may start in. -/
  init : S → Prop
  /-- The step an action makes, where it is enabled. -/
  step : S → A → Option S

namespace System

variable {S S' A : Type*} (T : System S A)

/-- The states of the runs all of whose steps meet `ok`. -/
inductive Reach (ok : S → A → Prop) : S → Prop
  | init {s : S} : T.init s → Reach ok s
  | step {s s' : S} {a : A} : Reach ok s → ok s a → T.step s a = some s' → Reach ok s'

/-- The states of all runs. -/
abbrev Reachable : S → Prop := T.Reach fun _ _ => True

variable {T} {ok ok' : S → A → Prop} {P : S → Prop} {s s' : S}

/-- **The invariant rule.**  What holds initially and is kept by every permitted
step holds in every state of a run. -/
theorem Reach.invariant (h : T.Reach ok s) (hinit : ∀ s, T.init s → P s)
    (hstep : ∀ s a s', T.Reach ok s → P s → ok s a → T.step s a = some s' → P s') : P s := by
  induction h with
  | init h0 => exact hinit _ h0
  | step hr hok hs ih => exact hstep _ _ _ hr ih hok hs

/-- Fewer permitted steps reach fewer states. -/
theorem Reach.mono (h : T.Reach ok s) (hsub : ∀ s a, ok s a → ok' s a) : T.Reach ok' s := by
  induction h with
  | init h0 => exact .init h0
  | step _ hok hs ih => exact .step ih (hsub _ _ hok) hs

theorem Reach.reachable (h : T.Reach ok s) : T.Reachable s := h.mono fun _ _ _ => trivial

variable (T) in
/-- Replay a list of actions. -/
def run (s : S) (as : List A) : Option S := as.foldlM T.step s

@[simp] theorem run_nil : T.run s [] = some s := rfl

@[simp] theorem run_cons {a : A} {as : List A} :
    T.run s (a :: as) = (T.step s a).bind fun t => T.run t as := rfl

theorem run_append {as bs : List A} :
    T.run s (as ++ bs) = (T.run s as).bind fun t => T.run t bs := by
  simp only [run, List.foldlM_append]
  rfl

variable (T) in
/-- `φ` holds at every step of the replay of `as` from `s`. -/
def Along (φ : S → A → Prop) : S → List A → Prop
  | _, [] => True
  | s, a :: as => φ s a ∧ ∀ t, T.step s a = some t → Along φ t as

/-- Where a replay whose steps are permitted ends, a run gets. -/
theorem reach_of_run {as : List A} (h : T.Reach ok s) (hok : T.Along ok s as)
    (hrun : T.run s as = some s') : T.Reach ok s' := by
  induction as generalizing s with
  | nil => exact Option.some.inj hrun ▸ h
  | cons a as ih =>
    obtain ⟨t, ht, hrest⟩ := Option.bind_eq_some_iff.mp (run_cons ▸ hrun)
    exact ih (h.step hok.1 ht) (hok.2 t ht) hrest

/-- What holds of every step with one of the actions holds along their replay. -/
theorem along_of_mem {φ : S → A → Prop} {as : List A} (hφ : ∀ a ∈ as, ∀ s, φ s a) (s : S) :
    T.Along φ s as := by
  induction as generalizing s with
  | nil => trivial
  | cons a as ih =>
    refine ⟨hφ a (List.mem_cons_self ..) s, fun t _ => ih (fun b hb => ?_) t⟩
    exact hφ b (List.mem_cons_of_mem _ hb)

/-- What holds of every step holds along every replay. -/
theorem along_of_forall {φ : S → A → Prop} (hφ : ∀ s a, φ s a) (s : S) (as : List A) :
    T.Along φ s as :=
  along_of_mem (fun a _ s => hφ s a) s

/-- A condition holds along a replay if it does along its parts. -/
theorem along_append {φ : S → A → Prop} {as bs : List A} (has : T.Along φ s as)
    (hbs : ∀ t, T.run s as = some t → T.Along φ t bs) : T.Along φ s (as ++ bs) := by
  induction as generalizing s with
  | nil => exact hbs s rfl
  | cons a as ih =>
    refine ⟨has.1, fun t ht => ih (has.2 t ht) fun u hu => hbs u ?_⟩
    rw [run_cons, ht]
    exact hu

/-- Two conditions hold along a replay together. -/
theorem Along.and {φ ψ : S → A → Prop} {as : List A} (hφ : T.Along φ s as)
    (hψ : T.Along ψ s as) : T.Along (fun s a => φ s a ∧ ψ s a) s as := by
  induction as generalizing s with
  | nil => trivial
  | cons a as ih => exact ⟨⟨hφ.1, hψ.1⟩, fun t ht => ih (hφ.2 t ht) (hψ.2 t ht)⟩

/-- What holds along a replay holds at its last step. -/
theorem Along.at_end {φ : S → A → Prop} {as : List A} {a : A} (hall : T.Along φ s (as ++ [a]))
    (hrun : T.run s as = some s') : φ s' a := by
  induction as generalizing s with
  | nil => exact Option.some.inj hrun ▸ hall.1
  | cons b as ih =>
    obtain ⟨t, ht, hrest⟩ := Option.bind_eq_some_iff.mp (run_cons ▸ hrun)
    exact ih (hall.2 t ht) hrest

/-- Every replay from an initial state is a run. -/
theorem reachable_of_run {as : List A} (h : T.init s) (hrun : T.run s as = some s') :
    T.Reachable s' :=
  reach_of_run (.init h) (along_of_forall (fun _ _ => trivial) s as) hrun

/-- **Conditions that agree for as long as they hold.**  Where two conditions on a step agree in the
states with `I`, and a step that meets them keeps `I`, they agree along every replay. -/
theorem along_iff_along {I : S → Prop} {φ ψ : S → A → Prop} {as : List A}
    (hstep : ∀ s a t, I s → T.step s a = some t → (φ s a ↔ ψ s a) ∧ (φ s a → I t)) (hs : I s)
    (hrun : T.run s as = some s') : T.Along φ s as ↔ T.Along ψ s as := by
  induction as generalizing s with
  | nil => exact Iff.rfl
  | cons a as ih =>
    obtain ⟨t, ht, hrest⟩ := Option.bind_eq_some_iff.mp (run_cons ▸ hrun)
    have heq : ∀ u, T.step s a = some u → u = t := fun u hu => Option.some.inj (hu.symm.trans ht)
    obtain ⟨hiff, hkeep⟩ := hstep s a t hs ht
    rw [Along, Along, ← hiff]
    refine and_congr_right fun hφ => ?_
    have htail := ih (hkeep hφ) hrest
    constructor
    · intro hall u hu
      rw [heq u hu]
      exact htail.mp (hall t ht)
    · intro hall u hu
      rw [heq u hu]
      exact htail.mpr (hall t ht)

/-- Conditions that agree at every step of every run agree along every replay. -/
theorem along_congr {φ ψ : S → A → Prop} {as : List A} (h : T.Reachable s)
    (hφψ : ∀ s a t, T.Reachable s → T.step s a = some t → (φ s a ↔ ψ s a))
    (hrun : T.run s as = some s') : T.Along φ s as ↔ T.Along ψ s as := by
  refine along_iff_along (I := T.Reachable) (fun s a t hs hst => ?_) h hrun
  exact ⟨hφψ s a t hs hst, fun _ => hs.step trivial hst⟩

/-- What every permitted step keeps, a replay of such steps keeps. -/
theorem Along.invariant {φ : S → A → Prop} {as : List A} (hall : T.Along φ s as)
    (hstep : ∀ s a t, P s → φ s a → T.step s a = some t → P t) (hs : P s)
    (hrun : T.run s as = some s') : P s' := by
  induction as generalizing s with
  | nil => exact Option.some.inj hrun ▸ hs
  | cons a as ih =>
    obtain ⟨t, ht, hrest⟩ := Option.bind_eq_some_iff.mp (run_cons ▸ hrun)
    exact ih (hall.2 t ht) (hstep s a t hs hall.1 ht) hrest

/-- What every step keeps, a replay keeps. -/
theorem run_invariant {as : List A} (hstep : ∀ s a t, P s → T.step s a = some t → P t) (hs : P s)
    (hrun : T.run s as = some s') : P s' :=
  (along_of_forall (fun _ _ => trivial) s as).invariant (fun s a t hs _ => hstep s a t hs) hs hrun

variable (T) in
/-- `P` holds in every state of the replay of `as` from `s`. -/
def Always (P : S → Prop) : S → List A → Prop
  | s, [] => P s
  | s, a :: as => P s ∧ ∀ t, T.step s a = some t → Always P t as

theorem Always.head {as : List A} (h : T.Always P s as) : P s := by
  cases as with
  | nil => exact h
  | cons a as => exact h.1

theorem Always.last {as : List A} (h : T.Always P s as) (hrun : T.run s as = some s') : P s' := by
  induction as generalizing s with
  | nil => exact Option.some.inj hrun ▸ h
  | cons a as ih =>
    obtain ⟨t, ht, hrest⟩ := Option.bind_eq_some_iff.mp (run_cons ▸ hrun)
    exact ih (h.2 t ht) hrest

/-- **What keeps a property.**  Where a step keeps `P` if and only if it meets `φ`, and a step that
keeps `P` keeps `I`, the property `P` holds throughout a replay if and only if all of its steps
meet `φ`. -/
theorem always_iff_along {I : S → Prop} {φ : S → A → Prop} (ok : A → Prop) {as : List A}
    (hstep : ∀ s a t, I s → ok a → P s → T.step s a = some t → (P t ↔ φ s a) ∧ (P t → I t))
    (hs : I s) (hP : P s) (hok : ∀ a ∈ as, ok a) (hrun : T.run s as = some s') :
    T.Always P s as ↔ T.Along φ s as := by
  induction as generalizing s with
  | nil => exact ⟨fun _ => trivial, fun _ => hP⟩
  | cons a as ih =>
    obtain ⟨t, ht, hrest⟩ := Option.bind_eq_some_iff.mp (run_cons ▸ hrun)
    have heq : ∀ u, T.step s a = some u → u = t := fun u hu => Option.some.inj (hu.symm.trans ht)
    obtain ⟨hkeep, hI⟩ := hstep s a t hs (hok a (List.mem_cons_self ..)) hP ht
    have htail := fun hPt => ih (hI hPt) hPt (fun b hb => hok b (List.mem_cons_of_mem _ hb)) hrest
    constructor
    · rintro ⟨-, hall⟩
      have hPt : P t := (hall t ht).head
      refine ⟨hkeep.mp hPt, fun u hu => ?_⟩
      rw [heq u hu]
      exact (htail hPt).mp (hall t ht)
    · rintro ⟨hφ, hall⟩
      have hPt : P t := hkeep.mpr hφ
      refine ⟨hP, fun u hu => ?_⟩
      rw [heq u hu]
      exact (htail hPt).mpr (hall t ht)

/-- **What is lost for good.**  Where a step leaves `P` if and only if `P` held and the step meets
`φ`, the property `P` holds at the end of a replay if and only if all of its steps meet `φ`. -/
theorem last_iff_along {I : S → Prop} {φ : S → A → Prop} (ok : A → Prop) {as : List A}
    (hstep : ∀ s a t, I s → ok a → T.step s a = some t → I t ∧ (P t ↔ P s ∧ φ s a))
    (hs : I s) (hP : P s) (hok : ∀ a ∈ as, ok a) (hrun : T.run s as = some s') :
    P s' ↔ T.Along φ s as := by
  have hlost : ∀ {s as}, I s → ¬ P s → (∀ a ∈ as, ok a) → T.run s as = some s' → ¬ P s' := by
    intro s as hs hP hok hrun
    induction as generalizing s with
    | nil => exact Option.some.inj hrun ▸ hP
    | cons a as ih =>
      obtain ⟨t, ht, hrest⟩ := Option.bind_eq_some_iff.mp (run_cons ▸ hrun)
      obtain ⟨hI, hiff⟩ := hstep s a t hs (hok a (List.mem_cons_self ..)) ht
      exact ih hI (fun h => hP (hiff.mp h).1) (fun b hb => hok b (List.mem_cons_of_mem _ hb)) hrest
  induction as generalizing s with
  | nil => exact ⟨fun _ => trivial, fun _ => Option.some.inj hrun ▸ hP⟩
  | cons a as ih =>
    obtain ⟨t, ht, hrest⟩ := Option.bind_eq_some_iff.mp (run_cons ▸ hrun)
    have heq : ∀ u, T.step s a = some u → u = t := fun u hu => Option.some.inj (hu.symm.trans ht)
    obtain ⟨hI, hiff⟩ := hstep s a t hs (hok a (List.mem_cons_self ..)) ht
    have hok' : ∀ b ∈ as, ok b := fun b hb => hok b (List.mem_cons_of_mem _ hb)
    by_cases hφ : φ s a
    · have htail := ih hI (hiff.mpr ⟨hP, hφ⟩) hok' hrest
      apply htail.trans
      constructor
      · intro h
        exact ⟨hφ, fun u hu => heq u hu ▸ h⟩
      · intro h
        exact h.2 t ht
    · refine iff_of_false ?_ fun h => hφ h.1
      exact hlost hI (fun h => hφ (hiff.mp h).2) hok' hrest

/-- **Running down.**  Where the permitted actions keep `P` and decrease a measure, they lead to
a state in which none of them is enabled. -/
theorem exists_run_stuck {ok : A → Prop} (μ : S → ℕ)
    (hstep : ∀ s a t, P s → ok a → T.step s a = some t → P t ∧ μ t < μ s) (hs : P s) :
    ∃ as t, T.run s as = some t ∧ (∀ a ∈ as, ok a) ∧ P t ∧ ∀ a, ok a → T.step t a = none := by
  induction hn : μ s using Nat.strongRecOn generalizing s with
  | ind n ih =>
    by_cases hmore : ∃ a u, ok a ∧ T.step s a = some u
    · obtain ⟨a, u, ha, hu⟩ := hmore
      obtain ⟨hPu, hlt⟩ := hstep s a u hs ha hu
      obtain ⟨as, t, hrun, hok, hPt, hend⟩ := ih (μ u) (hn ▸ hlt) hPu rfl
      refine ⟨a :: as, t, ?_, List.forall_mem_cons.mpr ⟨ha, hok⟩, hPt, hend⟩
      rw [run_cons, hu]
      exact hrun
    · refine ⟨[], s, rfl, by simp, hs, fun a ha => ?_⟩
      exact Option.eq_none_iff_forall_ne_some.mpr fun u hu => hmore ⟨a, u, ha, hu⟩

/-- **Bounded runs.**  Where the permitted actions keep `P` and decrease a measure, a replay has no
more of them than the measure. -/
theorem length_le_of_run (ok : A → Prop) {as : List A} (μ : S → ℕ)
    (hstep : ∀ s a t, P s → ok a → T.step s a = some t → P t ∧ μ t < μ s) (hs : P s)
    (hok : ∀ a ∈ as, ok a) (hrun : T.run s as = some s') : as.length ≤ μ s := by
  induction as generalizing s with
  | nil => exact Nat.zero_le _
  | cons a as ih =>
    obtain ⟨t, ht, hrest⟩ := Option.bind_eq_some_iff.mp (run_cons ▸ hrun)
    obtain ⟨hP, hlt⟩ := hstep s a t hs (hok a (List.mem_cons_self ..)) ht
    have := ih hP (fun b hb => hok b (List.mem_cons_of_mem _ hb)) hrest
    simp only [List.length_cons]
    omega

/-! ## Logs -/

section Log

variable {E : Type*} {record : S → A → S → List E} {l : List E}

variable (T record) in
/-- The system with a log, to which every step adds what `record` makes of it. -/
def logged : System (S × List E) A where
  init s := T.init s.1 ∧ s.2 = []
  step s a := (T.step s.1 a).map fun t => (t, s.2 ++ record s.1 a t)

theorem logged_step {s t : S × List E} {a : A} :
    (T.logged record).step s a = some t ↔
      T.step s.1 a = some t.1 ∧ t.2 = s.2 ++ record s.1 a t.1 := by
  simp only [logged, Option.map_eq_some_iff]
  constructor
  · rintro ⟨u, hu, rfl⟩
    exact ⟨hu, rfl⟩
  · rintro ⟨hu, hl⟩
    exact ⟨t.1, hu, by rw [← hl]⟩

/-- The first step of a replay with the log. -/
theorem logged_run_cons {t : S} {a : A} {as : List A} (hst : T.step s a = some t) :
    (T.logged record).run (s, l) (a :: as) =
      (T.logged record).run (t, l ++ record s a t) as := by
  rw [run_cons, logged_step (t := (t, l ++ record s a t)) |>.mpr ⟨hst, rfl⟩]
  rfl

/-- The log does not change where a run can get. -/
theorem Reach.of_logged {s : S × List E} (h : (T.logged record).Reach (fun s a => ok s.1 a) s) :
    T.Reach ok s.1 := by
  induction h with
  | init h0 => exact .init h0.1
  | step _ hok hs ih => exact ih.step hok (logged_step.mp hs).1

end Log

/-! ## Simulation -/

/-- `R` is kept in lockstep: related states take the same actions to related states. -/
structure Simulates (T : System S A) (T' : System S' A) (R : S → S' → Prop) : Prop where
  init : ∀ s, T.init s → ∃ s', T'.init s' ∧ R s s'
  step : ∀ s s' a t, T'.Reachable s' → R s s' → T.step s a = some t →
    ∃ t', T'.step s' a = some t' ∧ R t t'

/-- **Simulation.**  Every state of a run of the simulated system is related to a state
that the simulating system reaches by the same actions, and a condition on the steps is
carried across when related states agree on it. -/
theorem Simulates.reach {T' : System S' A} {R : S → S' → Prop} (h : Simulates T T' R)
    {φ : S → A → Prop} {ψ : S' → A → Prop} (hφψ : ∀ s s' a, R s s' → φ s a → ψ s' a)
    (hr : T.Reach φ s) : ∃ s', T'.Reach ψ s' ∧ R s s' := by
  induction hr with
  | init h0 =>
    obtain ⟨s', h0', hR⟩ := h.init _ h0
    exact ⟨s', .init h0', hR⟩
  | step _ hok hs ih =>
    obtain ⟨s', hr', hR⟩ := ih
    obtain ⟨t', ht', hR'⟩ := h.step _ _ _ _ hr'.reachable hR hs
    exact ⟨t', hr'.step (hφψ _ _ _ hR hok) ht', hR'⟩

end System

end Transition
