import Mathlib.Logic.Function.Basic

/-!
# Mutual exclusion

A mutex is modelled by its owner, an optional thread.  `Owns owner inside` says that the
owner is exactly the thread whose program counter lies inside a section the mutex protects;
it is what acquiring, releasing and the steps in between keep.

For programs with several mutexes, `Op` is what one step of a thread does to them, and `owns_apply`
reduces mutual exclusion for all of them to a table: which mutexes a thread holds at each
program counter.
-/

namespace Mutex

variable {τ : Type*}

/-- The owner of the mutex is the one thread inside its sections. -/
def Owns (owner : Option τ) (inside : τ → Prop) : Prop := ∀ t, owner = some t ↔ inside t

variable {owner : Option τ} {inside inside' : τ → Prop} {t : τ}

/-- A step that neither enters nor leaves a section. -/
theorem Owns.congr (h : Owns owner inside) (heq : ∀ t, inside' t ↔ inside t) :
    Owns owner inside' := fun t => (h t).trans (heq t).symm

/-- While the mutex is free nobody is inside. -/
theorem Owns.not_inside (h : Owns none inside) (t : τ) : ¬ inside t := by
  intro ht
  simpa using (h t).mpr ht

/-- Taking a free mutex. -/
theorem Owns.acquire (h : Owns none inside) (ht : inside' t)
    (hne : ∀ u, u ≠ t → (inside' u ↔ inside u)) : Owns (some t) inside' := by
  intro u
  by_cases hu : u = t
  · subst hu
    simpa using ht
  · rw [hne u hu]
    simpa [Ne.symm hu] using h.not_inside u

/-- Giving the mutex back. -/
theorem Owns.release (h : Owns (some t) inside) (ht : ¬ inside' t)
    (hne : ∀ u, u ≠ t → (inside' u ↔ inside u)) : Owns none inside' := by
  intro u
  by_cases hu : u = t
  · subst hu
    simpa using ht
  · rw [hne u hu, ← h u]
    simpa using Ne.symm hu

/-! ## Several mutexes -/

variable {L : Type*}

/-- What a step of a thread does to the mutexes. -/
inductive Op (L : Type*) where
  | skip
  /-- Takes one, as soon as it is free. -/
  | take (l : L)
  | give (l : L)
  deriving DecidableEq

namespace Op

/-- The mutexes a thread holds after a step. -/
def after (op : Op L) (holds : L → Prop) (l : L) : Prop :=
  match op with
  | skip => holds l
  | take k => l = k ∨ holds l
  | give k => l ≠ k ∧ holds l

variable [DecidableEq L]

/-- The owners after a step of the thread `t`, none while the mutex it wants is taken. -/
def apply (op : Op L) (t : τ) (own : L → Option τ) : Option (L → Option τ) :=
  match op with
  | skip => some own
  | take l => if (own l).isNone then some (Function.update own l (some t)) else none
  | give l => some (Function.update own l none)

/-- Only a mutex that is taken keeps a thread from its step. -/
theorem isSome_apply {op : Op L} {own : L → Option τ} (h : ∀ l, op = take l → own l = none) :
    (op.apply t own).isSome = true := by
  cases op with
  | skip => rfl
  | take l => simp [apply, h l rfl]
  | give l => rfl

end Op

variable [DecidableEq L]

/-- **Mutual exclusion from a table.**  Each mutex is owned by the thread that holds it, if the
table says of the thread that moves what its step does, and of the others that nothing changed. -/
theorem owns_apply {op : Op L} {own own' : L → Option τ} {holds holds' : τ → L → Prop}
    (h : ∀ l, Owns (own l) (holds · l)) (hop : op.apply t own = some own')
    (hself : ∀ l, holds' t l ↔ op.after (holds t) l) (hgive : ∀ l, op = .give l → holds t l)
    (hother : ∀ u, u ≠ t → ∀ l, holds' u l ↔ holds u l) (l : L) : Owns (own' l) (holds' · l) := by
  cases op with
  | skip =>
    cases hop
    refine (h l).congr fun u => ?_
    by_cases hu : u = t
    · exact hu ▸ hself l
    · exact hother u hu l
  | take k =>
    simp only [Op.apply, Option.isNone_iff_eq_none] at hop
    split at hop
    · rename_i hfree
      cases hop
      by_cases hl : l = k
      · subst hl
        rw [Function.update_self]
        refine Owns.acquire (hfree ▸ h l) ((hself l).mpr (.inl rfl)) fun u hu => hother u hu l
      · rw [Function.update_of_ne hl]
        refine (h l).congr fun u => ?_
        by_cases hu : u = t
        · subst hu
          rw [hself l]
          simp [Op.after, hl]
        · exact hother u hu l
    · cases hop
  | give k =>
    cases hop
    by_cases hl : l = k
    · subst hl
      rw [Function.update_self]
      have hown : own l = some t := (h l t).mpr (hgive l rfl)
      refine Owns.release (hown ▸ h l) ?_ fun u hu => hother u hu l
      rw [hself l]
      simp [Op.after]
    · rw [Function.update_of_ne hl]
      refine (h l).congr fun u => ?_
      by_cases hu : u = t
      · subst hu
        rw [hself l]
        simp [Op.after, hl]
      · exact hother u hu l

end Mutex
