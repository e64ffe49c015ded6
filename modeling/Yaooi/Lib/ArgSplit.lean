import Mathlib.Data.Nat.Notation
import Mathlib.Tactic.Common

/-!
# Splitting a command line

How the arguments of a command line are told apart by the Microsoft rules, over any alphabet: a
machine that reads the line unit by unit.

* `2k` backslashes and a quote give `k` backslashes and begin or end a quotation, `2k + 1`
  backslashes and a quote give `k` backslashes and the quote; other backslashes stand for
  themselves (`run_quote_even`, `run_quote_odd`, `run_other`).
* Blanks outside a quotation separate the arguments (`run_blank`).
-/

namespace ArgSplit

/-- The units with a meaning of their own. -/
structure Marks (α : Type*) where
  quote : α
  backslash : α
  blank : α → Bool
  quote_ne : quote ≠ backslash
  blank_quote : blank quote = false
  blank_backslash : blank backslash = false

/-- The machine: whether it is in a quotation, the backslashes just read, the argument it is in, and
the arguments before that. -/
structure State (α : Type*) where
  quoted : Bool
  backs : ℕ
  cur : Option (List α)
  done : List (List α)

namespace State

variable {α : Type*}

/-- Before the first unit. -/
def start : State α := ⟨false, 0, none, []⟩

/-- The units are added to the argument, in place of the backslashes just read. -/
def add (s : State α) (l : List α) : State α :=
  { s with backs := 0, cur := some (s.cur.getD [] ++ l) }

/-- The argument ends. -/
def close (m : Marks α) (s : State α) : State α :=
  match s.cur with
  | none => s
  | some a =>
    { s with
      backs := 0
      cur := none
      done := s.done ++ [a ++ List.replicate s.backs m.backslash] }

end State

open State

variable {α : Type*} [DecidableEq α] (m : Marks α)

/-- A unit is read. -/
def step (s : State α) (c : α) : State α :=
  if c = m.backslash then { s with backs := s.backs + 1, cur := some (s.cur.getD []) }
  else if c = m.quote then
    let s' := s.add (List.replicate (s.backs / 2) m.backslash)
    if s.backs % 2 = 0 then { s' with quoted := !s.quoted } else s'.add [c]
  else if m.blank c && !s.quoted then s.close m
  else s.add (List.replicate s.backs m.backslash ++ [c])

/-- The units are read one after the other. -/
def run (s : State α) (l : List α) : State α := l.foldl (step m) s

/-- The arguments of a command line. -/
def split (l : List α) : List (List α) := ((run m start l).close m).done

variable {m} {s : State α} {a : List α} {c : α} {k : ℕ} {b : Bool} {d : List (List α)}

@[simp] theorem run_nil : run m s [] = s := rfl

@[simp] theorem run_append (l l' : List α) : run m s (l ++ l') = run m (run m s l) l' :=
  List.foldl_append

/-- Backslashes are counted. -/
theorem run_backslashes (n : ℕ) :
    run m ⟨b, n, some a, d⟩ (List.replicate k m.backslash) = ⟨b, n + k, some a, d⟩ := by
  induction k generalizing n with
  | zero => rfl
  | succ k ih =>
    have hstep : step m ⟨b, n, some a, d⟩ m.backslash = ⟨b, n + 1, some a, d⟩ := if_pos rfl
    rw [List.replicate_succ, run, List.foldl_cons, hstep]
    exact (ih (n + 1)).trans (by rw [Nat.add_right_comm, Nat.add_assoc])

/-- An even number of backslashes and a quote. -/
theorem run_quote_even :
    run m ⟨b, 0, some a, d⟩ (List.replicate (2 * k) m.backslash ++ [m.quote]) =
      ⟨!b, 0, some (a ++ List.replicate k m.backslash), d⟩ := by
  rw [run_append, run_backslashes, Nat.zero_add]
  simp [run, step, m.quote_ne, State.add]

/-- An odd number of backslashes and a quote. -/
theorem run_quote_odd :
    run m ⟨b, 0, some a, d⟩ (List.replicate (2 * k + 1) m.backslash ++ [m.quote]) =
      ⟨b, 0, some (a ++ (List.replicate k m.backslash ++ [m.quote])), d⟩ := by
  have hdiv : (2 * k + 1) / 2 = k := by omega
  rw [run_append, run_backslashes, Nat.zero_add]
  simp [run, step, m.quote_ne, State.add, hdiv]

/-- Backslashes and another unit, in a quotation. -/
theorem run_other (hback : c ≠ m.backslash) (hquote : c ≠ m.quote) :
    run m ⟨true, 0, some a, d⟩ (List.replicate k m.backslash ++ [c]) =
      ⟨true, 0, some (a ++ (List.replicate k m.backslash ++ [c])), d⟩ := by
  rw [run_append, run_backslashes, Nat.zero_add]
  simp [run, step, hback, hquote, State.add]

/-- A quotation begins where no argument has begun. -/
theorem run_open : run m ⟨false, 0, none, d⟩ [m.quote] = ⟨true, 0, some [], d⟩ := by
  simp [run, step, m.quote_ne, State.add]

/-- A blank outside a quotation ends the argument. -/
theorem run_blank (hblank : m.blank c = true) :
    run m ⟨false, 0, some a, d⟩ [c] = ⟨false, 0, none, d ++ [a]⟩ := by
  have hback : c ≠ m.backslash := by
    rintro rfl
    exact absurd hblank (by simp [m.blank_backslash])
  have hquote : c ≠ m.quote := by
    rintro rfl
    exact absurd hblank (by simp [m.blank_quote])
  simp [run, step, hback, hquote, hblank, State.close]

omit [DecidableEq α] in
/-- The end of the line ends the argument as well. -/
theorem close_some : State.close m ⟨b, 0, some a, d⟩ = ⟨b, 0, none, d ++ [a]⟩ := by
  simp [State.close]

end ArgSplit
