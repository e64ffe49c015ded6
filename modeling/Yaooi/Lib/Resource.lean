import Mathlib.Data.List.Perm.Basic

/-!
# Resources that are acquired and released

A trace of acquisitions and releases, replayed over the list of what is held.  Releasing something
that is not held is an error of the trace.

* `Settled` says that the trace releases everything it acquires, each thing once.
* `held_frame` and `Settled.insert`: a settled trace may run in the middle of any other.
* `Settled.balanced`: as many releases as acquisitions.
-/

namespace Resource

/-- A resource is acquired or released. -/
inductive Event (α : Type*) where
  | acquire (a : α)
  | release (a : α)
  deriving DecidableEq, Repr

/-- The event is an acquisition. -/
def Event.acquires {α : Type*} : Event α → Bool
  | .acquire _ => true
  | .release _ => false

@[simp] theorem acquires_acquire {α : Type*} (a : α) : (Event.acquire a).acquires = true := rfl

@[simp] theorem acquires_release {α : Type*} (a : α) : (Event.release a).acquires = false := rfl

variable {α : Type*} [DecidableEq α]

/-- What is held after the events, if each release is of something held. -/
def held : List α → List (Event α) → Option (List α)
  | l, [] => some l
  | l, .acquire a :: es => held (a :: l) es
  | l, .release a :: es => if a ∈ l then held (l.erase a) es else none

/-- Everything that is acquired is released again, and nothing else. -/
def Settled (es : List (Event α)) : Prop := held [] es = some []

instance (es : List (Event α)) : Decidable (Settled es) :=
  inferInstanceAs (Decidable (held [] es = some []))

variable {l m k as bs : List α} {es fs gs : List (Event α)} {a : α}

@[simp] theorem held_nil : held l [] = some l := rfl

@[simp] theorem held_acquire : held l (.acquire a :: es) = held (a :: l) es := rfl

theorem held_release (h : a ∈ l) : held l (.release a :: es) = held (l.erase a) es := if_pos h

theorem held_append : held l (es ++ fs) = (held l es).bind fun m => held m fs := by
  induction es generalizing l with
  | nil => rfl
  | cons e es ih =>
    cases e with
    | acquire a => exact ih
    | release a =>
      rw [List.cons_append, held, held]
      split
      · exact ih
      · rfl

/-- What was held before and is not touched stays held. -/
theorem held_frame (h : held l es = some m) : held (l ++ k) es = some (m ++ k) := by
  induction es generalizing l with
  | nil =>
    obtain rfl := Option.some.inj h
    rfl
  | cons e es ih =>
    cases e with
    | acquire a => exact ih (l := a :: l) h
    | release a =>
      by_cases ha : a ∈ l
      · rw [held_release ha] at h
        rw [held_release (List.mem_append_left k ha), List.erase_append_left k ha]
        exact ih h
      · simp [held, ha] at h

/-- A settled trace leaves what is held as it is. -/
theorem Settled.keeps (h : Settled es) : held l es = some l := by
  simpa using held_frame (k := l) h

/-- A settled trace may run in the middle of another. -/
theorem Settled.insert (h : Settled es) (hfs : Settled (fs ++ gs)) : Settled (fs ++ es ++ gs) := by
  rw [Settled, held_append] at hfs
  rw [Settled, held_append, held_append]
  cases hheld : held [] fs with
  | none => simp [hheld] at hfs
  | some m => simpa [hheld, h.keeps] using hfs

/-- Acquired one after the other. -/
theorem held_acquires : held l (as.map .acquire) = some (as.reverse ++ l) := by
  induction as generalizing l with
  | nil => rfl
  | cons a as ih => simp [ih]

/-- All that is held is released, in any order. -/
theorem held_releases (h : bs.Perm l) : held l (bs.map .release) = some [] := by
  induction bs generalizing l with
  | nil => simp [List.nil_perm.mp h]
  | cons b bs ih =>
    rw [List.map_cons, held_release (h.subset (List.mem_cons_self ..))]
    exact ih (List.cons_perm_iff_perm_erase.mp h).2

/-- Acquire some resources, and release them in any order. -/
theorem settled_of_perm (as bs : List α) (h : bs.Perm as) :
    Settled (as.map Event.acquire ++ bs.map Event.release) := by
  rw [Settled, held_append, held_acquires, Option.bind_some, List.append_nil]
  exact held_releases (h.trans as.reverse_perm.symm)

/-! ## Counting -/

/-- Each acquisition adds one and each release takes one away. -/
theorem length_held (h : held l es = some m) :
    l.length + es.countP Event.acquires = m.length + es.countP (!·.acquires) := by
  induction es generalizing l with
  | nil =>
    obtain rfl := Option.some.inj h
    rfl
  | cons e es ih =>
    cases e with
    | acquire a =>
      have hrest := ih (l := a :: l) h
      rw [List.length_cons] at hrest
      rw [List.countP_cons_of_pos (by simp), List.countP_cons_of_neg (by simp)]
      omega
    | release a =>
      by_cases ha : a ∈ l
      · rw [held_release ha] at h
        have hrest := ih h
        have hpos : 0 < l.length := List.length_pos_of_mem ha
        rw [List.length_erase_of_mem ha] at hrest
        rw [List.countP_cons_of_neg (by simp), List.countP_cons_of_pos (by simp)]
        omega
      · simp [held, ha] at h

/-- A settled trace has as many releases as acquisitions. -/
theorem Settled.balanced (h : Settled es) :
    es.countP Event.acquires = es.countP (!·.acquires) := by
  simpa using length_held h

end Resource
