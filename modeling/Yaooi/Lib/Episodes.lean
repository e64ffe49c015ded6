import Mathlib.Data.List.Basic

/-!
# Rows of episodes

An episode is a thing of which a list of events is told, one after the other.  A log is a row of
episodes when it tells of whole ones and then of the first `n` events of another.

`Row.next`, `Row.last` and `Row.open_` are the steps of such a log: the next event of the episode in
hand, its last event, and the choice of another one.
-/

namespace Episodes

variable {E A : Type*} {events : E → List A} {log : List A} {n : ℕ} {e f : E} {a : A}

/-- The log tells of whole episodes, and then of the first `n` events of the episode `e`. -/
def Row (events : E → List A) (log : List A) (n : ℕ) (e : E) : Prop :=
  ∃ done : List E, log = done.flatMap events ++ (events e).take n

theorem Row.nil : Row events [] 0 e := ⟨[], by simp⟩

/-- The episode in hand counts only by what was told of it. -/
theorem Row.congr (h : Row events log n e) (he : (events f).take n = (events e).take n) :
    Row events log n f := by
  obtain ⟨done, rfl⟩ := h
  exact ⟨done, by rw [he]⟩

/-- Between two episodes the next one is open. -/
theorem Row.open_ (h : Row events log 0 e) : Row events log 0 f := h.congr rfl

/-- The next event of the episode in hand. -/
theorem Row.next (h : Row events log n e) (ha : (events e)[n]? = some a) :
    Row events (log ++ [a]) (n + 1) e := by
  obtain ⟨done, rfl⟩ := h
  refine ⟨done, ?_⟩
  rw [List.append_assoc, List.take_add_one, ha, Option.toList_some]

/-- The last event of the episode in hand: it is told to its end. -/
theorem Row.last (h : Row events log n e) (ha : (events e)[n]? = some a)
    (hn : n + 1 = (events e).length) : Row events (log ++ [a]) 0 f := by
  obtain ⟨done, hlog⟩ := h.next ha
  refine ⟨done ++ [e], ?_⟩
  rw [hlog, hn]
  simp

end Episodes
