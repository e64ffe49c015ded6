import Mathlib.Algebra.Order.Group.Nat
import Mathlib.Algebra.GroupWithZero.Nat
import Yaooi.Lib.ArgSplit

/-!
# Joining arguments without quoting them

What becomes of arguments that are put into a command line as they are, with a blank between them.

* `Reads`: an unquoted argument is read unit by unit.
* `weight_split_le`: a line gives no more units than it has, and each quote costs one.
* `split_join_iff`: the arguments are found again if and only if none is empty and none has a blank
  or a quote.
-/

namespace ArgSplit

open State

variable {α : Type*} [DecidableEq α]

/-- The arguments, with the separator between them. -/
def join (sep : α) : List (List α) → List α
  | [] => []
  | a :: l => a ++ l.flatMap (sep :: ·)

variable (m : Marks α)

/-- The unit is neither a blank nor a quote. -/
def PlainUnit (u : α) : Prop := m.blank u = false ∧ u ≠ m.quote

/-- An argument that needs no quotes. -/
def Plain (a : List α) : Prop := a ≠ [] ∧ ∀ u ∈ a, PlainUnit m u

/-- The machine is in an argument, of which it has read `t`. -/
def Reads (s : State α) (t : List α) (d : List (List α)) : Prop :=
  s.quoted = false ∧ s.done = d ∧ ∃ b, s.cur = some b ∧ t = b ++ List.replicate s.backs m.backslash

variable {m} {s : State α} {t a : List α} {d l : List (List α)} {u c sep : α}

/-! ## Plain arguments -/

/-- One more unit. -/
theorem Reads.step (h : Reads m s t d) (hu : PlainUnit m u) :
    Reads m (step m s u) (t ++ [u]) d := by
  obtain ⟨hquoted, hdone, b, hcur, rfl⟩ := h
  unfold ArgSplit.step
  by_cases hback : u = m.backslash
  · rw [if_pos hback]
    refine ⟨hquoted, hdone, b, by simp [hcur], ?_⟩
    rw [hback, List.replicate_succ', List.append_assoc]
  · rw [if_neg hback, if_neg hu.2]
    rw [if_neg (by simp [hu.1])]
    exact ⟨hquoted, hdone, b ++ (List.replicate s.backs m.backslash ++ [u]), by simp [add, hcur],
      by simp [add]⟩

/-- The first unit. -/
theorem reads_first (hu : PlainUnit m u) : Reads m (step m ⟨false, 0, none, d⟩ u) [u] d := by
  unfold ArgSplit.step
  by_cases hback : u = m.backslash
  · rw [if_pos hback]
    exact ⟨rfl, rfl, [], rfl, by simp [hback]⟩
  · rw [if_neg hback, if_neg hu.2]
    rw [if_neg (by simp [hu.1])]
    exact ⟨rfl, rfl, [u], by simp [add], by simp [add]⟩

/-- More units. -/
theorem Reads.run (h : Reads m s t d) (ha : ∀ u ∈ a, PlainUnit m u) :
    Reads m (run m s a) (t ++ a) d := by
  induction a generalizing s t with
  | nil => simpa using h
  | cons u a ih =>
    have hu : Reads m (ArgSplit.step m s u) (t ++ [u]) d := h.step (ha u (List.mem_cons_self ..))
    have hrest := ih hu fun v hv => ha v (List.mem_cons_of_mem _ hv)
    rw [List.append_assoc] at hrest
    exact hrest

/-- A whole argument. -/
theorem reads_plain (ha : Plain m a) : Reads m (run m ⟨false, 0, none, d⟩ a) a d := by
  obtain ⟨hne, ha⟩ := ha
  obtain ⟨u, a, rfl⟩ := List.exists_cons_of_ne_nil hne
  have hu : Reads m (ArgSplit.step m ⟨false, 0, none, d⟩ u) [u] d :=
    reads_first (ha u (List.mem_cons_self ..))
  exact hu.run fun v hv => ha v (List.mem_cons_of_mem _ hv)

omit [DecidableEq α] in
/-- The end of an argument. -/
theorem Reads.close (h : Reads m s t d) : s.close m = ⟨false, 0, none, d ++ [t]⟩ := by
  obtain ⟨hquoted, rfl, b, hcur, rfl⟩ := h
  simp [State.close, hcur, hquoted]

/-- A blank ends an argument. -/
theorem Reads.blank (h : Reads m s t d) (hc : m.blank c = true) :
    ArgSplit.step m s c = ⟨false, 0, none, d ++ [t]⟩ := by
  have hback : c ≠ m.backslash := by
    rintro rfl
    exact absurd hc (by simp [m.blank_backslash])
  have hquote : c ≠ m.quote := by
    rintro rfl
    exact absurd hc (by simp [m.blank_quote])
  have hclose : (m.blank c && !s.quoted) = true := by simp [hc, h.1]
  rw [ArgSplit.step, if_neg hback, if_neg hquote, if_pos hclose, h.close]

/-- Plain arguments are found again. -/
theorem done_run_join (hsep : m.blank sep = true) (h : Reads m s a d) (hl : ∀ a ∈ l, Plain m a) :
    ((run m s (l.flatMap (sep :: ·))).close m).done = d ++ a :: l := by
  induction l generalizing s a d with
  | nil => rw [List.flatMap_nil, run_nil, h.close]
  | cons b l ih =>
    have hb : Reads m (run m (ArgSplit.step m s sep) b) b (d ++ [a]) := by
      rw [h.blank hsep]
      exact reads_plain (hl b (List.mem_cons_self ..))
    have hrest := ih hb fun x hx => hl x (List.mem_cons_of_mem _ hx)
    simpa [run] using hrest

/-! ## What the machine can find -/

/-- The units found so far, and one for the end of each argument. -/
def weight (s : State α) : ℕ :=
  (s.done.map fun a => a.length + 1).sum + (s.cur.getD []).length + s.backs

omit [DecidableEq α] in
/-- The end of an argument counts for one. -/
theorem weight_close_le : weight (s.close m) ≤ weight s + 1 := by
  unfold State.close
  split
  · exact Nat.le_succ _
  · rename_i b hb
    simp [weight, hb]
    omega

/-- A unit adds no more than one, and a quote nothing. -/
theorem weight_step_le : weight (step m s u) + (if u = m.quote then 1 else 0) ≤ weight s + 1 := by
  unfold ArgSplit.step
  by_cases hback : u = m.backslash
  · have hquote : u ≠ m.quote := by
      rw [hback]
      exact Ne.symm m.quote_ne
    simp only [if_pos hback, if_neg hquote, weight, Option.getD_some]
    omega
  · rw [if_neg hback]
    by_cases hquote : u = m.quote
    · simp only [if_pos hquote]
      split
      · simp only [weight, add, Option.getD_some, List.length_append, List.length_replicate]
        omega
      · simp only [weight, add, Option.getD_some, List.length_append, List.length_replicate,
          List.length_singleton]
        omega
    · rw [if_neg hquote, if_neg hquote]
      split
      · exact weight_close_le
      · simp only [weight, add, Option.getD_some, List.length_append, List.length_replicate,
          List.length_singleton]
        omega

/-- So do the units of a line. -/
theorem weight_run_le : weight (run m s t) + t.count m.quote ≤ weight s + t.length := by
  induction t generalizing s with
  | nil => simp
  | cons u t ih =>
    have hstep : weight (ArgSplit.step m s u) + _ ≤ _ := weight_step_le
    have hrest : weight (run m (ArgSplit.step m s u) t) + t.count m.quote ≤ _ := ih
    show weight (run m (ArgSplit.step m s u) t) + _ ≤ _
    rw [List.count_cons, List.length_cons]
    simp only [beq_iff_eq]
    omega

/-- **What a line gives.** -/
theorem weight_split_le :
    ((split m t).map fun a => a.length + 1).sum + t.count m.quote ≤ t.length + 1 := by
  have hrun : weight (run m start t) + t.count m.quote ≤ weight start + t.length := weight_run_le
  have hclose : weight ((run m start t).close m) ≤ _ := weight_close_le
  have hzero : weight (start : State α) = 0 := rfl
  have hdone : ((split m t).map fun a => a.length + 1).sum ≤ weight ((run m start t).close m) := by
    unfold weight split
    omega
  omega

/-- The machine has found plain arguments only. -/
def FoundPlain (m : Marks α) (s : State α) : Prop :=
  (∃ d, s = ⟨false, 0, none, d⟩ ∧ ∀ a ∈ d, Plain m a) ∨
    ∃ t d, Reads m s t d ∧ Plain m t ∧ ∀ a ∈ d, Plain m a

/-- Without a quote it finds no others. -/
theorem FoundPlain.step (h : FoundPlain m s) (hu : u ≠ m.quote) :
    FoundPlain m (ArgSplit.step m s u) := by
  cases hblank : m.blank u with
  | true =>
    obtain ⟨d, rfl, hd⟩ | ⟨t, d, hreads, ht, hd⟩ := h
    · refine .inl ⟨d, ?_, hd⟩
      have hback : u ≠ m.backslash := by
        rintro rfl
        exact absurd hblank (by simp [m.blank_backslash])
      simp [ArgSplit.step, hback, hu, hblank, State.close]
    · refine .inl ⟨d ++ [t], hreads.blank hblank, fun a ha => ?_⟩
      rcases List.mem_append.mp ha with ha | ha
      · exact hd a ha
      · rwa [List.mem_singleton.mp ha]
  | false =>
    obtain ⟨d, rfl, hd⟩ | ⟨t, d, hreads, ht, hd⟩ := h
    · refine .inr ⟨[u], d, reads_first ⟨hblank, hu⟩, ⟨by simp, fun v hv => ?_⟩, hd⟩
      rw [List.mem_singleton.mp hv]
      exact ⟨hblank, hu⟩
    · refine .inr ⟨t ++ [u], d, hreads.step ⟨hblank, hu⟩, ⟨by simp, fun v hv => ?_⟩, hd⟩
      rcases List.mem_append.mp hv with hv | hv
      · exact ht.2 v hv
      · rw [List.mem_singleton.mp hv]
        exact ⟨hblank, hu⟩

theorem FoundPlain.run (h : FoundPlain m s) (ht : m.quote ∉ t) : FoundPlain m (run m s t) := by
  induction t generalizing s with
  | nil => exact h
  | cons u t ih =>
    have hu : u ≠ m.quote := fun e => ht (e ▸ List.mem_cons_self ..)
    exact ih (h.step hu) fun hmem => ht (List.mem_cons_of_mem _ hmem)

/-- A line without a quote gives plain arguments. -/
theorem plain_of_split (ht : m.quote ∉ t) (ha : a ∈ split m t) : Plain m a := by
  have hstart : FoundPlain m (start : State α) := .inl ⟨[], rfl, by simp⟩
  unfold split at ha
  obtain ⟨d, hs, hd⟩ | ⟨b, d, hreads, hb, hd⟩ := hstart.run ht
  · rw [hs] at ha
    exact hd a ha
  · rw [hreads.close] at ha
    rcases List.mem_append.mp ha with ha | ha
    · exact hd a ha
    · rwa [List.mem_singleton.mp ha]

omit [DecidableEq α] in
/-- The length of a line. -/
theorem length_join (a : List α) (l : List (List α)) :
    (join sep (a :: l)).length + 1 = ((a :: l).map fun a => a.length + 1).sum := by
  have htail : ∀ l : List (List α),
      (l.flatMap (sep :: ·)).length = (l.map fun a => a.length + 1).sum := by
    intro l
    simp [List.length_flatMap]
  rw [join, List.length_append, htail, List.map_cons, List.sum_cons]
  omega

/-- **When arguments need no quotes.**  Joined by blanks, they are found again if and only if none
is empty and none has a blank or a quote. -/
theorem split_join_iff (hsep : m.blank sep = true) (hl : l ≠ []) :
    split m (join sep l) = l ↔ ∀ a ∈ l, Plain m a := by
  obtain ⟨a, l, rfl⟩ := List.exists_cons_of_ne_nil hl
  constructor
  · intro heq
    have hweight : ((split m (join sep (a :: l))).map fun a => a.length + 1).sum + _ ≤ _ :=
      weight_split_le
    have hjoin : (join sep (a :: l)).length + 1 = _ := length_join a l
    rw [heq, ← hjoin] at hweight
    have hquote : m.quote ∉ join sep (a :: l) := List.count_eq_zero.mp (by omega)
    intro b hb
    rw [← heq] at hb
    exact plain_of_split hquote hb
  · intro hplain
    have ha : Reads m (run m start a) a [] := reads_plain (hplain a (List.mem_cons_self ..))
    have hrest := done_run_join hsep ha fun b hb => hplain b (List.mem_cons_of_mem _ hb)
    rw [split, join, run_append]
    exact hrest

end ArgSplit
