import Mathlib.Data.Fintype.Card
import Mathlib.Data.List.Basic
import Mathlib.Data.List.Nodup

/-!
# Null-terminated chains

A singly linked list in a memory is a start pointer and a `next` field: follow
`next` until the null pointer.  This file is about such chains over an arbitrary
type of pointers.

* `IsChain next null p l` says that following `next` from `p` visits exactly
  the nodes `l` and then ends.  Such an `l` is unique (`IsChain.unique`) and never
  repeats a node (`IsChain.nodup`): a chain that ends has no cycle.
* `walk`, `seek` and `sweep` are the three loops programs write over a chain:
  collect the nodes, look for the first one with a property, and change the
  memory node by node.  Each takes the number of rounds it may make and answers
  `none` when that was not enough; `walk_eq_some`, `seek_eq` and `sweep_eq` say
  what they compute on a chain that ends.  Over a finite type of pointers,
  `IsChain.length_lt_card` bounds the rounds once and for all.
-/

namespace Chain

variable {α : Type*}

/-- Following `next` from `p` visits the nodes `l`, in order, and then ends. -/
def IsChain (next : α → α) (null : α) : α → List α → Prop
  | p, [] => p = null
  | p, x :: l => p = x ∧ x ≠ null ∧ IsChain next null (next x) l

variable {next next' : α → α} {null p : α} {l l' : List α}

@[simp] theorem isChain_nil : IsChain next null p [] ↔ p = null := Iff.rfl

@[simp] theorem isChain_cons {x : α} :
    IsChain next null p (x :: l) ↔ p = x ∧ x ≠ null ∧ IsChain next null (next x) l := Iff.rfl

/-- The nodes of a chain are determined by where it starts. -/
theorem IsChain.unique (h : IsChain next null p l) (h' : IsChain next null p l') : l = l' := by
  induction l generalizing p l' with
  | nil =>
    cases l' with
    | nil => rfl
    | cons y t => exact absurd (h'.1.symm.trans h) h'.2.1
  | cons x t ih =>
    cases l' with
    | nil => exact absurd (h.1.symm.trans h') h.2.1
    | cons y t' =>
      obtain ⟨rfl, -, ht⟩ := h
      obtain ⟨rfl, -, ht'⟩ := h'
      rw [ih ht ht']

/-- Where a chain starts is determined by its nodes. -/
theorem IsChain.start_eq {p' : α} (h : IsChain next null p l) (h' : IsChain next' null p' l) :
    p = p' := by
  cases l with
  | nil => exact h.trans h'.symm
  | cons x t => exact h.1.trans h'.1.symm

/-- No node of a chain is null. -/
theorem IsChain.ne_null (h : IsChain next null p l) : ∀ x ∈ l, x ≠ null := by
  induction l generalizing p with
  | nil => intro x hx; exact absurd hx List.not_mem_nil
  | cons y t ih =>
    intro x hx
    rcases List.mem_cons.mp hx with rfl | hx
    · exact h.2.1
    · exact ih h.2.2 x hx

/-- The part of a chain from any of its nodes on is a chain. -/
theorem IsChain.suffix {s t : List α} {x : α} (h : IsChain next null p (s ++ x :: t)) :
    IsChain next null x (x :: t) := by
  induction s generalizing p with
  | nil => exact ⟨rfl, h.2.1, h.2.2⟩
  | cons y s ih => exact ih h.2.2

/-- The node after a node of a chain is null or on the chain. -/
theorem IsChain.next_mem {x : α} (h : IsChain next null p l) (hx : x ∈ l) :
    next x = null ∨ next x ∈ l := by
  induction l generalizing p with
  | nil => exact absurd hx List.not_mem_nil
  | cons y t ih =>
    rcases List.mem_cons.mp hx with rfl | hx
    · cases t with
      | nil => exact Or.inl h.2.2
      | cons z u => exact Or.inr (by simp [show next x = z from h.2.2.1])
    · exact (ih h.2.2 hx).imp_right (List.mem_cons_of_mem _)

/-- A chain that ends visits no node twice: otherwise it would never end. -/
theorem IsChain.nodup (h : IsChain next null p l) : l.Nodup := by
  induction l generalizing p with
  | nil => exact List.nodup_nil
  | cons x t ih =>
    refine List.nodup_cons.mpr ⟨?_, ih h.2.2⟩
    intro hx
    obtain ⟨u, v, rfl⟩ := List.append_of_mem hx
    have hback : IsChain next null x (x :: v) := h.2.2.suffix
    have hhere : IsChain next null x (x :: (u ++ x :: v)) := ⟨rfl, h.2.1, h.2.2⟩
    have hlen := congrArg List.length (hhere.unique hback)
    simp only [List.length_cons, List.length_append] at hlen
    omega

/-- A chain only depends on the `next` fields of its own nodes. -/
theorem IsChain.congr (h : IsChain next null p l) (heq : ∀ x ∈ l, next' x = next x) :
    IsChain next' null p l := by
  induction l generalizing p with
  | nil => exact h
  | cons x t ih =>
    refine ⟨h.1, h.2.1, ?_⟩
    rw [heq x (List.mem_cons_self ..)]
    exact ih h.2.2 (fun y hy => heq y (List.mem_cons_of_mem _ hy))

/-- Over a finite type of pointers every chain is shorter than the number of
pointers, null being one of them. -/
theorem IsChain.length_lt_card [Fintype α] (h : IsChain next null p l) :
    l.length < Fintype.card α := by
  have hnd : (null :: l).Nodup :=
    List.nodup_cons.mpr ⟨fun hmem => h.ne_null null hmem rfl, h.nodup⟩
  have hcard := hnd.length_le_card
  simp only [List.length_cons] at hcard
  omega

/-! ## The loops over a chain -/

section Loops

variable [DecidableEq α]

/-- `for (i = p; i; i = next(i))`: the nodes visited, in order. -/
def walk (next : α → α) (null : α) : ℕ → α → Option (List α)
  | 0, _ => none
  | n + 1, p => if p = null then some [] else (walk next null n (next p)).map (p :: ·)

/-- `for (i = p; i; i = next(i)) if (good(i)) return i; return NULL;` -/
def seek (next : α → α) (null : α) (good : α → Bool) : ℕ → α → Option α
  | 0, _ => none
  | n + 1, p =>
    if p = null then some null
    else if good p then some p
    else seek next null good n (next p)

/-- `for (i = p; i; i = next(i)) body(i);` where the body changes the memory, and
`next` is read in the memory the body leaves. -/
def sweep {σ : Type*} (next : σ → α → α) (null : α) (body : σ → α → σ) : ℕ → σ → α → Option σ
  | 0, _, _ => none
  | n + 1, s, p =>
    if p = null then some s
    else sweep next null body n (body s p) (next (body s p) p)

/-- Collecting the nodes succeeds exactly on a chain that ends in time, with
its nodes. -/
theorem walk_eq_some {n : ℕ} :
    walk next null n p = some l ↔ IsChain next null p l ∧ l.length < n := by
  induction n generalizing p l with
  | zero => simp [walk]
  | succ n ih =>
    rw [walk]
    by_cases hp : p = null
    · subst hp
      cases l with
      | nil => simp
      | cons x t =>
        simp only [if_true, Option.some.injEq, isChain_cons]
        refine ⟨fun h => absurd h (List.cons_ne_nil x t).symm, ?_⟩
        rintro ⟨⟨rfl, hne, -⟩, -⟩
        exact absurd rfl hne
    · rw [if_neg hp, Option.map_eq_some_iff]
      constructor
      · rintro ⟨t, ht, rfl⟩
        obtain ⟨hc, hlen⟩ := ih.mp ht
        exact ⟨⟨rfl, hp, hc⟩, by simpa using hlen⟩
      · rintro ⟨hc, hlen⟩
        cases l with
        | nil => exact absurd hc hp
        | cons x t =>
          obtain ⟨rfl, -, hc⟩ := hc
          exact ⟨t, ih.mpr ⟨hc, by simpa using hlen⟩, rfl⟩

/-- Looking for a node finds the first good one, or null when there is none. -/
theorem seek_eq {good : α → Bool} {n : ℕ} (h : IsChain next null p l) (hn : l.length < n) :
    seek next null good n p = some ((l.find? good).getD null) := by
  induction n generalizing p l with
  | zero => exact absurd hn (Nat.not_lt_zero _)
  | succ n ih =>
    cases l with
    | nil => simp [seek, show p = null from h]
    | cons x t =>
      obtain ⟨rfl, hne, ht⟩ := h
      rw [seek, if_neg hne]
      by_cases hg : good p = true
      · simp [hg]
      · have hrest := ih ht (by simpa using hn)
        simp [hg, hrest]

/-- Changing the memory node by node folds the body over the nodes, when no
body changes where a node of the chain leads. -/
theorem sweep_eq {σ : Type*} {nxt : σ → α → α} {body : σ → α → σ} {s : σ} {n : ℕ}
    (hbody : ∀ s x, nxt (body s x) = nxt s) (h : IsChain (nxt s) null p l) (hn : l.length < n) :
    sweep nxt null body n s p = some (l.foldl body s) := by
  induction n generalizing p l s with
  | zero => exact absurd hn (Nat.not_lt_zero _)
  | succ n ih =>
    cases l with
    | nil => simp [sweep, show p = null from h]
    | cons x t =>
      obtain ⟨rfl, hne, ht⟩ := h
      rw [sweep, if_neg hne, List.foldl_cons, hbody]
      exact ih (by rwa [hbody]) (by simpa using hn)

end Loops

end Chain
