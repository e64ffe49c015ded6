import Mathlib.Logic.Function.Basic

/-!
# Blocks and their owners

A store of blocks, and tokens that name them and pass from one owner to another.

* `Owned`: every block that is allocated has one owner, and every token an allocated block.
* `Owned.pass`, `Owned.gain`, `Owned.write` and `Owned.lose` are what may be done with a block: it
  goes to another owner, it is allocated, it gets another content, it is freed.
-/

namespace Owner

variable {O T K V : Type*} {key : T → K} {ok : T → V → Prop} {store : K → Option V}
  {has has' : O → T → Prop} {a b o : O} {x y : T} {k : K} {v : V}

/-- Each token of an owner names an allocated block with a right content, no block has two owners,
and none has no owner. -/
structure Owned (key : T → K) (ok : T → V → Prop) (store : K → Option V) (has : O → T → Prop) :
    Prop where
  block : ∀ o x, has o x → ∃ v, store (key x) = some v ∧ ok x v
  unique : ∀ o o' x y, has o x → has o' y → key x = key y → o = o'
  owned : ∀ k, store k ≠ none → ∃ o x, has o x ∧ key x = k

/-- At first nothing is allocated. -/
theorem Owned.empty (hstore : ∀ k, store k = none) (hhas : ∀ o x, ¬ has o x) :
    Owned key ok store has where
  block o x h := absurd h (hhas o x)
  unique o _ x _ h := absurd h (hhas o x)
  owned k hk := absurd (hstore k) hk

theorem Owned.congr (h : Owned key ok store has) (hhas : ∀ o x, has' o x ↔ has o x) :
    Owned key ok store has' := by
  have heq : has' = has := by
    funext o x
    exact propext (hhas o x)
  rwa [heq]

/-- A block that somebody has is not the one that is freed. -/
theorem Owned.key_ne (h : Owned key ok store has) (hx : has a x) (hy : has o y) (hne : o ≠ a) :
    key y ≠ key x :=
  fun heq => hne (h.unique o a y x hy hx heq)

/-- The only token of `a` goes to `b`. -/
theorem Owned.pass (h : Owned key ok store has) (hx : has a x) (honly : ∀ y, has a y → y = x)
    (hhas : ∀ o y, has' o y ↔ has o y ∧ o ≠ a ∨ o = b ∧ y = x) : Owned key ok store has' := by
  constructor
  · intro o y hy
    rcases (hhas o y).mp hy with ⟨hy, -⟩ | ⟨rfl, rfl⟩
    · exact h.block o y hy
    · exact h.block a y hx
  · intro o o' y z hy hz heq
    rcases (hhas o y).mp hy with ⟨hy, hne⟩ | ⟨rfl, rfl⟩
    · rcases (hhas o' z).mp hz with ⟨hz, -⟩ | ⟨rfl, rfl⟩
      · exact h.unique o o' y z hy hz heq
      · exact absurd (h.unique o a y z hy hx heq) hne
    · rcases (hhas o' z).mp hz with ⟨hz, hne⟩ | ⟨rfl, rfl⟩
      · exact absurd (h.unique o' a z y hz hx heq.symm) hne
      · rfl
  · intro k hk
    obtain ⟨o, y, hy, hkey⟩ := h.owned k hk
    by_cases ho : o = a
    · subst ho
      obtain rfl := honly y hy
      exact ⟨b, y, (hhas b y).mpr (.inr ⟨rfl, rfl⟩), hkey⟩
    · exact ⟨o, y, (hhas o y).mpr (.inl ⟨hy, ho⟩), hkey⟩

variable [DecidableEq K]

/-- A block is allocated, and its token goes to `a`. -/
theorem Owned.gain (h : Owned key ok store has) (hfree : store (key x) = none) (hok : ok x v)
    (hhas : ∀ o y, has' o y ↔ has o y ∨ o = a ∧ y = x) :
    Owned key ok (Function.update store (key x) (some v)) has' := by
  have hne : ∀ {o y}, has o y → key y ≠ key x := by
    intro o y hy heq
    obtain ⟨u, hu, -⟩ := h.block o y hy
    rw [heq, hfree] at hu
    cases hu
  constructor
  · intro o y hy
    rcases (hhas o y).mp hy with hy | ⟨rfl, rfl⟩
    · obtain ⟨u, hu, hoku⟩ := h.block o y hy
      exact ⟨u, by rw [Function.update_of_ne (hne hy), hu], hoku⟩
    · exact ⟨v, Function.update_self .., hok⟩
  · intro o o' y z hy hz heq
    rcases (hhas o y).mp hy with hy | ⟨rfl, rfl⟩
    · rcases (hhas o' z).mp hz with hz | ⟨rfl, rfl⟩
      · exact h.unique o o' y z hy hz heq
      · exact absurd heq (hne hy)
    · rcases (hhas o' z).mp hz with hz | ⟨rfl, rfl⟩
      · exact absurd heq.symm (hne hz)
      · rfl
  · intro k hk
    by_cases heq : k = key x
    · exact ⟨a, x, (hhas a x).mpr (.inr ⟨rfl, rfl⟩), heq.symm⟩
    · rw [Function.update_of_ne heq] at hk
      obtain ⟨o, y, hy, hkey⟩ := h.owned k hk
      exact ⟨o, y, (hhas o y).mpr (.inl hy), hkey⟩

/-- A block gets a content that is as right as the one it had. -/
theorem Owned.write (h : Owned key ok store has) {u : V} (hk : store k = some u)
    (hok : ∀ y, key y = k → ok y u → ok y v) :
    Owned key ok (Function.update store k (some v)) has where
  block o y hy := by
    obtain ⟨w, hw, hokw⟩ := h.block o y hy
    by_cases heq : key y = k
    · obtain rfl : u = w := Option.some.inj (by rw [← hk, ← hw, heq])
      exact ⟨v, by rw [heq, Function.update_self], hok y heq hokw⟩
    · exact ⟨w, by rw [Function.update_of_ne heq, hw], hokw⟩
  unique := h.unique
  owned j hj := by
    by_cases heq : j = k
    · exact h.owned j (by rw [heq, hk]; simp)
    · rw [Function.update_of_ne heq] at hj
      exact h.owned j hj

/-- The block of the only token of `a` is freed. -/
theorem Owned.lose (h : Owned key ok store has) (hx : has a x) (honly : ∀ y, has a y → y = x)
    (hhas : ∀ o y, has' o y ↔ has o y ∧ o ≠ a) :
    Owned key ok (Function.update store (key x) none) has' := by
  constructor
  · intro o y hy
    obtain ⟨hy, hne⟩ := (hhas o y).mp hy
    obtain ⟨v, hv, hok⟩ := h.block o y hy
    have hkey : key y ≠ key x := fun heq => hne (h.unique o a y x hy hx heq)
    exact ⟨v, by rw [Function.update_of_ne hkey, hv], hok⟩
  · intro o o' y z hy hz heq
    exact h.unique o o' y z ((hhas o y).mp hy).1 ((hhas o' z).mp hz).1 heq
  · intro k hk
    have hkey : k ≠ key x := by
      rintro rfl
      exact hk (Function.update_self ..)
    rw [Function.update_of_ne hkey] at hk
    obtain ⟨o, y, hy, rfl⟩ := h.owned k hk
    refine ⟨o, y, (hhas o y).mpr ⟨hy, ?_⟩, rfl⟩
    rintro rfl
    exact hkey (congrArg key (honly y hy))

end Owner
