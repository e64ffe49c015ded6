import Mathlib.Data.List.Forall2
import Mathlib.Data.List.Induction

/-!
# Collecting distinct elements

A program that drops duplicates from a sequence without sorting it looks at the elements in order
and keeps those that equal none it has kept.  `collect eqv kept l` is this loop, for a comparison
`eqv` and the elements kept so far.

* `collect_map`: comparing images is comparing by the map.
* `collect_congr`: only comparisons of a later element with an earlier one matter.
* `exists_mem_collect`: every element has an equal among those kept.
* `pairwise_collect`, `pairwise_findIdx_collect`: of a comparison that is an equivalence it keeps no
  two equal elements, in the order in which they occur first.
* `length_collect_insert`: an element that nothing equals makes no other difference.
* `length_collect_replace`: what becomes of an element that had an equal, if it is replaced by one
  that has none.
-/

namespace Distinct

variable {α β : Type*} {eqv eqv' : α → α → Bool} {kept l m : List α} {x y : α}

/-- The elements kept after a loop over `l`. -/
def collect (eqv : α → α → Bool) (kept : List α) : List α → List α
  | [] => kept
  | x :: l => if kept.any (eqv x) then collect eqv kept l else collect eqv (kept ++ [x]) l

@[simp] theorem collect_nil : collect eqv kept [] = kept := rfl

theorem collect_cons :
    collect eqv kept (x :: l) =
      if kept.any (eqv x) then collect eqv kept l else collect eqv (kept ++ [x]) l := rfl

theorem collect_append : collect eqv kept (l ++ m) = collect eqv (collect eqv kept l) m := by
  induction l generalizing kept with
  | nil => rfl
  | cons x l ih =>
    rw [List.cons_append, collect_cons, collect_cons]
    split <;> exact ih

/-- What was kept stays. -/
theorem subset_collect (h : x ∈ kept) : x ∈ collect eqv kept l := by
  induction l generalizing kept with
  | nil => exact h
  | cons y l ih =>
    rw [collect_cons]
    split
    · exact ih h
    · exact ih (List.mem_append_left _ h)

/-- Only elements of the sequence are added. -/
theorem mem_of_mem_collect (h : x ∈ collect eqv kept l) : x ∈ kept ∨ x ∈ l := by
  induction l generalizing kept with
  | nil => exact .inl h
  | cons y l ih =>
    rw [collect_cons] at h
    split at h
    · exact (ih h).imp_right (List.mem_cons_of_mem _)
    · rcases ih h with h | h
      · rcases List.mem_append.mp h with h | h
        · exact .inl h
        · exact .inr (by simp_all)
      · exact .inr (List.mem_cons_of_mem _ h)

/-- **Every element has an equal among those kept.** -/
theorem exists_mem_collect (eqv : α → α → Bool) (kept : List α) (hrefl : ∀ x, eqv x x = true)
    (h : x ∈ l) :
    ∃ y ∈ collect eqv kept l, eqv x y = true := by
  induction l generalizing kept with
  | nil => cases h
  | cons z l ih =>
    rw [collect_cons]
    rcases List.mem_cons.mp h with rfl | h
    · split
      · rename_i hany
        obtain ⟨y, hy, hxy⟩ := List.any_eq_true.mp hany
        exact ⟨y, subset_collect hy, hxy⟩
      · exact ⟨x, subset_collect (by simp), hrefl x⟩
    · split <;> exact ih _ h

/-- **No two equal elements are kept.** -/
theorem pairwise_collect (hsymm : ∀ x y, eqv x y = eqv y x)
    (h : kept.Pairwise fun x y => eqv x y = false) :
    (collect eqv kept l).Pairwise fun x y => eqv x y = false := by
  induction l generalizing kept with
  | nil => exact h
  | cons x l ih =>
    rw [collect_cons]
    split
    · exact ih h
    · rename_i hany
      refine ih (List.pairwise_append.mpr ⟨h, List.pairwise_singleton .., fun y hy z hz => ?_⟩)
      obtain rfl := List.mem_singleton.mp hz
      rw [Bool.not_eq_true, List.any_eq_false] at hany
      rw [hsymm]
      exact Bool.eq_false_iff.mpr (hany y hy)

/-- **What is kept is in the order in which it occurs first.** -/
theorem pairwise_findIdx_collect (hrefl : ∀ x, eqv x x = true)
    (htrans : ∀ x y z, eqv x y = true → eqv y z = true → eqv x z = true) (l : List α) :
    (collect eqv [] l).Pairwise fun x y => l.findIdx (eqv x) < l.findIdx (eqv y) := by
  induction l using List.reverseRecOn with
  | nil => exact .nil
  | append_singleton l x ih =>
    have hfound : ∀ y ∈ collect eqv [] l, l.findIdx (eqv y) < l.length := by
      intro y hy
      have hmem : y ∈ l := (mem_of_mem_collect hy).resolve_left (by simp)
      exact List.findIdx_lt_length_of_exists ⟨y, hmem, hrefl y⟩
    have hsame : ∀ y ∈ collect eqv [] l, (l ++ [x]).findIdx (eqv y) = l.findIdx (eqv y) :=
      fun y hy => by rw [List.findIdx_append, if_pos (hfound y hy)]
    have hold : (collect eqv [] l).Pairwise fun y z =>
        (l ++ [x]).findIdx (eqv y) < (l ++ [x]).findIdx (eqv z) :=
      ih.imp_of_mem fun hy hz hlt => by rwa [hsame _ hy, hsame _ hz]
    rw [collect_append, collect_cons, collect_nil]
    split
    · exact hold
    · rename_i hany
      -- nothing before `x` equals it, or its equal among those kept would equal `x` as well
      have hnew : ∀ y ∈ l, eqv x y = false := by
        intro y hy
        obtain ⟨z, hz, hyz⟩ := exists_mem_collect eqv [] hrefl hy
        refine Bool.eq_false_iff.mpr fun hxy => hany (List.any_eq_true.mpr ⟨z, hz, ?_⟩)
        exact htrans x y z hxy hyz
      have hx : l.length ≤ (l ++ [x]).findIdx (eqv x) := by
        rw [List.findIdx_append, List.findIdx_eq_length.mpr hnew, if_neg (Nat.lt_irrefl _)]
        omega
      refine List.pairwise_append.mpr ⟨hold, List.pairwise_singleton .., fun y hy z hz => ?_⟩
      obtain rfl := List.mem_singleton.mp hz
      rw [hsame y hy]
      exact Nat.lt_of_lt_of_le (hfound y hy) hx

/-- Comparing the images of a map. -/
theorem collect_map (eqv : β → β → Bool) (kept l : List α) (f : α → β) :
    collect eqv (kept.map f) (l.map f) =
      (collect (fun x y => eqv (f x) (f y)) kept l).map f := by
  induction l generalizing kept with
  | nil => rfl
  | cons x l ih =>
    rw [List.map_cons, collect_cons, collect_cons, List.any_map]
    have hpush : kept.map f ++ [f x] = (kept ++ [x]).map f := by simp
    rw [hpush, ih, ih, Function.comp_def]
    split <;> rfl

/-- **Only comparisons of a later element with an earlier one matter.** -/
theorem collect_congr (h : (kept ++ l).Pairwise fun x y => eqv y x = eqv' y x) :
    collect eqv kept l = collect eqv' kept l := by
  induction l generalizing kept with
  | nil => rfl
  | cons x l ih =>
    have hany : kept.any (eqv x) = kept.any (eqv' x) := by
      rw [Bool.eq_iff_iff, List.any_eq_true, List.any_eq_true]
      refine exists_congr fun y => and_congr_right fun hy => ?_
      rw [(List.pairwise_append.mp h).2.2 y hy x (List.mem_cons_self ..)]
    have hskip : (kept ++ l).Pairwise fun x y => eqv y x = eqv' y x :=
      h.sublist ((List.sublist_cons_self x l).append_left kept)
    have hkeep : ((kept ++ [x]) ++ l).Pairwise fun x y => eqv y x = eqv' y x := by
      rwa [List.append_assoc]
    rw [collect_cons, collect_cons, hany, ih hskip, ih hkeep]

/-- **An element that nothing equals makes no other difference.** -/
theorem length_collect_insert (h : ∀ x ∈ l, eqv x y = false) :
    (collect eqv (kept ++ y :: m) l).length = (collect eqv (kept ++ m) l).length + 1 := by
  induction l generalizing m with
  | nil => simp only [collect_nil, List.length_append, List.length_cons]; omega
  | cons x l ih =>
    obtain ⟨hx, hl⟩ := List.forall_mem_cons.mp h
    have hany : (kept ++ y :: m).any (eqv x) = (kept ++ m).any (eqv x) := by simp [hx]
    have hpush : kept ++ y :: m ++ [x] = kept ++ y :: (m ++ [x]) := by simp
    rw [collect_cons, collect_cons, hany, hpush, List.append_assoc]
    split <;> exact ih hl

/-- **An element with an equal before it, replaced by one that nothing equals**, is kept in
addition. -/
theorem length_collect_replace (hfound : (collect eqv [] l).any (eqv x) = true)
    (hbefore : ∀ z ∈ l, eqv y z = false) (hafter : ∀ z ∈ m, eqv z y = false) :
    (collect eqv [] (l ++ y :: m)).length = (collect eqv [] (l ++ x :: m)).length + 1 := by
  have hnew : (collect eqv [] l).any (eqv y) = false := by
    rw [List.any_eq_false]
    intro z hz
    rcases mem_of_mem_collect hz with hnil | hz
    · cases hnil
    · simp [hbefore z hz]
  have hinsert : (collect eqv (collect eqv [] l ++ [y]) m).length =
      (collect eqv (collect eqv [] l ++ []) m).length + 1 := length_collect_insert hafter
  rw [List.append_nil] at hinsert
  rw [collect_append, collect_append, collect_cons, collect_cons, hfound, hnew]
  exact hinsert

end Distinct
