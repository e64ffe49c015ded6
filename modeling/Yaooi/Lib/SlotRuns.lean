import Yaooi.Lib.SlotList

/-!
# Runs over slot-linked lists

A program links and unlinks nodes in any order, on any number of lists that share their nodes.  What
each list should be follows from the operations alone; that the memory agrees is an invariant over
all legal runs.

* `Op.lists` says what an operation does to the lists, and `lists` what a run does;
  `Legal.mem_lists` tells which nodes are on a list at its end.
* `Coherent` is the agreement, in terms of the pointers: following them visits the list, and each
  slot designates the cell that holds the pointer to its node.
* `View` is a program's memory with such lists in it; `View.coherent` is the invariant, and
  `View.same` says that an operation leaves the other lists as they are.
-/

namespace SlotList

variable {ι α M : Type*}

/-! ## Operations -/

/-- A node is linked in front of a list, or unlinked. -/
inductive Op (ι α : Type*) where
  | add (i : ι) (x : α)
  | del (x : α)

section

variable [DecidableEq ι] [DecidableEq α]

/-- What an operation does to the lists. -/
def Op.lists (L : ι → List α) : Op ι α → ι → List α
  | add i x => Function.update L i (x :: L i)
  | del x => fun i => (L i).erase x

/-- What a sequence of operations makes of empty lists. -/
def lists (ops : List (Op ι α)) : ι → List α := ops.foldl Op.lists fun _ => []

/-- A node is linked that is on no list, or unlinked that is on one. -/
def Op.Allowed (null : α) (L : ι → List α) : Op ι α → Prop
  | add _ x => x ≠ null ∧ ∀ j, x ∉ L j
  | del x => ∃ i, x ∈ L i

/-- The operation is about another list. -/
def Op.Off (L : ι → List α) (i : ι) : Op ι α → Prop
  | add j _ => i ≠ j
  | del x => x ∉ L i

/-- A sequence of operations each of which is allowed after those before it. -/
inductive Legal (null : α) : List (Op ι α) → Prop
  | nil : Legal null []
  | snoc {ops : List (Op ι α)} {op : Op ι α} : Legal null ops → op.Allowed null (lists ops) →
      Legal null (ops ++ [op])

/-! ## What the lists are -/

variable {null x y : α} {i j : ι} {L : ι → List α} {ops : List (Op ι α)} {op : Op ι α}

@[simp] theorem lists_nil : lists ([] : List (Op ι α)) = fun _ => [] := rfl

@[simp] theorem lists_snoc : lists (ops ++ [op]) = op.lists (lists ops) := by
  rw [lists, List.foldl_append]
  rfl

/-- No node is twice on a list, or on two. -/
structure Distinct (L : ι → List α) : Prop where
  nodup : ∀ i, (L i).Nodup
  disjoint : ∀ i j x, x ∈ L i → x ∈ L j → i = j

theorem Distinct.lists (h : Distinct L) (hop : op.Allowed null L) : Distinct (op.lists L) := by
  cases op with
  | add i x =>
    obtain ⟨-, hx⟩ := hop
    have hmem : ∀ j y, y ∈ Function.update L i (x :: L i) j → y = x ∧ j = i ∨ y ∈ L j := by
      intro j y hy
      by_cases hji : j = i
      · subst hji
        rw [Function.update_self] at hy
        exact (List.mem_cons.mp hy).imp_left fun he => ⟨he, rfl⟩
      · rw [Function.update_of_ne hji] at hy
        exact Or.inr hy
    constructor
    · intro j
      by_cases hji : j = i
      · subst hji
        rw [Op.lists, Function.update_self]
        exact List.nodup_cons.mpr ⟨hx j, h.nodup j⟩
      · rw [Op.lists, Function.update_of_ne hji]
        exact h.nodup j
    · intro j k y hyj hyk
      rcases hmem j y hyj with ⟨hyx, hji⟩ | hj
      · rcases hmem k y hyk with ⟨-, hki⟩ | hk
        · rw [hji, hki]
        · exact absurd (hyx ▸ hk) (hx k)
      · rcases hmem k y hyk with ⟨hyx, -⟩ | hk
        · exact absurd (hyx ▸ hj) (hx j)
        · exact h.disjoint j k y hj hk
  | del x =>
    constructor
    · intro j
      exact (h.nodup j).erase x
    · intro j k y hyj hyk
      exact h.disjoint j k y (List.mem_of_mem_erase hyj) (List.mem_of_mem_erase hyk)

theorem Legal.distinct (h : Legal null ops) : Distinct (lists ops) := by
  induction h with
  | nil => exact ⟨fun _ => List.nodup_nil, fun _ _ _ hx => absurd hx List.not_mem_nil⟩
  | snoc _ hop ih =>
    rw [lists_snoc]
    exact ih.lists hop

/-- **The nodes of a list** are those that were linked into it and not unlinked since. -/
theorem Legal.mem_lists (h : Legal null ops) :
    x ∈ lists ops i ↔ ∃ before since, ops = before ++ .add i x :: since ∧ Op.del x ∉ since := by
  induction h with
  | nil => simp
  | @snoc ops op hops hop ih =>
    -- the last operation is the one that linked the node, or it comes after it
    have hsplit : (∃ before since, ops ++ [op] = before ++ .add i x :: since ∧
        Op.del x ∉ since) ↔ op = .add i x ∨ op ≠ .del x ∧ x ∈ lists ops i := by
      rw [ih]
      constructor
      · rintro ⟨before, since, heq, hdel⟩
        rcases List.eq_nil_or_concat since with rfl | ⟨since', last, rfl⟩
        · exact Or.inl (List.append_inj_right' heq rfl |> List.singleton_inj.mp)
        · rw [List.concat_eq_append] at heq hdel
          rw [← List.cons_append, ← List.append_assoc] at heq
          obtain ⟨hfront, hlast⟩ := List.append_inj' heq rfl
          obtain rfl := List.singleton_inj.mp hlast
          refine Or.inr ⟨?_, before, since', hfront, ?_⟩
          · rintro rfl
            exact hdel (by simp)
          · intro hmem
            exact hdel (List.mem_append_left _ hmem)
      · rintro (rfl | ⟨hne, before, since, rfl, hdel⟩)
        · exact ⟨ops, [], rfl, List.not_mem_nil⟩
        · refine ⟨before, since ++ [op], by simp, ?_⟩
          intro hmem
          rcases List.mem_append.mp hmem with hmem | hmem
          · exact hdel hmem
          · exact hne (List.mem_singleton.mp hmem).symm
    rw [hsplit, lists_snoc]
    cases op with
    | add j y =>
      by_cases hij : i = j
      · subst hij
        simp [Op.lists, eq_comm]
      · simp [Op.lists, Function.update_of_ne hij, Ne.symm hij]
    | del y =>
      simp [Op.lists, (hops.distinct.nodup i).mem_erase_iff, eq_comm]

end

/-! ## The lists in memory -/

/-- The memory has these lists.  From each head `next` leads over the nodes of its list, each once,
to null; and the slot of a node is the cell that the pointer to it is in, the head for the first
node and the `next` field of the node before it for any other. -/
structure Coherent (null : α) (s : Store ι α) (L : ι → List α) : Prop where
  chain : ∀ i, Chain.IsChain s.next null (s.head i) (L i)
  nodup : ∀ i, (L i).Nodup
  slot : ∀ i before x after, L i = before ++ x :: after →
    s.slot x = before.getLast?.elim (.head i) .next ∧ s.read (s.slot x) = x

variable {null x : α} {s : Store ι α} {c : Cell ι α} {L : ι → List α} {i : ι}

/-- The slot of a node somewhere on a list. -/
theorem Seg.slot_eq {before after : List α} (h : Seg null s c (before ++ x :: after)) :
    s.slot x = before.getLast?.elim c .next ∧ s.read (s.slot x) = x := by
  induction before generalizing c with
  | nil =>
    obtain ⟨hread, -, hslot, -⟩ := h
    exact ⟨hslot, hslot ▸ hread⟩
  | cons y before ih =>
    obtain ⟨hslot, hread⟩ := ih h.2.2.2
    refine ⟨?_, hread⟩
    rw [hslot, List.getLast?_cons]
    cases before.getLast? with
    | none => rfl
    | some z => rfl

theorem Represents.coherent (h : Represents null s (fun _ => True) L) : Coherent null s L where
  chain i := (h.seg i trivial).isChain
  nodup i := (h.seg i trivial).nodup
  slot i _ _ _ hL := Seg.slot_eq (hL ▸ h.seg i trivial)

variable [DecidableEq ι] [DecidableEq α]

/-- Memory with slot-linked lists in it, and the operations on them. -/
structure View (M ι α : Type*) [DecidableEq ι] [DecidableEq α] where
  null : α
  store : M → Store ι α
  add : M → ι → α → M
  del : M → α → M
  store_add : ∀ m i x, store (add m i x) = (store m).add null i x
  store_del : ∀ m x, store (del m x) = (store m).del null x

namespace View

/-- The memory after an operation. -/
def apply (V : View M ι α) (m : M) : Op ι α → M
  | .add i x => V.add m i x
  | .del x => V.del m x

/-- The memory after a sequence of operations. -/
def run (V : View M ι α) (m : M) (ops : List (Op ι α)) : M := ops.foldl V.apply m

variable {V : View M ι α} {m : M} {ops : List (Op ι α)} {op : Op ι α}

@[simp] theorem run_snoc : V.run m (ops ++ [op]) = V.apply (V.run m ops) op := by
  rw [run, List.foldl_append]
  rfl

/-- An operation that is allowed does to the memory what it does to the lists. -/
theorem represents_apply (h : Represents V.null (V.store m) (fun _ => True) L)
    (hop : op.Allowed V.null L) :
    Represents V.null (V.store (V.apply m op)) (fun _ => True) (op.lists L) := by
  cases op with
  | add i x =>
    rw [apply, V.store_add]
    exact h.add trivial (fun j _ => hop.2 j) hop.1
  | del x =>
    obtain ⟨i, hx⟩ := hop
    have hlists : (Op.del x : Op ι α).lists L = Function.update L i ((L i).erase x) := by
      funext j
      by_cases hji : j = i
      · rw [hji, Function.update_self]
        rfl
      · rw [Function.update_of_ne hji]
        exact List.erase_of_not_mem fun hmem => hji (h.disjoint j i x trivial trivial hmem hx)
    rw [apply, V.store_del, hlists]
    exact h.del trivial hx

/-- It leaves the other lists as they are. -/
theorem same_apply (h : Represents V.null (V.store m) (fun _ => True) L)
    (hop : op.Allowed V.null L) (hoff : op.Off L i) :
    Same (V.store m) (V.store (V.apply m op)) (.head i) (L i) := by
  cases op with
  | add j x =>
    rw [apply, V.store_add]
    exact h.same_add trivial trivial (hop.2 i) hoff
  | del x =>
    obtain ⟨j, hx⟩ := hop
    have hij : i ≠ j := by
      rintro rfl
      exact hoff hx
    rw [apply, V.store_del]
    exact h.same_del trivial trivial hx hij

/-- After every legal run the memory has the lists. -/
theorem represents_run (h : Legal V.null ops) (hnull : ∀ i, (V.store m).head i = V.null) :
    Represents V.null (V.store (V.run m ops)) (fun _ => True) (lists ops) := by
  induction h with
  | nil => exact ⟨fun i _ => hnull i, fun _ _ _ _ _ hx => absurd hx List.not_mem_nil⟩
  | snoc _ hop ih =>
    rw [run_snoc, lists_snoc]
    exact represents_apply ih hop

/-- **Slot-linked lists.**  From empty lists, after every legal run: a list has the nodes that were
linked into it and not unlinked since, and the memory has the lists; and every further operation
leaves the cells and the slots of the other lists as they are. -/
def Keeps (V : View M ι α) : Prop :=
  ∀ (m : M) (ops : List (Op ι α)), (∀ i, (V.store m).head i = V.null) → Legal V.null ops →
    (∀ i x, x ∈ lists ops i ↔
      ∃ before since, ops = before ++ .add i x :: since ∧ Op.del x ∉ since) ∧
    Coherent V.null (V.store (V.run m ops)) (lists ops) ∧
    ∀ op i, op.Allowed V.null (lists ops) → op.Off (lists ops) i →
      Same (V.store (V.run m ops)) (V.store (V.apply (V.run m ops) op)) (.head i) (lists ops i)

theorem keeps (V : View M ι α) : V.Keeps := by
  intro m ops hnull hops
  have hrep := represents_run hops hnull
  refine ⟨fun i x => hops.mem_lists, hrep.coherent, ?_⟩
  intro op i hop hoff
  exact same_apply hrep hop hoff

end View

end SlotList
