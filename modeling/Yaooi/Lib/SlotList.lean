import Mathlib.Data.List.Basic
import Mathlib.Data.List.Nodup
import Mathlib.Logic.Function.Basic
import Yaooi.Lib.Chain

/-!
# Slot-linked lists

A slot-linked list threads its nodes with a `next` pointer and gives each node
a `slot`: the address of the cell that points to it, which is either the head of
the list or the `next` field of the node before.  With the slot at hand a node
can be unlinked without knowing which list it is on.

Several lists, one for each index, may share the store of nodes.

* `Store.add` and `Store.del` are the two operations, assignment by assignment;
* `Seg s c l` says that the cell `c` starts a list of the nodes `l`, slots
  included, and `Represents s live L` that every live index `i` heads the list
  `L i`, no node being on two lists;
* `Represents.add` and `Represents.del` are the refinement: in memory the two
  operations do what `x :: L i` and `(L i).erase x` do to the lists.
-/

namespace SlotList

variable {ι α : Type*}

/-- A cell that holds a pointer to a node. -/
inductive Cell (ι α : Type*) where
  /-- The head of a list. -/
  | head (i : ι)
  /-- The `next` field of a node. -/
  | next (x : α)
  deriving DecidableEq

/-- The memory the lists live in. -/
structure Store (ι α : Type*) where
  /-- The head of each list. -/
  head : ι → α
  /-- The node after a node. -/
  next : α → α
  /-- The cell that points to a node. -/
  slot : α → Cell ι α

namespace Store

/-- `*c` -/
def read (s : Store ι α) : Cell ι α → α
  | .head i => s.head i
  | .next x => s.next x

@[simp] theorem read_head (s : Store ι α) (i : ι) : s.read (.head i) = s.head i := rfl
@[simp] theorem read_next (s : Store ι α) (x : α) : s.read (.next x) = s.next x := rfl

variable [DecidableEq α]

/-- `slot(x) = c` -/
def setSlot (s : Store ι α) (x : α) (c : Cell ι α) : Store ι α :=
  { s with slot := Function.update s.slot x c }

@[simp] theorem read_setSlot (s : Store ι α) (x : α) (c d : Cell ι α) :
    (s.setSlot x c).read d = s.read d := by
  cases d <;> rfl

theorem slot_setSlot (s : Store ι α) (x y : α) (c : Cell ι α) :
    (s.setSlot x c).slot y = if y = x then c else s.slot y := by
  simp [setSlot, Function.update_apply]

/-- `if (x) slot(x) = c` -/
def linkBack (null : α) (s : Store ι α) (x : α) (c : Cell ι α) : Store ι α :=
  if x = null then s else s.setSlot x c

@[simp] theorem read_linkBack (null : α) (s : Store ι α) (x : α) (c d : Cell ι α) :
    (s.linkBack null x c).read d = s.read d := by
  unfold linkBack
  split <;> simp

theorem slot_linkBack (null : α) (s : Store ι α) (x y : α) (c : Cell ι α) :
    (s.linkBack null x c).slot y = if y = x ∧ x ≠ null then c else s.slot y := by
  unfold linkBack
  split
  · rename_i hx
    simp [hx]
  · rename_i hx
    simp [slot_setSlot, hx]

variable [DecidableEq ι]

/-- `*c = v` -/
def write (s : Store ι α) (c : Cell ι α) (v : α) : Store ι α :=
  match c with
  | .head i => { s with head := Function.update s.head i v }
  | .next x => { s with next := Function.update s.next x v }

/-- Puts `x` in front of list `i`. -/
def add (null : α) (s : Store ι α) (i : ι) (x : α) : Store ι α :=
  let s := s.write (.next x) (s.head i)
  let s := s.setSlot x (.head i)
  let s := s.linkBack null (s.head i) (.next x)
  s.write (.head i) x

/-- Unlinks `x` from the list it is on. -/
def del (null : α) (s : Store ι α) (x : α) : Store ι α :=
  let s := s.linkBack null (s.next x) (s.slot x)
  s.write (s.slot x) (s.next x)

variable {null : α} {s : Store ι α} {c d : Cell ι α} {x y v : α}

theorem read_write : (s.write c v).read d = if d = c then v else s.read d := by
  cases c <;> cases d <;> simp [write, read, Function.update_apply]

@[simp] theorem slot_write : (s.write c v).slot = s.slot := by cases c <;> rfl

/-- Unlinking redirects the cell that points to the node, and no other. -/
theorem read_del : (s.del null x).read d = if d = s.slot x then s.next x else s.read d := by
  simp only [del, read_write, read_linkBack, slot_linkBack, ite_self, ← read_next]

/-- Unlinking changes the slot of the next node, and no other. -/
theorem slot_del :
    (s.del null x).slot y = if y = s.next x ∧ s.next x ≠ null then s.slot x else s.slot y := by
  simp only [del, slot_write, slot_linkBack]

/-- Linking changes the head and the `next` field of the new node. -/
theorem read_add {i : ι} :
    (s.add null i x).read d =
      if d = .head i then x else if d = .next x then s.head i else s.read d := by
  simp only [add, read_write, read_linkBack, read_setSlot]

/-- Linking sets the slots of the new node and of the node it was put before. -/
theorem slot_add {i : ι} :
    (s.add null i x).slot y =
      if y = s.head i ∧ s.head i ≠ null then .next x
      else if y = x then .head i else s.slot y := by
  have hhead : ((s.write (.next x) (s.head i)).setSlot x (.head i)).head i = s.head i := rfl
  simp only [add, slot_write, slot_linkBack, slot_setSlot, hhead]

end Store

/-! ## The lists a store represents -/

/-- The cell `c` starts a list of the nodes `l`: every node's slot is the very cell
that points to it, and the last node's `next` is null. -/
def Seg (null : α) (s : Store ι α) : Cell ι α → List α → Prop
  | c, [] => s.read c = null
  | c, x :: l => s.read c = x ∧ x ≠ null ∧ s.slot x = c ∧ Seg null s (.next x) l

variable {null : α} {s s' : Store ι α} {c : Cell ι α} {l : List α} {x : α}

@[simp] theorem seg_nil : Seg null s c [] ↔ s.read c = null := Iff.rfl

@[simp] theorem seg_cons :
    Seg null s c (x :: l) ↔
      s.read c = x ∧ x ≠ null ∧ s.slot x = c ∧ Seg null s (.next x) l := Iff.rfl

/-- Forgetting the slots leaves a chain. -/
theorem Seg.isChain (h : Seg null s c l) : Chain.IsChain s.next null (s.read c) l := by
  induction l generalizing c with
  | nil => exact h
  | cons x t ih => exact ⟨h.1, h.2.1, ih h.2.2.2⟩

theorem Seg.nodup (h : Seg null s c l) : l.Nodup := h.isChain.nodup

/-- A list only depends on its first cell and on its own nodes. -/
theorem Seg.congr (h : Seg null s c l) (hc : s'.read c = s.read c)
    (hnext : ∀ x ∈ l, s'.next x = s.next x) (hslot : ∀ x ∈ l, s'.slot x = s.slot x) :
    Seg null s' c l := by
  induction l generalizing c with
  | nil => exact hc.trans h
  | cons x t ih =>
    obtain ⟨hx, hne, hsl, ht⟩ := h
    refine ⟨hc.trans hx, hne, (hslot x (List.mem_cons_self ..)).trans hsl, ?_⟩
    apply ih ht (hnext x (List.mem_cons_self ..))
    · exact fun y hy => hnext y (List.mem_cons_of_mem _ hy)
    · exact fun y hy => hslot y (List.mem_cons_of_mem _ hy)

/-- The cell `c` and the nodes `l` are what they were. -/
structure Same (s s' : Store ι α) (c : Cell ι α) (l : List α) : Prop where
  read : s'.read c = s.read c
  next : ∀ x ∈ l, s'.next x = s.next x
  slot : ∀ x ∈ l, s'.slot x = s.slot x

theorem Seg.of_same (h : Seg null s c l) (hsame : Same s s' c l) : Seg null s' c l :=
  h.congr hsame.read hsame.next hsame.slot

/-- The cell that points to a node of a list is the list's first cell or the
`next` field of another of its nodes. -/
theorem Seg.slot_mem (h : Seg null s c l) (hx : x ∈ l) :
    s.slot x = c ∨ ∃ y ∈ l, s.slot x = .next y := by
  induction l generalizing c with
  | nil => exact absurd hx List.not_mem_nil
  | cons y t ih =>
    obtain ⟨-, -, hsl, ht⟩ := h
    rcases List.mem_cons.mp hx with rfl | hx
    · exact Or.inl hsl
    · rcases ih ht hx with heq | ⟨z, hz, heq⟩
      · exact Or.inr ⟨y, List.mem_cons_self .., heq⟩
      · exact Or.inr ⟨z, List.mem_cons_of_mem _ hz, heq⟩

/-- The node after a node of a list is null or on the list. -/
theorem Seg.next_mem (h : Seg null s c l) (hx : x ∈ l) : s.next x = null ∨ s.next x ∈ l :=
  h.isChain.next_mem hx

/-- Every live index heads its list, and no node is on two live lists. -/
structure Represents (null : α) (s : Store ι α) (live : ι → Prop) (L : ι → List α) : Prop where
  seg : ∀ i, live i → Seg null s (.head i) (L i)
  disjoint : ∀ i j x, live i → live j → x ∈ L i → x ∈ L j → i = j

variable {live : ι → Prop} {L : ι → List α}

/-- A list that is given up takes nothing from the others. -/
theorem Represents.mono {live' : ι → Prop} (h : Represents null s live L)
    (hsub : ∀ i, live' i → live i) : Represents null s live' L :=
  ⟨fun i hi => h.seg i (hsub i hi), fun i j x hi hj => h.disjoint i j x (hsub i hi) (hsub j hj)⟩

/-- An index whose head is set to null starts out with the empty list. -/
theorem Represents.clear [DecidableEq ι] {i : ι} (h : Represents null s live L) :
    Represents null { s with head := Function.update s.head i null } (fun j => j = i ∨ live j)
      (Function.update L i []) := by
  constructor
  · intro j hj
    by_cases hji : j = i
    · simp [hji]
    · rw [Function.update_of_ne hji]
      refine (h.seg j (hj.resolve_left hji)).congr ?_ (fun _ _ => rfl) (fun _ _ => rfl)
      simp [hji]
  · intro j k x hj hk hxj hxk
    have hne : ∀ n, x ∈ Function.update L i [] n → n ≠ i := fun n hn e => by simp [e] at hn
    have hji := hne j hxj
    have hki := hne k hxk
    rw [Function.update_of_ne hji] at hxj
    rw [Function.update_of_ne hki] at hxk
    exact h.disjoint j k x (hj.resolve_left hji) (hk.resolve_left hki) hxj hxk

section Operations

variable [DecidableEq ι] [DecidableEq α]

/-- A node that is on no live list is no live list's slot, and is not what a
live list's node points to. -/
theorem Same.add {i : ι} (hc : c ≠ .head i) (hx : x ∉ l) (hcx : c ≠ .next x)
    (hhead : s.head i ≠ null → s.head i ∉ l) : Same s (s.add null i x) c l := by
  refine ⟨?_, ?_, ?_⟩
  · rw [Store.read_add, if_neg hc, if_neg hcx]
  · intro y hy
    have hyx : y ≠ x := fun e => hx (e ▸ hy)
    rw [← Store.read_next, Store.read_add]
    simp [hyx]
  · intro y hy
    have hyx : y ≠ x := fun e => hx (e ▸ hy)
    have hyh : ¬ (y = s.head i ∧ s.head i ≠ null) := fun e => hhead e.2 (e.1 ▸ hy)
    rw [Store.slot_add, if_neg hyh, if_neg hyx]

/-- Linking a node in front of its list. -/
theorem Seg.add {i : ι} (h : Seg null s (.head i) l) (hx : x ∉ l) (hne : x ≠ null) :
    Seg null (s.add null i x) (.head i) (x :: l) := by
  have hslotx : (s.add null i x).slot x = .head i := by
    have hxh : ¬ (x = s.head i ∧ s.head i ≠ null) := by
      rintro ⟨he, hn⟩
      cases l with
      | nil => exact hn h
      | cons y t => exact hx (by simp [he, show s.head i = y from h.1])
    rw [Store.slot_add, if_neg hxh, if_pos rfl]
  have hnextx : (s.add null i x).read (.next x) = s.head i := by
    rw [Store.read_add, if_neg (by simp), if_pos rfl]
  refine ⟨by rw [Store.read_add, if_pos rfl], hne, hslotx, ?_⟩
  cases l with
  | nil => exact hnextx.trans h
  | cons y t =>
    have hyt : y ∉ t := (List.nodup_cons.mp h.nodup).1
    obtain ⟨hy, hyne, -, ht⟩ := h
    have hxy : y ≠ x := fun e => hx (by simp [e])
    have hxt : x ∉ t := fun e => hx (List.mem_cons_of_mem _ e)
    have hy' : s.head i = y := hy
    refine ⟨hnextx.trans hy, hyne, ?_, ?_⟩
    · rw [Store.slot_add, if_pos ⟨hy'.symm, hy' ▸ hyne⟩]
    · refine ht.of_same (.add (by simp) hxt (by simpa using hxy) ?_)
      intro _
      rwa [hy']

/-- Unlinking a node of another list leaves a list alone. -/
theorem Same.del (hc : c ≠ s.slot x) (hslot : ∀ y ∈ l, s.slot x ≠ .next y)
    (hnext : s.next x ≠ null → s.next x ∉ l) : Same s (s.del null x) c l := by
  refine ⟨?_, ?_, ?_⟩
  · rw [Store.read_del, if_neg hc]
  · intro y hy
    rw [← Store.read_next, Store.read_del, if_neg (Ne.symm (hslot y hy)), Store.read_next]
  · intro y hy
    have hyn : ¬ (y = s.next x ∧ s.next x ≠ null) := fun e => hnext e.2 (e.1 ▸ hy)
    rw [Store.slot_del, if_neg hyn]

/-- Unlinking a node from the middle of its list. -/
theorem Seg.del {l₁ l₂ : List α} (h : Seg null s c (l₁ ++ x :: l₂))
    (hc : ∀ y ∈ l₁ ++ x :: l₂, c ≠ .next y) : Seg null (s.del null x) c (l₁ ++ l₂) := by
  induction l₁ generalizing c with
  | nil =>
    obtain ⟨-, hne, hsl, ht⟩ := h
    have hread : (s.del null x).read c = s.next x := by rw [Store.read_del, if_pos hsl.symm]
    cases l₂ with
    | nil => exact hread.trans ht
    | cons y t =>
      have hyt : y ∉ t := (List.nodup_cons.mp ht.nodup).1
      obtain ⟨hy, hyne, -, ht⟩ := ht
      have hy' : s.next x = y := hy
      refine ⟨hread.trans hy', hyne, ?_, ?_⟩
      · rw [Store.slot_del, if_pos ⟨hy'.symm, hy' ▸ hyne⟩, hsl]
      · refine ht.of_same (.del ?_ ?_ ?_)
        · rw [hsl]
          exact (hc y (by simp)).symm
        · intro z hz
          rw [hsl]
          exact hc z (by simp [hz])
        · intro _
          rwa [hy']
  | cons z t ih =>
    have hnd : (z :: (t ++ x :: l₂)).Nodup := h.nodup
    obtain ⟨hz, hzne, hzsl, ht⟩ := h
    obtain ⟨hzt, hnd'⟩ := List.nodup_cons.mp hnd
    have hslot : s.slot x = .next z ∨ ∃ y ∈ t ++ x :: l₂, s.slot x = .next y :=
      ht.slot_mem (by simp)
    have hcx : c ≠ s.slot x := by
      rcases hslot with e | ⟨y, hy, e⟩
      · rw [e]
        exact hc z (by simp)
      · rw [e]
        exact hc y (List.mem_cons_of_mem _ hy)
    have hzn : ¬ (z = s.next x ∧ s.next x ≠ null) := by
      rintro ⟨e, hn⟩
      rcases ht.next_mem (x := x) (by simp) with h0 | hmem
      · exact hn h0
      · exact hzt (e ▸ hmem)
    refine ⟨?_, hzne, ?_, ih ht ?_⟩
    · rw [Store.read_del, if_neg hcx]
      exact hz
    · rw [Store.slot_del, if_neg hzn]
      exact hzsl
    · intro y hy he
      exact hzt (Cell.next.inj he ▸ hy)

/-- Linking leaves every other list alone. -/
theorem Represents.same_add {i j : ι} (h : Represents null s live L) (hi : live i) (hj : live j)
    (hx : x ∉ L j) (hji : j ≠ i) : Same s (s.add null i x) (.head j) (L j) := by
  refine .add (by simpa using hji) hx (by simp) ?_
  intro hn hmem
  have hown : s.head i ∈ L i := by
    have hseg := h.seg i hi
    cases hL : L i with
    | nil =>
      rw [hL] at hseg
      exact absurd hseg hn
    | cons y t =>
      rw [hL] at hseg
      simp [show s.head i = y from hseg.1]
  exact hji (h.disjoint j i _ hj hi hmem hown)

/-- Unlinking leaves every other list alone. -/
theorem Represents.same_del {i j : ι} (h : Represents null s live L) (hi : live i) (hj : live j)
    (hx : x ∈ L i) (hji : j ≠ i) : Same s (s.del null x) (.head j) (L j) := by
  have hseg := h.seg i hi
  have hslot := hseg.slot_mem hx
  have hoff : ∀ y ∈ L i, y ∉ L j := fun y hy hy' => hji (h.disjoint j i y hj hi hy' hy)
  refine .del ?_ ?_ ?_
  · rcases hslot with e | ⟨y, -, e⟩ <;> rw [e]
    · simpa using hji
    · simp
  · intro y hy e
    rcases hslot with e' | ⟨z, hz, e'⟩
    · rw [e'] at e
      exact absurd e (by simp)
    · rw [e', Cell.next.injEq] at e
      exact hoff z hz (e ▸ hy)
  · intro hn
    rcases hseg.next_mem hx with h0 | hmem
    · exact absurd h0 hn
    · exact hoff _ hmem

/-- **Linking refines `x :: L i`**, and leaves every other list alone. -/
theorem Represents.add {i : ι} (h : Represents null s live L) (hi : live i)
    (hx : ∀ j, live j → x ∉ L j) (hne : x ≠ null) :
    Represents null (s.add null i x) live (Function.update L i (x :: L i)) := by
  constructor
  · intro j hj
    by_cases hji : j = i
    · subst hji
      rw [Function.update_self]
      exact (h.seg j hj).add (hx j hj) hne
    · rw [Function.update_of_ne hji]
      exact (h.seg j hj).of_same (h.same_add hi hj (hx j hj) hji)
  · intro j k y hj hk hyj hyk
    simp only [Function.update_apply] at hyj hyk
    split at hyj <;> split at hyk
    · simp_all
    · rename_i hji hki
      rcases List.mem_cons.mp hyj with rfl | hyj
      · exact absurd hyk (hx k hk)
      · exact absurd (h.disjoint k i y hk hi hyk hyj) hki
    · rename_i hji hki
      rcases List.mem_cons.mp hyk with rfl | hyk
      · exact absurd hyj (hx j hj)
      · exact absurd (h.disjoint j i y hj hi hyj hyk) hji
    · exact h.disjoint j k y hj hk hyj hyk

/-- **Unlinking refines `erase`**, and leaves every other list alone. -/
theorem Represents.del {i : ι} (h : Represents null s live L) (hi : live i) (hx : x ∈ L i) :
    Represents null (s.del null x) live (Function.update L i ((L i).erase x)) := by
  have hseg := h.seg i hi
  constructor
  · intro j hj
    by_cases hji : j = i
    · subst hji
      rw [Function.update_self]
      obtain ⟨l₁, l₂, hl⟩ := List.append_of_mem hx
      have hnd : (l₁ ++ x :: l₂).Nodup := hl ▸ hseg.nodup
      have hx₁ : x ∉ l₁ := fun hmem =>
        (List.nodup_append.mp hnd).2.2 x hmem x (List.mem_cons_self ..) rfl
      rw [hl, List.erase_append_right _ hx₁, List.erase_cons_head]
      exact (hl ▸ hseg).del (by simp)
    · rw [Function.update_of_ne hji]
      exact (h.seg j hj).of_same (h.same_del hi hj hx hji)
  · intro j k y hj hk hyj hyk
    have hsub : ∀ j y, y ∈ Function.update L i ((L i).erase x) j → y ∈ L j := by
      intro j y hy
      rw [Function.update_apply] at hy
      split at hy
      · rename_i hji
        exact hji ▸ List.mem_of_mem_erase hy
      · exact hy
    exact h.disjoint j k y hj hk (hsub j y hyj) (hsub k y hyk)

end Operations

end SlotList
