import Mathlib.Data.Nat.Notation
import Mathlib.Logic.Function.Basic

/-!
# Words in memory

A 16-bit word lies in two bytes, in an order that depends on the machine, and the network has an
order of its own.  `load` and `store` read and write a word on a machine of either order, `htons`
turns a word into the one that lies in network order; an array of words is an array of twice as
many bytes.

* `load_store`, `store_load`: a word and its two bytes determine each other.
* `byte0_htons`, `byte1_htons`, `htons_load`: what network order means, on every machine.
* `words_bytes`, `bytes_words`: the same for arrays.
-/

/-- The order of the bytes of a word in memory. -/
inductive ByteOrder where
  | little
  | big
  deriving DecidableEq, Repr

namespace ByteOrder

/-- A byte. -/
abbrev Byte := BitVec 8

/-- The high byte of a word. -/
def high (w : BitVec 16) : Byte := w.extractLsb' 8 8

/-- The low byte of a word. -/
def low (w : BitVec 16) : Byte := w.extractLsb' 0 8

variable (o : ByteOrder)

/-- The word in two bytes of memory. -/
def load (b₀ b₁ : Byte) : BitVec 16 :=
  match o with
  | little => b₁ ++ b₀
  | big => b₀ ++ b₁

/-- The first byte of a word in memory. -/
def byte0 (w : BitVec 16) : Byte :=
  match o with
  | little => low w
  | big => high w

/-- The second byte of a word in memory. -/
def byte1 (w : BitVec 16) : Byte :=
  match o with
  | little => high w
  | big => low w

/-- `htons`, and `ntohs`, which does the same. -/
def htons (w : BitVec 16) : BitVec 16 :=
  match o with
  | little => low w ++ high w
  | big => w

/-! ## One word -/

@[simp] theorem high_append (a b : Byte) : high (a ++ b) = a :=
  BitVec.extractLsb'_append_eq_left

@[simp] theorem low_append (a b : Byte) : low (a ++ b) = b :=
  BitVec.extractLsb'_append_eq_right

@[simp] theorem high_append_low (w : BitVec 16) : (high w ++ low w : BitVec 16) = w :=
  BitVec.extractLsb'_append_extractLsb'

variable {o}

@[simp] theorem load_store (w : BitVec 16) : o.load (o.byte0 w) (o.byte1 w) = w := by
  cases o <;> simp [load, byte0, byte1]

@[simp] theorem byte0_load (b₀ b₁ : Byte) : o.byte0 (o.load b₀ b₁) = b₀ := by
  cases o <;> simp [load, byte0]

@[simp] theorem byte1_load (b₀ b₁ : Byte) : o.byte1 (o.load b₀ b₁) = b₁ := by
  cases o <;> simp [load, byte1]

/-- A word in network order has its high byte first, on every machine. -/
@[simp] theorem byte0_htons (w : BitVec 16) : o.byte0 (o.htons w) = high w := by
  cases o <;> simp [htons, byte0]

@[simp] theorem byte1_htons (w : BitVec 16) : o.byte1 (o.htons w) = low w := by
  cases o <;> simp [htons, byte1]

@[simp] theorem htons_htons (w : BitVec 16) : o.htons (o.htons w) = w := by
  cases o <;> simp [htons]

/-! ## Arrays of words -/

variable {n : ℕ}

variable (o) in
/-- The words in an array of bytes. -/
def words (b : Fin (2 * n) → Byte) (i : Fin n) : BitVec 16 :=
  o.load (b ⟨2 * i, by omega⟩) (b ⟨2 * i + 1, by omega⟩)

variable (o) in
/-- The bytes in an array of words. -/
def bytes (w : Fin n → BitVec 16) (k : Fin (2 * n)) : Byte :=
  if k.val % 2 = 0 then o.byte0 (w ⟨k.val / 2, by omega⟩) else o.byte1 (w ⟨k.val / 2, by omega⟩)

/-- The first byte of each word. -/
theorem bytes_even (w : Fin n → BitVec 16) (i : Fin n) (h : 2 * i.val < 2 * n) :
    o.bytes w ⟨2 * i, h⟩ = o.byte0 (w i) := by
  simp [bytes]

/-- The second byte of each word. -/
theorem bytes_odd (w : Fin n → BitVec 16) (i : Fin n) (h : 2 * i.val + 1 < 2 * n) :
    o.bytes w ⟨2 * i + 1, h⟩ = o.byte1 (w i) := by
  have hdiv : (2 * i.val + 1) / 2 = i := by omega
  simp [bytes, hdiv]

/-- Every byte is one of a word. -/
theorem bytes_ext {b c : Fin (2 * n) → Byte}
    (heven : ∀ i : Fin n, b ⟨2 * i, by omega⟩ = c ⟨2 * i, by omega⟩)
    (hodd : ∀ i : Fin n, b ⟨2 * i + 1, by omega⟩ = c ⟨2 * i + 1, by omega⟩) : b = c := by
  funext k
  obtain ⟨i, hi⟩ : ∃ i : Fin n, k.val = 2 * i ∨ k.val = 2 * i + 1 :=
    ⟨⟨k.val / 2, by omega⟩, by simp only; omega⟩
  rcases hi with hi | hi
  · rw [show k = ⟨2 * i, by omega⟩ from Fin.ext hi]
    exact heven i
  · rw [show k = ⟨2 * i + 1, by omega⟩ from Fin.ext hi]
    exact hodd i

@[simp] theorem words_bytes (w : Fin n → BitVec 16) : o.words (o.bytes w) = w := by
  funext i
  rw [words, bytes_even, bytes_odd, load_store]

@[simp] theorem bytes_words (b : Fin (2 * n) → Byte) : o.bytes (o.words b) = b := by
  refine bytes_ext (fun i => ?_) fun i => ?_
  · rw [bytes_even, words, byte0_load]
  · rw [bytes_odd, words, byte1_load]

end ByteOrder
