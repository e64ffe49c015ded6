import Yaooi.Lib.ByteOrder

/-!
# Addresses

`yo_addr_t` of `inc/yaooi/addr.h`: the kind of address, and a union of four bytes and eight 16-bit
words.  The union is kept as the bytes it is in memory, since parts of the library read and
compare more of it than they wrote; its words depend on the byte order of the machine.
-/

namespace Yaooi

open ByteOrder (Byte)

/-- `yo_addr_type_t` -/
inductive YoAddrType where
  | ipv4
  | ipv6
  deriving DecidableEq, Repr

/-- `yo_addr_t`, with the 16 bytes of its union. -/
structure YoAddr where
  type : YoAddrType
  bytes : Fin 16 → Byte

namespace YoAddr

/-- `v4[i]` -/
def v4 (a : YoAddr) (i : Fin 4) : Byte := a.bytes ⟨i, by omega⟩

/-- `v6[i]` -/
def v6 (o : ByteOrder) (a : YoAddr) : Fin 8 → BitVec 16 := o.words (n := 8) a.bytes

/-- `v4[i] = b` -/
def setV4 (a : YoAddr) (i : Fin 4) (b : Byte) : YoAddr :=
  { a with bytes := Function.update a.bytes ⟨i, by omega⟩ b }

/-- An IPv6 address with these words. -/
def ofV6 (o : ByteOrder) (w : Fin 8 → BitVec 16) : YoAddr := ⟨.ipv6, o.bytes (n := 8) w⟩

variable {o : ByteOrder} {a b : YoAddr} {i j : Fin 4} {x : Byte}

@[simp] theorem type_setV4 : (a.setV4 i x).type = a.type := rfl

theorem v4_setV4 : (a.setV4 i x).v4 j = if j = i then x else a.v4 j := by
  simp [v4, setV4, Function.update_apply, Fin.ext_iff]

/-- The words are the address. -/
theorem ofV6_v6 (h : a.type = .ipv6) : ofV6 o (a.v6 o) = a := by
  rw [ofV6, v6, ByteOrder.bytes_words, ← h]

@[simp] theorem v6_ofV6 (w : Fin 8 → BitVec 16) : (ofV6 o w).v6 o = w := ByteOrder.words_bytes w

end YoAddr

/-- `yo_addrcmp` -/
def yoAddrcmp (a b : YoAddr) : Bool :=
  if a.type ≠ b.type then false
  else if a.type = .ipv4 then decide (∀ i, a.v4 i = b.v4 i)
  else decide (∀ k, a.bytes k = b.bytes k)

variable {a b : YoAddr}

theorem yoAddrcmp_ipv4 (ha : a.type = .ipv4) (hb : b.type = .ipv4) :
    yoAddrcmp a b = true ↔ ∀ i, a.v4 i = b.v4 i := by
  simp [yoAddrcmp, ha, hb]

theorem yoAddrcmp_ipv6 (ha : a.type = .ipv6) (hb : b.type = .ipv6) :
    yoAddrcmp a b = true ↔ a.bytes = b.bytes := by
  simp [yoAddrcmp, ha, hb, funext_iff]

/-- Only addresses of one type are equal. -/
theorem type_eq_of_yoAddrcmp (h : yoAddrcmp a b = true) : a.type = b.type := by
  by_contra hne
  simp [yoAddrcmp, hne] at h

@[simp] theorem yoAddrcmp_self (a : YoAddr) : yoAddrcmp a a = true := by simp [yoAddrcmp]

end Yaooi
