import Mathlib.Algebra.Group.Nat.Defs
import Mathlib.Data.Nat.Notation

/-!
# Reading numerals

`Nat.toDigits` writes a number as `printf` does.  A program that reads it back goes through the text
from the left, one digit at a time.  `read_toDigits` is the rule for such a loop: if a step over a
digit `d` takes the accumulator from `n` to `n * b + d`, as long as fewer than `limit` digits were
read, the loop stands at the number after its numeral, unless that has more digits than `limit`.
-/

namespace Numeral

variable {b n : ℕ}

/-- The characters of a numeral are digits of its base. -/
theorem exists_of_mem_toDigits {c : Char} (hb : 1 < b) (hc : c ∈ Nat.toDigits b n) :
    ∃ d < b, c = d.digitChar := by
  induction n using Nat.strongRecOn with
  | ind n ih =>
    rw [Nat.toDigits_eq_if hb] at hc
    split at hc
    · rename_i hlt
      exact ⟨n, hlt, by simpa using hc⟩
    · rename_i hge
      rcases List.mem_append.mp hc with hc | hc
      · exact ih (n / b) (Nat.div_lt_self (by omega) hb) hc
      · exact ⟨n % b, Nat.mod_lt n (by omega), by simpa using hc⟩

/-- A numeral has a first digit. -/
theorem exists_toDigits_cons (hb : 1 < b) (n : ℕ) :
    ∃ d < b, ∃ ds, Nat.toDigits b n = d.digitChar :: ds := by
  cases hds : Nat.toDigits b n with
  | nil => exact absurd hds Nat.toDigits_ne_nil
  | cons c ds =>
    obtain ⟨d, hd, rfl⟩ := exists_of_mem_toDigits hb (hds ▸ List.mem_cons_self ..)
    exact ⟨d, hd, ds, rfl⟩

/-- **Reading a numeral.**  `run k n text` is what the loop does with the text when it has read
`k` digits and accumulated `n`. -/
theorem read_toDigits {β : Type*} (limit : ℕ) (hb : 1 < b) (run : ℕ → ℕ → List Char → β)
    (hrun : ∀ k n d rest, k < limit → n < b ^ k → d < b →
      run k n (d.digitChar :: rest) = run (k + 1) (n * b + d) rest)
    (hlimit : 0 < limit) (hn : n < b ^ limit) (rest : List Char) :
    run 0 0 (Nat.toDigits b n ++ rest) = run (Nat.toDigits b n).length n rest := by
  have hlen : (Nat.toDigits b n).length ≤ limit := (Nat.length_toDigits_le_iff hb hlimit).mpr hn
  clear hn
  induction n using Nat.strongRecOn generalizing rest with
  | ind n ih =>
    rw [Nat.toDigits_eq_if hb] at hlen ⊢
    split at hlen
    · rename_i hlt
      rw [if_pos hlt]
      have := hrun 0 0 n rest hlimit (by simp) hlt
      simpa using this
    · rename_i hge
      rw [if_neg hge]
      simp only [List.length_append, List.length_singleton, List.append_assoc,
        List.singleton_append] at hlen ⊢
      have hlt : n / b < b ^ (Nat.toDigits b (n / b)).length :=
        (Nat.length_toDigits_le_iff hb Nat.length_toDigits_pos).mp (Nat.le_refl _)
      rw [ih (n / b) (Nat.div_lt_self (by omega) hb) _ (by omega),
        hrun _ _ _ _ (by omega) hlt (Nat.mod_lt n (by omega)), Nat.mul_comm, Nat.div_add_mod]

end Numeral
