import Mathlib.Data.Nat.Notation

/-!
# Reading until the end

A reader gives a chunk and goes on in another state, reports the end, or fails.  `Drains` is the run
that asks it again and again until it reports the end.

* `Drains.unique`: there is one result at most.
* `Drains.of_rest`: a reader that gives what is left piece by piece gives all of it.
* `Drains.dvd_length` and `Drains.length_le` bound what a reader can give.
-/

namespace Reader

/-- What a reader answers. -/
inductive Answer (σ α : Type*) where
  | chunk (c : List α) (s : σ)
  | eof
  | failed

variable {σ α : Type*}

/-- The chunks up to the end, put together. -/
inductive Drains (read : σ → Answer σ α) : σ → List α → Prop
  | eof {s : σ} : read s = .eof → Drains read s []
  | chunk {s s' : σ} {c l : List α} : read s = .chunk c s' → Drains read s' l →
      Drains read s (c ++ l)

variable {read : σ → Answer σ α} {P : σ → Prop} {s : σ} {l l' : List α} {k : ℕ}

theorem Drains.unique (h : Drains read s l) (h' : Drains read s l') : l = l' := by
  induction h generalizing l' with
  | eof heof =>
    cases h' with
    | eof => rfl
    | chunk hchunk => exact absurd (heof.symm.trans hchunk) (by simp)
  | chunk hchunk _ ih =>
    cases h' with
    | eof heof => exact absurd (hchunk.symm.trans heof) (by simp)
    | chunk hchunk' hrest =>
      obtain ⟨rfl, rfl⟩ := Answer.chunk.inj (hchunk.symm.trans hchunk')
      rw [ih hrest]

/-- What is left gets shorter with each chunk, so the end is reached. -/
theorem Drains.of_rest (rest : σ → List α)
    (hread : ∀ s, P s → (read s = .eof ∧ rest s = []) ∨
      ∃ c s', read s = .chunk c s' ∧ P s' ∧ c ≠ [] ∧ rest s = c ++ rest s')
    (h : P s) : Drains read s (rest s) := by
  induction hn : (rest s).length using Nat.strongRecOn generalizing s with
  | ind n ih =>
    rcases hread s h with ⟨heof, hnil⟩ | ⟨c, s', hchunk, hs', hc, hrest⟩
    · rw [hnil]
      exact .eof heof
    · have hpos : 0 < c.length := List.length_pos_iff.mpr hc
      have hlt : (rest s').length < n := by
        rw [← hn, hrest, List.length_append]
        omega
      rw [hrest]
      exact .chunk hchunk (ih _ hlt hs' rfl)

/-- Chunks of whole blocks give whole blocks. -/
theorem Drains.dvd_length
    (hread : ∀ s c s', P s → read s = .chunk c s' → P s' ∧ k ∣ c.length)
    (h : Drains read s l) (hs : P s) : k ∣ l.length := by
  induction h with
  | eof => exact Nat.dvd_zero k
  | chunk hchunk _ ih =>
    obtain ⟨hs', hdvd⟩ := hread _ _ _ hs hchunk
    rw [List.length_append]
    exact Nat.dvd_add hdvd (ih hs')

/-- A reader that moves on by `k` for each element can give no more than fits. -/
theorem Drains.length_le (room : σ → ℕ)
    (hread : ∀ s c s', P s → read s = .chunk c s' → P s' ∧ k * c.length + room s' ≤ room s)
    (h : Drains read s l) (hs : P s) : k * l.length ≤ room s := by
  induction h with
  | eof => exact Nat.zero_le _
  | chunk hchunk _ ih =>
    obtain ⟨hs', hle⟩ := hread _ _ _ hs hchunk
    have hrest := ih hs'
    rw [List.length_append, Nat.mul_add]
    omega

end Reader
