import Mathlib.Data.List.Chain
import Yaooi.Addr.Parse

/-!
# The language of the IPv6 parser

An IPv6 address is written as eight groups of one to four hexadecimal digits with colons between
them, or as fewer groups with one `::` in the place of the missing ones.  `yo_parse_ipv6` of
`src/addr.c` has a branch for `::`, but the test for a single colon before it takes every colon, so
only a `::` at the start is seen, and the groups after it stay where they are.

* `Denotes` says what is written, and `Loose` what the loop of the parser reads.
* `yoParseIpv6_eq_accept_iff`: the parser accepts exactly this, after a `::` or not.
* `meetsIpv6_iff`: it does what it should unless the text has a `::` behind a group, a group that is
  not zero behind a `::`, or a form that only the loop takes.
-/

namespace Yaooi

/-- A string: a NUL ends it. -/
structure CString where
  chars : List Char
  noNul : NUL ∉ chars

/-! ## What is written -/

/-- The value of a hexadecimal digit. -/
def xdigitValue (c : Char) : ℕ :=
  if c.isDigit then c.toNat - '0'.toNat
  else if c.isLower then c.toNat - 'a'.toNat + 10
  else c.toNat - 'A'.toNat + 10

/-- The number that the digits stand for. -/
def hexValue (ds : List Char) : ℕ := ds.foldl (fun n c => n * 16 + xdigitValue c) 0

/-- One to four hexadecimal digits. -/
@[ext] structure HexGroup where
  chars : List Char
  ne : chars ≠ []
  le : chars.length ≤ 4
  digits : ∀ c ∈ chars, isxdigit c = true

namespace HexGroup

/-- The word that the group stands for. -/
def value (g : HexGroup) : BitVec 16 := BitVec.ofNat 16 (hexValue g.chars)

/-- The groups with colons between them. -/
def colons (gs : List HexGroup) : List Char := [':'].intercalate (gs.map chars)

end HexGroup

open HexGroup (colons)

/-- **The IPv6 addresses**, with the eight words they stand for. -/
inductive Denotes : List Char → List (BitVec 16) → Prop
  | full (gs : List HexGroup) (h : gs.length = 8) : Denotes (colons gs) (gs.map HexGroup.value)
  | short (xs ys : List HexGroup) (h : xs.length + ys.length < 8) :
      Denotes (colons xs ++ ':' :: ':' :: colons ys)
        (xs.map HexGroup.value ++ List.replicate (8 - xs.length - ys.length) 0#16 ++
          ys.map HexGroup.value)

/-- An IPv6 address with these words, and zeros for those that are missing. -/
def YoAddr.ofWords (o : ByteOrder) (l : List (BitVec 16)) : YoAddr := ofV6 o fun i => l.getD i 0#16

/-- The parser accepts the text if and only if it is an IPv6 address, and then gives that
address. -/
def ParsesIpv6 (o : ByteOrder) (str : List Char) (p : Parse) : Prop :=
  (∀ a, p = .accept a ↔ ∃ l, Denotes str l ∧ a = .ofWords o l) ∧ p ≠ .stray

/-- `yo_parse_ipv6` does, and so `yo_addrparse` does, in a text that has no IPv4 part. -/
def MeetsIpv6 (o : ByteOrder) (str : List Char) : Prop :=
  ParsesIpv6 o str (yoParseIpv6 o str) ∧
    ('.' ∉ str → ∀ stack, ParsesIpv6 o str (yoAddrparse o str stack))

/-! ## What the loop reads -/

/-- What the loop of `yo_parse_ipv6` reads to the end with `n` rounds left: a colon is taken after
every group, also after the last one it has a round for, and missed after none that has four
digits. -/
inductive Loose : ℕ → List HexGroup → List Char → Prop
  | last {n : ℕ} (g : HexGroup) : Loose (n + 1) [g] g.chars
  | trailing (g : HexGroup) : Loose 1 [g] (g.chars ++ [':'])
  | colon {n : ℕ} {gs : List HexGroup} {s : List Char} (g : HexGroup) (h : Loose (n + 1) gs s) :
      Loose (n + 2) (g :: gs) (g.chars ++ ':' :: s)
  | glued {n : ℕ} {gs : List HexGroup} {s : List Char} (g : HexGroup) (hg : g.chars.length = 4)
      (h : Loose (n + 1) gs s) : Loose (n + 2) (g :: gs) (g.chars ++ s)

/-- A `::` behind a group, in an IPv6 address. -/
def Inside (str : List Char) : Prop :=
  ∃ xs ys : List HexGroup, xs ≠ [] ∧ xs.length + ys.length < 8 ∧
    str = colons xs ++ ':' :: ':' :: colons ys

/-- A `::` before a group that is not zero, in an IPv6 address. -/
def Shifted (str : List Char) : Prop :=
  ∃ ys : List HexGroup, ys.length < 8 ∧ str = ':' :: ':' :: colons ys ∧ ∃ y ∈ ys, y.value ≠ 0#16

/-- A text that only the loop takes for an IPv6 address: one with too few groups and no `::`, one
with eight groups after a `::`, or one in which a colon is missing or too many. -/
inductive Sloppy : List Char → Prop
  | few {gs : List HexGroup} {s : List Char} (h : Loose 8 gs s) (hlen : gs.length < 8) : Sloppy s
  | many {gs : List HexGroup} {s : List Char} (h : Loose 8 gs s) (hlen : gs.length = 8) :
      Sloppy (':' :: ':' :: s)
  | untidy {gs : List HexGroup} {s : List Char} (lead : List Char)
      (hlead : lead = [] ∨ lead = [':', ':']) (h : Loose 8 gs s) (hs : s ≠ colons gs) :
      Sloppy (lead ++ s)

variable {o : ByteOrder} {a : YoAddr} {g h : HexGroup} {gs gs' xs ys : List HexGroup} {c : Char}
  {str s rest ds : List Char} {n m j : ℕ} {w : BitVec 16}

/-! ## Reading a group -/

/-- A property of all hexadecimal digits is checked digit by digit. -/
theorem forall_xdigit {P : Char → Prop} [DecidablePred P]
    (h : ("0123456789abcdefABCDEF".toList.all fun c => decide (P c)) = true)
    (hc : isxdigit c = true) : P c := by
  apply of_decide_eq_true
  apply List.all_eq_true.mp h
  have hall : ∀ n < 128, isxdigit (Char.ofNat n) = true →
      Char.ofNat n ∈ "0123456789abcdefABCDEF".toList := by decide
  have hlt : c.toNat < 128 := by
    have hf : c.toNat ≤ 102 := by
      simp only [isxdigit, Char.isDigit, Bool.or_eq_true, Bool.and_eq_true, decide_eq_true_eq,
        Char.le_def, UInt32.le_iff_toNat_le] at hc
      rcases hc with (⟨-, hc⟩ | ⟨-, hc⟩) | ⟨-, hc⟩ <;> exact hc.trans (by decide)
    omega
  have hmem := hall c.toNat hlt
  rw [Char.ofNat_toNat] at hmem
  exact hmem hc

theorem xdigitValue_lt (hc : isxdigit c = true) : xdigitValue c < 16 :=
  forall_xdigit (P := fun c => xdigitValue c < 16) (by decide) hc

/-- It is a decimal digit, a small letter or a capital one. -/
theorem xdigit_cases (hc : isxdigit c = true) :
    c.isDigit = true ∧ c.isLower = false ∧ c.isUpper = false ∨
      c.isDigit = false ∧ c.isLower = true ∧ c.isUpper = false ∨
        c.isDigit = false ∧ c.isLower = false ∧ c.isUpper = true :=
  forall_xdigit (P := fun c => c.isDigit = true ∧ c.isLower = false ∧ c.isUpper = false ∨
    c.isDigit = false ∧ c.isLower = true ∧ c.isUpper = false ∨
      c.isDigit = false ∧ c.isLower = false ∧ c.isUpper = true) (by decide) hc

/-- The digit is shifted in by its value. -/
theorem ipv6Digit_eq (w : BitVec 16) (hc : isxdigit c = true) :
    ipv6Digit w c = w <<< 4 ||| BitVec.ofNat 16 (xdigitValue c) := by
  rcases xdigit_cases hc with ⟨hd, hl, hu⟩ | ⟨hd, hl, hu⟩ | ⟨hd, hl, hu⟩ <;>
    simp [ipv6Digit, xdigitValue, hd, hl, hu]

/-- It is the next digit of a number, while the word has room for it. -/
theorem ipv6Digit_xdigit (hn : n < 2 ^ 12) (hc : isxdigit c = true) :
    ipv6Digit (BitVec.ofNat 16 n) c = BitVec.ofNat 16 (n * 16 + xdigitValue c) := by
  rw [ipv6Digit_eq _ hc, ofNat_shiftLeft_or hn (xdigitValue_lt hc)]

/-- The loop over the digits of a group stops after them, if it has no round left or if no digit
follows. -/
theorem ipv6Digits_append (hds : ∀ c ∈ ds, isxdigit c = true) (hj : ds.length ≤ j)
    (hrest : ds.length = j ∨ isxdigit (peek rest) = false) :
    ipv6Digits j w (ds ++ rest) = (ds.foldl ipv6Digit w, rest) := by
  induction ds generalizing j w with
  | nil =>
    rcases hrest with rfl | hrest
    · rfl
    · exact ipv6Digits_of_not_isxdigit hrest
  | cons c ds ih =>
    obtain ⟨hc, hds⟩ := List.forall_mem_cons.mp hds
    obtain ⟨j, rfl⟩ : ∃ i, j = i + 1 := ⟨j - 1, by simp at hj; omega⟩
    rw [List.cons_append, ipv6Digits, peek_cons, if_pos hc, List.tail_cons, List.foldl_cons]
    exact ih hds (by simpa using hj) (by simpa using hrest)

/-- Up to four digits are a number that a word has room for. -/
theorem foldl_ipv6Digit (hds : ∀ c ∈ ds, isxdigit c = true) (hlen : ds.length ≤ j)
    (hn : n < 16 ^ (4 - j)) (hj : j ≤ 4) :
    ds.foldl ipv6Digit (BitVec.ofNat 16 n) =
      BitVec.ofNat 16 (ds.foldl (fun n c => n * 16 + xdigitValue c) n) := by
  induction ds generalizing j n with
  | nil => rfl
  | cons c ds ih =>
    obtain ⟨hc, hds⟩ := List.forall_mem_cons.mp hds
    obtain ⟨j, rfl⟩ : ∃ i, j = i + 1 := ⟨j - 1, by simp at hlen; omega⟩
    have hlt := xdigitValue_lt hc
    have hpow : 16 ^ (4 - j) = 16 ^ (4 - (j + 1)) * 16 := by
      rw [← Nat.pow_succ]
      congr 1
      omega
    have hsmall : n < 2 ^ 12 := hn.trans_le <| by
      have := Nat.pow_le_pow_right (n := 16) (by omega) (show 4 - (j + 1) ≤ 3 by omega)
      omega
    rw [List.foldl_cons, List.foldl_cons, ipv6Digit_xdigit hsmall hc]
    exact ih hds (by simpa using hlen) (by omega) (by omega)

namespace HexGroup

/-- The loop reads a group. -/
theorem ipv6Digits_chars (g : HexGroup)
    (hrest : g.chars.length = 4 ∨ isxdigit (peek rest) = false) :
    ipv6Digits 4 0#16 (g.chars ++ rest) = (g.value, rest) := by
  rw [ipv6Digits_append g.digits g.le hrest]
  have hvalue := foldl_ipv6Digit (n := 0) g.digits g.le (by decide) le_rfl
  rw [value, hexValue, ← hvalue]

theorem isxdigit_peek (g : HexGroup) (rest : List Char) :
    isxdigit (peek (g.chars ++ rest)) = true := by
  obtain ⟨c, ds, hds⟩ := List.exists_cons_of_ne_nil g.ne
  rw [hds]
  exact g.digits c (by simp [hds])

/-- Every text has up to `j` digits in front, and no more digits if they are fewer. -/
theorem exists_digits (j : ℕ) (s : List Char) :
    ∃ ds rest, s = ds ++ rest ∧ (∀ c ∈ ds, isxdigit c = true) ∧ ds.length ≤ j ∧
      (ds.length = j ∨ isxdigit (peek rest) = false) := by
  induction j generalizing s with
  | zero => exact ⟨[], s, rfl, by simp, le_rfl, .inl rfl⟩
  | succ j ih =>
    cases hc : isxdigit (peek s) with
    | false => exact ⟨[], s, rfl, by simp, Nat.zero_le _, .inr hc⟩
    | true =>
      cases s with
      | nil => cases hc
      | cons c s =>
        obtain ⟨ds, rest, rfl, hds, hlen, hrest⟩ := ih s
        exact ⟨c :: ds, rest, rfl, List.forall_mem_cons.mpr ⟨hc, hds⟩, by simpa using hlen,
          by simpa using hrest⟩

/-- A text that begins with a digit begins with a group. -/
theorem exists_eq_append (h : isxdigit (peek s) = true) :
    ∃ (g : HexGroup) (rest : List Char), s = g.chars ++ rest ∧
      (g.chars.length = 4 ∨ isxdigit (peek rest) = false) := by
  obtain ⟨ds, rest, rfl, hds, hlen, hrest⟩ := exists_digits 4 s
  refine ⟨⟨ds, ?_, hlen, hds⟩, rest, rfl, hrest⟩
  rintro rfl
  rcases hrest with hrest | hrest
  · cases hrest
  · exact absurd (h.symm.trans hrest) (by decide)

/-- It is only one group, if that has four digits or no digit follows. -/
theorem append_inj {rest' : List Char} (hg : g.chars.length = 4 ∨ isxdigit (peek rest) = false)
    (hh : h.chars.length = 4 ∨ isxdigit (peek rest') = false)
    (he : g.chars ++ rest = h.chars ++ rest') : g = h ∧ rest = rest' := by
  -- neither group can be longer than the other one
  have key : ∀ (g h : HexGroup) (rest rest' : List Char),
      (g.chars.length = 4 ∨ isxdigit (peek rest) = false) → g.chars ++ rest = h.chars ++ rest' →
        h.chars.length ≤ g.chars.length := by
    intro g h rest rest' hg he
    by_contra hlt
    rcases hg with hg | hg
    · exact hlt (h.le.trans_eq hg.symm)
    · obtain ⟨ds, hds, rfl⟩ := List.append_eq_append_iff.mp he |>.resolve_right fun ⟨ds, hds, _⟩ =>
        hlt (by rw [hds, List.length_append]; omega)
      cases ds with
      | nil => simp [hds] at hlt
      | cons c ds =>
        have hc : isxdigit c = true := h.digits c (by simp [hds])
        exact absurd (hc.symm.trans hg) (by decide)
  have hlen : g.chars.length = h.chars.length :=
    le_antisymm (key h g rest' rest hh he.symm) (key g h rest rest' hg he)
  obtain ⟨hchars, hrest⟩ := List.append_inj he hlen
  exact ⟨HexGroup.ext hchars, hrest⟩

end HexGroup

/-! ## The loop -/

/-- The body of the loop, at a group and a word that is still zero. -/
theorem ipv6Group_eq {t : Ipv6State} {i : Fin 8} (hzero : t.v6 i = 0#16)
    (hit : t.it = g.chars ++ rest) (hrest : g.chars.length = 4 ∨ isxdigit (peek rest) = false) :
    ipv6Group t i =
      if peek rest = ':' then
        .next { t with v6 := Function.update t.v6 i g.value, it := rest.tail }
      else if peek rest = NUL then
        .leave { t with v6 := Function.update t.v6 i g.value, it := rest }
      else .next { t with v6 := Function.update t.v6 i g.value, it := rest } := by
  have hdigits := g.ipv6Digits_chars hrest
  simp only [ipv6Group, hit, g.isxdigit_peek, hzero, hdigits]
  by_cases hcolon : peek rest = ':' <;> simp [hcolon]

/-- The words after the values of the groups are stored at these places, one after the other. -/
def assign (v : Fin 8 → BitVec 16) : List (Fin 8) → List HexGroup → Fin 8 → BitVec 16
  | i :: is, g :: gs => assign (Function.update v i g.value) is gs
  | _, _ => v

/-- What the loop reads begins with a digit. -/
theorem Loose.isxdigit_peek (hs : Loose n gs s) : isxdigit (peek s) = true := by
  cases hs with
  | last g => simpa using g.isxdigit_peek []
  | trailing g => exact g.isxdigit_peek _
  | colon g => exact g.isxdigit_peek _
  | glued g => exact g.isxdigit_peek _

/-- The words after the first are as they were. -/
theorem update_zero {i : Fin 8} {is : List (Fin 8)} {v : Fin 8 → BitVec 16} (hnot : i ∉ is)
    (hzero : ∀ k ∈ is, v k = 0#16) : ∀ k ∈ is, Function.update v i w k = 0#16 := by
  intro k hk
  have hki : k ≠ i := fun e => hnot (e ▸ hk)
  rw [Function.update_of_ne hki]
  exact hzero k hk

/-- **The loop reads this**, into words that are still zero. -/
theorem ipv6Loop_of_loose (hs : Loose n gs s) {is : List (Fin 8)} {t : Ipv6State}
    (hlen : is.length = n) (hnodup : is.Nodup) (hzero : ∀ i ∈ is, t.v6 i = 0#16)
    (hit : t.it = s) :
    ∃ i, ipv6Loop t is = some ({ t with v6 := assign t.v6 is gs, it := [] }, i) := by
  induction hs generalizing is t with
  | last g =>
    obtain ⟨i, is, rfl⟩ := List.exists_of_length_succ is hlen
    have hnil : t.it = g.chars ++ [] := hit.trans (List.append_nil _).symm
    have hgroup := ipv6Group_eq (hzero i (List.mem_cons_self ..)) hnil (.inr rfl)
    refine ⟨i, ?_⟩
    rw [ipv6Loop, hgroup]
    cases is <;> rfl
  | trailing g =>
    obtain ⟨i, is, rfl⟩ := List.exists_of_length_succ is hlen
    obtain rfl : is = [] := List.length_eq_zero_iff.mp (by simpa using hlen)
    have hgroup := ipv6Group_eq (hzero i (List.mem_cons_self ..)) hit (.inr rfl)
    refine ⟨8, ?_⟩
    rw [ipv6Loop, hgroup]
    rfl
  | @colon n gs s g hs ih =>
    obtain ⟨i, is, rfl⟩ := List.exists_of_length_succ is hlen
    obtain ⟨hi, hnodup⟩ := List.nodup_cons.mp hnodup
    obtain ⟨hzero_i, hzero⟩ := List.forall_mem_cons.mp hzero
    have hgroup := ipv6Group_eq hzero_i hit (.inr rfl)
    obtain ⟨k, hloop⟩ := ih (t := { t with v6 := Function.update t.v6 i g.value, it := s })
      (by simpa using hlen) hnodup (update_zero hi hzero) rfl
    refine ⟨k, ?_⟩
    rw [ipv6Loop, hgroup]
    exact hloop
  | @glued n gs s g hg hs ih =>
    obtain ⟨i, is, rfl⟩ := List.exists_of_length_succ is hlen
    obtain ⟨hi, hnodup⟩ := List.nodup_cons.mp hnodup
    obtain ⟨hzero_i, hzero⟩ := List.forall_mem_cons.mp hzero
    obtain ⟨-, hcolon, hnul⟩ := ne_of_isxdigit hs.isxdigit_peek
    have hgroup := ipv6Group_eq hzero_i hit (.inl hg)
    obtain ⟨k, hloop⟩ := ih (t := { t with v6 := Function.update t.v6 i g.value, it := s })
      (by simpa using hlen) hnodup (update_zero hi hzero) rfl
    refine ⟨k, ?_⟩
    rw [ipv6Loop, hgroup, if_neg hcolon, if_neg hnul]
    exact hloop

/-- A text without a NUL is at its end where one is seen. -/
theorem eq_nil_of_peek (hnul : NUL ∉ s) (h : peek s = NUL) : s = [] := by
  cases s with
  | nil => rfl
  | cons c s => exact absurd (by simp [← h]) hnul

/-- **And nothing else.** -/
theorem loose_of_ipv6Loop {is : List (Fin 8)} {t u : Ipv6State} {i : ℕ} (hne : is ≠ [])
    (hnodup : is.Nodup) (hzero : ∀ i ∈ is, t.v6 i = 0#16) (hnul : NUL ∉ t.it)
    (hloop : ipv6Loop t is = some (u, i)) (hend : peek u.it = NUL) :
    ∃ gs, Loose is.length gs t.it ∧ u = { t with v6 := assign t.v6 is gs, it := [] } := by
  induction is generalizing t with
  | nil => exact absurd rfl hne
  | cons k is ih =>
    obtain ⟨hk, hnodup⟩ := List.nodup_cons.mp hnodup
    obtain ⟨hzero_k, hzero⟩ := List.forall_mem_cons.mp hzero
    cases hdigit : isxdigit (peek t.it) with
    | false => simp [ipv6Loop, ipv6Group, hdigit] at hloop
    | true =>
      obtain ⟨g, rest, hit, hrest⟩ := HexGroup.exists_eq_append hdigit
      have hnul' : NUL ∉ rest := fun h => hnul (by simp [hit, h])
      rw [ipv6Loop, ipv6Group_eq hzero_k hit hrest] at hloop
      by_cases hcolon : peek rest = ':'
      · obtain ⟨r, rfl⟩ : ∃ r, rest = ':' :: r := by
          cases rest with
          | nil => exact absurd hcolon (by decide)
          | cons c r => exact ⟨r, by rw [← hcolon]; rfl⟩
        rw [if_pos hcolon] at hloop
        cases is with
        | nil =>
          cases hloop
          have hr : r = [] := eq_nil_of_peek (fun h => hnul' (by simp [h])) hend
          exact ⟨[g], by rw [hit, hr]; exact .trailing g, by rw [List.tail_cons, hr]; rfl⟩
        | cons k' is =>
          obtain ⟨gs, hloose, rfl⟩ := ih (by simp) hnodup (update_zero hk hzero)
            (fun h => hnul' (by simp [show NUL ∈ r from h])) hloop
          exact ⟨g :: gs, by rw [hit]; exact .colon g hloose, rfl⟩
      · rw [if_neg hcolon] at hloop
        by_cases hstop : peek rest = NUL
        · obtain rfl := eq_nil_of_peek hnul' hstop
          cases hloop
          refine ⟨[g], ?_, by cases is <;> rfl⟩
          rw [hit, List.append_nil]
          exact .last g
        · rw [if_neg hstop] at hloop
          cases is with
          | nil =>
            cases hloop
            exact absurd hend hstop
          | cons k' is =>
            obtain ⟨gs, hloose, rfl⟩ := ih (by simp) hnodup (update_zero hk hzero) hnul' hloop
            have hg : g.chars.length = 4 := hrest.resolve_right fun hno =>
              absurd (hloose.isxdigit_peek.symm.trans hno) (by decide)
            exact ⟨g :: gs, by rw [hit]; exact .glued g hg hloose, rfl⟩

/-- The other words are as they were. -/
theorem assign_of_notMem {is : List (Fin 8)} {v : Fin 8 → BitVec 16} {k : Fin 8} (hk : k ∉ is) :
    assign v is gs k = v k := by
  induction is generalizing v gs with
  | nil => cases gs <;> rfl
  | cons i is ih =>
    cases gs with
    | nil => rfl
    | cons g gs =>
      obtain ⟨hki, hk⟩ := List.ne_and_not_mem_of_not_mem_cons hk
      rw [assign, ih hk, Function.update_of_ne hki]

/-- Each place gets the value at its position, or stays zero. -/
theorem assign_getElem {is : List (Fin 8)} {v : Fin 8 → BitVec 16} (gs : List HexGroup)
    (hnodup : is.Nodup) (hzero : ∀ k ∈ is, v k = 0#16) (hm : m < is.length) :
    assign v is gs is[m] = (gs.map HexGroup.value).getD m 0#16 := by
  induction is generalizing v gs m with
  | nil => cases hm
  | cons i is ih =>
    obtain ⟨hi, hnodup⟩ := List.nodup_cons.mp hnodup
    obtain ⟨hzero_i, hzero⟩ := List.forall_mem_cons.mp hzero
    cases gs with
    | nil =>
      have hget : v (i :: is)[m] = 0#16 :=
        (List.forall_mem_cons (p := fun k => v k = 0#16)).mpr ⟨hzero_i, hzero⟩ _
          (List.getElem_mem hm)
      simpa [assign] using hget
    | cons g gs =>
      cases m with
      | zero => simp [assign, assign_of_notMem hi]
      | succ m => simpa [assign] using ih gs hnodup (update_zero hi hzero) (by simpa using hm)

/-- Into eight words, the values are stored in order. -/
theorem assign_finRange (gs : List HexGroup) :
    assign (fun _ => 0#16) (List.finRange 8) gs =
      fun i : Fin 8 => (gs.map HexGroup.value).getD i.val 0#16 := by
  funext i
  have hlt : i.val < (List.finRange 8).length := by simp
  have hi := assign_getElem gs (List.nodup_finRange 8) (fun _ _ => rfl) hlt
  simpa using hi

/-! ## What the parser accepts -/

/-- What the loop reads begins with no colon, and is not empty. -/
theorem Loose.peek_ne (hs : Loose n gs s) : peek s ≠ ':' ∧ peek s ≠ NUL :=
  (ne_of_isxdigit hs.isxdigit_peek).2

/-- A text that begins with a colon twice. -/
theorem eq_colon_colon (h : peek str = ':' ∧ peek str.tail = ':') :
    str = ':' :: ':' :: str.tail.tail := by
  have hcons : ∀ {s : List Char}, peek s = ':' → s = ':' :: s.tail := fun {s} hs => by
    cases s with
    | nil => exact absurd hs (by decide)
    | cons c s => rw [← hs]; rfl
  rw [← hcons h.2, ← hcons h.1]

/-- The loop and the end of the parser, where no `::` is seen by the loop. -/
theorem ipv6Finish_ipv6Loop {z : ℤ} (hz : z ≤ 0) (hnul : NUL ∉ s) :
    (ipv6Finish o (ipv6Loop ⟨fun _ => 0, s, z⟩ (List.finRange 8)) = .accept a ↔
        ∃ gs, Loose 8 gs s ∧ a = .ofWords o (gs.map HexGroup.value)) ∧
      ipv6Finish o (ipv6Loop ⟨fun _ => 0, s, z⟩ (List.finRange 8)) ≠ .stray := by
  have hread : ∀ gs, Loose 8 gs s →
      ipv6Finish o (ipv6Loop ⟨fun _ => 0, s, z⟩ (List.finRange 8)) =
        .accept (.ofWords o (gs.map HexGroup.value)) := by
    intro gs hgs
    obtain ⟨i, hloop⟩ := ipv6Loop_of_loose hgs (t := ⟨fun _ => 0, s, z⟩) (List.length_finRange ..)
      (List.nodup_finRange 8) (fun _ _ => rfl) rfl
    rw [hloop]
    simp [ipv6Finish, not_lt.mpr hz, assign_finRange, YoAddr.ofWords]
  cases hloop : ipv6Loop ⟨fun _ => 0, s, z⟩ (List.finRange 8) with
  | none =>
    refine ⟨⟨fun h => by simp [ipv6Finish] at h, ?_⟩, by simp [ipv6Finish]⟩
    rintro ⟨gs, hgs, -⟩
    have := hread gs hgs
    rw [hloop] at this
    cases this
  | some p =>
    obtain ⟨u, i⟩ := p
    by_cases hend : peek u.it = NUL
    · obtain ⟨gs, hgs, -⟩ := loose_of_ipv6Loop (by decide) (List.nodup_finRange 8)
        (fun _ _ => rfl) hnul hloop hend
      rw [List.length_finRange] at hgs
      rw [← hloop, hread gs hgs]
      refine ⟨⟨fun h => ⟨gs, hgs, (Parse.accept.inj h).symm⟩, ?_⟩, by simp⟩
      · rintro ⟨gs', hgs', rfl⟩
        rw [← hread gs hgs, hread gs' hgs']
    · have hreject : ipv6Finish o (some (u, i)) = .reject := by simp [ipv6Finish, hend]
      rw [hreject]
      refine ⟨⟨fun h => absurd h (by simp), ?_⟩, by simp⟩
      rintro ⟨gs, hgs, -⟩
      have := hread gs hgs
      rw [hloop, hreject] at this
      cases this

/-- **What `yo_parse_ipv6` accepts**: `::`, and what its loop reads, after a `::` or not. -/
theorem yoParseIpv6_eq_accept_iff (hnul : NUL ∉ str) :
    yoParseIpv6 o str = .accept a ↔
      str = [':', ':'] ∧ a = .ofWords o [] ∨
        ∃ lead gs s, (lead = [] ∨ lead = [':', ':']) ∧ str = lead ++ s ∧ Loose 8 gs s ∧
          a = .ofWords o (gs.map HexGroup.value) := by
  by_cases hcolon : peek str = ':' ∧ peek str.tail = ':'
  · obtain ⟨s, rfl⟩ : ∃ s, str = ':' :: ':' :: s := ⟨_, eq_colon_colon hcolon⟩
    have hnul' : NUL ∉ s := fun h => hnul (by simp [h])
    have hlead : ∀ {lead gs r}, (lead = [] ∨ lead = [':', ':']) → ':' :: ':' :: s = lead ++ r →
        Loose 8 gs r → s = r := by
      rintro lead gs r (rfl | rfl) he hr
      · rw [List.nil_append] at he
        exact absurd (by rw [← he]; rfl) hr.peek_ne.1
      · simpa using he
    rw [yoParseIpv6, if_pos hcolon]
    by_cases hend : peek s = NUL
    · obtain rfl : s = [] := eq_nil_of_peek hnul' hend
      rw [List.tail_cons, List.tail_cons]
      refine ⟨fun h => .inl ⟨rfl, (Parse.accept.inj h).symm⟩, ?_⟩
      rintro (⟨-, rfl⟩ | ⟨lead, gs, r, hl, he, hr, -⟩)
      · rfl
      · obtain rfl := hlead hl he hr
        exact absurd hend hr.peek_ne.2
    · rw [List.tail_cons, List.tail_cons]
      rw [if_neg hend, (ipv6Finish_ipv6Loop le_rfl hnul').1]
      constructor
      · rintro ⟨gs, hgs, ha⟩
        exact .inr ⟨[':', ':'], gs, s, .inr rfl, rfl, hgs, ha⟩
      · rintro (⟨hs, -⟩ | ⟨lead, gs, r, hl, he, hr, ha⟩)
        · obtain rfl : s = [] := by simpa using hs
          exact absurd rfl hend
        · obtain rfl := hlead hl he hr
          exact ⟨gs, hr, ha⟩
  · rw [yoParseIpv6, if_neg hcolon, (ipv6Finish_ipv6Loop (by decide) hnul).1]
    constructor
    · rintro ⟨gs, hgs, ha⟩
      exact .inr ⟨[], gs, str, .inl rfl, rfl, hgs, ha⟩
    · rintro (⟨rfl, -⟩ | ⟨lead, gs, r, rfl | rfl, rfl, hr, ha⟩)
      · exact absurd (by decide) hcolon
      · exact ⟨gs, hr, ha⟩
      · exact absurd (by simp) hcolon

theorem yoParseIpv6_ne_stray (hnul : NUL ∉ str) : yoParseIpv6 o str ≠ .stray := by
  rw [yoParseIpv6]
  split
  · rename_i hcolon
    have hnul' : NUL ∉ str.tail.tail := fun h =>
      hnul (List.mem_of_mem_tail (List.mem_of_mem_tail h))
    dsimp only
    split
    · simp
    · exact (ipv6Finish_ipv6Loop (a := .ofWords o []) le_rfl hnul').2
  · exact (ipv6Finish_ipv6Loop (a := .ofWords o []) (by decide) hnul).2

/-! ## Colons -/

namespace HexGroup

@[simp] theorem colons_nil : colons [] = [] := rfl

theorem colons_cons (g : HexGroup) (hne : gs ≠ []) :
    colons (g :: gs) = g.chars ++ ':' :: colons gs := by
  obtain ⟨h, gs, rfl⟩ := List.exists_cons_of_ne_nil hne
  simp [colons, List.intercalate_cons_cons]

@[simp] theorem colons_singleton (g : HexGroup) : colons [g] = g.chars := by simp [colons]

theorem isxdigit_peek_colons (hne : gs ≠ []) (rest : List Char) :
    isxdigit (peek (colons gs ++ rest)) = true := by
  obtain ⟨g, gs, rfl⟩ := List.exists_cons_of_ne_nil hne
  rcases eq_or_ne gs [] with rfl | hgs
  · rw [colons_singleton]
    exact g.isxdigit_peek rest
  · rw [colons_cons g hgs, List.append_assoc]
    exact g.isxdigit_peek _

end HexGroup

/-- The loop reads groups with colons between them. -/
theorem loose_colons (hne : gs ≠ []) (hlen : gs.length ≤ n) : Loose n gs (colons gs) := by
  induction gs generalizing n with
  | nil => exact absurd rfl hne
  | cons g gs ih =>
    rcases eq_or_ne gs [] with rfl | hgs
    · obtain ⟨n, rfl⟩ : ∃ k, n = k + 1 := ⟨n - 1, by simp at hlen; omega⟩
      rw [HexGroup.colons_singleton]
      exact .last g
    · have hpos := List.length_pos_iff.mpr hgs
      obtain ⟨n, rfl⟩ : ∃ k, n = k + 2 := ⟨n - 2, by simp at hlen; omega⟩
      rw [HexGroup.colons_cons g hgs]
      exact .colon g (ih hgs (by simpa using hlen))

theorem Loose.length_le (hs : Loose n gs s) : gs.length ≤ n := by
  induction hs with
  | last | trailing => simp
  | colon _ _ ih | glued _ _ _ ih => simpa using ih

/-- What follows a group, after the colon if there is one. -/
def afterColon (rest : List Char) : List Char := if peek rest = ':' then rest.tail else rest

/-- What the loop reads is a group, which ends there, and what it reads after that. -/
theorem Loose.head (hs : Loose n gs s) :
    ∃ g gs' rest, gs = g :: gs' ∧ s = g.chars ++ rest ∧
      (g.chars.length = 4 ∨ isxdigit (peek rest) = false) ∧
        (gs' = [] ∧ afterColon rest = [] ∨ ∃ m, Loose m gs' (afterColon rest)) := by
  cases hs with
  | last g => exact ⟨g, [], [], rfl, by simp, .inr rfl, .inl ⟨rfl, by decide⟩⟩
  | trailing g => exact ⟨g, [], [':'], rfl, rfl, .inr rfl, .inl ⟨rfl, rfl⟩⟩
  | @colon _ gs s g hs => exact ⟨g, gs, ':' :: s, rfl, rfl, .inr rfl, .inr ⟨_, hs⟩⟩
  | @glued _ gs s g hg hs =>
    have hafter : afterColon s = s := if_neg hs.peek_ne.1
    exact ⟨g, gs, s, rfl, rfl, .inl hg, .inr ⟨_, hafter.symm ▸ hs⟩⟩

/-- It is read in one way only. -/
theorem Loose.unique (hs : Loose n gs s) (hs' : Loose m gs' s) : gs = gs' := by
  induction gs generalizing gs' n m s with
  | nil => cases hs
  | cons g gs ih =>
    obtain ⟨g, gs, rest, he, rfl, hg, hgs⟩ := hs.head
    obtain ⟨g', gs', rest', rfl, hs, hg', hgs'⟩ := hs'.head
    cases he
    obtain ⟨rfl, rfl⟩ := HexGroup.append_inj hg hg' hs
    congr 1
    rcases hgs with ⟨rfl, hnil⟩ | ⟨n, hgs⟩ <;> rcases hgs' with ⟨rfl, hnil'⟩ | ⟨m, hgs'⟩
    · rfl
    · exact absurd (by rw [hnil]; rfl) hgs'.peek_ne.2
    · exact absurd (by rw [hnil']; rfl) hgs.peek_ne.2
    · exact ih hgs hgs'

/-- It has no `::` behind a group. -/
theorem not_loose_inside (hne : xs ≠ []) : ¬ Loose n gs (colons xs ++ ':' :: ':' :: rest) := by
  intro hs
  induction xs generalizing n gs with
  | nil => exact hne rfl
  | cons x xs ih =>
    obtain ⟨g, gs, r, rfl, he, hg, hgs⟩ := hs.head
    rcases eq_or_ne xs [] with rfl | hxs
    · rw [HexGroup.colons_singleton] at he
      obtain ⟨rfl, rfl⟩ := HexGroup.append_inj (.inr rfl) hg he
      rcases hgs with ⟨-, hnil⟩ | ⟨m, hgs⟩
      · cases hnil
      · exact hgs.peek_ne.1 rfl
    · rw [HexGroup.colons_cons x hxs, List.append_assoc] at he
      obtain ⟨rfl, rfl⟩ := HexGroup.append_inj (.inr rfl) hg he
      rcases hgs with ⟨-, hnil⟩ | ⟨m, hgs⟩
      · simp [afterColon] at hnil
      · exact ih hxs hgs

/-- What the parser accepts, as an IPv6 address. -/
theorem denotes_lead {lead : List Char} {l : List (BitVec 16)} (hs : Loose 8 gs s)
    (hlead : lead = [] ∨ lead = [':', ':']) (h : Denotes (lead ++ s) l) :
    s = colons gs ∧ (lead = [] → gs.length = 8) ∧ (lead ≠ [] → gs.length < 8) := by
  generalize hstr : lead ++ s = str at h
  rcases hlead with rfl | rfl
  · obtain rfl : s = str := hstr
    cases h with
    | full gs' hlen =>
      have hne : gs' ≠ [] := List.ne_nil_of_length_eq_add_one hlen
      obtain rfl := hs.unique (loose_colons hne hlen.le)
      exact ⟨rfl, fun _ => hlen, fun hl => absurd rfl hl⟩
    | short xs ys hlen =>
      rcases eq_or_ne xs [] with rfl | hxs
      · exact absurd rfl hs.peek_ne.1
      · exact absurd hs (not_loose_inside hxs)
  · have hdigit : isxdigit (peek str) ≠ true := by
      rw [← hstr]
      exact (by decide : isxdigit ':' ≠ true)
    cases h with
    | full gs' hlen =>
      have hne : gs' ≠ [] := List.ne_nil_of_length_eq_add_one hlen
      exact absurd (by simpa using HexGroup.isxdigit_peek_colons hne []) hdigit
    | short xs ys hlen =>
      rcases eq_or_ne xs [] with rfl | hxs
      · obtain rfl : s = colons ys := by simpa using hstr
        have hys : ys ≠ [] := by
          rintro rfl
          exact hs.peek_ne.2 rfl
        have hlen : ys.length < 8 := by simpa using hlen
        obtain rfl := hs.unique (loose_colons hys hlen.le)
        exact ⟨rfl, fun hl => absurd hl (List.cons_ne_nil _ _), fun _ => hlen⟩
      · exact absurd (HexGroup.isxdigit_peek_colons hxs _) hdigit

/-! ## The words -/

theorem ofWords_inj {l l' : List (BitVec 16)} :
    YoAddr.ofWords o l = .ofWords o l' ↔ ∀ i < 8, l.getD i 0#16 = l'.getD i 0#16 := by
  constructor
  · intro h i hi
    have hwords := congrArg (fun a => YoAddr.v6 o a ⟨i, hi⟩) h
    simpa [YoAddr.ofWords] using hwords
  · intro h
    rw [YoAddr.ofWords, YoAddr.ofWords]
    congr 1
    funext i
    exact h i i.isLt

/-- Words that are the same when they are moved to the right are zero. -/
theorem eq_zero_of_moved {l : List (BitVec 16)} {k : ℕ} (hk : 0 < k)
    (h : ∀ i < n, (List.replicate k 0#16 ++ l).getD i 0#16 = l.getD i 0#16) :
    ∀ i < n, l.getD i 0#16 = 0#16 := by
  intro i
  induction i using Nat.strong_induction_on with
  | _ i ih =>
    intro hi
    rw [← h i hi]
    by_cases hik : i < k
    · simp [List.getD_eq_getElem?_getD, List.getElem?_append, hik]
    · have := ih (i - k) (by omega) (by omega)
      simpa [List.getD_eq_getElem?_getD, List.getElem?_append, hik] using this

/-- The groups after a `::` are where they should be if and only if they are zero. -/
theorem ofWords_moved (hlen : ys.length < 8) :
    YoAddr.ofWords o (List.replicate (8 - ys.length) 0#16 ++ ys.map HexGroup.value) =
        .ofWords o (ys.map HexGroup.value) ↔ ∀ y ∈ ys, y.value = 0#16 := by
  rw [ofWords_inj]
  constructor
  · intro h y hy
    obtain ⟨i, hi, rfl⟩ := List.getElem_of_mem hy
    simpa [hi] using eq_zero_of_moved (by omega) h i (by omega)
  · intro h i hi
    have hzero : ys.map HexGroup.value = List.replicate ys.length 0#16 :=
      List.eq_replicate_iff.mpr ⟨by simp, by simpa using h⟩
    rw [hzero, List.replicate_append_replicate]
    simp only [List.getD_eq_getElem?_getD, List.getElem?_replicate]
    split <;> split <;> rfl

/-! ## Without a dot -/

/-- The digits of a part end before a character that is none. -/
theorem ipv4Digits_eq_some {part q : ℕ} {it : List Char} (h : ipv4Digits part s = some (q, it)) :
    (peek it).isDigit = false ∧ it <:+ s := by
  induction s generalizing part with
  | nil =>
    cases h
    exact ⟨rfl, List.suffix_rfl⟩
  | cons c s ih =>
    rw [ipv4Digits] at h
    split at h
    · split at h
      · cases h
      · obtain ⟨hdigit, hsuffix⟩ := ih h
        exact ⟨hdigit, hsuffix.trans (List.suffix_cons c s)⟩
    · rename_i hdigit
      cases h
      exact ⟨by simpa using hdigit, List.suffix_rfl⟩

/-- **The IPv4 parser takes no text without a dot.** -/
theorem yoParseIpv4_noDot (stack : YoAddr) (hdot : '.' ∉ s) : yoParseIpv4 s stack = none := by
  have hfold : ∀ res, [0, 1, 2, 3].foldlM ipv4Part (res, s) = none := by
    intro res
    rw [List.foldlM_cons]
    cases hpart : ipv4Part (res, s) 0 with
    | none => rfl
    | some t =>
      -- the second part would begin where the digits of the first one end
      obtain ⟨part, it, hread, -, rfl⟩ := ipv4Part_eq_some hpart
      obtain ⟨hdigit, hsuffix⟩ := ipv4Digits_eq_some hread
      have hpeek : peek it ≠ '.' := by
        intro he
        cases it with
        | nil => exact absurd he (by decide)
        | cons c it =>
          obtain rfl : c = '.' := he
          exact hdot (hsuffix.mem (List.mem_cons_self ..))
      simp [ipv4Part, hdigit, hpeek]
  rw [yoParseIpv4, hfold]

theorem yoAddrparse_noDot (o : ByteOrder) (stack : YoAddr) (hdot : '.' ∉ s) :
    yoAddrparse o s stack = yoParseIpv6 o s := by
  rw [yoAddrparse, yoParseIpv4_noDot stack hdot]

/-! ## The condition -/

/-- `yo_addrparse` does what `yo_parse_ipv6` does. -/
theorem meetsIpv6_iff_parsesIpv6 :
    MeetsIpv6 o str ↔ ParsesIpv6 o str (yoParseIpv6 o str) := by
  refine ⟨And.left, fun h => ⟨h, fun hdot stack => ?_⟩⟩
  rwa [yoAddrparse_noDot o stack hdot]

/-- What the loop reads after a `::` or not is accepted. -/
theorem accept_of_loose (lead : List Char) (hnul : NUL ∉ lead ++ s)
    (hlead : lead = [] ∨ lead = [':', ':']) (hs : Loose 8 gs s) :
    yoParseIpv6 o (lead ++ s) = .accept (.ofWords o (gs.map HexGroup.value)) :=
  (yoParseIpv6_eq_accept_iff hnul).mpr (.inr ⟨lead, gs, s, hlead, rfl, hs, rfl⟩)

/-- A `::` behind a group is not accepted. -/
theorem not_parsesIpv6_of_inside (hnul : NUL ∉ str) (h : Inside str) :
    ¬ ParsesIpv6 o str (yoParseIpv6 o str) := by
  rintro ⟨hiff, -⟩
  obtain ⟨xs, ys, hxs, hlen, rfl⟩ := h
  have haccept := (hiff _).mpr ⟨_, .short xs ys hlen, rfl⟩
  have hdigit := HexGroup.isxdigit_peek_colons hxs (':' :: ':' :: colons ys)
  rcases (yoParseIpv6_eq_accept_iff hnul).mp haccept with ⟨he, -⟩ | ⟨lead, gs, s, hl, he, hs, -⟩
  · rw [he] at hdigit
    cases hdigit
  · rcases hl with rfl | rfl
    · rw [List.nil_append] at he
      exact not_loose_inside hxs (he ▸ hs)
    · rw [he] at hdigit
      cases hdigit

/-- A group that is not zero stays in front. -/
theorem not_parsesIpv6_of_shifted (hnul : NUL ∉ str) (h : Shifted str) :
    ¬ ParsesIpv6 o str (yoParseIpv6 o str) := by
  rintro ⟨hiff, -⟩
  obtain ⟨ys, hlen, rfl, y, hy, hvalue⟩ := h
  have hread := accept_of_loose (o := o) [':', ':'] hnul (.inr rfl)
    (loose_colons (List.ne_nil_of_mem hy) hlen.le)
  have haccept := (hiff _).mpr ⟨_, .short [] ys (by simpa using hlen), rfl⟩
  have hwords := Parse.accept.inj (haccept.symm.trans hread)
  exact hvalue ((ofWords_moved hlen).mp (by simpa using hwords) y hy)

/-- A form that only the loop takes is accepted. -/
theorem not_parsesIpv6_of_sloppy (hnul : NUL ∉ str) (h : Sloppy str) :
    ¬ ParsesIpv6 o str (yoParseIpv6 o str) := by
  rintro ⟨hiff, -⟩
  have hdenotes : ∀ lead {gs s}, NUL ∉ lead ++ s → (lead = [] ∨ lead = [':', ':']) →
      Loose 8 gs s → str = lead ++ s →
        s = colons gs ∧ (lead = [] → gs.length = 8) ∧ (lead ≠ [] → gs.length < 8) := by
    rintro lead gs s hnul hlead hs rfl
    obtain ⟨l, hl, -⟩ := (hiff _).mp (accept_of_loose lead hnul hlead hs)
    exact denotes_lead hs hlead hl
  cases h with
  | few hs hlen =>
    have hfull := (hdenotes [] hnul (.inl rfl) hs rfl).2.1 rfl
    omega
  | many hs hlen =>
    have hfew := (hdenotes [':', ':'] hnul (.inr rfl) hs rfl).2.2 (by simp)
    omega
  | untidy lead hlead hs hne => exact hne (hdenotes lead hnul hlead hs rfl).1

/-- Elsewhere the parser does what it should. -/
theorem parsesIpv6_of (hnul : NUL ∉ str) (hinside : ¬ Inside str) (hshifted : ¬ Shifted str)
    (hsloppy : ¬ Sloppy str) : ParsesIpv6 o str (yoParseIpv6 o str) := by
  have hmoved : ∀ ys, str = ':' :: ':' :: colons ys → ys.length < 8 →
      YoAddr.ofWords o (List.replicate (8 - ys.length) 0#16 ++ ys.map HexGroup.value) =
        .ofWords o (ys.map HexGroup.value) := by
    intro ys he hlen
    refine (ofWords_moved hlen).mpr fun y hy => ?_
    by_contra hvalue
    exact hshifted ⟨ys, hlen, he, y, hy, hvalue⟩
  refine ⟨fun a => ⟨fun h => ?_, ?_⟩, yoParseIpv6_ne_stray hnul⟩
  · rcases (yoParseIpv6_eq_accept_iff hnul).mp h with
      ⟨rfl, rfl⟩ | ⟨lead, gs, s, hlead, rfl, hs, rfl⟩
    · have hzero := hmoved [] rfl (by decide)
      exact ⟨_, .short [] [] (by decide), by simpa using hzero.symm⟩
    · obtain rfl : s = colons gs := by
        by_contra hne
        exact hsloppy (.untidy lead hlead hs hne)
      rcases hlead with rfl | rfl
      · have hfull : gs.length = 8 := hs.length_le.antisymm <| not_lt.mp fun hlen =>
          hsloppy (.few hs hlen)
        exact ⟨_, .full gs hfull, rfl⟩
      · have hlen : gs.length < 8 := hs.length_le.lt_of_ne fun hfull => hsloppy (.many hs hfull)
        exact ⟨_, .short [] gs (by simpa using hlen), by simpa using (hmoved gs rfl hlen).symm⟩
  · rintro ⟨l, hl, rfl⟩
    cases hl with
    | full gs hlen =>
      have hne : gs ≠ [] := List.ne_nil_of_length_eq_add_one hlen
      exact accept_of_loose [] hnul (.inl rfl) (loose_colons hne hlen.le)
    | short xs ys hlen =>
      obtain rfl : xs = [] := by
        by_contra hxs
        exact hinside ⟨xs, ys, hxs, hlen, rfl⟩
      have hlen : ys.length < 8 := by simpa using hlen
      have hwords := hmoved ys rfl hlen
      rw [List.map_nil, List.nil_append, List.length_nil, Nat.sub_zero, hwords]
      rcases eq_or_ne ys [] with rfl | hys
      · rfl
      · exact accept_of_loose [':', ':'] hnul (.inr rfl) (loose_colons hys hlen.le)

/-- **The language of the parser.**  A text is parsed as it should be if and only if it is no IPv6
address with a `::` behind a group, none with a group that is not zero behind a `::`, and no text
that only the loop takes for an address. -/
theorem meetsIpv6_iff (o : ByteOrder) (t : CString) :
    MeetsIpv6 o t.chars ↔ ¬ Inside t.chars ∧ ¬ Shifted t.chars ∧ ¬ Sloppy t.chars := by
  rw [meetsIpv6_iff_parsesIpv6]
  constructor
  · intro h
    exact ⟨fun hi => not_parsesIpv6_of_inside t.noNul hi h,
      fun hs => not_parsesIpv6_of_shifted t.noNul hs h,
      fun hs => not_parsesIpv6_of_sloppy t.noNul hs h⟩
  · rintro ⟨hinside, hshifted, hsloppy⟩
    exact parsesIpv6_of t.noNul hinside hshifted hsloppy

/-- `1::2` -/
def insideText : CString := ⟨['1', ':', ':', '2'], by decide⟩

/-- It is an address, but it is rejected. -/
theorem not_meetsIpv6_insideText : ¬ MeetsIpv6 .little insideText.chars := by
  rintro ⟨⟨hiff, -⟩, -⟩
  have haddr : Denotes ['1', ':', ':', '2'] [1#16, 0#16, 0#16, 0#16, 0#16, 0#16, 0#16, 2#16] :=
    Denotes.short [⟨['1'], by decide, by decide, List.forall_mem_singleton.mpr (by decide)⟩]
      [⟨['2'], by decide, by decide, List.forall_mem_singleton.mpr (by decide)⟩] (by decide)
  have haccept := (hiff _).mpr ⟨_, haddr, rfl⟩
  cases haccept

end Yaooi
