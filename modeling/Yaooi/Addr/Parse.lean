import Mathlib.Order.Fin.Basic
import Mathlib.Tactic.IntervalCases
import Yaooi.Addr.Basic
import Yaooi.Lib.Numeral

/-!
# Addresses as text

`src/addr.c` reads an address from text, trying IPv4 first and IPv6 next; `example.lua` prints one.
A text is the list of its characters, and `*it` is a NUL at its end.

* `yoParseIpv4_text`, `yoParseIpv6_text`: each parser reads what is printed for its type.
* `yoParseIpv4_groups`: the IPv4 parser takes no printed IPv6 address.
* `addrparse_text`: so the round trip gives back every address.
-/

namespace Yaooi

/-! ## The parsers -/

/-- The character that ends a text. -/
abbrev NUL : Char := '\x00'

/-- `*it` -/
def peek : List Char → Char
  | [] => NUL
  | c :: _ => c

/-- `isxdigit` -/
def isxdigit (c : Char) : Bool :=
  c.isDigit || ('a' ≤ c && c ≤ 'f') || ('A' ≤ c && c ≤ 'F')

/-- The loop over the digits of a part in `yo_parse_ipv4`: the part, and the rest of the text. -/
def ipv4Digits (part : ℕ) : List Char → Option (ℕ × List Char)
  | [] => some (part, [])
  | c :: it =>
    if c.isDigit then
      if 100 < part then none else ipv4Digits (part * 10 + c.toNat - '0'.toNat) it
    else some (part, c :: it)

/-- The body of the loop of `yo_parse_ipv4`. -/
def ipv4Part (s : YoAddr × List Char) (i : Fin 4) : Option (YoAddr × List Char) :=
  if !(peek s.2).isDigit then none
  else
    match ipv4Digits 0 s.2 with
    | none => none
    | some (part, it) =>
      if 255 < part then none
      else if peek it = '.' ∧ i = 3 then none
      else
        let it := if peek it = '.' then it.tail else it
        if peek it = NUL ∧ i ≠ 3 then none
        else some (s.1.setV4 i (BitVec.ofNat 8 part), it)

/-- `yo_parse_ipv4`; its `res` is not initialised. -/
def yoParseIpv4 (str : List Char) (res : YoAddr) : Option YoAddr :=
  match [0, 1, 2, 3].foldlM ipv4Part ({ res with type := .ipv4 }, str) with
  | none => none
  | some (res, it) => if peek it ≠ NUL then none else some res

/-- What `yo_parse_ipv6` keeps: the words of `res`, the rest of the text, and `zeroes_i`. -/
structure Ipv6State where
  v6 : Fin 8 → BitVec 16
  it : List Char
  zeroesI : ℤ

/-- How the body of a loop ends. -/
inductive LoopStep (σ : Type) where
  /-- `return false` -/
  | reject
  /-- `continue`, or the end of the body -/
  | next (s : σ)
  /-- `break` -/
  | leave (s : σ)

/-- A digit is shifted into a word. -/
def ipv6Digit (w : BitVec 16) (c : Char) : BitVec 16 :=
  let w := w <<< 4
  let w := if c.isDigit then w ||| BitVec.ofNat 16 (c.toNat - '0'.toNat) else w
  let w := if c.isLower then w ||| BitVec.ofNat 16 (c.toNat - 'a'.toNat + 10) else w
  if c.isUpper then w ||| BitVec.ofNat 16 (c.toNat - 'A'.toNat + 10) else w

/-- The loop over the digits of a group, with the rounds it has left. -/
def ipv6Digits : ℕ → BitVec 16 → List Char → BitVec 16 × List Char
  | 0, w, it => (w, it)
  | j + 1, w, it =>
    if isxdigit (peek it) then ipv6Digits j (ipv6Digit w (peek it)) it.tail else (w, it)

/-- The body of the loop of `yo_parse_ipv6`. -/
def ipv6Group (s : Ipv6State) (i : Fin 8) : LoopStep Ipv6State :=
  if !isxdigit (peek s.it) then .reject
  else
    let (w, it) := ipv6Digits 4 (s.v6 i) s.it
    let s : Ipv6State := { s with v6 := Function.update s.v6 i w, it := it }
    if peek s.it = ':' then .next { s with it := s.it.tail }
    -- not reached: the test above has taken every colon
    else if peek s.it = ':' ∧ peek s.it.tail = ':' then
      if s.zeroesI ≠ -1 then .reject
      else
        let s : Ipv6State := { s with zeroesI := i, it := s.it.tail.tail }
        if peek s.it = NUL then .leave s else .next s
    else if peek s.it = NUL then .leave s
    else .next s

/-- The loop of `yo_parse_ipv6`: the state it ends in, with `i`. -/
def ipv6Loop (s : Ipv6State) : List (Fin 8) → Option (Ipv6State × ℕ)
  | [] => some (s, 8)
  | i :: is =>
    match ipv6Group s i with
    | .reject => none
    | .next s => ipv6Loop s is
    | .leave s => some (s, i)

/-- What a parser does. -/
inductive Parse where
  | reject
  | accept (a : YoAddr)
  /-- It writes outside of its result. -/
  | stray

/-- The end of `yo_parse_ipv6`, after its loop. -/
def ipv6Finish (o : ByteOrder) : Option (Ipv6State × ℕ) → Parse
  | none => .reject
  | some (s, i) =>
    if peek s.it ≠ NUL then .reject
    -- `memmove` to the word `16 - trailing_n` of eight
    else if 0 < s.zeroesI ∧ i - s.zeroesI ≠ 0 then .stray
    else .accept (.ofV6 o s.v6)

/-- `yo_parse_ipv6` -/
def yoParseIpv6 (o : ByteOrder) (str : List Char) : Parse :=
  if peek str = ':' ∧ peek str.tail = ':' then
    let it := str.tail.tail
    if peek it = NUL then .accept (.ofV6 o fun _ => 0)
    else ipv6Finish o (ipv6Loop ⟨fun _ => 0, it, 0⟩ (List.finRange 8))
  else ipv6Finish o (ipv6Loop ⟨fun _ => 0, str, -1⟩ (List.finRange 8))

/-- `yo_addrparse`, with what is on the stack. -/
def yoAddrparse (o : ByteOrder) (str : List Char) (stack : YoAddr) : Parse :=
  match yoParseIpv4 str stack with
  | some a => .accept a
  | none => yoParseIpv6 o str

/-- The formats of `yo.dns_getaddrinfo` in `example.lua`: `%d` four times with dots, or `%x` eight
times with colons. -/
def YoAddr.text (o : ByteOrder) (a : YoAddr) : List Char :=
  match a.type with
  | .ipv4 => ['.'].intercalate ((List.finRange 4).map fun i => Nat.toDigits 10 (a.v4 i).toNat)
  | .ipv6 => [':'].intercalate ((List.finRange 8).map fun i => Nat.toDigits 16 (a.v6 o i).toNat)

/-! ## Digits -/

variable {o : ByteOrder} {a res stack : YoAddr} {d n : ℕ} {it rest : List Char}

@[simp] theorem peek_nil : peek [] = NUL := rfl
@[simp] theorem peek_cons (c : Char) (it : List Char) : peek (c :: it) = c := rfl

theorem isDigit_digitChar (hd : d < 10) : d.digitChar.isDigit = true := by
  interval_cases d <;> rfl

theorem toNat_digitChar (hd : d < 10) : d.digitChar.toNat = 48 + d := by
  interval_cases d <;> rfl

theorem isxdigit_digitChar (hd : d < 16) : isxdigit d.digitChar = true := by
  interval_cases d <;> rfl

/-- A hexadecimal digit neither separates parts nor ends a text. -/
theorem ne_of_isxdigit {c : Char} (hc : isxdigit c = true) : c ≠ '.' ∧ c ≠ ':' ∧ c ≠ NUL := by
  refine ⟨?_, ?_, ?_⟩ <;> rintro rfl <;> exact absurd hc (by decide)

/-! ## IPv4 -/

/-- A digit read in `yo_parse_ipv4`, while the part is small enough. -/
theorem ipv4Digits_digitChar (hn : n ≤ 100) (hd : d < 10) :
    ipv4Digits n (d.digitChar :: rest) = ipv4Digits (n * 10 + d) rest := by
  have hzero : '0'.toNat = 48 := rfl
  have hsub : n * 10 + (48 + d) - 48 = n * 10 + d := by omega
  rw [ipv4Digits, if_pos (isDigit_digitChar hd), if_neg (by omega), toNat_digitChar hd, hzero, hsub]

/-- The loop ends before a character that is no digit. -/
theorem ipv4Digits_of_not_isDigit (h : (peek rest).isDigit = false) :
    ipv4Digits n rest = some (n, rest) := by
  cases rest with
  | nil => rfl
  | cons c rest =>
    have hc : c.isDigit = false := h
    simp [ipv4Digits, hc]

/-- It reads a number of up to three digits. -/
theorem ipv4Digits_toDigits (rest : List Char) (hn : n < 1000) (h : (peek rest).isDigit = false) :
    ipv4Digits 0 (Nat.toDigits 10 n ++ rest) = some (n, rest) := by
  have hread := Numeral.read_toDigits 3 (by omega) (fun _ n it => ipv4Digits n it)
    (fun k n d rest hk hn hd => ipv4Digits_digitChar ?_ hd) (by omega) hn rest
  · exact hread.trans (ipv4Digits_of_not_isDigit h)
  · have : 10 ^ k ≤ 10 ^ 2 := Nat.pow_le_pow_right (by omega) (by omega)
    omega

/-- A text begins with a digit if it begins with a number. -/
theorem isDigit_peek_toDigits (n : ℕ) (rest : List Char) :
    (peek (Nat.toDigits 10 n ++ rest)).isDigit = true := by
  obtain ⟨d, hd, ds, hds⟩ := Numeral.exists_toDigits_cons (b := 10) (by omega) n
  rw [hds]
  exact isDigit_digitChar hd

/-- What the body of the loop did when it did not return. -/
theorem ipv4Part_eq_some {s t : YoAddr × List Char} {i : Fin 4} (h : ipv4Part s i = some t) :
    ∃ part it, ipv4Digits 0 s.2 = some (part, it) ∧ part ≤ 255 ∧
      t = (s.1.setV4 i (BitVec.ofNat 8 part), if peek it = '.' then it.tail else it) := by
  simp only [ipv4Part, Option.ite_none_left_eq_some] at h
  obtain ⟨-, h⟩ := h
  cases hread : ipv4Digits 0 s.2 with
  | none => simp [hread] at h
  | some p =>
    simp only [hread, Option.ite_none_left_eq_some, Option.some.injEq] at h
    exact ⟨p.1, p.2, rfl, not_lt.mp h.1, h.2.2.2.symm⟩

/-- A part that another follows. -/
theorem ipv4Part_dot {i : Fin 4} (hi : i ≠ 3) (hn : n < 256) (hrest : peek rest ≠ NUL) :
    ipv4Part (res, Nat.toDigits 10 n ++ '.' :: rest) i =
      some (res.setV4 i (BitVec.ofNat 8 n), rest) := by
  have hread := ipv4Digits_toDigits (n := n) ('.' :: rest) (by omega) rfl
  simp only [ipv4Part, isDigit_peek_toDigits, hread, peek_cons, List.tail_cons]
  simp [hi, hrest, show ¬ 255 < n by omega]

/-- The last part. -/
theorem ipv4Part_last (hn : n < 256) :
    ipv4Part (res, Nat.toDigits 10 n) 3 = some (res.setV4 3 (BitVec.ofNat 8 n), []) := by
  have hdigit := isDigit_peek_toDigits n []
  have hread := ipv4Digits_toDigits (n := n) [] (by omega) rfl
  rw [List.append_nil] at hdigit hread
  simp only [ipv4Part, hdigit, hread, peek_nil]
  simp [show ¬ 255 < n by omega, show NUL ≠ '.' by decide]

/-- **The IPv4 parser reads every IPv4 address that was printed.** -/
theorem yoParseIpv4_text (o : ByteOrder) (stack : YoAddr) (ha : a.type = .ipv4) :
    ∃ b, yoParseIpv4 (a.text o) stack = some b ∧ b.type = .ipv4 ∧ ∀ i, b.v4 i = a.v4 i := by
  have hrest : ∀ n rest, peek (Nat.toDigits 10 n ++ rest) ≠ NUL := by
    intro n rest hnul
    have := isDigit_peek_toDigits n rest
    rw [hnul] at this
    cases this
  have hlast : ∀ n, peek (Nat.toDigits 10 n) ≠ NUL := fun n => by simpa using hrest n []
  have htext : a.text o = Nat.toDigits 10 (a.v4 0).toNat ++ '.' ::
      (Nat.toDigits 10 (a.v4 1).toNat ++ '.' :: (Nat.toDigits 10 (a.v4 2).toNat ++ '.' ::
        Nat.toDigits 10 (a.v4 3).toNat)) := by
    simp [YoAddr.text, ha, List.finRange, List.intercalate_cons_cons]
  have hfold : [0, 1, 2, 3].foldlM ipv4Part ({ stack with type := .ipv4 }, a.text o) =
      some (((({ stack with type := .ipv4 }.setV4 0 (a.v4 0)).setV4 1 (a.v4 1)).setV4 2
        (a.v4 2)).setV4 3 (a.v4 3), []) := by
    simp [htext, ipv4Part_dot, ipv4Part_last, hrest, hlast, (a.v4 _).isLt]
  refine ⟨_, by rw [yoParseIpv4, hfold]; rfl, rfl, fun i => ?_⟩
  have hi : i = 0 ∨ i = 1 ∨ i = 2 ∨ i = 3 := by omega
  rcases hi with rfl | rfl | rfl | rfl <;> simp [YoAddr.v4_setV4]

/-- The digits of a part end before a character that neither separates nor ends anything, unless
they go on to the colon. -/
theorem ipv4Digits_before_colon {part q : ℕ} {pre it : List Char}
    (hpre : ∀ c ∈ pre, isxdigit c = true)
    (h : ipv4Digits part (pre ++ ':' :: rest) = some (q, it)) :
    (peek it).isDigit = false ∧ peek it ≠ '.' ∧ peek it ≠ NUL := by
  induction pre generalizing part with
  | nil =>
    have hcolon : ipv4Digits part (':' :: rest) = some (part, ':' :: rest) := by
      simp [ipv4Digits]
    rw [List.nil_append, hcolon] at h
    cases h
    exact ⟨rfl, (by decide : ':' ≠ '.'), (by decide : ':' ≠ NUL)⟩
  | cons c pre ih =>
    obtain ⟨hc, hpre⟩ := List.forall_mem_cons.mp hpre
    rw [List.cons_append, ipv4Digits] at h
    split at h
    · split at h
      · cases h
      · exact ih hpre h
    · rename_i hdigit
      cases h
      exact ⟨by simpa using hdigit, (ne_of_isxdigit hc).1, (ne_of_isxdigit hc).2.2⟩

/-- **The IPv4 parser takes no text that begins with a group and a colon.** -/
theorem yoParseIpv4_groups {pre : List Char} (hpre : ∀ c ∈ pre, isxdigit c = true) :
    yoParseIpv4 (pre ++ ':' :: rest) stack = none := by
  have hfold : ∀ res, [0, 1, 2, 3].foldlM ipv4Part (res, pre ++ ':' :: rest) = none := by
    intro res
    rw [List.foldlM_cons]
    cases hpart : ipv4Part (res, pre ++ ':' :: rest) 0 with
    | none => rfl
    | some s =>
      -- what is left begins with a character that the next part does not begin with
      obtain ⟨part, it, hread, -, rfl⟩ := ipv4Part_eq_some hpart
      obtain ⟨hdigit, hdot, -⟩ := ipv4Digits_before_colon hpre hread
      simp [ipv4Part, hdigit, hdot]
  rw [yoParseIpv4, hfold]

/-! ## IPv6 -/

/-- A digit read in `yo_parse_ipv6`. -/
theorem ipv6Digit_digitChar (w : BitVec 16) (hd : d < 16) :
    ipv6Digit w d.digitChar = w <<< 4 ||| BitVec.ofNat 16 d := by
  interval_cases d <;> rfl

/-- A word with room for one more digit is shifted by it. -/
theorem ofNat_shiftLeft_or (hn : n < 2 ^ 12) (hd : d < 16) :
    BitVec.ofNat 16 n <<< 4 ||| BitVec.ofNat 16 d = BitVec.ofNat 16 (n * 16 + d) := by
  apply BitVec.eq_of_toNat_eq
  have hor : 2 ^ 4 * n ||| d = 2 ^ 4 * n + d := (Nat.two_pow_add_eq_or_of_lt (i := 4) hd n).symm
  have hshift : ((n % 2 ^ 16) <<< 4) % 2 ^ 16 = 2 ^ 4 * n := by
    rw [Nat.shiftLeft_eq]
    omega
  simp only [BitVec.toNat_or, BitVec.toNat_shiftLeft, BitVec.toNat_ofNat, hshift,
    Nat.mod_eq_of_lt (show d < 2 ^ 16 by omega), hor]
  omega

/-- While the word has room for it, it is the next digit of a number. -/
theorem ipv6Digit_ofNat (hn : n < 2 ^ 12) (hd : d < 16) :
    ipv6Digit (BitVec.ofNat 16 n) d.digitChar = BitVec.ofNat 16 (n * 16 + d) := by
  rw [ipv6Digit_digitChar _ hd, ofNat_shiftLeft_or hn hd]

theorem ipv6Digits_of_not_isxdigit {j : ℕ} {w : BitVec 16} (h : isxdigit (peek rest) = false) :
    ipv6Digits j w rest = (w, rest) := by
  cases j <;> simp [ipv6Digits, h]

/-- The loop reads a number of up to four digits. -/
theorem ipv6Digits_toDigits (rest : List Char) (hn : n < 2 ^ 16)
    (h : isxdigit (peek rest) = false) :
    ipv6Digits 4 0#16 (Nat.toDigits 16 n ++ rest) = (BitVec.ofNat 16 n, rest) := by
  have hread := Numeral.read_toDigits (b := 16) 4 (by omega)
    (fun k n it => ipv6Digits (4 - k) (BitVec.ofNat 16 n) it) (fun k n d rest hk hn hd => ?_)
    (by omega) hn rest
  · exact hread.trans (ipv6Digits_of_not_isxdigit h)
  · have hpow : 16 ^ k ≤ 16 ^ 3 := Nat.pow_le_pow_right (by omega) (by omega)
    obtain ⟨j, hj⟩ : ∃ j, 4 - k = j + 1 := ⟨3 - k, by omega⟩
    rw [hj, show 4 - (k + 1) = j by omega, ipv6Digits, peek_cons, if_pos (isxdigit_digitChar hd),
      ipv6Digit_ofNat (by omega) hd, List.tail_cons]

theorem isxdigit_peek_toDigits (n : ℕ) (rest : List Char) :
    isxdigit (peek (Nat.toDigits 16 n ++ rest)) = true := by
  obtain ⟨d, hd, ds, hds⟩ := Numeral.exists_toDigits_cons (b := 16) (by omega) n
  rw [hds]
  exact isxdigit_digitChar hd

/-- A group that another follows. -/
theorem ipv6Group_colon {s : Ipv6State} {i : Fin 8} {w : BitVec 16} (hzero : s.v6 i = 0#16)
    (hit : s.it = Nat.toDigits 16 w.toNat ++ ':' :: rest) :
    ipv6Group s i = .next { s with v6 := Function.update s.v6 i w, it := rest } := by
  have hread := ipv6Digits_toDigits (':' :: rest) w.isLt rfl
  simp [ipv6Group, hit, isxdigit_peek_toDigits, hzero, hread]

/-- The last group. -/
theorem ipv6Group_last {s : Ipv6State} {i : Fin 8} {w : BitVec 16} (hzero : s.v6 i = 0#16)
    (hit : s.it = Nat.toDigits 16 w.toNat) :
    ipv6Group s i = .leave { s with v6 := Function.update s.v6 i w, it := [] } := by
  have hdigit := isxdigit_peek_toDigits w.toNat []
  have hread := ipv6Digits_toDigits [] w.isLt rfl
  rw [List.append_nil] at hdigit hread
  simp [ipv6Group, hit, hdigit, hzero, hread, show NUL ≠ ':' by decide]

/-- The loop reads as many groups as it is given, into words that are still zero. -/
theorem ipv6Loop_groups (w : Fin 8 → BitVec 16) {is : List (Fin 8)} {s : Ipv6State}
    (hne : is ≠ []) (hnodup : is.Nodup) (hzero : ∀ i ∈ is, s.v6 i = 0#16)
    (hit : s.it = [':'].intercalate (is.map fun i => Nat.toDigits 16 (w i).toNat)) :
    ∃ t i, ipv6Loop s is = some (t, i) ∧ t.it = [] ∧ t.zeroesI = s.zeroesI ∧
      ∀ j, t.v6 j = if j ∈ is then w j else s.v6 j := by
  induction is generalizing s with
  | nil => exact absurd rfl hne
  | cons i is ih =>
    obtain ⟨hi, hnodup⟩ := List.nodup_cons.mp hnodup
    have hzero_i : s.v6 i = 0#16 := hzero i (List.mem_cons_self ..)
    cases is with
    | nil =>
      have hit' : s.it = Nat.toDigits 16 (w i).toNat := by simpa using hit
      refine ⟨{ s with v6 := Function.update s.v6 i (w i), it := [] }, i, ?_, rfl, rfl, fun j => ?_⟩
      · rw [ipv6Loop, ipv6Group_last hzero_i hit']
      · by_cases hji : j = i <;> simp [hji]
    | cons k is =>
      have hgroup := ipv6Group_colon (s := s) hzero_i (by
        simpa [List.intercalate_cons_cons] using hit)
      have hzero_is : ∀ j ∈ k :: is, Function.update s.v6 i (w i) j = 0#16 := by
        intro j hj
        have hji : j ≠ i := fun e => hi (e ▸ hj)
        rw [Function.update_of_ne hji]
        exact hzero j (List.mem_cons_of_mem _ hj)
      obtain ⟨t, l, hloop, ht, hzeroes, hv6⟩ := ih (s := { s with
          v6 := Function.update s.v6 i (w i)
          it := [':'].intercalate ((k :: is).map fun i => Nat.toDigits 16 (w i).toNat) })
        (by simp) hnodup hzero_is rfl
      refine ⟨t, l, by rw [ipv6Loop, hgroup]; exact hloop, ht, hzeroes, fun j => ?_⟩
      rw [hv6]
      by_cases hji : j = i
      · simp [hji, hi]
      · simp [hji]

/-- The text of an IPv6 address begins with a group and a colon. -/
theorem text_ipv6 (ha : a.type = .ipv6) :
    ∃ rest, a.text o = Nat.toDigits 16 (a.v6 o 0).toNat ++ ':' :: rest := by
  refine ⟨[':'].intercalate ([1, 2, 3, 4, 5, 6, 7].map fun i =>
    Nat.toDigits 16 (a.v6 o i).toNat), ?_⟩
  simp [YoAddr.text, ha, List.finRange, List.intercalate_cons_cons]

/-- **The IPv6 parser reads every IPv6 address that was printed.** -/
theorem yoParseIpv6_text (ha : a.type = .ipv6) : yoParseIpv6 o (a.text o) = .accept a := by
  have htext : a.text o =
      [':'].intercalate ((List.finRange 8).map fun i => Nat.toDigits 16 (a.v6 o i).toNat) := by
    rw [YoAddr.text, ha]
  obtain ⟨t, i, hloop, hit, hzeroes, hv6⟩ := ipv6Loop_groups (a.v6 o)
    (s := ⟨fun _ => 0, a.text o, -1⟩) (by decide) (List.nodup_finRange 8) (fun _ _ => rfl) htext
  have hcolon : peek (a.text o) ≠ ':' := by
    obtain ⟨rest, hrest⟩ := text_ipv6 (o := o) ha
    rw [hrest]
    exact (ne_of_isxdigit (isxdigit_peek_toDigits _ _)).2.1
  have hwords : t.v6 = a.v6 o := funext fun j => by rw [hv6, if_pos (List.mem_finRange j)]
  rw [yoParseIpv6, if_neg fun e => hcolon e.1, hloop, ipv6Finish, hit, hzeroes, hwords,
    YoAddr.ofV6_v6 ha]
  rfl

/-! ## The round trip -/

/-- **Address text.**  Printing any address and parsing the text succeeds, whatever the parser
finds on its stack, and gives an address of the same type that `yo_addrcmp` calls equal. -/
theorem addrparse_text (o : ByteOrder) (a stack : YoAddr) :
    ∃ b, yoAddrparse o (a.text o) stack = .accept b ∧ b.type = a.type ∧ yoAddrcmp a b = true := by
  cases ha : a.type with
  | ipv4 =>
    obtain ⟨b, hparse, hb, hv4⟩ := yoParseIpv4_text o stack ha
    exact ⟨b, by rw [yoAddrparse, hparse], hb, (yoAddrcmp_ipv4 ha hb).mpr fun i => (hv4 i).symm⟩
  | ipv6 =>
    have hreject : yoParseIpv4 (a.text o) stack = none := by
      obtain ⟨rest, hrest⟩ := text_ipv6 (o := o) ha
      rw [hrest]
      refine yoParseIpv4_groups fun c hc => ?_
      obtain ⟨d, hd, rfl⟩ := Numeral.exists_of_mem_toDigits (by omega) hc
      exact isxdigit_digitChar hd
    refine ⟨a, ?_, ha, yoAddrcmp_self a⟩
    rw [yoAddrparse, hreject]
    exact yoParseIpv6_text ha

/-- A printed address with groups of every width. -/
example : (⟨.ipv6, fun i => if i.val < 4 then 0x20 else 0⟩ : YoAddr).text .big =
    "2020:2020:0:0:0:0:0:0".toList := by decide

end Yaooi
