import Mathlib.Data.Fin.VecNotation
import Yaooi.Addr.Ipv6

/-!
# The language of the IPv4 parser

`yo_parse_ipv4` of `src/addr.c` as it goes through memory: it knows no length, only the pointer
`it`, and behind the NUL of the string there may be anything.  The model keeps a log of the places
it reads and of the values its accumulator has.

* `yoParseIpv4At_eq`: from memory it does what `yoParseIpv4` does with the list of characters,
  reads nothing behind the NUL, and stops.
* `yoParseIpv4_eq_some_iff`: it accepts four runs of digits with dots between them.
* `yoParseIpv4At_spec` puts them together.
-/

namespace Yaooi

/-! ## Reading from memory -/

/-- What is in memory from the start of a string on: its characters, a NUL, and then anything. -/
def CString.memory (str : CString) (behind : ℕ → Char) (i : ℕ) : Char :=
  if i ≤ str.chars.length then peek (str.chars.drop i) else behind i

/-- What `yo_parse_ipv4` has done: where it read `*it`, and what it stored in `part`. -/
structure Ipv4Log where
  reads : List ℕ
  parts : List ℕ

namespace Ipv4Log

/-- `*it` is read. -/
def read (log : Ipv4Log) (it : ℕ) : Ipv4Log := { log with reads := log.reads ++ [it] }

/-- `part` is assigned. -/
def part (log : Ipv4Log) (n : ℕ) : Ipv4Log := { log with parts := log.parts ++ [n] }

/-- Nothing was read behind the NUL, and the accumulator was never above 1009. -/
structure Within (str : CString) (log : Ipv4Log) : Prop where
  reads : ∀ i ∈ log.reads, i ≤ str.chars.length
  parts : ∀ n ∈ log.parts, n ≤ 1009

end Ipv4Log

/-- How a part of `yo_parse_ipv4` ends. -/
inductive Scan (α : Type) where
  /-- `return false` -/
  | reject
  | done (a : α)
  /-- It goes on, but has no rounds left. -/
  | more

/-- The loop over the digits of a part, with the rounds it is given. -/
def ipv4DigitsAt (mem : ℕ → Char) : ℕ → ℕ → ℕ → Ipv4Log → Scan (ℕ × ℕ) × Ipv4Log
  | 0, _, _, log => (.more, log)
  | rounds + 1, part, it, log =>
    let log := log.read it
    if !(mem it).isDigit then (.done (part, it), log)
    else if 100 < part then (.reject, log)
    else
      let log := log.read it
      let part := part * 10 + (mem it).toNat - '0'.toNat
      ipv4DigitsAt mem rounds part (it + 1) (log.part part)

/-- The body of the loop of `yo_parse_ipv4`. -/
def ipv4PartAt (mem : ℕ → Char) (rounds : ℕ) (s : YoAddr × ℕ) (i : Fin 4) (log : Ipv4Log) :
    Scan (YoAddr × ℕ) × Ipv4Log :=
  let log := (log.part 0).read s.2
  if !(mem s.2).isDigit then (.reject, log)
  else
    match ipv4DigitsAt mem rounds 0 s.2 log with
    | (.reject, log) => (.reject, log)
    | (.more, log) => (.more, log)
    | (.done (part, it), log) =>
      if 255 < part then (.reject, log)
      else
        let log := log.read it
        if mem it = '.' ∧ i.val = 3 then (.reject, log)
        else
          let it := if mem it = '.' then it + 1 else it
          let log := log.read it
          if mem it = NUL ∧ i.val ≠ 3 then (.reject, log)
          else (.done (s.1.setV4 i (BitVec.ofNat 8 part), it), log)

/-- The loop of `yo_parse_ipv4`. -/
def ipv4LoopAt (mem : ℕ → Char) (rounds : ℕ) (s : YoAddr × ℕ) :
    List (Fin 4) → Ipv4Log → Scan (YoAddr × ℕ) × Ipv4Log
  | [], log => (.done s, log)
  | i :: is, log =>
    match ipv4PartAt mem rounds s i log with
    | (.reject, log) => (.reject, log)
    | (.more, log) => (.more, log)
    | (.done s, log) => ipv4LoopAt mem rounds s is log

/-- `yo_parse_ipv4`, from memory.  Each of its inner loops is given as many rounds. -/
def yoParseIpv4At (mem : ℕ → Char) (rounds : ℕ) (res : YoAddr) : Scan YoAddr × Ipv4Log :=
  match ipv4LoopAt mem rounds ({ res with type := .ipv4 }, 0) (List.finRange 4) ⟨[], []⟩ with
  | (.reject, log) => (.reject, log)
  | (.more, log) => (.more, log)
  | (.done (res, it), log) =>
    let log := log.read it
    if mem it ≠ NUL then (.reject, log) else (.done res, log)

/-! ## What is written -/

/-- A nonempty run of decimal digits, with leading zeros or without. -/
@[ext] structure DecimalRun where
  chars : List Char
  ne : chars ≠ []
  digits : ∀ c ∈ chars, c.isDigit = true

/-- The number that the digits stand for, when they follow others that stand for `n`. -/
def decimalFrom (n : ℕ) (ds : List Char) : ℕ := ds.foldl (fun n c => n * 10 + (c.toNat - 48)) n

/-- The number that the run stands for. -/
def DecimalRun.value (g : DecimalRun) : ℕ := decimalFrom 0 g.chars

/-- **The IPv4 addresses**: four runs of digits with a dot between each two and nothing behind the
last, none of which stands for more than 255. -/
def DenotesIpv4 (str : List Char) (p : Fin 4 → DecimalRun) : Prop :=
  str = ['.'].intercalate ((List.finRange 4).map fun i => (p i).chars) ∧ ∀ i, (p i).value ≤ 255

variable {str : CString} {behind : ℕ → Char} {log log' : Ipv4Log} {it n part rounds : ℕ}
  {rest ds : List Char} {c : Char} {i j : Fin 4} {g : DecimalRun} {res a : YoAddr}

/-! ## The pointer -/

/-- The pointer stands at the rest of the string. -/
def CString.At (str : CString) (it : ℕ) (rest : List Char) : Prop :=
  it ≤ str.chars.length ∧ str.chars.drop it = rest

namespace CString.At

theorem memory (h : str.At it rest) : str.memory behind it = peek rest := by
  rw [CString.memory, if_pos h.1, h.2]

/-- It can go on past a character. -/
theorem next (h : str.At it (c :: rest)) : str.At (it + 1) rest := by
  have hlen : (str.chars.drop it).length = rest.length + 1 := by rw [h.2, List.length_cons]
  rw [List.length_drop] at hlen
  refine ⟨by omega, ?_⟩
  rw [← List.drop_drop, h.2, List.drop_one, List.tail_cons]

/-- It can go on past any character but the NUL. -/
theorem tail (h : str.At it rest) (hrest : peek rest ≠ NUL) : str.At (it + 1) rest.tail := by
  cases rest with
  | nil => exact absurd rfl hrest
  | cons c rest => exact h.next

theorem length_le (h : str.At it rest) : rest.length ≤ str.chars.length := by
  rw [← h.2, List.length_drop]
  omega

end CString.At

namespace Ipv4Log

theorem Within.read (h : log.Within str) (hit : str.At it rest) : (log.read it).Within str := by
  refine ⟨fun i hi => ?_, h.parts⟩
  rcases List.mem_append.mp hi with hi | hi
  · exact h.reads i hi
  · obtain rfl := List.mem_singleton.mp hi
    exact hit.1

theorem Within.assign (h : log.Within str) (hn : n ≤ 1009) : (log.part n).Within str := by
  refine ⟨h.reads, fun k hk => ?_⟩
  rcases List.mem_append.mp hk with hk | hk
  · exact h.parts k hk
  · obtain rfl := List.mem_singleton.mp hk
    exact hn

end Ipv4Log

/-- The function ends from memory as it does on the list of characters. -/
def Scan.Ends {α : Type} (str : CString) : Scan (α × ℕ) → Option (α × List Char) → Prop
  | .reject, none => True
  | .done (a, it), some (b, rest) => a = b ∧ str.At it rest
  | _, _ => False

/-! ## From memory and on the list -/

/-- It is rejected by both, or read by both. -/
theorem Scan.Ends.cases {α : Type} {r : Scan (α × ℕ)} {o : Option (α × List Char)}
    (h : r.Ends str o) :
    r = .reject ∧ o = none ∨
      ∃ a it rest, r = .done (a, it) ∧ o = some (a, rest) ∧ str.At it rest := by
  cases r with
  | reject =>
    cases o with
    | none => exact .inl ⟨rfl, rfl⟩
    | some p => exact h.elim
  | done q =>
    cases o with
    | none => exact h.elim
    | some p => exact .inr ⟨p.1, q.2, p.2, by rw [← h.1], rfl, h.2⟩
  | more => exact h.elim

theorem isDigit_iff : c.isDigit = true ↔ 48 ≤ c.toNat ∧ c.toNat ≤ 57 := by
  simp [Char.isDigit, UInt32.le_iff_toNat_le]

/-- The loop over the digits of a part. -/
theorem ipv4DigitsAt_eq (behind : ℕ → Char) (part : ℕ) (hlog : log.Within str)
    (hit : str.At it rest) (hrounds : rest.length < rounds) :
    ∃ r log', ipv4DigitsAt (str.memory behind) rounds part it log = (r, log') ∧
      log'.Within str ∧ r.Ends str (ipv4Digits part rest) := by
  induction rounds generalizing part it log rest with
  | zero => omega
  | succ rounds ih =>
    cases rest with
    | nil =>
      refine ⟨.done (part, it), log.read it, ?_, hlog.read hit, rfl, hit⟩
      simp [ipv4DigitsAt, hit.memory, show NUL.isDigit = false from rfl]
    | cons c rest =>
      by_cases hc : c.isDigit = true
      · by_cases hpart : 100 < part
        · refine ⟨.reject, log.read it, ?_, hlog.read hit, ?_⟩
          · simp [ipv4DigitsAt, hit.memory, hc, hpart]
          · simp [ipv4Digits, hc, hpart, Scan.Ends]
        · -- the guard is before the multiplication: 100 is followed by one more digit
          have hbound : part * 10 + c.toNat - '0'.toNat ≤ 1009 := by
            have hdigit := isDigit_iff.mp hc
            have hzero : '0'.toNat = 48 := rfl
            omega
          obtain ⟨r, log', heq, hlog', hends⟩ := ih (part * 10 + c.toNat - '0'.toNat)
            (((hlog.read hit).read hit).assign hbound) hit.next (by simpa using hrounds)
          refine ⟨r, log', ?_, hlog', ?_⟩
          · rw [ipv4DigitsAt, ← heq]
            simp [hit.memory, hc, hpart]
          · simpa [ipv4Digits, hc, hpart] using hends
      · refine ⟨.done (part, it), log.read it, ?_, hlog.read hit, ?_⟩
        · simp [ipv4DigitsAt, hit.memory, hc]
        · simp [ipv4Digits, hc, Scan.Ends, hit]

/-- The body of the loop. -/
theorem ipv4PartAt_eq (behind : ℕ → Char) (a : YoAddr) (i : Fin 4) (hlog : log.Within str)
    (hit : str.At it rest) (hrounds : rest.length < rounds) :
    ∃ r log', ipv4PartAt (str.memory behind) rounds (a, it) i log = (r, log') ∧
      log'.Within str ∧ r.Ends str (ipv4Part (a, rest) i) := by
  have hstart : ((log.part 0).read it).Within str := (hlog.assign (Nat.zero_le _)).read hit
  by_cases hdigit : (peek rest).isDigit = true
  · obtain ⟨r, log', heq, hlog', hends⟩ :=
      ipv4DigitsAt_eq behind 0 hstart hit hrounds
    rcases hends.cases with ⟨rfl, hread⟩ | ⟨part, it', rest', rfl, hread, hit'⟩
    · refine ⟨.reject, log', ?_, hlog', ?_⟩
      · simp [ipv4PartAt, hit.memory, hdigit, heq]
      · simp [ipv4Part, hdigit, hread, Scan.Ends]
    · have hread' := hlog'.read hit'
      have hthree : i.val = 3 ↔ i = 3 := by omega
      simp only [ipv4PartAt, ipv4Part, hit.memory, hdigit, heq, hread, hit'.memory, hthree,
        ne_eq]
      by_cases hlarge : 255 < part
      · exact ⟨.reject, log', by simp [hlarge], hlog', by simp [hlarge, Scan.Ends]⟩
      · by_cases hlast : peek rest' = '.' ∧ i = 3
        · refine ⟨.reject, log'.read it', ?_, hread', ?_⟩
          · simp [hlarge, hlast]
          · simp [hlarge, hlast, Scan.Ends]
        · -- the character behind a dot is looked at as well
          have hnext : str.At (if peek rest' = '.' then it' + 1 else it')
              (if peek rest' = '.' then rest'.tail else rest') := by
            split
            · rename_i hdot
              exact hit'.tail (by rw [hdot]; decide)
            · exact hit'
          have hread'' := hread'.read hnext
          simp only [if_neg hlarge, if_neg hlast, hnext.memory]
          generalize (if peek rest' = '.' then it' + 1 else it') = it'' at hnext hread'' ⊢
          generalize (if peek rest' = '.' then rest'.tail else rest') = rest'' at hnext ⊢
          by_cases hend : peek rest'' = NUL ∧ ¬ i = 3
          · refine ⟨.reject, (log'.read it').read it'', ?_, hread'', ?_⟩
            · simp [hend]
            · simp [hend, Scan.Ends]
          · refine ⟨.done (a.setV4 i (BitVec.ofNat 8 part), it''), (log'.read it').read it'', ?_,
              hread'', ?_⟩
            · simp [hend]
            · simp [hend, Scan.Ends, hnext]
  · refine ⟨.reject, _, ?_, hstart, ?_⟩
    · simp [ipv4PartAt, hit.memory, hdigit]
    · simp [ipv4Part, hdigit, Scan.Ends]

/-- The loop. -/
theorem ipv4LoopAt_eq (behind : ℕ → Char) (is : List (Fin 4)) (a : YoAddr)
    (hlog : log.Within str) (hit : str.At it rest) (hrounds : str.chars.length < rounds) :
    ∃ r log', ipv4LoopAt (str.memory behind) rounds (a, it) is log = (r, log') ∧
      log'.Within str ∧ r.Ends str (is.foldlM ipv4Part (a, rest)) := by
  induction is generalizing a it rest log with
  | nil => exact ⟨.done (a, it), log, rfl, hlog, rfl, hit⟩
  | cons i is ih =>
    obtain ⟨r, log', heq, hlog', hends⟩ := ipv4PartAt_eq behind a i hlog hit
      (hit.length_le.trans_lt hrounds)
    rw [ipv4LoopAt, heq, List.foldlM_cons]
    rcases hends.cases with ⟨rfl, hpart⟩ | ⟨b, it', rest', rfl, hpart, hit'⟩
    · exact ⟨.reject, log', rfl, hlog', by simp [hpart, Scan.Ends]⟩
    · obtain ⟨r, log'', heq', hlog'', hends'⟩ := ih b hlog' hit'
      exact ⟨r, log'', heq', hlog'', by simpa [hpart] using hends'⟩

/-- **From memory the parser does what it does with the list of characters**: it stops with the same
result, has read nothing behind the NUL, and its accumulator was never above 1009. -/
theorem yoParseIpv4At_eq (behind : ℕ → Char) (res : YoAddr) (hrounds : str.chars.length < rounds) :
    ∃ log, yoParseIpv4At (str.memory behind) rounds res =
        ((yoParseIpv4 str.chars res).elim .reject .done, log) ∧ log.Within str := by
  have hstart : str.At 0 str.chars := ⟨Nat.zero_le _, List.drop_zero⟩
  have hempty : Ipv4Log.Within str ⟨[], []⟩ := ⟨by simp, by simp⟩
  obtain ⟨r, log, heq, hlog, hends⟩ :=
    ipv4LoopAt_eq behind [0, 1, 2, 3] { res with type := .ipv4 } hempty hstart hrounds
  have hparts : List.finRange 4 = [0, 1, 2, 3] := rfl
  rw [yoParseIpv4At, yoParseIpv4, hparts, heq]
  rcases hends.cases with ⟨rfl, hfold⟩ | ⟨b, it, rest, rfl, hfold, hit⟩
  · rw [hfold]
    exact ⟨log, rfl, hlog⟩
  · rw [hfold]
    refine ⟨log.read it, ?_, hlog.read hit⟩
    simp only [hit.memory]
    split <;> rfl

/-! ## The language -/

theorem decimalFrom_cons : decimalFrom n (c :: ds) = decimalFrom (n * 10 + (c.toNat - 48)) ds :=
  List.foldl_cons ..

/-- Digits do not make a number smaller. -/
theorem le_decimalFrom (n : ℕ) (ds : List Char) : n ≤ decimalFrom n ds := by
  induction ds generalizing n with
  | nil => exact le_rfl
  | cons c ds ih =>
    have hle := ih (n * 10 + (c.toNat - 48))
    rw [decimalFrom_cons]
    omega

/-- One digit is read. -/
theorem ipv4Digits_cons (hc : c.isDigit = true) (hn : n ≤ 100) :
    ipv4Digits n (c :: rest) = ipv4Digits (n * 10 + (c.toNat - 48)) rest := by
  have hdigit := isDigit_iff.mp hc
  have hsub : n * 10 + c.toNat - '0'.toNat = n * 10 + (c.toNat - 48) := by
    have hzero : '0'.toNat = 48 := rfl
    omega
  rw [ipv4Digits, if_pos hc, if_neg (by omega), hsub]

/-- The loop reads a run that stands for at most 255. -/
theorem ipv4Digits_append (hds : ∀ c ∈ ds, c.isDigit = true)
    (hrest : (peek rest).isDigit = false) (hle : decimalFrom n ds ≤ 255) :
    ipv4Digits n (ds ++ rest) = some (decimalFrom n ds, rest) := by
  induction ds generalizing n with
  | nil => exact ipv4Digits_of_not_isDigit hrest
  | cons c ds ih =>
    obtain ⟨hc, hds⟩ := List.forall_mem_cons.mp hds
    rw [decimalFrom_cons] at hle ⊢
    have hsmall := le_decimalFrom (n * 10 + (c.toNat - 48)) ds
    rw [List.cons_append, ipv4Digits_cons hc (by omega)]
    exact ih hds hle

/-- What it has read is a run, and no digit follows. -/
theorem exists_digits_of_ipv4Digits {s : List Char} (h : ipv4Digits n s = some (part, rest)) :
    ∃ ds, s = ds ++ rest ∧ (∀ c ∈ ds, c.isDigit = true) ∧ (peek rest).isDigit = false ∧
      part = decimalFrom n ds := by
  induction s generalizing n with
  | nil =>
    cases h
    exact ⟨[], rfl, by simp, rfl, rfl⟩
  | cons c s ih =>
    by_cases hc : c.isDigit = true
    · by_cases hn : 100 < n
      · simp [ipv4Digits, hc, hn] at h
      · rw [ipv4Digits_cons hc (by omega)] at h
        obtain ⟨ds, rfl, hds, hrest, rfl⟩ := ih h
        exact ⟨c :: ds, rfl, List.forall_mem_cons.mpr ⟨hc, hds⟩, hrest, rfl⟩
    · simp only [ipv4Digits, hc] at h
      cases h
      exact ⟨[], rfl, by simp, by simpa using hc, rfl⟩

namespace DecimalRun

theorem isDigit_peek (g : DecimalRun) (rest : List Char) :
    (peek (g.chars ++ rest)).isDigit = true := by
  obtain ⟨c, ds, hds⟩ := List.exists_cons_of_ne_nil g.ne
  rw [hds]
  exact g.digits c (by simp [hds])

/-- A text that begins with a run does not end there. -/
theorem peek_ne_nul (g : DecimalRun) (rest : List Char) : peek (g.chars ++ rest) ≠ NUL := by
  intro hnul
  have hdigit := g.isDigit_peek rest
  rw [hnul] at hdigit
  cases hdigit

end DecimalRun

/-- What a part has read. -/
theorem exists_run_of_ipv4Part {s : List Char} (h : ipv4Part (res, s) i = some (a, rest)) :
    ∃ g : DecimalRun, g.value ≤ 255 ∧ a = res.setV4 i (BitVec.ofNat 8 g.value) ∧
      (i ≠ 3 ∧ s = g.chars ++ '.' :: rest ∨
        s = g.chars ++ rest ∧ (peek rest).isDigit = false) := by
  have hdigit : (peek s).isDigit = true := by
    by_contra hno
    simp [ipv4Part, hno] at h
  obtain ⟨part, t, hread, hle, heq⟩ := ipv4Part_eq_some h
  obtain ⟨ds, hds_eq, hds, ht, rfl⟩ := exists_digits_of_ipv4Digits hread
  have hs : s = ds ++ t := hds_eq
  have hne : ds ≠ [] := by
    rintro rfl
    rw [hs, List.nil_append, ht] at hdigit
    cases hdigit
  obtain ⟨rfl, hrest⟩ := Prod.mk.inj heq
  refine ⟨⟨ds, hne, hds⟩, hle, rfl, ?_⟩
  by_cases hdot : peek t = '.'
  · have hi : i ≠ 3 := by
      rintro rfl
      have hnot : ¬ 255 < decimalFrom 0 ds := by omega
      simp [ipv4Part, hdigit, hread, hdot, hnot] at h
    cases t with
    | nil => exact absurd hdot (by decide)
    | cons c t =>
      obtain rfl : c = '.' := hdot
      simp only [peek_cons, if_pos, List.tail_cons] at hrest
      exact .inl ⟨hi, by rw [hs, hrest]⟩
  · rw [if_neg hdot] at hrest
    exact .inr ⟨by rw [hs, hrest], hrest ▸ ht⟩

/-- A part that another follows was followed by a dot. -/
theorem exists_run_of_next {s t : List Char} {b : YoAddr} (h : ipv4Part (res, s) i = some (a, t))
    (hnext : ipv4Part (a, t) j = some (b, rest)) :
    ∃ g : DecimalRun, g.value ≤ 255 ∧ s = g.chars ++ '.' :: t := by
  obtain ⟨g, hg, -, ⟨-, hs⟩ | ⟨-, hdigit⟩⟩ := exists_run_of_ipv4Part h
  · exact ⟨g, hg, hs⟩
  · simp [ipv4Part, hdigit] at hnext

/-- A part is read, with the dot behind it. -/
theorem ipv4Part_run (g : DecimalRun) (hg : g.value ≤ 255) (hrest : (peek rest).isDigit = false)
    (hlast : peek rest = '.' → i ≠ 3)
    (hend : peek (if peek rest = '.' then rest.tail else rest) = NUL → i = 3) :
    ipv4Part (res, g.chars ++ rest) i =
      some (res.setV4 i (BitVec.ofNat 8 g.value),
        if peek rest = '.' then rest.tail else rest) := by
  have hread := ipv4Digits_append g.digits hrest hg
  have hlast' : ¬ (peek rest = '.' ∧ i = 3) := fun h => hlast h.1 h.2
  have hend' : ¬ (peek (if peek rest = '.' then rest.tail else rest) = NUL ∧ i ≠ 3) :=
    fun h => h.2 (hend h.1)
  have hnot : ¬ 255 < decimalFrom 0 g.chars := not_lt.mpr hg
  simp only [ipv4Part, g.isDigit_peek, hread, if_neg hnot, if_neg hlast', if_neg hend']
  rfl

/-- What an IPv4 address looks like. -/
theorem denotesIpv4_iff {s : List Char} {p : Fin 4 → DecimalRun} :
    DenotesIpv4 s p ↔ s = (p 0).chars ++ '.' :: ((p 1).chars ++ '.' ::
      ((p 2).chars ++ '.' :: (p 3).chars)) ∧ ∀ i, (p i).value ≤ 255 := by
  simp [DenotesIpv4, List.finRange, List.intercalate_cons_cons]

/-- **An IPv4 address is read**, and its four numbers are stored in order. -/
theorem yoParseIpv4_of_denotes (res : YoAddr) {s : List Char} {p : Fin 4 → DecimalRun}
    (h : DenotesIpv4 s p) :
    ∃ a, yoParseIpv4 s res = some a ∧ a.type = .ipv4 ∧ ∀ i, (a.v4 i).toNat = (p i).value := by
  obtain ⟨hs, hle⟩ := denotesIpv4_iff.mp h
  have hdot : ∀ (res : YoAddr) (i j : Fin 4) (rest : List Char), i ≠ 3 →
      ipv4Part (res, (p i).chars ++ '.' :: ((p j).chars ++ rest)) i =
        some (res.setV4 i (BitVec.ofNat 8 (p i).value), (p j).chars ++ rest) :=
    fun res i j rest hi => ipv4Part_run (p i) (hle i) rfl (fun _ => hi) fun h =>
      absurd h ((p j).peek_ne_nul rest)
  have hthird : ∀ res : YoAddr, ipv4Part (res, (p 2).chars ++ '.' :: (p 3).chars) 2 =
      some (res.setV4 2 (BitVec.ofNat 8 (p 2).value), (p 3).chars) := by
    intro res
    simpa using hdot res 2 3 [] (by decide)
  have hlast : ∀ res : YoAddr, ipv4Part (res, (p 3).chars) 3 =
      some (res.setV4 3 (BitVec.ofNat 8 (p 3).value), []) := by
    intro res
    have hrun : ipv4Part (res, (p 3).chars ++ []) 3 = _ :=
      ipv4Part_run (p 3) (hle 3) rfl (fun h => absurd h (by decide)) fun _ => rfl
    simpa [show NUL ≠ '.' by decide] using hrun
  have hfold : [0, 1, 2, 3].foldlM ipv4Part ({ res with type := .ipv4 }, s) =
      some (((({ res with type := .ipv4 }.setV4 0 (BitVec.ofNat 8 (p 0).value)).setV4 1
        (BitVec.ofNat 8 (p 1).value)).setV4 2 (BitVec.ofNat 8 (p 2).value)).setV4 3
          (BitVec.ofNat 8 (p 3).value), []) := by
    simp [hs, hdot, hthird, hlast]
  have hbyte : ∀ i, (BitVec.ofNat 8 (p i).value).toNat = (p i).value := by
    intro i
    have := hle i
    rw [BitVec.toNat_ofNat]
    omega
  refine ⟨_, by rw [yoParseIpv4, hfold]; rfl, rfl, fun i => ?_⟩
  have hi : i = 0 ∨ i = 1 ∨ i = 2 ∨ i = 3 := by omega
  rcases hi with rfl | rfl | rfl | rfl <;> simp only [YoAddr.v4_setV4] <;> simp [hbyte]

/-- **Nothing else is.** -/
theorem denotes_of_yoParseIpv4 (h : yoParseIpv4 str.chars res = some a) :
    ∃ p, DenotesIpv4 str.chars p := by
  rw [yoParseIpv4] at h
  cases hfold : [0, 1, 2, 3].foldlM ipv4Part ({ res with type := .ipv4 }, str.chars) with
  | none => simp [hfold] at h
  | some q =>
    obtain ⟨b, rest⟩ := q
    have hend : peek rest = NUL := by
      by_contra hne
      simp [hfold, hne] at h
    simp only [List.foldlM_cons, List.foldlM_nil, Option.bind_eq_bind, Option.bind_eq_some_iff,
      Option.pure_def, Option.some.injEq] at hfold
    obtain ⟨⟨a₀, s₀⟩, h₀, ⟨a₁, s₁⟩, h₁, ⟨a₂, s₂⟩, h₂, ⟨a₃, s₃⟩, h₃, heq⟩ := hfold
    obtain ⟨rfl, rfl⟩ := Prod.mk.inj heq
    obtain ⟨g₀, hg₀, hs⟩ := exists_run_of_next h₀ h₁
    obtain ⟨g₁, hg₁, rfl⟩ := exists_run_of_next h₁ h₂
    obtain ⟨g₂, hg₂, rfl⟩ := exists_run_of_next h₂ h₃
    obtain ⟨g₃, hg₃, -, ⟨hne, -⟩ | ⟨rfl, -⟩⟩ := exists_run_of_ipv4Part h₃
    · exact absurd rfl hne
    · -- nothing is behind the last part, since a string has no other NUL
      have hnil : s₃ = [] := by
        cases s₃ with
        | nil => rfl
        | cons c s₃ => exact absurd (hs ▸ by simp [← hend] : NUL ∈ str.chars) str.noNul
      refine ⟨![g₀, g₁, g₂, g₃], denotesIpv4_iff.mpr ⟨by simp [hs, hnil], fun i => ?_⟩⟩
      have hi : i = 0 ∨ i = 1 ∨ i = 2 ∨ i = 3 := by omega
      rcases hi with rfl | rfl | rfl | rfl <;> assumption

/-- **IPv4 text.**  On every string `yo_parse_ipv4` stops, with as many rounds of its inner loop as
there are characters and one more.  It returns true if and only if the string is an IPv4 address,
and then stores its four numbers in order.  It never reads behind the NUL, whatever is there, and
its accumulator never exceeds 1009. -/
theorem yoParseIpv4At_spec (str : CString) (behind : ℕ → Char) (more : ℕ) (stack : YoAddr) :
    ∃ r log, yoParseIpv4At (str.memory behind) (str.chars.length + 1 + more) stack = (r, log) ∧
      (∀ i ∈ log.reads, i ≤ str.chars.length) ∧ (∀ n ∈ log.parts, n ≤ 1009) ∧
        ((∃ a, r = .done a) ↔ ∃ p, DenotesIpv4 str.chars p) ∧
        (r = .reject ↔ ¬ ∃ p, DenotesIpv4 str.chars p) ∧
        ∀ p, DenotesIpv4 str.chars p →
          ∃ a, r = .done a ∧ a.type = .ipv4 ∧ ∀ i, (a.v4 i).toNat = (p i).value := by
  have hrounds : str.chars.length < str.chars.length + 1 + more := by omega
  obtain ⟨log, heq, hlog⟩ := yoParseIpv4At_eq behind stack hrounds
  refine ⟨_, log, heq, hlog.reads, hlog.parts, ?_⟩
  cases hparse : yoParseIpv4 str.chars stack with
  | none =>
    have hno : ∀ p, ¬ DenotesIpv4 str.chars p := by
      intro p hp
      obtain ⟨a, ha, -⟩ := yoParseIpv4_of_denotes stack hp
      rw [hparse] at ha
      cases ha
    simp [hno]
  | some a =>
    obtain ⟨p, hp⟩ := denotes_of_yoParseIpv4 hparse
    refine ⟨by simpa using ⟨p, hp⟩, by simpa using ⟨p, hp⟩, fun p hp => ?_⟩
    obtain ⟨b, hb, hspec⟩ := yoParseIpv4_of_denotes stack hp
    obtain rfl : a = b := Option.some.inj (hparse.symm.trans hb)
    exact ⟨a, rfl, hspec⟩

end Yaooi
