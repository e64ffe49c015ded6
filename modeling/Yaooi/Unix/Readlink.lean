import Yaooi.Unix.Errno

/-!
# Symbolic links

`yo_file_readlink` of `src/unix/impl.c`.  It allocates one byte more than `lstat` says, and lets
`readlink` use all of it, so that nothing is left for the terminating zero where the link is longer
than `lstat` said; and it keeps the number of bytes in an `int`, so that one with bit 31 set is
taken for a failure of the call, which has set no `errno`.

`fileReadlink_exact_iff` says for which sizes and lengths the string is the text of the link.
-/

namespace Yaooi

/-- The text of a link, which has no zero in it. -/
structure LinkText where
  bytes : List (BitVec 8)
  nonzero : ∀ b ∈ bytes, b ≠ 0#8

/-- What is answered to the calls: the size that `lstat` reports, what the memory held before, and
the text that the link has when `readlink` looks at it. -/
structure ReadlinkAnswers where
  lstat : Except Errno ℕ
  malloc : Option (ℕ → BitVec 8)
  readlink : Except Errno LinkText
  /-- `errno` before the call, none where it is 0. -/
  errno : Option Errno

/-- What the function leaves: the size of its buffer, the index of the terminating zero if it is
written, the bytes behind `*pres` if that is assigned, and the result. -/
structure ReadlinkOutcome where
  capacity : ℕ
  terminator : Option ℤ
  pres : Option (List (BitVec 8))
  code : YoCode

/-- The number of bytes in an `int`. -/
def toInt32 (n : ℕ) : ℤ := (BitVec.ofNat 32 n).toInt

/-- `readlink` fills a buffer and returns the number of bytes.  It writes no terminating zero. -/
def readlink (text : LinkText) (buff : List (BitVec 8)) : List (BitVec 8) × ℕ :=
  let stored := text.bytes.take buff.length
  (stored ++ buff.drop stored.length, stored.length)

/-- `res[n] = 0`; a byte outside the buffer is not one of the buffer's. -/
def terminate (buff : List (BitVec 8)) (n : ℤ) : List (BitVec 8) :=
  if 0 ≤ n then buff.set n.toNat 0#8 else buff

/-- `yo_file_readlink` -/
def yoFileReadlink (ans : ReadlinkAnswers) : ReadlinkOutcome :=
  match ans.lstat with
  | .error e => ⟨0, none, none, yoiUnixConvErrno e⟩
  | .ok size =>
    match ans.malloc with
    | none => ⟨0, none, none, .enomem⟩
    | some res =>
      let buff := (List.range (size + 1)).map res
      match ans.readlink with
      | .error e => ⟨buff.length, none, none, yoiUnixConvErrno e⟩
      | .ok text =>
        let (filled, stored) := readlink text buff
        let n := toInt32 stored
        -- a count that is negative as an `int` is taken for a failure of the call
        if n < 0 then ⟨buff.length, none, none, yoiUnixConvErrnoOrZero ans.errno⟩
        else ⟨buff.length, some n, some (terminate filled n), .ok⟩

/-- The string in a buffer. -/
def cString (buff : List (BitVec 8)) : List (BitVec 8) := buff.takeWhile (· ≠ 0#8)

/-- The terminating zero lies in the buffer, and a success gives the whole text. -/
structure ReadlinkOutcome.Exact (out : ReadlinkOutcome) (readlink : Except Errno LinkText) :
    Prop where
  inside : ∀ i, out.terminator = some i → 0 ≤ i ∧ i < out.capacity
  whole : out.code = .ok → ∃ buff text, out.pres = some buff ∧ readlink = .ok text ∧
    cString buff = text.bytes

/-- The bytes that `readlink` stores. -/
def ReadlinkAnswers.stored (size : ℕ) (text : LinkText) : ℕ := min text.bytes.length (size + 1)

/-- A call fails, or the number of bytes is negative as an `int` and `errno` was not 0, or there is
room for the text and its number of bytes is an `int`. -/
def ReadlinkAnswers.Fits (ans : ReadlinkAnswers) : Prop :=
  match ans.lstat, ans.malloc, ans.readlink with
  | .ok size, some _, .ok text =>
    2 ^ 31 ≤ ReadlinkAnswers.stored size text % 2 ^ 32 ∧ ans.errno ≠ none ∨
      text.bytes.length ≤ size ∧ text.bytes.length < 2 ^ 31
  | _, _, _ => True

/-! ## Numbers and strings -/

variable {n size : ℕ} {text : LinkText} {buff : List (BitVec 8)} {res : ℕ → BitVec 8}

theorem toInt32_eq :
    toInt32 n = if n % 2 ^ 32 < 2 ^ 31 then ((n % 2 ^ 32 : ℕ) : ℤ)
      else ((n % 2 ^ 32 : ℕ) : ℤ) - 2 ^ 32 := by
  rw [toInt32, BitVec.toInt_eq_toNat_cond, BitVec.toNat_ofNat]
  split <;> split <;> omega

theorem toInt32_neg_iff : toInt32 n < 0 ↔ 2 ^ 31 ≤ n % 2 ^ 32 := by
  rw [toInt32_eq]
  split <;> omega

/-- A string ends where the first zero is. -/
theorem cString_append_zero {l rest : List (BitVec 8)} (h : ∀ b ∈ l, b ≠ 0#8) :
    cString (l ++ 0#8 :: rest) = l := by
  rw [cString, List.takeWhile_append_of_pos]
  · simp
  · intro b hb
    exact decide_eq_true (h b hb)

/-! ## The buffer -/

theorem length_readlink : (readlink text buff).1.length = buff.length := by
  simp only [readlink, List.length_append, List.length_drop, List.length_take]
  omega

theorem stored_readlink : (readlink text buff).2 = min buff.length text.bytes.length := by
  rw [readlink, List.length_take]

/-- A zero among the bytes that were stored cuts the text there. -/
theorem cString_terminate (hstored : n ≤ (readlink text buff).2) (hin : n < buff.length) :
    cString (terminate (readlink text buff).1 n) = text.bytes.take n := by
  have hlen : n < (readlink text buff).1.length := hin.trans_eq length_readlink.symm
  have htake : (readlink text buff).1.take n = text.bytes.take n := by
    rw [stored_readlink] at hstored
    rw [readlink, List.take_append_of_le_length (by rw [List.length_take]; exact hstored),
      List.take_take, min_eq_left hin.le]
  rw [terminate, if_pos (Int.natCast_nonneg n), Int.toNat_natCast,
    List.set_eq_take_append_cons_drop, if_pos hlen, htake]
  apply cString_append_zero
  intro b hb
  exact text.nonzero b (List.mem_of_mem_take hb)

/-- A success is exact where the zero lies in the buffer and behind the whole text. -/
theorem exact_ok_iff (hstored : n ≤ (readlink text buff).2) :
    (ReadlinkOutcome.mk buff.length (some n) (some (terminate (readlink text buff).1 n)) .ok).Exact
      (.ok text) ↔ n < buff.length ∧ text.bytes.length ≤ n := by
  constructor
  · intro h
    have hin : n < buff.length := Int.ofNat_lt.mp (h.inside n rfl).2
    obtain ⟨buff', text', hpres, htext, hwhole⟩ := h.whole rfl
    obtain rfl := Option.some.inj hpres
    obtain rfl := Except.ok.inj htext
    rw [cString_terminate hstored hin] at hwhole
    exact ⟨hin, List.take_eq_self_iff _ |>.mp hwhole⟩
  · rintro ⟨hin, hlen⟩
    refine ⟨?_, fun _ => ⟨_, text, rfl, rfl, ?_⟩⟩
    · intro i hi
      obtain rfl := Option.some.inj hi
      exact ⟨Int.natCast_nonneg n, Int.ofNat_lt.mpr hin⟩
    · rw [cString_terminate hstored hin]
      exact List.take_of_length_le hlen

/-- Nothing is written where an error is reported. -/
theorem exact_error {capacity : ℕ} {code : YoCode} {ans : Except Errno LinkText}
    (h : code ≠ .ok) : (ReadlinkOutcome.mk capacity none none code).Exact ans where
  inside _ hi := absurd hi (by simp)
  whole hok := absurd hok h

/-- A success that gives no string is not exact. -/
theorem not_exact_without {capacity : ℕ} {ans : Except Errno LinkText} :
    ¬ (ReadlinkOutcome.mk capacity none none .ok).Exact ans := by
  intro h
  obtain ⟨buff, text, hpres, -⟩ := h.whole rfl
  cases hpres

/-- **Reading a link.**  For every size that `lstat` reports and every text, of any length, the zero
is written into the buffer and a success gives the whole text, if and only if a call fails, or the
number of bytes is negative as an `int` and `errno` was not 0 before, or the text is no longer than
the size. -/
theorem fileReadlink_exact_iff (ans : ReadlinkAnswers) :
    (yoFileReadlink ans).Exact ans.readlink ↔ ans.Fits := by
  unfold yoFileReadlink ReadlinkAnswers.Fits
  cases hlstat : ans.lstat with
  | error e => exact iff_of_true (exact_error (yoiUnixConvErrno_ne_ok e)) trivial
  | ok size =>
    cases hmem : ans.malloc with
    | none => exact iff_of_true (exact_error (by decide)) trivial
    | some res =>
      cases hlink : ans.readlink with
      | error e => exact iff_of_true (exact_error (yoiUnixConvErrno_ne_ok e)) trivial
      | ok text =>
        have hlen : ((List.range (size + 1)).map res).length = size + 1 := by simp
        have hstored : (readlink text ((List.range (size + 1)).map res)).2 =
            ReadlinkAnswers.stored size text := by
          rw [stored_readlink, hlen, ReadlinkAnswers.stored, min_comm]
        simp only
        by_cases hneg : toInt32 (ReadlinkAnswers.stored size text) < 0
        · have hmod := toInt32_neg_iff.mp hneg
          rw [hstored, if_pos hneg]
          cases herrno : ans.errno with
          | some e =>
            exact iff_of_true (exact_error (yoiUnixConvErrno_ne_ok e)) (Or.inl ⟨hmod, by simp⟩)
          | none =>
            refine iff_of_false not_exact_without ?_
            have hstored : ReadlinkAnswers.stored size text ≤ text.bytes.length :=
              Nat.min_le_left ..
            rintro (⟨-, hset⟩ | ⟨-, hlt⟩)
            · exact hset rfl
            · omega
        · have hmod := mt toInt32_neg_iff.mpr hneg
          have hnat : toInt32 (ReadlinkAnswers.stored size text) =
              ((ReadlinkAnswers.stored size text % 2 ^ 32 : ℕ) : ℤ) := by
            rw [toInt32_eq, if_pos (not_le.mp hmod)]
          have hle : ReadlinkAnswers.stored size text % 2 ^ 32 ≤
              (readlink text ((List.range (size + 1)).map res)).2 := by
            rw [hstored]
            exact Nat.mod_le _ _
          rw [hstored, if_neg hneg, hnat, exact_ok_iff hle, hlen, or_iff_right fun h => hmod h.1]
          unfold ReadlinkAnswers.stored at hmod ⊢
          omega

/-- A link of which `lstat` reports the size 0, as it does for links that the kernel makes up. -/
def procLink : ReadlinkAnswers where
  lstat := .ok 0
  malloc := some fun _ => 0#8
  readlink := .ok ⟨[47#8, 97#8], by simp⟩
  errno := none

/-- The buffer has one byte, and the zero is written behind it. -/
theorem procLink_not_exact :
    ((yoFileReadlink procLink).capacity = 1 ∧ (yoFileReadlink procLink).terminator = some 1 ∧
      (yoFileReadlink procLink).pres = some [47#8] ∧ (yoFileReadlink procLink).code = .ok) ∧
    ¬ (yoFileReadlink procLink).Exact procLink.readlink := by
  refine ⟨⟨rfl, by decide, by decide, rfl⟩, ?_⟩
  intro hexact
  have hin := hexact.inside 1 (by decide)
  exact absurd hin.2 (by decide)

end Yaooi
