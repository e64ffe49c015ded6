import Yaooi.Unix.Errno
import Yaooi.Lib.Drain

/-!
# Reading files on Unix

`yo_read` and `yo_file_read` of `src/unix/impl.c`.  `read` and `pread` may give fewer bytes than
they were asked for, but give none only at the end.

`Unix.fileRead_drains` and `Unix.read_drains`: however few bytes each call gives, the chunks up to
`YO_EOF` are the file.
-/

namespace Yaooi

/-- The bytes of a file, whose offsets are numbers of type `off_t`. -/
structure FileText where
  bytes : List (BitVec 8)
  small : bytes.length < 2 ^ 63

/-- The result of a read: what was stored in the buffer, and what `*pn` says. -/
structure ReadResult where
  buff : List (BitVec 8)
  n : ℕ
  code : YoCode

/-- The chunk that a read reports, and the state to go on with. -/
def ReadResult.answer {σ : Type*} (res : ReadResult) (s : σ) : Reader.Answer σ (BitVec 8) :=
  if res.code = .ok then .chunk (res.buff.take res.n) s
  else if res.code = .eof then .eof
  else .failed

variable {σ : Type*} {buff : List (BitVec 8)} {n : ℕ} {s : σ}

@[simp] theorem answer_ok :
    (ReadResult.mk buff n .ok).answer s = .chunk (buff.take n) s := if_pos rfl

@[simp] theorem answer_eof : (ReadResult.mk buff n .eof).answer s = .eof := rfl

namespace Unix

/-- The bytes that `read` and `pread` give at an offset; `most` is how many the kernel has at hand,
and is at least one. -/
def bytesAt (file : FileText) (offset n most : ℕ) : List (BitVec 8) :=
  (file.bytes.drop offset).take (min n (max most 1))

/-- `yo_file_read`; the kernel does not take an offset that is negative as an `off_t`. -/
def yoFileRead (isfd : Bool) (file : FileText) (n : ℕ) (offset : BitVec 64)
    (ans : Except Errno ℕ) : ReadResult :=
  if isfd then
    match if offset.msb then .error .einval else ans with
    | .error e => ⟨[], n, yoiUnixConvErrno e⟩
    | .ok most =>
      let res := bytesAt file offset.toNat n most
      if n ≠ 0 ∧ res = [] then ⟨res, n, .eof⟩ else ⟨res, res.length, .ok⟩
  else ⟨[], n, .ebadfd⟩

/-- `yo_read`, and the offset of the descriptor after it. -/
def yoRead (isfd : Bool) (file : FileText) (pos n : ℕ) (ans : Except Errno ℕ) :
    ReadResult × ℕ :=
  if isfd then
    match ans with
    | .error e => (⟨[], n, yoiUnixConvErrno e⟩, pos)
    | .ok most =>
      let res := bytesAt file pos n most
      (if res = [] then ⟨res, n, .eof⟩ else ⟨res, res.length, .ok⟩, pos + res.length)
  else (⟨[], n, .ebadfd⟩, pos)

/-- A call of `yo_file_read`, after which the offset is advanced by the count.  The state has the
number of calls so far. -/
def fileReader (file : FileText) (n : ℕ) (most : ℕ → ℕ) (s : BitVec 64 × ℕ) :
    Reader.Answer (BitVec 64 × ℕ) (BitVec 8) :=
  let res := yoFileRead true file n s.1 (.ok (most s.2))
  res.answer (s.1 + BitVec.ofNat 64 res.n, s.2 + 1)

/-- A call of `yo_read`. -/
def reader (file : FileText) (n : ℕ) (most : ℕ → ℕ) (s : ℕ × ℕ) :
    Reader.Answer (ℕ × ℕ) (BitVec 8) :=
  let (res, pos) := yoRead true file s.1 n (.ok (most s.2))
  res.answer (pos, s.2 + 1)

/-! ## What is read -/

variable {file : FileText} {offset pos most : ℕ}

theorem bytesAt_length_le (file : FileText) (offset n most : ℕ) :
    offset + (bytesAt file offset n most).length ≤ max offset file.bytes.length := by
  simp only [bytesAt, List.length_take, List.length_drop]
  omega

/-- There are no bytes at the end of the file only. -/
theorem bytesAt_eq_nil_iff (hn : 0 < n) :
    bytesAt file offset n most = [] ↔ file.bytes.length ≤ offset := by
  rw [← List.length_eq_zero_iff]
  simp only [bytesAt, List.length_take, List.length_drop]
  omega

/-- What is left after some bytes were read. -/
theorem drop_eq_bytesAt_append :
    file.bytes.drop offset = bytesAt file offset n most ++
      file.bytes.drop (offset + (bytesAt file offset n most).length) := by
  rw [← List.drop_drop]
  exact (List.prefix_iff_eq_append.mp (List.take_prefix _ _)).symm

/-- An offset in the file, advanced by a number of bytes that are there. -/
theorem toNat_advance (file : FileText) {x : BitVec 64} {k : ℕ}
    (h : x.toNat + k ≤ file.bytes.length) : (x + BitVec.ofNat 64 k).toNat = x.toNat + k := by
  have hsmall := file.small
  rw [BitVec.toNat_add, BitVec.toNat_ofNat]
  omega

theorem msb_eq_false (file : FileText) {x : BitVec 64} (h : x.toNat ≤ file.bytes.length) :
    x.msb = false := by
  have hsmall := file.small
  rw [BitVec.msb_eq_decide]
  simp only [decide_eq_false_iff_not]
  omega

/-- **`yo_file_read` until `YO_EOF`.** -/
theorem fileRead_drains (file : FileText) (hn : 0 < n) (most : ℕ → ℕ) :
    Reader.Drains (fileReader file n most) (0, 0) file.bytes := by
  refine Reader.Drains.of_rest (s := (0#64, 0)) (P := fun s => s.1.toNat ≤ file.bytes.length)
    (fun s => file.bytes.drop s.1.toNat) ?_ (Nat.zero_le _)
  rintro ⟨x, i⟩ hle
  simp only at hle
  by_cases hnil : bytesAt file x.toNat n (most i) = []
  · refine Or.inl ⟨?_, List.drop_eq_nil_of_le ((bytesAt_eq_nil_iff hn).mp hnil)⟩
    simp [fileReader, yoFileRead, msb_eq_false file hle, hnil, hn.ne']
  · have hlen := bytesAt_length_le file x.toNat n (most i)
    rw [max_eq_right hle] at hlen
    refine Or.inr ⟨_, (x + BitVec.ofNat 64 (bytesAt file x.toNat n (most i)).length, i + 1),
      ?_, ?_, hnil, ?_⟩
    · simp [fileReader, yoFileRead, msb_eq_false file hle, hnil]
    · simp only [toNat_advance file hlen]
      exact hlen
    · simp only [toNat_advance file hlen]
      exact drop_eq_bytesAt_append

/-- **`yo_read` until `YO_EOF`.** -/
theorem read_drains (file : FileText) (hn : 0 < n) (most : ℕ → ℕ) :
    Reader.Drains (reader file n most) (0, 0) file.bytes := by
  refine Reader.Drains.of_rest (s := (0, 0)) (P := fun _ => True) (fun s => file.bytes.drop s.1) ?_
    trivial
  rintro ⟨pos, i⟩ -
  by_cases hnil : bytesAt file pos n (most i) = []
  · refine Or.inl ⟨?_, List.drop_eq_nil_of_le ((bytesAt_eq_nil_iff hn).mp hnil)⟩
    simp [reader, yoRead, hnil]
  · refine Or.inr ⟨_, (pos + (bytesAt file pos n (most i)).length, i + 1), ?_, trivial, hnil,
      drop_eq_bytesAt_append⟩
    simp [reader, yoRead, hnil]

end Unix

end Yaooi
