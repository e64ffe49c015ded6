import Yaooi.Unix.Reading

/-!
# Reading files through C streams

`yo_read` and `yo_file_read` of `src/ansi/impl.c`, over a stream of the C library with its position,
its end-of-file and its error indicator.

* `fileRead_drains_iff`: `yo_file_read` drops the last chunk where it is not a whole one.
* `read_drains_iff`: `yo_read` passes the size and the number of the items of `fread` the wrong way
  round, and reports one byte for every chunk.
* `fileRead_pos_iff`: `yo_file_read` puts the position back on its last line only.
-/

namespace Yaooi

namespace Ansi

/-! ## Streams -/

/-- A `FILE` that is open for reading.  Its position is a number of type `long`. -/
structure Stream where
  file : FileText
  pos : ℕ
  eof : Bool
  err : Bool
  pos_lt : pos < 2 ^ 63

namespace Stream

/-- `fopen` -/
def fopen (file : FileText) : Stream := ⟨file, 0, false, false, by omega⟩

/-- `clearerr` -/
def clearerr (f : Stream) : Stream := { f with eof := false, err := false }

/-- `ftell`, which answers -1 where it fails. -/
def ftell (f : Stream) (fails : Bool) : BitVec 64 := if fails then -1 else BitVec.ofNat 64 f.pos

/-- `fseek` to an offset from the start, and whether it succeeds.  It takes no negative `long`. -/
def fseek (f : Stream) (offset : BitVec 64) (fails : Bool) : Stream × Bool :=
  if h : fails = false ∧ offset.toNat < 2 ^ 63 then
    ({ f with pos := offset.toNat, eof := false, pos_lt := h.2 }, true)
  else (f, false)

/-- The bytes that a read of `want` bytes gets.  With a fault it ends after so many bytes, if they
are fewer than `want`. -/
def got (f : Stream) (want : ℕ) (fault : Option ℕ) : List (BitVec 8) :=
  ((f.file.bytes.drop f.pos).take want).take ((fault.filter (· < want)).getD want)

theorem pos_add_length_got_lt (f : Stream) (want : ℕ) (fault : Option ℕ) :
    f.pos + (f.got want fault).length < 2 ^ 63 := by
  have hsmall := f.file.small
  have hpos := f.pos_lt
  simp only [got, List.length_take, List.length_drop]
  omega

/-- The stream after it: at the end of the file, or at an error, an indicator is set. -/
def advance (f : Stream) (want : ℕ) (fault : Option ℕ) : Stream :=
  { f with
    pos := f.pos + (f.got want fault).length
    eof := (fault.filter (· < want)).isNone && (f.got want fault).length < want
    err := f.err || (fault.filter (· < want)).isSome
    pos_lt := f.pos_add_length_got_lt want fault }

/-- `fread`: the stream, the bytes stored, and the number of whole items. -/
def fread (f : Stream) (size count : ℕ) (fault : Option ℕ) : Stream × List (BitVec 8) × ℕ :=
  if size * count = 0 ∨ f.eof then (f, [], 0)
  else (f.advance (size * count) fault, f.got (size * count) fault,
    (f.got (size * count) fault).length / size)

end Stream

/-! ## The functions -/

/-- `struct yo_fd`: the kind of the handle, and its stream. -/
structure YoFd where
  isfd : Bool
  file : Stream

/-- The calls of the C library that fail in a call of `yo_file_read`. -/
structure Faults where
  ftell : Bool
  fseek : Bool
  /-- There is an error after this many bytes, of which there are fewer than were asked for. -/
  fread : Option ℕ
  fseekBack : Bool

/-- None of them. -/
def Faults.none : Faults := ⟨false, false, .none, false⟩

/-- `yo_file_read` -/
def yoFileRead (fd : YoFd) (n : ℕ) (offset : BitVec 64) (faults : Faults) : ReadResult × YoFd :=
  if fd.isfd then
    let curr := fd.file.ftell faults.ftell
    match fd.file.fseek offset faults.fseek with
    | (f, false) => (⟨[], n, .ebadop⟩, { fd with file := f })
    | (f, true) =>
      let (f, buff, k) := f.fread 1 n faults.fread
      if f.err then (⟨buff, n, .eio⟩, { fd with file := f })
      else if f.eof then (⟨buff, n, .eof⟩, { fd with file := f })
      else
        match f.fseek curr faults.fseekBack with
        | (f, false) => (⟨buff, n, .ebadop⟩, { fd with file := f })
        | (f, true) => (⟨buff, k, .ok⟩, { fd with file := f })
  else (⟨[], n, .ebadfd⟩, fd)

/-- `yo_read`, which asks `fread` for one item of `n` bytes. -/
def yoRead (fd : YoFd) (n : ℕ) (fault : Option ℕ) : ReadResult × YoFd :=
  if fd.isfd then
    let (f, buff, k) := fd.file.clearerr.fread n 1 fault
    if f.err then (⟨buff, n, .eio⟩, { fd with file := f })
    else if f.eof then (⟨buff, n, .eof⟩, { fd with file := f })
    else (⟨buff, k, .ok⟩, { fd with file := f })
  else (⟨[], n, .ebadfd⟩, fd)

/-- A call of `yo_file_read`, after which the offset is advanced by the count. -/
def fileReader (n : ℕ) (s : YoFd × BitVec 64) : Reader.Answer (YoFd × BitVec 64) (BitVec 8) :=
  let (res, fd) := yoFileRead s.1 n s.2 .none
  res.answer (fd, s.2 + BitVec.ofNat 64 res.n)

/-- A call of `yo_read`. -/
def reader (n : ℕ) (fd : YoFd) : Reader.Answer YoFd (BitVec 8) :=
  let (res, fd) := yoRead fd n .none
  res.answer fd

/-! ## What the streams do -/

variable {f : Stream} {fd : YoFd} {n want : ℕ} {offset : BitVec 64} {fault : Option ℕ}
  {faults : Faults}

namespace Stream

/-- Reading no bytes does nothing, where the end-of-file indicator is not set. -/
theorem advance_zero (heof : f.eof = false) : f.advance 0 fault = f := by
  obtain ⟨file, pos, eof, err, hpos⟩ := f
  obtain rfl : eof = false := heof
  simp [advance, got]

theorem fread_eq (size count : ℕ) (fault : Option ℕ) (heof : f.eof = false) :
    f.fread size count fault = (f.advance (size * count) fault, f.got (size * count) fault,
      (f.got (size * count) fault).length / size) := by
  by_cases hzero : size * count = 0
  · have hgot : f.got 0 fault = [] := by simp [got]
    rw [fread, if_pos (Or.inl hzero), hzero, advance_zero heof, hgot, List.length_nil, Nat.zero_div]
  · rw [fread, if_neg (by simp [hzero, heof])]

theorem length_got (f : Stream) (want : ℕ) :
    (f.got want none).length = min want (f.file.bytes.length - f.pos) := by
  simp [got]

theorem err_advance : (f.advance want fault).err =
    (f.err || (fault.filter (· < want)).isSome) := rfl

theorem eof_advance : (f.advance want fault).eof =
    ((fault.filter (· < want)).isNone && (f.got want fault).length < want) := rfl

@[simp] theorem err_advance_none : (f.advance want none).err = f.err := by simp [advance]

/-- At the end of the file the indicator is set. -/
theorem eof_advance_iff (f : Stream) (want : ℕ) : (f.advance want none).eof = true ↔
    0 < want ∧ f.file.bytes.length < f.pos + want := by
  have hlen := f.length_got want
  simp only [advance, Option.filter_none, Option.isNone_none, Bool.true_and, decide_eq_true_eq]
  omega

/-- The stream at an offset. -/
def sought (f : Stream) (offset : BitVec 64) (h : offset.toNat < 2 ^ 63) : Stream :=
  { f with pos := offset.toNat, eof := false, pos_lt := h }

theorem fseek_eq (h : offset.toNat < 2 ^ 63) : f.fseek offset false = (f.sought offset h, true) :=
  dif_pos ⟨rfl, h⟩

theorem fseek_fails {fails : Bool} (h : ¬ (fails = false ∧ offset.toNat < 2 ^ 63)) :
    f.fseek offset fails = (f, false) := dif_neg h

/-- The position comes back as it was told. -/
theorem toNat_ftell (f : Stream) : (f.ftell false).toNat = f.pos := by
  have hpos := f.pos_lt
  simp only [ftell, Bool.false_eq_true, if_false, BitVec.toNat_ofNat]
  omega

/-- Seeking back to where a stream stood. -/
theorem pos_fseek_ftell (f g : Stream) (tells fails : Bool) :
    (f.fseek (g.ftell tells) fails).1.pos =
      if tells = false ∧ fails = false then g.pos else f.pos := by
  cases tells with
  | true =>
    -- -1 is not an offset
    rw [fseek_fails (by simp [ftell]), if_neg (by simp)]
  | false =>
    have hlt : (g.ftell false).toNat < 2 ^ 63 := g.toNat_ftell.trans_lt g.pos_lt
    cases fails with
    | true => rw [fseek_fails (by simp), if_neg (by simp)]
    | false =>
      rw [fseek_eq hlt, if_pos ⟨rfl, rfl⟩]
      exact g.toNat_ftell

end Stream

/-! ## One call -/

/-- `yo_file_read` after the first seek. -/
theorem yoFileRead_of_seek (faults : Faults) (hfd : fd.isfd = true)
    (hseek : faults.fseek = false) (hoff : offset.toNat < 2 ^ 63) :
    yoFileRead fd n offset faults =
      let f := (fd.file.sought offset hoff).advance n faults.fread
      let buff := (fd.file.sought offset hoff).got n faults.fread
      if f.err then (⟨buff, n, .eio⟩, { fd with file := f })
      else if f.eof then (⟨buff, n, .eof⟩, { fd with file := f })
      else
        match f.fseek (fd.file.ftell faults.ftell) faults.fseekBack with
        | (f, false) => (⟨buff, n, .ebadop⟩, { fd with file := f })
        | (f, true) => (⟨buff, buff.length, .ok⟩, { fd with file := f }) := by
  have hread := Stream.fread_eq (f := fd.file.sought offset hoff) 1 n faults.fread rfl
  rw [one_mul, Nat.div_one] at hread
  simp only [yoFileRead, hfd, if_true, hseek, Stream.fseek_eq hoff, hread]

/-- The bytes that the call gets, wherever the stream stands. -/
theorem got_sought (hoff : offset.toNat < 2 ^ 63) :
    (f.sought offset hoff).got n none = (f.file.bytes.drop offset.toNat).take n := by
  simp [Stream.got, Stream.sought]

/-- **A chunk that is not whole is the end of the file.** -/
theorem fileReader_eq (hfd : fd.isfd = true) (herr : fd.file.err = false)
    (hoff : offset.toNat < 2 ^ 63) (hn : 0 < n) :
    ∃ fd', fd'.isfd = true ∧ fd'.file.err = false ∧ fd'.file.file = fd.file.file ∧
      fileReader n (fd, offset) =
        if fd.file.file.bytes.length < offset.toNat + n then .eof
        else .chunk ((fd.file.file.bytes.drop offset.toNat).take n)
          (fd', offset + BitVec.ofNat 64 n) := by
  have hback : (fd.file.ftell false).toNat < 2 ^ 63 := by
    rw [Stream.toNat_ftell]
    exact fd.file.pos_lt
  refine ⟨⟨fd.isfd, ((fd.file.sought offset hoff).advance n none).sought (fd.file.ftell false)
    hback⟩, hfd, ?_, rfl, ?_⟩
  · exact (Stream.err_advance_none (f := fd.file.sought offset hoff)).trans herr
  · have hnoerr : ((fd.file.sought offset hoff).advance n none).err = false :=
      Stream.err_advance_none.trans herr
    have heof := Stream.eof_advance_iff (fd.file.sought offset hoff) n
    have hcall := yoFileRead_of_seek (n := n) .none hfd rfl hoff
    simp only [Faults.none, hnoerr, Bool.false_eq_true, if_false] at hcall
    by_cases hshort : fd.file.file.bytes.length < offset.toNat + n
    · have hend := heof.mpr ⟨hn, hshort⟩
      simp only [hend, if_true] at hcall
      rw [if_pos hshort, fileReader, Faults.none, hcall]
      exact answer_eof
    · have hmore : ((fd.file.sought offset hoff).advance n none).eof = false := by
        rw [Bool.eq_false_iff, ne_eq, heof]
        rintro ⟨-, hlt⟩
        exact hshort hlt
      have hwhole : ((fd.file.sought offset hoff).got n none).length = n := by
        rw [got_sought, List.length_take, List.length_drop]
        omega
      simp only [hmore, Bool.false_eq_true, if_false, Stream.fseek_eq hback] at hcall
      rw [if_neg hshort, fileReader, Faults.none, hcall]
      simp only [answer_ok, hwhole]
      rw [got_sought, List.take_take, min_self]

/-! ## Until the end -/

/-- The stream is open on the file, without an error, and the offset lies in the file. -/
structure Ready (file : FileText) (s : YoFd × BitVec 64) : Prop where
  isfd : s.1.isfd = true
  err : s.1.file.err = false
  opened : s.1.file.file = file
  offset : s.2.toNat ≤ file.bytes.length

variable {file : FileText} {s : YoFd × BitVec 64}

/-- A call gives a whole chunk and goes on behind it, or the file ends before that. -/
theorem Ready.step (h : Ready file s) (hn : 0 < n) :
    (fileReader n s = .eof ∧ file.bytes.length < s.2.toNat + n) ∨
    ∃ c s', fileReader n s = .chunk c s' ∧ Ready file s' ∧ c.length = n ∧
      s'.2.toNat = s.2.toNat + n ∧
      file.bytes.drop s.2.toNat = c ++ file.bytes.drop s'.2.toNat := by
  obtain ⟨fd, x⟩ := s
  obtain ⟨hfd, herr, rfl, hx⟩ := h
  have hoff : x.toNat < 2 ^ 63 := hx.trans_lt fd.file.file.small
  obtain ⟨fd', hfd', herr', hfile', hstep⟩ := fileReader_eq hfd herr hoff hn
  by_cases hshort : fd.file.file.bytes.length < x.toNat + n
  · rw [if_pos hshort] at hstep
    exact Or.inl ⟨hstep, hshort⟩
  · rw [if_neg hshort] at hstep
    have hadd : (x + BitVec.ofNat 64 n).toNat = x.toNat + n :=
      Unix.toNat_advance fd.file.file (not_lt.mp hshort)
    refine Or.inr ⟨_, _, hstep, ⟨hfd', herr', hfile', ?_⟩, ?_, hadd, ?_⟩
    · rw [hadd]
      exact not_lt.mp hshort
    · simp only [List.length_take, List.length_drop]
      omega
    · simp only [hadd, ← List.drop_drop, List.take_append_drop]

/-- **`yo_file_read` until `YO_EOF`**, on a stream without an error: the chunks are the file if and
only if the last chunk is a whole one. -/
theorem fileRead_drains_iff (hfd : fd.isfd = true) (herr : fd.file.err = false) (hn : 0 < n) :
    Reader.Drains (fileReader n) (fd, 0) fd.file.file.bytes ↔ n ∣ fd.file.file.bytes.length := by
  have hready : Ready fd.file.file (fd, 0) := ⟨hfd, herr, rfl, Nat.zero_le _⟩
  constructor
  · intro h
    refine h.dvd_length (P := Ready fd.file.file) ?_ hready
    intro s c s' hs hchunk
    rcases hs.step hn with ⟨heof, -⟩ | ⟨c', s'', hchunk', hs'', hlen, -⟩
    · exact absurd (heof.symm.trans hchunk) (by simp)
    · obtain ⟨rfl, rfl⟩ := Reader.Answer.chunk.inj (hchunk'.symm.trans hchunk)
      exact ⟨hs'', hlen ▸ Nat.dvd_refl _⟩
  · intro hdvd
    refine Reader.Drains.of_rest (s := (fd, 0))
      (P := fun s => Ready fd.file.file s ∧ n ∣ fd.file.file.bytes.length - s.2.toNat)
      (fun s => fd.file.file.bytes.drop s.2.toNat) ?_ ⟨hready, hdvd⟩
    rintro s ⟨hs, hrest⟩
    rcases hs.step hn with ⟨heof, hshort⟩ | ⟨c, s', hchunk, hs', hlen, hoff, hdrop⟩
    · -- less than a chunk is left, and a multiple of it
      have hzero : fd.file.file.bytes.length - s.2.toNat = 0 :=
        Nat.eq_zero_of_dvd_of_lt hrest (by omega)
      exact Or.inl ⟨heof, List.drop_eq_nil_of_le (Nat.le_of_sub_eq_zero hzero)⟩
    · refine Or.inr ⟨c, s', hchunk, ⟨hs', ?_⟩, ?_, hdrop⟩
      · have hle := hs'.offset
        rw [hoff, ← Nat.sub_sub]
        exact Nat.dvd_sub hrest (Nat.dvd_refl n)
      · exact List.ne_nil_of_length_pos (by omega)

/-- The stream is open on the file and stands in it. -/
structure Open (file : FileText) (fd : YoFd) : Prop where
  isfd : fd.isfd = true
  opened : fd.file.file = file
  pos : fd.file.pos ≤ file.bytes.length

/-- A call gives the first byte of the next `n` bytes, or the file ends before that. -/
theorem Open.step (h : Open file fd) (hn : 0 < n) :
    (reader n fd = .eof ∧ file.bytes.length < fd.file.pos + n) ∨
    ∃ c fd', reader n fd = .chunk c fd' ∧ Open file fd' ∧ c.length = 1 ∧
      fd'.file.pos = fd.file.pos + n ∧ c = (file.bytes.drop fd.file.pos).take 1 := by
  obtain ⟨hfd, rfl, -⟩ := h
  have hread := Stream.fread_eq (f := fd.file.clearerr) n 1 none rfl
  rw [mul_one] at hread
  have herr : (fd.file.clearerr.advance n none).err = false := Stream.err_advance_none
  have heof := Stream.eof_advance_iff fd.file.clearerr n
  by_cases hshort : fd.file.file.bytes.length < fd.file.pos + n
  · have hend := heof.mpr ⟨hn, hshort⟩
    refine Or.inl ⟨?_, hshort⟩
    simp only [reader, yoRead, hfd, if_true, hread, herr, Bool.false_eq_true, if_false, hend]
    exact answer_eof
  · have hmore : (fd.file.clearerr.advance n none).eof = false := by
      rw [Bool.eq_false_iff, ne_eq, heof]
      rintro ⟨-, hlt⟩
      exact hshort hlt
    have hgot : fd.file.clearerr.got n none = (fd.file.file.bytes.drop fd.file.pos).take n := by
      simp [Stream.got, Stream.clearerr]
    have hwhole : (fd.file.clearerr.got n none).length = n := by
      rw [hgot, List.length_take, List.length_drop]
      omega
    have hpos : (fd.file.clearerr.advance n none).pos = fd.file.pos + n :=
      congrArg (fd.file.pos + ·) hwhole
    refine Or.inr ⟨(fd.file.file.bytes.drop fd.file.pos).take 1,
      ⟨true, fd.file.clearerr.advance n none⟩, ?_, ⟨rfl, rfl, ?_⟩, ?_, hpos, rfl⟩
    · -- `fread` counts one item, and the count is taken for one byte
      simp only [reader, yoRead, hfd, if_true, hread, herr, Bool.false_eq_true, if_false, hmore,
        hwhole, Nat.div_self hn, answer_ok]
      rw [hgot, List.take_take, min_eq_left (by omega)]
    · rw [hpos]
      exact not_lt.mp hshort
    · rw [List.length_take, List.length_drop]
      omega

/-- **`yo_read` until `YO_EOF`**, on a stream that was just opened: the chunks are the file if and
only if a chunk is one byte long, or the file is empty. -/
theorem read_drains_iff (file : FileText) (hn : 0 < n) :
    Reader.Drains (reader n) ⟨true, .fopen file⟩ file.bytes ↔ n = 1 ∨ file.bytes = [] := by
  have hopen : Open file ⟨true, .fopen file⟩ := ⟨rfl, rfl, Nat.zero_le _⟩
  constructor
  · intro h
    have hle : n * file.bytes.length ≤ file.bytes.length - 0 := by
      refine h.length_le (P := Open file) (fun fd => file.bytes.length - fd.file.pos) ?_ hopen
      intro fd c fd' hfd hchunk
      rcases hfd.step hn with ⟨heof, -⟩ | ⟨c', fd'', hchunk', hfd'', hlen, hpos, -⟩
      · exact absurd (heof.symm.trans hchunk) (by simp)
      · obtain ⟨rfl, rfl⟩ := Reader.Answer.chunk.inj (hchunk'.symm.trans hchunk)
        have hin := hfd''.pos
        exact ⟨hfd'', by rw [hlen]; omega⟩
    by_cases hnil : file.bytes = []
    · exact Or.inr hnil
    · have hpos : 0 < file.bytes.length := List.length_pos_iff.mpr hnil
      have hone : n ≤ 1 := Nat.le_of_mul_le_mul_right (by omega) hpos
      exact Or.inl (by omega)
  · rintro (rfl | hnil)
    · refine Reader.Drains.of_rest (s := ⟨true, .fopen file⟩) (P := Open file)
        (fun fd => file.bytes.drop fd.file.pos) ?_ hopen
      intro fd hfd
      rcases hfd.step hn with ⟨heof, hshort⟩ | ⟨c, fd', hchunk, hfd', hlen, hpos, rfl⟩
      · exact Or.inl ⟨heof, List.drop_eq_nil_of_le (by omega)⟩
      · refine Or.inr ⟨_, fd', hchunk, hfd', List.ne_nil_of_length_pos (by omega), ?_⟩
        rw [hpos, ← List.drop_drop, List.take_append_drop]
    · rcases hopen.step hn with ⟨heof, -⟩ | ⟨_, fd', _, hfd', _, hpos, _⟩
      · rw [hnil]
        exact .eof heof
      · have hin := hfd'.pos
        rw [hpos, hnil] at hin
        exact absurd hin (by simp only [List.length_nil]; omega)

/-! ## The position -/

/-- No error indicator is set, the file does not end before the chunk does, and the position was
told and is sought again. -/
def Undisturbed (fd : YoFd) (n : ℕ) (offset : BitVec 64) (faults : Faults) : Prop :=
  (fd.file.err = false ∧ faults.fread.filter (· < n) = none) ∧
    (n = 0 ∨ offset.toNat + n ≤ fd.file.file.bytes.length) ∧
      faults.ftell = false ∧ faults.fseekBack = false

/-- The offset where the reading ends. -/
def readEnd (fd : YoFd) (n : ℕ) (offset : BitVec 64) (faults : Faults) : ℕ :=
  offset.toNat + min (min n (fd.file.file.bytes.length - offset.toNat))
    ((faults.fread.filter (· < n)).getD n)

/-- The stream after `fread` stands where the reading ended. -/
theorem pos_advance (fd : YoFd) (n : ℕ) (faults : Faults) (hoff : offset.toNat < 2 ^ 63) :
    ((fd.file.sought offset hoff).advance n faults.fread).pos = readEnd fd n offset faults := by
  simp only [Stream.advance, Stream.got, Stream.sought, readEnd, List.length_take, List.length_drop]
  omega

/-- No indicator is set if and only if the chunk is whole and no error was there or came up. -/
theorem indicators_advance (fd : YoFd) (n : ℕ) (faults : Faults)
    (hoff : offset.toNat < 2 ^ 63) :
    (((fd.file.sought offset hoff).advance n faults.fread).err = false ∧
      ((fd.file.sought offset hoff).advance n faults.fread).eof = false) ↔
    (fd.file.err = false ∧ faults.fread.filter (· < n) = none) ∧
      (n = 0 ∨ offset.toNat + n ≤ fd.file.file.bytes.length) := by
  rw [Stream.err_advance, Stream.eof_advance]
  cases hfault : faults.fread.filter (· < n) with
  | some k => simp
  | none =>
    have hlen : ((fd.file.sought offset hoff).got n faults.fread).length =
        min n (fd.file.file.bytes.length - offset.toNat) := by
      simp [Stream.got, Stream.sought, hfault]
    rw [hlen]
    simp only [Stream.sought, Option.isSome_none, Bool.or_false, Option.isNone_none, Bool.true_and,
      decide_eq_false_iff_not, and_true]
    refine and_congr_right fun _ => ?_
    omega

/-- Where the stream stands after the call, if the first seek succeeds. -/
theorem pos_yoFileRead (hfd : fd.isfd = true) (hseek : faults.fseek = false)
    (hoff : offset.toNat < 2 ^ 63) [Decidable (Undisturbed fd n offset faults)] :
    (yoFileRead fd n offset faults).2.file.pos =
      if Undisturbed fd n offset faults then fd.file.pos else readEnd fd n offset faults := by
  have hpos := pos_advance fd n faults hoff
  have hflags := indicators_advance fd n faults hoff
  rw [yoFileRead_of_seek faults hfd hseek hoff]
  generalize (fd.file.sought offset hoff).advance n faults.fread = f at hpos hflags
  have hback := Stream.pos_fseek_ftell f fd.file faults.ftell faults.fseekBack
  simp only
  cases herr : f.err with
  | true =>
    rw [if_pos rfl, if_neg]
    · exact hpos
    · rintro ⟨hclean, hwhole, -⟩
      exact absurd (hflags.mpr ⟨hclean, hwhole⟩).1 (by simp [herr])
  | false =>
    rw [if_neg (by simp)]
    cases heof : f.eof with
    | true =>
      rw [if_pos rfl, if_neg]
      · exact hpos
      · rintro ⟨hclean, hwhole, -⟩
        exact absurd (hflags.mpr ⟨hclean, hwhole⟩).2 (by simp [heof])
    | false =>
      obtain ⟨hclean, hwhole⟩ := hflags.mp ⟨herr, heof⟩
      have hund : Undisturbed fd n offset faults ↔
          faults.ftell = false ∧ faults.fseekBack = false := by
        constructor
        · rintro ⟨-, -, hback⟩
          exact hback
        · intro hback
          exact ⟨hclean, hwhole, hback⟩
      rw [if_neg (by simp)]
      simp only [hund]
      rw [← hpos, ← hback]
      -- the two results of the last seek differ in the code only
      cases f.fseek (fd.file.ftell faults.ftell) faults.fseekBack with
      | mk g b => cases b <;> rfl

/-- **The position after `yo_file_read`**, where the first seek succeeds: it is what it was if and
only if nothing disturbs the call, or the reading happens to end there. -/
theorem fileRead_pos_iff (hfd : fd.isfd = true) (hseek : faults.fseek = false)
    (hoff : offset.toNat < 2 ^ 63) :
    (yoFileRead fd n offset faults).2.file.pos = fd.file.pos ↔
      Undisturbed fd n offset faults ∨ readEnd fd n offset faults = fd.file.pos := by
  classical
  rw [pos_yoFileRead hfd hseek hoff]
  by_cases hund : Undisturbed fd n offset faults
  · rw [if_pos hund]
    exact iff_of_true rfl (Or.inl hund)
  · rw [if_neg hund, or_iff_right hund]

/-- **Reading a file in chunks.**  For every chunk size, `yo_file_read` until `YO_EOF` gives the
file if and only if its length is a multiple of the size, and `yo_read` if and only if the size is
one or the file is empty; both give the file on Unix, however few bytes each call gets.  And a call
of `yo_file_read` whose first seek succeeds leaves the position as it was if and only if nothing
disturbs it, or the reading happens to end there. -/
theorem chunked_reading (n : ℕ) (hn : 0 < n) :
    (∀ fd : YoFd, fd.isfd = true → fd.file.err = false →
      (Reader.Drains (fileReader n) (fd, 0) fd.file.file.bytes ↔
        n ∣ fd.file.file.bytes.length)) ∧
    (∀ file : FileText, Reader.Drains (reader n) ⟨true, .fopen file⟩ file.bytes ↔
      n = 1 ∨ file.bytes = []) ∧
    (∀ (fd : YoFd) (k : ℕ) (offset : BitVec 64) (faults : Faults), fd.isfd = true →
      faults.fseek = false → offset.toNat < 2 ^ 63 →
      ((yoFileRead fd k offset faults).2.file.pos = fd.file.pos ↔
        Undisturbed fd k offset faults ∨ readEnd fd k offset faults = fd.file.pos)) ∧
    ∀ (file : FileText) (most : ℕ → ℕ),
      Reader.Drains (Unix.fileReader file n most) (0, 0) file.bytes ∧
        Reader.Drains (Unix.reader file n most) (0, 0) file.bytes := by
  refine ⟨?_, ?_, ?_, ?_⟩
  · intro fd hfd herr
    exact fileRead_drains_iff hfd herr hn
  · intro file
    exact read_drains_iff file hn
  · intro fd k offset faults hfd hseek hoff
    exact fileRead_pos_iff hfd hseek hoff
  · intro file most
    exact ⟨Unix.fileRead_drains file hn most, Unix.read_drains file hn most⟩

/-- A file of three bytes. -/
def abc : FileText := ⟨[97#8, 98#8, 99#8], by decide⟩

theorem chunked_reading_abc :
    (Reader.Drains (fileReader 3) (⟨true, .fopen abc⟩, 0) abc.bytes ↔ 3 ∣ 3) ∧
    ((yoFileRead ⟨true, .fopen abc⟩ 2 1 .none).2.file.pos = 0 ↔
      Undisturbed ⟨true, .fopen abc⟩ 2 1 .none ∨ readEnd ⟨true, .fopen abc⟩ 2 1 .none = 0) :=
  ⟨(chunked_reading 3 (by decide)).1 ⟨true, .fopen abc⟩ rfl rfl,
    (chunked_reading 3 (by decide)).2.2.1 ⟨true, .fopen abc⟩ 2 1 .none rfl rfl (by decide)⟩

/-- In chunks of two bytes neither function gives the file, and the second chunk leaves the position
at the end. -/
theorem chunked_reading_abc_fails :
    ¬ Reader.Drains (fileReader 2) (⟨true, .fopen abc⟩, 0) abc.bytes ∧
    ¬ Reader.Drains (reader 2) ⟨true, .fopen abc⟩ abc.bytes ∧
    (yoFileRead ⟨true, .fopen abc⟩ 2 2 .none).1.code = .eof ∧
    (yoFileRead ⟨true, .fopen abc⟩ 2 2 .none).2.file.pos = 3 ∧
    (Stream.fopen abc).pos = 0 := by
  refine ⟨?_, ?_, by decide, by decide, rfl⟩
  · intro h
    have hdvd : 2 ∣ abc.bytes.length :=
      (fileRead_drains_iff rfl rfl (by decide)).mp h
    exact absurd hdvd (by decide)
  · intro h
    have hone := (read_drains_iff abc (by decide)).mp h
    exact absurd hone (by decide)

end Ansi

end Yaooi
