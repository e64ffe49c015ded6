import Mathlib.Algebra.GroupWithZero.Nat
import Mathlib.Data.List.TakeWhile
import Mathlib.Tactic.Common
import Yaooi.Lib.ArgSplit

/-!
# The command line of a process on Windows

`_yoi_win_argv_to_cmdline` of `src/win/impl.c`: the arguments of a process are put into one string,
each between quotes, with a backslash before each quote and twice as many backslashes before a
quote.  The buffer is allocated by the number of bytes of the arguments, before they are converted
to UTF-16.

* `Tracks` says what the machine that splits the line has read, while an argument is being written.
* `cmdline_splits`: the machine gives back the arguments, and the line fits into the buffer.
-/

namespace Yaooi

namespace Win

/-! ## Texts -/

/-- The UTF-16 code units of a character. -/
def utf16 (c : Char) : List (BitVec 16) :=
  if c.toNat < 0x10000 then [BitVec.ofNat 16 c.toNat]
  else [BitVec.ofNat 16 (0xD800 + (c.toNat - 0x10000) / 0x400),
    BitVec.ofNat 16 (0xDC00 + (c.toNat - 0x10000) % 0x400)]

/-- A string of valid UTF-8.  The character 0 would end it. -/
structure Utf8Arg where
  text : List Char
  nonzero : ∀ c ∈ text, c.toNat ≠ 0

namespace Utf8Arg

/-- Its bytes, up to the terminating zero. -/
def bytes (a : Utf8Arg) : List UInt8 := a.text.flatMap String.utf8EncodeChar

/-- The text in UTF-16. -/
def wide (a : Utf8Arg) : List (BitVec 16) := a.text.flatMap utf16

end Utf8Arg

/-! ## Units -/

def quote : BitVec 16 := 0x22#16

def backslash : BitVec 16 := 0x5C#16

def space : BitVec 16 := 0x20#16

/-- The units with a meaning; the blanks are the space and the tab. -/
def winMarks : ArgSplit.Marks (BitVec 16) where
  quote := quote
  backslash := backslash
  blank c := c == space || c == 0x09#16
  quote_ne := by decide
  blank_quote := by decide
  blank_backslash := by decide

/-- A string up to the terminating zero. -/
def cWide (buff : List (BitVec 16)) : List (BitVec 16) := buff.takeWhile (· ≠ 0#16)

/-- The arguments of a process that is started with this line. -/
def splitArgs (line : List (BitVec 16)) : List (List (BitVec 16)) :=
  ArgSplit.split winMarks (cWide line)

/-! ## The function -/

/-- `yo_spawn_flags_t` -/
def YO_SPAWN_NOESCAPE : BitVec 32 := 0#32

/-- Which allocations succeed: that of the buffer, that of each converted argument, and the one that
makes the buffer smaller. -/
structure CmdlineAnswers where
  malloc : Bool
  conv : ℕ → Bool
  realloc : Bool

/-- What the function does: the units allocated, the units written, and the line. -/
structure Cmdline where
  allocated : ℕ
  written : List (BitVec 16)
  result : Option (List (BitVec 16))

section

-- `MultiByteToWideChar`, on the bytes of a string
variable (multiByteToWideChar : List UInt8 → Option (List (BitVec 16)))

/-- `yoi_win_conv_utf8` -/
def yoiWinConvUtf8 (str : List UInt8) (mem : Bool) : Option (List (BitVec 16)) :=
  match multiByteToWideChar str with
  | none => none
  | some wstr => if mem then some (wstr ++ [0#16]) else none

/-- The variables `curr`, as the units before it, and `back_n`. -/
structure QuoteRun where
  out : List (BitVec 16)
  backN : ℕ

/-- The body of the loop over the units of an argument. -/
def quoteUnit (s : QuoteRun) (c : BitVec 16) : QuoteRun :=
  if c = backslash then { s with backN := s.backN + 1 }
  else if c = quote then
    ⟨s.out ++ (List.replicate (2 * s.backN) backslash ++ [backslash, quote]), 0⟩
  else ⟨s.out ++ (List.replicate s.backN backslash ++ [c]), 0⟩

/-- An argument between its quotes. -/
def quoteArg (out warg : List (BitVec 16)) : List (BitVec 16) :=
  let s := (cWide warg).foldl quoteUnit ⟨out ++ [quote], 0⟩
  s.out ++ (List.replicate (2 * s.backN) backslash ++ [quote])

/-- The loop over the arguments: what is written, and whether all were converted. -/
def quoteArgs (conv : ℕ → Bool) (i : ℕ) (out : List (BitVec 16)) :
    List (List UInt8) → List (BitVec 16) × Bool
  | [] => (out, true)
  | arg :: argv =>
    match yoiWinConvUtf8 multiByteToWideChar arg (conv i) with
    | none => (out, false)
    | some warg => quoteArgs conv (i + 1)
      (quoteArg out warg ++ [if argv.isEmpty then 0#16 else space]) argv

/-- The loop of `_yoi_win_argv_to_cmdline_raw`. -/
def joinArgs (conv : ℕ → Bool) (i : ℕ) (out : List (BitVec 16)) :
    List (List UInt8) → List (BitVec 16) × Bool
  | [] => (out, true)
  | arg :: argv =>
    let out := if i = 0 then out else out ++ [space]
    match yoiWinConvUtf8 multiByteToWideChar arg (conv i) with
    | none => (out, false)
    | some warg => joinArgs conv (i + 1) (out ++ cWide warg) argv

/-- `_yoi_win_argv_to_cmdline_raw` -/
def yoiWinArgvToCmdlineRaw (ans : CmdlineAnswers) (argv : List (List UInt8)) : Cmdline :=
  let buffN := (argv.map fun arg => arg.length + 1).sum
  if ans.malloc then
    let (out, ok) := joinArgs multiByteToWideChar ans.conv 0 [] argv
    ⟨buffN, out ++ [0#16], if ok then some (out ++ [0#16]) else none⟩
  else ⟨0, [], none⟩

/-- `_yoi_win_argv_to_cmdline`.  The sizes are those of strings in memory, so that no `size_t`
overflows. -/
def yoiWinArgvToCmdline (ans : CmdlineAnswers) (argv : List (List UInt8)) (flags : BitVec 32) :
    Cmdline :=
  if flags = YO_SPAWN_NOESCAPE then yoiWinArgvToCmdlineRaw multiByteToWideChar ans argv
  else
    let buffN := (argv.map fun arg => 1 + arg.length * 2 + 1 + 1).sum
    if ans.malloc then
      let (out, ok) := quoteArgs multiByteToWideChar ans.conv 0 [] argv
      ⟨buffN, out, if ok && ans.realloc then some out else none⟩
    else ⟨0, [], none⟩

end

/-! ## Texts in both encodings -/

variable {c : Char} {a : Utf8Arg}

/-- No more units than bytes. -/
theorem length_utf16_le (c : Char) : (utf16 c).length ≤ (String.utf8EncodeChar c).length := by
  have hpos := c.utf8Size_pos
  rw [String.length_utf8EncodeChar, utf16]
  split
  · exact hpos
  · rename_i hbig
    have hfour : c.utf8Size = 4 := by
      rw [Char.utf8Size_eq_four_iff, UInt32.lt_iff_toNat_lt]
      have hval : c.val.toNat = c.toNat := rfl
      have hmax : (0xffff : UInt32).toNat = 0xffff := rfl
      omega
    simp [hfour]

theorem length_flatMap_utf16_le (text : List Char) :
    (text.flatMap utf16).length ≤ (text.flatMap String.utf8EncodeChar).length := by
  induction text with
  | nil => exact Nat.le_refl _
  | cons c text ih =>
    rw [List.flatMap_cons, List.flatMap_cons, List.length_append, List.length_append]
    exact Nat.add_le_add (length_utf16_le c) ih

theorem Utf8Arg.length_wide_le (a : Utf8Arg) : a.wide.length ≤ a.bytes.length :=
  length_flatMap_utf16_le a.text

/-- A character that is not 0 has no unit that is. -/
theorem utf16_ne_zero (h : c.toNat ≠ 0) : ∀ u ∈ utf16 c, u ≠ 0#16 := by
  intro u hu hzero
  have hlt : c.toNat < 0x110000 := by
    rcases c.valid with hv | ⟨-, hv⟩
    · exact Nat.lt_trans hv (by decide)
    · exact hv
  subst hzero
  unfold utf16 at hu
  split at hu
  · have hnat := congrArg BitVec.toNat (List.mem_singleton.mp hu)
    simp only [BitVec.toNat_ofNat] at hnat
    omega
  · rcases List.mem_cons.mp hu with hu | hu
    · have hnat := congrArg BitVec.toNat hu
      simp only [BitVec.toNat_ofNat] at hnat
      omega
    · have hnat := congrArg BitVec.toNat (List.mem_singleton.mp hu)
      simp only [BitVec.toNat_ofNat] at hnat
      omega

theorem Utf8Arg.wide_ne_zero (a : Utf8Arg) : ∀ u ∈ a.wide, u ≠ 0#16 := by
  intro u hu
  obtain ⟨c, hc, hmem⟩ := List.mem_flatMap.mp hu
  exact utf16_ne_zero (a.nonzero c hc) u hmem

/-- A string ends at its terminating zero. -/
theorem cWide_append_zero {l rest : List (BitVec 16)} (h : ∀ u ∈ l, u ≠ 0#16) :
    cWide (l ++ 0#16 :: rest) = l := by
  rw [cWide, List.takeWhile_append_of_pos]
  · simp
  · intro u hu
    exact decide_eq_true (h u hu)

/-! ## One argument -/

variable {s : QuoteRun} {p w out : List (BitVec 16)} {d : List (List (BitVec 16))} {u : BitVec 16}

/-- The units `p` of an argument were written, but for the backslashes that are held back. -/
def Tracks (s : QuoteRun) (p : List (BitVec 16)) (d : List (List (BitVec 16))) : Prop :=
  ∃ a, ArgSplit.run winMarks .start s.out = ⟨true, 0, some a, d⟩ ∧
    p = a ++ List.replicate s.backN backslash

/-- **One unit.**  What is written for it is read as the backslashes held back and the unit. -/
theorem Tracks.quoteUnit (h : Tracks s p d) (u : BitVec 16) :
    Tracks (quoteUnit s u) (p ++ [u]) d := by
  obtain ⟨a, hrun, rfl⟩ := h
  unfold Win.quoteUnit
  by_cases hback : u = backslash
  · rw [if_pos hback, hback]
    refine ⟨a, hrun, ?_⟩
    rw [List.append_assoc, List.replicate_succ']
  · rw [if_neg hback]
    by_cases hquote : u = quote
    · rw [if_pos hquote, hquote]
      have hodd : List.replicate (2 * s.backN) backslash ++ [backslash, quote] =
          List.replicate (2 * s.backN + 1) backslash ++ [quote] := by
        rw [List.replicate_succ', List.append_assoc]
        rfl
      refine ⟨a ++ (List.replicate s.backN backslash ++ [quote]), ?_, by simp⟩
      rw [ArgSplit.run_append, hrun, hodd]
      exact ArgSplit.run_quote_odd (m := winMarks)
    · rw [if_neg hquote]
      refine ⟨a ++ (List.replicate s.backN backslash ++ [u]), ?_, by simp⟩
      rw [ArgSplit.run_append, hrun]
      exact ArgSplit.run_other (m := winMarks) hback hquote

/-- **All units.** -/
theorem Tracks.foldl (h : Tracks s p d) (w : List (BitVec 16)) :
    Tracks (w.foldl Win.quoteUnit s) (p ++ w) d := by
  induction w generalizing s p with
  | nil => simpa using h
  | cons u w ih => simpa using ih (h.quoteUnit u)

/-- An argument is read as it is, and its quotation is over. -/
theorem run_quoteArg (hout : ArgSplit.run winMarks .start out = ⟨false, 0, none, d⟩)
    (w : List (BitVec 16)) :
    ArgSplit.run winMarks .start (quoteArg out w) = ⟨false, 0, some (cWide w), d⟩ := by
  have hopen : Tracks ⟨out ++ [quote], 0⟩ [] d := by
    refine ⟨[], ?_, rfl⟩
    rw [ArgSplit.run_append, hout]
    exact ArgSplit.run_open (m := winMarks)
  have hwritten := hopen.foldl (cWide w)
  rw [List.nil_append] at hwritten
  rw [quoteArg]
  generalize (cWide w).foldl quoteUnit ⟨out ++ [quote], 0⟩ = s at hwritten
  obtain ⟨a, hrun, hw⟩ := hwritten
  rw [ArgSplit.run_append, hrun, hw]
  exact ArgSplit.run_quote_even (m := winMarks)

/-! ## What is written -/

/-- No unit is zero. -/
def Solid (l : List (BitVec 16)) : Prop := ∀ u ∈ l, u ≠ 0#16

theorem Solid.append {l l' : List (BitVec 16)} (h : Solid l) (h' : Solid l') : Solid (l ++ l') := by
  intro u hu
  rcases List.mem_append.mp hu with hu | hu
  · exact h u hu
  · exact h' u hu

theorem solid_singleton (h : u ≠ 0#16) : Solid [u] := by
  intro v hv
  rwa [List.mem_singleton.mp hv]

theorem solid_backslashes (k : ℕ) : Solid (List.replicate k backslash) := by
  intro u hu
  rw [List.eq_of_mem_replicate hu]
  decide

theorem solid_cWide (w : List (BitVec 16)) : Solid (cWide w) := by
  intro u hu
  have hdec := List.mem_takeWhile_imp (p := fun v : BitVec 16 => decide (v ≠ 0#16)) hu
  exact of_decide_eq_true hdec

theorem solid_quoteUnit (hs : Solid s.out) (hu : u ≠ 0#16) : Solid (quoteUnit s u).out := by
  have hquote : Solid [quote] := solid_singleton (by decide)
  have hback : Solid [backslash] := solid_singleton (by decide)
  unfold quoteUnit
  split
  · exact hs
  · split
    · exact hs.append ((solid_backslashes _).append (hback.append hquote))
    · exact hs.append ((solid_backslashes _).append (solid_singleton hu))

theorem solid_foldl (hs : Solid s.out) (hw : Solid w) : Solid (w.foldl quoteUnit s).out := by
  induction w generalizing s with
  | nil => exact hs
  | cons u w ih =>
    have hstep := solid_quoteUnit hs (hw u (List.mem_cons_self ..))
    exact ih hstep fun v hv => hw v (List.mem_cons_of_mem _ hv)

theorem solid_quoteArg (hout : Solid out) (w : List (BitVec 16)) : Solid (quoteArg out w) := by
  have hquote : Solid [quote] := solid_singleton (by decide)
  have hfold := solid_foldl (s := ⟨out ++ [quote], 0⟩) (hout.append hquote) (solid_cWide w)
  exact hfold.append ((solid_backslashes _).append hquote)

/-- A unit takes no more than two, with the backslashes held back counted twice. -/
theorem length_quoteUnit_le (s : QuoteRun) (u : BitVec 16) :
    (quoteUnit s u).out.length + 2 * (quoteUnit s u).backN ≤
      s.out.length + 2 * s.backN + 2 := by
  unfold quoteUnit
  split
  · exact Nat.le_of_eq (by simp only; omega)
  · split
    · simp only [List.length_append, List.length_replicate, List.length_cons, List.length_nil]
      omega
    · simp only [List.length_append, List.length_replicate, List.length_cons, List.length_nil]
      omega

theorem length_foldl_le (s : QuoteRun) (w : List (BitVec 16)) :
    (w.foldl quoteUnit s).out.length + 2 * (w.foldl quoteUnit s).backN ≤
      s.out.length + 2 * s.backN + 2 * w.length := by
  induction w generalizing s with
  | nil => exact Nat.le_refl _
  | cons u w ih =>
    have hstep := length_quoteUnit_le s u
    have hrest := ih (quoteUnit s u)
    rw [List.foldl_cons, List.length_cons]
    omega

theorem length_quoteArg_le (out w : List (BitVec 16)) :
    (quoteArg out w).length ≤ out.length + 2 * (cWide w).length + 2 := by
  have hfold := length_foldl_le ⟨out ++ [quote], 0⟩ (cWide w)
  simp only [List.length_append, List.length_singleton] at hfold
  simp only [quoteArg, List.length_append, List.length_replicate, List.length_singleton]
  omega

/-! ## All arguments -/

variable {mb : List UInt8 → Option (List (BitVec 16))} {argv : List Utf8Arg} {conv : ℕ → Bool}
  {i : ℕ}

/-- An argument is converted, if there is memory for it. -/
theorem yoiWinConvUtf8_eq (h : mb a.bytes = some a.wide) (mem : Bool) :
    yoiWinConvUtf8 mb a.bytes mem = if mem then some (a.wide ++ [0#16]) else none := by
  rw [yoiWinConvUtf8, h]

theorem cWide_wide (a : Utf8Arg) : cWide (a.wide ++ [0#16]) = a.wide :=
  cWide_append_zero a.wide_ne_zero

/-- **The buffer is large enough**, also where an argument is not converted. -/
theorem length_quoteArgs_le (conv : ℕ → Bool) (i : ℕ) (out : List (BitVec 16))
    (hmb : ∀ a ∈ argv, mb a.bytes = some a.wide) :
    (quoteArgs mb conv i out (argv.map Utf8Arg.bytes)).1.length ≤
      out.length + ((argv.map Utf8Arg.bytes).map fun arg => 1 + arg.length * 2 + 1 + 1).sum := by
  induction argv generalizing i out with
  | nil => exact Nat.le_refl _
  | cons a argv ih =>
    rw [List.map_cons, quoteArgs, yoiWinConvUtf8_eq (hmb a (List.mem_cons_self ..)), List.map_cons,
      List.sum_cons]
    cases hmem : conv i with
    | false => exact Nat.le_add_right _ _
    | true =>
      have hrest := ih (i + 1) (quoteArg out (a.wide ++ [0#16]) ++
        [if (argv.map Utf8Arg.bytes).isEmpty then 0#16 else space])
        fun b hb => hmb b (List.mem_cons_of_mem _ hb)
      have harg := length_quoteArg_le out (a.wide ++ [0#16])
      have hunits := a.length_wide_le
      rw [cWide_wide] at harg
      rw [List.length_append, List.length_singleton] at hrest
      apply hrest.trans
      omega

/-- Where there is memory for all of them, all arguments are converted. -/
theorem quoteArgs_ok (hmb : ∀ a ∈ argv, mb a.bytes = some a.wide) (hconv : ∀ i, conv i = true) :
    (quoteArgs mb conv i out (argv.map Utf8Arg.bytes)).2 = true := by
  induction argv generalizing i out with
  | nil => rfl
  | cons a argv ih =>
    rw [List.map_cons, quoteArgs, yoiWinConvUtf8_eq (hmb a (List.mem_cons_self ..)), hconv,
      if_pos rfl]
    exact ih fun b hb => hmb b (List.mem_cons_of_mem _ hb)

/-- **The line is split into the arguments.** -/
theorem splitArgs_quoteArgs (hne : argv ≠ []) (hmb : ∀ a ∈ argv, mb a.bytes = some a.wide)
    (hout : ArgSplit.run winMarks .start out = ⟨false, 0, none, d⟩) (hsolid : Solid out)
    (hok : (quoteArgs mb conv i out (argv.map Utf8Arg.bytes)).2 = true) :
    splitArgs (quoteArgs mb conv i out (argv.map Utf8Arg.bytes)).1 =
      d ++ argv.map Utf8Arg.wide := by
  induction argv generalizing i out d with
  | nil => exact absurd rfl hne
  | cons a argv ih =>
    have hrun := run_quoteArg hout (a.wide ++ [0#16])
    have hwritten := solid_quoteArg hsolid (a.wide ++ [0#16])
    rw [cWide_wide] at hrun
    rw [List.map_cons, quoteArgs, yoiWinConvUtf8_eq (hmb a (List.mem_cons_self ..))] at hok ⊢
    cases hmem : conv i with
    | false =>
      rw [hmem] at hok
      exact absurd hok (by simp)
    | true =>
      rw [hmem] at hok
      simp only [if_true] at hok ⊢
      cases argv with
      | nil =>
        simp only [List.map_nil, quoteArgs, List.isEmpty_nil, if_true]
        rw [splitArgs, cWide_append_zero hwritten, ArgSplit.split, hrun, ArgSplit.close_some]
        rfl
      | cons b argv =>
        have hspace : ArgSplit.run winMarks .start (quoteArg out (a.wide ++ [0#16]) ++ [space]) =
            ⟨false, 0, none, d ++ [a.wide]⟩ := by
          rw [ArgSplit.run_append, hrun]
          exact ArgSplit.run_blank (m := winMarks) (by decide)
        have hrest := ih (i := i + 1) (by simp) (fun c hc => hmb c (List.mem_cons_of_mem _ hc))
          hspace (hwritten.append (solid_singleton (by decide))) hok
        rw [List.append_assoc] at hrest
        exact hrest

/-- **Quoting arguments.**  For every argument vector that is not empty, of valid UTF-8 strings, and
every other flag: splitting the line gives back the arguments, and no more units are written than
there were allocated.  There is a line if there is memory. -/
theorem cmdline_splits (mb : List UInt8 → Option (List (BitVec 16))) (argv : List Utf8Arg)
    (hne : argv ≠ []) (hmb : ∀ a ∈ argv, mb a.bytes = some a.wide) (flags : BitVec 32)
    (hflags : flags ≠ YO_SPAWN_NOESCAPE) (ans : CmdlineAnswers) :
    (yoiWinArgvToCmdline mb ans (argv.map Utf8Arg.bytes) flags).written.length ≤
      (yoiWinArgvToCmdline mb ans (argv.map Utf8Arg.bytes) flags).allocated ∧
    (∀ line, (yoiWinArgvToCmdline mb ans (argv.map Utf8Arg.bytes) flags).result = some line →
      splitArgs line = argv.map Utf8Arg.wide) ∧
    (ans.malloc = true → (∀ i, ans.conv i = true) → ans.realloc = true →
      (yoiWinArgvToCmdline mb ans (argv.map Utf8Arg.bytes) flags).result ≠ none) := by
  rw [yoiWinArgvToCmdline, if_neg hflags]
  cases hmem : ans.malloc with
  | false =>
    refine ⟨Nat.le_refl _, ?_, ?_⟩
    · intro line hline
      exact absurd hline (by simp)
    · intro hmalloc
      exact absurd hmalloc (by simp)
  | true =>
    simp only [if_true]
    refine ⟨?_, ?_, ?_⟩
    · simpa using length_quoteArgs_le ans.conv 0 [] hmb
    · intro line hline
      by_cases hok : (quoteArgs mb ans.conv 0 [] (argv.map Utf8Arg.bytes)).2 = true
      · have hempty : Solid [] := fun u hu => absurd hu List.not_mem_nil
        have hsplit := splitArgs_quoteArgs hne hmb rfl hempty hok
        rw [hok, Bool.true_and] at hline
        by_cases hrealloc : ans.realloc = true
        · rw [if_pos hrealloc] at hline
          rw [← Option.some.inj hline]
          exact hsplit
        · rw [if_neg hrealloc] at hline
          exact absurd hline (by simp)
      · rw [Bool.not_eq_true] at hok
        rw [hok] at hline
        exact absurd hline (by simp)
    · intro _ hconv hrealloc
      rw [quoteArgs_ok hmb hconv, hrealloc]
      simp

/-- `MultiByteToWideChar` on ASCII. -/
def asciiToWide (str : List UInt8) : Option (List (BitVec 16)) :=
  some (str.map fun b => b.toBitVec.setWidth 16)

/-- A backslash before a quote, an empty argument, and a blank before a backslash at the end. -/
def sampleArgs : List Utf8Arg :=
  [⟨['a', '\\', '"'], by simp⟩, ⟨[], by simp⟩, ⟨[' ', '\\'], by simp⟩]

theorem asciiToWide_sampleArgs : ∀ a ∈ sampleArgs, asciiToWide a.bytes = some a.wide := by
  intro a ha
  simp only [sampleArgs, List.mem_cons, List.not_mem_nil, or_false] at ha
  rcases ha with rfl | rfl | rfl
  · rfl
  · rfl
  · rfl

/-- Their line. -/
def sampleLine : Cmdline :=
  yoiWinArgvToCmdline asciiToWide ⟨true, fun _ => true, true⟩ (sampleArgs.map Utf8Arg.bytes) 1#32

theorem cmdline_splits_sampleArgs :
    sampleLine.written.length ≤ sampleLine.allocated ∧
    (∀ line, sampleLine.result = some line → splitArgs line = sampleArgs.map Utf8Arg.wide) ∧
    sampleLine.result ≠ none := by
  obtain ⟨hlen, hsplit, hres⟩ := cmdline_splits asciiToWide sampleArgs (by simp [sampleArgs])
    asciiToWide_sampleArgs 1#32 (by decide) ⟨true, fun _ => true, true⟩
  exact ⟨hlen, hsplit, hres rfl (fun _ => rfl) rfl⟩

end Win

end Yaooi
