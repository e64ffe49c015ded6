import Mathlib.Algebra.Order.BigOperators.Group.List
import Yaooi.Lib.ArgJoin
import Yaooi.Win.Cmdline

/-!
# The command line without quoting

With the flag `YO_SPAWN_NOESCAPE`, which is zero and so what a caller asks for without any flag,
`_yoi_win_argv_to_cmdline` leaves the arguments as they are.

* `raw_splits_iff`: which arguments the process gets back, and when the buffer is large enough.
-/

namespace Yaooi

namespace Win

open ArgSplit

/-! ## Characters and units -/

/-- A unit below the surrogates is that of one character. -/
theorem mem_utf16_iff {u : BitVec 16} (hu : u.toNat < 0xD800) (c : Char) :
    u ∈ utf16 c ↔ c.toNat = u.toNat := by
  have hmax : c.toNat < 0x110000 := by
    rcases c.valid with hv | ⟨-, hv⟩
    · exact Nat.lt_trans hv (by decide)
    · exact hv
  unfold utf16
  split
  · rename_i hsmall
    rw [List.mem_singleton, ← BitVec.toNat_inj, BitVec.toNat_ofNat]
    omega
  · simp only [List.mem_cons, List.not_mem_nil, or_false, ← BitVec.toNat_inj, BitVec.toNat_ofNat]
    omega

theorem mem_wide_iff {u : BitVec 16} (hu : u.toNat < 0xD800) (a : Utf8Arg) :
    u ∈ a.wide ↔ ∃ c ∈ a.text, c.toNat = u.toNat := by
  simp only [Utf8Arg.wide, List.mem_flatMap, mem_utf16_iff hu]

/-- Two characters with the same number are the same. -/
theorem char_eq_iff {c d : Char} : c = d ↔ c.toNat = d.toNat := by
  constructor
  · rintro rfl
    rfl
  · intro h
    exact Char.ext (UInt32.toNat_inj.mp h)

/-- What an argument may be that needs no quotes. -/
def NoMarks (a : Utf8Arg) : Prop := a.text ≠ [] ∧ ∀ c ∈ a.text, c ≠ ' ' ∧ c ≠ '\t' ∧ c ≠ '"'

theorem plain_wide_iff (a : Utf8Arg) : Plain winMarks a.wide ↔ NoMarks a := by
  have hnil : a.wide = [] ↔ a.text = [] := by
    rw [Utf8Arg.wide, List.flatMap_eq_nil_iff]
    constructor
    · intro h
      refine List.eq_nil_iff_forall_not_mem.mpr fun c hc => ?_
      have hempty := h c hc
      unfold utf16 at hempty
      split at hempty <;> simp at hempty
    · intro h
      simp [h]
  have hspace := mem_wide_iff (u := space) (by decide) a
  have htab := mem_wide_iff (u := 0x09#16) (by decide) a
  have hquote := mem_wide_iff (u := quote) (by decide) a
  rw [Plain, NoMarks, ne_eq, hnil, ne_eq]
  refine and_congr_right fun _ => ?_
  have hmarks : (∀ u ∈ a.wide, PlainUnit winMarks u) ↔
      space ∉ a.wide ∧ 0x09#16 ∉ a.wide ∧ quote ∉ a.wide := by
    constructor
    · intro h
      refine ⟨fun hu => ?_, fun hu => ?_, fun hu => (h _ hu).2 rfl⟩
      · exact absurd (h _ hu).1 (by decide)
      · exact absurd (h _ hu).1 (by decide)
    · rintro ⟨hs, ht, hq⟩ u hu
      refine ⟨?_, fun e : u = quote => hq (e ▸ hu)⟩
      have hs' : u ≠ space := fun e => hs (e ▸ hu)
      have ht' : u ≠ 0x09#16 := fun e => ht (e ▸ hu)
      simp [winMarks, hs', ht']
  rw [hmarks, hspace, htab, hquote]
  simp only [ne_eq, char_eq_iff]
  constructor
  · rintro ⟨hs, ht, hq⟩ c hc
    exact ⟨fun e => hs ⟨c, hc, e⟩, fun e => ht ⟨c, hc, e⟩, fun e => hq ⟨c, hc, e⟩⟩
  · intro h
    refine ⟨?_, ?_, ?_⟩
    · rintro ⟨c, hc, e⟩
      exact (h c hc).1 e
    · rintro ⟨c, hc, e⟩
      exact (h c hc).2.1 e
    · rintro ⟨c, hc, e⟩
      exact (h c hc).2.2 e

/-! ## The line -/

variable {mb : List UInt8 → Option (List (BitVec 16))} {argv : List Utf8Arg} {conv : ℕ → Bool}

/-- After the first argument each one comes with a space. -/
theorem joinArgs_rest (hmb : ∀ a ∈ argv, mb a.bytes = some a.wide) (hconv : ∀ i, conv i = true)
    (i : ℕ) (out : List (BitVec 16)) :
    joinArgs mb conv (i + 1) out (argv.map Utf8Arg.bytes) =
      (out ++ (argv.map Utf8Arg.wide).flatMap (space :: ·), true) := by
  induction argv generalizing i out with
  | nil => simp [joinArgs]
  | cons a argv ih =>
    have ha := hmb a (List.mem_cons_self ..)
    have hrest := ih (fun b hb => hmb b (List.mem_cons_of_mem _ hb)) (i + 1)
      (out ++ [space] ++ a.wide)
    rw [List.map_cons, joinArgs, yoiWinConvUtf8_eq ha, hconv]
    simp only [Nat.add_one_ne_zero, if_false, if_true, cWide_wide]
    rw [hrest]
    simp

/-- The arguments with spaces between them. -/
theorem joinArgs_eq (hmb : ∀ a ∈ argv, mb a.bytes = some a.wide) (hconv : ∀ i, conv i = true) :
    joinArgs mb conv 0 [] (argv.map Utf8Arg.bytes) =
      (join space (argv.map Utf8Arg.wide), true) := by
  cases argv with
  | nil => rfl
  | cons a argv =>
    have ha := hmb a (List.mem_cons_self ..)
    rw [List.map_cons, joinArgs, yoiWinConvUtf8_eq ha, hconv]
    simp only [if_true, cWide_wide, List.nil_append]
    rw [joinArgs_rest (fun b hb => hmb b (List.mem_cons_of_mem _ hb)) hconv]
    rfl

/-- No unit of the line is zero. -/
theorem solid_join (argv : List Utf8Arg) : Solid (join space (argv.map Utf8Arg.wide)) := by
  have hrest : ∀ l : List Utf8Arg, Solid ((l.map Utf8Arg.wide).flatMap (space :: ·)) := by
    intro l u hu
    obtain ⟨w, hw, hmem⟩ := List.mem_flatMap.mp hu
    obtain ⟨a, -, rfl⟩ := List.mem_map.mp hw
    rcases List.mem_cons.mp hmem with rfl | hmem
    · decide
    · exact a.wide_ne_zero u hmem
  cases argv with
  | nil => exact fun u hu => absurd hu List.not_mem_nil
  | cons a argv => exact Solid.append a.wide_ne_zero (hrest argv)

/-- The line has no more units than the arguments have bytes, each with its terminating zero. -/
theorem length_join_le (argv : List Utf8Arg) (hne : argv ≠ []) :
    (join space (argv.map Utf8Arg.wide)).length + 1 ≤
      ((argv.map Utf8Arg.bytes).map fun b => b.length + 1).sum := by
  obtain ⟨a, argv, rfl⟩ := List.exists_cons_of_ne_nil hne
  rw [List.map_cons, length_join, ← List.map_cons (f := Utf8Arg.wide), List.map_map, List.map_map]
  exact List.sum_le_sum fun b _ => Nat.succ_le_succ b.length_wide_le

/-- **Arguments that are not quoted.**  For every argument vector of valid UTF-8 strings, where
there is memory: the process gets the arguments it was given if and only if none of them is empty
and none has a space, a tab or a quote.  The line fits into the buffer if and only if there is an
argument; without one a unit is written past a buffer of none. -/
theorem raw_splits_iff (mb : List UInt8 → Option (List (BitVec 16))) (argv : List Utf8Arg)
    (hmb : ∀ a ∈ argv, mb a.bytes = some a.wide) (ans : CmdlineAnswers)
    (hmalloc : ans.malloc = true) (hconv : ∀ i, ans.conv i = true) :
    ∃ line, yoiWinArgvToCmdline mb ans (argv.map Utf8Arg.bytes) YO_SPAWN_NOESCAPE =
        ⟨((argv.map Utf8Arg.bytes).map fun b => b.length + 1).sum, line, some line⟩ ∧
      (line.length ≤ ((argv.map Utf8Arg.bytes).map fun b => b.length + 1).sum ↔ argv ≠ []) ∧
      (argv ≠ [] → (splitArgs line = argv.map Utf8Arg.wide ↔ ∀ a ∈ argv, NoMarks a)) := by
  refine ⟨join space (argv.map Utf8Arg.wide) ++ [0#16], ?_, ?_, ?_⟩
  · rw [yoiWinArgvToCmdline, if_pos rfl, yoiWinArgvToCmdlineRaw, if_pos hmalloc]
    simp only [joinArgs_eq hmb hconv, if_true]
  · constructor
    · rintro hle rfl
      simp [join] at hle
    · intro hne
      rw [List.length_append]
      exact length_join_le argv hne
  · intro hne
    have hmap : argv.map Utf8Arg.wide ≠ [] := by simpa using hne
    rw [splitArgs, cWide_append_zero (solid_join argv), split_join_iff (by decide) hmap]
    simp only [List.mem_map, forall_exists_index, and_imp, forall_apply_eq_imp_iff₂, plain_wide_iff]

/-- An argument with a space. -/
def spacedArg : Utf8Arg := ⟨['a', ' ', 'b'], by simp⟩

/-- It is lost, and fits into the buffer. -/
theorem raw_splits_iff_spacedArg : ∃ line,
    (yoiWinArgvToCmdline asciiToWide ⟨true, fun _ => true, true⟩ [spacedArg.bytes]
      YO_SPAWN_NOESCAPE).result = some line ∧ line.length ≤ 4 ∧
        splitArgs line ≠ [spacedArg.wide] := by
  have hmb : ∀ a ∈ [spacedArg], asciiToWide a.bytes = some a.wide := by
    intro a ha
    rw [List.mem_singleton.mp ha]
    rfl
  obtain ⟨line, hline, hfits, hsplit⟩ :=
    raw_splits_iff asciiToWide [spacedArg] hmb ⟨true, fun _ => true, true⟩ rfl fun _ => rfl
  refine ⟨line, congrArg Cmdline.result hline, hfits.mpr (by simp), fun h => ?_⟩
  have hmarks := (hsplit (by simp)).mp h spacedArg (List.mem_singleton_self _)
  exact (hmarks.2 ' ' (by simp [spacedArg])).1 rfl

end Win

end Yaooi
