import TrainingPlatform.Go.Lines
import Mathlib.Algebra.Group.Int.Defs
import Mathlib.Data.List.DropRight

/-!
# Text functions

Functions of `strings`, `strconv`, `html` and `fmt` over Go strings.
-/

namespace Go

/-- `\s` of a regular expression. -/
def isBlank (b : UInt8) : Bool :=
  b = 0x20 || b = 0x09 || b = 0x0A || b = 0x0C || b = 0x0D

/-- The encodings of the runes `unicode.IsSpace` accepts. -/
def spaceRunes : List GoString :=
  [[0x09], [0x0A], [0x0B], [0x0C], [0x0D], [0x20], [0xC2, 0x85], [0xC2, 0xA0],
    [0xE1, 0x9A, 0x80], [0xE2, 0x80, 0x80], [0xE2, 0x80, 0x81], [0xE2, 0x80, 0x82],
    [0xE2, 0x80, 0x83], [0xE2, 0x80, 0x84], [0xE2, 0x80, 0x85], [0xE2, 0x80, 0x86],
    [0xE2, 0x80, 0x87], [0xE2, 0x80, 0x88], [0xE2, 0x80, 0x89], [0xE2, 0x80, 0x8A],
    [0xE2, 0x80, 0xA8], [0xE2, 0x80, 0xA9], [0xE2, 0x80, 0xAF], [0xE2, 0x81, 0x9F],
    [0xE3, 0x80, 0x80]]

/-- The rest of a string behind the space rune it starts with. -/
def dropSpaceRune (s : GoString) : Option GoString :=
  (spaceRunes.find? fun r => r.isPrefixOf s).map fun r => s.drop r.length

def trimLeftSpaceN : Nat → GoString → GoString
  | 0, s => s
  | n + 1, s =>
    match dropSpaceRune s with
    | none => s
    | some t => trimLeftSpaceN n t

/-- `strings.TrimLeftFunc(s, unicode.IsSpace)`. -/
def trimLeftSpace (s : GoString) : GoString := trimLeftSpaceN s.length s

/-- The trailing spaces start at the first byte behind which there are only space
runes: the encoding of a rune never starts inside another. -/
def trimRightSpace : GoString → GoString
  | [] => []
  | b :: s => if trimLeftSpace (b :: s) = [] then [] else b :: trimRightSpace s

def trimSpace (s : GoString) : GoString := trimRightSpace (trimLeftSpace s)

/-- `strings.TrimLeft(s, cutset)` for an ASCII cutset. -/
def trimLeft (cutset : GoString) (s : GoString) : GoString := s.dropWhile (· ∈ cutset)

/-- `strings.Trim(s, cutset)` for an ASCII cutset. -/
def trim (cutset : GoString) (s : GoString) : GoString :=
  ((s.dropWhile (· ∈ cutset)).reverse.dropWhile (· ∈ cutset)).reverse

def trimPrefix (s pre : GoString) : GoString := if hasPrefix s pre then s.drop pre.length else s

/-- `strings.CutPrefix`. -/
def cutPrefix (s pre : GoString) : Option GoString :=
  if hasPrefix s pre then some (s.drop pre.length) else none

def hasSuffix (s suf : GoString) : Bool := suf.isSuffixOf s

def trimSuffix (s suf : GoString) : GoString :=
  if hasSuffix s suf then s.take (s.length - suf.length) else s

/-- `strings.Join`. -/
def join (ss : List GoString) (sep : GoString) : GoString := sep.intercalate ss

/-- `strings.Replace(s, old, new, 1)`. -/
def replaceFirst (old new : GoString) : GoString → GoString
  | [] => if old = [] then new else []
  | b :: s =>
    if old.isPrefixOf (b :: s) then new ++ (b :: s).drop old.length
    else b :: replaceFirst old new s

/-- The body of `strconv.Atoi`: the value, and whether it parsed without error. -/
def atoi (s : GoString) : Int × Bool :=
  let digits := if s.head? = some 0x2D || s.head? = some 0x2B then s.tail else s
  let isDigit := fun b : UInt8 => 0x30 ≤ b && b ≤ 0x39
  if digits = [] || !digits.all isDigit then (0, false)
  else
    let n : Int := digits.foldl (fun n b => 10 * n + (b.toNat - 0x30)) 0
    let v := if s.head? = some 0x2D then -n else n
    if v < -(2 ^ 63) then (-(2 ^ 63), false)
    else if 2 ^ 63 ≤ v then (2 ^ 63 - 1, false)
    else (v, true)

/-- `html.EscapeString`. -/
def escapeString (s : GoString) : GoString :=
  s.flatMap fun b =>
    if b = 0x26 then utf8 "&amp;"
    else if b = 0x27 then utf8 "&#39;"
    else if b = 0x3C then utf8 "&lt;"
    else if b = 0x3E then utf8 "&gt;"
    else if b = 0x22 then utf8 "&#34;"
    else [b]

/-! ## Laws -/

theorem dropSpaceRune_eq_some {s t : GoString} (h : dropSpaceRune s = some t) :
    ∃ r ∈ spaceRunes, s = r ++ t := by
  rw [dropSpaceRune, Option.map_eq_some_iff] at h
  obtain ⟨r, hr, rfl⟩ := h
  have hpre : r.isPrefixOf s = true := List.find?_some (p := fun r : GoString => r.isPrefixOf s) hr
  rw [List.isPrefixOf_iff_prefix] at hpre
  refine ⟨r, List.mem_of_find?_eq_some hr, ?_⟩
  exact (List.prefix_iff_eq_append.mp hpre).symm

theorem trimLeftSpaceN_suffix (n : Nat) (s : GoString) : trimLeftSpaceN n s <:+ s := by
  induction n generalizing s with
  | zero => exact List.suffix_rfl
  | succ n ih =>
    rw [trimLeftSpaceN]
    cases hs : dropSpaceRune s with
    | none => exact List.suffix_rfl
    | some t =>
      obtain ⟨r, -, rfl⟩ := dropSpaceRune_eq_some hs
      exact (ih t).trans (List.suffix_append r t)

theorem trimLeftSpace_suffix (s : GoString) : trimLeftSpace s <:+ s :=
  trimLeftSpaceN_suffix _ s

theorem trimRightSpace_isPrefix (s : GoString) : trimRightSpace s <+: s := by
  induction s with
  | nil => exact List.prefix_rfl
  | cons b s ih =>
    rw [trimRightSpace]
    split_ifs
    · exact List.nil_prefix
    · exact List.cons_prefix_cons.mpr ⟨rfl, ih⟩

/-- A byte no space starts with stays the first. -/
theorem trimSpace_cons {b : UInt8} (hb : ∀ r ∈ spaceRunes, r.head? ≠ some b) (s : GoString) :
    trimSpace (b :: s) = b :: trimRightSpace s := by
  have hnone : dropSpaceRune (b :: s) = none := by
    rw [dropSpaceRune, Option.map_eq_none_iff, List.find?_eq_none]
    intro r hr hpre
    have hne : ∀ r ∈ spaceRunes, r ≠ [] := by decide
    obtain ⟨c, r, rfl⟩ := List.exists_cons_of_ne_nil (hne r hr)
    rw [List.isPrefixOf_iff_prefix, List.cons_prefix_cons] at hpre
    exact hb _ hr (congrArg some hpre.1)
  have hleft : trimLeftSpace (b :: s) = b :: s := by
    rw [trimLeftSpace, List.length_cons, trimLeftSpaceN, hnone]
  rw [trimSpace, hleft, trimRightSpace, hleft, if_neg (List.cons_ne_nil b s)]

/-- A byte that is part of no space is never trimmed. -/
theorem mem_trimLeftSpace {b : UInt8} (hb : ∀ r ∈ spaceRunes, b ∉ r) {s : GoString} (h : b ∈ s) :
    b ∈ trimLeftSpace s := by
  have hN : ∀ n (s : GoString), b ∈ s → b ∈ trimLeftSpaceN n s := by
    intro n
    induction n with
    | zero => exact fun s h => h
    | succ n ih =>
      intro s h
      rw [trimLeftSpaceN]
      cases hs : dropSpaceRune s with
      | none => exact h
      | some t =>
        obtain ⟨r, hr, rfl⟩ := dropSpaceRune_eq_some hs
        exact ih t ((List.mem_append.mp h).resolve_left (hb r hr))
  exact hN _ s h

/-- A trimmed text is part of the text, and has neither end in the cutset. -/
theorem trim_spec (cutset s : GoString) :
    trim cutset s <:+: s ∧ (∀ b ∈ (trim cutset s).head?, b ∉ cutset) ∧
      ∀ b ∈ (trim cutset s).getLast?, b ∉ cutset := by
  have hstart : trim cutset s <+: s.dropWhile (· ∈ cutset) :=
    List.rdropWhile_prefix (· ∈ cutset) _
  refine ⟨hstart.isInfix.trans (List.dropWhile_suffix _).isInfix, fun b hb => ?_, fun b hb => ?_⟩
  · -- What is cut off on the right leaves the first byte the first.
    obtain ⟨t, ht⟩ := List.head?_eq_some_iff.mp hb
    have hhead : (s.dropWhile (· ∈ cutset)).head? = some b := by
      obtain ⟨u, hu⟩ := hstart
      rw [← hu, ht]
      rfl
    have hnot := List.head?_dropWhile_not (· ∈ cutset) s
    rw [hhead] at hnot
    simpa using hnot
  · have hne : trim cutset s ≠ [] := List.ne_nil_of_mem (List.mem_of_getLast? hb)
    rw [List.getLast?_eq_some_getLast hne, Option.mem_some_iff] at hb
    have hnot := List.rdropWhile_last_not (· ∈ cutset) (s.dropWhile (· ∈ cutset)) hne
    subst hb
    exact fun hmem => hnot (decide_eq_true hmem)

theorem cutPrefix_append (p t : GoString) : cutPrefix (p ++ t) p = some t := by
  have hpre : hasPrefix (p ++ t) p = true :=
    List.isPrefixOf_iff_prefix.mpr (List.prefix_append p t)
  rw [cutPrefix, if_pos hpre, List.drop_left]

theorem cutPrefix_eq_some {s p r : GoString} : cutPrefix s p = some r ↔ s = p ++ r := by
  constructor
  · intro h
    rw [cutPrefix] at h
    split_ifs at h with hpre
    rw [Option.some.injEq] at h
    obtain ⟨t, rfl⟩ := List.isPrefixOf_iff_prefix.mp hpre
    rw [← h, List.drop_left]
  · rintro rfl
    exact cutPrefix_append p r

theorem join_segments (s : GoString) : join (segments s) [newline] = s := by
  induction s with
  | nil => rfl
  | cons b s ih =>
    by_cases hb : b = newline
    · subst hb
      rw [segments, if_pos rfl, join, List.intercalate_cons_of_ne_nil (segments_ne_nil s)]
      exact congrArg (newline :: ·) ih
    · rw [segments, if_neg hb]
      cases hs : segments s with
      | nil => exact absurd hs (segments_ne_nil s)
      | cons l ls =>
        rw [hs, join] at ih
        rw [← ih, join]
        exact List.intercalate_cons_cons_left

end Go
