import TrainingPlatform.Content.Blocks
import Mathlib.Data.List.Find
import Mathlib.Data.List.Forall2

/-!
# Texts that differ in marks

`Marks` relates two texts that are equal except for marks between brackets.  No
bracket occurs in a tag, a front-matter line or a space, so the scanners of a
lesson cut two such texts at the same places.
-/

namespace TrainingPlatform.Content

open Go

def openBracket : UInt8 := 0x5B
def closeBracket : UInt8 := 0x5D

/-- Equal except for the byte between some `[` and `]`, a mark on both sides. -/
inductive Marks : GoString → GoString → Prop
  | nil : Marks [] []
  | cons (b : UInt8) {s s' : GoString} : Marks s s' → Marks (b :: s) (b :: s')
  | mark {m m' : UInt8} {s s' : GoString} : isMark m = true → isMark m' = true → Marks s s' →
      Marks (openBracket :: m :: closeBracket :: s) (openBracket :: m' :: closeBracket :: s')

theorem isMark_iff {b : UInt8} : isMark b = true ↔ b = 0x20 ∨ b = 0x78 ∨ b = 0x58 := by
  simp [isMark, or_assoc]

namespace Marks

theorem refl (s : GoString) : Marks s s := by
  induction s with
  | nil => exact nil
  | cons b s ih => exact cons b ih

theorem symm {s s' : GoString} (h : Marks s s') : Marks s' s := by
  induction h with
  | nil => exact nil
  | cons b _ ih => exact cons b ih
  | mark hm hm' _ ih => exact mark hm' hm ih

theorem length_eq {s s' : GoString} (h : Marks s s') : s.length = s'.length := by
  induction h with
  | nil => rfl
  | cons b _ ih => simp [ih]
  | mark _ _ _ ih => simp [ih]

theorem append {s s' t t' : GoString} (h : Marks s s') (ht : Marks t t') :
    Marks (s ++ t) (s' ++ t') := by
  induction h with
  | nil => exact ht
  | cons b _ ih => exact cons b ih
  | mark hm hm' _ ih => exact mark hm hm' ih

theorem append_left (p : GoString) {s s' : GoString} (h : Marks s s') :
    Marks (p ++ s) (p ++ s') := (refl p).append h

theorem eq_nil_iff {s s' : GoString} (h : Marks s s') : s = [] ↔ s' = [] := by
  rw [← List.length_eq_zero_iff, ← List.length_eq_zero_iff, h.length_eq]

/-- What both texts start with when one of them starts with a text free of brackets. -/
theorem of_append {p t s' : GoString} (hp : openBracket ∉ p) (h : Marks (p ++ t) s') :
    ∃ t', s' = p ++ t' ∧ Marks t t' := by
  induction p generalizing s' with
  | nil => exact ⟨s', rfl, h⟩
  | cons b p ih =>
    rw [List.mem_cons, not_or] at hp
    rw [List.cons_append] at h
    generalize hu : p ++ t = u at h
    cases h with
    | cons _ h =>
      obtain ⟨t', rfl, ht⟩ := ih hp.2 (hu ▸ h)
      exact ⟨t', rfl, ht⟩
    | mark _ _ _ => exact absurd rfl hp.1

theorem isPrefixOf_eq {p s s' : GoString} (hp : openBracket ∉ p) (h : Marks s s') :
    p.isPrefixOf s = p.isPrefixOf s' := by
  have himp : ∀ {s s' : GoString}, Marks s s' → p.isPrefixOf s = true → p.isPrefixOf s' = true := by
    intro s s' h hs
    rw [List.isPrefixOf_iff_prefix] at hs ⊢
    obtain ⟨t, rfl⟩ := hs
    obtain ⟨t', rfl, -⟩ := of_append hp h
    exact List.prefix_append p t'
  exact Bool.eq_iff_iff.mpr ⟨himp h, himp h.symm⟩

theorem drop {p s s' : GoString} (hp : openBracket ∉ p) (h : Marks s s')
    (hs : p.isPrefixOf s = true) : Marks (s.drop p.length) (s'.drop p.length) := by
  rw [List.isPrefixOf_iff_prefix] at hs
  obtain ⟨t, rfl⟩ := hs
  obtain ⟨t', rfl, ht⟩ := of_append hp h
  rwa [List.drop_left, List.drop_left]

theorem dropWhile {p : UInt8 → Bool} (hp : p openBracket = false) {s s' : GoString}
    (h : Marks s s') : Marks (s.dropWhile p) (s'.dropWhile p) := by
  induction h with
  | nil => exact nil
  | cons b h ih =>
    by_cases hb : p b = true
    · rwa [List.dropWhile_cons_of_pos hb, List.dropWhile_cons_of_pos hb]
    · rw [List.dropWhile_cons_of_neg hb, List.dropWhile_cons_of_neg hb]
      exact cons b h
  | mark hm hm' h _ =>
    have hneg : ¬ p openBracket = true := by simp [hp]
    rw [List.dropWhile_cons_of_neg hneg, List.dropWhile_cons_of_neg hneg]
    exact mark hm hm' h

end Marks

/-! ## Tags -/

theorem rel_bind {α β : Type*} {R : α → α → Prop} {P : β → β → Prop} {o o' : Option α}
    {f f' : α → Option β} (h : Option.Rel R o o')
    (hf : ∀ a a', R a a' → Option.Rel P (f a) (f' a')) :
    Option.Rel P (o.bind f) (o'.bind f') := by
  cases h with
  | none => exact .none
  | some h => exact hf _ _ h

theorem cutPrefix_marks {p s s' : GoString} (hp : openBracket ∉ p) (h : Marks s s') :
    Option.Rel Marks (cutPrefix s p) (cutPrefix s' p) := by
  have heq : hasPrefix s p = hasPrefix s' p := h.isPrefixOf_eq hp
  by_cases hs : hasPrefix s p = true
  · rw [cutPrefix, cutPrefix, if_pos hs, if_pos (heq ▸ hs)]
    exact .some (h.drop hp hs)
  · rw [cutPrefix, cutPrefix, if_neg hs, if_neg (heq ▸ hs)]
    exact .none

theorem stripTag_marks {word s s' : GoString} (hw : openBracket ∉ word) (h : Marks s s') :
    Option.Rel Marks (stripTag word s) (stripTag word s') := by
  have hblank : isBlank openBracket = false := by decide
  refine rel_bind (cutPrefix_marks (by decide) h) fun _ _ h => ?_
  refine rel_bind (cutPrefix_marks hw (h.dropWhile hblank)) fun _ _ h => ?_
  exact cutPrefix_marks (by decide) (h.dropWhile hblank)

theorem stripTag_cons_of_ne {word s : GoString} {b : UInt8} (hb : b ≠ 0x7B) :
    stripTag word (b :: s) = none := by
  have hpre : ¬ hasPrefix (b :: s) (utf8 "\x7b%") = true := by
    rw [hasPrefix, show utf8 "\x7b%" = [0x7B, 0x25] from by decide, List.isPrefixOf_cons_cons]
    simp [Ne.symm hb]
  rw [stripTag, cutPrefix, if_neg hpre, Option.bind_none]

theorem findTag_cons_of_none {word s : GoString} {b : UInt8} (h : stripTag word (b :: s) = none) :
    findTag word (b :: s) = (findTag word s).map fun r => (b :: r.1, r.2) := by
  rw [findTag, h]

/-- Cuts of the same lengths that leave related texts. -/
def SameCut (r r' : GoString × GoString × GoString) : Prop :=
  r.1.length = r'.1.length ∧ r.2.1.length = r'.2.1.length ∧ Marks r.2.2 r'.2.2

theorem sameCut_map {o o' : Option (GoString × GoString × GoString)} (b b' : UInt8)
    (h : Option.Rel SameCut o o') :
    Option.Rel SameCut (o.map fun r => (b :: r.1, r.2)) (o'.map fun r => (b' :: r.1, r.2)) := by
  cases h with
  | none => exact .none
  | some h => exact .some ⟨by simp [h.1], h.2⟩

theorem findTag_marks {word s s' : GoString} (hw : openBracket ∉ word) (h : Marks s s') :
    Option.Rel SameCut (findTag word s) (findTag word s') := by
  induction h with
  | nil => exact .none
  | @cons b s s' h ih =>
    have hstrip := stripTag_marks hw (h.cons b)
    cases hs : stripTag word (b :: s) with
    | none =>
      rw [hs] at hstrip
      cases hs' : stripTag word (b :: s') with
      | none =>
        rw [findTag_cons_of_none hs, findTag_cons_of_none hs']
        exact sameCut_map b b ih
      | some r' => rw [hs'] at hstrip; cases hstrip
    | some r =>
      rw [hs] at hstrip
      cases hs' : stripTag word (b :: s') with
      | none => rw [hs'] at hstrip; cases hstrip
      | some r' =>
        rw [hs'] at hstrip
        cases hstrip with
        | some hr =>
          rw [findTag, findTag, hs, hs']
          refine .some ⟨rfl, ?_, hr⟩
          simp [h.length_eq, hr.length_eq]
  | @mark m m' s s' hm hm' h ih =>
    -- No tag starts at a bracket or at a mark.
    have hne : ∀ {m : UInt8}, isMark m = true → m ≠ 0x7B := by
      intro m hm
      rcases isMark_iff.mp hm with rfl | rfl | rfl <;> decide
    have hopen : openBracket ≠ 0x7B := by decide
    have hclose : closeBracket ≠ 0x7B := by decide
    rw [findTag_cons_of_none (stripTag_cons_of_ne hopen),
      findTag_cons_of_none (stripTag_cons_of_ne (hne hm)),
      findTag_cons_of_none (stripTag_cons_of_ne hclose),
      findTag_cons_of_none (stripTag_cons_of_ne hopen),
      findTag_cons_of_none (stripTag_cons_of_ne (hne hm')),
      findTag_cons_of_none (stripTag_cons_of_ne hclose)]
    exact sameCut_map _ _ (sameCut_map _ _ (sameCut_map _ _ ih))

/-! ## Front matter -/

theorem lineEnd_marks {s s' : GoString} (h : Marks s s') :
    Option.Rel Marks (lineEnd s) (lineEnd s') := by
  induction h with
  | nil => exact .some .nil
  | @cons b s s' h ih =>
    rw [lineEnd, lineEnd]
    by_cases hb : isBlank b = true
    · rw [if_pos hb, if_pos hb]
      generalize hl : lineEnd s = o at ih ⊢
      generalize hl' : lineEnd s' = o' at ih ⊢
      cases ih with
      | some hr => exact .some hr
      | none =>
        by_cases hn : b = newline
        · simp only [if_pos hn]
          exact .some (h.cons b)
        · simp only [if_neg hn]
          exact .none
    · rw [if_neg hb, if_neg hb]
      exact .none
  | mark _ _ _ _ => exact .none

/-- The text before the closing line has the same length. -/
def SameClose (r r' : GoString × GoString) : Prop := r.1.length = r'.1.length ∧ Marks r.2 r'.2

theorem sameClose_map {o o' : Option (GoString × GoString)} (b b' : UInt8)
    (h : Option.Rel SameClose o o') :
    Option.Rel SameClose (o.map fun r => (b :: r.1, r.2)) (o'.map fun r => (b' :: r.1, r.2)) := by
  cases h with
  | none => exact .none
  | some h => exact .some ⟨by simp [h.1], h.2⟩

/-- Inside a line, or at a byte that is no dash, no closing line starts. -/
theorem findClose_cons_of_ne {lineStart : Bool} {b : UInt8} (s : GoString)
    (h : lineStart = false ∨ b ≠ 0x2D) :
    findClose lineStart (b :: s) = (findClose (b = newline) s).map fun r => (b :: r.1, r.2) := by
  have hno : ¬ (lineStart && hasPrefix (b :: s) dashes) = true := by
    rcases h with rfl | hb
    · simp
    · rw [hasPrefix, show dashes = [0x2D, 0x2D, 0x2D] from by decide, List.isPrefixOf_cons_cons]
      simp [Ne.symm hb]
  rw [findClose, if_neg hno]

theorem findClose_marks (lineStart : Bool) {s s' : GoString} (h : Marks s s') :
    Option.Rel SameClose (findClose lineStart s) (findClose lineStart s') := by
  have hdashes : openBracket ∉ dashes := by decide
  induction h generalizing lineStart with
  | nil => exact .none
  | @cons b s s' h ih =>
    have heq : hasPrefix (b :: s) dashes = hasPrefix (b :: s') dashes :=
      (h.cons b).isPrefixOf_eq hdashes
    have hmore := sameClose_map b b (ih (b = newline))
    rw [findClose, findClose]
    by_cases hs : (lineStart && hasPrefix (b :: s) dashes) = true
    · have hclose : Option.Rel Marks (lineEnd ((b :: s).drop dashes.length))
          (lineEnd ((b :: s').drop dashes.length)) :=
        lineEnd_marks ((h.cons b).drop hdashes (Bool.and_eq_true _ _ ▸ hs).2)
      rw [if_pos hs, if_pos (heq ▸ hs)]
      generalize lineEnd ((b :: s).drop dashes.length) = o at hclose ⊢
      generalize lineEnd ((b :: s').drop dashes.length) = o' at hclose ⊢
      cases hclose with
      | none => exact hmore
      | some hr => exact .some ⟨rfl, hr⟩
    · rw [if_neg hs, if_neg (heq ▸ hs)]
      exact hmore
  | @mark m m' s s' hm hm' h ih =>
    have hline : ∀ {m : UInt8}, isMark m = true → decide (m = newline) = false := by
      intro m hm
      rcases isMark_iff.mp hm with rfl | rfl | rfl <;> decide
    have hopen : openBracket ≠ 0x2D := by decide
    have hstart : decide (openBracket = newline) = false := by decide
    rw [findClose_cons_of_ne _ (.inr hopen), findClose_cons_of_ne _ (.inr hopen),
      findClose_cons_of_ne _ (.inl hstart), findClose_cons_of_ne _ (.inl hstart),
      findClose_cons_of_ne _ (.inl (hline hm)), findClose_cons_of_ne _ (.inl (hline hm'))]
    exact sameClose_map _ _ (sameClose_map _ _ (sameClose_map _ _ (ih _)))

theorem trimLeft_marks {s s' : GoString} (h : Marks s s') :
    Marks (trimLeft lineBreaks s) (trimLeft lineBreaks s') :=
  h.dropWhile (by decide)

theorem cutFrontMatter_marks {s s' : GoString} (hs : hasPrefix s dashes = true) (h : Marks s s') :
    Option.Rel SameClose (cutFrontMatter s) (cutFrontMatter s') := by
  have hcut := findClose_marks true (trimLeft_marks (h.drop (by decide) hs))
  rw [cutFrontMatter, cutFrontMatter]
  generalize findClose true (trimLeft lineBreaks (s.drop dashes.length)) = o at hcut ⊢
  generalize findClose true (trimLeft lineBreaks (s'.drop dashes.length)) = o' at hcut ⊢
  cases hcut with
  | none => exact .none
  | some hr => exact .some ⟨hr.1, trimLeft_marks hr.2⟩

/-! ## Spaces -/

theorem dropSpaceRune_marks {s s' : GoString} (h : Marks s s') :
    Option.Rel Marks (dropSpaceRune s) (dropSpaceRune s') := by
  have hspace : ∀ r ∈ spaceRunes, openBracket ∉ r := by decide
  have heq : (spaceRunes.find? fun r => r.isPrefixOf s) = spaceRunes.find? fun r => r.isPrefixOf s' :=
    List.find?_congr fun r hr => h.isPrefixOf_eq (hspace r hr)
  rw [dropSpaceRune, dropSpaceRune, ← heq]
  cases hr : spaceRunes.find? fun r => r.isPrefixOf s with
  | none => exact .none
  | some r =>
    have hpre : r.isPrefixOf s = true :=
      List.find?_some (p := fun r : GoString => r.isPrefixOf s) hr
    exact .some (h.drop (hspace r (List.mem_of_find?_eq_some hr)) hpre)

theorem trimLeftSpaceN_marks (n : Nat) {s s' : GoString} (h : Marks s s') :
    Marks (trimLeftSpaceN n s) (trimLeftSpaceN n s') := by
  induction n generalizing s s' with
  | zero => exact h
  | succ n ih =>
    have hdrop := dropSpaceRune_marks h
    rw [trimLeftSpaceN, trimLeftSpaceN]
    generalize dropSpaceRune s = o at hdrop ⊢
    generalize dropSpaceRune s' = o' at hdrop ⊢
    cases hdrop with
    | none => exact h
    | some ht => exact ih ht

theorem trimLeftSpace_marks {s s' : GoString} (h : Marks s s') :
    Marks (trimLeftSpace s) (trimLeftSpace s') := by
  rw [trimLeftSpace, trimLeftSpace, ← h.length_eq]
  exact trimLeftSpaceN_marks _ h

theorem trimRightSpace_cons_of_mem {b : UInt8} {s : GoString} (h : closeBracket ∈ b :: s) :
    trimRightSpace (b :: s) = b :: trimRightSpace s := by
  have hmem := mem_trimLeftSpace (by decide) h
  rw [trimRightSpace, if_neg (List.ne_nil_of_mem hmem)]

theorem trimRightSpace_marks {s s' : GoString} (h : Marks s s') :
    Marks (trimRightSpace s) (trimRightSpace s') := by
  induction h with
  | nil => exact .nil
  | @cons b s s' h ih =>
    rw [trimRightSpace, trimRightSpace]
    by_cases hs : trimLeftSpace (b :: s) = []
    · rw [if_pos hs, if_pos ((trimLeftSpace_marks (h.cons b)).eq_nil_iff.mp hs)]
      exact .nil
    · rw [if_neg hs, if_neg (mt (trimLeftSpace_marks (h.cons b)).eq_nil_iff.mpr hs)]
      exact ih.cons b
  | mark hm hm' h ih =>
    rw [trimRightSpace_cons_of_mem (by simp), trimRightSpace_cons_of_mem (by simp),
      trimRightSpace_cons_of_mem (by simp), trimRightSpace_cons_of_mem (by simp),
      trimRightSpace_cons_of_mem (by simp), trimRightSpace_cons_of_mem (by simp)]
    exact .mark hm hm' ih

end TrainingPlatform.Content
