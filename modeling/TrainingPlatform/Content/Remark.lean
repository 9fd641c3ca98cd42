import TrainingPlatform.Content.Marks
import TrainingPlatform.Content.Render

/-!
# Changing marks

`Remarked` relates two lesson sources that differ only in the marks of quiz
choices.  Rendering takes both apart at the same places and reads the same
question and the same choice texts, so it makes the same page of them.
-/

namespace TrainingPlatform.Content

open Go Scoring

/-! ## Sources that differ in marks -/

/-- What `answerRe` matches before the bracket. -/
def Bullet (pre : GoString) : Prop :=
  ∃ a b, pre = a ++ 0x2D :: b ∧ (∀ x ∈ a, isBlank x = true) ∧ ∀ x ∈ b, isBlank x = true

/-- The same line, or the line of a choice with another mark. -/
inductive RemarkedLine : GoString → GoString → Prop
  | same (l : GoString) : RemarkedLine l l
  | choice {pre rest : GoString} {m m' : UInt8} : Bullet pre → rest ≠ [] → isMark m = true →
      isMark m' = true → RemarkedLine (pre ++ openBracket :: m :: closeBracket :: rest)
        (pre ++ openBracket :: m' :: closeBracket :: rest)

/-- What `strings.TrimSpace` takes off on the left. -/
def leadSpace (s : GoString) : GoString := s.take (s.length - (trimLeftSpace s).length)

/-- What `strings.TrimSpace` takes off on the right. -/
def trailSpace (s : GoString) : GoString := (trimLeftSpace s).drop (trimSpace s).length

def RemarkedInner (inner inner' : GoString) : Prop :=
  ∃ core, inner' = leadSpace inner ++ (core ++ trailSpace inner) ∧
    List.Forall₂ RemarkedLine (segments (trimSpace inner)) (segments core)

structure RemarkedBlock (b b' : Block) : Prop where
  before : b'.before = b.before
  opening : b'.opening = b.opening
  closing : b'.closing = b.closing
  inner : RemarkedInner b.inner b'.inner

/-- Blocks and what follows the last one, put together again. -/
def assemble (bs : List Block) (rest : GoString) : GoString := (bs.map Block.text).flatten ++ rest

def RemarkedBody (s s' : GoString) : Prop :=
  ∃ bs, List.Forall₂ RemarkedBlock (blocks quizWord s).1 bs ∧
    s' = assemble bs (blocks quizWord s).2

/-- `src'` is `src` with other marks on choices inside its quiz blocks. -/
def Remarked (src src' : GoString) : Prop :=
  ∃ pre body, src = pre ++ bodyOf src ∧ src' = pre ++ body ∧ RemarkedBody (bodyOf src) body

/-! ## Lines -/

theorem RemarkedLine.marks {l l' : GoString} (h : RemarkedLine l l') : Marks l l' := by
  cases h with
  | same => exact .refl l
  | choice _ _ hm hm' => exact .append_left _ (.mark hm hm' (.refl _))

theorem answer_choice {pre rest : GoString} {m : UInt8} (hpre : Bullet pre) (hrest : rest ≠ [])
    (hm : isMark m = true) :
    answer (pre ++ openBracket :: m :: closeBracket :: rest) = some (m, choiceText rest) := by
  obtain ⟨a, b, rfl, ha, hb⟩ := hpre
  obtain ⟨c, rest, rfl⟩ := List.exists_cons_of_ne_nil hrest
  have hdash : ¬ isBlank 0x2D = true := by decide
  have hopen : ¬ isBlank openBracket = true := by decide
  have hline : (a ++ 0x2D :: (b ++ openBracket :: m :: closeBracket :: c :: rest)).dropWhile isBlank =
      0x2D :: (b ++ openBracket :: m :: closeBracket :: c :: rest) := by
    rw [List.dropWhile_append_of_pos ha, List.dropWhile_cons_of_neg hdash]
  have hbox : (b ++ openBracket :: m :: closeBracket :: c :: rest).dropWhile isBlank =
      openBracket :: m :: closeBracket :: c :: rest := by
    rw [List.dropWhile_append_of_pos hb, List.dropWhile_cons_of_neg hopen]
  rw [List.append_assoc, List.cons_append]
  simp only [answer, hline, hbox]
  exact if_pos hm

/-- The same question and the same choices, marked differently. -/
structure SameQuiz (q q' : Quiz) : Prop where
  question : q.question = q'.question
  choices : q.choices.map Choice.text = q'.choices.map Choice.text

theorem sameQuiz_readLine {q q' : Quiz} {l l' : GoString} (h : SameQuiz q q')
    (hl : RemarkedLine l l') : SameQuiz (readLine q l) (readLine q' l') := by
  cases hl with
  | same =>
    unfold readLine
    cases answer l with
    | none =>
      by_cases ht : trimSpace l ≠ []
      · simp only [if_pos ht]
        exact ⟨by simp [h.question], h.choices⟩
      · simp only [if_neg ht]
        exact h
    | some r => exact ⟨h.question, by simp [h.choices]⟩
  | choice hpre hrest hm hm' =>
    unfold readLine
    rw [answer_choice hpre hrest hm, answer_choice hpre hrest hm']
    exact ⟨h.question, by simp [h.choices]⟩

theorem sameQuiz_foldl {ls ls' : List GoString} (h : List.Forall₂ RemarkedLine ls ls')
    {q q' : Quiz} (hq : SameQuiz q q') : SameQuiz (ls.foldl readLine q) (ls'.foldl readLine q') := by
  induction h generalizing q q' with
  | nil => exact hq
  | cons hl _ ih => exact ih (sameQuiz_readLine hq hl)

/-! ## Blocks -/

theorem join_marks {ls ls' : List GoString} (h : List.Forall₂ Marks ls ls') (sep : GoString) :
    Marks (join ls sep) (join ls' sep) := by
  induction h with
  | nil => exact .nil
  | @cons l l' ls ls' hl h ih =>
    cases h with
    | nil => simpa [join] using hl
    | cons hk h =>
      rw [join, join, List.intercalate_cons_of_ne_nil (List.cons_ne_nil _ _),
        List.intercalate_cons_of_ne_nil (List.cons_ne_nil _ _)]
      exact (hl.append (.refl sep)).append ih

theorem marks_of_lines {s s' : GoString}
    (h : List.Forall₂ RemarkedLine (segments s) (segments s')) : Marks s s' := by
  have hjoin := join_marks (h.imp fun _ _ => RemarkedLine.marks) [newline]
  rwa [join_segments, join_segments] at hjoin

theorem leadSpace_append (s : GoString) : leadSpace s ++ trimLeftSpace s = s := by
  have hsuffix := List.suffix_iff_eq_drop.mp (trimLeftSpace_suffix s)
  calc leadSpace s ++ trimLeftSpace s
      = s.take (s.length - (trimLeftSpace s).length) ++
          s.drop (s.length - (trimLeftSpace s).length) := by rw [leadSpace, ← hsuffix]
    _ = s := List.take_append_drop _ _

theorem trimSpace_append (s : GoString) : trimSpace s ++ trailSpace s = trimLeftSpace s :=
  List.prefix_iff_eq_append.mp (trimRightSpace_isPrefix (trimLeftSpace s))

theorem trim_split (s : GoString) : leadSpace s ++ (trimSpace s ++ trailSpace s) = s := by
  rw [trimSpace_append, leadSpace_append]

theorem RemarkedInner.marks {i i' : GoString} (h : RemarkedInner i i') : Marks i i' := by
  obtain ⟨core, rfl, hlines⟩ := h
  have hmarks := ((marks_of_lines hlines).append (.refl (trailSpace i))).append_left (leadSpace i)
  rwa [trim_split] at hmarks

/-- Texts of the same length between two equal texts. -/
theorem trimSpace_of_marks {i i' core : GoString} (h : Marks i i')
    (hi : i' = leadSpace i ++ (core ++ trailSpace i)) (hcore : core.length = (trimSpace i).length) :
    trimSpace i' = core := by
  have hleft := trimLeftSpace_marks h
  have hspace : (trimSpace i).length = (trimSpace i').length := (trimRightSpace_marks hleft).length_eq
  have hlead : (leadSpace i').length = (leadSpace i).length := by
    rw [leadSpace, leadSpace, h.length_eq, hleft.length_eq, List.length_take, List.length_take,
      h.length_eq]
  have heq : leadSpace i' ++ (trimSpace i' ++ trailSpace i') =
      leadSpace i ++ (core ++ trailSpace i) := by rw [trim_split, hi]
  have htail := (List.append_inj heq hlead).2
  exact (List.append_inj htail (by omega)).1

theorem sameQuiz_of_remarkedInner {i i' : GoString} (h : RemarkedInner i i') :
    SameQuiz (readQuiz i) (readQuiz i') := by
  have hmarks := h.marks
  obtain ⟨core, hi, hlines⟩ := h
  have hcore := trimSpace_of_marks hmarks hi (marks_of_lines hlines).length_eq.symm
  rw [readQuiz, readQuiz, hcore]
  exact sameQuiz_foldl hlines ⟨rfl, rfl⟩

theorem RemarkedBlock.marks {b b' : Block} (h : RemarkedBlock b b') : Marks b.text b'.text := by
  rw [Block.text, Block.text, h.before, h.opening, h.closing]
  exact .append_left _ (.append_left _ (h.inner.marks.append (.refl _)))

theorem assemble_cons (b : Block) (bs : List Block) (rest : GoString) :
    assemble (b :: bs) rest = b.before ++ (b.opening ++ (b.inner ++ (b.closing ++ assemble bs rest))) := by
  simp [assemble, Block.text]

theorem assemble_marks {bs bs' : List Block} (h : List.Forall₂ RemarkedBlock bs bs')
    {rest rest' : GoString} (hrest : Marks rest rest') :
    Marks (assemble bs rest) (assemble bs' rest') := by
  induction h with
  | nil => exact hrest
  | @cons b b' bs bs' hb h ih =>
    rw [assemble, assemble, List.map_cons, List.map_cons, List.flatten_cons, List.flatten_cons,
      List.append_assoc, List.append_assoc]
    exact hb.marks.append ih

theorem stripTag_suffix {word s t : GoString} (h : stripTag word s = some t) : t <:+ s := by
  simp only [stripTag, Option.bind_eq_some_iff] at h
  obtain ⟨a, ha, b, hb, ht⟩ := h
  rw [cutPrefix_eq_some.mp ha]
  have hb' : b <:+ a := (List.suffix_append word b).trans
    (cutPrefix_eq_some.mp hb ▸ List.dropWhile_suffix isBlank)
  have ht' : t <:+ b := (List.suffix_append _ t).trans
    (cutPrefix_eq_some.mp ht ▸ List.dropWhile_suffix isBlank)
  exact (ht'.trans hb').trans (List.suffix_append _ a)

/-- A tag is found where it stands. -/
theorem findTag_eq {word s before tag rest : GoString}
    (h : findTag word s = some (before, tag, rest)) : s = before ++ (tag ++ rest) := by
  induction s generalizing before with
  | nil => simp [findTag] at h
  | cons b s ih =>
    rw [findTag] at h
    cases hs : stripTag word (b :: s) with
    | some t =>
      simp only [hs, Option.some.injEq, Prod.mk.injEq] at h
      obtain ⟨rfl, rfl, rfl⟩ := h
      have hsuffix := List.suffix_iff_eq_drop.mp (stripTag_suffix hs)
      calc b :: s = (b :: s).take ((b :: s).length - t.length) ++
              (b :: s).drop ((b :: s).length - t.length) := (List.take_append_drop _ _).symm
        _ = [] ++ ((b :: s).take ((b :: s).length - t.length) ++ t) := by
            rw [← hsuffix, List.nil_append]
    | none =>
      simp only [hs, Option.map_eq_some_iff] at h
      obtain ⟨⟨before', tag', rest'⟩, hfind, heq⟩ := h
      simp only [Prod.mk.injEq] at heq
      obtain ⟨rfl, rfl, rfl⟩ := heq
      rw [ih hfind]
      rfl

/-- Other marks before and behind a tag leave it the first one. -/
theorem findTag_remarked {word before before' tag rest rest' : GoString} (hw : openBracket ∉ word)
    (h : findTag word (before ++ (tag ++ rest)) = some (before, tag, rest))
    (hbefore : Marks before before') (hrest : Marks rest rest') :
    findTag word (before' ++ (tag ++ rest')) = some (before', tag, rest') := by
  have hcut := findTag_marks hw (hbefore.append (hrest.append_left tag))
  rw [h] at hcut
  cases hfind : findTag word (before' ++ (tag ++ rest')) with
  | none => rw [hfind] at hcut; cases hcut
  | some r =>
    obtain ⟨a, t, u⟩ := r
    rw [hfind] at hcut
    cases hcut with
    | some hsame =>
      obtain ⟨ha, ht, -⟩ := hsame
      have heq := findTag_eq hfind
      have hfst := List.append_inj heq (hbefore.length_eq.symm.trans ha)
      have hsnd := List.append_inj hfst.2 ht
      rw [← hfst.1, ← hsnd.1, ← hsnd.2]

theorem findBlock_eq {word s rest : GoString} {b : Block} (h : findBlock word s = some (b, rest)) :
    s = b.before ++ (b.opening ++ (b.inner ++ (b.closing ++ rest))) ∧
      findTag word s = some (b.before, b.opening, b.inner ++ (b.closing ++ rest)) ∧
      findTag (utf8 "end" ++ word) (b.inner ++ (b.closing ++ rest)) =
        some (b.inner, b.closing, rest) := by
  unfold findBlock at h
  cases hopen : findTag word s with
  | none => simp [hopen] at h
  | some r =>
    obtain ⟨before, opening, t⟩ := r
    cases hclose : findTag (utf8 "end" ++ word) t with
    | none => simp [hopen, hclose] at h
    | some r =>
      obtain ⟨inner, closing, u⟩ := r
      simp only [hopen, hclose, Option.some.injEq, Prod.mk.injEq] at h
      obtain ⟨rfl, rfl⟩ := h
      have ht := findTag_eq hclose
      subst ht
      exact ⟨findTag_eq hopen, rfl, hclose⟩

theorem findBlock_remarked {word s rest rest' : GoString} {b b' : Block} (hw : openBracket ∉ word)
    (h : findBlock word s = some (b, rest)) (hb : RemarkedBlock b b') (hrest : Marks rest rest') :
    findBlock word (b'.before ++ (b'.opening ++ (b'.inner ++ (b'.closing ++ rest')))) =
      some (b', rest') := by
  obtain ⟨hs, hopen, hclose⟩ := findBlock_eq h
  have htail : Marks (b.closing ++ rest) (b'.closing ++ rest') := by
    rw [hb.closing]
    exact hrest.append_left _
  have hend : openBracket ∉ utf8 "end" ++ word := by
    rw [List.mem_append, not_or]
    exact ⟨by decide, hw⟩
  have hopen' : findTag word (b'.before ++ (b'.opening ++ (b'.inner ++ (b'.closing ++ rest')))) =
      some (b'.before, b'.opening, b'.inner ++ (b'.closing ++ rest')) := by
    rw [hb.before, hb.opening]
    refine findTag_remarked hw ?_ (.refl _) (hb.inner.marks.append htail)
    rw [← hs]
    exact hopen
  have hclose' : findTag (utf8 "end" ++ word) (b'.inner ++ (b'.closing ++ rest')) =
      some (b'.inner, b'.closing, rest') := by
    rw [hb.closing]
    exact findTag_remarked hend hclose hb.inner.marks hrest
  rw [findBlock, hopen']
  dsimp only
  rw [hclose']

theorem blocksN_of_none {word s : GoString} (n : Nat) (h : findBlock word s = none) :
    blocksN word (n + 1) s = ([], s) := by
  rw [blocksN, h]

theorem blocksN_of_some {word s rest : GoString} {b : Block} (n : Nat)
    (h : findBlock word s = some (b, rest)) :
    blocksN word (n + 1) s = (b :: (blocksN word n rest).1, (blocksN word n rest).2) := by
  rw [blocksN, h]

theorem blocksN_eq (word : GoString) (n : Nat) (s : GoString) :
    s = assemble (blocksN word n s).1 (blocksN word n s).2 := by
  induction n generalizing s with
  | zero => rfl
  | succ n ih =>
    cases hfind : findBlock word s with
    | none =>
      rw [blocksN_of_none n hfind]
      rfl
    | some r =>
      obtain ⟨b, rest⟩ := r
      rw [blocksN_of_some n hfind, assemble_cons, ← ih rest]
      exact (findBlock_eq hfind).1

theorem blocksN_remarked {word : GoString} (hw : openBracket ∉ word) (n : Nat) (s : GoString)
    {bs : List Block} (h : List.Forall₂ RemarkedBlock (blocksN word n s).1 bs) :
    blocksN word n (assemble bs (blocksN word n s).2) = (bs, (blocksN word n s).2) := by
  induction n generalizing s bs with
  | zero =>
    cases h
    rfl
  | succ n ih =>
    cases hfind : findBlock word s with
    | none =>
      rw [blocksN_of_none n hfind] at h ⊢
      cases h
      exact blocksN_of_none n hfind
    | some r =>
      obtain ⟨b, rest⟩ := r
      rw [blocksN_of_some n hfind] at h ⊢
      cases h with
      | @cons _ b' _ bs hb h =>
        have hrest : Marks rest (assemble bs (blocksN word n rest).2) := by
          have hmarks := assemble_marks h (.refl (blocksN word n rest).2)
          rwa [← blocksN_eq] at hmarks
        have hfind' := findBlock_remarked hw hfind hb hrest
        rw [← assemble_cons] at hfind'
        rw [blocksN_of_some n hfind', ih rest h]

theorem RemarkedBody.marks {s s' : GoString} (h : RemarkedBody s s') : Marks s s' := by
  obtain ⟨bs, hbs, rfl⟩ := h
  have hmarks := assemble_marks hbs (.refl (blocks quizWord s).2)
  rwa [blocks, ← blocksN_eq] at hmarks

/-- The same blocks are found, with the same text around them. -/
theorem blocks_remarked {s s' : GoString} (h : RemarkedBody s s') :
    List.Forall₂ RemarkedBlock (blocks quizWord s).1 (blocks quizWord s').1 ∧
      (blocks quizWord s').2 = (blocks quizWord s).2 := by
  have hlen := h.marks.length_eq
  obtain ⟨bs, hbs, rfl⟩ := h
  have hblocks := blocksN_remarked (by decide) s.length s hbs
  have heq : blocks quizWord (assemble bs (blocks quizWord s).2) = (bs, (blocks quizWord s).2) := by
    rw [blocks, ← hlen]
    exact hblocks
  rw [heq]
  exact ⟨hbs, rfl⟩

/-! ## Front matter -/

theorem lineEnd_suffix {s r : GoString} (h : lineEnd s = some r) : r <:+ s := by
  induction s generalizing r with
  | nil =>
    rw [lineEnd, Option.some.injEq] at h
    exact h ▸ List.suffix_rfl
  | cons b s ih =>
    rw [lineEnd] at h
    by_cases hb : isBlank b = true
    · rw [if_pos hb] at h
      cases hl : lineEnd s with
      | some t =>
        rw [hl] at h
        exact (Option.some.inj h ▸ ih hl).trans (List.suffix_cons b s)
      | none =>
        simp only [hl, Option.ite_none_right_eq_some] at h
        exact Option.some.inj h.2 ▸ List.suffix_rfl
    · rw [if_neg hb] at h
      contradiction

theorem findClose_eq {lineStart : Bool} {s y r : GoString}
    (h : findClose lineStart s = some (y, r)) : ∃ v, s = y ++ (v ++ r) := by
  induction s generalizing lineStart y with
  | nil => simp [findClose] at h
  | cons b s ih =>
    rw [findClose] at h
    split at h
    · rename_i rest hclosing
      simp only [Option.some.injEq, Prod.mk.injEq] at h
      obtain ⟨rfl, rfl⟩ := h
      split_ifs at hclosing
      obtain ⟨v, hv⟩ := (lineEnd_suffix hclosing).trans (List.drop_suffix _ _)
      exact ⟨v, hv.symm⟩
    · rw [Option.map_eq_some_iff] at h
      obtain ⟨⟨y', r'⟩, hfind, heq⟩ := h
      simp only [Prod.mk.injEq] at heq
      obtain ⟨rfl, rfl⟩ := heq
      obtain ⟨v, rfl⟩ := ih hfind
      exact ⟨v, rfl⟩

/-- The YAML text starts behind the dashes and the line breaks after them. -/
theorem cutFrontMatter_eq {s y b : GoString} (h : cutFrontMatter s = some (y, b)) :
    ∃ u v, s = u ++ (y ++ (v ++ b)) ∧
      u.length + (trimLeft lineBreaks (s.drop dashes.length)).length = s.length := by
  rw [cutFrontMatter, Option.map_eq_some_iff] at h
  obtain ⟨⟨y', r⟩, hfind, heq⟩ := h
  simp only [Prod.mk.injEq] at heq
  obtain ⟨rfl, rfl⟩ := heq
  obtain ⟨v, hv⟩ := findClose_eq hfind
  obtain ⟨w, hw⟩ : trimLeft lineBreaks r <:+ r := List.dropWhile_suffix _
  have hsuffix : trimLeft lineBreaks (s.drop dashes.length) <:+ s :=
    (List.dropWhile_suffix _).trans (List.drop_suffix _ _)
  obtain ⟨u, hu⟩ := hsuffix
  refine ⟨u, v ++ w, ?_, ?_⟩
  · rw [List.append_assoc, hw, ← hv, hu]
  · rw [← List.length_append, hu]

theorem cutFrontMatter_remarked {pre body body' y b : GoString} (hmarks : Marks body body')
    (hp : hasPrefix (pre ++ body) dashes = true)
    (h : cutFrontMatter (pre ++ body) = some (y, b)) (hb : b = body) :
    cutFrontMatter (pre ++ body') = some (y, body') := by
  subst hb
  have hsrc : Marks (pre ++ b) (pre ++ body') := hmarks.append_left pre
  have hcut := cutFrontMatter_marks hp hsrc
  obtain ⟨u, v, hsplit, hu⟩ := cutFrontMatter_eq h
  rw [h] at hcut
  cases h' : cutFrontMatter (pre ++ body') with
  | none => rw [h'] at hcut; cases hcut
  | some r =>
    obtain ⟨y', b'⟩ := r
    rw [h'] at hcut
    cases hcut with
    | some hsame =>
      obtain ⟨hy, hrest⟩ := hsame
      obtain ⟨u', v', hsplit', hu'⟩ := cutFrontMatter_eq h'
      have htrim := (trimLeft_marks (hsrc.drop (by decide) hp)).length_eq
      have hlen := hsrc.length_eq
      have hpre : pre = u ++ (y ++ v) := by
        refine List.append_cancel_right (?_ : pre ++ b = u ++ (y ++ v) ++ b)
        rw [hsplit]
        simp
      have heq : u ++ (y ++ (v ++ body')) = u' ++ (y' ++ (v' ++ b')) := by
        rw [← hsplit', hpre]
        simp
      have hrest₁ := (List.append_inj heq (by omega)).2
      have hrest₂ := List.append_inj hrest₁ hy
      have hbody : body' = b' :=
        (List.append_inj' hrest₂.2 (hmarks.length_eq.symm.trans hrest.length_eq)).2
      rw [← hrest₂.1, ← hbody]

/-- The front matter is the same, and the bodies differ in marks. -/
theorem remarked_cases {src src' : GoString} (h : Remarked src src') :
    (¬ hasPrefix src dashes = true ∧ ¬ hasPrefix src' dashes = true ∧ RemarkedBody src src') ∨
    (hasPrefix src dashes = true ∧ hasPrefix src' dashes = true ∧
      ((cutFrontMatter src = none ∧ cutFrontMatter src' = none ∧ RemarkedBody src src') ∨
        ∃ y b b', cutFrontMatter src = some (y, b) ∧ cutFrontMatter src' = some (y, b') ∧
          RemarkedBody b b')) := by
  obtain ⟨pre, body, hsrc, rfl, hbody⟩ := h
  have hmarks : Marks src (pre ++ body) := by
    rw [hsrc]
    exact hbody.marks.append_left pre
  have hprefix : hasPrefix src dashes = hasPrefix (pre ++ body) dashes :=
    hmarks.isPrefixOf_eq (by decide)
  -- Without a body of its own a source has nothing before the body.
  have hwhole : bodyOf src = src → RemarkedBody src (pre ++ body) := by
    intro hsame
    rw [hsame] at hsrc hbody
    have hpre : pre = [] := by simpa using hsrc
    rwa [hpre]
  by_cases hp : hasPrefix src dashes = true
  · refine .inr ⟨hp, hprefix ▸ hp, ?_⟩
    cases hcut : cutFrontMatter src with
    | none =>
      have hnone := cutFrontMatter_marks hp hmarks
      rw [hcut] at hnone
      cases hcut' : cutFrontMatter (pre ++ body) with
      | none => exact .inl ⟨rfl, rfl, hwhole (by rw [bodyOf, if_pos hp, hcut])⟩
      | some r => rw [hcut'] at hnone; cases hnone
    | some r =>
      obtain ⟨y, b⟩ := r
      have hbodyOf : bodyOf src = b := by rw [bodyOf, if_pos hp, hcut]
      rw [hbodyOf] at hsrc hbody
      rw [hsrc] at hp hcut
      exact .inr ⟨y, b, body, rfl, cutFrontMatter_remarked hbody.marks hp hcut rfl, hbody⟩
  · exact .inl ⟨hp, hprefix ▸ hp, hwhole (by rw [bodyOf, if_neg hp])⟩

theorem bodyOf_remarked {src src' : GoString} (h : Remarked src src') :
    RemarkedBody (bodyOf src) (bodyOf src') := by
  rcases remarked_cases h with ⟨hp, hp', hbody⟩ | ⟨hp, hp', hcut⟩
  · rwa [bodyOf, bodyOf, if_neg hp, if_neg hp']
  · rw [bodyOf, bodyOf, if_pos hp, if_pos hp']
    rcases hcut with ⟨hcut, hcut', hbody⟩ | ⟨y, b, b', hcut, hcut', hbody⟩
    · rwa [hcut, hcut']
    · rwa [hcut, hcut']

theorem bodyOf_suffix (src : GoString) : bodyOf src <:+ src := by
  unfold bodyOf
  by_cases hp : hasPrefix src dashes = true
  · rw [if_pos hp]
    cases hcut : cutFrontMatter src with
    | none => exact List.suffix_rfl
    | some r =>
      obtain ⟨u, v, hsrc, -⟩ := cutFrontMatter_eq hcut
      exact ⟨u ++ (r.1 ++ v), by simpa using hsrc.symm⟩
  · rw [if_neg hp]

/-- An unchanged source differs from itself in no mark. -/
theorem Remarked.refl (src : GoString) : Remarked src src := by
  have hbody : RemarkedBody (bodyOf src) (bodyOf src) := by
    refine ⟨(blocks quizWord (bodyOf src)).1, ?_, blocksN_eq _ _ _⟩
    refine List.forall₂_same.mpr fun b _ => ⟨rfl, rfl, rfl, trimSpace b.inner, ?_, ?_⟩
    · exact (trim_split b.inner).symm
    · exact List.forall₂_same.mpr fun l _ => .same l
  obtain ⟨pre, hpre⟩ := bodyOf_suffix src
  exact ⟨pre, bodyOf src, hpre.symm, hpre.symm, hbody⟩

end TrainingPlatform.Content
