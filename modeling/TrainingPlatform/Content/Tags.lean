import TrainingPlatform.Content.Registered
import TrainingPlatform.Content.SamePage
import TrainingPlatform.Go.Decimal
import Mathlib.Algebra.GroupWithZero.Nat

/-!
# Opening tags and registered challenges

A grammar of bodies whose `{% quiz %}` and `{% exercise %}` tags pair up, and the
lessons whose challenges are as many as their opening tags.
-/

namespace TrainingPlatform.Content

open Go Scoring

/-- The word of a tag. -/
def isTagWord (word : GoString) : Bool := word ≠ [] && word.all fun b => 0x61 ≤ b && b ≤ 0x7A

/-- The text of a tag, with its blanks. -/
def IsTag (word t : GoString) : Prop :=
  ∃ a b : GoString, (∀ c ∈ a, isBlank c = true) ∧ (∀ c ∈ b, isBlank c = true) ∧
    t = utf8 "\x7b%" ++ (a ++ (word ++ (b ++ utf8 "%\x7d")))

/-- The places of a text at which a tag starts. -/
def countTags (word : GoString) : GoString → Nat
  | [] => 0
  | b :: s => (if (stripTag word (b :: s)).isSome then 1 else 0) + countTags word s

/-- Text in which every opening tag has its closing tag before the next opening tag. -/
inductive Balanced (word : GoString) : GoString → Prop
  | plain {s : GoString} : countTags word s = 0 → Balanced word s
  | block {before opening inner closing rest : GoString} :
    countTags word before = 0 → IsTag word opening →
    countTags word inner = 0 → countTags (utf8 "end" ++ word) inner = 0 →
    IsTag (utf8 "end" ++ word) closing → Balanced word rest →
    Balanced word (before ++ (opening ++ (inner ++ (closing ++ rest))))

/-- The body with a placeholder for each quiz block. -/
def aroundQuizzes (body : GoString) : GoString :=
  replaceBlocks (blocks quizWord body).2 0 (blocks quizWord body).1

/-- The quiz tags pair up, no exercise tag stands inside a quiz block, and the exercise
tags around the quiz blocks pair up. -/
structure WellTagged (body : GoString) : Prop where
  quizzes : Balanced quizWord body
  apart : ∀ b ∈ (blocks quizWord body).1, countTags exerciseWord b.inner = 0
  exercises : Balanced exerciseWord (aroundQuizzes body)

def isQuizChallenge (c : Challenge) : Bool := hasPrefix c.name (utf8 "quiz-")
def isExerciseChallenge (c : Challenge) : Bool := hasPrefix c.name (utf8 "exercise-")

/-- The opening tags of a source are as many as the challenges of its lesson. -/
structure TagsMatch (src : GoString) (l : Lesson) : Prop where
  quizzes : countTags quizWord (bodyOf src) = l.challenges.countP isQuizChallenge
  exercises : countTags exerciseWord (bodyOf src) = l.challenges.countP isExerciseChallenge

/-! ## One tag -/

variable {word w s t r : GoString}

theorem isBlank_eq_true_iff {b : UInt8} :
    isBlank b = true ↔ b = 0x20 ∨ b = 0x09 ∨ b = 0x0A ∨ b = 0x0C ∨ b = 0x0D := by
  simp [isBlank, or_assoc]

theorem isBlank_of_isTagWord (hw : isTagWord word = true) :
    ∃ c v, word = c :: v ∧ isBlank c = false := by
  rw [isTagWord, Bool.and_eq_true, decide_eq_true_eq] at hw
  obtain ⟨hne, hall⟩ := hw
  cases word with
  | nil => contradiction
  | cons c v =>
    rw [List.all_cons, Bool.and_eq_true] at hall
    refine ⟨c, v, rfl, Bool.eq_false_iff.mpr fun hblank => ?_⟩
    rcases isBlank_eq_true_iff.mp hblank with rfl | rfl | rfl | rfl | rfl <;>
      exact absurd hall.1 (by decide)

theorem dropWhile_blanks {a : GoString} {c : UInt8} (ha : ∀ b ∈ a, isBlank b = true)
    (hc : isBlank c = false) (s : GoString) : (a ++ c :: s).dropWhile isBlank = c :: s := by
  rw [List.dropWhile_append_of_pos ha, List.dropWhile_cons_of_neg (by simp [hc])]

/-- `stripTag` takes a tag off. -/
theorem stripTag_eq_some (hw : isTagWord word = true) :
    stripTag word s = some r ↔ ∃ t, IsTag word t ∧ s = t ++ r := by
  obtain ⟨c, v, hword, hc⟩ := isBlank_of_isTagWord hw
  constructor
  · intro h
    simp only [stripTag, Option.bind_eq_some_iff] at h
    obtain ⟨x, hx, y, hy, hr⟩ := h
    have hx' := cutPrefix_eq_some.mp hx
    have hy' := cutPrefix_eq_some.mp hy
    have hr' := cutPrefix_eq_some.mp hr
    refine ⟨_, ⟨x.takeWhile isBlank, y.takeWhile isBlank, fun c hc => List.mem_takeWhile_imp hc,
      fun c hc => List.mem_takeWhile_imp hc, rfl⟩, ?_⟩
    rw [hx']
    simp only [List.append_assoc]
    rw [← hr', List.takeWhile_append_dropWhile, ← hy', List.takeWhile_append_dropWhile]
  · rintro ⟨_, ⟨a, b, ha, hb, rfl⟩, rfl⟩
    have hclose : utf8 "%\x7d" = 0x25 :: [0x7D] := by decide
    have hpercent : isBlank 0x25 = false := by decide
    simp only [List.append_assoc]
    rw [stripTag, cutPrefix_append, Option.bind_some, hword, List.cons_append,
      dropWhile_blanks ha hc, ← List.cons_append, cutPrefix_append, Option.bind_some, hclose,
      List.cons_append, dropWhile_blanks hb hpercent, ← List.cons_append, cutPrefix_append]

/-- A tag starts with a brace, holds no other, and ends with one that closes. -/
theorem IsTag.shape (hw : isTagWord word = true) (h : IsTag word t) :
    ∃ u, t = 0x7B :: u ∧ 0x7B ∉ u ∧ 0x3C ∉ u ∧ t.getLast? = some 0x7D := by
  obtain ⟨a, b, ha, hb, rfl⟩ := h
  rw [isTagWord, Bool.and_eq_true, List.all_eq_true] at hw
  have hopen : utf8 "\x7b%" = [0x7B, 0x25] := by decide
  have hclose : utf8 "%\x7d" = [0x25, 0x7D] := by decide
  have hout : ∀ c : UInt8, c ≠ 0x25 → c ≠ 0x7D → isBlank c = false →
      ¬ (0x61 ≤ c && c ≤ 0x7A) = true → c ∉ 0x25 :: (a ++ (word ++ (b ++ [0x25, 0x7D]))) := by
    intro c hp hq hblank hletter hmem
    simp only [List.mem_cons, List.mem_append, hp, hq, List.not_mem_nil, or_false, false_or] at hmem
    rcases hmem with hmem | hmem | hmem
    · rw [ha c hmem] at hblank
      cases hblank
    · exact hletter (hw.2 c hmem)
    · rw [hb c hmem] at hblank
      cases hblank
  rw [hopen, hclose]
  refine ⟨0x25 :: (a ++ (word ++ (b ++ [0x25, 0x7D]))), rfl, hout _ (by decide) (by decide)
    (by decide) (by decide), hout _ (by decide) (by decide) (by decide) (by decide), ?_⟩
  have hlast : [0x7B, 0x25] ++ (a ++ (word ++ (b ++ [0x25, 0x7D]))) =
      (0x7B :: 0x25 :: (a ++ (word ++ (b ++ [0x25])))) ++ [0x7D] := by simp
  rw [hlast, List.getLast?_concat]

/-- Two tags in one place have the same word. -/
theorem IsTag.word_eq {t' : GoString} (hw : isTagWord word = true) (hw' : isTagWord w = true)
    (h : IsTag word t) (h' : IsTag w t') {r' : GoString} (heq : t ++ r = t' ++ r') : word = w := by
  obtain ⟨a, b, ha, hb, rfl⟩ := h
  obtain ⟨a', b', ha', hb', rfl⟩ := h'
  obtain ⟨c, v, rfl, hc⟩ := isBlank_of_isTagWord hw
  obtain ⟨c', v', rfl, hc'⟩ := isBlank_of_isTagWord hw'
  have hbehind : ∀ (word b r : GoString), isTagWord word = true → (∀ c ∈ b, isBlank c = true) →
      (word ++ (b ++ (utf8 "%\x7d" ++ r))).takeWhile (fun b => 0x61 ≤ b && b ≤ 0x7A) = word := by
    intro word b r hword hblank
    rw [isTagWord, Bool.and_eq_true, List.all_eq_true] at hword
    rw [List.takeWhile_append_of_pos hword.2]
    cases b with
    | nil =>
      rw [List.nil_append, show utf8 "%\x7d" = [0x25, 0x7D] from by decide, List.cons_append,
        List.takeWhile_cons_of_neg (by decide), List.append_nil]
    | cons x b =>
      have hx := hblank x List.mem_cons_self
      rw [List.cons_append, List.takeWhile_cons_of_neg, List.append_nil]
      rcases isBlank_eq_true_iff.mp hx with rfl | rfl | rfl | rfl | rfl <;> decide
  simp only [List.append_assoc, List.append_cancel_left_eq, List.cons_append] at heq
  have hdrop := congrArg (List.dropWhile isBlank) heq
  rw [dropWhile_blanks ha hc, dropWhile_blanks ha' hc'] at hdrop
  rw [← hbehind (c :: v) b r hw hb, ← hbehind (c' :: v') b' r' hw' hb']
  exact congrArg _ hdrop

/-! ## Counting -/

/-- No tag goes on into a text every start of which holds a brace or an angle bracket, or
does not end a tag. -/
def Barrier (t : GoString) : Prop :=
  ∀ u v, t = u ++ v → u ≠ [] → 0x7B ∈ u ∨ 0x3C ∈ u ∨ u.getLast? ≠ some 0x7D

theorem barrier_cons {c : UInt8} (hc : c = 0x7B ∨ c = 0x3C) (t : GoString) : Barrier (c :: t) := by
  intro u v heq hne
  cases u with
  | nil => contradiction
  | cons d u =>
    rw [List.cons_append, List.cons.injEq] at heq
    rw [← heq.1]
    rcases hc with rfl | rfl
    · exact .inl List.mem_cons_self
    · exact .inr (.inl List.mem_cons_self)

theorem barrier_of_isTag (hw : isTagWord word = true) (h : IsTag word t) (s : GoString) :
    Barrier (t ++ s) := by
  obtain ⟨u, rfl, -⟩ := h.shape hw
  exact barrier_cons (.inl rfl) (u ++ s)

/-- Whether a tag starts at a place depends on nothing behind a barrier. -/
theorem stripTag_append_isSome (hw : isTagWord word = true) (hs : s ≠ []) (ht : Barrier t) :
    (stripTag word (s ++ t)).isSome = (stripTag word s).isSome := by
  rw [Bool.eq_iff_iff, Option.isSome_iff_exists, Option.isSome_iff_exists]
  constructor
  · rintro ⟨r, h⟩
    obtain ⟨g, hg, heq⟩ := (stripTag_eq_some hw).mp h
    obtain ⟨u, hgu, hbrace, hangle, hlast⟩ := hg.shape hw
    rcases List.append_eq_append_iff.mp heq with ⟨x, hx, ht'⟩ | ⟨x, hx, -⟩
    · cases x with
      | nil =>
        rw [List.append_nil] at hx
        exact ⟨[], (stripTag_eq_some hw).mpr ⟨g, hg, by rw [hx, List.append_nil]⟩⟩
      | cons c x =>
        -- The tag would go on into the barrier.
        exfalso
        have hu : c :: x <:+ u := by
          cases s with
          | nil => contradiction
          | cons d s =>
            rw [hgu, List.cons_append, List.cons.injEq] at hx
            exact ⟨s, hx.2.symm⟩
        rcases ht (c :: x) r ht' (List.cons_ne_nil _ _) with h | h | h
        · exact hbrace (hu.subset h)
        · exact hangle (hu.subset h)
        · apply h
          have hx' := List.getLast?_eq_some_getLast (List.cons_ne_nil c x)
          rw [hx, List.getLast?_append, hx'] at hlast
          rw [hx']
          exact hlast
    · exact ⟨x, (stripTag_eq_some hw).mpr ⟨g, hg, hx⟩⟩
  · rintro ⟨r, h⟩
    obtain ⟨g, hg, rfl⟩ := (stripTag_eq_some hw).mp h
    exact ⟨r ++ t, (stripTag_eq_some hw).mpr ⟨g, hg, List.append_assoc g r t⟩⟩

theorem countTags_append (hw : isTagWord word = true) (ht : Barrier t) (s : GoString) :
    countTags word (s ++ t) = countTags word s + countTags word t := by
  induction s with
  | nil => simp [countTags]
  | cons b s ih =>
    rw [List.cons_append, countTags, ← List.cons_append,
      stripTag_append_isSome hw (List.cons_ne_nil b s) ht, ih, countTags, Nat.add_assoc]

/-- No tag starts without a brace. -/
theorem countTags_append_of_not_mem (h : 0x7B ∉ t) (s : GoString) :
    countTags word (t ++ s) = countTags word s := by
  induction t with
  | nil => rfl
  | cons b t ih =>
    rw [List.mem_cons, not_or] at h
    rw [List.cons_append, countTags, stripTag_cons_of_ne (Ne.symm h.1), ih h.2]
    exact Nat.zero_add _

/-- A tag counts for its own word. -/
theorem countTags_tag (hw : isTagWord word = true) (hw' : isTagWord w = true) (h : IsTag w t)
    (s : GoString) :
    countTags word (t ++ s) = (if word = w then 1 else 0) + countTags word s := by
  obtain ⟨u, hu, hbrace, -⟩ := h.shape hw'
  have hiff : (stripTag word (t ++ s)).isSome = true ↔ word = w := by
    rw [Option.isSome_iff_exists]
    constructor
    · rintro ⟨r, hr⟩
      obtain ⟨g, hg, heq⟩ := (stripTag_eq_some hw).mp hr
      exact hg.word_eq hw hw' h heq.symm
    · rintro rfl
      exact ⟨s, (stripTag_eq_some hw).mpr ⟨t, h, rfl⟩⟩
  rw [hu, List.cons_append] at hiff ⊢
  rw [countTags, countTags_append_of_not_mem hbrace]
  simp only [hiff]

/-! ## Blocks -/

/-- The first tag, with none before it. -/
theorem findTag_eq_some (hw : isTagWord word = true) {before rest : GoString} :
    findTag word s = some (before, t, rest) ↔
      s = before ++ (t ++ rest) ∧ IsTag word t ∧ countTags word before = 0 := by
  induction s generalizing before with
  | nil =>
    refine iff_of_false (fun h => by cases h) fun h => ?_
    obtain ⟨u, rfl, -⟩ := h.2.1.shape hw
    simp at h
  | cons b s ih =>
    rw [findTag]
    cases hs : stripTag word (b :: s) with
    | some r =>
      obtain ⟨g, hg, heq⟩ := (stripTag_eq_some hw).mp hs
      have htake : (b :: s).take ((b :: s).length - r.length) = g := by
        rw [heq, List.length_append, Nat.add_sub_cancel, List.take_left]
      dsimp only
      rw [htake, Option.some.injEq, Prod.mk.injEq, Prod.mk.injEq]
      constructor
      · rintro ⟨rfl, rfl, rfl⟩
        exact ⟨heq, hg, rfl⟩
      · rintro ⟨hsplit, ht, hbefore⟩
        cases before with
        | nil =>
          -- The tag that stands first is the one.
          have hr : stripTag word (b :: s) = some rest :=
            (stripTag_eq_some hw).mpr ⟨t, ht, hsplit⟩
          rw [hs, Option.some.injEq] at hr
          subst hr
          exact ⟨rfl, List.append_cancel_right (heq.symm.trans hsplit), rfl⟩
        | cons c before =>
          exfalso
          rw [countTags, Nat.add_eq_zero_iff] at hbefore
          have hsome : (stripTag word (b :: s)).isSome = true := by rw [hs]; rfl
          rw [hsplit, stripTag_append_isSome hw (List.cons_ne_nil c before)
            (barrier_of_isTag hw ht rest)] at hsome
          simp [hsome] at hbefore
    | none =>
      dsimp only
      rw [Option.map_eq_some_iff]
      constructor
      · rintro ⟨⟨before', t', rest'⟩, hfind, heq⟩
        simp only [Prod.mk.injEq] at heq
        obtain ⟨rfl, rfl, rfl⟩ := heq
        obtain ⟨rfl, ht, hbefore⟩ := ih.mp hfind
        refine ⟨rfl, ht, ?_⟩
        rw [countTags, hbefore, ← stripTag_append_isSome hw (List.cons_ne_nil b before')
          (barrier_of_isTag hw ht rest'), List.cons_append, hs]
        rfl
      · rintro ⟨hsplit, ht, hbefore⟩
        cases before with
        | nil =>
          have hr : stripTag word (b :: s) = some rest :=
            (stripTag_eq_some hw).mpr ⟨t, ht, hsplit⟩
          rw [hs] at hr
          cases hr
        | cons c before =>
          rw [List.cons_append, List.cons.injEq] at hsplit
          obtain ⟨rfl, hsplit⟩ := hsplit
          rw [countTags, Nat.add_eq_zero_iff] at hbefore
          exact ⟨_, ih.mpr ⟨hsplit, ht, hbefore.2⟩, rfl⟩

theorem isTagWord_end (hw : isTagWord word = true) : isTagWord (utf8 "end" ++ word) = true := by
  have hend : (utf8 "end").all (fun b => 0x61 ≤ b && b ≤ 0x7A) = true := by decide
  rw [isTagWord, Bool.and_eq_true] at hw ⊢
  rw [List.all_append, hend, Bool.true_and]
  exact ⟨decide_eq_true (List.append_ne_nil_of_left_ne_nil (by decide) word), hw.2⟩

/-- The first block: an opening tag with none before it, and the first closing tag
behind it. -/
theorem findBlock_eq_some (hw : isTagWord word = true) {b : Block} {rest : GoString} :
    findBlock word s = some (b, rest) ↔
      s = b.before ++ (b.opening ++ (b.inner ++ (b.closing ++ rest))) ∧
        IsTag word b.opening ∧ countTags word b.before = 0 ∧
        IsTag (utf8 "end" ++ word) b.closing ∧ countTags (utf8 "end" ++ word) b.inner = 0 := by
  have hend := isTagWord_end hw
  constructor
  · intro h
    obtain ⟨hs, hopen, hclose⟩ := findBlock_eq h
    obtain ⟨-, hopening, hbefore⟩ := (findTag_eq_some hw).mp hopen
    obtain ⟨-, hclosing, hinner⟩ := (findTag_eq_some hend).mp hclose
    exact ⟨hs, hopening, hbefore, hclosing, hinner⟩
  · rintro ⟨hs, hopening, hbefore, hclosing, hinner⟩
    rw [findBlock, (findTag_eq_some hw).mpr ⟨hs, hopening, hbefore⟩]
    dsimp only
    rw [(findTag_eq_some hend).mpr ⟨rfl, hclosing, hinner⟩]

/-- The tags of a text with a block: those before it, its own, and those inside and behind
it. -/
theorem countTags_block (hw : isTagWord word = true) {before opening inner closing rest : GoString}
    (hopening : IsTag word opening) (hclosing : IsTag (utf8 "end" ++ word) closing) :
    countTags word (before ++ (opening ++ (inner ++ (closing ++ rest)))) =
      countTags word before + (1 + (countTags word inner + countTags word rest)) := by
  have hne : word ≠ utf8 "end" ++ word := by
    intro h
    have hlen := congrArg List.length h
    rw [List.length_append, show (utf8 "end").length = 3 from rfl] at hlen
    omega
  rw [countTags_append hw (barrier_of_isTag hw hopening _), countTags_tag hw hw hopening,
    countTags_append hw (barrier_of_isTag (isTagWord_end hw) hclosing _),
    countTags_tag hw (isTagWord_end hw) hclosing, if_pos rfl, if_neg hne, Nat.zero_add]

/-- A block of the grammar is the one that is found. -/
theorem findBlock_block (hw : isTagWord word = true) {before opening inner closing rest : GoString}
    (hbefore : countTags word before = 0) (hopening : IsTag word opening)
    (hinner : countTags (utf8 "end" ++ word) inner = 0)
    (hclosing : IsTag (utf8 "end" ++ word) closing) :
    findBlock word (before ++ (opening ++ (inner ++ (closing ++ rest)))) =
      some (⟨before, opening, inner, closing⟩, rest) :=
  (findBlock_eq_some hw).mpr ⟨rfl, hopening, hbefore, hclosing, hinner⟩

theorem countTags_findBlock (hw : isTagWord word = true) {b : Block} {rest : GoString}
    (h : findBlock word s = some (b, rest)) :
    countTags word s = 1 + (countTags word b.inner + countTags word rest) := by
  obtain ⟨hs, hopening, hbefore, hclosing, -⟩ := (findBlock_eq_some hw).mp h
  rw [hs, countTags_block hw hopening hclosing, hbefore, Nat.zero_add]

theorem length_findBlock (hw : isTagWord word = true) {b : Block} {rest : GoString}
    (h : findBlock word s = some (b, rest)) : rest.length < s.length := by
  obtain ⟨hs, hopening, -⟩ := (findBlock_eq_some hw).mp h
  obtain ⟨u, hu, -⟩ := hopening.shape hw
  rw [hs, hu]
  simp only [List.length_append, List.length_cons]
  omega

theorem length_blocksN_le (hw : isTagWord word = true) (n : Nat) (s : GoString) :
    (blocksN word n s).1.length ≤ countTags word s := by
  induction n generalizing s with
  | zero => exact Nat.zero_le _
  | succ n ih =>
    cases hfind : findBlock word s with
    | none =>
      rw [blocksN_of_none n hfind]
      exact Nat.zero_le _
    | some r =>
      have hrest := ih r.2
      rw [blocksN_of_some n hfind, countTags_findBlock hw hfind, List.length_cons]
      omega

theorem balanced_of_findBlock (hw : isTagWord word = true) {b : Block} {rest : GoString}
    (h : findBlock word s = some (b, rest)) :
    Balanced word s ↔ countTags word b.inner = 0 ∧ Balanced word rest := by
  obtain ⟨hs, hopening, hbefore, hclosing, hinner⟩ := (findBlock_eq_some hw).mp h
  constructor
  · intro hbal
    cases hbal with
    | plain hzero =>
      have hcount := countTags_findBlock hw h
      omega
    | @block before' opening' inner' closing' rest' hb' ho' hi' he' hc' hr' =>
      have heq := Option.some.inj (h.symm.trans (findBlock_block hw hb' ho' he' hc'))
      cases heq
      exact ⟨hi', hr'⟩
  · rintro ⟨hnone, hrest⟩
    rw [hs]
    exact .block hbefore hopening hnone hinner hclosing hrest

/-- The blocks are as many as the opening tags exactly when the tags pair up. -/
theorem countTags_eq_length_blocksN (hw : isTagWord word = true) (n : Nat) (s : GoString)
    (hn : s.length ≤ n) : countTags word s = (blocksN word n s).1.length ↔ Balanced word s := by
  induction n generalizing s with
  | zero =>
    have hs : s = [] := List.length_eq_zero_iff.mp (by omega)
    subst hs
    exact iff_of_true rfl (.plain rfl)
  | succ n ih =>
    cases hfind : findBlock word s with
    | none =>
      rw [blocksN_of_none n hfind]
      constructor
      · exact fun hzero => .plain hzero
      · intro hbal
        cases hbal with
        | plain hzero => exact hzero
        | @block before' opening' inner' closing' rest' hb' ho' hi' he' hc' hr' =>
          rw [findBlock_block hw hb' ho' he' hc'] at hfind
          cases hfind
    | some r =>
      obtain ⟨b, rest⟩ := r
      have hlen := length_findBlock hw hfind
      have hrest := ih rest (by omega)
      have hle := length_blocksN_le hw n rest
      rw [blocksN_of_some n hfind, balanced_of_findBlock hw hfind, ← hrest,
        countTags_findBlock hw hfind, List.length_cons]
      omega

theorem countTags_eq_length_blocks (hw : isTagWord word = true) (s : GoString) :
    countTags word s = (blocks word s).1.length ↔ Balanced word s :=
  countTags_eq_length_blocksN hw s.length s (Nat.le_refl _)

theorem length_blocks_le (hw : isTagWord word = true) (s : GoString) :
    (blocks word s).1.length ≤ countTags word s :=
  length_blocksN_le hw s.length s

/-! ## Exercise tags around quiz blocks -/

theorem isTag_of_mem_blocksN (hw : isTagWord word = true) (n : Nat) (s : GoString) :
    ∀ b ∈ (blocksN word n s).1, IsTag word b.opening ∧ IsTag (utf8 "end" ++ word) b.closing := by
  induction n generalizing s with
  | zero => exact fun b hb => (List.not_mem_nil hb).elim
  | succ n ih =>
    cases hfind : findBlock word s with
    | none =>
      rw [blocksN_of_none n hfind]
      exact fun b hb => (List.not_mem_nil hb).elim
    | some r =>
      obtain ⟨-, hopening, -, hclosing, -⟩ := (findBlock_eq_some hw).mp hfind
      rw [blocksN_of_some n hfind]
      intro b hb
      rcases List.mem_cons.mp hb with rfl | hb
      · exact ⟨hopening, hclosing⟩
      · exact ih r.2 b hb

theorem brace_not_mem_placeholderToken (i : Nat) : 0x7B ∉ placeholderToken i := by
  intro h
  rw [placeholderToken, List.mem_append, List.mem_append] at h
  rcases h with (h | h) | h
  · revert h
    decide
  · exact absurd (isDecimal_of_mem_itoa h) (by decide)
  · revert h
    decide

/-- A placeholder on a line of its own. -/
theorem barrier_placeholder (i : Nat) (s : GoString) :
    Barrier (utf8 "\n" ++ (placeholderToken i ++ s)) := by
  intro u v heq hne
  have hnewline : utf8 "\n" = [0x0A] := by decide
  have htoken : placeholderToken i = 0x3C :: (utf8 "!--BLOCK:" ++ itoa i ++ utf8 "-->") := rfl
  rw [hnewline, htoken, List.singleton_append, List.cons_append] at heq
  cases u with
  | nil => contradiction
  | cons c u =>
    rw [List.cons_append, List.cons.injEq] at heq
    cases u with
    | nil =>
      rw [← heq.1]
      exact .inr (.inr (by decide))
    | cons d u =>
      have hd := (List.cons.inj heq.2).1
      rw [← hd]
      exact .inr (.inl (List.mem_cons_of_mem _ List.mem_cons_self))

/-- The exercise tags of a body are those inside its quiz blocks and those around them. -/
theorem countTags_assemble {w₁ w₂ : GoString} (hw : isTagWord word = true)
    (hw₁ : isTagWord w₁ = true) (hw₂ : isTagWord w₂ = true) (hne₁ : word ≠ w₁) (hne₂ : word ≠ w₂)
    (rest : GoString) (i : Nat) (bs : List Block)
    (h : ∀ b ∈ bs, IsTag w₁ b.opening ∧ IsTag w₂ b.closing) :
    countTags word (assemble bs rest) =
      (bs.map fun b => countTags word b.inner).sum + countTags word (replaceBlocks rest i bs) := by
  induction bs generalizing i with
  | nil => simp [assemble, replaceBlocks]
  | cons b bs ih =>
    obtain ⟨hopening, hclosing⟩ := h b List.mem_cons_self
    have hrest := ih (i + 1) fun b hb => h b (List.mem_cons_of_mem _ hb)
    have hnewline : 0x7B ∉ utf8 "\n" := by decide
    rw [assemble_cons, replaceBlocks, List.map_cons, List.sum_cons,
      countTags_append hw (barrier_of_isTag hw₁ hopening _), countTags_tag hw hw₁ hopening,
      if_neg hne₁, countTags_append hw (barrier_of_isTag hw₂ hclosing _),
      countTags_tag hw hw₂ hclosing, if_neg hne₂, hrest]
    simp only [List.append_assoc]
    rw [countTags_append hw (barrier_placeholder i _), countTags_append_of_not_mem hnewline,
      countTags_append_of_not_mem (brace_not_mem_placeholderToken i),
      countTags_append_of_not_mem hnewline]
    omega

theorem countTags_exercise_body (body : GoString) :
    countTags exerciseWord body =
      ((blocks quizWord body).1.map fun b => countTags exerciseWord b.inner).sum +
        countTags exerciseWord (aroundQuizzes body) := by
  have hquiz : isTagWord quizWord = true := by decide
  have hexercise : isTagWord exerciseWord = true := by decide
  have hcount := countTags_assemble hexercise hquiz (isTagWord_end hquiz) (by decide) (by decide)
    (blocks quizWord body).2 0 (blocks quizWord body).1
    (isTag_of_mem_blocksN hquiz body.length body)
  rwa [blocks, ← blocksN_eq] at hcount

/-! ## What a lesson registers -/

variable {sha : Sha256} {slug salt : GoString}

theorem isQuizChallenge_quiz (q : Quiz) : isQuizChallenge (quizChallenge sha slug salt q) = true :=
  List.isPrefixOf_iff_prefix.mpr (List.prefix_append _ _)

theorem isQuizChallenge_exercise (text : GoString) (flags : List GoString) :
    isQuizChallenge (exerciseChallenge sha slug text flags) = false := rfl

theorem isExerciseChallenge_quiz (q : Quiz) :
    isExerciseChallenge (quizChallenge sha slug salt q) = false := rfl

theorem isExerciseChallenge_exercise (text : GoString) (flags : List GoString) :
    isExerciseChallenge (exerciseChallenge sha slug text flags) = true :=
  List.isPrefixOf_iff_prefix.mpr (List.prefix_append _ _)

/-- The challenges of each kind are as many as the blocks of that kind. -/
theorem countP_lessonBlocks (env : Env) (resolver : Resolver) (slug src salt : GoString) :
    let cs := (lessonBlocks env resolver slug src).map (LessonBlock.challenge env.sha salt)
    cs.countP isQuizChallenge = (quizzesOf src).length ∧
      cs.countP isExerciseChallenge = (exercisesOf src).length := by
  dsimp only
  rw [lessonBlocks, List.map_append, List.map_map, List.map_map, List.countP_append,
    List.countP_append, List.countP_map, List.countP_map, List.countP_map, List.countP_map]
  have hq₁ : (quizzesOf src).countP
      (isQuizChallenge ∘ LessonBlock.challenge env.sha salt ∘ .quiz slug) =
        (quizzesOf src).length :=
    List.countP_eq_length.mpr fun q _ => isQuizChallenge_quiz q
  have hq₂ : (quizzesOf src).countP
      (isExerciseChallenge ∘ LessonBlock.challenge env.sha salt ∘ .quiz slug) = 0 :=
    List.countP_eq_zero.mpr fun q _ => Bool.eq_false_iff.mp (isExerciseChallenge_quiz q)
  have he₁ : (exercisesOf src).countP (isQuizChallenge ∘ LessonBlock.challenge env.sha salt ∘
      fun text => .exercise slug text (exerciseFlagsOf env resolver src)) = 0 :=
    List.countP_eq_zero.mpr fun t _ => Bool.eq_false_iff.mp (isQuizChallenge_exercise t _)
  have he₂ : (exercisesOf src).countP (isExerciseChallenge ∘ LessonBlock.challenge env.sha salt ∘
      fun text => .exercise slug text (exerciseFlagsOf env resolver src)) =
        (exercisesOf src).length :=
    List.countP_eq_length.mpr fun t _ => isExerciseChallenge_exercise t _
  rw [hq₁, hq₂, he₁, he₂]
  exact ⟨Nat.add_zero _, Nat.zero_add _⟩

theorem countP_clearVerify (p : Challenge → Bool) (hp : ∀ c, p (clearVerify c) = p c)
    (cs : List Challenge) : (cs.map clearVerify).countP p = cs.countP p := by
  rw [List.countP_map]
  exact List.countP_congr fun c _ => by rw [Function.comp_apply, hp]

/-- A lesson has as many challenges of each kind as its source has opening tags exactly when
the tags of the source pair up. -/
theorem tagsMatch_iff_wellTagged {env : Env} {slug src salt : GoString} {resolver : Resolver}
    {l : Lesson} (h : render env slug src salt resolver = .ok l) :
    TagsMatch src l ↔ WellTagged (bodyOf src) := by
  obtain ⟨hquizzes, hexercises⟩ := countP_lessonBlocks env resolver slug src salt
  rw [← render_ok h, countP_clearVerify _ fun c => rfl] at hquizzes hexercises
  rw [quizzesOf, List.length_map] at hquizzes
  rw [exercisesOf, List.length_map, ← aroundQuizzes] at hexercises
  have hquizWord : isTagWord quizWord = true := by decide
  have hexerciseWord : isTagWord exerciseWord = true := by decide
  have hquiz := countTags_eq_length_blocks hquizWord (bodyOf src)
  have hexercise := countTags_eq_length_blocks hexerciseWord (aroundQuizzes (bodyOf src))
  have hle := length_blocks_le hexerciseWord (aroundQuizzes (bodyOf src))
  have hsum := countTags_exercise_body (bodyOf src)
  have hzero :
      ((blocks quizWord (bodyOf src)).1.map fun b => countTags exerciseWord b.inner).sum = 0 ↔
        ∀ b ∈ (blocks quizWord (bodyOf src)).1, countTags exerciseWord b.inner = 0 := by
    rw [List.sum_eq_zero_iff_forall_eq_nat, List.forall_mem_map]
  constructor
  · rintro ⟨hq, he⟩
    rw [hquizzes] at hq
    rw [hexercises] at he
    exact ⟨hquiz.mp hq, hzero.mp (by omega), hexercise.mp (by omega)⟩
  · rintro ⟨hq, hapart, he⟩
    refine ⟨(hquiz.mpr hq).trans hquizzes.symm, ?_⟩
    rw [hsum, hzero.mpr hapart, Nat.zero_add, hexercises]
    exact hexercise.mpr he

/-! ## A quiz that is never closed -/

/-- A lesson with one quiz and the closing tag of that word. -/
def quizLesson (closing : String) : GoString :=
  utf8 "# Docker\n\x7b% quiz %\x7d\nWhich command lists containers?\n- [x] docker ps\n\x7b% " ++
    utf8 closing ++ utf8 " %\x7d\n"

theorem tagsMatch_endquiz : ∃ l,
    render dockerEnv (utf8 "docker") (quizLesson "endquiz") (utf8 "demo-salt") none = .ok l ∧
      l.challenges.countP isQuizChallenge = 1 ∧ TagsMatch (quizLesson "endquiz") l := by
  have hrender : ∃ l,
      render dockerEnv (utf8 "docker") (quizLesson "endquiz") (utf8 "demo-salt") none = .ok l ∧
        l.challenges.countP isQuizChallenge = 1 := ok_of_toOption (by decide +kernel)
  obtain ⟨l, hl, hone⟩ := hrender
  refine ⟨l, hl, hone, (tagsMatch_iff_wellTagged hl).mpr ?_⟩
  exact ⟨(countTags_eq_length_blocks (by decide) _).mp (by decide +kernel), by decide +kernel,
    (countTags_eq_length_blocks (by decide) _).mp (by decide +kernel)⟩

/-- With the closing tag misspelt the lesson renders and registers no quiz. -/
theorem not_tagsMatch_endQuiz : ∃ l,
    render dockerEnv (utf8 "docker") (quizLesson "end quiz") (utf8 "demo-salt") none = .ok l ∧
      ¬ TagsMatch (quizLesson "end quiz") l := by
  have hrender : ∃ l,
      render dockerEnv (utf8 "docker") (quizLesson "end quiz") (utf8 "demo-salt") none = .ok l ∧
        l.challenges.countP isQuizChallenge = 0 := ok_of_toOption (by decide +kernel)
  obtain ⟨l, hl, hnone⟩ := hrender
  refine ⟨l, hl, fun hmatch => ?_⟩
  have hcount := hmatch.quizzes
  rw [hnone] at hcount
  revert hcount
  decide +kernel

end TrainingPlatform.Content
