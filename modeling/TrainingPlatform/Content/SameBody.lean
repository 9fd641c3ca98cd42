import TrainingPlatform.Content.Tags

/-!
# The body decides the challenges

Two lessons with the same text behind their front matter register the same challenges but
for the flags of exercises, whatever the front matter says and also where there is none.
The text behind a closing line loses blank lines at its start, and no block starts in one.
-/

namespace TrainingPlatform.Content

open Go Scoring

/-- A line of dashes and blanks, with which a front matter ends. -/
def isCloseLine (l : GoString) : Bool := hasPrefix l dashes && (l.drop dashes.length).all isBlank

/-- The text between the opening dashes and the closing line. -/
def yamlText (lines : List GoString) : GoString := lines.flatMap fun l => l ++ [newline]

/-- The source's text behind the closing line of its front matter, or all of a source
without one. -/
inductive HasBody (src : GoString) : GoString → Prop where
  | plain : hasPrefix src dashes = false → HasBody src src
  | closed (lines : List GoString) (close text : GoString) : hasPrefix src dashes = true →
    (∀ l ∈ lines, newline ∉ l ∧ isCloseLine l = false) →
    newline ∉ close → isCloseLine close = true →
    trimLeft lineBreaks (src.drop dashes.length) =
      yamlText lines ++ (close ++ newline :: text) → HasBody src text
  | closedAtEnd (lines : List GoString) (close : GoString) : hasPrefix src dashes = true →
    (∀ l ∈ lines, newline ∉ l ∧ isCloseLine l = false) →
    newline ∉ close → isCloseLine close = true →
    trimLeft lineBreaks (src.drop dashes.length) = yamlText lines ++ close → HasBody src []

/-! ## The closing line -/

variable {src l s u v close text : GoString} {lines : List GoString}

theorem lineEnd_append_of_blank (h : ∀ b ∈ u, isBlank b = true) (hv : lineEnd v = some s) :
    lineEnd (u ++ v) = some s := by
  induction u with
  | nil => exact hv
  | cons b u ih =>
    obtain ⟨hb, hu⟩ := List.forall_mem_cons.mp h
    rw [List.cons_append, lineEnd, if_pos hb, ih hu]

theorem lineEnd_append_of_not_blank (hu : newline ∉ u) (h : u.all isBlank = false) (v : GoString) :
    lineEnd (u ++ v) = none := by
  induction u with
  | nil => cases h
  | cons b u ih =>
    rw [List.mem_cons, not_or] at hu
    rw [List.cons_append, lineEnd]
    by_cases hb : isBlank b = true
    · rw [List.all_cons, hb, Bool.true_and] at h
      rw [if_pos hb, ih hu.2 h]
      exact if_neg (Ne.symm hu.1)
    · rw [if_neg hb]

theorem lineEnd_newline_cons (text : GoString) :
    lineEnd (newline :: text) = some ((lineEnd text).getD (newline :: text)) := by
  have hblank : isBlank newline = true := by decide
  rw [lineEnd, if_pos hblank]
  cases lineEnd text <;> rfl

theorem hasPrefix_append_newline {p : GoString} (hp : newline ∉ p) (l s : GoString) :
    hasPrefix (l ++ newline :: s) p = hasPrefix l p := by
  induction p generalizing l with
  | nil => rfl
  | cons b p ih =>
    rw [List.mem_cons, not_or] at hp
    cases l with
    | nil =>
      rw [List.nil_append, hasPrefix, List.isPrefixOf_cons_cons, beq_false_of_ne (Ne.symm hp.1)]
      rfl
    | cons c l =>
      rw [List.cons_append, hasPrefix, List.isPrefixOf_cons_cons]
      exact congrArg _ (ih hp.2 l)

/-- No closing line starts inside a line. -/
theorem findClose_line_end (hl : newline ∉ l) (s : GoString) :
    findClose false (l ++ newline :: s) =
      (findClose true s).map fun r => (l ++ newline :: r.1, r.2) := by
  induction l with
  | nil => exact findClose_cons_of_ne s (.inl rfl)
  | cons b l ih =>
    rw [List.mem_cons, not_or] at hl
    rw [List.cons_append, findClose_cons_of_ne _ (.inl rfl), decide_eq_false (Ne.symm hl.1),
      ih hl.2, Option.map_map]
    rfl

theorem findClose_false_eq_none (hl : newline ∉ l) : findClose false l = none := by
  induction l with
  | nil => rfl
  | cons b l ih =>
    rw [List.mem_cons, not_or] at hl
    rw [findClose_cons_of_ne _ (.inl rfl), decide_eq_false (Ne.symm hl.1), ih hl.2]
    rfl

/-- Nor does one start with a line that is not one. -/
theorem findClose_cons_line {b : UInt8} (hl : newline ∉ b :: l)
    (hno : isCloseLine (b :: l) = false)
    (hv : hasPrefix (b :: l ++ v) dashes = hasPrefix (b :: l) dashes) :
    findClose true (b :: l ++ v) = (findClose false (l ++ v)).map fun r => (b :: r.1, r.2) := by
  have hb : decide (b = newline) = false := decide_eq_false (Ne.symm (List.ne_of_not_mem_cons hl))
  rw [List.cons_append, findClose, Bool.true_and, ← List.cons_append, hv, hb]
  by_cases hdashes : hasPrefix (b :: l) dashes = true
  · rw [isCloseLine, hdashes, Bool.true_and] at hno
    have hdrop : (b :: l ++ v).drop dashes.length = (b :: l).drop dashes.length ++ v :=
      List.drop_append_of_le_length (List.isPrefixOf_iff_prefix.mp hdashes).length_le
    rw [if_pos hdashes, hdrop,
      lineEnd_append_of_not_blank (fun hmem => hl (List.mem_of_mem_drop hmem)) hno]
  · rw [if_neg hdashes]

/-- The search goes on behind a line that is not a closing one. -/
theorem findClose_line (hl : newline ∉ l) (hno : isCloseLine l = false) (s : GoString) :
    findClose true (l ++ newline :: s) =
      (findClose true s).map fun r => (l ++ newline :: r.1, r.2) := by
  cases l with
  | nil => exact findClose_cons_of_ne s (.inr (by decide))
  | cons b l =>
    rw [findClose_cons_line hl hno (hasPrefix_append_newline (by decide) _ s),
      findClose_line_end (List.not_mem_of_not_mem_cons hl), Option.map_map]
    rfl

/-- It fails at the end of a text whose last line is not one. -/
theorem findClose_last (hl : newline ∉ l) (hno : isCloseLine l = false) :
    findClose true l = none := by
  cases l with
  | nil => rfl
  | cons b l =>
    have hline := findClose_cons_line (v := []) hl hno (by rw [List.append_nil])
    rw [List.append_nil, List.append_nil] at hline
    rw [hline, findClose_false_eq_none (List.not_mem_of_not_mem_cons hl)]
    rfl

theorem findClose_yamlText (h : ∀ l ∈ lines, newline ∉ l ∧ isCloseLine l = false) (s : GoString) :
    findClose true (yamlText lines ++ s) =
      (findClose true s).map fun r => (yamlText lines ++ r.1, r.2) := by
  induction lines with
  | nil => exact Option.map_id'.symm
  | cons l lines ih =>
    obtain ⟨⟨hl, hno⟩, hlines⟩ := List.forall_mem_cons.mp h
    rw [yamlText, List.flatMap_cons, ← yamlText, List.append_assoc, List.append_assoc,
      List.singleton_append, findClose_line hl hno, ih hlines, Option.map_map]
    congr 1
    funext r
    simp

/-- A closing line ends the search. -/
theorem findClose_close (hclose : isCloseLine close = true) (hv : lineEnd v = some s) :
    findClose true (close ++ v) = some ([], s) := by
  rw [isCloseLine, Bool.and_eq_true, List.all_eq_true] at hclose
  obtain ⟨hdashes, hblank⟩ := hclose
  have hpre := List.isPrefixOf_iff_prefix.mp hdashes
  have hprefix : hasPrefix (close ++ v) dashes = true :=
    List.isPrefixOf_iff_prefix.mpr (hpre.trans (List.prefix_append close v))
  have hdrop : (close ++ v).drop dashes.length = close.drop dashes.length ++ v :=
    List.drop_append_of_le_length hpre.length_le
  have hline := lineEnd_append_of_blank hblank hv
  rw [← hdrop] at hline
  cases hc : close ++ v with
  | nil =>
    rw [hc] at hprefix
    cases hprefix
  | cons b r =>
    rw [hc] at hprefix hline
    rw [findClose, hprefix, Bool.true_and, if_pos rfl, hline]

/-! ## Blanks before the body -/

theorem blank_lineEnd (h : lineEnd s = some u) :
    ∃ ws, (∀ b ∈ ws, isBlank b = true) ∧ s = ws ++ u := by
  induction s generalizing u with
  | nil =>
    cases h
    exact ⟨[], by simp, rfl⟩
  | cons b s ih =>
    rw [lineEnd] at h
    by_cases hb : isBlank b = true
    · rw [if_pos hb] at h
      cases hs : lineEnd s with
      | some t =>
        rw [hs] at h
        cases h
        obtain ⟨ws, hws, rfl⟩ := ih hs
        exact ⟨b :: ws, List.forall_mem_cons.mpr ⟨hb, hws⟩, rfl⟩
      | none =>
        simp only [hs, Option.ite_none_right_eq_some, Option.some.injEq] at h
        exact ⟨[], by simp, h.2⟩
    · rw [if_neg hb] at h
      cases h

theorem blank_trimLeft (s : GoString) :
    ∃ ws, (∀ b ∈ ws, isBlank b = true) ∧ s = ws ++ trimLeft lineBreaks s := by
  refine ⟨s.takeWhile (· ∈ lineBreaks), fun b hb => ?_, List.takeWhile_append_dropWhile.symm⟩
  have hblank : ∀ b ∈ lineBreaks, isBlank b = true := by decide +kernel
  exact hblank b (by simpa using List.mem_takeWhile_imp hb)

theorem trimLeft_newline_cons (s : GoString) :
    trimLeft lineBreaks (newline :: s) = trimLeft lineBreaks s :=
  List.dropWhile_cons_of_pos (by decide)

/-- The part of a source in which blocks are looked for is its text but for blanks at the
start. -/
theorem bodyOf_of_hasBody (h : HasBody src text) :
    ∃ ws, (∀ b ∈ ws, isBlank b = true) ∧ text = ws ++ bodyOf src := by
  cases h with
  | plain hp =>
    have hbody : bodyOf src = src := if_neg (by simp [hp])
    exact ⟨[], by simp, hbody.symm⟩
  | closed lines close text hp hlines _ hclose heq =>
    have hcut : cutFrontMatter src = some (yamlText lines ++ [],
        trimLeft lineBreaks ((lineEnd text).getD (newline :: text))) := by
      rw [cutFrontMatter, heq, findClose_yamlText hlines,
        findClose_close hclose (lineEnd_newline_cons text)]
      rfl
    rw [bodyOf, if_pos hp, hcut]
    dsimp only
    cases hend : lineEnd text with
    | some rest =>
      obtain ⟨ws, hws, rfl⟩ := blank_lineEnd hend
      obtain ⟨ws', hws', hrest⟩ := blank_trimLeft rest
      refine ⟨ws ++ ws', fun b hb => ?_, ?_⟩
      · exact (List.mem_append.mp hb).elim (hws b) (hws' b)
      · rw [Option.getD_some, List.append_assoc, ← hrest]
    | none =>
      rw [Option.getD_none, trimLeft_newline_cons]
      exact blank_trimLeft text
  | closedAtEnd lines close hp hlines _ hclose heq =>
    have hcut : cutFrontMatter src = some (yamlText lines ++ [], trimLeft lineBreaks []) := by
      rw [← List.append_nil close] at heq
      rw [cutFrontMatter, heq, findClose_yamlText hlines, findClose_close hclose rfl]
      rfl
    rw [bodyOf, if_pos hp, hcut]
    exact ⟨[], by simp, rfl⟩

/-- A front matter that is closed has a closing line. -/
theorem exists_closeLine (h : (findClose true s).isSome = true) :
    ∃ lines close, (∀ l ∈ lines, newline ∉ l ∧ isCloseLine l = false) ∧ newline ∉ close ∧
      isCloseLine close = true ∧
      ((∃ text, s = yamlText lines ++ (close ++ newline :: text)) ∨
        s = yamlText lines ++ close) := by
  induction hn : s.length using Nat.strong_induction_on generalizing s with
  | _ n ih =>
    subst hn
    by_cases hmem : newline ∈ s
    · obtain ⟨l, t, rfl, hl⟩ := List.eq_append_cons_of_mem hmem
      cases hclose : isCloseLine l with
      | true => exact ⟨[], l, by simp, hl, hclose, .inl ⟨t, rfl⟩⟩
      | false =>
        rw [findClose_line hl hclose, Option.isSome_map] at h
        obtain ⟨lines, close, hlines, hnl, hclosing, heq⟩ := ih t.length (by simp; omega) h rfl
        refine ⟨l :: lines, close, List.forall_mem_cons.mpr ⟨⟨hl, hclose⟩, hlines⟩, hnl, hclosing,
          ?_⟩
        have hcons : ∀ u, yamlText (l :: lines) ++ u = l ++ newline :: (yamlText lines ++ u) := by
          intro u
          simp [yamlText]
        rw [hcons]
        refine heq.imp (fun htext => ?_) fun hend => ?_
        · obtain ⟨text, rfl⟩ := htext
          exact ⟨text, (hcons _).symm⟩
        · rw [← hend]
    · cases hclose : isCloseLine s with
      | true => exact ⟨[], s, by simp, hmem, hclose, .inr rfl⟩
      | false =>
        rw [findClose_last hmem hclose] at h
        cases h

/-- A source whose front matter can be read has a text. -/
theorem exists_hasBody {yaml : GoString → Except GoString FrontMatter}
    {r : FrontMatter × GoString} (h : splitFrontMatter yaml src = .ok r) :
    ∃ text, HasBody src text := by
  by_cases hp : hasPrefix src dashes = true
  · have hclose :
        (findClose true (trimLeft lineBreaks (src.drop dashes.length))).isSome = true := by
      rw [splitFrontMatter, if_pos hp, cutFrontMatter] at h
      cases hfind : findClose true (trimLeft lineBreaks (src.drop dashes.length)) with
      | none =>
        rw [hfind] at h
        cases h
      | some _ => rfl
    obtain ⟨lines, close, hlines, hnl, hclosing, heq⟩ := exists_closeLine hclose
    rcases heq with ⟨text, heq⟩ | heq
    · exact ⟨text, .closed lines close text hp hlines hnl hclosing heq⟩
    · exact ⟨[], .closedAtEnd lines close hp hlines hnl hclosing heq⟩
  · exact ⟨src, .plain (by simpa using hp)⟩

/-! ## Blanks before the blocks -/

/-- The matches with more text before the first. -/
def prependBlocks (ws : GoString) : List Block × GoString → List Block × GoString
  | ([], rest) => ([], ws ++ rest)
  | (b :: bs, rest) => ({ b with before := ws ++ b.before } :: bs, rest)

variable {word ws : GoString}

theorem findTag_append_of_blank (h : ∀ b ∈ ws, isBlank b = true) (s : GoString) :
    findTag word (ws ++ s) = (findTag word s).map fun r => (ws ++ r.1, r.2) := by
  induction ws with
  | nil => exact Option.map_id'.symm
  | cons b ws ih =>
    obtain ⟨hb, hws⟩ := List.forall_mem_cons.mp h
    have hne : b ≠ 0x7B := by
      intro heq
      rw [heq] at hb
      exact absurd hb (by decide)
    rw [List.cons_append, findTag_cons_of_none (stripTag_cons_of_ne hne), ih hws, Option.map_map]
    rfl

theorem findBlock_append_of_blank (h : ∀ b ∈ ws, isBlank b = true) (s : GoString) :
    findBlock word (ws ++ s) =
      (findBlock word s).map fun r => ({ r.1 with before := ws ++ r.1.before }, r.2) := by
  rw [findBlock, findBlock, findTag_append_of_blank h]
  cases findTag word s with
  | none => rfl
  | some r =>
    rw [Option.map_some]
    dsimp only
    cases findTag (utf8 "end" ++ word) r.2.2 <;> rfl

theorem findBlock_nil (word : GoString) : findBlock word [] = none := rfl

/-- As many steps as bytes are enough. -/
theorem blocksN_congr (hw : isTagWord word = true) {m n : Nat} {s : GoString}
    (hm : s.length ≤ m) (hn : s.length ≤ n) : blocksN word m s = blocksN word n s := by
  induction m generalizing n s with
  | zero =>
    obtain rfl := List.length_eq_zero_iff.mp (Nat.le_zero.mp hm)
    cases n with
    | zero => rfl
    | succ n => exact (blocksN_of_none n (findBlock_nil word)).symm
  | succ m ih =>
    cases n with
    | zero =>
      obtain rfl := List.length_eq_zero_iff.mp (Nat.le_zero.mp hn)
      exact blocksN_of_none m (findBlock_nil word)
    | succ n =>
      cases hfind : findBlock word s with
      | none => rw [blocksN_of_none m hfind, blocksN_of_none n hfind]
      | some r =>
        have hlt := length_findBlock hw hfind
        rw [blocksN_of_some m hfind, blocksN_of_some n hfind, ih (n := n) (by omega) (by omega)]

theorem blocks_append_of_blank (hw : isTagWord word = true) (h : ∀ b ∈ ws, isBlank b = true)
    (s : GoString) : blocks word (ws ++ s) = prependBlocks ws (blocks word s) := by
  have hfind : findBlock word (ws ++ s) = _ := findBlock_append_of_blank h s
  have hsteps : ∀ t : GoString, blocks word t = blocksN word (t.length + 1) t :=
    fun t => blocksN_congr hw le_rfl (Nat.le_succ _)
  rw [hsteps, hsteps]
  cases hs : findBlock word s with
  | none =>
    rw [hs] at hfind
    rw [blocksN_of_none _ hs, blocksN_of_none _ hfind]
    rfl
  | some r =>
    obtain ⟨b, rest⟩ := r
    have hlt := length_findBlock hw hs
    rw [hs] at hfind
    rw [blocksN_of_some _ hs, blocksN_of_some _ hfind,
      blocksN_congr hw (m := (ws ++ s).length) (n := s.length) (by simp; omega) hlt.le]
    rfl

theorem map_inner_prependBlocks {α : Type} (f : GoString → α) (ws : GoString)
    (r : List Block × GoString) :
    (prependBlocks ws r).1.map (fun b => f b.inner) = r.1.map fun b => f b.inner := by
  obtain ⟨bs, rest⟩ := r
  cases bs with
  | nil => rfl
  | cons b bs => rfl

theorem replaceBlocks_prependBlocks (ws : GoString) (i : Nat) (r : List Block × GoString) :
    replaceBlocks (prependBlocks ws r).2 i (prependBlocks ws r).1 =
      ws ++ replaceBlocks r.2 i r.1 := by
  obtain ⟨bs, rest⟩ := r
  cases bs with
  | nil => rfl
  | cons b bs => simp [prependBlocks, replaceBlocks]

/-! ## The challenges of a text -/

def quizzesIn (text : GoString) : List Quiz :=
  (blocks quizWord text).1.map fun b => readQuiz b.inner

def exercisesIn (text : GoString) : List GoString :=
  let quizzes := blocks quizWord text
  (blocks exerciseWord (replaceBlocks quizzes.2 0 quizzes.1)).1.map fun b => trimSpace b.inner

/-- The blocks of a source are those of its text. -/
theorem blocks_of_hasBody (h : HasBody src text) :
    quizzesOf src = quizzesIn text ∧ exercisesOf src = exercisesIn text := by
  obtain ⟨ws, hws, rfl⟩ := bodyOf_of_hasBody h
  have hquizzes : blocks quizWord (ws ++ bodyOf src) = _ :=
    blocks_append_of_blank (by decide) hws (bodyOf src)
  refine ⟨?_, ?_⟩
  · rw [quizzesIn, hquizzes, map_inner_prependBlocks]
    rfl
  · rw [exercisesIn, hquizzes, replaceBlocks_prependBlocks, blocks_append_of_blank (by decide) hws,
      map_inner_prependBlocks]
    rfl

/-- The same challenge, and for a quiz the same answers. -/
structure SameChallenge (c c' : Challenge) : Prop where
  hash : c.hash = c'.hash
  name : c.name = c'.name
  value : c.value = c'.value
  flags : hasPrefix c.name (utf8 "quiz-") = true → c.flags = c'.flags

theorem sameChallenge_clearVerify {c c' : Challenge}
    (h : SameChallenge (clearVerify c) (clearVerify c')) : SameChallenge c c' :=
  ⟨h.hash, h.name, h.value, h.flags⟩

theorem sameChallenge_exercise (sha : Sha256) (slug text : GoString)
    (flags flags' : List GoString) :
    SameChallenge (exerciseChallenge sha slug text flags)
      (exerciseChallenge sha slug text flags') := by
  refine ⟨rfl, rfl, rfl, fun hquiz => ?_⟩
  have hprefix : hasPrefix (utf8 "exercise-" ++ shortName text) (utf8 "quiz-") = false := rfl
  rw [exerciseChallenge, hprefix] at hquiz
  cases hquiz

theorem sameChallenge_lessonBlocks (env : Env) (slug salt : GoString)
    (resolver resolver' : Resolver) {src src' : GoString} (h : HasBody src text)
    (h' : HasBody src' text) :
    List.Forall₂ SameChallenge
      ((lessonBlocks env resolver slug src).map (LessonBlock.challenge env.sha salt))
      ((lessonBlocks env resolver' slug src').map (LessonBlock.challenge env.sha salt)) := by
  obtain ⟨hquizzes, hexercises⟩ := blocks_of_hasBody h
  obtain ⟨hquizzes', hexercises'⟩ := blocks_of_hasBody h'
  rw [lessonBlocks, lessonBlocks, hquizzes, hquizzes', hexercises, hexercises', List.map_append,
    List.map_append, List.map_map, List.map_map, List.map_map]
  refine List.rel_append ?_ ?_
  · exact List.forall₂_same.mpr fun _ _ => ⟨rfl, rfl, rfl, fun _ => rfl⟩
  · rw [List.forall₂_map_left_iff, List.forall₂_map_right_iff]
    exact List.forall₂_same.mpr fun _ _ => sameChallenge_exercise env.sha slug _ _ _

/-- Two lessons with the same text behind their front matter that both render register the
same challenges in the same order, and the flags of a quiz are the same. -/
theorem sameChallenge_of_hasBody (env : Env) (slug salt text src src' : GoString)
    (resolver resolver' : Resolver) (l l' : Lesson) (h : HasBody src text)
    (h' : HasBody src' text) (hl : render env slug src salt resolver = .ok l)
    (hl' : render env slug src' salt resolver' = .ok l') :
    List.Forall₂ SameChallenge l.challenges l'.challenges := by
  have hsame := sameChallenge_lessonBlocks env slug salt resolver resolver' h h'
  rw [← render_ok hl, ← render_ok hl', List.forall₂_map_left_iff,
    List.forall₂_map_right_iff] at hsame
  exact hsame.imp fun _ _ => sameChallenge_clearVerify

/-! ## A title -/

def dockerText : GoString := assemble [dockerBlock 0x78 0x20] (utf8 "\n")

theorem hasBody_dockerLesson : HasBody (dockerLesson 0x78 0x20) dockerText :=
  .closed [utf8 "title: Docker"] dashes dockerText (by decide +kernel) (by decide +kernel)
    (by decide +kernel) (by decide +kernel) (by decide +kernel)

theorem sameChallenge_dockerLesson : ∃ l l',
    render dockerEnv (utf8 "docker") (dockerLesson 0x78 0x20) (utf8 "demo-salt") none = .ok l ∧
      render dockerEnv (utf8 "docker") dockerText (utf8 "demo-salt") none = .ok l' ∧
      List.Forall₂ SameChallenge l.challenges l'.challenges := by
  obtain ⟨l, hl, -⟩ : ∃ l, render dockerEnv (utf8 "docker") (dockerLesson 0x78 0x20)
      (utf8 "demo-salt") none = .ok l ∧ l.challenges.length = 1 := ok_of_toOption (by decide +kernel)
  obtain ⟨l', hl', -⟩ : ∃ l, render dockerEnv (utf8 "docker") dockerText (utf8 "demo-salt") none =
      .ok l ∧ l.challenges.length = 1 := ok_of_toOption (by decide +kernel)
  refine ⟨l, l', hl, hl', ?_⟩
  exact sameChallenge_of_hasBody dockerEnv _ _ dockerText _ _ none none l l' hasBody_dockerLesson
    (.plain (by decide +kernel)) hl hl'

end TrainingPlatform.Content
