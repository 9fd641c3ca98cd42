import TrainingPlatform.Content.Render

/-!
# What a lesson registers

The challenges of a rendered lesson in terms of its source: one for every quiz block
and then one for every exercise block, in the order of the text.
-/

namespace TrainingPlatform.Content

open Go Scoring

/-- The source behind a block, with its placeholder for each block. -/
def replaceBlocks (rest : GoString) : Nat → List Block → GoString
  | _, [] => rest
  | i, b :: bs =>
    b.before ++ utf8 "\n" ++ placeholderToken i ++ utf8 "\n" ++ replaceBlocks rest (i + 1) bs

def quizzesOf (src : GoString) : List Quiz :=
  (blocks quizWord (bodyOf src)).1.map fun b => readQuiz b.inner

def exercisesOf (src : GoString) : List GoString :=
  let quizzes := blocks quizWord (bodyOf src)
  (blocks exerciseWord (replaceBlocks quizzes.2 0 quizzes.1)).1.map fun b => trimSpace b.inner

/-- The flags of the exercises of a lesson, which share the front matter. -/
def exerciseFlagsOf (env : Env) (resolver : Resolver) (src : GoString) : List GoString :=
  match splitFrontMatter env.yaml src with
  | .error _ => []
  | .ok (fm, _) => (exerciseFlags fm resolver).toOption.getD []

/-- A block as its author wrote it. -/
inductive LessonBlock where
  | quiz (slug : GoString) (q : Quiz)
  | exercise (slug text : GoString) (flags : List GoString)
  deriving DecidableEq

/-- The string a block's challenge hash is the digest of. -/
def LessonBlock.key : LessonBlock → GoString
  | .quiz slug q => q.text ++ slug
  | .exercise slug text _ => text ++ slug

def LessonBlock.challenge (sha : Sha256) (salt : GoString) : LessonBlock → Challenge
  | .quiz slug q => quizChallenge sha slug salt q
  | .exercise slug text flags => exerciseChallenge sha slug text flags

def lessonBlocks (env : Env) (resolver : Resolver) (slug src : GoString) : List LessonBlock :=
  (quizzesOf src).map (.quiz slug) ++
    (exercisesOf src).map fun text => .exercise slug text (exerciseFlagsOf env resolver src)

theorem LessonBlock.hash_challenge (sha : Sha256) (salt : GoString) (b : LessonBlock) :
    (b.challenge sha salt).hash = sha.hex b.key := by
  cases b <;> rfl

/-- A challenge without what `Render` adds to it behind the blocks. -/
def clearVerify (c : Challenge) : Challenge := { c with verify := none }

theorem extract_ok {f : GoString → Except GoString (GoString × Challenge)} {rest : GoString}
    {i : Nat} {bs : List Block} {r : GoString × List (GoString × Challenge)}
    (h : extract f rest i bs = .ok r) :
    r.1 = replaceBlocks rest i bs ∧ List.Forall₂ (fun b r => f b.inner = .ok r) bs r.2 := by
  induction bs generalizing i r with
  | nil =>
    rw [extract, Except.ok.injEq] at h
    subst h
    exact ⟨rfl, .nil⟩
  | cons b bs ih =>
    rw [extract] at h
    obtain ⟨block, hb, h⟩ := bind_eq_ok.mp h
    obtain ⟨more, hbs, h⟩ := bind_eq_ok.mp h
    obtain ⟨htext, hblocks⟩ := ih hbs
    rw [Except.ok.injEq] at h
    subst h
    exact ⟨by rw [replaceBlocks, htext], .cons hb hblocks⟩

theorem renderQuiz_ok {sha : Sha256} {slug salt inner : GoString} {r : GoString × Challenge}
    (h : renderQuiz sha slug salt inner = .ok r) :
    r.2 = quizChallenge sha slug salt (readQuiz inner) := by
  unfold renderQuiz at h
  dsimp only at h
  split_ifs at h
  rw [Except.ok.injEq] at h
  rw [← h]

theorem renderExercise_ok {sha : Sha256} {fm : FrontMatter} {resolver : Resolver}
    {slug inner : GoString} {r : GoString × Challenge}
    (h : renderExercise sha fm resolver slug inner = .ok r) :
    ∃ flags, exerciseFlags fm resolver = .ok flags ∧
      r.2 = exerciseChallenge sha slug (trimSpace inner) flags := by
  unfold renderExercise at h
  dsimp only at h
  split_ifs at h
  obtain ⟨flags, hflags, h⟩ := bind_eq_ok.mp h
  rw [Except.ok.injEq] at h
  exact ⟨flags, hflags, by rw [← h]⟩

theorem map_of_forall₂ {α β γ : Type} {R : α → β → Prop} {f : α → γ} {g : β → γ}
    (hR : ∀ a b, R a b → g b = f a) {as : List α} {bs : List β} (h : List.Forall₂ R as bs) :
    bs.map g = as.map f := by
  induction h with
  | nil => rfl
  | cons hab _ ih => rw [List.map_cons, List.map_cons, hR _ _ hab, ih]

theorem extractQuizzes_ok {sha : Sha256} {slug salt body : GoString}
    {r : GoString × List (GoString × Challenge)} (h : extractQuizzes sha slug salt body = .ok r) :
    r.1 = replaceBlocks (blocks quizWord body).2 0 (blocks quizWord body).1 ∧
      r.2.map Prod.snd =
        (blocks quizWord body).1.map fun b => quizChallenge sha slug salt (readQuiz b.inner) := by
  obtain ⟨htext, hblocks⟩ := extract_ok (wrapError_eq_ok.mp h)
  refine ⟨htext, map_of_forall₂ (g := Prod.snd) (fun b r hr => ?_) hblocks⟩
  exact renderQuiz_ok hr

theorem extractExercises_ok {sha : Sha256} {fm : FrontMatter} {resolver : Resolver}
    {slug body : GoString} {n : Nat} {r : GoString × List (GoString × Challenge)}
    (h : extractExercises sha fm resolver slug n body = .ok r) :
    r.2.map Prod.snd = (blocks exerciseWord body).1.map fun b =>
      exerciseChallenge sha slug (trimSpace b.inner)
        ((exerciseFlags fm resolver).toOption.getD []) := by
  obtain ⟨-, hblocks⟩ := extract_ok (wrapError_eq_ok.mp h)
  refine map_of_forall₂ (g := Prod.snd) (fun b r hr => ?_) hblocks
  obtain ⟨flags, hflags, hch⟩ := renderExercise_ok hr
  rw [hch, hflags]
  rfl

theorem clearVerify_setVerify (h : GoString) (spec : VerifySpec) (cs : List Challenge) :
    (setVerify h spec cs).map clearVerify = cs.map clearVerify := by
  rw [setVerify, List.map_map]
  refine List.map_congr_left fun c _ => ?_
  rw [Function.comp_apply]
  split_ifs <;> rfl

theorem assertContent_ok {quote : GoString → GoString} {fm : FrontMatter}
    {targets : List (GoString × DemoRouting)} {cs : List Challenge} {rendered : GoString}
    {r : List Challenge × GoString} (h : assertContent quote fm targets cs rendered = .ok r) :
    r.1.map clearVerify = cs.map clearVerify := by
  induction targets generalizing cs rendered with
  | nil =>
    rw [assertContent, Except.ok.injEq] at h
    rw [← h]
  | cons target targets ih =>
    rw [assertContent] at h
    dsimp only at h
    split_ifs at h
    rw [ih h, clearVerify_setVerify]

theorem finish_ok {env : Env} {slug : GoString} {fm : FrontMatter} {body : GoString}
    {quizzes exercises : List (GoString × Challenge)} {l : Lesson}
    (h : finish env slug fm body quizzes exercises = .ok l) :
    l.challenges.map clearVerify = ((quizzes ++ exercises).map Prod.snd).map clearVerify := by
  unfold finish at h
  dsimp only at h
  generalize pairDemoLinks _ _ = page at h
  obtain ⟨_, -, h⟩ := bind_eq_ok.mp h
  split_ifs at h
  · obtain ⟨r, hassert, h⟩ := bind_eq_ok.mp h
    rw [Except.ok.injEq] at h
    rw [← h]
    exact assertContent_ok hassert
  · rw [Except.ok.injEq] at h
    rw [← h]

theorem bodyOf_eq {yaml : GoString → Except GoString FrontMatter} {src : GoString}
    {r : FrontMatter × GoString} (h : splitFrontMatter yaml src = .ok r) : bodyOf src = r.2 := by
  unfold splitFrontMatter at h
  unfold bodyOf
  by_cases hp : hasPrefix src dashes = true
  · rw [if_pos hp] at h ⊢
    cases hcut : cutFrontMatter src with
    | none => simp [hcut] at h
    | some cut =>
      rw [hcut] at h
      obtain ⟨fm, -, h⟩ := bind_eq_ok.mp h
      rw [Except.ok.injEq] at h
      rw [← h]
  · rw [if_neg hp, Except.ok.injEq] at h
    rw [if_neg hp, ← h]

/-- A rendered lesson registers its blocks, quizzes first. -/
theorem render_ok {env : Env} {slug src salt : GoString} {resolver : Resolver} {l : Lesson}
    (h : render env slug src salt resolver = .ok l) :
    l.challenges.map clearVerify =
      (lessonBlocks env resolver slug src).map (LessonBlock.challenge env.sha salt) := by
  unfold render at h
  obtain ⟨⟨fm, body⟩, hsplit, h⟩ := bind_eq_ok.mp h
  obtain ⟨_, -, h⟩ := bind_eq_ok.mp h
  obtain ⟨qs, hquizzes, h⟩ := bind_eq_ok.mp h
  obtain ⟨es, hexercises, h⟩ := bind_eq_ok.mp h
  have hbody : bodyOf src = body := bodyOf_eq hsplit
  have hflags : exerciseFlagsOf env resolver src =
      (exerciseFlags fm resolver).toOption.getD [] := by
    rw [exerciseFlagsOf, hsplit]
  obtain ⟨htext, hqs⟩ := extractQuizzes_ok hquizzes
  have hes := extractExercises_ok hexercises
  rw [finish_ok h, List.map_append, hqs, hes, htext, lessonBlocks, quizzesOf, exercisesOf, hbody,
    hflags]
  simp only [List.map_append, List.map_map]
  rfl

end TrainingPlatform.Content
