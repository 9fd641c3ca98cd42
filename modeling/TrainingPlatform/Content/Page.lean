import TrainingPlatform.Content.Registered

/-!
# The page of a lesson

The stages of a page in terms of the source: the body with a placeholder for each block,
the page with the blocks put back, the page with the demo links paired.  What a lesson
that renders is made of is said once here.
-/

namespace TrainingPlatform.Content

open Go Scoring

/-- Asserts content of the result page. -/
def FrontMatter.asserts (fm : FrontMatter) : Bool :=
  fm.exerciseExpect ≠ [] || fm.exerciseExpectRegex ≠ []

/-- The front matter of a source that has a readable one. -/
def frontMatterOf (env : Env) (src : GoString) : FrontMatter :=
  match splitFrontMatter env.yaml src with
  | .ok r => r.1
  | .error _ => {}

/-- The body as it goes to the Markdown renderer. -/
def placeholderBody (src : GoString) : GoString :=
  let quizzes := blocks quizWord (bodyOf src)
  let exercises := blocks exerciseWord (replaceBlocks quizzes.2 0 quizzes.1)
  replaceBlocks exercises.2 quizzes.1.length exercises.1

/-- The HTML of each block, in the order of the placeholders. -/
def blockHtml (env : Env) (slug src salt : GoString) : List GoString :=
  (quizzesOf src).map (fun q => quizHtml env.sha salt (challengeHash env.sha q.text slug) q) ++
    (exercisesOf src).map fun text => exerciseHtml (challengeHash env.sha text slug) text

def exerciseHashesOf (sha : Sha256) (slug src : GoString) : List GoString :=
  (exercisesOf src).map fun text => challengeHash sha text slug

/-- The rendered body with every block put back. -/
def blockPage (env : Env) (slug src salt : GoString) : GoString :=
  substitute 0 (blockHtml env slug src salt) (renderMarkdown (placeholderBody src))

/-- The page whose buttons have adopted the authored demo links, and their routings. -/
def demoPage (env : Env) (slug src salt : GoString) : GoString × List DemoRouting :=
  pairDemoLinks (blockPage env slug src salt) (exerciseHashesOf env.sha slug src)

/-- The challenges before `Render` records what it asserts. -/
def blockChallenges (env : Env) (resolver : Resolver) (slug src salt : GoString) :
    List Challenge :=
  (lessonBlocks env resolver slug src).map (LessonBlock.challenge env.sha salt)

/-- The exercises with the routings of their buttons. -/
def demoTargets (env : Env) (slug src salt : GoString) : List (GoString × DemoRouting) :=
  (exerciseHashesOf env.sha slug src).zip (demoPage env slug src salt).2

/-- What a lesson that renders is made of. -/
structure Rendered (env : Env) (resolver : Resolver) (slug src salt : GoString) (l : Lesson) :
    Prop where
  split : splitFrontMatter env.yaml src = .ok (l.frontMatter, bodyOf src)
  terminals : l.frontMatter.validateTerminals = .ok ()
  quizzes : ∀ q ∈ quizzesOf src, q.text ≠ [] ∧ q.choices ≠ []
  exercises : ∀ text ∈ exercisesOf src, text ≠ [] ∧
    exerciseFlags l.frontMatter resolver = .ok (exerciseFlagsOf env resolver src)
  refs : checkTermRefs (demoPage env slug src salt).1 l.frontMatter.terminals = .ok ()
  plain : l.frontMatter.asserts = false →
    l.html = layout env l.frontMatter (demoPage env slug src salt).1 ∧
      l.challenges = blockChallenges env resolver slug src salt
  asserting : l.frontMatter.asserts = true → ∃ r,
    assertContent env.quote l.frontMatter (demoTargets env slug src salt)
        (blockChallenges env resolver slug src salt) (demoPage env slug src salt).1 = .ok r ∧
      l.html = layout env l.frontMatter r.2 ∧ l.challenges = r.1

theorem Rendered.frontMatter_eq {env : Env} {slug src salt : GoString} {resolver : Resolver}
    {l : Lesson} (h : Rendered env resolver slug src salt l) :
    l.frontMatter = frontMatterOf env src := by
  rw [frontMatterOf, h.split]

/-! ## Blocks that render -/

theorem renderQuiz_eq_ok {sha : Sha256} {slug salt inner : GoString} {r : GoString × Challenge}
    (h : renderQuiz sha slug salt inner = .ok r) :
    ((readQuiz inner).text ≠ [] ∧ (readQuiz inner).choices ≠ []) ∧
      r.1 = quizHtml sha salt (challengeHash sha (readQuiz inner).text slug) (readQuiz inner) := by
  unfold renderQuiz at h
  dsimp only at h
  split_ifs at h with hempty
  rw [not_or] at hempty
  rw [Except.ok.injEq] at h
  exact ⟨hempty, by rw [← h]⟩

theorem renderExercise_eq_ok {sha : Sha256} {fm : FrontMatter} {resolver : Resolver}
    {slug inner : GoString} {r : GoString × Challenge}
    (h : renderExercise sha fm resolver slug inner = .ok r) :
    (trimSpace inner ≠ [] ∧
        exerciseFlags fm resolver = .ok ((exerciseFlags fm resolver).toOption.getD [])) ∧
      r.1 = exerciseHtml (challengeHash sha (trimSpace inner) slug) (trimSpace inner) := by
  unfold renderExercise at h
  dsimp only at h
  split_ifs at h with hempty
  obtain ⟨flags, hflags, h⟩ := bind_eq_ok.mp h
  rw [Except.ok.injEq] at h
  exact ⟨⟨hempty, by rw [hflags]; rfl⟩, by rw [← h]⟩

theorem forall_of_forall₂ {α β : Type} {R : α → β → Prop} {P : α → Prop}
    (hR : ∀ a b, R a b → P a) {as : List α} {bs : List β} (h : List.Forall₂ R as bs) :
    ∀ a ∈ as, P a := by
  induction h with
  | nil => exact fun a ha => (List.not_mem_nil ha).elim
  | cons hab _ ih => exact List.forall_mem_cons.mpr ⟨hR _ _ hab, ih⟩

/-- What `finish` is given of the blocks, in terms of the source. -/
structure Extracted (env : Env) (slug src salt : GoString) (resolver : Resolver)
    (body : GoString) (quizzes exercises : List (GoString × Challenge)) : Prop where
  body : body = placeholderBody src
  html : (quizzes ++ exercises).map Prod.fst = blockHtml env slug src salt
  challenges : (quizzes ++ exercises).map Prod.snd = blockChallenges env resolver slug src salt
  hashes : exercises.map (fun e => e.2.hash) = exerciseHashesOf env.sha slug src

theorem extracted_of_ok {env : Env} {slug src salt : GoString} {resolver : Resolver}
    {fm : FrontMatter} {qs es : GoString × List (GoString × Challenge)}
    (hsplit : splitFrontMatter env.yaml src = .ok (fm, bodyOf src))
    (hqs : extractQuizzes env.sha slug salt (bodyOf src) = .ok qs)
    (hes : extractExercises env.sha fm resolver slug qs.2.length qs.1 = .ok es) :
    Extracted env slug src salt resolver es.1 qs.2 es.2 ∧
      (∀ q ∈ quizzesOf src, q.text ≠ [] ∧ q.choices ≠ []) ∧
      ∀ text ∈ exercisesOf src, text ≠ [] ∧
        exerciseFlags fm resolver = .ok (exerciseFlagsOf env resolver src) := by
  have hflags : exerciseFlagsOf env resolver src =
      (exerciseFlags fm resolver).toOption.getD [] := by
    rw [exerciseFlagsOf, hsplit]
  obtain ⟨hqbody, hqblocks⟩ := extract_ok (wrapError_eq_ok.mp hqs)
  obtain ⟨hebody, heblocks⟩ := extract_ok (wrapError_eq_ok.mp hes)
  have hqch := (extractQuizzes_ok hqs).2
  have hech := extractExercises_ok hes
  have hqhtml : qs.2.map Prod.fst = (blocks quizWord (bodyOf src)).1.map fun b =>
      quizHtml env.sha salt (challengeHash env.sha (readQuiz b.inner).text slug)
        (readQuiz b.inner) := by
    refine map_of_forall₂ (g := Prod.fst) (fun b r hr => ?_) hqblocks
    exact (renderQuiz_eq_ok hr).2
  have hehtml : es.2.map Prod.fst = (blocks exerciseWord qs.1).1.map fun b =>
      exerciseHtml (challengeHash env.sha (trimSpace b.inner) slug) (trimSpace b.inner) := by
    refine map_of_forall₂ (g := Prod.fst) (fun b r hr => ?_) heblocks
    exact (renderExercise_eq_ok hr).2
  have hqs' : ∀ b ∈ (blocks quizWord (bodyOf src)).1,
      (readQuiz b.inner).text ≠ [] ∧ (readQuiz b.inner).choices ≠ [] := by
    refine forall_of_forall₂ (fun b r hr => ?_) hqblocks
    exact (renderQuiz_eq_ok hr).1
  have hes' : ∀ b ∈ (blocks exerciseWord qs.1).1, trimSpace b.inner ≠ [] ∧
      exerciseFlags fm resolver = .ok ((exerciseFlags fm resolver).toOption.getD []) := by
    refine forall_of_forall₂ (fun b r hr => ?_) heblocks
    exact (renderExercise_eq_ok hr).1
  rw [hqbody] at hehtml hech hebody hes'
  refine ⟨⟨?_, ?_, ?_, ?_⟩, ?_, ?_⟩
  · rw [hebody, placeholderBody, hqblocks.length_eq]
  · rw [List.map_append, hqhtml, hehtml, blockHtml, quizzesOf, exercisesOf, List.map_map,
      List.map_map]
    rfl
  · rw [List.map_append, hqch, hech, blockChallenges, lessonBlocks, quizzesOf, exercisesOf, hflags]
    simp only [List.map_append, List.map_map]
    rfl
  · have hmap : es.2.map (fun e => e.2.hash) = (es.2.map Prod.snd).map Challenge.hash := by
      rw [List.map_map]
      rfl
    rw [hmap, hech, exerciseHashesOf, exercisesOf, List.map_map, List.map_map]
    rfl
  · rw [quizzesOf, List.forall_mem_map]
    exact hqs'
  · rw [exercisesOf, List.forall_mem_map, hflags]
    exact hes'

/-- Everything `Render` has found out about a lesson it returns. -/
theorem render_page {env : Env} {slug src salt : GoString} {resolver : Resolver} {l : Lesson}
    (h : render env slug src salt resolver = .ok l) : Rendered env resolver slug src salt l := by
  unfold render at h
  obtain ⟨⟨fm, body⟩, hsplit, h⟩ := bind_eq_ok.mp h
  obtain ⟨_, hterminals, h⟩ := bind_eq_ok.mp h
  obtain ⟨qs, hqs, h⟩ := bind_eq_ok.mp h
  obtain ⟨es, hes, hfinish⟩ := bind_eq_ok.mp h
  have hbody : body = bodyOf src := (bodyOf_eq hsplit).symm
  rw [hbody] at hsplit hqs
  obtain ⟨hex, hquizzes, hexercises⟩ := extracted_of_ok hsplit hqs hes
  unfold finish at hfinish
  dsimp only at hfinish
  rw [hex.html, hex.body, hex.challenges, hex.hashes] at hfinish
  obtain ⟨_, hrefs, h⟩ := bind_eq_ok.mp hfinish
  have hasserts : (fm.exerciseExpect ≠ [] ∨ fm.exerciseExpectRegex ≠ []) ↔ fm.asserts = true := by
    simp [FrontMatter.asserts]
  by_cases ha : fm.asserts = true
  · rw [if_pos (hasserts.mpr ha)] at h
    obtain ⟨r, hr, h⟩ := bind_eq_ok.mp h
    rw [Except.ok.injEq] at h
    subst h
    refine ⟨hsplit, hterminals, hquizzes, hexercises, hrefs, fun hno => ?_, fun _ => ?_⟩
    · rw [ha] at hno
      cases hno
    · exact ⟨r, hr, rfl, rfl⟩
  · rw [if_neg fun hor => ha (hasserts.mp hor), Except.ok.injEq] at h
    subst h
    exact ⟨hsplit, hterminals, hquizzes, hexercises, hrefs, fun _ => ⟨rfl, rfl⟩,
      fun hyes => absurd hyes ha⟩

end TrainingPlatform.Content
