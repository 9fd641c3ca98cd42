import TrainingPlatform.Content.Page
import TrainingPlatform.Content.SamePage
import TrainingPlatform.Scoring.Phash

/-!
# Challenges that can be solved

What the store, the grader and the fetcher ask of a challenge before any submission can
solve it, against what `Render` has checked when it registers the challenge.
-/

namespace TrainingPlatform.Content

open Go Scoring

/-- Any store that holds the challenge grades the submission correct. -/
def GradesCorrect (c : Challenge) (submitted : GoString) : Prop :=
  ∀ (s : Store) (userID : GoString), s.get c.hash = some c →
    (s.grade c.hash submitted userID).correct = true

/-- Some submission is graded correct: a choice of a quiz, the capture of an exercise. -/
def LessonBlock.Graded (sha : Sha256) (salt : GoString) (c : Challenge) : LessonBlock → Prop
  | .quiz _ q => ∃ choice ∈ q.choices, GradesCorrect c (flagHash sha choice.text salt)
  | .exercise _ _ _ => ∃ flag ∈ c.flags, ∃ hash threshold,
    parsePhashFlag flag defaultPhashThreshold = some (hash, threshold) ∧ 0 ≤ threshold

/-- A block with the challenge it has registered. -/
structure Solvable (regexp : Regexp) (sha : Sha256) (salt : GoString) (b : LessonBlock)
    (c : Challenge) : Prop where
  graded : b.Graded sha salt c
  verified : ∀ v, c.verify = some v →
    1 ≤ v.port ∧ v.port ≤ 65535 ∧ ∃ body, v.matches regexp body = true

/-- The routing recorded for a hash: the one of the last exercise that has it. -/
def lastTarget : List (GoString × DemoRouting) → GoString → Option DemoRouting
  | [], _ => none
  | (k, r) :: ts, h => (lastTarget ts h).or (if k = h then some r else none)

/-- The build could tell that every challenge can be solved. -/
structure Gradable (env : Env) (regexp : Regexp) (slug src salt : GoString) : Prop where
  marked : ∀ q ∈ quizzesOf src, q.marked ≠ []
  phash : exercisesOf src ≠ [] → (frontMatterOf env src).exercisePhash ≠ [] →
    ∃ hash threshold, parsePhashFlag (frontMatterOf env src).exercisePhash defaultPhashThreshold =
      some (hash, threshold) ∧ 0 ≤ threshold
  ports : (frontMatterOf env src).asserts = true → ∀ h r,
    lastTarget (demoTargets env slug src salt) h = some r →
      1 ≤ (atoi r.port).1 ∧ (atoi r.port).1 ≤ 65535
  assertion : (frontMatterOf env src).asserts = true → exercisesOf src ≠ [] →
    (frontMatterOf env src).exerciseExpect ≠ [] ∨
      ∃ re body, regexp (frontMatterOf env src).exerciseExpectRegex = some re ∧ re body = true

/-! ## What is recorded -/

def verifySpec (fm : FrontMatter) (r : DemoRouting) : VerifySpec :=
  ⟨(atoi r.port).1, r.path, fm.exerciseExpect, fm.exerciseExpectRegex⟩

def recordTarget (fm : FrontMatter) (targets : List (GoString × DemoRouting)) (c : Challenge) :
    Challenge :=
  match lastTarget targets c.hash with
  | some r => { c with verify := some (verifySpec fm r) }
  | none => c

/-- The challenge as `Render` leaves it. -/
def finalChallenge (fm : FrontMatter) (targets : List (GoString × DemoRouting)) (c : Challenge) :
    Challenge :=
  if fm.asserts then recordTarget fm targets c else c

theorem assertContent_challenges {quote : GoString → GoString} {fm : FrontMatter}
    {targets : List (GoString × DemoRouting)} {cs : List Challenge} {rendered : GoString}
    {r : List Challenge × GoString} (h : assertContent quote fm targets cs rendered = .ok r) :
    r.1 = cs.map (recordTarget fm targets) := by
  induction targets generalizing cs rendered with
  | nil =>
    rw [assertContent, Except.ok.injEq] at h
    subst h
    exact (List.map_id' cs).symm
  | cons target targets ih =>
    obtain ⟨k, routing⟩ := target
    rw [assertContent] at h
    dsimp only at h
    split_ifs at h
    rw [ih h, setVerify, List.map_map]
    refine List.map_congr_left fun c _ => ?_
    rw [Function.comp_apply]
    unfold recordTarget
    by_cases hk : c.hash = k
    · subst hk
      rw [if_pos rfl, lastTarget, if_pos rfl]
      cases lastTarget targets c.hash <;> rfl
    · rw [if_neg hk, lastTarget, if_neg (Ne.symm hk), Option.or_none]

/-- The challenges of a lesson, each with what has been recorded for it. -/
theorem challenges_of_rendered {env : Env} {slug src salt : GoString} {resolver : Resolver}
    {l : Lesson} (h : Rendered env resolver slug src salt l) :
    l.challenges = (blockChallenges env resolver slug src salt).map
      (finalChallenge l.frontMatter (demoTargets env slug src salt)) := by
  unfold finalChallenge
  cases ha : l.frontMatter.asserts with
  | false =>
    rw [(h.plain ha).2]
    exact (List.map_id' _).symm
  | true =>
    obtain ⟨r, hr, -, hch⟩ := h.asserting ha
    rw [hch, assertContent_challenges hr]
    rfl

theorem finalChallenge_hash (fm : FrontMatter) (targets : List (GoString × DemoRouting))
    (c : Challenge) : (finalChallenge fm targets c).hash = c.hash := by
  unfold finalChallenge recordTarget
  split
  · split <;> rfl
  · rfl

theorem finalChallenge_flags (fm : FrontMatter) (targets : List (GoString × DemoRouting))
    (c : Challenge) : (finalChallenge fm targets c).flags = c.flags := by
  unfold finalChallenge recordTarget
  split
  · split <;> rfl
  · rfl

theorem finalChallenge_verify {fm : FrontMatter} {targets : List (GoString × DemoRouting)}
    {c : Challenge} {v : VerifySpec} (hc : c.verify = none) :
    (finalChallenge fm targets c).verify = some v ↔
      fm.asserts = true ∧ ∃ r, lastTarget targets c.hash = some r ∧ v = verifySpec fm r := by
  unfold finalChallenge recordTarget
  cases fm.asserts with
  | false => simp [hc]
  | true =>
    cases lastTarget targets c.hash with
    | none => simp [hc]
    | some r => simp [eq_comm]

theorem lastTarget_isSome {targets : List (GoString × DemoRouting)} {h : GoString} :
    (lastTarget targets h).isSome = true ↔ h ∈ targets.map Prod.fst := by
  induction targets with
  | nil => simp [lastTarget]
  | cons target targets ih =>
    obtain ⟨k, r⟩ := target
    rw [lastTarget, Option.isSome_or, Bool.or_eq_true, ih, List.map_cons, List.mem_cons, or_comm]
    by_cases hk : k = h
    · simp [hk]
    · simp [hk, Ne.symm hk]

theorem length_pairTags (tags hashes : List GoString) (out : GoString) :
    (pairTags tags hashes out).2.length = hashes.length := by
  induction tags generalizing hashes out with
  | nil => simp [pairTags]
  | cons tag tags ih =>
    cases hashes with
    | nil => rfl
    | cons h hashes =>
      rw [pairTags]
      split_ifs
      · exact congrArg Nat.succ (ih hashes _)
      · exact ih (h :: hashes) out

theorem map_fst_demoTargets (env : Env) (slug src salt : GoString) :
    (demoTargets env slug src salt).map Prod.fst = exerciseHashesOf env.sha slug src := by
  have hlen : (demoPage env slug src salt).2.length = (exerciseHashesOf env.sha slug src).length :=
    length_pairTags _ _ _
  rw [demoTargets, List.map_fst_zip (le_of_eq hlen.symm)]

/-! ## One block -/

variable {env : Env} {slug src salt : GoString} {sha : Sha256} {regexp : Regexp}

theorem gradesCorrect_iff {c : Challenge} {submitted : GoString}
    (hs : isPhashFlag submitted = false) : GradesCorrect c submitted ↔ submitted ∈ c.flags := by
  constructor
  · intro h
    have hget : ((Store.newStore none).put c).get c.hash = some c := by
      rw [Store.get_put, if_pos rfl]
    have hcorrect := h ((Store.newStore none).put c) [] hget
    by_contra hmem
    have hno : ∀ d, ((Store.newStore none).put c).get c.hash = some d →
        ¬ ∃ flag ∈ d.flags, Store.FlagAccepts none flag submitted := by
      intro d hd haccepts
      rw [hget, Option.some.injEq] at hd
      subst hd
      obtain ⟨flag, hflag, haccept⟩ := haccepts
      unfold Store.FlagAccepts at haccept
      split_ifs at haccept
      · obtain ⟨g, hg, -⟩ := haccept
        cases hg
      · exact hmem (haccept ▸ hflag)
    rw [(Store.grade_of_not_accepts hno []).2] at hcorrect
    cases hcorrect
  · intro hmem s userID hget
    have haccept : Store.FlagAccepts s.phashGrade submitted submitted := by
      unfold Store.FlagAccepts
      rw [if_neg (by rw [hs]; exact Bool.false_ne_true)]
    rw [Store.grade_of_accepts hget ⟨submitted, hmem, haccept⟩]

/-- A quiz can be answered exactly when a choice is marked. -/
theorem graded_quiz {q : Quiz} {c : Challenge}
    (hflags : c.flags = (quizChallenge sha slug salt q).flags) :
    (LessonBlock.quiz slug q).Graded sha salt c ↔ q.marked ≠ [] := by
  have hphash : ∀ t, isPhashFlag (flagHash sha t salt) = false := fun t => isPhashFlag_hex sha _
  constructor
  · rintro ⟨choice, -, hgrade⟩ hnone
    rw [gradesCorrect_iff (hphash _), hflags, quizChallenge, hnone] at hgrade
    exact List.not_mem_nil hgrade
  · intro hne
    obtain ⟨t, ht⟩ := List.exists_mem_of_ne_nil _ hne
    obtain ⟨choice, hchoice, htext⟩ := List.mem_map.mp ht
    refine ⟨choice, (List.mem_filter.mp hchoice).1, ?_⟩
    rw [gradesCorrect_iff (hphash _), hflags, htext]
    exact List.mem_map_of_mem ht

/-- A specification holds of some page when it asks for a text, or for an expression that
compiles and matches something. -/
theorem satisfiable_verifySpec {fm : FrontMatter} (ha : fm.asserts = true) (r : DemoRouting) :
    (∃ body, (verifySpec fm r).matches regexp body = true) ↔
      fm.exerciseExpect ≠ [] ∨
        ∃ re body, regexp fm.exerciseExpectRegex = some re ∧ re body = true := by
  unfold VerifySpec.matches verifySpec
  by_cases he : fm.exerciseExpect = []
  · have hregex : fm.exerciseExpectRegex ≠ [] := by
      simpa [FrontMatter.asserts, he] using ha
    simp only [he, ne_eq, not_true_eq_false, if_false, hregex, not_false_eq_true, if_true, false_or]
    cases regexp fm.exerciseExpectRegex with
    | none => simp
    | some re => simp
  · refine iff_of_true ⟨fm.exerciseExpect, ?_⟩ (.inl he)
    rw [if_pos he]
    exact decide_eq_true List.infix_rfl

/-- What the resolver and the front matter give an exercise is a flag the grader reads. -/
theorem graded_exercise {fm : FrontMatter} {resolve : GoString → Int → Except GoString GoString}
    (hresolve : ∀ ref thr flag, resolve ref thr = .ok flag →
      ∃ hash t : Nat, hash < 2 ^ 64 ∧ t < 2 ^ 63 ∧ flag = phashFlag hash t)
    {flags : List GoString} (hflags : exerciseFlags fm (some resolve) = .ok flags) {c : Challenge}
    (hc : c.flags = flags) {text : GoString} :
    (LessonBlock.exercise slug text flags).Graded sha salt c ↔
      (fm.exercisePhash ≠ [] → ∃ hash threshold,
        parsePhashFlag fm.exercisePhash defaultPhashThreshold = some (hash, threshold) ∧
          0 ≤ threshold) := by
  unfold exerciseFlags at hflags
  rw [LessonBlock.Graded, hc]
  by_cases hp : fm.exercisePhash = []
  · rw [if_neg (not_not.mpr hp)] at hflags
    obtain ⟨flag, hflag, h⟩ := bind_eq_ok.mp hflags
    obtain ⟨hash, t, hhash, ht, rfl⟩ := hresolve _ _ _ (wrapError_eq_ok.mp hflag)
    rw [Except.ok.injEq] at h
    subst h
    refine iff_of_true ⟨_, List.mem_singleton_self _, hash, t, ?_, Int.natCast_nonneg t⟩
      fun hne => absurd hp hne
    exact parsePhashFlag_phashFlag hhash (by omega) (by omega) _
  · rw [if_pos hp, Except.ok.injEq] at hflags
    subst hflags
    simp only [List.mem_singleton, exists_eq_left]
    exact ⟨fun h _ => h, fun h => h hp⟩

/-! ## A lesson -/

theorem verified_iff {fm : FrontMatter} {targets : List (GoString × DemoRouting)} {c : Challenge}
    (hc : c.verify = none) :
    (∀ v, (finalChallenge fm targets c).verify = some v →
        1 ≤ v.port ∧ v.port ≤ 65535 ∧ ∃ body, v.matches regexp body = true) ↔
      (fm.asserts = true → ∀ r, lastTarget targets c.hash = some r →
        (1 ≤ (atoi r.port).1 ∧ (atoi r.port).1 ≤ 65535) ∧
          (fm.exerciseExpect ≠ [] ∨
            ∃ re body, regexp fm.exerciseExpectRegex = some re ∧ re body = true)) := by
  constructor
  · intro h ha r hr
    have hv := h (verifySpec fm r) ((finalChallenge_verify hc).mpr ⟨ha, r, hr, rfl⟩)
    exact ⟨⟨hv.1, hv.2.1⟩, (satisfiable_verifySpec ha r).mp hv.2.2⟩
  · intro h v hv
    obtain ⟨ha, r, hr, rfl⟩ := (finalChallenge_verify hc).mp hv
    obtain ⟨hport, hbody⟩ := h ha r hr
    exact ⟨hport.1, hport.2, (satisfiable_verifySpec ha r).mpr hbody⟩

theorem verify_challenge (salt : GoString) (b : LessonBlock) :
    (b.challenge sha salt).verify = none := by
  cases b <;> rfl

/-- The hashes with a routing are those of the exercises. -/
theorem hash_of_lastTarget {h : GoString} {r : DemoRouting}
    (hr : lastTarget (demoTargets env slug src salt) h = some r) :
    ∃ text ∈ exercisesOf src, challengeHash env.sha text slug = h := by
  have hmem : h ∈ (demoTargets env slug src salt).map Prod.fst :=
    lastTarget_isSome.mp (by rw [hr]; rfl)
  rw [map_fst_demoTargets] at hmem
  exact List.mem_map.mp hmem

theorem lastTarget_of_exercise (env : Env) (slug salt : GoString) {text : GoString}
    (htext : text ∈ exercisesOf src) :
    ∃ r, lastTarget (demoTargets env slug src salt) (challengeHash env.sha text slug) = some r := by
  refine Option.isSome_iff_exists.mp (lastTarget_isSome.mpr ?_)
  rw [map_fst_demoTargets]
  exact List.mem_map_of_mem htext

/-- Every challenge of a rendered lesson can be solved exactly when each quiz marks a
choice, the hash the front matter gives is one, and what it asserts can hold of a page
that can be fetched. -/
theorem solvable_iff_gradable {resolve : GoString → Int → Except GoString GoString} {l : Lesson}
    (regexp : Regexp)
    (hresolve : ∀ ref thr flag, resolve ref thr = .ok flag →
      ∃ hash t : Nat, hash < 2 ^ 64 ∧ t < 2 ^ 63 ∧ flag = phashFlag hash t)
    (h : render env slug src salt (some resolve) = .ok l) :
    List.Forall₂ (Solvable regexp env.sha salt) (lessonBlocks env (some resolve) slug src)
        l.challenges ↔
      Gradable env regexp slug src salt := by
  have hpage := render_page h
  have hfm := hpage.frontMatter_eq
  rw [challenges_of_rendered hpage, blockChallenges, List.forall₂_map_right_iff,
    List.forall₂_map_right_iff, List.forall₂_same, hfm]
  have hexercises := hpage.exercises
  rw [hfm] at hexercises
  have hexercise : ∀ text ∈ exercisesOf src,
      .exercise slug text (exerciseFlagsOf env (some resolve) src) ∈
        lessonBlocks env (some resolve) slug src :=
    fun text htext => List.mem_append_right _ (List.mem_map_of_mem htext)
  constructor
  · intro hall
    have hverified : ∀ text ∈ exercisesOf src, _ := fun text htext =>
      (verified_iff (verify_challenge salt _)).mp (hall _ (hexercise text htext)).verified
    refine ⟨fun q hq => ?_, fun hne => ?_, fun ha h r hr => ?_, fun ha hne => ?_⟩
    · have hb := hall (.quiz slug q) (List.mem_append_left _ (List.mem_map_of_mem hq))
      exact (graded_quiz (finalChallenge_flags _ _ _)).mp hb.graded
    · obtain ⟨text, htext⟩ := List.exists_mem_of_ne_nil _ hne
      exact (graded_exercise hresolve (hexercises text htext).2 (finalChallenge_flags _ _ _)).mp
        (hall _ (hexercise text htext)).graded
    · obtain ⟨text, htext, rfl⟩ := hash_of_lastTarget hr
      exact (hverified text htext ha r hr).1
    · obtain ⟨text, htext⟩ := List.exists_mem_of_ne_nil _ hne
      obtain ⟨r, hr⟩ := lastTarget_of_exercise env slug salt htext
      exact (hverified text htext ha r hr).2
  · intro hgradable b hb
    have hgraded : b.Graded env.sha salt (finalChallenge (frontMatterOf env src)
        (demoTargets env slug src salt) (b.challenge env.sha salt)) := by
      rcases List.mem_append.mp hb with hb | hb
      · obtain ⟨q, hq, rfl⟩ := List.mem_map.mp hb
        exact (graded_quiz (finalChallenge_flags _ _ _)).mpr (hgradable.marked q hq)
      · obtain ⟨text, htext, rfl⟩ := List.mem_map.mp hb
        exact (graded_exercise hresolve (hexercises text htext).2
          (finalChallenge_flags _ _ _)).mpr (hgradable.phash (List.ne_nil_of_mem htext))
    refine ⟨hgraded, (verified_iff (verify_challenge salt b)).mpr fun ha r hr => ?_⟩
    obtain ⟨text, htext, -⟩ := hash_of_lastTarget hr
    exact ⟨hgradable.ports ha _ r hr, hgradable.assertion ha (List.ne_nil_of_mem htext)⟩

/-! ## A quiz without a mark -/

/-- A resolver with one reference page. -/
def resolveBlack : GoString → Int → Except GoString GoString := fun _ _ => .ok (phashFlag 0 12)

theorem resolveBlack_phash (ref : GoString) (thr : Int) (flag : GoString)
    (h : resolveBlack ref thr = .ok flag) :
    ∃ hash t : Nat, hash < 2 ^ 64 ∧ t < 2 ^ 63 ∧ flag = phashFlag hash t :=
  ⟨0, 12, by decide, by decide, (Except.ok.inj h).symm⟩

/-- A quiz and an exercise, whose flag the resolver finds. -/
def nginxLesson : GoString :=
  dockerLesson 0x78 0x20 ++ utf8 "\x7b% exercise %\x7d\nStart nginx.\n\x7b% endexercise %\x7d\n"

theorem solvable_nginxLesson : ∃ l,
    render dockerEnv (utf8 "docker") nginxLesson (utf8 "demo-salt") (some resolveBlack) = .ok l ∧
      l.challenges.map Challenge.flags =
        [[flagHash dockerSha (utf8 "docker ps") (utf8 "demo-salt")], [phashFlag 0 12]] ∧
      List.Forall₂ (Solvable (fun _ => none) dockerSha (utf8 "demo-salt"))
        (lessonBlocks dockerEnv (some resolveBlack) (utf8 "docker") nginxLesson) l.challenges := by
  have hrender : ∃ l, render dockerEnv (utf8 "docker") nginxLesson (utf8 "demo-salt")
      (some resolveBlack) = .ok l ∧ l.challenges.map Challenge.flags =
        [[flagHash dockerSha (utf8 "docker ps") (utf8 "demo-salt")], [phashFlag 0 12]] :=
    ok_of_toOption (by decide +kernel)
  obtain ⟨l, hl, hflags⟩ := hrender
  refine ⟨l, hl, hflags, (solvable_iff_gradable (fun _ => none) resolveBlack_phash hl).mpr ?_⟩
  have hasserts : (frontMatterOf dockerEnv nginxLesson).asserts = false := by decide +kernel
  have hphash : (frontMatterOf dockerEnv nginxLesson).exercisePhash = [] := by decide +kernel
  refine ⟨by decide +kernel, fun _ hne => absurd hphash hne, fun ha => ?_, fun ha => ?_⟩
  · rw [hasserts] at ha
    cases ha
  · rw [hasserts] at ha
    cases ha

/-- The lesson with neither choice marked renders, and nothing answers its quiz. -/
theorem not_solvable_dockerLesson : ∃ l,
    render dockerEnv (utf8 "docker") (dockerLesson 0x20 0x20) (utf8 "demo-salt")
        (some resolveBlack) = .ok l ∧
      ¬ List.Forall₂ (Solvable (fun _ => none) dockerSha (utf8 "demo-salt"))
          (lessonBlocks dockerEnv (some resolveBlack) (utf8 "docker") (dockerLesson 0x20 0x20))
          l.challenges := by
  have hrender : ∃ l, render dockerEnv (utf8 "docker") (dockerLesson 0x20 0x20) (utf8 "demo-salt")
      (some resolveBlack) = .ok l ∧ l.challenges.map Challenge.flags = [[]] :=
    ok_of_toOption (by decide +kernel)
  obtain ⟨l, hl, hflags⟩ := hrender
  refine ⟨l, hl, fun hall => ?_⟩
  have hblocks : lessonBlocks dockerEnv (some resolveBlack) (utf8 "docker")
      (dockerLesson 0x20 0x20) = [.quiz (utf8 "docker") (dockerQuiz 0x20 0x20)] := by
    decide +kernel
  rw [hblocks] at hall
  cases hcs : l.challenges with
  | nil =>
    rw [hcs] at hall
    cases hall
  | cons c cs =>
    rw [hcs, List.map_cons, List.cons.injEq] at hflags
    rw [hcs] at hall
    cases hall with
    | cons hsolvable _ =>
      obtain ⟨choice, -, hgrade⟩ := hsolvable.graded
      have hphash : isPhashFlag (flagHash dockerSha choice.text (utf8 "demo-salt")) = false :=
        isPhashFlag_hex dockerSha _
      rw [gradesCorrect_iff hphash, hflags.1] at hgrade
      exact List.not_mem_nil hgrade

end TrainingPlatform.Content
