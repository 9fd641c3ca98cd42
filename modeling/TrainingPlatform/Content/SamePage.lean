import TrainingPlatform.Content.Remark

/-!
# The page does not depend on the marks

Each stage of `render` maps sources that differ in marks to results that differ in
the flags of quiz challenges and in nothing else.
-/

namespace TrainingPlatform.Content

open Go Scoring

structure SameButFlags (c c' : Challenge) : Prop where
  hash : c.hash = c'.hash
  name : c.name = c'.name
  value : c.value = c'.value
  verify : c.verify = c'.verify

theorem SameButFlags.refl (c : Challenge) : SameButFlags c c := ⟨rfl, rfl, rfl, rfl⟩

structure SameLesson (l l' : Lesson) : Prop where
  slug : l.slug = l'.slug
  frontMatter : l.frontMatter = l'.frontMatter
  html : l.html = l'.html
  challenges : List.Forall₂ SameButFlags l.challenges l'.challenges

/-! ## The front matter -/

theorem splitFrontMatter_remarked (yaml : GoString → Except GoString FrontMatter)
    {src src' : GoString} (h : Remarked src src') :
    SameOutcome (fun r r' => r.1 = r'.1 ∧ RemarkedBody r.2 r'.2)
      (splitFrontMatter yaml src) (splitFrontMatter yaml src') := by
  rcases remarked_cases h with ⟨hp, hp', hbody⟩ | ⟨hp, hp', hcut⟩
  · rw [splitFrontMatter, splitFrontMatter, if_neg hp, if_neg hp']
    exact .ok ⟨rfl, hbody⟩
  · rw [splitFrontMatter, splitFrontMatter, if_pos hp, if_pos hp']
    rcases hcut with ⟨hcut, hcut', -⟩ | ⟨y, b, b', hcut, hcut', hbody⟩
    · rw [hcut, hcut']
      exact .error _
    · rw [hcut, hcut']
      exact .bind_left _ fun fm => .ok ⟨rfl, hbody⟩

/-! ## The blocks -/

/-- The same HTML, and a challenge with other flags at most. -/
def SameBlock (r r' : GoString × Challenge) : Prop := r.1 = r'.1 ∧ SameButFlags r.2 r'.2

theorem renderQuiz_remarked (sha : Sha256) (slug salt : GoString) {i i' : GoString}
    (h : RemarkedInner i i') :
    SameOutcome SameBlock (renderQuiz sha slug salt i) (renderQuiz sha slug salt i') := by
  obtain ⟨hquestion, hchoices⟩ := sameQuiz_of_remarkedInner h
  have htext : (readQuiz i).text = (readQuiz i').text := by rw [Quiz.text, Quiz.text, hquestion]
  have hempty : (readQuiz i).choices = [] ↔ (readQuiz i').choices = [] := by
    rw [← List.map_eq_nil_iff, hchoices, List.map_eq_nil_iff]
  have hlabels : ∀ (q : Quiz) (h : GoString),
      (q.choices.flatMap fun c => choiceHtml sha salt h c.text) =
        (q.choices.map Choice.text).flatMap (choiceHtml sha salt h) := by
    intro q h
    rw [List.flatMap_map]
  have hcond : ((readQuiz i).text = [] ∨ (readQuiz i).choices = []) ↔
      ((readQuiz i').text = [] ∨ (readQuiz i').choices = []) := by rw [htext, hempty]
  rw [renderQuiz, renderQuiz]
  by_cases hq : (readQuiz i).text = [] ∨ (readQuiz i).choices = []
  · rw [if_pos hq, if_pos (hcond.mp hq)]
    exact .error _
  · rw [if_neg hq, if_neg (mt hcond.mpr hq)]
    refine .ok ⟨?_, ?_⟩
    · simp only [quizHtml, htext, hlabels, hchoices]
    · exact ⟨by simp only [quizChallenge, htext], by simp only [quizChallenge, htext], rfl, rfl⟩

theorem extract_related {R : GoString × Challenge → GoString × Challenge → Prop}
    {f : GoString → Except GoString (GoString × Challenge)} (rest : GoString) (i : Nat)
    {bs bs' : List Block}
    (h : List.Forall₂ (fun b b' => b.before = b'.before ∧ SameOutcome R (f b.inner) (f b'.inner))
      bs bs') :
    SameOutcome (fun r r' => r.1 = r'.1 ∧ List.Forall₂ R r.2 r'.2)
      (extract f rest i bs) (extract f rest i bs') := by
  induction h generalizing i with
  | nil => exact .ok ⟨rfl, .nil⟩
  | @cons b b' bs bs' hb _ ih =>
    obtain ⟨hbefore, hf⟩ := hb
    rw [extract, extract, hbefore]
    refine hf.bind fun r r' hr => (ih (i + 1)).bind fun more more' hmore => ?_
    exact .ok ⟨by rw [hmore.1], .cons hr hmore.2⟩

theorem extractQuizzes_remarked (sha : Sha256) (slug salt : GoString) {s s' : GoString}
    (h : RemarkedBody s s') :
    SameOutcome (fun r r' => r.1 = r'.1 ∧ List.Forall₂ SameBlock r.2 r'.2)
      (extractQuizzes sha slug salt s) (extractQuizzes sha slug salt s') := by
  obtain ⟨hblocks, hrest⟩ := blocks_remarked h
  rw [extractQuizzes, extractQuizzes, hrest]
  refine (extract_related _ _ (hblocks.imp fun b b' hb => ?_)).wrapError _
  exact ⟨hb.before.symm, renderQuiz_remarked sha slug salt hb.inner⟩

/-! ## The rest of the page -/

theorem setVerify_related (h : GoString) (spec : VerifySpec) {cs cs' : List Challenge}
    (hcs : List.Forall₂ SameButFlags cs cs') :
    List.Forall₂ SameButFlags (setVerify h spec cs) (setVerify h spec cs') := by
  refine List.forall₂_map_left_iff.mpr (List.forall₂_map_right_iff.mpr (hcs.imp fun c c' hc => ?_))
  by_cases hh : c.hash = h
  · rw [if_pos hh, if_pos (hc.hash ▸ hh)]
    exact ⟨hc.hash, hc.name, hc.value, rfl⟩
  · rw [if_neg hh, if_neg (hc.hash ▸ hh)]
    exact hc

theorem assertContent_related (quote : GoString → GoString) (fm : FrontMatter)
    (targets : List (GoString × DemoRouting)) {cs cs' : List Challenge} (rendered : GoString)
    (hcs : List.Forall₂ SameButFlags cs cs') :
    SameOutcome (fun r r' => List.Forall₂ SameButFlags r.1 r'.1 ∧ r.2 = r'.2)
      (assertContent quote fm targets cs rendered) (assertContent quote fm targets cs' rendered) := by
  induction targets generalizing cs cs' rendered with
  | nil => exact .ok ⟨hcs, rfl⟩
  | cons target targets ih =>
    rw [assertContent, assertContent]
    dsimp only
    split_ifs
    · exact .error _
    · exact ih _ (setVerify_related _ _ hcs)

theorem finish_related (env : Env) (slug : GoString) (fm : FrontMatter) (body : GoString)
    {qs qs' : List (GoString × Challenge)} (exercises : List (GoString × Challenge))
    (h : List.Forall₂ SameBlock qs qs') :
    SameOutcome SameLesson (finish env slug fm body qs exercises)
      (finish env slug fm body qs' exercises) := by
  have hblocks : List.Forall₂ SameBlock (qs ++ exercises) (qs' ++ exercises) :=
    List.rel_append h (List.forall₂_same.mpr fun r _ => ⟨rfl, .refl r.2⟩)
  have hhtml : (qs ++ exercises).map Prod.fst = (qs' ++ exercises).map Prod.fst := by
    rw [← List.forall₂_eq_eq_eq, List.forall₂_map_left_iff, List.forall₂_map_right_iff]
    exact hblocks.imp fun _ _ hr => hr.1
  have hcs : List.Forall₂ SameButFlags ((qs ++ exercises).map Prod.snd)
      ((qs' ++ exercises).map Prod.snd) :=
    List.forall₂_map_left_iff.mpr (List.forall₂_map_right_iff.mpr (hblocks.imp fun _ _ hr => hr.2))
  unfold finish
  dsimp only
  rw [hhtml]
  generalize pairDemoLinks _ _ = page
  refine .bind_left _ fun _ => ?_
  split_ifs
  · refine (assertContent_related env.quote fm _ page.1 hcs).bind fun r r' hr => ?_
    exact .ok ⟨rfl, rfl, by rw [hr.2], hr.1⟩
  · exact .ok ⟨rfl, rfl, rfl, hcs⟩

theorem render_related (env : Env) (slug salt : GoString) (resolver : Resolver)
    {src src' : GoString} (h : Remarked src src') :
    SameOutcome SameLesson (render env slug src salt resolver) (render env slug src' salt resolver) := by
  refine (splitFrontMatter_remarked env.yaml h).bind fun r r' hr => ?_
  obtain ⟨fm, body⟩ := r
  obtain ⟨fm', body'⟩ := r'
  obtain ⟨rfl, hbody⟩ : fm = fm' ∧ RemarkedBody body body' := hr
  refine .bind_left _ fun _ => ?_
  refine (extractQuizzes_remarked env.sha slug salt hbody).bind fun qs qs' hqs => ?_
  rw [hqs.1, hqs.2.length_eq]
  exact .bind_left _ fun r => finish_related env slug fm r.1 r.2 hqs.2

/-- For any two sources that differ in the marks of quiz choices, and the same slug,
salt and resolver, either both are rejected or both give the same page and
challenges that differ at most in their flags. -/
theorem same_page (env : Env) (slug salt : GoString) (resolver : Resolver) {src src' : GoString}
    (h : Remarked src src') :
    (∃ e e', render env slug src salt resolver = .error e ∧
      render env slug src' salt resolver = .error e') ∨
    ∃ l l', render env slug src salt resolver = .ok l ∧
      render env slug src' salt resolver = .ok l' ∧
      l.html = l'.html ∧ List.Forall₂ SameButFlags l.challenges l'.challenges := by
  have hsame := render_related env slug salt resolver h
  generalize render env slug src salt resolver = r at hsame ⊢
  generalize render env slug src' salt resolver = r' at hsame ⊢
  cases hsame with
  | error e => exact .inl ⟨e, e, rfl, rfl⟩
  | ok hl => exact .inr ⟨_, _, rfl, rfl, hl.html, hl.challenges⟩

/-! A lesson with one quiz of two choices. -/

def choiceLine (m : UInt8) (text : String) : GoString :=
  utf8 "- " ++ openBracket :: m :: closeBracket :: utf8 text

def dockerLines (m m' : UInt8) : List GoString :=
  [utf8 "Which command lists containers?", choiceLine m " docker ps", choiceLine m' " docker images"]

def dockerInner (m m' : UInt8) : GoString :=
  utf8 "\n" ++ (join (dockerLines m m') [newline] ++ utf8 "\n")

def dockerBlock (m m' : UInt8) : Block :=
  ⟨[], utf8 "\x7b% quiz %\x7d", dockerInner m m', utf8 "\x7b% endquiz %\x7d"⟩

def dockerHeader : GoString := utf8 "---\ntitle: Docker\n---\n"

def dockerLesson (m m' : UInt8) : GoString :=
  dockerHeader ++ assemble [dockerBlock m m'] (utf8 "\n")

def dockerSha : Sha256 :=
  .ofTable
    [(utf8 "Which command lists containers?docker",
      utf8 "22a55d6781226732fadf605ecb87d142154b8fa0f512a3a147f5304127a76abe"),
     (utf8 "docker psdemo-salt",
      utf8 "c2f2b7cdfa1f001d86eff0fa56024bdf082ea325321fda2c3fed0de469b52a89"),
     (utf8 "docker imagesdemo-salt",
      utf8 "fcb5abc10817e54d4d4199907daa0e02430e9d97703350a6e738148faf4a4c76")]
    (by decide +kernel)

/-- An environment that decodes front matter of a title alone. -/
def dockerEnv : Env where
  sha := dockerSha
  yaml s := .ok { title := trimPrefix (trimSuffix s (utf8 "\n")) (utf8 "title: ") }
  quote s := utf8 "\"" ++ s ++ utf8 "\""
  pageTmpl := ⟨utf8 "<title>", utf8 "</title><main class=\"", utf8 "\"><article>", utf8 "</article>",
    utf8 "</main><script>const lessonImage = ", utf8 ";const TERMS = ", utf8 ";const TERM_IMAGES = ",
    utf8 ";</script>"⟩
  consoleTmpl := utf8 "<div id=\"terms\"></div>"

def dockerQuiz (m m' : UInt8) : Quiz :=
  ⟨[utf8 "Which command lists containers?"],
    [⟨utf8 "docker ps", m != 0x20⟩, ⟨utf8 "docker images", m' != 0x20⟩]⟩

theorem remarked_choiceLine (m m' : UInt8) (text : String) (hm : isMark m = true)
    (hm' : isMark m' = true) (ht : utf8 text ≠ []) :
    RemarkedLine (choiceLine m text) (choiceLine m' text) :=
  .choice ⟨[], utf8 " ", by decide +kernel, by decide +kernel, by decide +kernel⟩ ht hm hm'

/-- The lesson with any two marks differs in these alone. -/
theorem remarked_dockerLesson {m m' n n' : UInt8} (hm : m ∈ utf8 " xX") (hm' : m' ∈ utf8 " xX")
    (hn : n ∈ utf8 " xX") (hn' : n' ∈ utf8 " xX") :
    Remarked (dockerLesson m m') (dockerLesson n n') := by
  have hmarks : ∀ b ∈ utf8 " xX", isMark b = true := by decide +kernel
  have hread : ∀ m ∈ utf8 " xX", ∀ m' ∈ utf8 " xX",
      bodyOf (dockerLesson m m') = assemble [dockerBlock m m'] (utf8 "\n") ∧
        blocks quizWord (assemble [dockerBlock m m'] (utf8 "\n")) =
          ([dockerBlock m m'], utf8 "\n") ∧
        segments (trimSpace (dockerInner m m')) = dockerLines m m' ∧
        segments (join (dockerLines m m') [newline]) = dockerLines m m' ∧
        leadSpace (dockerInner m m') = utf8 "\n" ∧ trailSpace (dockerInner m m') = utf8 "\n" := by
    decide +kernel
  obtain ⟨hbody, hblocks, hlines, -, hlead, htrail⟩ := hread m hm m' hm'
  obtain ⟨-, -, -, hlines', -, -⟩ := hread n hn n' hn'
  have hinner : RemarkedInner (dockerInner m m') (dockerInner n n') := by
    refine ⟨join (dockerLines n n') [newline], ?_, ?_⟩
    · rw [hlead, htrail]
      rfl
    · rw [hlines, hlines']
      refine .cons (.same _) (.cons ?_ (.cons ?_ .nil))
      · exact remarked_choiceLine _ _ _ (hmarks m hm) (hmarks n hn) (by decide)
      · exact remarked_choiceLine _ _ _ (hmarks m' hm') (hmarks n' hn') (by decide)
  refine ⟨dockerHeader, assemble [dockerBlock n n'] (utf8 "\n"), ?_, rfl, ?_⟩
  · rw [hbody]
    rfl
  · rw [hbody, RemarkedBody, hblocks]
    exact ⟨[dockerBlock n n'], .cons ⟨rfl, rfl, rfl, hinner⟩ .nil, rfl⟩

/-- Moving the mark to the other choice leaves the page as it is. -/
theorem same_page_dockerLesson :
    (∃ e e', render dockerEnv (utf8 "docker") (dockerLesson 0x78 0x20) (utf8 "demo-salt") none =
        .error e ∧
      render dockerEnv (utf8 "docker") (dockerLesson 0x20 0x58) (utf8 "demo-salt") none =
        .error e') ∨
    ∃ l l', render dockerEnv (utf8 "docker") (dockerLesson 0x78 0x20) (utf8 "demo-salt") none =
        .ok l ∧
      render dockerEnv (utf8 "docker") (dockerLesson 0x20 0x58) (utf8 "demo-salt") none = .ok l' ∧
      l.html = l'.html ∧ List.Forall₂ SameButFlags l.challenges l'.challenges :=
  same_page dockerEnv _ _ none
    (remarked_dockerLesson (by decide) (by decide) (by decide) (by decide))

end TrainingPlatform.Content
