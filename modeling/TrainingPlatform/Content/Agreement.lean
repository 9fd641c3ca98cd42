import TrainingPlatform.Content.DemoLinks
import TrainingPlatform.Content.Solvable

/-!
# A page and its challenges

When the blocks a page shows are those its lesson registers: the placeholders that come out
of the renderer are the ones that are put back, and nothing `Render` does behind them
changes which blocks stand on the page.
-/

namespace TrainingPlatform.Content

open Go Go.Re Scoring

/-! ## The blocks of a source -/

variable {env : Env} {resolver : Resolver} {slug src salt : GoString} {l : Lesson}

theorem hashes_of_rendered (h : Rendered env resolver slug src salt l) :
    l.challenges.map Challenge.hash =
      (quizzesOf src).map (fun q => challengeHash env.sha q.text slug) ++
        exerciseHashesOf env.sha slug src := by
  rw [challenges_of_rendered h, List.map_map]
  have hhash : Challenge.hash ∘ finalChallenge l.frontMatter (demoTargets env slug src salt) =
      Challenge.hash := funext fun c => finalChallenge_hash _ _ c
  rw [hhash, blockChallenges, lessonBlocks, List.map_append, List.map_append, List.map_map,
    List.map_map, List.map_map, List.map_map, exerciseHashesOf]
  rfl

theorem tagged_blockHtml : ∀ h ∈ blockHtml env slug src salt, Tagged h := by
  intro h hh
  rw [blockHtml, List.mem_append, List.mem_map, List.mem_map] at hh
  rcases hh with ⟨q, -, rfl⟩ | ⟨text, -, rfl⟩
  · exact tagged_quizHtml _ _ _ _
  · exact tagged_exerciseHtml _ _

theorem ownPattern_challenge : OwnPattern (utf8 "data-challenge=") :=
  ⟨by decide, by decide, by decide⟩

/-- Each block shows its own challenge. -/
theorem divChallenges_blockHtml (hown : OwnText src) :
    (blockHtml env slug src salt).map divChallenges =
      ((quizzesOf src).map (fun q => challengeHash env.sha q.text slug) ++
        exerciseHashesOf env.sha slug src).map fun h => [h] := by
  rw [blockHtml, exerciseHashesOf, List.map_append, List.map_append, List.map_map, List.map_map,
    List.map_map, List.map_map]
  congr 1
  · exact List.map_congr_left fun q _ => divChallenges_quizHtml env.sha salt _ q
  · refine List.map_congr_left fun text htext => divChallenges_exerciseHtml (fun hin => ?_) env.sha _
    exact hown.challenge (ownPattern_challenge.of_exercise
      (not_infix_token (b := 0x64) (by decide) (by decide)) htext hin)

theorem length_blockHtml : (blockHtml env slug src salt).length =
    (quizzesOf src).length + (exercisesOf src).length := by
  rw [blockHtml, List.length_append, List.length_map, List.length_map]

/-- The challenges of some blocks are as many as the blocks. -/
theorem length_flatMap_divChallenges (hown : OwnText src) {hs : List GoString}
    (hsub : hs.Sublist (blockHtml env slug src salt)) :
    (hs.flatMap divChallenges).length = hs.length := by
  have hone : ∀ h ∈ blockHtml env slug src salt, (divChallenges h).length = 1 := by
    intro h hh
    have hmem : divChallenges h ∈ (blockHtml env slug src salt).map divChallenges :=
      List.mem_map_of_mem hh
    rw [divChallenges_blockHtml hown] at hmem
    obtain ⟨k, -, hk⟩ := List.mem_map.mp hmem
    rw [← hk]
    rfl
  have hones : ∀ h ∈ hs, (divChallenges h).length = 1 := fun h hh => hone h (hsub.subset hh)
  clear hsub
  induction hs with
  | nil => rfl
  | cons h hs ih =>
    obtain ⟨hh, hhs⟩ := List.forall_mem_cons.mp hones
    rw [List.flatMap_cons, List.length_append, hh, ih hhs, List.length_cons, Nat.add_comm]

/-- The placeholders in an exercise are those of quizzes, which stand before it. -/
theorem later_not_mem_blockHtml (hown : OwnText src) {t : Nat} {h : GoString}
    (ht : (blockHtml env slug src salt)[t]? = some h) {j : Nat} (hj : t < j) :
    itoa j ∉ scan readToken h := by
  intro hmem
  rw [blockHtml] at ht
  by_cases hlt : t < (quizzesOf src).length
  · rw [List.getElem?_append_left (by rwa [List.length_map]), List.getElem?_map,
      Option.map_eq_some_iff] at ht
    obtain ⟨q, -, rfl⟩ := ht
    rw [challengeHash, scan_token_quizHtml] at hmem
    cases hmem
  · rw [List.getElem?_append_right (by rw [List.length_map]; omega), List.getElem?_map,
      Option.map_eq_some_iff] at ht
    obtain ⟨text, htext, rfl⟩ := ht
    rw [challengeHash, scan_token_exerciseHtml, scan_token_renderMarkdown, List.mem_flatMap] at hmem
    obtain ⟨line, hline, hmem⟩ := hmem
    have hin := scan_subset reads_token
      (infix_of_mem_segments ((rawLines_sublist _).subset hline)) hmem
    have hquiz := mem_tokenNumbers.mp
      (tokens_exercise hown (List.mem_of_getElem? htext) hin)
    omega

/-- No block put back brings a placeholder when the exercises have none. -/
theorem scan_token_blockHtml (hnone : ∀ text ∈ exercisesOf src, scan readToken text = []) :
    ∀ h ∈ blockHtml env slug src salt, scan readToken h = [] := by
  intro h hh
  rw [blockHtml, List.mem_append, List.mem_map, List.mem_map] at hh
  rcases hh with ⟨q, -, rfl⟩ | ⟨text, htext, rfl⟩
  · exact scan_token_quizHtml _ _ _ _
  · rw [challengeHash, scan_token_exerciseHtml, scan_token_renderMarkdown,
      List.flatMap_eq_nil_iff]
    intro line hline
    rw [← List.subset_nil, ← hnone text htext]
    exact scan_subset reads_token (infix_of_mem_segments ((rawLines_sublist _).subset hline))

/-! ## Escaped placeholders -/

theorem ownPattern_escaped (i : Nat) : OwnPattern (escapeString (placeholderToken i)) :=
  ⟨(foreign_escaped i).ne_nil, (foreign_escaped i).plain _ (by decide),
    (foreign_escaped i).plain _ (by decide)⟩

theorem escaped_not_infix_token (i j : Nat) :
    ¬ escapeString (placeholderToken i) <:+: placeholderToken j := by
  refine not_infix_token (b := 0x26) ?_ (by decide) j
  rw [escapeString_token]
  exact List.mem_append_left _ (by decide)

/-- An escaped placeholder in a block was written by its author. -/
theorem escaped_of_blockHtml (hown : OwnText src)
    (hnone : ∀ text ∈ exercisesOf src, scan readToken text = []) {h : GoString}
    (hh : h ∈ blockHtml env slug src salt) {i : Nat}
    (hin : escapeString (placeholderToken i) <:+: h) : escapeString (placeholderToken i) <:+: src := by
  have hP := foreign_escaped i
  rw [blockHtml, List.mem_append, List.mem_map, List.mem_map] at hh
  rcases hh with ⟨q, hq, rfl⟩ | ⟨text, htext, rfl⟩
  · exfalso
    have hblock : OwnPattern (utf8 "<!--BLOCK:") := ⟨by decide, by decide, by decide⟩
    have htoken : ∀ s, placeholderToken i <:+: s → utf8 "<!--BLOCK:" <:+: s := fun s hs => by
      rw [placeholderToken, List.append_assoc] at hs
      exact List.infix_append_left.trans hs
    refine hown.block (hblock.of_quiz hq ?_)
    rcases hP.of_quizHtml hin with hin | ⟨c, hc, hin⟩
    · exact .inl (htoken _ (token_of_escaped.2 hin))
    · exact .inr ⟨c, hc, htoken _ (token_of_escaped.2 hin)⟩
  · have hrendered := hP.of_exerciseHtml hin
    have hforeign : Foreign tagStarts (escapeString (placeholderToken i)) := hP.mono (by decide)
    refine (ownPattern_escaped i).of_exercise (escaped_not_infix_token i) htext ?_
    rcases hforeign.of_renderMarkdown hrendered with ⟨line, hline, hin⟩ | ⟨line, hline, hin⟩
    · exact hin.trans (infix_of_mem_segments ((rawLines_sublist _).subset hline))
    · exfalso
      have hmem : line ∈ segments text := hline.subset List.mem_cons_self
      have htokens := scan_subset reads_token (infix_of_mem_segments hmem)
        (placeholderToken_infix_iff.mp (token_of_escaped.1 hin))
      rw [hnone text htext] at htokens
      cases htokens

theorem Foreign.of_substitute {starts P : GoString} (hP : Foreign starts P) {i : Nat}
    {hs : List GoString} (htag : ∀ h ∈ hs, Tagged h) {s : GoString}
    (h : P <:+: substitute i hs s) : P <:+: s ∨ ∃ k ∈ hs, P <:+: k := by
  induction hs generalizing i s with
  | nil => exact .inl h
  | cons k hs ih =>
    obtain ⟨hk, hhs⟩ := List.forall_mem_cons.mp htag
    rcases ih hhs h with h | ⟨k', hk', hPk'⟩
    · by_cases hin : placeholderToken i <:+: s
      · obtain ⟨u, v, hs', hr⟩ := replace_token (h := k) hin
        rw [hr, hP.append_tagged_iff hk] at h
        rw [hs']
        rcases h with h | h | h
        · exact .inl (h.trans List.infix_append_left)
        · exact .inr ⟨k, List.mem_cons_self, h⟩
        · exact .inl (h.trans (List.infix_append_right.trans List.infix_append_right))
      · rw [replaceFirst_of_not_isInfix k hin] at h
        exact .inl h
    · exact .inr ⟨k', List.mem_cons_of_mem k hk', hPk'⟩

/-! ## The page of a lesson -/

/-- The article of a lesson's page, and what it has of the page with the blocks. -/
theorem article_of_rendered (h : Rendered env resolver slug src salt l) :
    ∃ body, l.html = layout env l.frontMatter body ∧
      (divChallenges body).Perm (divChallenges (blockPage env slug src salt)) ∧
      ∀ P, Foreign buttonStarts P → P <:+: body → P <:+: blockPage env slug src salt := by
  have hhashes : ∀ h ∈ exerciseHashesOf env.sha slug src, ∃ key, h = env.sha.hex key := by
    intro h hh
    obtain ⟨text, -, rfl⟩ := List.mem_map.mp hh
    exact ⟨_, rfl⟩
  have hpaired : (divChallenges (demoPage env slug src salt).1).Perm
      (divChallenges (blockPage env slug src salt)) := divChallenges_pairDemoLinks hhashes
  have hpattern : ∀ P, Foreign buttonStarts P → P <:+: (demoPage env slug src salt).1 →
      P <:+: blockPage env slug src salt := fun P hP => hP.of_pairDemoLinks hhashes
  cases ha : l.frontMatter.asserts with
  | false => exact ⟨_, (h.plain ha).1, hpaired, hpattern⟩
  | true =>
    obtain ⟨r, hr, hhtml, -⟩ := h.asserting ha
    have htargets : ∀ t ∈ demoTargets env slug src salt, ∃ key, t.1 = env.sha.hex key := by
      intro t ht
      have hmem : t.1 ∈ (demoTargets env slug src salt).map Prod.fst := List.mem_map_of_mem ht
      rw [map_fst_demoTargets] at hmem
      exact hhashes _ hmem
    refine ⟨r.2, hhtml, ?_, fun P hP => ?_⟩
    · refine assertContent_induction
        (I := fun s => (divChallenges s).Perm (divChallenges (blockPage env slug src salt)))
        (fun t ht s hs => ?_) hpaired hr
      obtain ⟨key, hkey⟩ := htargets t ht
      rw [hkey, divChallenges, scan_verifyMark (.inl rfl), scan_verifyMark (.inr rfl)]
      exact hs
    · refine assertContent_induction
        (I := fun s => P <:+: s → P <:+: blockPage env slug src salt)
        (fun t ht s hs hin => ?_) (hpattern P hP) hr
      obtain ⟨key, hkey⟩ := htargets t ht
      rw [hkey] at hin
      exact hs (hP.of_verifyMark env.sha key hin)

/-- The blocks the page shows are those whose placeholder is found. -/
theorem divChallenges_blockPage (hown : OwnText src) :
    (divChallenges (blockPage env slug src salt)).Perm
      ((found 0 (blockHtml env slug src salt) (renderMarkdown (placeholderBody src))).flatMap
        divChallenges) := by
  have hbody : divChallenges (renderMarkdown (placeholderBody src)) = [] :=
    divChallenges_renderMarkdown fun hin => hown.challenge
      (ownPattern_challenge.of_placeholderBody
        (not_infix_token (b := 0x64) (by decide) (by decide)) hin)
  have htag : ∀ h ∈ blockHtml env slug src salt, Tagged h := tagged_blockHtml
  have hperm := divChallenges_substitute (i := 0) htag (renderMarkdown (placeholderBody src))
  rwa [hbody, List.append_nil] at hperm

/-- Every block is put back exactly when each is placed. -/
theorem found_eq_iff_placed (env : Env) (slug salt : GoString) (hown : OwnText src) :
    found 0 (blockHtml env slug src salt) (renderMarkdown (placeholderBody src)) =
      blockHtml env slug src salt ↔ Placed src := by
  rw [placed_iff hown]
  constructor
  · intro hfound i hi
    have htokens := tokens_of_found hfound tagged_blockHtml
      (fun t h ht j hj => later_not_mem_blockHtml hown ht (by omega)) i
      (by rwa [length_blockHtml])
    rwa [Nat.zero_add] at htokens
  · intro hplaced
    have htokens := tokensRendered_of_placed hown ((placed_iff hown).mpr hplaced)
    refine (found_of_tokens tagged_blockHtml (scan_token_blockHtml htokens.exercises) ?_).1
    rw [length_blockHtml]
    exact htokens.rendered

/-- The page of a lesson shows the challenges it registers, and no placeholder, exactly
when no block stands in fenced code and no quiz in an exercise. -/
theorem page_agrees_iff_placed (hown : OwnText src)
    (h : render env slug src salt resolver = .ok l) :
    ∃ body, l.html = layout env l.frontMatter body ∧
      (PageAgrees src body (l.challenges.map Challenge.hash) ↔ Placed src) := by
  have hpage := render_page h
  obtain ⟨body, hhtml, hperm, hpattern⟩ := article_of_rendered hpage
  refine ⟨body, hhtml, ?_⟩
  have hshown := hperm.trans (divChallenges_blockPage hown)
  have hown_hashes : (blockHtml env slug src salt).flatMap divChallenges =
      l.challenges.map Challenge.hash := by
    rw [hashes_of_rendered hpage, List.flatMap_def, divChallenges_blockHtml hown,
      ← List.flatMap_def, List.flatMap_singleton']
  have hlength : (l.challenges.map Challenge.hash).length =
      (quizzesOf src).length + (exercisesOf src).length := by
    rw [← hown_hashes, length_flatMap_divChallenges hown (List.Sublist.refl _), length_blockHtml]
  constructor
  · intro hagrees
    rw [← found_eq_iff_placed env slug salt hown]
    have hsub := found_sublist 0 (blockHtml env slug src salt) (renderMarkdown (placeholderBody src))
    refine hsub.eq_of_length ?_
    rw [← length_flatMap_divChallenges hown hsub, ← hshown.length_eq,
      hagrees.challenges.length_eq, hlength, length_blockHtml]
  · intro hplaced
    have htokens := tokensRendered_of_placed hown hplaced
    have hnone : ∀ h ∈ blockHtml env slug src salt, scan readToken h = [] :=
      scan_token_blockHtml htokens.exercises
    have hfound := (found_eq_iff_placed env slug salt hown).mpr hplaced
    rw [hfound, hown_hashes] at hshown
    refine ⟨hshown, fun i _ hin => ?_, fun i hi hin => ?_⟩
    · have hleft := (found_of_tokens (i := 0) tagged_blockHtml hnone
        (by rw [length_blockHtml]; exact htokens.rendered)).2
      have hforeign : Foreign buttonStarts (placeholderToken i) :=
        (foreign_token (placeholderToken_between i)).mono (by decide)
      have htoken := placeholderToken_infix_iff.mp (hpattern _ hforeign hin)
      rw [blockPage, hleft] at htoken
      cases htoken
    · have hP := foreign_escaped i
      rw [hlength] at hi
      rcases hP.of_substitute tagged_blockHtml (hpattern _ (hP.mono (by decide)) hin) with hin | hin
      · exact (ownPattern_escaped i).of_placeholderBody (escaped_not_infix_token i)
          (htokens.escaped i hi hin)
      · obtain ⟨k, hk, hin⟩ := hin
        exact escaped_of_blockHtml hown htokens.exercises hk hin

/-- The docker quiz in fenced code. -/
def fencedLesson : GoString :=
  dockerHeader ++ (utf8 "```\n" ++ assemble [dockerBlock 0x78 0x20] (utf8 "\n```\n"))

theorem page_agrees_dockerLesson : ∃ l,
    render dockerEnv (utf8 "docker") (dockerLesson 0x78 0x20) (utf8 "demo-salt") none = .ok l ∧
      l.challenges.length = 1 ∧ ∃ body, l.html = layout dockerEnv l.frontMatter body ∧
        PageAgrees (dockerLesson 0x78 0x20) body (l.challenges.map Challenge.hash) := by
  have hrender : ∃ l, render dockerEnv (utf8 "docker") (dockerLesson 0x78 0x20) (utf8 "demo-salt")
      none = .ok l ∧ l.challenges.length = 1 := ok_of_toOption (by decide +kernel)
  obtain ⟨l, hl, hlen⟩ := hrender
  obtain ⟨body, hbody, hiff⟩ := page_agrees_iff_placed ⟨by decide +kernel, by decide +kernel⟩ hl
  have hplaced : Placed (dockerLesson 0x78 0x20) := by
    unfold Placed
    decide +kernel
  exact ⟨l, hl, hlen, body, hbody, hiff.mpr hplaced⟩

/-- The fenced quiz is registered and its page shows no block. -/
theorem not_agrees_fencedLesson : OwnText fencedLesson ∧ ∃ l body,
    render dockerEnv (utf8 "docker") fencedLesson (utf8 "demo-salt") none = .ok l ∧
      l.html = layout dockerEnv l.frontMatter body ∧
      ¬ PageAgrees fencedLesson body (l.challenges.map Challenge.hash) := by
  have hrender : ∃ l, render dockerEnv (utf8 "docker") fencedLesson (utf8 "demo-salt") none =
      .ok l ∧ l.challenges.length = 1 := ok_of_toOption (by decide +kernel)
  obtain ⟨l, hl, hlen⟩ := hrender
  have hpage := render_page hl
  have ha : l.frontMatter.asserts = false := by
    rw [hpage.frontMatter_eq]
    decide +kernel
  refine ⟨⟨by decide +kernel, by decide +kernel⟩, l, _, hl, (hpage.plain ha).1, fun hagrees => ?_⟩
  have hnone : divChallenges (demoPage dockerEnv (utf8 "docker") fencedLesson
      (utf8 "demo-salt")).1 = [] := by decide +kernel
  have hlength := hagrees.challenges.length_eq
  rw [hnone, List.length_map, hlen] at hlength
  cases hlength

end TrainingPlatform.Content
