import TrainingPlatform.Content.DemoLinks
import TrainingPlatform.Content.PortLinks
import TrainingPlatform.Content.Solvable

/-!
# The page the server grades

What `FetchPod` asks an instance for, and what a browser asks it for when the learner opens
the demo link the exercise got its routing from.  The browser is an argument.
-/

namespace TrainingPlatform.Server

open Go Content Scoring Router

/-! ## The server -/

/-- The request target of `FetchPod`: the path is one of a `url.URL`. -/
def fetchTarget (path : GoString) : GoString :=
  escapedPath (if hasPrefix path (utf8 "/") then path else utf8 "/" ++ path)

/-! ## The page -/

/-- The element a browser makes of a start tag, the hosts it takes, and the address it
resolves a reference of the page to. -/
structure Browser where
  element : GoString → Element
  acceptsHost : GoString → Bool
  resolve : GoString → GoString

/-- The address a demo link opens once `rewritePortLinks` has been at it. -/
def openedUrl (b : Browser) (st : PortState) (tag : GoString) : GoString :=
  let e := b.element tag
  b.resolve ((if e.isPortLink then rewriteLink st e else e).value "href")

/-- On a visit, the server asks for what the browser asks for, for every exercise that has a
demo link with a path. -/
def TargetsAgree (b : Browser) (st : PortState) (env : Env) (slug src salt : GoString)
    (l : Lesson) : Prop :=
  ∀ k tag c spec, (demoLinks (blockPage env slug src salt))[k]? = some tag →
    hasPrefix (tagAttr tag (utf8 "href")) (utf8 "/") = true →
    l.challenges[(quizzesOf src).length + k]? = some c → c.verify = some spec →
    requestTarget b.acceptsHost (openedUrl b st tag) = some (fetchTarget spec.path)

/-- Every such link opens an address without a query whose path spells the one recorded. -/
def TargetsSpelled (b : Browser) (st : PortState) (env : Env) (slug src salt : GoString) : Prop :=
  (frontMatterOf env src).asserts = true →
    ∀ (k : Nat) tag text r, (demoLinks (blockPage env slug src salt))[k]? = some tag →
      hasPrefix (tagAttr tag (utf8 "href")) (utf8 "/") = true → (exercisesOf src)[k]? = some text →
      lastTarget (demoTargets env slug src salt) (challengeHash env.sha text slug) = some r →
      ∃ path, parseUrl b.acceptsHost (openedUrl b st tag) = some (path, none) ∧
        Spells keptInPath keptByUrl path r.path

/-! ## What is recorded -/

theorem path_of_mem_pairTags {tags hashes : List GoString} {out : GoString} {r : DemoRouting}
    (h : r ∈ (pairTags tags hashes out).2) : hasPrefix r.path (utf8 "/") = true := by
  induction tags generalizing hashes out with
  | nil =>
    obtain ⟨-, -, rfl⟩ := List.mem_map.mp h
    decide
  | cons tag tags ih =>
    cases hashes with
    | nil => cases h
    | cons k hashes =>
      rw [pairTags] at h
      split_ifs at h
      · rcases List.mem_cons.mp h with rfl | h
        · rw [demoRoutingOf]
          dsimp only
          split_ifs with hslash
          · exact hslash
          · decide
        · exact ih h
      · exact ih h

theorem mem_of_lastTarget {targets : List (GoString × DemoRouting)} {h : GoString}
    {r : DemoRouting} (hr : lastTarget targets h = some r) : (h, r) ∈ targets := by
  induction targets with
  | nil => cases hr
  | cons target targets ih =>
    obtain ⟨k, r'⟩ := target
    rw [lastTarget, Option.or_eq_some_iff] at hr
    rcases hr with hr | ⟨-, hr⟩
    · exact List.mem_cons_of_mem _ (ih hr)
    · split_ifs at hr with hk
      rw [Option.some.injEq] at hr
      rw [← hr, ← hk]
      exact List.mem_cons_self

variable {env : Env} {resolver : Resolver} {slug src salt : GoString} {l : Lesson}

/-- The recorded path is one already. -/
theorem fetchTarget_of_lastTarget {h : GoString} {r : DemoRouting}
    (hr : lastTarget (demoTargets env slug src salt) h = some r) :
    fetchTarget r.path = escapedPath r.path := by
  have hmem := mem_of_lastTarget hr
  rw [demoTargets] at hmem
  rw [fetchTarget, if_pos (path_of_mem_pairTags (List.of_mem_zip hmem).2)]

/-- The challenge of an exercise comes behind those of the quizzes. -/
theorem challenge_of_exercise (h : Rendered env resolver slug src salt l) (k : Nat) :
    l.challenges[(quizzesOf src).length + k]? = ((exercisesOf src)[k]?.map fun text =>
      exerciseChallenge env.sha slug text (exerciseFlagsOf env resolver src)).map
        (finalChallenge l.frontMatter (demoTargets env slug src salt)) := by
  rw [challenges_of_rendered h, List.getElem?_map, blockChallenges, lessonBlocks, List.getElem?_map,
    List.getElem?_append_right (by rw [List.length_map]; exact Nat.le_add_right _ _),
    List.length_map, Nat.add_sub_cancel_left, List.getElem?_map]
  cases (exercisesOf src)[k]? <;> rfl

/-- An environment that decodes front matter of an expected text alone. -/
def expectEnv : Env :=
  { dockerEnv with
    yaml := fun s => .ok
      { exerciseExpect := trimPrefix (trimSuffix s (utf8 "\n")) (utf8 "exercise_expect: ") } }

/-- A lesson of one exercise with a demo link. -/
def statusLesson (path : String) : GoString :=
  utf8 "---\nexercise_expect: green\n---\n\x7b% exercise %\x7d\n[status](" ++ utf8 path ++
    utf8 ")\x7b:id=\"exerciseDemo\"\x7d\x7b:data-port=\"8080\"\x7d\n\x7b% endexercise %\x7d\n"

/-- A browser for tags as `Render` writes them, without character references. -/
def tagBrowser : Browser where
  element tag := (readTag tag).getD ⟨[], []⟩
  acceptsHost host := host ≠ []
  resolve href := if hasPrefix href (utf8 "/") then utf8 "https://dev.test" ++ href else href

/-- A visit with a session whose router is set. -/
def labVisit : PortState := portState "lab-7" "10.0.0.7"

end TrainingPlatform.Server
