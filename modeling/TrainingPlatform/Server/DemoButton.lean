import TrainingPlatform.Content.Buttons
import TrainingPlatform.Server.DemoTarget

/-!
# The button of an exercise

The demo link an exercise is paired with, as the elements of the page have it, against the
button on the page and the target the server has recorded.  What makes elements of a page is
an argument; it leaves the values of attributes as they are written.
-/

namespace TrainingPlatform.Server

open Go Content Scoring

/-! ## Pairing -/

/-- An anchor that is marked as the demo link of an exercise. -/
def isDemoAnchor (e : Element) : Bool :=
  e.name = utf8 "a" && (e.attr (utf8 "id") = some (utf8 "exerciseDemo") ||
    e.attr (utf8 "class") = some (utf8 "exerciseDemo"))

/-- Where a demo link sends the learner: the default where it does not say. -/
def anchorRouting (e : Element) : DemoRouting where
  port := orDefault (e.value "data-port") defaultDemoRouting.port
  path := if hasPrefix (e.value "href") (utf8 "/") then e.value "href" else defaultDemoRouting.path
  term := orDefault (e.value "data-term") defaultDemoRouting.term
  hostPrefix := e.value "data-host-prefix"
  proto := e.value "data-protocol"

/-- The routing of the demo link an exercise is paired with, in page order. -/
def markedRouting (parse : HtmlParser) (env : Env) (slug src salt : GoString) (k : Nat) :
    DemoRouting :=
  (((parse (blockPage env slug src salt)).filter isDemoAnchor)[k]?.map anchorRouting).getD
    defaultDemoRouting

/-- Every exercise has its button with the routing of its demo link, and where the lesson
asserts content the button is marked and the challenge has the target of the button. -/
structure Paired (parse : HtmlParser) (env : Env) (slug src salt : GoString) (l : Lesson) :
    Prop where
  buttons : l.html = layout env l.frontMatter ((pageTemplate env slug src salt).fill fun k =>
    exerciseButton l.frontMatter.asserts (exerciseHash env slug src k)
      (markedRouting parse env slug src salt k))
  targets : l.frontMatter.asserts = true → ∀ k < (exercisesOf src).length, ∃ c port,
    l.challenges[(quizzesOf src).length + k]? = some c ∧
      atoi (markedRouting parse env slug src salt k).port = (port, true) ∧
      c.verify = some ⟨port, (markedRouting parse env slug src salt k).path,
        l.frontMatter.exerciseExpect, l.frontMatter.exerciseExpectRegex⟩

/-- The tags taken for demo links have the routings of the demo links, and no button is taken
for another. -/
structure Pairable (parse : HtmlParser) (env : Env) (slug src salt : GoString) : Prop where
  marks : ∀ k < (exercisesOf src).length,
    (frontMatterOf env src).asserts = true ∨ k ∈ (pageTemplate env slug src salt).holes →
      adoptedRouting env slug src salt k = markedRouting parse env slug src salt k
  apart : ButtonsApart env slug src salt

/-! ## What is recorded -/

/-- A lesson that asserts content has numbers for ports. -/
theorem atoi_of_assertContent {quote : GoString → GoString} {fm : FrontMatter}
    {targets : List (GoString × DemoRouting)} {cs : List Challenge} {rendered : GoString}
    {r : List Challenge × GoString} (h : assertContent quote fm targets cs rendered = .ok r) :
    ∀ t ∈ targets, (atoi t.2.port).2 = true := by
  induction targets generalizing cs rendered with
  | nil => exact fun t ht => absurd ht List.not_mem_nil
  | cons target targets ih =>
    obtain ⟨hash, routing⟩ := target
    rw [assertContent] at h
    dsimp only at h
    split_ifs at h with hport
    rw [Bool.not_eq_true', Bool.not_eq_false] at hport
    exact List.forall_mem_cons.mpr ⟨hport, ih h⟩

variable {parse : HtmlParser} {env : Env} {resolver : Resolver} {slug src salt : GoString}
  {l : Lesson}

theorem getElem?_demoTargets {k : Nat} (hk : k < (exercisesOf src).length) :
    (demoTargets env slug src salt)[k]? =
      some (exerciseHash env slug src k, adoptedRouting env slug src salt k) := by
  have hhash : (exerciseHashesOf env.sha slug src)[k]? = some (exerciseHash env slug src k) := by
    rw [exerciseHashesOf, List.getElem?_map, exerciseHash, List.getElem?_eq_getElem hk]
    rfl
  rw [demoTargets, routings_demoPage, List.getElem?_zip_eq_some, List.getElem?_map,
    List.getElem?_range hk, Option.map_some]
  simp only [hhash, and_self]

/-- The target recorded for an exercise is the one of its button. -/
theorem lastTarget_demoTargets (h : ButtonsApart env slug src salt)
    (ha : (frontMatterOf env src).asserts = true) {k : Nat} (hk : k < (exercisesOf src).length) :
    lastTarget (demoTargets env slug src salt) (exerciseHash env slug src k) =
      some (adoptedRouting env slug src salt k) := by
  have hown : (demoTargets env slug src salt)[k]? = _ := getElem?_demoTargets hk
  have hsome : (lastTarget (demoTargets env slug src salt) (exerciseHash env slug src k)).isSome =
      true :=
    lastTarget_isSome.mpr (List.mem_map_of_mem (List.mem_of_getElem? hown))
  obtain ⟨r, hr⟩ := Option.isSome_iff_exists.mp hsome
  obtain ⟨j, hj⟩ := List.mem_iff_getElem?.mp (mem_of_lastTarget hr)
  have hlt : j < (exercisesOf src).length := by
    have hlen := (List.getElem?_eq_some_iff.mp hj).1
    rw [demoTargets, List.length_zip, exerciseHashesOf, List.length_map] at hlen
    exact Nat.lt_of_lt_of_le hlen (Nat.min_le_left _ _)
  rw [getElem?_demoTargets hlt, Option.some.injEq, Prod.mk.injEq] at hj
  obtain ⟨hhash, rfl⟩ := hj
  rw [hr]
  rcases Nat.lt_trichotomy j k with hjk | rfl | hjk
  · rw [((h.repeated j k hjk hk hhash).1 ha).2.2]
  · rfl
  · rw [((h.repeated k j hjk hlt hhash.symm).1 ha).2.2]

/-- The lesson asks twice for the same and has a demo link for each. -/
def sameExercises : GoString := utf8 ("---\nexercise_expect: green\n---\n" ++
  "[a](/a)\x7b:class=\"exerciseDemo\"\x7d\x7b:data-port=\"1111\"\x7d\n\n" ++
  "\x7b% exercise %\x7d\nFix it.\n\x7b% endexercise %\x7d\n\n" ++
  "[b](/b)\x7b:class=\"exerciseDemo\"\x7d\x7b:data-port=\"2222\"\x7d\n\n" ++
  "\x7b% exercise %\x7d\nFix it.\n\x7b% endexercise %\x7d\n")

theorem eq_of_values {r r' : DemoRouting} (h : r.values = r'.values) : r = r' := by
  cases r
  cases r'
  simp only [DemoRouting.values, List.cons.injEq, and_true] at h
  rw [DemoRouting.mk.injEq]
  exact h

end TrainingPlatform.Server
