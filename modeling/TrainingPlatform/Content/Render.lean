import TrainingPlatform.Content.Blocks
import TrainingPlatform.Content.Markdown
import TrainingPlatform.Go.Json
import TrainingPlatform.Go.Results
import TrainingPlatform.Scoring.Hash
import TrainingPlatform.Scoring.Store

/-!
# Rendering a lesson

`render` turns a lesson's bytes into a page and the challenges it registers.  The
YAML decoder, the exercise resolver, `strconv.Quote` and the text of the page
template are arguments.
-/

namespace TrainingPlatform.Content

open Go Go.Re Scoring

structure FrontMatter where
  title : GoString := []
  image : GoString := []
  terms : Option Int := none
  termImages : List GoString := []
  exerciseResult : GoString := []
  exerciseThreshold : Int := 0
  exercisePhash : GoString := []
  exerciseExpect : GoString := []
  exerciseExpectRegex : GoString := []
  deriving DecidableEq

/-- `ExerciseResolver.Resolve`; nil records exercises without a flag. -/
abbrev Resolver := Option (GoString → Int → Except GoString GoString)

/-- `pageTmpl` between its verbs, with `__CONSOLE__` a verb of its own. -/
structure PageTmpl where
  head : GoString
  style : GoString
  article : GoString
  column : GoString
  script : GoString
  terms : GoString
  images : GoString
  tail : GoString

/-- What rendering uses of other packages, and the template. -/
structure Env where
  sha : Sha256
  yaml : GoString → Except GoString FrontMatter
  quote : GoString → GoString
  pageTmpl : PageTmpl
  consoleTmpl : GoString

structure Lesson where
  slug : GoString
  frontMatter : FrontMatter
  html : GoString
  challenges : List Challenge

/-! ## Front matter -/

def maxTerminals : Int := 6

def FrontMatter.terminals (fm : FrontMatter) : Int := fm.terms.getD 1

def FrontMatter.validateTerminals (fm : FrontMatter) : Except GoString Unit :=
  let terms := fm.terms.getD 1
  if terms < 0 ∨ maxTerminals < terms then
    .error (utf8 "terms: " ++ itoa terms ++ utf8 " is out of range (0-" ++ itoa maxTerminals ++
      utf8 ")")
  else if terms < fm.termImages.length then
    .error (utf8 "term_images: has " ++ itoa fm.termImages.length ++ utf8 " entries but terms: is " ++
      itoa terms ++ utf8 " — the extra image(s) would be ignored")
  else .ok ()

def splitFrontMatter (yaml : GoString → Except GoString FrontMatter) (src : GoString) :
    Except GoString (FrontMatter × GoString) :=
  if hasPrefix src dashes then
    match cutFrontMatter src with
    | none => .error (utf8 "front matter opened with --- but never closed")
    | some (yamlPart, body) => do
      let fm ← wrapError (utf8 "parsing front matter: ") (yaml yamlPart)
      .ok (fm, body)
  else .ok ({}, src)

/-- The first reference to a terminal the lesson does not have. -/
def checkTermRefs (html : GoString) (terms : Int) : Except GoString Unit :=
  match (findAll termRefRe html).find? fun m => terms < (atoi (m.group 1)).1 with
  | none => .ok ()
  | some m =>
    let n := itoa (atoi (m.group 1)).1
    if terms = 0 then
      .error (utf8 "references .term" ++ n ++ utf8 " but the lesson has no terminals (terms: 0)")
    else
      .error (utf8 "references .term" ++ n ++ utf8 " but the lesson only has " ++ itoa terms ++
        utf8 " terminal(s) — raise terms:")

/-! ## Challenges -/

/-- `strings.ToLower` as far as `[a-z0-9]` is concerned: two runes outside ASCII
have a lower case inside. -/
def toLower : GoString → GoString
  | 0xE2 :: 0x84 :: 0xAA :: s => 0x6B :: toLower s
  | 0xC4 :: 0xB0 :: s => 0x69 :: toLower s
  | b :: s => (if 0x41 ≤ b && b ≤ 0x5A then b + 0x20 else b) :: toLower s
  | [] => []

def shortName (s : GoString) : GoString :=
  let s := toLower (trimSpace s)
  let s := replaceAll (many1 (set fun b => !((0x61 ≤ b && b ≤ 0x7A) || (0x30 ≤ b && b ≤ 0x39))))
    (fun _ => utf8 "-") s
  let s := (trim (utf8 "-") s).take 32
  if s = [] then utf8 "challenge" else s

def htmlEscape (s : GoString) : GoString :=
  s.flatMap fun b =>
    if b = 0x26 then utf8 "&amp;"
    else if b = 0x3C then utf8 "&lt;"
    else if b = 0x3E then utf8 "&gt;"
    else if b = 0x22 then utf8 "&quot;"
    else [b]

/-- `placeholderToken`. -/
def placeholderToken (i : Nat) : GoString := utf8 "<!--BLOCK:" ++ itoa i ++ utf8 "-->"

/-- The label of a choice: its flag is in the page, its mark is not. -/
def choiceHtml (sha : Sha256) (salt chHash text : GoString) : GoString :=
  utf8 "<label><input type=\"radio\" name=\"q-" ++ chHash.take 8 ++ utf8 "\" data-flag=\"" ++
    flagHash sha text salt ++ utf8 "\"> " ++ htmlEscape text ++ utf8 "</label>"

def quizHtml (sha : Sha256) (salt chHash : GoString) (q : Quiz) : GoString :=
  utf8 "<div class=\"quiz\" data-challenge=\"" ++ chHash ++ utf8 "\"><div class=\"q\">" ++
    htmlEscape q.text ++ utf8 "</div>" ++
    (q.choices.flatMap fun c => choiceHtml sha salt chHash c.text) ++
    utf8 "<button class=\"quiz-submit\">Submit</button><div class=\"verdict\"></div></div>"

def quizChallenge (sha : Sha256) (slug salt : GoString) (q : Quiz) : Challenge where
  hash := challengeHash sha q.text slug
  name := utf8 "quiz-" ++ shortName q.text
  value := 10
  flags := q.marked.map fun t => flagHash sha t salt
  verify := none

def renderQuiz (sha : Sha256) (slug salt inner : GoString) :
    Except GoString (GoString × Challenge) :=
  let q := readQuiz inner
  if q.text = [] ∨ q.choices = [] then
    .error (utf8 "quiz needs a question and at least one choice")
  else .ok (quizHtml sha salt (challengeHash sha q.text slug) q, quizChallenge sha slug salt q)

/-- Where a "Test Exercise" button sends the learner. -/
structure DemoRouting where
  port : GoString
  path : GoString
  term : GoString
  hostPrefix : GoString
  proto : GoString

def defaultDemoRouting : DemoRouting :=
  ⟨utf8 "80", utf8 "/result.html", utf8 ".term1", [], []⟩

def demoButton (chHash : GoString) (r : DemoRouting) : GoString :=
  let attrs := utf8 "data-port=\"" ++ r.port ++ utf8 "\" data-path=\"" ++ r.path ++
    utf8 "\" data-term=\"" ++ r.term ++ utf8 "\""
  let attrs := if r.hostPrefix ≠ [] then
    attrs ++ utf8 " data-host-prefix=\"" ++ r.hostPrefix ++ utf8 "\"" else attrs
  let attrs := if r.proto ≠ [] then
    attrs ++ utf8 " data-protocol=\"" ++ r.proto ++ utf8 "\"" else attrs
  utf8 "<a class=\"exercise-demo\" data-hash-code=\"" ++ chHash ++ utf8 "\" " ++ attrs ++
    utf8 " href=\"#\">Test Exercise</a>"

def autoDemoAnchor (chHash : GoString) : GoString := demoButton chHash defaultDemoRouting

def exerciseHtml (chHash text : GoString) : GoString :=
  utf8 "<div class=\"exercise\" data-challenge=\"" ++ chHash ++ utf8 "\"><div class=\"q\">" ++
    renderMarkdown text ++ utf8 "</div>" ++ autoDemoAnchor chHash ++
    utf8 "<div class=\"verdict\"></div></div>"

/-- The reference flag: the one the front matter gives, else the resolver's. -/
def exerciseFlags (fm : FrontMatter) (resolver : Resolver) : Except GoString (List GoString) :=
  if fm.exercisePhash ≠ [] then .ok [fm.exercisePhash]
  else match resolver with
    | none => .ok []
    | some resolve => do
      let flag ← wrapError (utf8 "computing exercise phash: ")
        (resolve fm.exerciseResult fm.exerciseThreshold)
      .ok [flag]

def exerciseChallenge (sha : Sha256) (slug text : GoString) (flags : List GoString) :
    Challenge where
  hash := challengeHash sha text slug
  name := utf8 "exercise-" ++ shortName text
  value := 20
  flags := flags
  verify := none

def renderExercise (sha : Sha256) (fm : FrontMatter) (resolver : Resolver)
    (slug inner : GoString) : Except GoString (GoString × Challenge) :=
  let text := trimSpace inner
  if text = [] then .error (utf8 "exercise block is empty")
  else do
    let flags ← exerciseFlags fm resolver
    .ok (exerciseHtml (challengeHash sha text slug) text, exerciseChallenge sha slug text flags)

/-! ## Demo links -/

def anchorTagRe : Re := all [lit (utf8 "<a"), wordBoundary, many (noneOf (utf8 ">")), lit (utf8 ">")]
def attrValRe : Re :=
  all [wordBoundary, group 1 (many1 (set fun b => letter b || b = 0x2D)), lit (utf8 "=\""),
    group 2 (many (noneOf (utf8 "\""))), lit (utf8 "\"")]

/-- `tagAttrs(tag)[name]`: the last attribute of that name, empty when there is none. -/
def tagAttr (tag name : GoString) : GoString :=
  (((findAll attrValRe tag).reverse.find? fun m => m.group 1 = name).map (Match.group · 2)).getD []

def orDefault (v d : GoString) : GoString := if v ≠ [] then v else d

def demoRoutingOf (tag : GoString) : DemoRouting where
  port := orDefault (tagAttr tag (utf8 "data-port")) defaultDemoRouting.port
  path := let v := tagAttr tag (utf8 "href")
    if hasPrefix v (utf8 "/") then v else defaultDemoRouting.path
  term := orDefault (tagAttr tag (utf8 "data-term")) defaultDemoRouting.term
  hostPrefix := tagAttr tag (utf8 "data-host-prefix")
  proto := tagAttr tag (utf8 "data-protocol")

/-- The tag is an authored demo link and not a built-in button. -/
def isDemoLink (tag : GoString) : Bool :=
  !contains tag (utf8 "data-hash-code=") &&
    (contains tag (utf8 "id=\"exerciseDemo\"") || contains tag (utf8 "class=\"exerciseDemo\""))

/-- Each demo link in turn gives its routing to the button of the next exercise. -/
def pairTags : List GoString → List GoString → GoString → GoString × List DemoRouting
  | [], hashes, out => (out, hashes.map fun _ => defaultDemoRouting)
  | _, [], out => (out, [])
  | tag :: tags, h :: hashes, out =>
    if isDemoLink tag then
      let r := demoRoutingOf tag
      let rest := pairTags tags hashes (replaceFirst (autoDemoAnchor h) (demoButton h r) out)
      (rest.1, r :: rest.2)
    else pairTags tags (h :: hashes) out

def pairDemoLinks (html : GoString) (hashes : List GoString) : GoString × List DemoRouting :=
  pairTags ((findAll anchorTagRe html).map Match.text) hashes html

/-! ## The page -/

def terminalImages (fm : FrontMatter) (terms : Nat) : List GoString :=
  (List.range terms).map fun i =>
    let image := trimSpace (fm.termImages.getD i [])
    if image ≠ [] then image else fm.image

def layout (env : Env) (fm : FrontMatter) (body : GoString) : GoString :=
  let title := if fm.title = [] then utf8 "training lesson" else fm.title
  let terms := (min (fm.terms.getD 1) 6).toNat
  let console := if 0 < terms then env.consoleTmpl else []
  let mainClass := utf8 (if 0 < terms then "split" else "solo")
  let images := utf8 "[" ++ join ((terminalImages fm terms).map Json.quote) (utf8 ",") ++ utf8 "]"
  let t := env.pageTmpl
  t.head ++ escapeString title ++ t.style ++ mainClass ++ t.article ++ body ++ t.column ++ console ++
    t.script ++ env.quote fm.image ++ t.terms ++ itoa terms ++ t.images ++ images ++ t.tail

/-! ## Render -/

/-- What `ReplaceAllStringFunc` makes of the blocks: the rewritten text, and the
HTML and the challenge of each block.  The first error ends it. -/
def extract (renderBlock : GoString → Except GoString (GoString × Challenge)) (rest : GoString) :
    Nat → List Block → Except GoString (GoString × List (GoString × Challenge))
  | _, [] => .ok (rest, [])
  | i, b :: bs => do
    let r ← renderBlock b.inner
    let more ← extract renderBlock rest (i + 1) bs
    .ok (b.before ++ utf8 "\n" ++ placeholderToken i ++ utf8 "\n" ++ more.1, r :: more.2)

def extractQuizzes (sha : Sha256) (slug salt body : GoString) :
    Except GoString (GoString × List (GoString × Challenge)) :=
  let bs := blocks quizWord body
  wrapError (utf8 "quiz: ") (extract (renderQuiz sha slug salt) bs.2 0 bs.1)

def extractExercises (sha : Sha256) (fm : FrontMatter) (resolver : Resolver)
    (slug : GoString) (placeholders : Nat) (body : GoString) :
    Except GoString (GoString × List (GoString × Challenge)) :=
  let bs := blocks exerciseWord body
  wrapError (utf8 "exercise: ") (extract (renderExercise sha fm resolver slug) bs.2 placeholders bs.1)

def substitute : Nat → List GoString → GoString → GoString
  | _, [], rendered => rendered
  | i, ph :: phs, rendered => substitute (i + 1) phs (replaceFirst (placeholderToken i) ph rendered)

def setVerify (h : GoString) (spec : VerifySpec) (cs : List Challenge) : List Challenge :=
  cs.map fun c => if c.hash = h then { c with verify := some spec } else c

/-- The loop over the exercises of a lesson that asserts content. -/
def assertContent (quote : GoString → GoString) (fm : FrontMatter) :
    List (GoString × DemoRouting) → List Challenge → GoString →
    Except GoString (List Challenge × GoString)
  | [], cs, rendered => .ok (cs, rendered)
  | (h, r) :: rest, cs, rendered =>
    let port := atoi r.port
    if !port.2 then .error (utf8 "exercise demo port " ++ quote r.port ++ utf8 " is not a number")
    else
      let mark := utf8 "data-hash-code=\"" ++ h ++ utf8 "\""
      assertContent quote fm rest
        (setVerify h ⟨port.1, r.path, fm.exerciseExpect, fm.exerciseExpectRegex⟩ cs)
        (replaceFirst mark (mark ++ utf8 " data-verify=\"1\"") rendered)

/-- The part of `Render` behind the blocks. -/
def finish (env : Env) (slug : GoString) (fm : FrontMatter) (body : GoString)
    (quizzes exercises : List (GoString × Challenge)) : Except GoString Lesson := do
  let blocks := quizzes ++ exercises
  let rendered := substitute 0 (blocks.map Prod.fst) (renderMarkdown body)
  let page := pairDemoLinks rendered (exercises.map fun e => e.2.hash)
  checkTermRefs page.1 fm.terminals
  let challenges := blocks.map Prod.snd
  if fm.exerciseExpect ≠ [] ∨ fm.exerciseExpectRegex ≠ [] then
    let targets := (exercises.map fun e => e.2.hash).zip page.2
    let r ← assertContent env.quote fm targets challenges page.1
    .ok ⟨slug, fm, layout env fm r.2, r.1⟩
  else .ok ⟨slug, fm, layout env fm page.1, challenges⟩

def render (env : Env) (slug src salt : GoString) (resolver : Resolver) : Except GoString Lesson := do
  let (fm, body) ← splitFrontMatter env.yaml src
  fm.validateTerminals
  let quizzes ← extractQuizzes env.sha slug salt body
  let exercises ← extractExercises env.sha fm resolver slug quizzes.2.length quizzes.1
  finish env slug fm exercises.1 quizzes.2 exercises.2

end TrainingPlatform.Content
