import TrainingPlatform.Go.Text

/-!
# Lesson sources

How a lesson is taken apart: the front matter, the `{% quiz %}` and
`{% exercise %}` blocks, and the lines of a quiz.  The expressions `quizRe`,
`exerciseRe` and `answerRe` are read off by hand, since each has one way to match
at a position.
-/

namespace TrainingPlatform.Content

open Go

/-! ## Front matter -/

/-- `\s*$` of a multi-line expression: what follows the longest match. -/
def lineEnd : GoString → Option GoString
  | [] => some []
  | b :: s =>
    if isBlank b then
      match lineEnd s with
      | some rest => some rest
      | none => if b = newline then some (b :: s) else none
    else none

def dashes : GoString := utf8 "---"

/-- `(?m)^---\s*$`: the text before the first match and the text behind it. -/
def findClose : Bool → GoString → Option (GoString × GoString)
  | _, [] => none
  | lineStart, b :: s =>
    let closing :=
      if lineStart && hasPrefix (b :: s) dashes then lineEnd ((b :: s).drop dashes.length) else none
    match closing with
    | some rest => some ([], rest)
    | none => (findClose (b = newline) s).map fun r => (b :: r.1, r.2)

def lineBreaks : GoString := utf8 "\r\n"

/-- The YAML text and the body of a source that starts with `---`. -/
def cutFrontMatter (src : GoString) : Option (GoString × GoString) :=
  (findClose true (trimLeft lineBreaks (src.drop dashes.length))).map fun r =>
    (r.1, trimLeft lineBreaks r.2)

/-- The part of a source in which blocks are looked for. -/
def bodyOf (src : GoString) : GoString :=
  if hasPrefix src dashes then
    match cutFrontMatter src with
    | none => src
    | some r => r.2
  else src

/-! ## Blocks -/

/-- What follows the tag `\x7b%\s*word\s*%\x7d` at the start of a string. -/
def stripTag (word s : GoString) : Option GoString :=
  (cutPrefix s (utf8 "\x7b%")).bind fun s =>
    (cutPrefix (s.dropWhile isBlank) word).bind fun s =>
      cutPrefix (s.dropWhile isBlank) (utf8 "%\x7d")

/-- The first tag of a string: what precedes it, its text and what follows. -/
def findTag (word : GoString) : GoString → Option (GoString × GoString × GoString)
  | [] => none
  | b :: s =>
    match stripTag word (b :: s) with
    | some rest => some ([], (b :: s).take ((b :: s).length - rest.length), rest)
    | none => (findTag word s).map fun r => (b :: r.1, r.2)

/-- A block and the text between it and the block before. -/
structure Block where
  before : GoString
  opening : GoString
  inner : GoString
  closing : GoString
  deriving DecidableEq

def Block.text (b : Block) : GoString := b.before ++ (b.opening ++ (b.inner ++ b.closing))

/-- The leftmost match of `quizRe` or `exerciseRe`: the first opening tag and the
first closing tag behind it. -/
def findBlock (word s : GoString) : Option (Block × GoString) :=
  match findTag word s with
  | none => none
  | some (before, opening, s) =>
    match findTag (utf8 "end" ++ word) s with
    | none => none
    | some (inner, closing, rest) => some (⟨before, opening, inner, closing⟩, rest)

def blocksN (word : GoString) : Nat → GoString → List Block × GoString
  | 0, s => ([], s)
  | n + 1, s =>
    match findBlock word s with
    | none => ([], s)
    | some (b, rest) => let r := blocksN word n rest; (b :: r.1, r.2)

/-- The successive matches, and the text behind the last one. -/
def blocks (word s : GoString) : List Block × GoString := blocksN word s.length s

def quizWord : GoString := utf8 "quiz"
def exerciseWord : GoString := utf8 "exercise"

/-! ## Quizzes -/

def isMark (b : UInt8) : Bool := b = 0x20 || b = 0x78 || b = 0x58

/-- Group 2 of `answerRe`, `(.+?)\s*$` behind `\s*`: of blanks alone it takes the
last. -/
def choiceText (rest : GoString) : GoString :=
  match rest.dropWhile isBlank with
  | [] => rest.drop (rest.length - 1)
  | b :: s => ((b :: s).reverse.dropWhile isBlank).reverse

/-- The groups of `answerRe`. -/
def answer (line : GoString) : Option (UInt8 × GoString) :=
  match line.dropWhile isBlank with
  | 0x2D :: s =>
    match s.dropWhile isBlank with
    | 0x5B :: m :: 0x5D :: b :: rest =>
      if isMark m then some (m, choiceText (b :: rest)) else none
    | _ => none
  | _ => none

structure Choice where
  text : GoString
  correct : Bool
  deriving DecidableEq

/-- What the loop over a quiz's lines collects. -/
structure Quiz where
  question : List GoString
  choices : List Choice
  deriving DecidableEq

def readLine (q : Quiz) (line : GoString) : Quiz :=
  match answer line with
  | some (m, text) => { q with choices := q.choices ++ [⟨text, m != 0x20⟩] }
  | none =>
    if trimSpace line ≠ [] then { q with question := q.question ++ [trimSpace line] } else q

def readQuiz (inner : GoString) : Quiz :=
  (segments (trimSpace inner)).foldl readLine ⟨[], []⟩

/-- The question, and the texts of the choices that are marked. -/
def Quiz.text (q : Quiz) : GoString := join q.question (utf8 " ")

def Quiz.marked (q : Quiz) : List GoString := (q.choices.filter Choice.correct).map Choice.text

end TrainingPlatform.Content
