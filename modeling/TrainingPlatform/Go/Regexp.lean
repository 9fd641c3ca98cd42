import TrainingPlatform.Go.Strings

/-!
# Regular expressions

A backtracking matcher with the leftmost-first rule of package `regexp`.  It
works on bytes: a class that admits one byte of a multi-byte rune must admit
all of them, which holds of ASCII literals and of negated ASCII classes.
-/

namespace Go

inductive Re where
  | eps
  | set (p : UInt8 → Bool)
  | seq (a b : Re)
  | alt (a b : Re)
  | star (greedy : Bool) (r : Re)
  | group (n : Nat) (r : Re)
  | bol
  | eol
  | wordBoundary

namespace Re

/-- A position in a text: the byte before it, and what follows. -/
structure Pos where
  before : Option UInt8
  rest : GoString

/-- The text of each group that took part in the match, the latest first. -/
abbrev Caps := List (Nat × GoString)

def isWord (b : UInt8) : Bool :=
  (0x30 ≤ b && b ≤ 0x39) || (0x41 ≤ b && b ≤ 0x5A) || (0x61 ≤ b && b ≤ 0x7A) || b = 0x5F

/-- The iterations of a star; one that consumes nothing is not repeated. -/
def starLoop {α : Type} (body : Pos → Caps → (Pos → Caps → Option α) → Option α) (greedy : Bool)
    (k : Pos → Caps → Option α) : Nat → Pos → Caps → Option α
  | 0, p, c => k p c
  | n + 1, p, c =>
    let more := body p c fun p' c' =>
      if p'.rest.length < p.rest.length then starLoop body greedy k n p' c' else none
    if greedy then more <|> k p c else k p c <|> more

def run {α : Type} : Re → Pos → Caps → (Pos → Caps → Option α) → Option α
  | eps, p, c, k => k p c
  | set f, p, c, k =>
    match p.rest with
    | [] => none
    | b :: s => if f b then k ⟨some b, s⟩ c else none
  | seq a b, p, c, k => a.run p c fun p' c' => b.run p' c' k
  | alt a b, p, c, k => a.run p c k <|> b.run p c k
  | star greedy r, p, c, k => starLoop r.run greedy k (p.rest.length + 1) p c
  | group n r, p, c, k =>
    r.run p c fun p' c' => k p' ((n, p.rest.take (p.rest.length - p'.rest.length)) :: c')
  | bol, p, c, k => if p.before.isNone then k p c else none
  | eol, p, c, k => if p.rest.isEmpty then k p c else none
  | wordBoundary, p, c, k =>
    if p.before.any isWord != p.rest.head?.any isWord then k p c else none

/-- A match: its text, its groups, and where the search goes on. -/
structure Match where
  text : GoString
  caps : Caps
  after : Pos

/-- `m[n]` of a submatch; a group that took no part is empty. -/
def Match.group (m : Match) (n : Nat) : GoString :=
  ((m.caps.find? fun c => c.1 = n).map Prod.snd).getD []

def matchAt (re : Re) (p : Pos) : Option Match :=
  re.run p [] fun p' c => some ⟨p.rest.take (p.rest.length - p'.rest.length), c, p'⟩

/-- The leftmost match and the text before it. -/
def findFrom (re : Re) (before : Option UInt8) (s : GoString) : Option (GoString × Match) :=
  match matchAt re ⟨before, s⟩ with
  | some m => some ([], m)
  | none =>
    match s with
    | [] => none
    | b :: s => (findFrom re (some b) s).map fun r => (b :: r.1, r.2)

/-- `FindStringSubmatch`. -/
def find (re : Re) (s : GoString) : Option Match := (findFrom re none s).map Prod.snd

def isMatch (re : Re) (s : GoString) : Bool := (find re s).isSome

/-- The successive matches, each with the text before it, and the text behind the
last. -/
def findAllN (re : Re) : Nat → Pos → List (GoString × Match) × GoString
  | 0, p => ([], p.rest)
  | n + 1, p =>
    match findFrom re p.before p.rest with
    | none => ([], p.rest)
    | some (pre, m) =>
      let r := findAllN re n m.after
      ((pre, m) :: r.1, r.2)

/-- `FindAllStringSubmatch` of an expression that matches no empty string. -/
def findAll (re : Re) (s : GoString) : List Match :=
  (findAllN re s.length ⟨none, s⟩).1.map Prod.snd

/-- `ReplaceAllStringFunc`, the replacement seeing the groups. -/
def replaceAll (re : Re) (f : Match → GoString) (s : GoString) : GoString :=
  let r := findAllN re s.length ⟨none, s⟩
  r.1.flatMap (fun m => m.1 ++ f m.2) ++ r.2

/-! ## Building expressions -/

def byte (b : UInt8) : Re := set (· = b)

def lit (s : GoString) : Re := s.foldr (fun b r => seq (byte b) r) eps

def many (r : Re) : Re := star true r
def many1 (r : Re) : Re := seq r (star true r)
def opt (r : Re) : Re := alt r eps

def all (rs : List Re) : Re := rs.foldr seq eps

/-- `r{1,n+1}`. -/
def upTo (r : Re) : Nat → Re
  | 0 => r
  | n + 1 => seq r (opt (upTo r n))

def digit : Re := set fun b => 0x30 ≤ b && b ≤ 0x39

def letter (b : UInt8) : Bool := (0x41 ≤ b && b ≤ 0x5A) || (0x61 ≤ b && b ≤ 0x7A)

/-- `[^...]` for ASCII bytes. -/
def noneOf (bs : GoString) : Re := set fun b => b ∉ bs

end Re

end Go
