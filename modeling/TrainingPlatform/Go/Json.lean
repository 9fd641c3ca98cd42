import TrainingPlatform.Runs
import TrainingPlatform.Go.Utf8

/-!
# encoding/json

The decoder is the byte-at-a-time machine of the package's scanner, with the
values it delimits built on its stack.  `parse` runs it over a text and then,
as the scanner does at the end of its input, over one more space.  Because a
text is a run of the machine, what it does with a concatenation or with a
prefix follows from the rules for runs.  The encoder side is `quote` and, for a
struct whose fields are strings, `object`.
-/

namespace Go.Json

/-- A JSON value; a number keeps its literal. -/
inductive Value where
  | null
  | bool (b : Bool)
  | num (lit : GoString)
  | str (s : GoString)
  | arr (vs : List Value)
  | obj (kvs : List (GoString × Value))

/-! ## Strings -/

def quoteMark : UInt8 := 0x22
def backslash : UInt8 := 0x5C

/-- One element of a string literal: a byte, or the UTF-16 unit of a `\u`
escape. -/
inductive CharUnit where
  | raw (b : UInt8)
  | code (u : Nat)

/-- `utf8.AppendRune`. -/
def encodeRune (c : Nat) : GoString :=
  if c < 0x80 then [.ofNat c]
  else if c < 0x800 then [.ofNat (0xC0 + c / 0x40), .ofNat (0x80 + c % 0x40)]
  else if 0xD800 ≤ c && c < 0xE000 || 0x110000 ≤ c then replacementChar
  else if c < 0x10000 then
    [.ofNat (0xE0 + c / 0x1000), .ofNat (0x80 + c / 0x40 % 0x40), .ofNat (0x80 + c % 0x40)]
  else
    [.ofNat (0xF0 + c / 0x40000), .ofNat (0x80 + c / 0x1000 % 0x40),
      .ofNat (0x80 + c / 0x40 % 0x40), .ofNat (0x80 + c % 0x40)]

def isHighSurrogate (u : Nat) : Bool := 0xD800 ≤ u && u < 0xDC00
def isLowSurrogate (u : Nat) : Bool := 0xDC00 ≤ u && u < 0xE000

def CharUnit.bytes : CharUnit → GoString
  | .raw b => [b]
  | .code u => encodeRune u

/-- The bytes a literal stands for before malformed UTF-8 is replaced: a pair of
surrogates is one rune, a lone one is U+FFFD. -/
def decodeUnits : List CharUnit → GoString
  | [] => []
  | .raw b :: us => b :: decodeUnits us
  | .code hi :: .code lo :: us =>
    if isHighSurrogate hi && isLowSurrogate lo then
      encodeRune (0x10000 + (hi - 0xD800) * 0x400 + (lo - 0xDC00)) ++ decodeUnits us
    else encodeRune hi ++ decodeUnits (.code lo :: us)
  | .code u :: us => encodeRune u ++ decodeUnits us

/-- An escape stands for whole runes, so replacing malformed bytes after all
escapes are decoded is what the package's `unquote` does between them. -/
def unquote (us : List CharUnit) : GoString := toValid (decodeUnits us)

def hexDigit (n : Nat) : UInt8 := if n < 10 then .ofNat (0x30 + n) else .ofNat (0x57 + n)

def hexVal (b : UInt8) : Option Nat :=
  if 0x30 ≤ b && b ≤ 0x39 then some (b.toNat - 0x30)
  else if 0x61 ≤ b && b ≤ 0x66 then some (b.toNat - 0x57)
  else if 0x41 ≤ b && b ≤ 0x46 then some (b.toNat - 0x37)
  else none

/-- The byte a two-character escape stands for. -/
def unescape (b : UInt8) : Option UInt8 :=
  if b = 0x62 then some 0x08
  else if b = 0x66 then some 0x0C
  else if b = 0x6E then some 0x0A
  else if b = 0x72 then some 0x0D
  else if b = 0x74 then some 0x09
  else if b = backslash || b = 0x2F || b = quoteMark then some b
  else none

/-- `htmlSafeSet`: the ASCII bytes that are written as they are. -/
def htmlSafe (b : UInt8) : Bool :=
  0x20 ≤ b && b ≠ quoteMark && b ≠ backslash && b ≠ 0x3C && b ≠ 0x3E && b ≠ 0x26

def escapeByte (b : UInt8) : GoString :=
  if htmlSafe b then [b]
  else if b = backslash || b = quoteMark then [backslash, b]
  else if b = 0x08 then [backslash, 0x62]
  else if b = 0x0C then [backslash, 0x66]
  else if b = 0x0A then [backslash, 0x6E]
  else if b = 0x0D then [backslash, 0x72]
  else if b = 0x09 then [backslash, 0x74]
  else [backslash, 0x75, 0x30, 0x30, hexDigit (b.toNat / 16), hexDigit (b.toNat % 16)]

/-- The separators U+2028 and U+2029 are escaped, malformed bytes become
`\ufffd`. -/
def escapeRune : Rune → GoString
  | .invalid _ => utf8 "\\ufffd"
  | .valid [b] => escapeByte b
  | .valid bs =>
    if bs = [0xE2, 0x80, 0xA8] then utf8 "\\u2028"
    else if bs = [0xE2, 0x80, 0xA9] then utf8 "\\u2029"
    else bs

def quote (s : GoString) : GoString :=
  quoteMark :: ((toRunes s).flatMap escapeRune ++ [quoteMark])

/-! ## The machine -/

/-- An open array with its elements, an object that waits for a key or for a
comma, and an object that waits for the value of a key. -/
inductive Frame where
  | array (vs : List Value)
  | key (kvs : List (GoString × Value))
  | field (kvs : List (GoString × Value)) (k : GoString)

inductive Num where
  | neg | zero | int | dot | frac | e | eSign | exp

inductive Mode where
  | value
  | valueOrEnd
  | keyOrEnd
  | key
  | colon
  | string (us : List CharUnit)
  | escape (us : List CharUnit)
  | hex (us : List CharUnit) (missing acc : Nat)
  | number (n : Num) (lit : GoString)
  | literal (rest : GoString) (v : Value)
  | afterElem
  | top (v : Value)

structure State where
  stack : List Frame
  mode : Mode

def start : State := ⟨[], .value⟩

def isSpace (b : UInt8) : Bool := b = 0x20 || b = 0x09 || b = 0x0D || b = 0x0A
def isDigit (b : UInt8) : Bool := 0x30 ≤ b && b ≤ 0x39

def maxNestingDepth : Nat := 10000

def push (f : Frame) (fs : List Frame) (m : Mode) : Option State :=
  if fs.length < maxNestingDepth then some ⟨f :: fs, m⟩ else none

/-- A finished value goes to the innermost open array or object. -/
def deliver : List Frame → Value → Option State
  | [], v => some ⟨[], .top v⟩
  | .array vs :: fs, v => some ⟨.array (vs ++ [v]) :: fs, .afterElem⟩
  | .field kvs k :: fs, v => some ⟨.key (kvs ++ [(k, v)]) :: fs, .afterElem⟩
  | .key _ :: _, _ => none

/-- A finished string is a key exactly when an object waits for one. -/
def deliverString : List Frame → GoString → Option State
  | .key kvs :: fs, s => some ⟨.field kvs s :: fs, .colon⟩
  | fs, s => deliver fs (.str s)

/-- `stateEndValue` inside an array or an object. -/
def endElem : List Frame → UInt8 → Option State
  | .array vs :: fs, b =>
    if isSpace b then some ⟨.array vs :: fs, .afterElem⟩
    else if b = 0x2C then some ⟨.array vs :: fs, .value⟩
    else if b = 0x5D then deliver fs (.arr vs)
    else none
  | .key kvs :: fs, b =>
    if isSpace b then some ⟨.key kvs :: fs, .afterElem⟩
    else if b = 0x2C then some ⟨.key kvs :: fs, .key⟩
    else if b = 0x7D then deliver fs (.obj kvs)
    else none
  | _, _ => none

def beginValue (fs : List Frame) (b : UInt8) : Option State :=
  if isSpace b then some ⟨fs, .value⟩
  else if b = 0x7B then push (.key []) fs .keyOrEnd
  else if b = 0x5B then push (.array []) fs .valueOrEnd
  else if b = quoteMark then some ⟨fs, .string []⟩
  else if b = 0x2D then some ⟨fs, .number .neg [b]⟩
  else if b = 0x30 then some ⟨fs, .number .zero [b]⟩
  else if isDigit b then some ⟨fs, .number .int [b]⟩
  else if b = 0x74 then some ⟨fs, .literal (utf8 "rue") (.bool true)⟩
  else if b = 0x66 then some ⟨fs, .literal (utf8 "alse") (.bool false)⟩
  else if b = 0x6E then some ⟨fs, .literal (utf8 "ull") .null⟩
  else none

/-- The next state of a number literal: `none` on an error, `some none` where the
literal has ended before this byte. -/
def numStep : Num → UInt8 → Option (Option Num)
  | .neg, b => if b = 0x30 then some (some .zero) else if isDigit b then some (some .int) else none
  | .int, b => if isDigit b then some (some .int) else afterInt b
  | .zero, b => afterInt b
  | .dot, b => if isDigit b then some (some .frac) else none
  | .frac, b =>
    if isDigit b then some (some .frac)
    else if b = 0x65 || b = 0x45 then some (some .e) else some none
  | .e, b =>
    if b = 0x2B || b = 0x2D then some (some .eSign)
    else if isDigit b then some (some .exp) else none
  | .eSign, b => if isDigit b then some (some .exp) else none
  | .exp, b => if isDigit b then some (some .exp) else some none
where
  afterInt (b : UInt8) : Option (Option Num) :=
    if b = 0x2E then some (some .dot)
    else if b = 0x65 || b = 0x45 then some (some .e)
    else some none

/-- `stateEndValue`: at the top level only space may follow. -/
def endValue (s : State) (b : UInt8) : Option State :=
  match s.mode with
  | .top v => if isSpace b then some ⟨s.stack, .top v⟩ else none
  | _ => endElem s.stack b

def step (s : State) (b : UInt8) : Option State :=
  match s.mode with
  | .value => beginValue s.stack b
  | .valueOrEnd =>
    if isSpace b then some s
    else if b = 0x5D then endElem s.stack b
    else beginValue s.stack b
  | .keyOrEnd =>
    if isSpace b then some s
    else if b = 0x7D then endElem s.stack b
    else if b = quoteMark then some ⟨s.stack, .string []⟩
    else none
  | .key =>
    if isSpace b then some s
    else if b = quoteMark then some ⟨s.stack, .string []⟩
    else none
  | .colon =>
    if isSpace b then some s
    else if b = 0x3A then some ⟨s.stack, .value⟩
    else none
  | .string us =>
    if b = quoteMark then deliverString s.stack (unquote us)
    else if b = backslash then some ⟨s.stack, .escape us⟩
    else if b < 0x20 then none
    else some ⟨s.stack, .string (us ++ [.raw b])⟩
  | .escape us =>
    if b = 0x75 then some ⟨s.stack, .hex us 3 0⟩
    else (unescape b).map fun c => ⟨s.stack, .string (us ++ [.raw c])⟩
  | .hex us missing acc =>
    (hexVal b).map fun d =>
      match missing with
      | 0 => ⟨s.stack, .string (us ++ [.code (16 * acc + d)])⟩
      | n + 1 => ⟨s.stack, .hex us n (16 * acc + d)⟩
  | .number n lit =>
    match numStep n b with
    | none => none
    | some (some n') => some ⟨s.stack, .number n' (lit ++ [b])⟩
    | some none => (deliver s.stack (.num lit)).bind fun s' => endValue s' b
  | .literal rest v =>
    match rest with
    | [] => none
    | c :: rest =>
      if b ≠ c then none
      else if rest = [] then deliver s.stack v
      else some ⟨s.stack, .literal rest v⟩
  | .afterElem => endElem s.stack b
  | .top v => if isSpace b then some ⟨s.stack, .top v⟩ else none

/-- The value of a whole text, `none` where `checkValid` finds an error. -/
def parse (text : GoString) : Option Value :=
  match Runs.run step start (text ++ [0x20]) with
  | some ⟨[], .top v⟩ => some v
  | _ => none

/-- `Decoder.Decode`: the first value of a stream, whatever follows it. -/
def parseFirst : State → GoString → Option Value
  | s, [] =>
    match step s 0x20 with
    | some ⟨[], .top v⟩ => some v
    | _ => none
  | s, b :: text =>
    match step s b with
    | none => none
    | some ⟨[], .top v⟩ => some v
    | some s' => parseFirst s' text

/-! ## Struct fields -/

/-- `foldName` of a key: the two non-ASCII runes that fold to an ASCII letter are
U+017F and U+212A. -/
def foldName (k : GoString) : GoString :=
  (toRunes k).flatMap fun
    | .valid [b] => if 0x61 ≤ b && b ≤ 0x7A then [b - 0x20] else [b]
    | .valid bs =>
      if bs = [0xC5, 0xBF] then [0x53] else if bs = [0xE2, 0x84, 0xAA] then [0x4B] else bs
    | .invalid _ => replacementChar

/-- Decodes into a struct of type `α`: `set` stores the value of a folded key, is
`none` on a value of the wrong type and leaves unknown keys alone.  A later
duplicate overwrites, and `null` leaves the zero value. -/
def decodeStruct {α : Type*} (set : α → GoString → Value → Option α) (zero : α) :
    Value → Option α
  | .null => some zero
  | .obj kvs => kvs.foldlM (fun r kv => set r (foldName kv.1) kv.2) zero
  | _ => none

/-- A value decoded into a field of type `string`. -/
def setString {α : Type*} (r : α) (put : GoString → α) : Value → Option α
  | .null => some r
  | .str s => some (put s)
  | _ => none

def field (kv : GoString × GoString) : GoString := quote kv.1 ++ 0x3A :: quote kv.2

/-- `Marshal` of a struct whose fields are strings, in the order of its fields. -/
def object : List (GoString × GoString) → GoString
  | [] => [0x7B, 0x7D]
  | kv :: kvs => 0x7B :: (field kv ++ kvs.flatMap (fun kv => 0x2C :: field kv) ++ [0x7D])

/-! ## What the machine does with an encoded string -/

theorem hexVal_hexDigit : ∀ n < 16, hexVal (hexDigit n) = some n := by decide

/-- A unit that cannot start a surrogate pair. -/
def CharUnit.Plain : CharUnit → Prop
  | .raw _ => True
  | .code u => isHighSurrogate u = false

theorem decodeUnits_plain {us : List CharUnit} (h : ∀ u ∈ us, u.Plain) :
    decodeUnits us = us.flatMap CharUnit.bytes := by
  induction us with
  | nil => rfl
  | cons u us ih =>
    rw [List.forall_mem_cons] at h
    cases u with
    | raw b => rw [decodeUnits, ih h.2]; rfl
    | code u =>
      have hu : isHighSurrogate u = false := h.1
      match us, ih h.2 with
      | [], _ => rfl
      | .raw b :: us, ih => rw [decodeUnits, ih]; rfl; simp
      | .code v :: us, ih => rw [decodeUnits, hu, Bool.false_and, if_neg (by simp), ih]; rfl

/-- The machine reads `text` inside a string as characters that stand for `bs`. -/
def Reads (text bs : GoString) : Prop :=
  ∃ vs : List CharUnit, (∀ u ∈ vs, u.Plain) ∧ vs.flatMap CharUnit.bytes = bs ∧
    ∀ fs us, Runs.run step ⟨fs, .string us⟩ text = some ⟨fs, .string (us ++ vs)⟩

theorem reads_nil : Reads [] [] := ⟨[], by simp, rfl, by simp⟩

theorem Reads.append {t₁ t₂ b₁ b₂ : GoString} (h₁ : Reads t₁ b₁) (h₂ : Reads t₂ b₂) :
    Reads (t₁ ++ t₂) (b₁ ++ b₂) := by
  obtain ⟨vs₁, hp₁, rfl, hr₁⟩ := h₁
  obtain ⟨vs₂, hp₂, rfl, hr₂⟩ := h₂
  refine ⟨vs₁ ++ vs₂, ?_, List.flatMap_append, ?_⟩
  · intro u hu
    exact (List.mem_append.mp hu).elim (hp₁ u) (hp₂ u)
  · intro fs us
    rw [Runs.run_append, hr₁, Option.bind_some, hr₂, List.append_assoc]

theorem reads_raw {b : UInt8} (hq : b ≠ quoteMark) (hb : b ≠ backslash) (hc : 0x20 ≤ b) :
    Reads [b] [b] := by
  refine ⟨[.raw b], by simp [CharUnit.Plain], rfl, fun fs us => ?_⟩
  have hn : ¬ b < 0x20 := by simpa using hc
  simp [Runs.run_cons, step, hq, hb, hn]

theorem reads_unescape {b c : UInt8} (hu : b ≠ 0x75) (h : unescape b = some c) :
    Reads [backslash, b] [c] := by
  refine ⟨[.raw c], by simp [CharUnit.Plain], rfl, fun fs us => ?_⟩
  have hne : backslash ≠ quoteMark := by decide
  simp [Runs.run_cons, step, hne, hu, h]

theorem reads_hex {a b c d : UInt8} {i j k l : Nat} (ha : hexVal a = some i)
    (hb : hexVal b = some j) (hc : hexVal c = some k) (hd : hexVal d = some l)
    (hs : isHighSurrogate (16 * (16 * (16 * i + j) + k) + l) = false) :
    Reads [backslash, 0x75, a, b, c, d] (encodeRune (16 * (16 * (16 * i + j) + k) + l)) := by
  refine ⟨[.code (16 * (16 * (16 * i + j) + k) + l)], by simpa [CharUnit.Plain], by
    simp [CharUnit.bytes], fun fs us => ?_⟩
  have hne : backslash ≠ quoteMark := by decide
  simp [Runs.run_cons, step, hne, ha, hb, hc, hd]

theorem reads_escapeByte {b : UInt8} (hb : b < 0x80) : Reads (escapeByte b) [b] := by
  unfold escapeByte
  split_ifs with h1 h2 h3 h4 h5 h6 h7
  · simp only [htmlSafe, Bool.and_eq_true, decide_eq_true_eq] at h1
    exact reads_raw h1.1.1.1.1.2 h1.1.1.1.2 h1.1.1.1.1.1
  · rw [Bool.or_eq_true, decide_eq_true_eq, decide_eq_true_eq] at h2
    obtain rfl | rfl := h2
    · exact reads_unescape (by decide) (by decide)
    · exact reads_unescape (by decide) (by decide)
  · exact h3 ▸ reads_unescape (by decide) (by decide)
  · exact h4 ▸ reads_unescape (by decide) (by decide)
  · exact h5 ▸ reads_unescape (by decide) (by decide)
  · exact h6 ▸ reads_unescape (by decide) (by decide)
  · exact h7 ▸ reads_unescape (by decide) (by decide)
  · have hlt : b.toNat < 128 := UInt8.lt_iff_toNat_lt.mp hb
    have hval : 16 * (16 * (16 * 0 + 0) + b.toNat / 16) + b.toNat % 16 = b.toNat := by omega
    have henc : encodeRune b.toNat = [b] := by simp [encodeRune, hlt]
    have hs : isHighSurrogate b.toNat = false := by simp [isHighSurrogate]; omega
    have := reads_hex (a := 0x30) (b := 0x30) (i := 0) (j := 0) (by decide) (by decide)
      (hexVal_hexDigit (b.toNat / 16) (by omega)) (hexVal_hexDigit (b.toNat % 16) (by omega))
      (by rwa [hval])
    rwa [hval, henc] at this

theorem reads_raws {bs : GoString} (h : ∀ b ∈ bs, 0x80 ≤ b) : Reads bs bs := by
  induction bs with
  | nil => exact reads_nil
  | cons b bs ih =>
    rw [List.forall_mem_cons] at h
    have hb : Reads [b] [b] := by
      refine reads_raw ?_ ?_ (UInt8.le_trans (by decide) h.1) <;>
        · intro heq
          subst heq
          exact absurd h.1 (by decide)
    exact hb.append (ih h.2)

theorem reads_escapeRune {r : Rune} (h : r.WellFormed) : Reads (escapeRune r) r.bytes := by
  cases r with
  | invalid b => exact reads_hex (i := 15) (j := 15) (k := 15) (l := 13) rfl rfl rfl rfl rfl
  | valid bs =>
    have hrune : IsRune bs := h
    obtain ⟨b, rfl, hb⟩ | hge := hrune.ascii_or
    · exact reads_escapeByte hb
    · match bs with
      | [] => exact absurd rfl hrune.1
      | [b] =>
        have hlt : b < 0x80 := by
          by_contra hb
          have := hrune.2
          simp [runeLen, byteAt, hb] at this
        exact reads_escapeByte hlt
      | b :: c :: bs =>
        rw [escapeRune]
        split_ifs with h1 h2
        · exact h1 ▸ reads_hex (i := 2) (j := 0) (k := 2) (l := 8) rfl rfl rfl rfl rfl
        · exact h2 ▸ reads_hex (i := 2) (j := 0) (k := 2) (l := 9) rfl rfl rfl rfl rfl
        · exact reads_raws hge
        · simp

theorem reads_escapeRunes {rs : List Rune} (h : ∀ r ∈ rs, r.WellFormed) :
    Reads (rs.flatMap escapeRune) (rs.flatMap Rune.bytes) := by
  induction rs with
  | nil => exact reads_nil
  | cons r rs ih =>
    rw [List.forall_mem_cons] at h
    rw [List.flatMap_cons, List.flatMap_cons]
    exact (reads_escapeRune h.1).append (ih h.2)

/-- An encoded string is read back with its malformed bytes replaced. -/
theorem run_quote_tail (s : GoString) (fs : List Frame) :
    Runs.run step ⟨fs, .string []⟩ ((toRunes s).flatMap escapeRune ++ [quoteMark]) =
      deliverString fs (toValid s) := by
  obtain ⟨vs, hplain, hbytes, hrun⟩ :=
    reads_escapeRunes fun r (hr : r ∈ toRunes s) => wellFormed_of_mem_toRunes hr
  have hunquote : unquote vs = toValid s := by
    rw [unquote, decodeUnits_plain hplain, hbytes]
    exact toValid_toValid s
  rw [Runs.run_append, hrun, Option.bind_some, List.nil_append, Runs.run_cons, step]
  simp [hunquote]

/-! ## Objects of strings -/

theorem run_quote {m : Mode} (hm : m = .value ∨ m = .key ∨ m = .keyOrEnd) (s : GoString)
    (fs : List Frame) :
    Runs.run step ⟨fs, m⟩ (quote s) = deliverString fs (toValid s) := by
  have hstep : step ⟨fs, m⟩ quoteMark = some ⟨fs, .string []⟩ := by
    obtain rfl | rfl | rfl := hm <;> simp [step, beginValue, isSpace, quoteMark]
  rw [quote, Runs.run_cons, hstep, Option.bind_some, run_quote_tail]

/-- The members an encoded object is read back with. -/
def members (kvs : List (GoString × GoString)) : List (GoString × Value) :=
  kvs.map fun kv => (toValid kv.1, .str (toValid kv.2))

theorem run_field {m : Mode} (hm : m = .key ∨ m = .keyOrEnd) (kv : GoString × GoString)
    (done : List (GoString × Value)) (fs : List Frame) :
    Runs.run step ⟨.key done :: fs, m⟩ (field kv) =
      some ⟨.key (done ++ members [kv]) :: fs, .afterElem⟩ := by
  rw [field, Runs.run_append, run_quote (.inr hm), deliverString, Option.bind_some,
    Runs.run_cons]
  have hcolon : step ⟨.field done (toValid kv.1) :: fs, .colon⟩ 0x3A =
      some ⟨.field done (toValid kv.1) :: fs, .value⟩ := by simp [step, isSpace]
  rw [hcolon, Option.bind_some, run_quote (.inl rfl)]
  rfl

theorem run_fields (kvs : List (GoString × GoString)) (done : List (GoString × Value))
    (fs : List Frame) :
    Runs.run step ⟨.key done :: fs, .afterElem⟩ (kvs.flatMap fun kv => 0x2C :: field kv) =
      some ⟨.key (done ++ members kvs) :: fs, .afterElem⟩ := by
  induction kvs generalizing done with
  | nil => simp [members]
  | cons kv kvs ih =>
    have hcomma : step ⟨.key done :: fs, .afterElem⟩ 0x2C = some ⟨.key done :: fs, .key⟩ := by
      simp [step, endElem, isSpace]
    rw [List.flatMap_cons, List.cons_append, Runs.run_cons, hcomma, Option.bind_some,
      Runs.run_append, run_field (.inl rfl), Option.bind_some, ih, List.append_assoc]
    rfl

/-- An encoded object is a text that leaves the object open, and its closing
brace. -/
theorem object_eq (kvs : List (GoString × GoString)) :
    ∃ body m, object kvs = body ++ [0x7D] ∧
      Runs.run step start body = some ⟨[.key (members kvs)], m⟩ ∧
      step ⟨[.key (members kvs)], m⟩ 0x7D = some ⟨[], .top (.obj (members kvs))⟩ := by
  have hopen : step start 0x7B = some ⟨[.key []], .keyOrEnd⟩ := by
    simp [step, start, beginValue, isSpace, push, maxNestingDepth]
  cases kvs with
  | nil =>
    refine ⟨[0x7B], .keyOrEnd, rfl, ?_, ?_⟩
    · rw [Runs.run_cons, hopen]
      rfl
    · simp [step, endElem, isSpace, deliver]
  | cons kv kvs =>
    refine ⟨0x7B :: (field kv ++ kvs.flatMap fun kv => 0x2C :: field kv), .afterElem,
      by simp [object], ?_, ?_⟩
    · rw [Runs.run_cons, hopen, Option.bind_some, Runs.run_append, run_field (.inr rfl),
        Option.bind_some, run_fields]
      rfl
    · simp [step, endElem, isSpace, deliver]

theorem parse_object (kvs : List (GoString × GoString)) :
    parse (object kvs) = some (.obj (members kvs)) := by
  obtain ⟨body, m, heq, hbody, hclose⟩ := object_eq kvs
  have hspace : step ⟨[], .top (.obj (members kvs))⟩ 0x20 =
      some ⟨[], .top (.obj (members kvs))⟩ := by simp [step, isSpace]
  rw [parse, heq, List.append_assoc, Runs.run_append, hbody, Option.bind_some,
    List.singleton_append, Runs.run_cons, hclose, Option.bind_some, Runs.run_cons, hspace]
  rfl

/-! ## Prefixes -/

/-- A scalar at the top level, or its end: nothing can be opened any more. -/
def State.Bottom (s : State) : Prop :=
  s.stack = [] ∧ match s.mode with
    | .string _ | .escape _ | .hex _ _ _ | .number _ _ | .literal _ _ | .top _ => True
    | _ => False

theorem bottom_step {s s' : State} {b : UInt8} (hs : s.Bottom) (h : step s b = some s') :
    s'.Bottom := by
  obtain ⟨fs, m⟩ := s
  obtain ⟨rfl, hm⟩ := hs
  cases m with
  | value | valueOrEnd | keyOrEnd | key | colon | afterElem => exact hm.elim
  | string us =>
    simp only [step, deliverString, deliver] at h
    split_ifs at h <;> (cases h; exact ⟨rfl, trivial⟩)
  | escape us =>
    simp only [step] at h
    split_ifs at h
    · cases h
      exact ⟨rfl, trivial⟩
    · obtain ⟨c, -, rfl⟩ := Option.map_eq_some_iff.mp h
      exact ⟨rfl, trivial⟩
  | hex us n acc =>
    obtain ⟨d, -, rfl⟩ := Option.map_eq_some_iff.mp h
    cases n <;> exact ⟨rfl, trivial⟩
  | number n lit =>
    simp only [step, deliver, Option.bind_some, endValue] at h
    split at h
    · cases h
    · cases h
      exact ⟨rfl, trivial⟩
    · split_ifs at h
      cases h
      exact ⟨rfl, trivial⟩
  | literal rest v =>
    cases rest with
    | nil => cases h
    | cons c rest =>
      simp only [step, deliver] at h
      split_ifs at h <;> (cases h; exact ⟨rfl, trivial⟩)
  | top v =>
    simp only [step] at h
    split_ifs at h
    cases h
    exact ⟨rfl, trivial⟩

/-- Only a state at the bottom accepts at the end of the input. -/
theorem bottom_of_accept {s : State} {v : Value} (h : step s 0x20 = some ⟨[], .top v⟩) :
    s.Bottom := by
  have hsp : isSpace 0x20 = true := by decide
  obtain ⟨fs, m⟩ := s
  cases m with
  | value => simp [step, beginValue, hsp] at h
  | valueOrEnd | keyOrEnd | key | colon => simp [step, hsp] at h
  | string us => simp [step, quoteMark, backslash] at h
  | escape us => simp [step, unescape, quoteMark, backslash] at h
  | hex us n acc => simp [step, hexVal] at h
  | number n lit =>
    cases fs with
    | nil => exact ⟨rfl, trivial⟩
    | cons f fs =>
      simp only [step] at h
      split at h
      · cases h
      · cases h
      · cases f <;> simp [deliver, endValue, endElem, hsp] at h
  | literal rest v =>
    cases fs with
    | nil => exact ⟨rfl, trivial⟩
    | cons f fs =>
      cases rest with
      | nil => cases h
      | cons c rest =>
        simp only [step] at h
        split_ifs at h <;> cases f <;> simp [deliver] at h
  | afterElem => cases fs with
    | nil => simp [step, endElem] at h
    | cons f fs => cases f <;> simp [step, endElem, hsp] at h
  | top v =>
    simp only [step, hsp, if_true, Option.some.injEq, State.mk.injEq] at h
    exact ⟨h.1, trivial⟩

/-- A text that something has to follow is not a value. -/
theorem parse_open {p q : GoString} {s : State} (h : Runs.run step start (p ++ q) = some s)
    (hs : s.stack ≠ []) : parse p = none := by
  obtain ⟨m, hp, hq⟩ := Runs.run_append_some.mp h
  rw [parse, Runs.run_append, hp, Option.bind_some, Runs.run_cons]
  cases hm : step m 0x20 with
  | none => rfl
  | some t =>
    rw [Option.bind_some, Runs.run_nil]
    split
    · next v heq =>
      have hbot : m.Bottom := bottom_of_accept (hm.trans heq)
      have := Runs.run_invariant (I := State.Bottom) (fun _ _ _ => bottom_step) hbot hq
      exact absurd this.1 hs
    · rfl

/-- No proper prefix of an encoded object is a value. -/
theorem parse_prefix_object {p : GoString} {kvs : List (GoString × GoString)}
    (h : p <+: object kvs) (hne : p ≠ object kvs) : parse p = none := by
  obtain ⟨body, m, heq, hbody, -⟩ := object_eq kvs
  rw [heq] at h hne
  obtain ⟨q, hq⟩ := List.prefix_concat_iff.mp h |>.resolve_left hne
  rw [← hq] at hbody
  exact parse_open hbody (by simp)

/-! ## Control characters -/

theorem control_free_hexDigit : ∀ n < 16, 0x20 ≤ hexDigit n := by decide

theorem control_free_escapeByte (b : UInt8) : ∀ c ∈ escapeByte b, 0x20 ≤ c := by
  have hlt : b.toNat < 256 := b.toNat_lt
  unfold escapeByte
  split_ifs with h1 h2
  · simp only [htmlSafe, Bool.and_eq_true, decide_eq_true_eq] at h1
    simpa using h1.1.1.1.1.1
  · rw [Bool.or_eq_true, decide_eq_true_eq, decide_eq_true_eq] at h2
    obtain rfl | rfl := h2 <;> decide +kernel
  all_goals try decide +kernel
  intro c hc
  have hdigits : c = backslash ∨ c = 0x75 ∨ c = 0x30 ∨
      c = hexDigit (b.toNat / 16) ∨ c = hexDigit (b.toNat % 16) := by simpa using hc
  obtain rfl | rfl | rfl | rfl | rfl := hdigits
  · decide
  · decide
  · decide
  · exact control_free_hexDigit _ (by omega)
  · exact control_free_hexDigit _ (by omega)

theorem control_free_escapeRune {r : Rune} (h : r.WellFormed) :
    ∀ c ∈ escapeRune r, 0x20 ≤ c := by
  cases r with
  | invalid b =>
    have hfixed : ∀ c ∈ utf8 "\\ufffd", 0x20 ≤ c := by decide +kernel
    exact hfixed
  | valid bs =>
    have hrune : IsRune bs := h
    match bs with
    | [] => exact absurd rfl hrune.1
    | [b] => exact control_free_escapeByte b
    | b :: c :: bs =>
      rw [escapeRune]
      · split_ifs with h1 h2
        · decide +kernel
        · decide +kernel
        · obtain ⟨b, hb, -⟩ | hge := hrune.ascii_or
          · simp at hb
          · exact fun d hd => UInt8.le_trans (by decide) (hge d hd)
      · simp

/-- An encoded string has no control characters, so it stays on its line. -/
theorem control_free_quote (s : GoString) : ∀ b ∈ quote s, 0x20 ≤ b := by
  intro b hb
  rw [quote, List.mem_cons, List.mem_append, List.mem_flatMap, List.mem_singleton] at hb
  obtain rfl | ⟨r, hr, hb⟩ | rfl := hb
  · decide
  · exact control_free_escapeRune (wellFormed_of_mem_toRunes hr) b hb
  · decide

theorem control_free_field (kv : GoString × GoString) : ∀ b ∈ field kv, 0x20 ≤ b := by
  intro b hb
  rw [field, List.mem_append, List.mem_cons] at hb
  obtain hb | rfl | hb := hb
  · exact control_free_quote _ b hb
  · decide
  · exact control_free_quote _ b hb

theorem control_free_object (kvs : List (GoString × GoString)) :
    ∀ b ∈ object kvs, 0x20 ≤ b := by
  intro b hb
  cases kvs with
  | nil =>
    obtain rfl | rfl : b = 0x7B ∨ b = 0x7D := by simpa [object] using hb
    · decide
    · decide
  | cons kv kvs =>
    rw [object, List.mem_cons, List.mem_append, List.mem_append, List.mem_flatMap,
      List.mem_singleton] at hb
    obtain rfl | (hb | ⟨kv', -, hb⟩) | rfl := hb
    · decide
    · exact control_free_field kv b hb
    · obtain rfl | hb := List.mem_cons.mp hb
      · decide
      · exact control_free_field kv' b hb
    · decide

end Go.Json
