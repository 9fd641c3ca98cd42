import TrainingPlatform.Go.Strings

/-!
# UTF-8 in Go strings

`unicode/utf8` reads a string as a sequence of runes.  `runeLen` is the length
of the well-formed encoding a string starts with, 0 where `DecodeRune` answers
`(RuneError, 1)`.  `toRunes` cuts a whole string this way, keeping the bytes of
each rune, and `toValid` replaces what is malformed by U+FFFD, which is what
every encoder and decoder of the standard library does with it.
-/

namespace Go

/-- A continuation byte. -/
def isCont (b : UInt8) : Bool := 0x80 ≤ b && b ≤ 0xBF

/-- Whether `b₁` may follow the lead byte `b₀` of a three- or four-byte rune:
overlong forms, surrogates and values above U+10FFFF are excluded here. -/
def acceptsSecond (b₀ b₁ : UInt8) : Bool :=
  if b₀ = 0xE0 then 0xA0 ≤ b₁ && b₁ ≤ 0xBF
  else if b₀ = 0xED then 0x80 ≤ b₁ && b₁ ≤ 0x9F
  else if b₀ = 0xF0 then 0x90 ≤ b₁ && b₁ ≤ 0xBF
  else if b₀ = 0xF4 then 0x80 ≤ b₁ && b₁ ≤ 0x8F
  else isCont b₁

/-- The byte at `i` exists and satisfies `p`. -/
def byteAt (s : GoString) (i : Nat) (p : UInt8 → Bool) : Bool := (s[i]?).any p

def runeLen : GoString → Nat
  | [] => 0
  | b₀ :: s =>
    if b₀ < 0x80 then 1
    else if b₀ < 0xC2 then 0
    else if b₀ < 0xE0 then if byteAt s 0 isCont then 2 else 0
    else if b₀ < 0xF0 then
      if byteAt s 0 (acceptsSecond b₀) && byteAt s 1 isCont then 3 else 0
    else if b₀ < 0xF5 then
      if byteAt s 0 (acceptsSecond b₀) && byteAt s 1 isCont && byteAt s 2 isCont then 4 else 0
    else 0

/-- One step of `DecodeRune`: a well-formed rune's bytes, or a byte that starts
none. -/
inductive Rune where
  | valid (bs : GoString)
  | invalid (b : UInt8)
  deriving DecidableEq

/-- `collect k acc s`: `acc` holds the first bytes of a rune that lacks `k` more. -/
def collectRunes : Nat → GoString → GoString → List Rune
  | _, _, [] => []
  | 0, _, b :: s =>
    match runeLen (b :: s) with
    | 0 => .invalid b :: collectRunes 0 [] s
    | 1 => .valid [b] :: collectRunes 0 [] s
    | k + 2 => collectRunes (k + 1) [b] s
  | 1, acc, b :: s => .valid (acc ++ [b]) :: collectRunes 0 [] s
  | k + 2, acc, b :: s => collectRunes (k + 1) (acc ++ [b]) s

def toRunes (s : GoString) : List Rune := collectRunes 0 [] s

/-- The encoding of `unicode.ReplacementChar`. -/
def replacementChar : GoString := [0xEF, 0xBF, 0xBD]

/-- The bytes a rune is written back with. -/
def Rune.bytes : Rune → GoString
  | .valid bs => bs
  | .invalid _ => replacementChar

def Rune.isValid : Rune → Bool
  | .valid _ => true
  | .invalid _ => false

def toValid (s : GoString) : GoString := (toRunes s).flatMap Rune.bytes

/-- `utf8.ValidString`. -/
def validString (s : GoString) : Bool := (toRunes s).all Rune.isValid

/-- The bytes of exactly one well-formed rune. -/
def IsRune (bs : GoString) : Prop := bs ≠ [] ∧ runeLen bs = bs.length

theorem byteAt_append {s : GoString} {i : Nat} {p : UInt8 → Bool} (h : byteAt s i p = true)
    (t : GoString) : byteAt (s ++ t) i p = true := by
  unfold byteAt at h ⊢
  cases hi : s[i]? with
  | none => simp [hi] at h
  | some b =>
    obtain ⟨hlt, -⟩ := List.getElem?_eq_some_iff.mp hi
    rwa [List.getElem?_append_left hlt]

/-- What follows a rune does not change how it is read. -/
theorem runeLen_append {bs : GoString} (h : IsRune bs) (rest : GoString) :
    runeLen (bs ++ rest) = bs.length := by
  obtain ⟨hne, hlen⟩ := h
  cases bs with
  | nil => contradiction
  | cons b₀ s =>
    rw [← hlen]
    rw [List.length_cons] at hlen
    simp only [List.cons_append, runeLen] at hlen ⊢
    split_ifs at hlen ⊢ <;> first | rfl | omega | skip
    all_goals simp_all [byteAt_append]

theorem collectRunes_append (k : Nat) (acc bs rest : GoString) (h : bs.length = k + 1) :
    collectRunes (k + 1) acc (bs ++ rest) = .valid (acc ++ bs) :: toRunes rest := by
  induction k generalizing acc bs with
  | zero =>
    obtain ⟨b, rfl⟩ := List.length_eq_one_iff.mp h
    rfl
  | succ k ih =>
    cases bs with
    | nil => simp at h
    | cons b bs =>
      have hlen : bs.length = k + 1 := by simpa using h
      rw [List.cons_append, collectRunes, ih (acc ++ [b]) bs hlen, List.append_assoc,
        List.singleton_append]

@[simp] theorem toRunes_nil : toRunes [] = [] := rfl

theorem toRunes_cons (b : UInt8) (s : GoString) :
    toRunes (b :: s) =
      match runeLen (b :: s) with
      | 0 => .invalid b :: toRunes s
      | 1 => .valid [b] :: toRunes s
      | k + 2 => collectRunes (k + 1) [b] s := rfl

theorem toRunes_append {bs : GoString} (h : IsRune bs) (rest : GoString) :
    toRunes (bs ++ rest) = .valid bs :: toRunes rest := by
  have hlen := runeLen_append h rest
  cases bs with
  | nil => exact absurd rfl h.1
  | cons b s =>
    rw [List.cons_append] at hlen ⊢
    rw [toRunes_cons, hlen]
    cases s with
    | nil => rfl
    | cons c s => exact collectRunes_append s.length [b] (c :: s) rest rfl

theorem toRunes_invalid {b : UInt8} {s : GoString} (h : runeLen (b :: s) = 0) :
    toRunes (b :: s) = .invalid b :: toRunes s := by
  rw [toRunes_cons, h]

theorem byteAt_take {s : GoString} {i n : Nat} {p : UInt8 → Bool} (h : byteAt s i p = true)
    (hi : i < n) : byteAt (s.take n) i p = true := by
  rw [byteAt, List.getElem?_take_of_lt hi]
  exact h

theorem lt_length_of_byteAt {s : GoString} {i : Nat} {p : UInt8 → Bool}
    (h : byteAt s i p = true) : i < s.length := by
  unfold byteAt at h
  cases hi : s[i]? with
  | none => simp [hi] at h
  | some b => exact (List.getElem?_eq_some_iff.mp hi).1

/-- The rune a string starts with. -/
theorem isRune_take {b₀ : UInt8} {s : GoString} (h : runeLen (b₀ :: s) ≠ 0) :
    IsRune ((b₀ :: s).take (runeLen (b₀ :: s))) := by
  have hsplit : ∀ n, runeLen (b₀ :: s) = n + 1 → runeLen (b₀ :: s.take n) = n + 1 →
      n ≤ s.length → IsRune ((b₀ :: s).take (runeLen (b₀ :: s))) := by
    intro n hn htake hle
    rw [hn, List.take_succ_cons]
    refine ⟨by simp, ?_⟩
    rw [htake, List.length_cons, List.length_take, Nat.min_eq_left hle]
  by_cases h1 : b₀ < 0x80
  · exact hsplit 0 (by simp [runeLen, h1]) (by simp [runeLen, h1]) (by omega)
  by_cases h2 : b₀ < 0xC2
  · simp [runeLen, h1, h2] at h
  by_cases h3 : b₀ < 0xE0
  · by_cases hc : byteAt s 0 isCont = true
    · have hlt := lt_length_of_byteAt hc
      exact hsplit 1 (by simp [runeLen, h1, h2, h3, hc])
        (by simp [runeLen, h1, h2, h3, byteAt_take hc]) (by omega)
    · simp [runeLen, h1, h2, h3, hc] at h
  by_cases h4 : b₀ < 0xF0
  · by_cases hc : byteAt s 0 (acceptsSecond b₀) = true ∧ byteAt s 1 isCont = true
    · have hlt := lt_length_of_byteAt hc.2
      exact hsplit 2 (by simp [runeLen, h1, h2, h3, h4, hc])
        (by simp [runeLen, h1, h2, h3, h4, byteAt_take hc.1, byteAt_take hc.2]) (by omega)
    · simp [runeLen, h1, h2, h3, h4, hc] at h
  by_cases h5 : b₀ < 0xF5
  · by_cases hc : (byteAt s 0 (acceptsSecond b₀) = true ∧ byteAt s 1 isCont = true) ∧
        byteAt s 2 isCont = true
    · have hlt := lt_length_of_byteAt hc.2
      exact hsplit 3 (by simp [runeLen, h1, h2, h3, h4, h5, hc])
        (by simp [runeLen, h1, h2, h3, h4, h5, byteAt_take hc.1.1, byteAt_take hc.1.2,
          byteAt_take hc.2]) (by omega)
    · simp [runeLen, h1, h2, h3, h4, h5, hc] at h
  simp [runeLen, h1, h2, h3, h4, h5] at h

/-- A string is empty, starts with a rune, or starts with a byte that starts
none. -/
theorem rune_cases (s : GoString) :
    s = [] ∨ (∃ bs rest, s = bs ++ rest ∧ IsRune bs) ∨
      ∃ b rest, s = b :: rest ∧ runeLen (b :: rest) = 0 := by
  cases s with
  | nil => exact .inl rfl
  | cons b s =>
    right
    by_cases h : runeLen (b :: s) = 0
    · exact .inr ⟨b, s, rfl, h⟩
    · exact .inl ⟨_, _, (List.take_append_drop _ _).symm, isRune_take h⟩

/-- Induction on a string rune by rune. -/
theorem rune_induction {P : GoString → Prop} (nil : P [])
    (valid : ∀ bs rest, IsRune bs → P rest → P (bs ++ rest))
    (invalid : ∀ b rest, runeLen (b :: rest) = 0 → P rest → P (b :: rest)) :
    ∀ s, P s := by
  intro s
  induction hn : s.length using Nat.strong_induction_on generalizing s with
  | _ n ih =>
    obtain rfl | ⟨bs, rest, rfl, hbs⟩ | ⟨b, rest, rfl, hb⟩ := rune_cases s
    · exact nil
    · have hpos := List.length_pos_of_ne_nil hbs.1
      rw [List.length_append] at hn
      exact valid bs rest hbs (ih rest.length (by omega) rest rfl)
    · rw [List.length_cons] at hn
      exact invalid b rest hb (ih rest.length (by omega) rest rfl)

/-- A string that is UTF-8 is written back unchanged. -/
theorem toValid_eq_self {s : GoString} (h : validString s = true) : toValid s = s := by
  induction s using rune_induction with
  | nil => rfl
  | valid bs rest hbs ih =>
    rw [validString, toRunes_append hbs, List.all_cons, Bool.and_eq_true] at h
    rw [toValid, toRunes_append hbs, List.flatMap_cons]
    exact congrArg (bs ++ ·) (ih h.2)
  | invalid b rest hb ih =>
    rw [validString, toRunes_invalid hb] at h
    simp [Rune.isValid] at h

/-- A rune `toRunes` can produce. -/
def Rune.WellFormed : Rune → Prop
  | .valid bs => IsRune bs
  | .invalid _ => True

theorem wellFormed_of_mem_toRunes {s : GoString} {r : Rune} (h : r ∈ toRunes s) :
    r.WellFormed := by
  induction s using rune_induction with
  | nil => simp at h
  | valid bs rest hbs ih =>
    rw [toRunes_append hbs, List.mem_cons] at h
    obtain rfl | h := h
    · exact hbs
    · exact ih h
  | invalid b rest hb ih =>
    rw [toRunes_invalid hb, List.mem_cons] at h
    obtain rfl | h := h
    · trivial
    · exact ih h

/-- What `toValid` writes is UTF-8. -/
theorem validString_toValid (s : GoString) : validString (toValid s) = true := by
  induction s using rune_induction with
  | nil => rfl
  | valid bs rest hbs ih =>
    rw [toValid, toRunes_append hbs, List.flatMap_cons, Rune.bytes, validString,
      toRunes_append hbs, List.all_cons, Rune.isValid, Bool.true_and]
    exact ih
  | invalid b rest hb ih =>
    have hrepl : IsRune replacementChar := ⟨by decide, by decide⟩
    rw [toValid, toRunes_invalid hb, List.flatMap_cons, Rune.bytes, validString,
      toRunes_append hrepl, List.all_cons, Rune.isValid, Bool.true_and]
    exact ih

theorem toValid_toValid (s : GoString) : toValid (toValid s) = toValid s :=
  toValid_eq_self (validString_toValid s)

/-- The bytes of a rune other than an ASCII one are all at least 0x80. -/
theorem IsRune.ascii_or {bs : GoString} (h : IsRune bs) :
    (∃ b, bs = [b] ∧ b < 0x80) ∨ ∀ b ∈ bs, 0x80 ≤ b := by
  have hcont : ∀ b, isCont b = true → 0x80 ≤ b := by
    intro b hb
    simp only [isCont, Bool.and_eq_true, decide_eq_true_eq] at hb
    exact hb.1
  have hsecond : ∀ b₀ b, acceptsSecond b₀ b = true → 0x80 ≤ b := by
    intro b₀ b hb
    unfold acceptsSecond isCont at hb
    grind
  obtain ⟨hne, hlen⟩ := h
  match bs with
  | [] => exact absurd rfl hne
  | [b₀] =>
    by_cases h1 : b₀ < 0x80
    · exact .inl ⟨b₀, rfl, h1⟩
    · exact .inr (by simpa using h1)
  | b₀ :: b₁ :: s =>
    right
    have hge : ¬ b₀ < 0x80 := by
      intro h1
      simp [runeLen, h1] at hlen
    have hle : s.length ≤ 2 := by
      simp only [runeLen, List.length_cons] at hlen
      split_ifs at hlen <;> omega
    match s with
    | [] => simp [runeLen, byteAt] at hlen; grind
    | [b₂] => simp [runeLen, byteAt] at hlen; grind
    | [b₂, b₃] => simp [runeLen, byteAt] at hlen; grind
    | _ :: _ :: _ :: _ => simp at hle

end Go
