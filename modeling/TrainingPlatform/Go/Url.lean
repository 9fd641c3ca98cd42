import TrainingPlatform.Go.Decimal
import TrainingPlatform.Go.Regexp

/-!
# URLs

The request target a browser makes of an address, after the URL Standard, and the one
package `url` makes of a path.  The two encode different bytes.
-/

namespace Go

/-! ## Percent-encoding -/

def upperHex (n : Nat) : UInt8 := UInt8.ofNat (if n < 10 then 0x30 + n else 0x37 + n)

/-- `%XX`. -/
def percentByte (b : UInt8) : GoString :=
  [0x25, upperHex (b.toNat / 16), upperHex (b.toNat % 16)]

def percentEncode (keep : UInt8 → Bool) (s : GoString) : GoString :=
  s.flatMap fun b => if keep b then [b] else percentByte b

/-- The bytes `shouldEscape` leaves alone in a path. -/
def keptByUrl (b : UInt8) : Bool :=
  Re.letter b || isDecimal b || (utf8 "-_.~$&+,/:;=@").contains b

/-- `URL.EscapedPath` of a path given as such. -/
def escapedPath (path : GoString) : GoString := percentEncode keptByUrl path

/-- The bytes outside the path percent-encode set. -/
def keptInPath (b : UInt8) : Bool :=
  !(b ≤ 0x20 || 0x7F ≤ b || (utf8 "\"#<>?^`\x7b\x7d").contains b)

/-- The bytes outside the special-query percent-encode set. -/
def keptInQuery (b : UInt8) : Bool := !(b ≤ 0x20 || 0x7F ≤ b || (utf8 "\"#<>'").contains b)

/-! ## The URL parser -/

def asciiLower (s : GoString) : GoString :=
  s.map fun b => if 0x41 ≤ b && b ≤ 0x5A then b + 0x20 else b

def isUrlSlash (b : UInt8) : Bool := b = 0x2F || b = 0x5C

def isSingleDot (segment : GoString) : Bool :=
  [utf8 ".", utf8 "%2e"].contains (asciiLower segment)

def isDoubleDot (segment : GoString) : Bool :=
  [utf8 "..", utf8 ".%2e", utf8 "%2e.", utf8 "%2e%2e"].contains (asciiLower segment)

/-- The path, last segment first, behind the segments that are left. -/
def pathSegments : List GoString → List GoString → List GoString
  | path, [] => path
  | path, [s] =>
    if isDoubleDot s then [] :: path.tail else if isSingleDot s then [] :: path else s :: path
  | path, s :: segments =>
    if isDoubleDot s then pathSegments path.tail segments
    else if isSingleDot s then pathSegments path segments
    else pathSegments (s :: path) segments

/-- The path and the query of an http address, before they are encoded.  Whether the host
is one is for `acceptsHost` to say. -/
def parseUrl (acceptsHost : GoString → Bool) (url : GoString) :
    Option (GoString × Option GoString) :=
  let trimmed := ((url.dropWhile (· ≤ 0x20)).reverse.dropWhile (· ≤ 0x20)).reverse
  let s := (trimmed.filter fun b => b ≠ 0x09 && b ≠ 0x0A && b ≠ 0x0D).takeWhile (· ≠ 0x23)
  let scheme := asciiLower (s.takeWhile (· ≠ 0x3A))
  if scheme ≠ utf8 "http" && scheme ≠ utf8 "https" then none
  else
    let s := ((s.dropWhile (· ≠ 0x3A)).drop 1).dropWhile isUrlSlash
    let host := s.takeWhile fun b => !isUrlSlash b && b ≠ 0x3F
    if !acceptsHost host then none
    else
      let s := s.drop host.length
      let segments := pathSegments [] ((s.takeWhile (· ≠ 0x3F)).tail.splitOnP isUrlSlash)
      let query := s.dropWhile (· ≠ 0x3F)
      some (segments.reverse.flatMap (0x2F :: ·), if query = [] then none else some query.tail)

/-- What a browser asks the host of an address for. -/
def requestTarget (acceptsHost : GoString → Bool) (url : GoString) : Option GoString :=
  (parseUrl acceptsHost url).map fun parts =>
    percentEncode keptInPath parts.1 ++
      (parts.2.map fun query => 0x3F :: percentEncode keptInQuery query).getD []

/-! ## Spellings -/

/-- One text spells another for two encoders: byte by byte as it is where they treat the
byte alike, or encoded where the second encodes it. -/
inductive Spells (keep keep' : UInt8 → Bool) : GoString → GoString → Prop
  | nil : Spells keep keep' [] []
  | same {b : UInt8} {p v : GoString} (hb : keep b = keep' b) (h : Spells keep keep' p v) :
      Spells keep keep' (b :: p) (b :: v)
  | encoded {b : UInt8} {p v : GoString} (hb : keep' b = false) (h : Spells keep keep' p v) :
      Spells keep keep' (percentByte b ++ p) (b :: v)

theorem toNat_upperHex {n : Nat} (hn : n < 16) :
    (upperHex n).toNat = if n < 10 then 0x30 + n else 0x37 + n := by
  rw [upperHex, UInt8.toNat_ofNat']
  split_ifs <;> omega

theorem upperHex_injective {m n : Nat} (hm : m < 16) (hn : n < 16) (h : upperHex m = upperHex n) :
    m = n := by
  have hnat := congrArg UInt8.toNat h
  rw [toNat_upperHex hm, toNat_upperHex hn] at hnat
  split_ifs at hnat <;> omega

theorem percentByte_injective {b c : UInt8} (h : percentByte b = percentByte c) : b = c := by
  rw [percentByte, percentByte, List.cons.injEq, List.cons.injEq, List.cons.injEq] at h
  have hb : b.toNat < 256 := b.toNat_lt
  have hc : c.toNat < 256 := c.toNat_lt
  have hhigh := upperHex_injective (by omega) (by omega) h.2.1
  have hlow := upperHex_injective (by omega) (by omega) h.2.2.1
  refine UInt8.toNat_inj.mp ?_
  omega

theorem upperHex_ne_sign {n : Nat} (hn : n < 16) : upperHex n ≠ 0x25 := by
  intro h
  have hnat := congrArg UInt8.toNat h
  rw [toNat_upperHex hn] at hnat
  split_ifs at hnat
  · exact absurd hnat (by simp; omega)
  · exact absurd hnat (by simp; omega)

section Spellings

variable {keep keep' : UInt8 → Bool}

@[simp] theorem percentEncode_nil : percentEncode keep [] = [] := rfl

theorem percentEncode_cons (b : UInt8) (s : GoString) :
    percentEncode keep (b :: s) =
      (if keep b then [b] else percentByte b) ++ percentEncode keep s :=
  List.flatMap_cons

theorem percentEncode_cons_of_kept {b : UInt8} (hb : keep b = true) (s : GoString) :
    percentEncode keep (b :: s) = b :: percentEncode keep s := by
  rw [percentEncode_cons, if_pos hb, List.singleton_append]

theorem percentEncode_cons_of_not_kept {b : UInt8} (hb : keep b = false) (s : GoString) :
    percentEncode keep (b :: s) = percentByte b ++ percentEncode keep s := by
  rw [percentEncode_cons, hb, if_neg Bool.false_ne_true]

/-- A byte an encoded text starts with, other than the sign, was there before. -/
theorem exists_of_percentEncode_eq_cons {b : UInt8} {s t : GoString} (hb : b ≠ 0x25)
    (h : percentEncode keep s = b :: t) :
    keep b = true ∧ ∃ s', s = b :: s' ∧ percentEncode keep s' = t := by
  cases s with
  | nil => cases h
  | cons c s =>
    cases hc : keep c with
    | true =>
      rw [percentEncode_cons_of_kept hc, List.cons.injEq] at h
      exact ⟨h.1 ▸ hc, s, by rw [h.1], h.2⟩
    | false =>
      rw [percentEncode_cons_of_not_kept hc, percentByte, List.cons_append, List.cons.injEq] at h
      exact absurd h.1.symm hb

/-- An encoded byte comes from that byte or was written so. -/
theorem exists_of_percentEncode_eq_percentByte {b : UInt8} {s t : GoString}
    (h : percentEncode keep s = percentByte b ++ t) :
    ∃ s', percentEncode keep s' = t ∧ (keep b = false ∧ s = b :: s' ∨ s = percentByte b ++ s') := by
  have hlt : b.toNat < 256 := b.toNat_lt
  cases s with
  | nil => cases h
  | cons c s =>
    cases hc : keep c with
    | true =>
      rw [percentEncode_cons_of_kept hc, percentByte, List.cons_append, List.cons.injEq] at h
      obtain ⟨hcb, h⟩ := h
      obtain ⟨-, s₁, rfl, h₁⟩ := exists_of_percentEncode_eq_cons (upperHex_ne_sign (by omega)) h
      obtain ⟨-, s₂, rfl, h₂⟩ := exists_of_percentEncode_eq_cons (upperHex_ne_sign (by omega)) h₁
      exact ⟨s₂, h₂, .inr (by rw [hcb]; rfl)⟩
    | false =>
      rw [percentEncode_cons_of_not_kept hc] at h
      obtain ⟨hbyte, hrest⟩ := List.append_inj h rfl
      have hcb := percentByte_injective hbyte
      exact ⟨s, hrest, .inl ⟨hcb ▸ hc, by rw [hcb]⟩⟩

-- The first encoder leaves encoded bytes alone and the second encodes the sign.
variable (hsign : keep 0x25 = true) (hhex : ∀ n < 16, keep (upperHex n) = true)
include hsign hhex

theorem percentEncode_percentByte (b : UInt8) (s : GoString) :
    percentEncode keep (percentByte b ++ s) = percentByte b ++ percentEncode keep s := by
  have hb : b.toNat < 256 := b.toNat_lt
  simp [percentEncode, percentByte, hsign, hhex (b.toNat / 16) (by omega),
    hhex (b.toNat % 16) (by omega)]

/-- The encoders agree on two texts exactly when the first text spells the second. -/
theorem percentEncode_eq_iff_spells (hsign' : keep' 0x25 = false) {p v : GoString} :
    percentEncode keep p = percentEncode keep' v ↔ Spells keep keep' p v := by
  constructor
  · intro h
    induction v generalizing p with
    | nil =>
      cases p with
      | nil => exact .nil
      | cons b p =>
        rw [percentEncode_cons] at h
        split_ifs at h <;> cases h
    | cons b v ih =>
      cases hb : keep' b with
      | true =>
        have hne : b ≠ 0x25 := by
          rintro rfl
          rw [hb] at hsign'
          cases hsign'
        rw [percentEncode_cons_of_kept hb] at h
        obtain ⟨hkeep, p', rfl, hp'⟩ := exists_of_percentEncode_eq_cons hne h
        exact .same (hkeep.trans hb.symm) (ih hp')
      | false =>
        rw [percentEncode_cons_of_not_kept hb] at h
        obtain ⟨p', hp', ⟨hkeep, rfl⟩ | rfl⟩ := exists_of_percentEncode_eq_percentByte h
        · exact .same (hkeep.trans hb.symm) (ih hp')
        · exact .encoded hb (ih hp')
  · intro h
    induction h with
    | nil => rfl
    | same hb _ ih => rw [percentEncode_cons, percentEncode_cons, hb, ih]
    | encoded hb _ ih =>
      rw [percentEncode_percentByte hsign hhex, percentEncode_cons_of_not_kept hb, ih]

end Spellings

theorem sign_not_kept : keptByUrl 0x25 = false := by decide

theorem question_not_mem_percentEncode {keep : UInt8 → Bool} (hkeep : keep 0x3F = false)
    (s : GoString) : 0x3F ∉ percentEncode keep s := by
  rw [percentEncode, List.mem_flatMap]
  rintro ⟨b, -, hb⟩
  have hlt : b.toNat < 256 := b.toNat_lt
  split_ifs at hb with hkept
  · rw [← List.mem_singleton.mp hb, hkeep] at hkept
    cases hkept
  · have hne : ∀ n < 16, (0x3F : UInt8) ≠ upperHex n := by decide
    simp only [percentByte, List.mem_cons, List.not_mem_nil, or_false] at hb
    rcases hb with hb | hb | hb
    · cases hb
    · exact hne _ (by omega) hb
    · exact hne _ (by omega) hb

theorem question_not_mem_escapedPath (v : GoString) : 0x3F ∉ escapedPath v :=
  question_not_mem_percentEncode (by decide) v

/-- A browser asks for the path package `url` writes exactly when the address has no query
and its path spells the one given. -/
theorem requestTarget_eq_escapedPath_iff {acceptsHost : GoString → Bool} {url v : GoString} :
    requestTarget acceptsHost url = some (escapedPath v) ↔
      ∃ path, parseUrl acceptsHost url = some (path, none) ∧ Spells keptInPath keptByUrl path v := by
  have hhex : ∀ n < 16, keptInPath (upperHex n) = true := by decide
  have hspells : ∀ {path}, percentEncode keptInPath path = escapedPath v ↔
      Spells keptInPath keptByUrl path v :=
    percentEncode_eq_iff_spells (by decide) hhex sign_not_kept
  rw [requestTarget, Option.map_eq_some_iff]
  constructor
  · rintro ⟨⟨path, query⟩, hparse, htarget⟩
    cases query with
    | none =>
      rw [Option.map_none, Option.getD_none, List.append_nil] at htarget
      exact ⟨path, hparse, hspells.mp htarget⟩
    | some query =>
      rw [Option.map_some, Option.getD_some] at htarget
      refine absurd ?_ (question_not_mem_escapedPath v)
      rw [← htarget]
      exact List.mem_append_right _ List.mem_cons_self
  · rintro ⟨path, hparse, h⟩
    refine ⟨(path, none), hparse, ?_⟩
    rw [Option.map_none, Option.getD_none, List.append_nil]
    exact hspells.mpr h

end Go
