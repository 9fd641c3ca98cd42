import TrainingPlatform.Go.Strings
import Mathlib.Algebra.Group.Nat.Defs

/-!
# Base64

`base64.RawURLEncoding`: six bits a digit, without padding.  The decoder skips line ends
and does not look at the bits the last digit has over; that of `base64.StdEncoding` wants the
last four digits filled up with padding.
-/

namespace Go

namespace Base64

/-- The digit of a value below 64. -/
def digit (n : Nat) : UInt8 :=
  if n < 26 then UInt8.ofNat (0x41 + n)
  else if n < 52 then UInt8.ofNat (0x61 + (n - 26))
  else if n < 62 then UInt8.ofNat (0x30 + (n - 52))
  else if n = 62 then 0x2D
  else 0x5F

def value (b : UInt8) : Option Nat :=
  if 0x41 ≤ b && b ≤ 0x5A then some (b.toNat - 0x41)
  else if 0x61 ≤ b && b ≤ 0x7A then some (b.toNat - 0x61 + 26)
  else if 0x30 ≤ b && b ≤ 0x39 then some (b.toNat - 0x30 + 52)
  else if b = 0x2D then some 62
  else if b = 0x5F then some 63
  else none

/-- The values of the digits of some bytes. -/
def sextets : List UInt8 → List Nat
  | a :: b :: c :: rest =>
    [a.toNat / 4, a.toNat % 4 * 16 + b.toNat / 16, b.toNat % 16 * 4 + c.toNat / 64, c.toNat % 64] ++
      sextets rest
  | [a, b] => [a.toNat / 4, a.toNat % 4 * 16 + b.toNat / 16, b.toNat % 16 * 4]
  | [a] => [a.toNat / 4, a.toNat % 4 * 16]
  | [] => []

/-- The bytes of some digits; one digit on its own is an error. -/
def octets : List Nat → Option (List UInt8)
  | a :: b :: c :: d :: rest => (octets rest).map fun bs =>
    [UInt8.ofNat (a * 4 + b / 16), UInt8.ofNat (b % 16 * 16 + c / 4), UInt8.ofNat (c % 4 * 64 + d)] ++
      bs
  | [a, b, c] => some [UInt8.ofNat (a * 4 + b / 16), UInt8.ofNat (b % 16 * 16 + c / 4)]
  | [a, b] => some [UInt8.ofNat (a * 4 + b / 16)]
  | [_] => none
  | [] => some []

def encodeToString (bs : List UInt8) : GoString := (sextets bs).map digit

def decodeString (s : GoString) : Option (List UInt8) :=
  ((s.filter fun b => b ≠ 0x0A ∧ b ≠ 0x0D).mapM value).bind octets

/-! ## With padding -/

def padding : UInt8 := 0x3D

/-- The value of a digit of `base64.StdEncoding`. -/
def stdValue (b : UInt8) : Option Nat :=
  if b = 0x2B then some 62
  else if b = 0x2F then some 63
  else if b = 0x2D || b = 0x5F then none
  else value b

/-- Four digits; the last ones of all may be padding. -/
def quantum (a b c d : UInt8) (last : Bool) : Option (List Nat) :=
  if last && c = padding && d = padding then [a, b].mapM stdValue
  else if last && d = padding then [a, b, c].mapM stdValue
  else [a, b, c, d].mapM stdValue

def stdSextets : GoString → Option (List Nat)
  | [] => some []
  | a :: b :: c :: d :: rest =>
    (quantum a b c d rest.isEmpty).bind fun vs => (stdSextets rest).map fun rest => vs ++ rest
  | _ => none

/-- `base64.StdEncoding.DecodeString`. -/
def stdDecodeString (s : GoString) : Option (List UInt8) :=
  (stdSextets (s.filter fun b => b ≠ 0x0A ∧ b ≠ 0x0D)).bind octets

/-! ## The round trip -/

theorem value_digit : ∀ n, n < 64 → value (digit n) = some n := by decide

/-- A digit is neither a line end nor a dot. -/
theorem digit_ne : ∀ n, n < 64 → digit n ≠ 0x0A ∧ digit n ≠ 0x0D ∧ digit n ≠ 0x2E := by decide

theorem lt_of_mem_sextets {bs : List UInt8} {n : Nat} (h : n ∈ sextets bs) : n < 64 := by
  fun_induction sextets bs with
  | case1 a b c rest ih =>
    have ha := a.toNat_lt
    have hb := b.toNat_lt
    have hc := c.toNat_lt
    rw [List.mem_append] at h
    rcases h with h | h
    · simp only [List.mem_cons, List.not_mem_nil, or_false] at h
      omega
    · exact ih h
  | case2 a b =>
    have ha := a.toNat_lt
    have hb := b.toNat_lt
    simp only [List.mem_cons, List.not_mem_nil, or_false] at h
    omega
  | case3 a =>
    have ha := a.toNat_lt
    simp only [List.mem_cons, List.not_mem_nil, or_false] at h
    omega
  | case4 => cases h

/-- A byte from its first six bits and its last two. -/
theorem octet_first (a : UInt8) {x : Nat} (hx : x < 16) :
    UInt8.ofNat (a.toNat / 4 * 4 + (a.toNat % 4 * 16 + x) / 16) = a := by
  have ha := a.toNat_lt
  apply UInt8.toNat_inj.mp
  rw [UInt8.toNat_ofNat']
  omega

theorem octet_second (n : Nat) (b : UInt8) {y : Nat} (hy : y < 4) :
    UInt8.ofNat ((n * 16 + b.toNat / 16) % 16 * 16 + (b.toNat % 16 * 4 + y) / 4) = b := by
  have hb := b.toNat_lt
  apply UInt8.toNat_inj.mp
  rw [UInt8.toNat_ofNat']
  omega

theorem octet_third (n : Nat) (c : UInt8) :
    UInt8.ofNat ((n * 4 + c.toNat / 64) % 4 * 64 + c.toNat % 64) = c := by
  have hc := c.toNat_lt
  apply UInt8.toNat_inj.mp
  rw [UInt8.toNat_ofNat']
  omega

theorem octets_sextets (bs : List UInt8) : octets (sextets bs) = some bs := by
  fun_induction sextets bs with
  | case1 a b c rest ih =>
    have hb : b.toNat / 16 < 16 := by
      have := b.toNat_lt
      omega
    have hc : c.toNat / 64 < 4 := by
      have := c.toNat_lt
      omega
    simp only [List.cons_append, List.nil_append, octets, ih, Option.map_some, octet_first a hb,
      octet_second _ b hc, octet_third]
  | case2 a b =>
    have hb : b.toNat / 16 < 16 := by
      have := b.toNat_lt
      omega
    have hlast := octet_second (a.toNat % 4) b (Nat.succ_pos 3)
    rw [Nat.add_zero] at hlast
    rw [octets, octet_first a hb, hlast]
  | case3 a =>
    have hlast := octet_first a (Nat.succ_pos 15)
    rw [Nat.add_zero] at hlast
    rw [octets, hlast]
  | case4 => rfl

theorem mapM_value_digit {ns : List Nat} (h : ∀ n ∈ ns, n < 64) :
    (ns.map digit).mapM value = some ns := by
  induction ns with
  | nil => rfl
  | cons n ns ih =>
    rw [List.forall_mem_cons] at h
    rw [List.map_cons, List.mapM_cons, value_digit n h.1, ih h.2]
    rfl

theorem decodeString_encodeToString (bs : List UInt8) :
    decodeString (encodeToString bs) = some bs := by
  have hkeep : (encodeToString bs).filter (fun b => b ≠ 0x0A ∧ b ≠ 0x0D) = encodeToString bs := by
    rw [List.filter_eq_self]
    intro b hb
    obtain ⟨n, hn, rfl⟩ := List.mem_map.mp hb
    have hne := digit_ne n (lt_of_mem_sextets hn)
    exact decide_eq_true ⟨hne.1, hne.2.1⟩
  have hvalues : (encodeToString bs).mapM value = some (sextets bs) :=
    mapM_value_digit fun _ => lt_of_mem_sextets
  rw [decodeString, hkeep, hvalues, Option.bind_some, octets_sextets]

theorem dot_notMem_encodeToString (bs : List UInt8) : (0x2E : UInt8) ∉ encodeToString bs := by
  intro h
  obtain ⟨n, hn, heq⟩ := List.mem_map.mp h
  exact (digit_ne n (lt_of_mem_sextets hn)).2.2 heq

end Base64

end Go
