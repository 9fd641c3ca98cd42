import TrainingPlatform.Go.Decimal
import TrainingPlatform.Scoring.Hash
import TrainingPlatform.Scoring.Store

/-!
# Perceptual-hash flags

The text of an exercise's reference flag, and what the grader reads in it.
-/

namespace TrainingPlatform.Scoring

open Go

def defaultPhashThreshold : Int := 12

/-- `phash$`. -/
def phashMark : GoString := utf8 "phash$"

def hexByte (d : Nat) : UInt8 := UInt8.ofNat (if d < 10 then 0x30 + d else 0x57 + d)

/-- The last `k` digits of `%x`, with leading zeros. -/
def hexDigits : Nat → Nat → GoString
  | 0, _ => []
  | k + 1, n => hexDigits k (n / 16) ++ [hexByte (n % 16)]

/-- `fmt.Sprintf("phash$%016x:%d", hash, threshold)` of a `uint64` and an `int`. -/
def phashFlag (hash : Nat) (threshold : Int) : GoString :=
  phashMark ++ (hexDigits 16 hash ++ (utf8 ":" ++ itoa threshold))

def hexValue (b : UInt8) : Option Nat :=
  if 0x30 ≤ b && b ≤ 0x39 then some (b.toNat - 0x30)
  else if 0x61 ≤ b && b ≤ 0x66 then some (b.toNat - 0x57)
  else if 0x41 ≤ b && b ≤ 0x46 then some (b.toNat - 0x37)
  else none

/-- The loop of `strconv.ParseUint` in base 16, without its limit. -/
def hexNumber (n : Nat) : GoString → Option Nat
  | [] => some n
  | b :: s => (hexValue b).bind fun d => hexNumber (16 * n + d) s

/-- `strconv.ParseUint(s, 16, 64)`. -/
def parseUint16 (s : GoString) : Option Nat :=
  if s = [] then none else (hexNumber 0 s).filter fun n => n < 2 ^ 64

/-- The reference hash and the threshold of a flag; one that does not parse leaves the
default. -/
def parsePhashFlag (flag : GoString) (default : Int) : Option (Nat × Int) :=
  (cutPrefix flag phashMark).bind fun s =>
    let hex := s.takeWhile (· ≠ 0x3A)
    let t := (s.dropWhile (· ≠ 0x3A)).drop 1
    let threshold := if s.contains 0x3A && (atoi t).2 then (atoi t).1 else default
    (parseUint16 hex).map fun h => (h, threshold)

/-- The digest of a choice is no perceptual-hash flag. -/
theorem isPhashFlag_hex (sha : Sha256) (s : GoString) : isPhashFlag (sha.hex s) = false := by
  rw [Bool.eq_false_iff]
  intro h
  rw [isPhashFlag, Bool.and_eq_true, beq_iff_eq] at h
  have hmem : (0x70 : UInt8) ∈ sha.hex s := by
    refine List.mem_of_mem_take (i := 6) ?_
    rw [h.2]
    decide
  exact absurd (sha.digits s _ hmem) (by decide)

/-! ## Reading back -/

theorem hexValue_hexByte : ∀ d < 16, hexValue (hexByte d) = some d := by decide

theorem hexNumber_append (s t : GoString) (n : Nat) :
    hexNumber n (s ++ t) = (hexNumber n s).bind fun m => hexNumber m t := by
  induction s generalizing n with
  | nil => rfl
  | cons b s ih =>
    rw [List.cons_append, hexNumber, hexNumber]
    cases hexValue b with
    | none => rfl
    | some d => exact ih _

theorem hexNumber_hexDigits (k n : Nat) : hexNumber 0 (hexDigits k n) = some (n % 16 ^ k) := by
  induction k generalizing n with
  | zero => rw [hexDigits, hexNumber, Nat.pow_zero, Nat.mod_one]
  | succ k ih =>
    have hd := hexValue_hexByte (n % 16) (Nat.mod_lt n (by decide))
    have hsum : 16 * (n / 16 % 16 ^ k) + n % 16 = n % 16 ^ (k + 1) := by
      rw [Nat.pow_succ, Nat.mul_comm (16 ^ k) 16, Nat.mod_mul]
      omega
    rw [hexDigits, hexNumber_append, ih, Option.bind_some, hexNumber, hd, Option.bind_some,
      hexNumber, hsum]

theorem length_hexDigits (k n : Nat) : (hexDigits k n).length = k := by
  induction k generalizing n with
  | zero => rfl
  | succ k ih => rw [hexDigits, List.length_append, ih, List.length_singleton]

theorem isLowerHex_hexDigits {k n : Nat} {b : UInt8} (h : b ∈ hexDigits k n) :
    isLowerHex b = true := by
  have hdigit : ∀ d < 16, isLowerHex (hexByte d) = true := by decide
  induction k generalizing n with
  | zero => cases h
  | succ k ih =>
    rw [hexDigits, List.mem_append, List.mem_singleton] at h
    rcases h with h | rfl
    · exact ih h
    · exact hdigit _ (Nat.mod_lt n (by decide))

theorem colon_not_mem_hexDigits (k n : Nat) : 0x3A ∉ hexDigits k n :=
  fun h => absurd (isLowerHex_hexDigits h) (by decide)

theorem parseUint16_hexDigits {n : Nat} (hn : n < 2 ^ 64) :
    parseUint16 (hexDigits 16 n) = some n := by
  have hne : hexDigits 16 n ≠ [] := List.append_ne_nil_of_right_ne_nil _ (List.cons_ne_nil _ _)
  have hpow : (16 : Nat) ^ 16 = 2 ^ 64 := by decide
  rw [parseUint16, if_neg hne, hexNumber_hexDigits, hpow, Nat.mod_eq_of_lt hn]
  exact if_pos (decide_eq_true hn)

/-- The grader reads a flag as it was written. -/
theorem parsePhashFlag_phashFlag {hash : Nat} {t : Int} (hhash : hash < 2 ^ 64)
    (hlow : -(2 ^ 63) ≤ t) (hhigh : t < 2 ^ 63) (default : Int) :
    parsePhashFlag (phashFlag hash t) default = some (hash, t) := by
  have hhex : ∀ b ∈ hexDigits 16 hash, decide (b ≠ 0x3A) = true := by
    intro b hb
    refine decide_eq_true fun heq => ?_
    subst heq
    exact colon_not_mem_hexDigits 16 hash hb
  have hcolon : utf8 ":" = [0x3A] := by decide
  have htake : (hexDigits 16 hash ++ 0x3A :: itoa t).takeWhile (fun b => decide (b ≠ 0x3A)) =
      hexDigits 16 hash := by
    rw [List.takeWhile_append_of_pos hhex, List.takeWhile_cons_of_neg (by decide), List.append_nil]
  have hdrop : (hexDigits 16 hash ++ 0x3A :: itoa t).dropWhile (fun b => decide (b ≠ 0x3A)) =
      0x3A :: itoa t := by
    rw [List.dropWhile_append_of_pos hhex, List.dropWhile_cons_of_neg (by decide)]
  have hcut : cutPrefix (phashFlag hash t) phashMark =
      some (hexDigits 16 hash ++ 0x3A :: itoa t) := by
    rw [phashFlag, hcolon, List.singleton_append, cutPrefix_append]
  have hcontains : (hexDigits 16 hash ++ 0x3A :: itoa t).contains 0x3A = true :=
    List.contains_iff_mem.mpr (List.mem_append_right _ List.mem_cons_self)
  rw [parsePhashFlag, hcut, Option.bind_some]
  dsimp only
  rw [htake, hdrop, List.drop_one, List.tail_cons, hcontains, atoi_itoa_int hlow hhigh,
    parseUint16_hexDigits hhash]
  rfl

end TrainingPlatform.Scoring
