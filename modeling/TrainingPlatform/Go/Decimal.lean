import TrainingPlatform.Go.Text
import Mathlib.Algebra.Group.Nat.Defs

/-!
# Decimal numbers

What `strconv.Itoa` and `%d` write for a number that is not negative, and what
`strconv.Atoi` makes of it.
-/

namespace Go

/-- An ASCII digit. -/
def isDecimal (b : UInt8) : Bool := 0x30 ≤ b && b ≤ 0x39

/-- The number a string of digits denotes. -/
def decimalValue (s : GoString) : Int :=
  s.foldl (fun n b => 10 * n + (b.toNat - 0x30)) 0

/-- The byte of a decimal digit. -/
def digitByte (d : Nat) : UInt8 := UInt8.ofNat (0x30 + d)

theorem toNat_digitByte {d : Nat} (hd : d < 10) : (digitByte d).toNat = 0x30 + d := by
  rw [digitByte, UInt8.toNat_ofNat']
  omega

theorem isDecimal_digitByte {d : Nat} (hd : d < 10) : isDecimal (digitByte d) = true := by
  have hnat := toNat_digitByte hd
  rw [isDecimal, Bool.and_eq_true, decide_eq_true_eq, decide_eq_true_eq, UInt8.le_iff_toNat_le,
    UInt8.le_iff_toNat_le, hnat]
  exact ⟨Nat.le_add_right _ _, by simp; omega⟩

theorem utf8_append (s t : String) : utf8 (s ++ t) = utf8 s ++ utf8 t := by
  simp [utf8]

theorem utf8_singleton_digit :
    ∀ d < 10, utf8 (String.singleton (Nat.digitChar d)) = [digitByte d] := by decide

/-- The last digit of a number, behind the digits of its tenth. -/
theorem itoa_natCast (n : Nat) :
    itoa n = (if n < 10 then [] else itoa (n / 10 : Nat)) ++ [digitByte (n % 10)] := by
  have hrepr : ∀ m : Nat, itoa m = utf8 m.repr := fun m => rfl
  by_cases hn : n < 10
  · rw [hrepr, if_pos hn, Nat.repr_of_lt hn, Nat.mod_eq_of_lt hn, List.nil_append]
    exact utf8_singleton_digit n hn
  · rw [hrepr, if_neg hn, Nat.repr_of_ge (by omega), utf8_append, hrepr,
      utf8_singleton_digit _ (Nat.mod_lt n (by omega))]

theorem itoa_ne_nil (n : Nat) : itoa n ≠ [] := by
  rw [itoa_natCast]
  exact List.append_ne_nil_of_right_ne_nil _ (List.cons_ne_nil _ _)

theorem isDecimal_of_mem_itoa {n : Nat} {b : UInt8} (h : b ∈ itoa n) : isDecimal b = true := by
  induction n using Nat.strong_induction_on with
  | _ n ih =>
    rw [itoa_natCast, List.mem_append, List.mem_singleton] at h
    rcases h with h | rfl
    · split_ifs at h with hn
      · cases h
      · exact ih (n / 10) (by omega) h
    · exact isDecimal_digitByte (Nat.mod_lt n (by omega))

theorem decimalValue_concat (s : GoString) (b : UInt8) :
    decimalValue (s ++ [b]) = 10 * decimalValue s + ((b.toNat : Int) - 0x30) := by
  rw [decimalValue, List.foldl_append]
  rfl

/-- Reading a number back. -/
theorem decimalValue_itoa (n : Nat) : decimalValue (itoa n) = n := by
  induction n using Nat.strong_induction_on with
  | _ n ih =>
    have hmod : n % 10 < 10 := Nat.mod_lt n (by omega)
    rw [itoa_natCast, decimalValue_concat, toNat_digitByte hmod]
    by_cases hn : n < 10
    · rw [if_pos hn, decimalValue, List.foldl_nil]
      omega
    · rw [if_neg hn, ih (n / 10) (by omega)]
      omega

theorem itoa_injective {m n : Nat} (h : itoa m = itoa n) : m = n := by
  have hvalue : (m : Int) = n := by rw [← decimalValue_itoa m, h, decimalValue_itoa]
  exact Int.ofNat.inj hvalue

theorem length_itoa_le {n k : Nat} (hk : 0 < k) (hn : n < 10 ^ k) : (itoa n).length ≤ k := by
  induction k generalizing n with
  | zero => omega
  | succ k ih =>
    rw [itoa_natCast, List.length_append, List.length_singleton]
    by_cases h10 : n < 10
    · rw [if_pos h10]
      simp
    · rw [if_neg h10]
      have hpos : 0 < k := by
        by_contra hzero
        have hk0 : k = 0 := by omega
        subst hk0
        omega
      have hdiv : n / 10 < 10 ^ k := by
        rw [pow_succ] at hn
        exact Nat.div_lt_of_lt_mul (by omega)
      exact Nat.succ_le_succ (ih hpos hdiv)

theorem decimalValue_nonneg {s : GoString} (h : ∀ b ∈ s, isDecimal b = true) :
    0 ≤ decimalValue s := by
  induction s using List.reverseRecOn with
  | nil => exact Int.le_refl 0
  | append_singleton s b ih =>
    have hs := ih fun b' hb' => h b' (List.mem_append_left _ hb')
    have hb := h b (List.mem_append_right _ (List.mem_singleton_self b))
    rw [isDecimal, Bool.and_eq_true, decide_eq_true_eq, UInt8.le_iff_toNat_le] at hb
    have hlow : 0x30 ≤ b.toNat := hb.1
    rw [decimalValue_concat]
    omega

/-- `strconv.Atoi` of digits without a sign. -/
theorem atoi_of_digits {s : GoString} (hne : s ≠ []) (h : ∀ b ∈ s, isDecimal b = true) :
    atoi s = if 2 ^ 63 ≤ decimalValue s then (2 ^ 63 - 1, false) else (decimalValue s, true) := by
  have hsign : ∀ c, isDecimal c = false → s.head? ≠ some c := by
    intro c hc hhead
    rw [h c (List.mem_of_mem_head? hhead)] at hc
    contradiction
  have hminus : s.head? ≠ some 0x2D := hsign _ (by decide)
  have hplus : s.head? ≠ some 0x2B := hsign _ (by decide)
  have hdigits : s.all (fun b => 0x30 ≤ b && b ≤ 0x39) = true := List.all_eq_true.mpr h
  have hlow : ¬ decimalValue s < -(2 ^ 63) := by
    have hpos := decimalValue_nonneg h
    omega
  unfold atoi
  simp only [hminus, hplus, decide_false, Bool.or_false, Bool.false_eq_true, if_false, hne, hdigits,
    Bool.not_true]
  rw [← decimalValue, if_neg hlow]

/-- `strconv.Atoi` reads what `strconv.Itoa` writes, up to the largest `int`. -/
theorem atoi_itoa {n : Nat} (hn : n < 2 ^ 63) : atoi (itoa n) = ((n : Int), true) := by
  rw [atoi_of_digits (itoa_ne_nil n) fun _ => isDecimal_of_mem_itoa, decimalValue_itoa,
    if_neg (by omega)]

theorem itoa_negSucc (n : Nat) : itoa (Int.negSucc n) = 0x2D :: itoa (n + 1 : Nat) := by
  have hminus : utf8 "-" = [0x2D] := by decide
  have happend : itoa (Int.negSucc n) = utf8 ("-" ++ toString (n + 1)) := rfl
  rw [happend, utf8_append, hminus]
  rfl

theorem atoi_negSucc {n : Nat} (hn : n < 2 ^ 63) :
    atoi (itoa (Int.negSucc n)) = (Int.negSucc n, true) := by
  have hdigits : (itoa (n + 1 : Nat)).all (fun b => 0x30 ≤ b && b ≤ 0x39) = true :=
    List.all_eq_true.mpr fun _ hb => isDecimal_of_mem_itoa hb
  have hvalue := decimalValue_itoa (n + 1)
  rw [decimalValue] at hvalue
  rw [itoa_negSucc, atoi]
  simp only [List.head?_cons, List.tail_cons, decide_true, Bool.true_or, if_true, itoa_ne_nil,
    hdigits, Bool.not_true, decide_false, Bool.or_false, Bool.false_eq_true, if_false, hvalue]
  rw [if_neg (by omega), if_neg (by omega), Int.negSucc_eq]
  rfl

/-- Every `int` is read back. -/
theorem atoi_itoa_int {t : Int} (hlow : -(2 ^ 63) ≤ t) (hhigh : t < 2 ^ 63) :
    atoi (itoa t) = (t, true) := by
  cases t with
  | ofNat n => exact atoi_itoa (Int.ofNat_lt.mp hhigh)
  | negSucc n => exact atoi_negSucc (by omega)

end Go
