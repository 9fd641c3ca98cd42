import TrainingPlatform.Dockershim.Server
import TrainingPlatform.Scoring.Phash

/-!
# Names the API server takes

Whatever its bytes, a docker name goes by a DNS-1123 label.  Only a name that is too long is
hashed; `crypto/sha1` is an argument.
-/

namespace TrainingPlatform.Dockershim

open Go

/-- `crypto/sha1`, whose sums have twenty bytes. -/
structure Sha1 where
  sum : GoString → Vector UInt8 20

/-- `hex.EncodeToString`. -/
def encodeHex (bs : List UInt8) : GoString := bs.flatMap fun b => Scoring.hexDigits 2 b.toNat

def Sha1.hex (sha : Sha1) (s : GoString) : GoString := encodeHex (sha.sum s).toList

/-- A lower-case ASCII letter or a digit. -/
def isAlphanumeric (b : UInt8) : Bool := (0x61 ≤ b && b ≤ 0x7A) || (0x30 ≤ b && b ≤ 0x39)

def isLabelByte (b : UInt8) : Bool := isAlphanumeric b || b = 0x2D

/-- A DNS-1123 label. -/
structure DnsLabel (s : GoString) : Prop where
  length_pos : 1 ≤ s.length
  length_le : s.length ≤ 63
  bytes : ∀ b ∈ s, isLabelByte b = true
  head : ∀ b ∈ s.head?, isAlphanumeric b = true
  last : ∀ b ∈ s.getLast?, isAlphanumeric b = true

variable {sha1Hex : GoString → GoString}

/-! ## The bytes of a name -/

theorem isAlphanumeric_of_ne {b : UInt8} (h : isLabelByte b = true) (hne : b ≠ 0x2D) :
    isAlphanumeric b = true := by
  rw [isLabelByte, Bool.or_eq_true, decide_eq_true_eq] at h
  exact h.resolve_right hne

/-- Upper-case letters are lowered, and what is no letter, digit or dash becomes a dash; the
two other runes with an ASCII lower case become that letter. -/
theorem isLabelByte_podNameByte (r : Rune) : isLabelByte (podNameByte r) = true := by
  have hbyte : ∀ b : UInt8, isLabelByte (podNameByte (.valid [b])) = true := by
    intro b
    simp only [podNameByte, Bool.and_eq_true, Bool.or_eq_true, decide_eq_true_eq]
    split_ifs with hupper hkept
    · have hlower : 0x61 ≤ b + 0x20 ∧ b + 0x20 ≤ 0x7A := by
        simp only [UInt8.le_iff_toNat_le, UInt8.toNat_add, UInt8.toNat_ofNat] at hupper ⊢
        omega
      simp [isLabelByte, isAlphanumeric, hlower]
    · rcases hkept with (hletter | hdigit) | hdash
      · simp [isLabelByte, isAlphanumeric, hletter]
      · simp [isLabelByte, isAlphanumeric, hdigit]
      · simp [isLabelByte, hdash]
    · decide
  cases r with
  | invalid b => rfl
  | valid bs =>
    match bs with
    | [] => decide
    | [b] => exact hbyte b
    | b :: c :: bs =>
      rw [podNameByte]
      · split_ifs
        · decide
        · decide
        · decide
      · intro x hx
        cases hx

theorem isAlphanumeric_encodeHex {bs : List UInt8} {b : UInt8} (h : b ∈ encodeHex bs) :
    isAlphanumeric b = true := by
  obtain ⟨c, -, hb⟩ := List.mem_flatMap.mp h
  have hhex := Scoring.isLowerHex_hexDigits hb
  simp only [Scoring.isLowerHex, isAlphanumeric, Bool.or_eq_true, Bool.and_eq_true,
    decide_eq_true_eq, UInt8.le_iff_toNat_le, UInt8.toNat_ofNat] at hhex ⊢
  omega

theorem length_hex (sha : Sha1) (s : GoString) : (sha.hex s).length = 40 := by
  have hdigits : ∀ bs : List UInt8, (encodeHex bs).length = 2 * bs.length := by
    intro bs
    simp [encodeHex, List.length_flatMap, Scoring.length_hexDigits, Nat.mul_comm]
  rw [Sha1.hex, hdigits, Vector.length_toList]

/-! ## A name -/

/-- A label but for its length. -/
structure Trimmed (s : GoString) : Prop where
  ne_nil : s ≠ []
  bytes : ∀ b ∈ s, isLabelByte b = true
  head : ∀ b ∈ s.head?, isAlphanumeric b = true
  last : ∀ b ∈ s.getLast?, isAlphanumeric b = true

/-- The name of a Pod before it is cut. -/
def trimmedName (name : GoString) : GoString :=
  let out := trim [0x2D] ((toRunes name).map podNameByte)
  if out = [] then utf8 "c" else out

theorem trimmed_trimmedName (name : GoString) : Trimmed (trimmedName name) := by
  obtain ⟨htrimmed, hhead, hlast⟩ := trim_spec [0x2D] ((toRunes name).map podNameByte)
  have hbytes : ∀ b ∈ trim [0x2D] ((toRunes name).map podNameByte), isLabelByte b = true := by
    intro b hb
    obtain ⟨r, -, rfl⟩ := List.mem_map.mp (htrimmed.subset hb)
    exact isLabelByte_podNameByte r
  rw [trimmedName]
  split_ifs with hempty
  · have hword : utf8 "c" = [0x63] := rfl
    have hletter : isAlphanumeric 0x63 = true := by decide
    rw [hword]
    refine ⟨List.cons_ne_nil _ _, List.forall_mem_singleton.mpr (by decide), ?_, ?_⟩
    · rintro b ⟨⟩
      exact hletter
    · rintro b ⟨⟩
      exact hletter
  · refine ⟨hempty, hbytes, fun b hb => ?_, fun b hb => ?_⟩
    · refine isAlphanumeric_of_ne (hbytes b (List.mem_of_mem_head? hb)) fun hdash => ?_
      exact hhead b hb (List.mem_singleton.mpr hdash)
    · refine isAlphanumeric_of_ne (hbytes b (List.mem_of_getLast? hb)) fun hdash => ?_
      exact hlast b hb (List.mem_singleton.mpr hdash)

/-- A long name keeps its start, and ends in a digit of its sum. -/
theorem dnsLabel_cut {out sum : GoString} (h : Trimmed out) (hlen : 63 < out.length)
    (hsum : ∀ b ∈ sum, isAlphanumeric b = true) (hdigits : sum.length = 8) :
    DnsLabel (out.take 54 ++ 0x2D :: sum) := by
  have hlength : (out.take 54 ++ 0x2D :: sum).length = 63 := by
    rw [List.length_append, List.length_take, List.length_cons, hdigits]
    omega
  have hlabel : ∀ b, isAlphanumeric b = true → isLabelByte b = true := by
    intro b hb
    rw [isLabelByte, hb, Bool.true_or]
  refine ⟨by omega, by omega, fun b hb => ?_, fun b hb => ?_, fun b hb => ?_⟩
  · rw [List.mem_append, List.mem_cons] at hb
    rcases hb with hb | rfl | hb
    · exact h.bytes b (List.mem_of_mem_take hb)
    · decide
    · exact hlabel b (hsum b hb)
  · obtain ⟨c, cs, rfl⟩ := List.exists_cons_of_ne_nil h.ne_nil
    exact h.head b hb
  · obtain ⟨c, cs, hcons⟩ := List.exists_cons_of_length_pos (l := sum) (by omega)
    rw [List.getLast?_append_of_ne_nil _ (List.cons_ne_nil _ _), hcons,
      List.getLast?_cons_cons] at hb
    exact hsum b (hcons ▸ List.mem_of_getLast? hb)

/-- Every docker name goes by a name the API server takes. -/
theorem dnsLabel_sanitizeK8sName (sha : Sha1) (name : GoString) :
    DnsLabel (sanitizeK8sName sha.hex name) := by
  have h := trimmed_trimmedName name
  change DnsLabel (if 63 < (trimmedName name).length then
    (trimmedName name).take (63 - (0x2D :: (sha.hex name).take 8).length) ++
      0x2D :: (sha.hex name).take 8
    else trimmedName name)
  have hdigits : ((sha.hex name).take 8).length = 8 := by
    rw [List.length_take, length_hex]
    rfl
  split_ifs with hlong
  · rw [List.length_cons, hdigits]
    exact dnsLabel_cut h hlong (fun b hb => isAlphanumeric_encodeHex (List.mem_of_mem_take hb))
      hdigits
  · exact ⟨List.length_pos_iff.mpr h.ne_nil, not_lt.mp hlong, h.bytes, h.head, h.last⟩

end TrainingPlatform.Dockershim
