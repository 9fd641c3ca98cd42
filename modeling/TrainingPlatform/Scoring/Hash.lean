import TrainingPlatform.Go.Strings

/-!
# Challenge and flag hashes

The hash contract the page and the challenge store share.  `crypto/sha256` is an
argument; of its hexadecimal digests only the alphabet and the length are used.
-/

namespace TrainingPlatform.Scoring

open Go

/-- A digit `hex.EncodeToString` writes. -/
def isLowerHex (b : UInt8) : Bool := (0x30 ≤ b && b ≤ 0x39) || (0x61 ≤ b && b ≤ 0x66)

/-- SHA-256 followed by `hex.EncodeToString`. -/
structure Sha256 where
  hex : GoString → GoString
  length_hex : ∀ s, (hex s).length = 64
  digits : ∀ s, ∀ b ∈ hex s, isLowerHex b = true

def challengeHash (sha : Sha256) (question lessonFilename : GoString) : GoString :=
  sha.hex (question ++ lessonFilename)

def flagHash (sha : Sha256) (answer salt : GoString) : GoString := sha.hex (answer ++ salt)

theorem Sha256.hex_ne_nil (sha : Sha256) (s : GoString) : sha.hex s ≠ [] := by
  intro h
  have hlen := sha.length_hex s
  rw [h] at hlen
  simp at hlen

/-- The digests of some strings. -/
def Sha256.ofTable (table : List (GoString × GoString))
    (h : ∀ e ∈ table, e.2.length = 64 ∧ ∀ b ∈ e.2, isLowerHex b = true) : Sha256 where
  hex s := (table.lookup s).getD (List.replicate 64 0x30)
  length_hex s := by
    cases hs : table.lookup s with
    | none => simp
    | some d =>
      obtain ⟨l, r, rfl, -⟩ := List.lookup_eq_some_iff.mp hs
      exact (h (s, d) (by simp)).1
  digits s := by
    cases hs : table.lookup s with
    | none =>
      intro b hb
      rw [List.eq_of_mem_replicate hb]
      decide
    | some d =>
      obtain ⟨l, r, rfl, -⟩ := List.lookup_eq_some_iff.mp hs
      exact (h (s, d) (by simp)).2

end TrainingPlatform.Scoring
