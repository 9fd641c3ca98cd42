import TrainingPlatform.Auth.Identity
import Mathlib.Data.Set.Function

/-!
# Signed sessions

A session cookie is accepted exactly when the MAC behind its first dot is that of the payload
the rest decodes to, however that is written.
-/

namespace TrainingPlatform.Auth

open Go

/-- What stands behind the first dot of a cookie. -/
def signature (v : GoString) : Option GoString :=
  if v.contains 0x2E then some ((v.dropWhile (· ≠ 0x2E)).drop 1) else none

/-- The signature of a payload under a secret. -/
def signatureOf (hmac : GoString → GoString → List UInt8) (secret payload : GoString) : GoString :=
  Base64.encodeToString (hmac secret payload)

variable {hmac : GoString → GoString → List UInt8} {m : Manager} {v payload : GoString}

theorem encodeToString_injective {a b : List UInt8}
    (h : Base64.encodeToString a = Base64.encodeToString b) : a = b := by
  have hdecoded := congrArg Base64.decodeString h
  rw [Base64.decodeString_encodeToString, Base64.decodeString_encodeToString] at hdecoded
  exact Option.some.inj hdecoded

/-- The payload is whatever decodes to it, the signature only the one that `sign` writes. -/
theorem verify_eq_some_iff : m.verify hmac v = some payload ↔
    Base64.decodeString (v.takeWhile (· ≠ 0x2E)) = some payload ∧
      signature v = some (signatureOf hmac m.secret payload) := by
  rw [Manager.verify, signature, signatureOf]
  by_cases hdot : v.contains 0x2E = true
  · rw [if_pos hdot, if_pos hdot]
    cases hpayload : Base64.decodeString (v.takeWhile (· ≠ 0x2E)) with
    | none => simp
    | some p =>
      dsimp only
      by_cases hmac' : Base64.encodeToString (hmac m.secret p) = (v.dropWhile (· ≠ 0x2E)).drop 1
      · rw [if_pos hmac']
        constructor
        · intro h
          cases h
          exact ⟨rfl, congrArg some hmac'.symm⟩
        · exact fun h => h.1
      · rw [if_neg hmac']
        constructor
        · intro h
          cases h
        · intro h
          obtain ⟨hp, hsig⟩ := h
          cases hp
          exact absurd (Option.some.inj hsig).symm hmac'
  · rw [if_neg hdot, if_neg hdot]
    simp

/-- What was signed is accepted, and no signature is accepted but that of the payload under
the secret itself: one made for another payload or under another secret is refused where the
two MACs differ.  HMAC fills its keys up with zeros, so it tells pairs apart only on a set of
them. -/
theorem verify_only_signed (hmac : GoString → GoString → List UInt8) :
    (∀ (m : Manager) payload, m.verify hmac (m.sign hmac payload) = some payload) ∧
      (∀ (m : Manager) v payload, m.verify hmac v = some payload →
        signature v = some (signatureOf hmac m.secret payload)) ∧
      ∀ signed : Set (GoString × GoString), signed.InjOn (fun s => hmac s.1 s.2) →
        ∀ (m : Manager) v payload, (m.secret, payload) ∈ signed → ∀ other ∈ signed,
          other ≠ (m.secret, payload) → signature v = some (signatureOf hmac other.1 other.2) →
            m.verify hmac v ≠ some payload := by
  refine ⟨verify_sign, fun m v payload h => (verify_eq_some_iff.mp h).2, ?_⟩
  intro signed hinj m v payload hown other hother hne hsig hverify
  have hsame : signatureOf hmac other.1 other.2 = signatureOf hmac m.secret payload := by
    have h := (verify_eq_some_iff.mp hverify).2
    rwa [hsig, Option.some.injEq] at h
  exact hne (hinj hother hown (encodeToString_injective hsame))

/-! ## One payload under two secrets -/

/-- HMAC-SHA256 of one payload under two secrets. -/
def aliceMac : GoString → GoString → List UInt8 := fun secret payload =>
  if payload ≠ utf8 "github:alice" then []
  else if secret = utf8 "topsecret" then
    [0x10, 0x59, 0x96, 0xC4, 0x55, 0x14, 0x9E, 0x0C, 0x92, 0x78, 0x3E, 0xC9, 0x6F, 0x2B, 0x64, 0xC3,
      0x43, 0x19, 0x0D, 0x5C, 0x63, 0x81, 0x73, 0xBE, 0xD8, 0xA2, 0x7A, 0x93, 0x9D, 0x9C, 0xCA, 0xA0]
  else if secret = utf8 "different" then
    [0x86, 0x6B, 0x8D, 0x04, 0x2A, 0xDF, 0xDA, 0xAD, 0x83, 0x03, 0x22, 0xB2, 0x0A, 0x77, 0x29, 0x51,
      0x57, 0xDA, 0xA8, 0xB9, 0x36, 0x11, 0x5F, 0xED, 0x2A, 0xAB, 0xA2, 0x14, 0xFC, 0x43, 0xA1, 0x01]
  else []

def alice (secret : String) : GoString × GoString := (utf8 secret, utf8 "github:alice")

/-- The session cookie of one manager, with a line end in its payload, at another. -/
theorem verify_only_signed_alice :
    Manager.verify aliceMac ⟨utf8 "different"⟩
        (utf8 "Z2l0aHVi\nOmFsaWNl.EFmWxFUUngySeD7Jbytkw0MZDVxjgXO-2KJ6k52cyqA") ≠
      some (utf8 "github:alice") := by
  have hinj : Set.InjOn (fun s => aliceMac s.1 s.2) {alice "topsecret", alice "different"} := by
    have hdiffer : aliceMac (alice "topsecret").1 (alice "topsecret").2 ≠
        aliceMac (alice "different").1 (alice "different").2 := by
      decide +kernel
    rintro a (rfl | rfl) b (rfl | rfl) h
    · rfl
    · exact absurd h hdiffer
    · exact absurd h.symm hdiffer
    · rfl
  have hother : alice "topsecret" ≠ alice "different" := by decide +kernel
  refine (verify_only_signed aliceMac).2.2 _ hinj ⟨utf8 "different"⟩ _ (utf8 "github:alice")
    (.inr rfl) (alice "topsecret") (.inl rfl) hother ?_
  decide +kernel

end TrainingPlatform.Auth
