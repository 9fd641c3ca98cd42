import TrainingPlatform.Go.Strings

/-!
# Results

A Go function that also returns an error is an `Except`, and `if err != nil` after a
call is its bind.  The rules say what a result of a chain of calls comes from, and
relate two runs of one chain that fail alike.
-/

namespace Go

/-- `fmt.Errorf("what: %w", err)`. -/
def wrapError {α : Type} (what : GoString) : Except GoString α → Except GoString α
  | .error e => .error (what ++ e)
  | .ok a => .ok a

theorem bind_eq_ok {ε α β : Type} {x : Except ε α} {f : α → Except ε β} {b : β} :
    x >>= f = .ok b ↔ ∃ a, x = .ok a ∧ f a = .ok b := by
  cases x with
  | error e => exact iff_of_false nofun nofun
  | ok a =>
    constructor
    · exact fun h => ⟨a, rfl, h⟩
    · intro hbound
      obtain ⟨_, ⟨⟩, h⟩ := hbound
      exact h

theorem wrapError_eq_ok {α : Type} {what : GoString} {x : Except GoString α} {a : α} :
    wrapError what x = .ok a ↔ x = .ok a := by
  cases x with
  | error e => exact iff_of_false nofun nofun
  | ok b => exact Iff.rfl

/-- A result that a run has computed. -/
theorem ok_of_toOption {ε α β : Type} {x : Except ε α} {f : α → β} {b : β}
    (h : x.toOption.map f = some b) : ∃ a, x = .ok a ∧ f a = b := by
  cases x with
  | error e => cases h
  | ok a => exact ⟨a, rfl, Option.some.inj h⟩

/-- The same error, or related results. -/
inductive SameOutcome {ε α β : Type} (R : α → β → Prop) : Except ε α → Except ε β → Prop
  | error (e : ε) : SameOutcome R (.error e) (.error e)
  | ok {a : α} {b : β} : R a b → SameOutcome R (.ok a) (.ok b)

namespace SameOutcome

variable {ε α β γ δ : Type} {R : α → β → Prop} {P : γ → δ → Prop}

/-- Two chains whose first calls and whose continuations have the same outcomes. -/
theorem bind {x : Except ε α} {y : Except ε β} {f : α → Except ε γ} {g : β → Except ε δ}
    (h : SameOutcome R x y) (hfg : ∀ a b, R a b → SameOutcome P (f a) (g b)) :
    SameOutcome P (x >>= f) (y >>= g) := by
  cases h with
  | error e => exact .error e
  | ok hab => exact hfg _ _ hab

/-- Two chains that start with one call. -/
theorem bind_left (x : Except ε α) {f : α → Except ε γ} {g : α → Except ε δ}
    (hfg : ∀ a, SameOutcome P (f a) (g a)) : SameOutcome P (x >>= f) (x >>= g) := by
  cases x with
  | error e => exact .error e
  | ok a => exact hfg a

theorem wrapError {R : α → β → Prop} {x : Except GoString α} {y : Except GoString β}
    (h : SameOutcome R x y) (what : GoString) :
    SameOutcome R (wrapError what x) (wrapError what y) := by
  cases h with
  | error e => exact .error _
  | ok hab => exact .ok hab

end SameOutcome

end Go
