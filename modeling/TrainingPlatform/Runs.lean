import Mathlib.Data.List.Basic
import Mathlib.Data.Option.Basic

/-!
# Runs of a partial step function

A system is a step function `step : σ → ε → Option σ`, where `none` says that
the event is not enabled.  `run` folds it over a list of events, `Each` says
that a predicate on the state before a step and the step's event holds at every
step of a run, and `Always` that a predicate holds in every state the run
visits.  The rules below are the only inductions over runs: an invariant that
every step keeps, possibly under a condition on the step, is carried to every
state of the run.
-/

namespace Runs

variable {σ ε : Type*}

/-- The state after a list of events, or `none` once one of them is disabled. -/
def run (step : σ → ε → Option σ) : σ → List ε → Option σ
  | s, [] => some s
  | s, e :: es => (step s e).bind fun s' => run step s' es

/-- `C` holds of the state before each step and of its event. -/
def Each (step : σ → ε → Option σ) (C : σ → ε → Prop) : σ → List ε → Prop
  | _, [] => True
  | s, e :: es => C s e ∧ ∀ s', step s e = some s' → Each step C s' es

/-- `P` holds in the first state and in every state a step of the run reaches. -/
def Always (step : σ → ε → Option σ) (P : σ → Prop) : σ → List ε → Prop
  | s, [] => P s
  | s, e :: es => P s ∧ ∀ s', step s e = some s' → Always step P s' es

/-- A condition that can be decided at each step can be decided along a run. -/
instance decidableEach (step : σ → ε → Option σ) (C : σ → ε → Prop) [∀ s e, Decidable (C s e)] :
    (s : σ) → (es : List ε) → Decidable (Each step C s es)
  | _, [] => .isTrue trivial
  | s, e :: es =>
    have : ∀ s', Decidable (Each step C s' es) := fun s' => decidableEach step C s' es
    inferInstanceAs (Decidable (C s e ∧ ∀ s' ∈ step s e, Each step C s' es))

variable {step : σ → ε → Option σ} {C D : σ → ε → Prop} {I P : σ → Prop}

@[simp] theorem run_nil (s : σ) : run step s [] = some s := rfl

theorem run_cons (s : σ) (e : ε) (es : List ε) :
    run step s (e :: es) = (step s e).bind fun s' => run step s' es := rfl

theorem run_cons_some {s s' : σ} {e : ε} {es : List ε} :
    run step s (e :: es) = some s' ↔ ∃ m, step s e = some m ∧ run step m es = some s' := by
  rw [run_cons, Option.bind_eq_some_iff]

theorem run_append (s : σ) (es fs : List ε) :
    run step s (es ++ fs) = (run step s es).bind fun s' => run step s' fs := by
  induction es generalizing s with
  | nil => rfl
  | cons e es ih =>
    rw [List.cons_append, run_cons, run_cons]
    cases step s e with
    | none => rfl
    | some m => exact ih m

theorem run_append_some {s s' : σ} {es fs : List ε} :
    run step s (es ++ fs) = some s' ↔
      ∃ m, run step s es = some m ∧ run step m fs = some s' := by
  rw [run_append, Option.bind_eq_some_iff]

theorem run_concat_some {s s' : σ} {es : List ε} {e : ε} :
    run step s (es ++ [e]) = some s' ↔ ∃ m, run step s es = some m ∧ step m e = some s' := by
  rw [run_append_some]
  simp [run_cons]

/-- An invariant that every step keeps holds at the end of a run. -/
theorem run_invariant (hstep : ∀ s e s', I s → step s e = some s' → I s')
    {s s' : σ} {es : List ε} (hs : I s) (h : run step s es = some s') : I s' := by
  induction es generalizing s with
  | nil => exact Option.some.inj h ▸ hs
  | cons e es ih =>
    obtain ⟨m, hm, hrest⟩ := run_cons_some.mp h
    exact ih (hstep s e m hs hm) hrest

/-- What an invariant says about a step holds at every step of the run. -/
theorem each_of_invariant (hstep : ∀ s e s', I s → C s e → step s e = some s' → I s')
    (hD : ∀ s e, I s → C s e → D s e) {s : σ} {es : List ε}
    (hs : I s) (hC : Each step C s es) : Each step D s es := by
  induction es generalizing s with
  | nil => trivial
  | cons e es ih =>
    exact ⟨hD s e hs hC.1, fun s' hs' => ih (hstep s e s' hs hC.1 hs') (hC.2 s' hs')⟩

/-- What an invariant says about a state holds in every state of the run. -/
theorem always_of_invariant (hstep : ∀ s e s', I s → C s e → step s e = some s' → I s')
    (hP : ∀ s, I s → P s) {s : σ} {es : List ε}
    (hs : I s) (hC : Each step C s es) : Always step P s es := by
  induction es generalizing s with
  | nil => exact hP s hs
  | cons e es ih =>
    exact ⟨hP s hs, fun s' hs' => ih (hstep s e s' hs hC.1 hs') (hC.2 s' hs')⟩

/-- The same for an invariant that every step keeps. -/
theorem each_of_inductive (hstep : ∀ s e s', I s → step s e = some s' → I s')
    (hD : ∀ s e, I s → D s e) {s : σ} (es : List ε) (hs : I s) : Each step D s es := by
  induction es generalizing s with
  | nil => trivial
  | cons e es ih => exact ⟨hD s e hs, fun s' hs' => ih (hstep s e s' hs hs')⟩

theorem always_of_inductive (hstep : ∀ s e s', I s → step s e = some s' → I s')
    (hP : ∀ s, I s → P s) {s : σ} (es : List ε) (hs : I s) : Always step P s es := by
  induction es generalizing s with
  | nil => exact hP s hs
  | cons e es ih => exact ⟨hP s hs, fun s' hs' => ih (hstep s e s' hs hs')⟩

theorem Always.head {s : σ} {es : List ε} (h : Always step P s es) : P s := by
  cases es with
  | nil => exact h
  | cons e es => exact h.1

/-- When a condition on a step says exactly that the step keeps `P`, it holds at
every step of a run exactly when `P` holds in every state. -/
theorem always_iff_each (hstep : ∀ s e s', I s → step s e = some s' → I s')
    (hC : ∀ s e, I s → P s → (C s e ↔ ∀ s', step s e = some s' → P s'))
    {s : σ} {es : List ε} (hs : I s) (hP : P s) : Always step P s es ↔ Each step C s es := by
  induction es generalizing s with
  | nil => exact ⟨fun _ => trivial, fun _ => hP⟩
  | cons e es ih =>
    constructor
    · intro halways
      obtain ⟨-, h⟩ := halways
      have hnext : ∀ s', step s e = some s' → P s' := fun s' hs' => (h s' hs').head
      exact ⟨(hC s e hs hP).mpr hnext, fun s' hs' =>
        (ih (hstep s e s' hs hs') (hnext s' hs')).mp (h s' hs')⟩
    · intro heach
      obtain ⟨hc, h⟩ := heach
      have hnext := (hC s e hs hP).mp hc
      exact ⟨hP, fun s' hs' => (ih (hstep s e s' hs hs') (hnext s' hs')).mpr (h s' hs')⟩

/-- Two conditions on a step that agree wherever an invariant holds. -/
theorem each_congr_of_invariant (hstep : ∀ s e s', I s → step s e = some s' → I s')
    (h : ∀ s e, I s → (C s e ↔ D s e)) {s : σ} {es : List ε} (hs : I s) :
    Each step C s es ↔ Each step D s es := by
  induction es generalizing s with
  | nil => exact Iff.rfl
  | cons e es ih =>
    refine and_congr (h s e hs) (forall_congr' fun s' => ?_)
    exact imp_congr_right fun hs' => ih (hstep s e s' hs hs')

/-- One more step in front of a run. -/
theorem Each.cons {s s' : σ} {e : ε} {es : List ε} (hC : C s e) (hstep : step s e = some s')
    (h : Each step C s' es) : Each step C s (e :: es) := by
  refine ⟨hC, fun t ht => ?_⟩
  rw [hstep, Option.some.injEq] at ht
  exact ht ▸ h

/-- A run in two parts. -/
theorem Each.append {s s' : σ} {es fs : List ε} (h : Each step C s es)
    (hrun : run step s es = some s') (h' : Each step C s' fs) : Each step C s (es ++ fs) := by
  induction es generalizing s with
  | nil => exact Option.some.inj hrun ▸ h'
  | cons e es ih =>
    obtain ⟨m, hm, hrest⟩ := run_cons_some.mp hrun
    exact .cons h.1 hm (ih (h.2 m hm) hrest)

/-- A condition on events alone. -/
theorem each_of_forall {es : List ε} (h : ∀ e ∈ es, ∀ s, C s e) {s : σ} : Each step C s es := by
  induction es generalizing s with
  | nil => trivial
  | cons e es ih =>
    obtain ⟨he, hes⟩ := List.forall_mem_cons.mp h
    exact ⟨he s, fun _ _ => ih hes⟩

/-- What holds at every step of a run holds at the steps behind its first ones. -/
theorem Each.of_append {s s' : σ} {es fs : List ε} (h : Each step C s (es ++ fs))
    (hrun : run step s es = some s') : Each step C s' fs := by
  induction es generalizing s with
  | nil => exact Option.some.inj hrun ▸ h
  | cons e es ih =>
    obtain ⟨m, hm, hrest⟩ := run_cons_some.mp hrun
    exact ih (h.2 m hm) hrest

theorem Always.of_append {s s' : σ} {es fs : List ε} (h : Always step P s (es ++ fs))
    (hrun : run step s es = some s') : Always step P s' fs := by
  induction es generalizing s with
  | nil => exact Option.some.inj hrun ▸ h
  | cons e es ih =>
    obtain ⟨m, hm, hrest⟩ := run_cons_some.mp hrun
    exact ih (h.2 m hm) hrest

/-- What holds throughout a run holds at its end. -/
theorem Always.last {s s' : σ} {es : List ε} (h : Always step P s es)
    (hrun : run step s es = some s') : P s' := by
  rw [← List.append_nil es] at h
  exact (h.of_append hrun).head

theorem Each.imp (h : ∀ s e, C s e → D s e) {s : σ} {es : List ε} (hC : Each step C s es) :
    Each step D s es := by
  induction es generalizing s with
  | nil => trivial
  | cons e es ih => exact ⟨h s e hC.1, fun s' hs' => ih (hC.2 s' hs')⟩

theorem Always.imp {Q : σ → Prop} (h : ∀ s, P s → Q s) {s : σ} {es : List ε}
    (hP : Always step P s es) : Always step Q s es := by
  induction es generalizing s with
  | nil => exact h s hP
  | cons e es ih => exact ⟨h s hP.1, fun s' hs' => ih (hP.2 s' hs')⟩

end Runs
