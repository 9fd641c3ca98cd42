import TrainingPlatform.Runs
import Mathlib.Logic.Function.Basic

/-!
# Frames on one wire

Writers share a wire.  Each writes its payloads in order, a header and then the payload,
and every write is one step, so the frames of two writers may be taken apart.  A reader
that takes one frame at a time gives every writer its own bytes back if no one writes
inside another's frame.
-/

namespace Framing

variable {ι α : Type*} [DecidableEq ι]

/-- A reader of the frames `header i p ++ p`: what it makes of an empty wire, and of one
frame in front of others. -/
structure Demux (header : ι → List α → List α) (Fits : List α → Prop) where
  demux : List α → Option (ι → List α)
  demux_nil : demux [] = some fun _ => []
  demux_frame : ∀ i p rest, Fits p → demux (header i p ++ p ++ rest) =
    (demux rest).map fun out => Function.update out i (p ++ out i)

/-- The payloads a writer has still to write, the payload whose header it has written, and
the wire. -/
structure Wire (ι α : Type*) where
  todo : ι → List (List α)
  half : ι → Option (List α)
  sent : List α

def start (input : ι → List (List α)) : Wire ι α := ⟨input, fun _ => none, []⟩

def step (header : ι → List α → List α) (w : Wire ι α) (i : ι) : Option (Wire ι α) :=
  match w.half i, w.todo i with
  | some p, _ => some { w with half := Function.update w.half i none, sent := w.sent ++ p }
  | none, p :: ps => some
    { todo := Function.update w.todo i ps
      half := Function.update w.half i (some p)
      sent := w.sent ++ header i p }
  | none, [] => none

/-- No other writer stands between a header and a payload that is not empty. -/
def Unbroken (w : Wire ι α) (i : ι) : Prop := ∀ j, j ≠ i → ∀ p ∈ w.half j, p = []

/-- Where no writer stands inside a frame, the reader gives each the payloads it has
written. -/
def Demuxes {header : ι → List α → List α} {Fits : List α → Prop} (d : Demux header Fits)
    (input : ι → List (List α)) (w : Wire ι α) : Prop :=
  (∀ i, w.half i = none) → ∃ done : ι → List (List α),
    (∀ i, done i ++ w.todo i = input i) ∧ d.demux w.sent = some fun i => (done i).flatten

/-! ## Whole frames -/

def encode (header : ι → List α → List α) (frames : List (ι × List α)) : List α :=
  frames.flatMap fun f => header f.1 f.2 ++ f.2

def payloads (frames : List (ι × List α)) (i : ι) : List (List α) :=
  (frames.filter fun f => f.1 = i).map Prod.snd

variable {header : ι → List α → List α} {Fits : List α → Prop} {frames : List (ι × List α)}
  {i j : ι} {p : List α}

theorem payloads_append_self : payloads (frames ++ [(i, p)]) i = payloads frames i ++ [p] := by
  simp [payloads]

theorem payloads_append_of_ne (h : i ≠ j) : payloads (frames ++ [(i, p)]) j = payloads frames j := by
  simp [payloads, h]

theorem mem_payloads (h : (i, p) ∈ frames) : p ∈ payloads frames i :=
  List.mem_map.mpr ⟨(i, p), List.mem_filter.mpr ⟨h, decide_eq_true rfl⟩, rfl⟩

omit [DecidableEq ι] in
theorem encode_append : encode header (frames ++ [(i, p)]) =
    encode header frames ++ header i p ++ p := by
  simp [encode]

/-- Whole frames in front of anything are read back as the payloads of each writer. -/
theorem demux_encode_append (d : Demux header Fits) (hfits : ∀ f ∈ frames, Fits f.2)
    (rest : List α) :
    d.demux (encode header frames ++ rest) =
      (d.demux rest).map fun out i => (payloads frames i).flatten ++ out i := by
  induction frames with
  | nil => exact Option.map_id'.symm
  | cons f frames ih =>
    rw [List.forall_mem_cons] at hfits
    have hsplit : encode header (f :: frames) ++ rest =
        header f.1 f.2 ++ f.2 ++ (encode header frames ++ rest) := by
      rw [encode, List.flatMap_cons, List.append_assoc]
      rfl
    rw [hsplit, d.demux_frame f.1 f.2 _ hfits.1, ih hfits.2, Option.map_map]
    congr 1
    funext out j
    by_cases hj : f.1 = j
    · subst hj
      simp [payloads]
    · simp [payloads, hj, Function.update_of_ne (Ne.symm hj)]

/-- A wire of whole frames is read back as the payloads of each writer. -/
theorem demux_encode (d : Demux header Fits) (hfits : ∀ f ∈ frames, Fits f.2) :
    d.demux (encode header frames) = some fun i => (payloads frames i).flatten := by
  have h := demux_encode_append d hfits []
  rw [List.append_nil, d.demux_nil, Option.map_some] at h
  simpa using h

/-! ## Runs in which no frame is broken -/

/-- The wire holds whole frames, or lacks the payload of one at its end. -/
def Framed (header : ι → List α → List α) (input : ι → List (List α)) (w : Wire ι α) : Prop :=
  ∃ frames : List (ι × List α), (∀ i, payloads frames i ++ w.todo i = input i) ∧
    ((∀ i, ∀ p ∈ w.half i, p = []) ∧ w.sent = encode header frames ∨
      ∃ i p, w.half i = some p ∧ p ≠ [] ∧ (∀ j, j ≠ i → ∀ q ∈ w.half j, q = []) ∧
        w.sent ++ p = encode header frames)

variable {input : ι → List (List α)} {w w' : Wire ι α}

theorem framed_start : Framed header input (start input) :=
  ⟨[], fun _ => rfl, .inl ⟨fun _ p hp => (by cases hp), rfl⟩⟩

/-- A writer that is not inside a frame has nothing left of it to write. -/
theorem update_half_eq_nil (h : ∀ j, j ≠ i → ∀ q ∈ w.half j, q = []) {j : ι} {q : List α}
    (hq : q ∈ Function.update w.half i none j) : q = [] := by
  by_cases hj : j = i
  · subst hj
    rw [Function.update_self] at hq
    cases hq
  · rw [Function.update_of_ne hj] at hq
    exact h j hj q hq

/-- A payload closes the frame at the end of the wire, or is empty. -/
theorem framed_payload (h : Framed header input w) (hcond : Unbroken w i)
    (hhalf : w.half i = some p) :
    Framed header input { w with half := Function.update w.half i none, sent := w.sent ++ p } := by
  obtain ⟨frames, hinput, ⟨hempty, hsent⟩ | ⟨k, q, hk, hq, hothers, hsent⟩⟩ := h
  · -- The frame of an empty payload was whole with its header.
    refine ⟨frames, hinput, .inl ⟨fun j q hq => ?_, ?_⟩⟩
    · exact update_half_eq_nil (fun j _ => hempty j) hq
    · dsimp only
      rw [hempty i p hhalf, List.append_nil, hsent]
  · have hki : k = i := by
      by_contra hne
      exact hq (hcond k hne q hk)
    subst hki
    rw [hk, Option.some.injEq] at hhalf
    subst hhalf
    exact ⟨frames, hinput, .inl ⟨fun j r hr => update_half_eq_nil hothers hr, hsent⟩⟩

/-- A header opens a frame on a wire of whole frames. -/
theorem framed_header {ps : List (List α)} (h : Framed header input w) (hcond : Unbroken w i)
    (hhalf : w.half i = none) (htodo : w.todo i = p :: ps) :
    Framed header input
      { todo := Function.update w.todo i ps
        half := Function.update w.half i (some p)
        sent := w.sent ++ header i p } := by
  obtain ⟨frames, hinput, ⟨hempty, hsent⟩ | ⟨k, q, hk, hq, -, -⟩⟩ := h
  · refine ⟨frames ++ [(i, p)], fun j => ?_, ?_⟩
    · dsimp only
      by_cases hj : i = j
      · subst hj
        rw [payloads_append_self, Function.update_self, List.append_assoc, ← hinput i, htodo]
        rfl
      · rw [payloads_append_of_ne hj, Function.update_of_ne (Ne.symm hj)]
        exact hinput j
    · have hothers : ∀ j, j ≠ i → ∀ q ∈ Function.update w.half i (some p) j, q = [] := by
        intro j hj q hq
        rw [Function.update_of_ne hj] at hq
        exact hempty j q hq
      have hnext : w.sent ++ header i p ++ p = encode header (frames ++ [(i, p)]) := by
        rw [encode_append, hsent]
      by_cases hp : p = []
      · refine .inl ⟨fun j q hq => ?_, ?_⟩
        · dsimp only at hq
          by_cases hj : j = i
          · subst hj
            rw [Function.update_self, Option.mem_some_iff] at hq
            exact hq ▸ hp
          · exact hothers j hj q hq
        · dsimp only
          rw [← hnext, hp, List.append_nil]
      · exact .inr ⟨i, p, Function.update_self i _ w.half, hp, hothers, hnext⟩
  · have hki : k ≠ i := by
      intro hki
      rw [hki, hhalf] at hk
      cases hk
    exact absurd (hcond k hki q hk) hq

theorem framed_step (h : Framed header input w) (hcond : Unbroken w i)
    (hstep : step header w i = some w') : Framed header input w' := by
  unfold step at hstep
  cases hhalf : w.half i with
  | some p =>
    rw [hhalf] at hstep
    cases hstep
    exact framed_payload h hcond hhalf
  | none =>
    cases htodo : w.todo i with
    | nil =>
      rw [hhalf, htodo] at hstep
      cases hstep
    | cons p ps =>
      rw [hhalf, htodo] at hstep
      cases hstep
      exact framed_header h hcond hhalf htodo

theorem demuxes_of_framed (d : Demux header Fits) (hfits : ∀ i, ∀ p ∈ input i, Fits p)
    (h : Framed header input w) : Demuxes d input w := by
  intro hnone
  obtain ⟨frames, hinput, ⟨-, hsent⟩ | ⟨i, p, hi, -⟩⟩ := h
  · refine ⟨payloads frames, hinput, ?_⟩
    rw [hsent]
    refine demux_encode d fun f hf => hfits f.1 f.2 ?_
    rw [← hinput f.1]
    exact List.mem_append_left _ (mem_payloads hf)
  · rw [hnone i] at hi
    cases hi

/-- In a run in which no one writes inside another's frame, every writer's bytes are read
back in order, in every state where no frame is open. -/
theorem always_demuxes (d : Demux header Fits) (hfits : ∀ i, ∀ p ∈ input i, Fits p) {is : List ι}
    (h : Runs.Each (step header) Unbroken (start input) is) :
    Runs.Always (step header) (Demuxes d input) (start input) is :=
  Runs.always_of_invariant (fun _ _ _ hw hc hstep => framed_step hw hc hstep)
    (fun _ hw => demuxes_of_framed d hfits hw) framed_start h

end Framing
