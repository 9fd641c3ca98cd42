import TrainingPlatform.Runs
import TrainingPlatform.Scoring.Process

/-!
# Solves and their history

The store under calls of `Upsert`, `Grade`, `RecordSolve` and `UseJournal` in any order.
`Grade` reads its challenge and the grader under the lock, compares the flags outside it,
and takes the lock again to record, so other calls may stand between the two.
-/

namespace TrainingPlatform.Scoring.History

open Go

structure GradeCall where
  challengeHash : GoString
  submitted : GoString
  userID : GoString

/-- The store, and the calls of `Grade` between their two critical sections, each with
what the comparison of the flags it read will say. -/
structure Room where
  store : Store
  calls : Nat → Option (GradeCall × Bool)

inductive Event where
  | upsert (c : Challenge)
  | beginGrade (t : Nat) (call : GradeCall)
  | endGrade (t : Nat)
  | recordSolve (challengeHash userID : GoString)
  | useJournal (file : GoString)

/-- The challenge is registered with a flag that accepts the submission. -/
def Accepts (store : Store) (challengeHash submitted : GoString) : Prop :=
  ∃ c, store.get challengeHash = some c ∧
    ∃ flag ∈ c.flags, Store.FlagAccepts store.phashGrade flag submitted

/-- What the loop over the flags says of the challenge as it is now. -/
def verdict (store : Store) (call : GradeCall) : Bool :=
  match store.get call.challengeHash with
  | none => false
  | some c => Store.gradeFlags store.phashGrade call.submitted c.flags

def step (w : Room) : Event → Option Room
  | .upsert c =>
    match w.store.upsert c with
    | .ok store => some { w with store := store }
    | .error _ => some w
  | .beginGrade t call =>
    match w.calls t with
    | none => some { w with calls := Function.update w.calls t (some (call, verdict w.store call)) }
    | some _ => none
  | .endGrade t =>
    match w.calls t with
    | none => none
    | some (call, correct) => some
      { store := if correct then (w.store.recordSolve call.challengeHash call.userID).2 else w.store
        calls := Function.update w.calls t none }
  | .recordSolve challengeHash userID =>
    some { w with store := (w.store.RecordSolve challengeHash userID).2 }
  | .useJournal file => some { w with store := Scoring.useJournal w.store file }

/-- A new store, which holds no challenge and no solve. -/
def start (phashGrader : PhashGrader) : Room := ⟨Store.newStore phashGrader, fun _ => none⟩

/-- What a history holds for a solve: a call of `Grade` that has ended and that read the
challenge when one of its flags accepted the submission, a call of `RecordSolve`, or the
replay of a log with the solve. -/
inductive Evidence (phashGrader : PhashGrader) (es : List Event) (h u : GoString) : Prop where
  | grade (t : Nat) (submitted : GoString) (es₁ es₂ es₃ : List Event) (w : Room) :
    es = es₁ ++ .beginGrade t ⟨h, submitted, u⟩ :: es₂ ++ .endGrade t :: es₃ →
    .endGrade t ∉ es₂ → Runs.run step (start phashGrader) es₁ = some w →
    Accepts w.store h submitted → Evidence phashGrader es h u
  | recordSolve : .recordSolve h u ∈ es → Evidence phashGrader es h u
  | replay (file : GoString) : .useJournal file ∈ es → ⟨u, h⟩ ∈ (replay file).visited →
    Evidence phashGrader es h u

variable {w w' : Room} {e : Event} {es es' : List Event} {h u : GoString} {t : Nat}
  {call : GradeCall} {phashGrader : PhashGrader}

theorem verdict_iff {store : Store} :
    verdict store call = true ↔ Accepts store call.challengeHash call.submitted := by
  unfold verdict Accepts
  cases store.get call.challengeHash with
  | none => simp
  | some c => simp [Store.gradeFlags_iff]

theorem step_beginGrade (h : w.calls t = none) :
    step w (.beginGrade t call) = some
      { w with calls := Function.update w.calls t (some (call, verdict w.store call)) } := by
  rw [step, h]

theorem step_endGrade {correct : Bool} (h : w.calls t = some (call, correct)) :
    step w (.endGrade t) = some
      { store := if correct then (w.store.recordSolve call.challengeHash call.userID).2 else w.store
        calls := Function.update w.calls t none } := by
  rw [step, h]

/-- Without another call in between, the two sections are `Grade`. -/
theorem run_grade (hidle : w.calls t = none) :
    (Runs.run step w [.beginGrade t call, .endGrade t]).map Room.store =
      some (w.store.grade call.challengeHash call.submitted call.userID).store := by
  rw [Runs.run_cons, step_beginGrade hidle, Option.bind_some, Runs.run_cons,
    step_endGrade (Function.update_self t _ w.calls), Option.bind_some, Runs.run_nil,
    Option.map_some, Option.some.injEq]
  unfold verdict Store.get Store.grade
  cases w.store.byHash.lookup call.challengeHash with
  | none => rfl
  | some c =>
    dsimp only
    split_ifs
    · rfl
    · rfl

/-! ## One step -/

/-- What a step adds to the solves. -/
def Adds (w : Room) (h u : GoString) : Event → Prop
  | .upsert _ | .beginGrade _ _ => False
  | .endGrade t => ∃ submitted, w.calls t = some (⟨h, submitted, u⟩, true)
  | .recordSolve h' u' => h = h' ∧ u = u'
  | .useJournal file => ⟨u, h⟩ ∈ (replay file).visited

theorem solved_step (hstep : step w e = some w') :
    w'.store.solved h u = true ↔ w.store.solved h u = true ∨ Adds w h u e := by
  cases e with
  | upsert c =>
    rw [step, Store.upsert] at hstep
    split_ifs at hstep
    · cases hstep
      simp [Adds]
    · cases hstep
      exact (or_iff_left id).symm
  | beginGrade t call =>
    rw [step] at hstep
    cases hcall : w.calls t with
    | none =>
      rw [hcall] at hstep
      cases hstep
      exact (or_iff_left id).symm
    | some r =>
      rw [hcall] at hstep
      cases hstep
  | endGrade t =>
    rw [step] at hstep
    cases hcall : w.calls t with
    | none =>
      rw [hcall] at hstep
      cases hstep
    | some r =>
      obtain ⟨call, correct⟩ := r
      rw [hcall] at hstep
      cases hstep
      rw [Adds, hcall]
      cases correct with
      | false => simp
      | true =>
        rw [if_pos rfl, Store.solved_recordSolve]
        refine or_congr_right ⟨fun h => ?_, fun h => ?_⟩
        · obtain ⟨rfl, rfl⟩ := h
          exact ⟨call.submitted, rfl⟩
        · obtain ⟨submitted, hsub⟩ := h
          cases hsub
          exact ⟨rfl, rfl⟩
  | recordSolve h' u' =>
    cases hstep
    exact Store.solved_recordSolve _ _ _ _ _
  | useJournal file =>
    cases hstep
    exact solved_useJournal_iff w.store file ⟨u, h⟩

/-- A call stands from its begin to its end. -/
theorem calls_step_iff {r : GradeCall × Bool} (hstep : step w e = some w') :
    w'.calls t = some r ↔ w.calls t = some r ∧ e ≠ .endGrade t ∨
      e = .beginGrade t r.1 ∧ w.calls t = none ∧ r.2 = verdict w.store r.1 := by
  cases e with
  | upsert c =>
    have hcalls : w'.calls = w.calls := by
      rw [step] at hstep
      split at hstep
      · cases hstep
        rfl
      · cases hstep
        rfl
    simp [hcalls]
  | beginGrade t' call =>
    cases hidle : w.calls t' with
    | some r' =>
      rw [step, hidle] at hstep
      cases hstep
    | none =>
      rw [step_beginGrade hidle, Option.some.injEq] at hstep
      subst hstep
      by_cases htt : t = t'
      · subst htt
        obtain ⟨call', correct⟩ := r
        dsimp only
        rw [Function.update_self, hidle]
        constructor
        · intro h
          cases h
          exact .inr ⟨rfl, rfl, rfl⟩
        · intro h
          rcases h with ⟨h, -⟩ | ⟨h, -, hverdict⟩
          · cases h
          · cases h
            exact congrArg some (Prod.ext rfl hverdict.symm)
      · dsimp only
        rw [Function.update_of_ne htt]
        simp [Ne.symm htt]
  | endGrade t' =>
    cases hcall : w.calls t' with
    | none =>
      rw [step, hcall] at hstep
      cases hstep
    | some r' =>
      rw [step_endGrade hcall, Option.some.injEq] at hstep
      subst hstep
      by_cases htt : t = t'
      · subst htt
        simp
      · dsimp only
        rw [Function.update_of_ne htt]
        simp [Ne.symm htt]
  | recordSolve h' u' =>
    cases hstep
    simp
  | useJournal file =>
    cases hstep
    simp

/-! ## Runs -/

/-- Solves are never removed. -/
theorem solved_run (hrun : Runs.run step w es = some w') (hsolved : w.store.solved h u = true) :
    w'.store.solved h u = true :=
  Runs.run_invariant (fun _ _ _ hw hstep => (solved_step hstep).mpr (.inl hw)) hsolved hrun

/-- A call that has begun, and not ended, will say what the flags said at its begin. -/
theorem calls_of_begin (hbegin : step w (.beginGrade t call) = some w')
    {w'' : Room} (hrun : Runs.run step w' es = some w'') (hno : .endGrade t ∉ es) :
    w''.calls t = some (call, verdict w.store call) := by
  have hfirst : w'.calls t = some (call, verdict w.store call) := by
    rw [calls_step_iff hbegin]
    cases hidle : w.calls t with
    | none => exact .inr ⟨rfl, rfl, rfl⟩
    | some r =>
      rw [step, hidle] at hbegin
      cases hbegin
  clear hbegin
  induction es generalizing w' with
  | nil =>
    cases hrun
    exact hfirst
  | cons e es ih =>
    obtain ⟨m, hm, hrest⟩ := Runs.run_cons_some.mp hrun
    rw [List.mem_cons, not_or] at hno
    exact ih hrest hno.2 ((calls_step_iff hm).mpr (.inl ⟨hfirst, Ne.symm hno.1⟩))

/-- A call that stands has begun at some point of the history. -/
theorem exists_begin {r : GradeCall × Bool} (hrun : Runs.run step (start phashGrader) es = some w)
    (hcall : w.calls t = some r) :
    ∃ es₁ es₂ w₁, es = es₁ ++ .beginGrade t r.1 :: es₂ ∧ .endGrade t ∉ es₂ ∧
      Runs.run step (start phashGrader) es₁ = some w₁ ∧ r.2 = verdict w₁.store r.1 := by
  induction es using List.reverseRecOn generalizing w with
  | nil =>
    cases hrun
    cases hcall
  | append_singleton es e ih =>
    obtain ⟨m, hm, hstep⟩ := Runs.run_concat_some.mp hrun
    rcases (calls_step_iff hstep).mp hcall with ⟨hold, hne⟩ | ⟨rfl, -, hverdict⟩
    · obtain ⟨es₁, es₂, w₁, rfl, hno, hw₁, hverdict⟩ := ih hm hold
      refine ⟨es₁, es₂ ++ [e], w₁, by simp, ?_, hw₁, hverdict⟩
      rw [List.mem_append, List.mem_singleton, not_or]
      exact ⟨hno, Ne.symm hne⟩
    · exact ⟨es, [], m, rfl, List.not_mem_nil, hm, hverdict⟩

/-- Evidence stays evidence. -/
theorem Evidence.append (hev : Evidence phashGrader es h u) :
    Evidence phashGrader (es ++ es') h u := by
  cases hev with
  | grade t submitted es₁ es₂ es₃ w heq hno hw hacc =>
    refine .grade t submitted es₁ es₂ (es₃ ++ es') w ?_ hno hw hacc
    rw [heq]
    simp
  | recordSolve hmem => exact .recordSolve (List.mem_append_left _ hmem)
  | replay file hmem hvisited => exact .replay file (List.mem_append_left _ hmem) hvisited

/-- What a step adds has its evidence. -/
theorem evidence_of_adds (hrun : Runs.run step (start phashGrader) es = some w)
    (hadds : Adds w h u e) : Evidence phashGrader (es ++ [e]) h u := by
  have hlast : e ∈ es ++ [e] := List.mem_append_right es (List.mem_singleton_self e)
  cases e with
  | upsert c => exact hadds.elim
  | beginGrade t call => exact hadds.elim
  | endGrade t =>
    obtain ⟨submitted, hcall⟩ := hadds
    obtain ⟨es₁, es₂, w₁, rfl, hno, hw₁, hverdict⟩ := exists_begin hrun hcall
    refine .grade t submitted es₁ es₂ [] w₁ rfl hno hw₁ ?_
    exact verdict_iff.mp hverdict.symm
  | recordSolve h' u' =>
    obtain ⟨rfl, rfl⟩ := hadds
    exact .recordSolve hlast
  | useJournal file => exact .replay file hlast hadds

/-- A step of a run that adds a solve leaves it solved at the end. -/
theorem solved_of_adds {m : Room} (hrest : Runs.run step m (e :: es) = some w)
    (hadds : Adds m h u e) : w.store.solved h u = true := by
  obtain ⟨m', hstep, hend⟩ := Runs.run_cons_some.mp hrest
  exact solved_run hend ((solved_step hstep).mpr (.inr hadds))

theorem solved_of_evidence (hrun : Runs.run step (start phashGrader) es = some w)
    (hev : Evidence phashGrader es h u) : w.store.solved h u = true := by
  cases hev with
  | grade t submitted es₁ es₂ es₃ w₁ heq hno hw₁ hacc =>
    rw [heq, List.append_assoc, Runs.run_append_some] at hrun
    obtain ⟨m, hm, hrest⟩ := hrun
    rw [hw₁, Option.some.injEq] at hm
    subst hm
    obtain ⟨m', hbegin, hrest⟩ := Runs.run_cons_some.mp hrest
    obtain ⟨m'', hmid, hend⟩ := Runs.run_append_some.mp hrest
    refine solved_of_adds hend ⟨submitted, ?_⟩
    rw [calls_of_begin hbegin hmid hno, verdict_iff.mpr hacc]
  | recordSolve hmem =>
    obtain ⟨es₁, es₂, rfl⟩ := List.append_of_mem hmem
    obtain ⟨m, -, hrest⟩ := Runs.run_append_some.mp hrun
    exact solved_of_adds hrest ⟨rfl, rfl⟩
  | replay file hmem hvisited =>
    obtain ⟨es₁, es₂, rfl⟩ := List.append_of_mem hmem
    obtain ⟨m, -, hrest⟩ := Runs.run_append_some.mp hrun
    exact solved_of_adds hrest hvisited

theorem evidence_of_solved (hrun : Runs.run step (start phashGrader) es = some w)
    (hsolved : w.store.solved h u = true) : Evidence phashGrader es h u := by
  induction es using List.reverseRecOn generalizing w with
  | nil =>
    cases hrun
    rw [start, Store.solved_newStore] at hsolved
    cases hsolved
  | append_singleton es e ih =>
    obtain ⟨m, hm, hstep⟩ := Runs.run_concat_some.mp hrun
    rcases (solved_step hstep).mp hsolved with hold | hadds
    · exact (ih hm hold).append
    · exact evidence_of_adds hm hadds

/-- Replacing a challenge changes no solve and no other challenge. -/
theorem frame_upsert {c : Challenge} (hstep : step w (.upsert c) = some w') :
    w'.store.solves = w.store.solves ∧ ∀ h, h ≠ c.hash → w'.store.get h = w.store.get h := by
  rw [step, Store.upsert] at hstep
  split_ifs at hstep
  · cases hstep
    exact ⟨rfl, fun _ _ => rfl⟩
  · cases hstep
    refine ⟨rfl, fun h hne => ?_⟩
    exact (Store.get_put w.store c h).trans (if_neg hne)

/-- In every run from an empty store a solve holds exactly when the history has evidence
for it; solves are never removed, and `Upsert` changes no solve and no other challenge. -/
theorem solved_iff_evidence (phashGrader : PhashGrader) (es : List Event) (w : Room)
    (hrun : Runs.run step (start phashGrader) es = some w) :
    (∀ h u, w.store.solved h u = true ↔ Evidence phashGrader es h u) ∧
      (∀ es' w', Runs.run step w es' = some w' → ∀ h u, w.store.solved h u = true →
        w'.store.solved h u = true) ∧
      ∀ c w', step w (.upsert c) = some w' →
        w'.store.solves = w.store.solves ∧ ∀ h, h ≠ c.hash → w'.store.get h = w.store.get h :=
  ⟨fun _ _ => ⟨evidence_of_solved hrun, solved_of_evidence hrun⟩,
    fun _ _ hrest _ _ hsolved => solved_run hrest hsolved,
    fun _ _ hstep => frame_upsert hstep⟩

def quiz (flag : String) : Challenge := ⟨utf8 "q1", utf8 "Quiz", 10, [utf8 flag], none⟩

/-- A grade reads a flag that is replaced before it records. -/
def replacedRun : List Event :=
  [.upsert (quiz "old"), .beginGrade 0 ⟨utf8 "q1", utf8 "old", utf8 "alice"⟩,
    .upsert (quiz "new"), .endGrade 0, .beginGrade 1 ⟨utf8 "q1", utf8 "old", utf8 "bob"⟩,
    .endGrade 1]

theorem solved_iff_evidence_replacedRun : ∃ w,
    Runs.run step (start none) replacedRun = some w ∧
      (w.store.solved (utf8 "q1") (utf8 "alice") = true ↔
        Evidence none replacedRun (utf8 "q1") (utf8 "alice")) ∧
      w.store.solved (utf8 "q1") (utf8 "alice") = true ∧
      w.store.solved (utf8 "q1") (utf8 "bob") = false := by
  refine ⟨_, rfl, (solved_iff_evidence none replacedRun _ rfl).1 _ _, ?_, ?_⟩
  · decide +kernel
  · decide +kernel

end TrainingPlatform.Scoring.History
