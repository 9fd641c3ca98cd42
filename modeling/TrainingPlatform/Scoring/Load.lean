import TrainingPlatform.Go.Results
import TrainingPlatform.Scoring.Store
import Mathlib.Data.List.TakeWhile

/-!
# Seeding the store

`LoadFile` reads the challenges file of a built site into a store.  Decoding the
file is an argument.
-/

namespace TrainingPlatform.Scoring

open Go

namespace Store

/-- The loop of `LoadFile`. -/
def upsertAll (s : Store) : List Challenge → Except GoString Store
  | [] => .ok s
  | c :: cs => do
    let s ← s.upsert c
    s.upsertAll cs

/-- `LoadFile`, given what `os.ReadFile` returns: the number of challenges and the
store they are in. -/
def loadFile (unmarshal : GoString → Except GoString (List Challenge)) (s : Store)
    (file : Except GoString GoString) : Except GoString (Nat × Store) := do
  let b ← file
  let challenges ← wrapError (utf8 "parsing challenges file: ") (unmarshal b)
  let s ← s.upsertAll challenges
  .ok (challenges.length, s)

theorem upsertAll_ok {cs : List Challenge} (h : ∀ c ∈ cs, c.hash ≠ []) (s : Store) :
    s.upsertAll cs = .ok (cs.foldl put s) := by
  induction cs generalizing s with
  | nil => rfl
  | cons c cs ih =>
    have hc : s.upsert c = .ok (s.put c) := if_neg (h c List.mem_cons_self)
    rw [upsertAll, hc]
    exact ih (fun d hd => h d (List.mem_cons_of_mem c hd)) (s.put c)

/-- A file that decodes to challenges with hashes loads. -/
theorem loadFile_ok {unmarshal : GoString → Except GoString (List Challenge)} {bytes : GoString}
    {cs : List Challenge} (hcs : unmarshal bytes = .ok cs) (h : ∀ c ∈ cs, c.hash ≠ [])
    (s : Store) : s.loadFile unmarshal (.ok bytes) = .ok (cs.length, cs.foldl put s) := by
  show (wrapError _ (unmarshal bytes) >>= fun cs => s.upsertAll cs >>= _) = _
  rw [hcs]
  show (s.upsertAll cs >>= _) = _
  rw [upsertAll_ok h]
  rfl

/-- Of several challenges with one hash the last is kept. -/
theorem get_foldl_put (cs : List Challenge) (s : Store) (h : GoString) :
    (cs.foldl put s).get h = ((cs.filter fun c => c.hash = h).getLast?).or (s.get h) := by
  induction cs generalizing s with
  | nil => rfl
  | cons c cs ih =>
    rw [List.foldl_cons, ih, get_put]
    by_cases hc : c.hash = h
    · rw [List.filter_cons_of_pos (by simpa using hc), List.getLast?_cons, if_pos hc.symm]
      cases (cs.filter fun c => c.hash = h).getLast? <;> rfl
    · rw [List.filter_cons_of_neg (by simpa using hc), if_neg (Ne.symm hc)]

theorem phashGrade_foldl_put (cs : List Challenge) (s : Store) :
    (cs.foldl put s).phashGrade = s.phashGrade := by
  induction cs generalizing s with
  | nil => rfl
  | cons c cs ih =>
    rw [List.foldl_cons, ih]
    rfl

theorem solved_foldl_put (cs : List Challenge) (s : Store) (h u : GoString) :
    (cs.foldl put s).solved h u = s.solved h u := by
  induction cs generalizing s with
  | nil => rfl
  | cons c cs ih =>
    rw [List.foldl_cons, ih]
    rfl

theorem correct_grade_iff {s : Store} {h submitted u : GoString} :
    (s.grade h submitted u).correct = true ↔
      ∃ c, s.get h = some c ∧ ∃ flag ∈ c.flags, FlagAccepts s.phashGrade flag submitted := by
  constructor
  · intro hcorrect
    by_contra hno
    have hrejected : ∀ c, s.get h = some c →
        ¬ ∃ flag ∈ c.flags, FlagAccepts s.phashGrade flag submitted :=
      fun c hc hflag => hno ⟨c, hc, hflag⟩
    rw [(grade_of_not_accepts hrejected u).2] at hcorrect
    contradiction
  · intro hcorrect
    obtain ⟨c, hc, hflag⟩ := hcorrect
    rw [grade_of_accepts hc hflag]

/-- One flag of a challenge, and the others. -/
theorem correct_grade_iff_of_mem {s : Store} {h submitted u flag : GoString} {c : Challenge}
    (hc : s.get h = some c) (hflag : flag ∈ c.flags) :
    (s.grade h submitted u).correct = true ↔
      FlagAccepts s.phashGrade flag submitted ∨
        ∃ other ∈ c.flags, other ≠ flag ∧ FlagAccepts s.phashGrade other submitted := by
  rw [correct_grade_iff]
  constructor
  · intro haccepts
    obtain ⟨c', hc', other, hmem, haccepts⟩ := haccepts
    rw [hc, Option.some.injEq] at hc'
    subst hc'
    by_cases heq : other = flag
    · subst heq
      exact .inl haccepts
    · exact .inr ⟨other, hmem, heq, haccepts⟩
  · intro haccepts
    rcases haccepts with haccepts | hother
    · exact ⟨c, hc, flag, hflag, haccepts⟩
    · obtain ⟨other, hmem, -, haccepts⟩ := hother
      exact ⟨c, hc, other, hmem, haccepts⟩

/-! ## A load that fails midway -/

/-- The loop with the store it leaves: each `Upsert` counts at once. -/
def upsertEach (s : Store) : List Challenge → Store × Except GoString Unit
  | [] => (s, .ok ())
  | c :: cs =>
    match s.upsert c with
    | .error e => (s, .error e)
    | .ok s' => s'.upsertEach cs

/-- `LoadFile` with the store it leaves, which the caller goes on to serve whatever was
returned. -/
def loadLeaving (unmarshal : GoString → Except GoString (List Challenge)) (s : Store)
    (file : Except GoString GoString) : Store × Except GoString Nat :=
  match file with
  | .error e => (s, .error e)
  | .ok b =>
    match wrapError (utf8 "parsing challenges file: ") (unmarshal b) with
    | .error e => (s, .error e)
    | .ok challenges =>
      let r := s.upsertEach challenges
      (r.1, r.2.map fun _ => challenges.length)

def Hashed (c : Challenge) : Prop := c.hash ≠ []

instance (c : Challenge) : Decidable (Hashed c) := inferInstanceAs (Decidable (c.hash ≠ []))

/-- What the loop puts in: the challenges before the first without a hash. -/
def leading (cs : List Challenge) : List Challenge := cs.takeWhile fun c => Hashed c

theorem upsertEach_eq (cs : List Challenge) (s : Store) :
    s.upsertEach cs = ((leading cs).foldl put s,
      if ∀ c ∈ cs, Hashed c then .ok () else .error (utf8 "challenge has empty hash")) := by
  induction cs generalizing s with
  | nil => rfl
  | cons c cs ih =>
    by_cases hc : Hashed c
    · have hput : s.upsert c = .ok (s.put c) := if_neg hc
      have hleading : leading (c :: cs) = c :: leading cs :=
        List.takeWhile_cons_of_pos (decide_eq_true hc)
      rw [upsertEach, hput, hleading, List.foldl_cons]
      simp only [ih, List.forall_mem_cons, hc, true_and]
    · have hput : s.upsert c = .error (utf8 "challenge has empty hash") :=
        if_pos (not_not.mp hc)
      have hleading : leading (c :: cs) = [] :=
        List.takeWhile_cons_of_neg (by simpa using hc)
      have hall : ¬ ∀ d ∈ c :: cs, Hashed d := fun h => hc (h c List.mem_cons_self)
      rw [upsertEach, hput, hleading, if_neg hall]
      rfl

theorem leading_of_hashed {cs : List Challenge} (h : ∀ c ∈ cs, Hashed c) : leading cs = cs :=
  List.takeWhile_eq_self_iff.mpr fun c hc => decide_eq_true (h c hc)

section LoadLeaving

variable {unmarshal : GoString → Except GoString (List Challenge)} {s : Store}
  {file : Except GoString GoString}

/-- What a load leaves, by what the file holds. -/
theorem loadLeaving_cases (unmarshal : GoString → Except GoString (List Challenge)) (s : Store)
    (file : Except GoString GoString) :
    (∃ e, s.loadLeaving unmarshal file = (s, .error e) ∧
        ∀ b cs, file = .ok b → unmarshal b ≠ .ok cs) ∨
      ∃ b cs, file = .ok b ∧ unmarshal b = .ok cs ∧
        s.loadLeaving unmarshal file = ((leading cs).foldl put s,
          if ∀ c ∈ cs, Hashed c then .ok cs.length
          else .error (utf8 "challenge has empty hash")) := by
  cases file with
  | error e => exact .inl ⟨e, rfl, nofun⟩
  | ok b =>
    cases hb : unmarshal b with
    | error e =>
      refine .inl ⟨utf8 "parsing challenges file: " ++ e, ?_, ?_⟩
      · rw [loadLeaving, hb]
        rfl
      · intro b' cs hfile
        cases hfile
        rw [hb]
        exact nofun
    | ok cs =>
      refine .inr ⟨b, cs, rfl, hb, ?_⟩
      rw [loadLeaving, hb]
      simp only [wrapError, upsertEach_eq]
      split_ifs <;> rfl

theorem upsertAll_eq (cs : List Challenge) (s : Store) :
    s.upsertAll cs = (s.upsertEach cs).2.map fun _ => (s.upsertEach cs).1 := by
  induction cs generalizing s with
  | nil => rfl
  | cons c cs ih =>
    rw [upsertAll, upsertEach]
    cases s.upsert c with
    | error e => rfl
    | ok s' => exact ih s'

/-- `loadFile` is the load that forgets what an error leaves. -/
theorem loadFile_eq :
    s.loadFile unmarshal file =
      (s.loadLeaving unmarshal file).2.map fun n => (n, (s.loadLeaving unmarshal file).1) := by
  cases file with
  | error e => rfl
  | ok b =>
    rw [loadLeaving]
    change (wrapError _ (unmarshal b) >>= fun cs => s.upsertAll cs >>= _) = _
    cases unmarshal b with
    | error e => rfl
    | ok cs =>
      change (s.upsertAll cs >>= _) = _
      rw [upsertAll_eq]
      simp only [wrapError]
      cases (s.upsertEach cs).2 with
      | error e => rfl
      | ok _ => rfl

/-- The challenge map after `cs` are put in: the last of one hash counts. -/
def overridden (s : Store) (cs : List Challenge) (h : GoString) : Option Challenge :=
  ((cs.filter fun c => c.hash = h).getLast?).or (s.get h)

/-- A load takes in the whole file or leaves the store as it was. -/
structure LoadsWhole (unmarshal : GoString → Except GoString (List Challenge)) (s : Store)
    (file : Except GoString GoString) : Prop where
  loaded : ∀ n, (s.loadLeaving unmarshal file).2 = .ok n →
    ∃ b cs, file = .ok b ∧ unmarshal b = .ok cs ∧ n = cs.length ∧
      ∀ h, (s.loadLeaving unmarshal file).1.get h = s.overridden cs h
  failed : ∀ e, (s.loadLeaving unmarshal file).2 = .error e →
    ∀ h, (s.loadLeaving unmarshal file).1.get h = s.get h
  solves : (s.loadLeaving unmarshal file).1.solves = s.solves

/-- Where a challenge of the file has no hash, those before the first such change nothing. -/
def StopsClean (unmarshal : GoString → Except GoString (List Challenge)) (s : Store)
    (file : Except GoString GoString) : Prop :=
  ∀ b cs, file = .ok b → unmarshal b = .ok cs →
    (∀ c ∈ cs, Hashed c) ∨ ∀ h, s.overridden (leading cs) h = s.get h

theorem solves_foldl_put (cs : List Challenge) (s : Store) :
    (cs.foldl put s).solves = s.solves := by
  induction cs generalizing s with
  | nil => rfl
  | cons c cs ih =>
    rw [List.foldl_cons, ih]
    rfl

theorem loadsWhole_iff_stopsClean (unmarshal : GoString → Except GoString (List Challenge))
    (s : Store) (file : Except GoString GoString) :
    LoadsWhole unmarshal s file ↔ StopsClean unmarshal s file := by
  rcases loadLeaving_cases unmarshal s file with hfailed | hread
  · obtain ⟨e, heq, hno⟩ := hfailed
    refine iff_of_true ⟨fun n hn => ?_, fun _ _ h => ?_, ?_⟩ fun b cs hb hcs => ?_
    · rw [heq] at hn
      cases hn
    · rw [heq]
    · rw [heq]
    · exact absurd hcs (hno b cs hb)
  · obtain ⟨b, cs, hb, hcs, heq⟩ := hread
    have hget : ∀ h, (s.loadLeaving unmarshal file).1.get h = s.overridden (leading cs) h := by
      rw [heq]
      exact get_foldl_put (leading cs) s
    constructor
    · intro hwhole b' cs' hb' hcs'
      rw [hb, Except.ok.injEq] at hb'
      subst hb'
      rw [hcs, Except.ok.injEq] at hcs'
      subst hcs'
      by_cases hall : ∀ c ∈ cs, Hashed c
      · exact .inl hall
      · refine .inr fun h => ?_
        rw [← hget]
        refine hwhole.failed (utf8 "challenge has empty hash") ?_ h
        rw [heq, if_neg hall]
    · intro hclean
      refine ⟨fun n hn => ⟨b, cs, hb, hcs, ?_⟩, fun e he h => ?_, ?_⟩
      · rw [heq] at hn
        split_ifs at hn with hall
        refine ⟨(Except.ok.inj hn).symm, fun h => ?_⟩
        rw [hget, leading_of_hashed hall]
      · rw [heq] at he
        split_ifs at he with hall
        rw [hget]
        exact (hclean b cs hb hcs).resolve_left hall h
      · rw [heq]
        exact solves_foldl_put _ s

end LoadLeaving

/-- `[{"hash":"c1","value":10},{"value":20}]`. -/
def unhashedFile : List Challenge :=
  [⟨utf8 "c1", [], 10, [], none⟩, ⟨[], [], 20, [], none⟩]

/-- The load of an empty store fails and leaves it with the first challenge. -/
theorem not_loadsWhole_unhashedFile :
    ¬ LoadsWhole (fun _ => .ok unhashedFile) (newStore none) (.ok (utf8
      "[\x7b\"hash\":\"c1\",\"value\":10\x7d,\x7b\"value\":20\x7d]")) := by
  intro h
  have hleft := h.failed (utf8 "challenge has empty hash") rfl (utf8 "c1")
  exact absurd hleft (by decide)

end Store

end TrainingPlatform.Scoring
