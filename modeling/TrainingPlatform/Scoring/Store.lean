import TrainingPlatform.Go.Strings
import Mathlib.Data.Finset.Insert
import Mathlib.Data.List.AList

/-!
# The challenge store

`Store` keeps the registered challenges by hash and, for each hash, the set of
users who solved it.  Go maps are association lists with unique keys here and a
`map[string]bool` that only ever holds `true` is a finite set.  `journal` is not
a field: a call that records a new solve says so in its result, and the callers
that model persistence append to the log exactly then.
-/

namespace TrainingPlatform.Scoring

open Go

/-- `regexp.Compile` followed by `MatchString`: `none` on a pattern that does not
compile. -/
abbrev Regexp := GoString → Option (GoString → Bool)

/-- Where the learner's result page lives and what it must contain. -/
structure VerifySpec where
  port : Int
  path : GoString
  expect : GoString
  expectRegex : GoString
  deriving DecidableEq

/-- One gradable question.  `verify` is nil unless the lesson asserts content. -/
structure Challenge where
  hash : GoString
  name : GoString
  value : Int
  flags : List GoString
  verify : Option VerifySpec
  deriving DecidableEq

def VerifySpec.matches (regexp : Regexp) (v : VerifySpec) (body : GoString) : Bool :=
  if v.expect ≠ [] then contains body v.expect
  else if v.expectRegex ≠ [] then
    match regexp v.expectRegex with
    | none => false
    | some re => re body
  else false

/-- A method on a pointer: nil asserts nothing. -/
def assertive : Option VerifySpec → Bool
  | none => false
  | some v => v.expect ≠ [] || v.expectRegex ≠ []

def isPhashFlag (flag : GoString) : Bool :=
  6 < flag.length && flag.take 6 == utf8 "phash$"

/-- The perceptual-hash grader a store is built with; nil rejects every
exercise capture. -/
abbrev PhashGrader := Option (GoString → GoString → Bool)

/-- The store.  `keyed` is what `upsert` maintains: a challenge is registered
under its own hash. -/
structure Store where
  byHash : AList fun _ : GoString => Challenge
  solves : AList fun _ : GoString => Finset GoString
  phashGrade : PhashGrader
  keyed : ∀ h c, byHash.lookup h = some c → c.hash = h

namespace Store

def newStore (phashGrader : PhashGrader) : Store where
  byHash := ∅
  solves := ∅
  phashGrade := phashGrader
  keyed h c hc := by rw [AList.lookup_empty] at hc; contradiction

/-- The map assignment of `Upsert`. -/
def put (s : Store) (c : Challenge) : Store :=
  { s with
    byHash := s.byHash.insert c.hash c
    keyed := by
      intro h d hd
      by_cases he : h = c.hash
      · subst he
        rw [AList.lookup_insert] at hd
        exact Option.some.inj hd ▸ rfl
      · rw [AList.lookup_insert_ne he] at hd
        exact s.keyed h d hd }

/-- Adds or replaces a challenge; a challenge without a hash is an error. -/
def upsert (s : Store) (c : Challenge) : Except GoString Store :=
  if c.hash = [] then .error (utf8 "challenge has empty hash") else .ok (s.put c)

def get (s : Store) (hash : GoString) : Option Challenge := s.byHash.lookup hash

/-- The users who solved a challenge; a hash the map does not hold has none. -/
def users (s : Store) (challengeHash : GoString) : Finset GoString :=
  (s.solves.lookup challengeHash).getD ∅

def solved (s : Store) (challengeHash userID : GoString) : Bool :=
  userID ∈ s.users challengeHash

/-- The in-memory half of recording a solve: whether it was new, and the store
that holds it. -/
def recordSolve (s : Store) (challengeHash userID : GoString) : Bool × Store :=
  if userID ∈ s.users challengeHash then (false, s)
  else (true, { s with
    solves := s.solves.insert challengeHash (insert userID (s.users challengeHash)) })

/-- The loop over a challenge's flags: a perceptual-hash flag goes to the grader,
any other must equal the submission. -/
def gradeFlags (grade : PhashGrader) (submitted : GoString) : List GoString → Bool
  | [] => false
  | flag :: flags =>
    if isPhashFlag flag then
      match grade with
      | some g => if g flag submitted then true else gradeFlags grade submitted flags
      | none => gradeFlags grade submitted flags
    else if flag = submitted then true
    else gradeFlags grade submitted flags

/-- What `Grade` returns, the store after it, and whether a new solve went to
`journalSolve`. -/
structure Graded where
  correct : Bool
  known : Bool
  journalled : Bool
  store : Store

def grade (s : Store) (challengeHash submitted userID : GoString) : Graded :=
  match s.byHash.lookup challengeHash with
  | none => ⟨false, false, false, s⟩
  | some c =>
    if gradeFlags s.phashGrade submitted c.flags then
      let r := s.recordSolve challengeHash userID
      ⟨true, true, r.1, r.2⟩
    else ⟨false, true, false, s⟩

/-- The exported method, the verify path's entry: the same recording without a
flag. -/
def RecordSolve (s : Store) (challengeHash userID : GoString) : Bool × Store :=
  s.recordSolve challengeHash userID

/-! ## What the operations do -/

/-- One flag accepts a submission. -/
def FlagAccepts (grade : PhashGrader) (flag submitted : GoString) : Prop :=
  if isPhashFlag flag then ∃ g, grade = some g ∧ g flag submitted = true
  else flag = submitted

theorem gradeFlags_iff {grade : PhashGrader} {submitted : GoString} {flags : List GoString} :
    gradeFlags grade submitted flags = true ↔
      ∃ flag ∈ flags, FlagAccepts grade flag submitted := by
  induction flags with
  | nil => simp [gradeFlags]
  | cons flag flags ih =>
    simp only [gradeFlags, List.exists_mem_cons_iff, ← ih]
    cases hp : isPhashFlag flag with
    | false =>
      by_cases he : flag = submitted
      · subst he
        simp [FlagAccepts, hp]
      · simp [FlagAccepts, hp, he]
    | true =>
      cases grade with
      | none => simp [FlagAccepts, hp]
      | some g => cases hg : g flag submitted <;> simp [FlagAccepts, hp, hg]

theorem solved_newStore (g : PhashGrader) (h u : GoString) :
    (newStore g).solved h u = false := by
  simp [newStore, solved, users]

theorem get_put (s : Store) (c : Challenge) (h : GoString) :
    (s.put c).get h = if h = c.hash then some c else s.get h := by
  by_cases he : h = c.hash
  · rw [if_pos he, he]
    exact AList.lookup_insert _
  · rw [if_neg he]
    exact AList.lookup_insert_ne he

theorem users_recordSolve (s : Store) (h u h' : GoString) :
    (s.recordSolve h u).2.users h' =
      if h' = h then insert u (s.users h) else s.users h' := by
  unfold recordSolve
  by_cases hu : u ∈ s.users h
  · rw [if_pos hu]
    by_cases he : h' = h
    · subst he
      rw [if_pos rfl, Finset.insert_eq_of_mem hu]
    · rw [if_neg he]
  · rw [if_neg hu]
    by_cases he : h' = h
    · subst he
      simp [users]
    · rw [if_neg he, users, AList.lookup_insert_ne he]
      rfl

theorem solved_recordSolve (s : Store) (h u h' u' : GoString) :
    (s.recordSolve h u).2.solved h' u' = true ↔
      s.solved h' u' = true ∨ (h' = h ∧ u' = u) := by
  rw [solved, solved, users_recordSolve]
  by_cases he : h' = h
  · subst he
    simp [or_comm]
  · simp [he]

theorem recordSolve_fst (s : Store) (h u : GoString) :
    (s.recordSolve h u).1 = !s.solved h u := by
  unfold recordSolve solved
  by_cases hu : u ∈ s.users h <;> simp [hu]

@[simp] theorem recordSolve_byHash (s : Store) (h u : GoString) :
    (s.recordSolve h u).2.byHash = s.byHash := by
  unfold recordSolve
  split <;> rfl

theorem grade_of_accepts {s : Store} {h submitted u : GoString} {c : Challenge}
    (hc : s.get h = some c) (hf : ∃ flag ∈ c.flags, FlagAccepts s.phashGrade flag submitted) :
    s.grade h submitted u = ⟨true, true, (s.recordSolve h u).1, (s.recordSolve h u).2⟩ := by
  have hlook : s.byHash.lookup h = some c := hc
  simp only [grade, hlook, gradeFlags_iff.mpr hf, if_true]

/-- A grade that no flag accepts changes nothing. -/
theorem grade_of_not_accepts {s : Store} {h submitted : GoString}
    (hno : ∀ c, s.get h = some c →
      ¬ ∃ flag ∈ c.flags, FlagAccepts s.phashGrade flag submitted) (u : GoString) :
    (s.grade h submitted u).store = s ∧ (s.grade h submitted u).correct = false := by
  unfold grade
  cases hc : s.byHash.lookup h with
  | none => exact ⟨rfl, rfl⟩
  | some c =>
    have hflags : gradeFlags s.phashGrade submitted c.flags = false := by
      rw [← Bool.not_eq_true, gradeFlags_iff]
      exact hno c hc
    simp [hflags]

end Store

end TrainingPlatform.Scoring
