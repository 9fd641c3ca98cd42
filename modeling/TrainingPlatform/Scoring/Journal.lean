import TrainingPlatform.Go.Json
import TrainingPlatform.Go.Lines
import Mathlib.Algebra.Group.Nat.Defs

/-!
# The solve log

A journal is the byte content of its file.  `append` is `Journal.Append` with the
outcome of its two system calls as an argument, `openJournal` heals a torn tail,
and `replay` is `Journal.Replay` over the content.
-/

namespace TrainingPlatform.Scoring

open Go

/-- "User solved challenge". -/
structure Solve where
  user : GoString
  challenge : GoString
  deriving DecidableEq

structure SolveRecord where
  user : GoString
  challenge : GoString
  at' : GoString
  deriving DecidableEq

namespace SolveRecord

/-- `json.Marshal`. -/
def marshal (r : SolveRecord) : GoString :=
  Json.object [(utf8 "user", r.user), (utf8 "challenge", r.challenge), (utf8 "at", r.at')]

def set (r : SolveRecord) (key : GoString) (v : Json.Value) : Option SolveRecord :=
  if key = utf8 "USER" then Json.setString r (fun s => { r with user := s }) v
  else if key = utf8 "CHALLENGE" then Json.setString r (fun s => { r with challenge := s }) v
  else if key = utf8 "AT" then Json.setString r (fun s => { r with at' := s }) v
  else some r

/-- `json.Unmarshal` into a zero record. -/
def unmarshal (line : GoString) : Option SolveRecord :=
  (Json.parse line).bind (Json.decodeStruct set ⟨[], [], []⟩)

theorem unmarshal_marshal (r : SolveRecord) :
    unmarshal r.marshal = some ⟨toValid r.user, toValid r.challenge, toValid r.at'⟩ := by
  rw [unmarshal, marshal, Json.parse_object]
  have h₁ : Json.foldName (toValid (utf8 "user")) = utf8 "USER" := by decide
  have h₂ : Json.foldName (toValid (utf8 "challenge")) = utf8 "CHALLENGE" := by decide
  have h₃ : Json.foldName (toValid (utf8 "at")) = utf8 "AT" := by decide
  have h₂₁ : utf8 "CHALLENGE" ≠ utf8 "USER" := by decide
  have h₃₁ : utf8 "AT" ≠ utf8 "USER" := by decide
  have h₃₂ : utf8 "AT" ≠ utf8 "CHALLENGE" := by decide
  simp [Json.members, Json.decodeStruct, List.foldlM, h₁, h₂, h₃, h₂₁, h₃₁, h₃₂, set,
    Json.setString]

theorem newline_notMem_marshal (r : SolveRecord) : newline ∉ r.marshal := by
  intro h
  exact absurd (Json.control_free_object _ _ h) (by decide)

theorem carriageReturn_notMem_marshal (r : SolveRecord) : carriageReturn ∉ r.marshal := by
  intro h
  exact absurd (Json.control_free_object _ _ h) (by decide)

theorem unmarshal_prefix {r : SolveRecord} {p : GoString} (h : p <+: r.marshal)
    (hne : p ≠ r.marshal) : unmarshal p = none := by
  rw [unmarshal, Json.parse_prefix_object h hne]
  rfl

end SolveRecord

/-- The scanner's limit for one line. -/
def maxLine : Nat := 2 ^ 20

/-- What `Replay` does with one non-empty token. -/
def parseLine (line : GoString) : Option Solve :=
  match SolveRecord.unmarshal line with
  | none => none
  | some r => if r.user = [] || r.challenge = [] then none else some ⟨r.user, r.challenge⟩

/-- The calls of `visit`, the count of skipped lines, and whether the scanner
stopped with an error. -/
structure Replayed where
  visited : List Solve
  skipped : Nat
  err : Bool

def replay (file : GoString) : Replayed :=
  let r := scanTokens maxLine file
  let tokens := r.1.filter (· ≠ [])
  ⟨tokens.filterMap parseLine, (tokens.filter fun l => (parseLine l).isNone).length, r.2⟩

/-- What `terminateLastLine` writes when the log is opened. -/
def terminateLastLine (file : GoString) : GoString :=
  match file.getLast? with
  | none => []
  | some b => if b = newline then [] else [newline]

def openJournal (file : GoString) : GoString := file ++ terminateLastLine file

/-- The line an append writes. -/
def recordLine (s : Solve) (at' : GoString) : GoString :=
  (SolveRecord.mk s.user s.challenge at').marshal

/-- One call of `Append` and what its system calls do: a write that fails after
`n` bytes, or a sync that fails. -/
structure Attempt where
  solve : Solve
  at' : GoString
  writeFails : Option Nat
  syncFails : Bool

namespace Attempt

/-- The bytes that reach the file. -/
def written (a : Attempt) : GoString :=
  let line := recordLine a.solve a.at' ++ [newline]
  match a.writeFails with
  | none => line
  | some n => line.take n

/-- `Append` returned nil. -/
def acknowledged (a : Attempt) : Bool := a.writeFails.isNone && !a.syncFails

end Attempt

/-- A journal in use: its file, and the solves whose append was acknowledged. -/
structure Journal where
  file : GoString
  acked : List Solve

namespace Journal

def append (j : Journal) (a : Attempt) : Journal :=
  ⟨j.file ++ a.written, if a.acknowledged then j.acked ++ [a.solve] else j.acked⟩

def step (j : Journal) (a : Attempt) : Option Journal := some (j.append a)

end Journal

/-! ## What lines parse to -/

/-- A solve the log can hold: its strings are not empty, they are UTF-8, and the
line is shorter than the scanner's limit. -/
structure Recordable (s : Solve) (at' : GoString) : Prop where
  user_ne : s.user ≠ []
  challenge_ne : s.challenge ≠ []
  user_valid : validString s.user = true
  challenge_valid : validString s.challenge = true
  short : (recordLine s at').length < maxLine

theorem parseLine_recordLine {s : Solve} {at' : GoString} (h : Recordable s at') :
    parseLine (recordLine s at') = some s := by
  rw [parseLine, recordLine, SolveRecord.unmarshal_marshal]
  simp [toValid_eq_self h.user_valid, toValid_eq_self h.challenge_valid, h.user_ne,
    h.challenge_ne]

theorem parseLine_piece {s : Solve} {at' p : GoString} (h : p <+: recordLine s at')
    (hne : p ≠ recordLine s at') : parseLine p = none := by
  rw [parseLine, SolveRecord.unmarshal_prefix h hne]

theorem parseLine_nil : parseLine [] = none := rfl

theorem newline_notMem_recordLine (s : Solve) (at' : GoString) : newline ∉ recordLine s at' :=
  SolveRecord.newline_notMem_marshal _

/-- Every line fits the scanner's buffer. -/
def Short (file : GoString) : Prop := ∀ l ∈ segments file, l.length < maxLine

instance (file : GoString) : Decidable (Short file) :=
  inferInstanceAs (Decidable (∀ l ∈ segments file, l.length < maxLine))

/-- No line ends in a carriage return, so every token is the line itself. -/
def Plain (file : GoString) : Prop := ∀ l ∈ segments file, carriageReturn ∉ l

theorem dropCR_eq_self {l : GoString} (h : carriageReturn ∉ l) : dropCR l = l := by
  rw [dropCR, if_neg]
  intro hlast
  exact h (List.mem_of_getLast? hlast)

theorem scanTokens_of_short {file : GoString} (h : Short file) :
    scanTokens maxLine file = ((segments file).map dropCR, false) := by
  have htake : (segments file).takeWhile (fun l => l.length < maxLine) = segments file :=
    List.takeWhile_eq_self_iff.mpr fun l hl => by simpa using h l hl
  have hall : ((segments file).all fun l => l.length < maxLine) = true :=
    List.all_eq_true.mpr fun l hl => by simpa using h l hl
  rw [scanTokens, htake, hall]
  rfl

/-- A replay of a log of short plain lines visits what its lines parse to. -/
theorem replay_visited {file : GoString} (hshort : Short file) (hplain : Plain file) :
    (replay file).visited = records parseLine file := by
  have hmap : (segments file).map dropCR = segments file := by
    conv_rhs => rw [← List.map_id (segments file)]
    exact List.map_congr_left fun l hl => dropCR_eq_self (hplain l hl)
  rw [replay, scanTokens_of_short hshort, records]
  simp only [hmap]
  rw [List.filterMap_filter]
  refine List.filterMap_congr fun l _ => ?_
  by_cases hl : l = []
  · simp [hl, parseLine_nil]
  · simp [hl]

/-- A complete line that parses is visited, whatever else the log holds, as long as
every line is short. -/
theorem mem_visited {file l : GoString} {s : Solve} (hshort : Short file)
    (hl : l ∈ segments file) (hcr : carriageReturn ∉ l) (hs : parseLine l = some s) :
    s ∈ (replay file).visited := by
  have hne : l ≠ [] := by
    intro heq
    subst heq
    rw [parseLine_nil] at hs
    contradiction
  rw [replay, scanTokens_of_short hshort]
  refine List.mem_filterMap.mpr ⟨l, List.mem_filter.mpr ⟨?_, by simpa using hne⟩, hs⟩
  exact List.mem_map.mpr ⟨l, hl, dropCR_eq_self hcr⟩

/-- Healing a log closes its last line or leaves it as it is. -/
theorem openJournal_cases (file : GoString) :
    (Terminated file ∧ openJournal file = file) ∨ openJournal file = file ++ [newline] := by
  unfold openJournal terminateLastLine
  cases h : file.getLast? with
  | none =>
    rw [List.getLast?_eq_none_iff] at h
    exact .inl ⟨.inl h, List.append_nil _⟩
  | some b =>
    by_cases hb : b = newline
    · subst hb
      obtain ⟨s, rfl⟩ := List.getLast?_eq_some_iff.mp h
      exact .inl ⟨.inr ⟨s, rfl⟩, by simp⟩
    · exact .inr (by simp [hb])

theorem terminated_openJournal (file : GoString) : Terminated (openJournal file) := by
  rcases openJournal_cases file with ⟨hterm, heq⟩ | heq
  · rwa [heq]
  · exact .inr ⟨file, heq⟩

/-! ## Failed appends -/

namespace Journal

/-- Every acknowledged solve has a complete line of its own, and is read back. -/
def Holds (j : Journal) : Prop := ∀ s ∈ j.acked, s ∈ (replay j.file).visited

/-- The condition on an append: it leaves no line that reaches the scanner's limit,
and if it is acknowledged, its record is one the log can hold and the file it
finds ends in a newline or is empty. -/
def Clean (j : Journal) (a : Attempt) : Prop :=
  Short (j.file ++ a.written) ∧
    (a.acknowledged = true → Recordable a.solve a.at' ∧ Terminated j.file)

/-- What a clean append keeps. -/
def Kept (j : Journal) : Prop :=
  (∀ s ∈ j.acked, ∃ at', Recordable s at' ∧ recordLine s at' ∈ completeLines j.file) ∧
    (j.acked ≠ [] → Short j.file)

theorem kept_append {j : Journal} {a : Attempt} (hj : j.Kept) (ha : j.Clean a) :
    (j.append a).Kept := by
  refine ⟨fun s hs => ?_, fun _ => ha.1⟩
  have hold : s ∈ j.acked → ∃ at', Recordable s at' ∧
      recordLine s at' ∈ completeLines (j.append a).file := by
    intro hs
    obtain ⟨at', hrec, hline⟩ := hj.1 s hs
    exact ⟨at', hrec, mem_completeLines_of_isPrefix (List.prefix_append _ _) hline⟩
  by_cases hack : a.acknowledged = true
  · simp only [append, hack, if_true, List.mem_append, List.mem_singleton] at hs
    obtain hs | rfl := hs
    · exact hold hs
    · obtain ⟨hrec, hterm⟩ := ha.2 hack
      refine ⟨a.at', hrec, ?_⟩
      have hnone : a.writeFails = none := by
        rw [Attempt.acknowledged, Bool.and_eq_true] at hack
        simpa using hack.1
      simp only [append, Attempt.written, hnone]
      exact mem_completeLines_of_terminated hterm (newline_notMem_recordLine _ _)
  · simp only [append, hack] at hs
    exact hold hs

theorem holds_of_kept {j : Journal} (h : j.Kept) : j.Holds := by
  intro s hs
  obtain ⟨at', hrec, hline⟩ := h.1 s hs
  exact mem_visited (h.2 (List.ne_nil_of_mem hs)) (mem_segments_of_complete hline)
    (SolveRecord.carriageReturn_notMem_marshal _) (parseLine_recordLine hrec)

/-- In a run of clean appends on an opened log, whatever else fails, every
acknowledged solve is visited by a replay at any later time. -/
theorem acknowledged_replayed (file : GoString) (as : List Attempt)
    (h : Runs.Each step Clean ⟨openJournal file, []⟩ as) :
    Runs.Always step Holds ⟨openJournal file, []⟩ as := by
  have hstep : ∀ j a j', Kept j → Clean j a → step j a = some j' → Kept j' := by
    intro j a j' hj ha heq
    cases heq
    exact kept_append hj ha
  refine Runs.always_of_invariant hstep (fun _ => holds_of_kept) ?_ h
  exact ⟨by simp, by simp⟩

def bobSolves : Attempt := ⟨⟨utf8 "bob", utf8 "c1"⟩, utf8 "2026-01-02T03:04:05Z", none, false⟩

/-- The disk is full after `n` bytes. -/
def aliceFails (n : Nat) : Attempt :=
  ⟨⟨utf8 "alice", utf8 "c1"⟩, utf8 "2026-01-02T03:04:05Z", some n, false⟩

theorem recordable_bobSolves : Recordable bobSolves.solve bobSolves.at' :=
  ⟨by decide, by decide, by decide, by decide, by decide⟩

/-- A failed append that wrote nothing, and an acknowledged one. -/
theorem acknowledged_replayed_bob :
    Runs.Always step Holds ⟨openJournal [], []⟩ [aliceFails 0, bobSolves] := by
  refine acknowledged_replayed [] _ (.cons ⟨by decide, nofun⟩ rfl ?_)
  exact ⟨⟨by decide, fun _ => ⟨recordable_bobSolves, .inl rfl⟩⟩, fun _ _ => trivial⟩

/-- The line of an acknowledged append is glued to what a failed one left, and no
replay visits it. -/
theorem not_replayed_after_torn_write :
    ¬ Runs.Always step Holds ⟨openJournal [], []⟩ [aliceFails 10, bobSolves] := by
  intro h
  have hall : Runs.Always step Holds ⟨openJournal [], []⟩ ([aliceFails 10, bobSolves] ++ []) := h
  have hend : Holds _ := hall.of_append rfl
  have hbob : bobSolves.solve ∈
      (replay ((append (append ⟨[], []⟩ (aliceFails 10)) bobSolves).file)).visited :=
    hend _ (List.mem_singleton_self _)
  exact absurd hbob (by decide)

end Journal

end TrainingPlatform.Scoring
