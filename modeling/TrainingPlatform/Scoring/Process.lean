import TrainingPlatform.Runs
import TrainingPlatform.Scoring.Journal
import TrainingPlatform.Scoring.Load
import Mathlib.Data.Set.Insert

/-!
# Processes over one solve log

The store and its journal as they run: any number of calls of `Grade` and
`RecordSolve`, each taken apart into its lock-protected steps, over the file of
the solve log, whose content is what is on disk and what only the operating
system holds.  A crash ends the process at any point and leaves any content
between the two.  The solves recorded and acknowledged so far, and those in
flight at each crash, are kept beside the state to state what survives.
-/

namespace TrainingPlatform.Scoring

open Go

/-- A call of the store's API. -/
inductive Invocation where
  | grade (challengeHash submitted userID : GoString)
  | recordSolve (challengeHash userID : GoString)

/-- What a call tells its caller. -/
inductive Verdict where
  | unknown
  | incorrect
  | correct (s : Solve)

/-- A call between two of its steps.  `graded` is about to enter `recordSolve`;
`append` has recorded a new solve, marshalled its line and waits for the journal
mutex; `writing` holds it. -/
inductive Thread where
  | idle
  | graded (s : Solve)
  | append (s : Solve) (at' : GoString)
  | writing (s : Solve) (at' written rest : GoString)
  | done (v : Verdict)

/-- The solve a thread has recorded and whose append has not returned. -/
def Thread.inFlight : Thread → Option Solve
  | .append s _ => some s
  | .writing s _ _ _ => some s
  | _ => none

/-- A serving process; `lock` is the holder of the journal mutex. -/
structure Process where
  store : Store
  threads : Nat → Thread
  lock : Option Nat

namespace Process

def set (p : Process) (t : Nat) (th : Thread) : Process :=
  { p with threads := Function.update p.threads t th }

def InFlight (p : Process) (s : Solve) : Prop := ∃ t, (p.threads t).inFlight = some s

def solved (p : Process) (s : Solve) : Prop := p.store.solved s.challenge s.user = true

end Process

/-- How far a lifetime has come. -/
inductive Phase where
  | down
  | opened
  | healed
  | serving (p : Process)

def Phase.InFlight : Phase → Set Solve
  | .serving p => {s | p.InFlight s}
  | _ => ∅

structure World where
  durable : GoString
  pending : GoString
  phase : Phase
  recorded : List Solve
  acked : List Solve
  torn : List (Set Solve)

namespace World

/-- What a reader of the file sees. -/
def contents (w : World) : GoString := w.durable ++ w.pending

/-- A machine that is off, with `file` on its disk. -/
def off (file : GoString) : World := ⟨file, [], .down, [], [], []⟩

end World

/-- The first part of a call: the look-up, and the flags for `Grade`. -/
def Invocation.begin (store : Store) : Invocation → Thread
  | .grade challengeHash submitted userID =>
    match store.get challengeHash with
    | none => .done .unknown
    | some c =>
      if Store.gradeFlags store.phashGrade submitted c.flags then .graded ⟨userID, challengeHash⟩
      else .done .incorrect
  | .recordSolve challengeHash userID => .graded ⟨userID, challengeHash⟩

/-- The store a process builds before it replays the log. -/
structure Seed where
  phashGrade : PhashGrader
  challenges : List Challenge

def Seed.store (seed : Seed) : Store :=
  seed.challenges.foldl Store.put (Store.newStore seed.phashGrade)

/-- `UseJournal`: replaying does not append. -/
def useJournal (store : Store) (file : GoString) : Store :=
  (replay file).visited.foldl (fun st s => (st.recordSolve s.challenge s.user).2) store

/-- A step of one call. -/
inductive Act where
  | call (inv : Invocation)
  | record (at' : GoString)
  | lock
  | write
  | sync
  | ret

inductive Event where
  | openJournal
  | heal
  | useJournal (seed : Seed)
  | act (t : Nat) (a : Act)
  | crash (file : GoString)

def World.act (w : World) (p : Process) (t : Nat) : Act → Option World
  | .call inv =>
    match p.threads t with
    | .idle => some { w with phase := .serving (p.set t (inv.begin p.store)) }
    | _ => none
  | .record at' =>
    match p.threads t with
    | .graded s =>
      let r := p.store.recordSolve s.challenge s.user
      if r.1 then
        some { w with
          phase := .serving ({ p with store := r.2 }.set t (.append s at'))
          recorded := w.recorded ++ [s] }
      else some { w with phase := .serving (p.set t (.done (.correct s))) }
    | _ => none
  | .lock =>
    match p.threads t, p.lock with
    | .append s at', none =>
      some { w with
        phase := .serving ({ p with lock := some t }.set t
          (.writing s at' [] (recordLine s at' ++ [newline]))) }
    | _, _ => none
  | .write =>
    match p.threads t with
    | .writing s at' written (b :: rest) =>
      some { w with
        pending := w.pending ++ [b]
        phase := .serving (p.set t (.writing s at' (written ++ [b]) rest)) }
    | _ => none
  | .sync =>
    match p.threads t with
    | .writing s _ _ [] =>
      some { w with
        durable := w.contents
        pending := []
        phase := .serving ({ p with lock := none }.set t (.done (.correct s)))
        acked := w.acked ++ [s] }
    | _ => none
  | .ret =>
    match p.threads t with
    | .done _ => some { w with phase := .serving (p.set t .idle) }
    | _ => none

def World.step (w : World) : Event → Option World
  | .openJournal =>
    match w.phase with
    | .down => some { w with phase := .opened }
    | _ => none
  | .heal =>
    match w.phase with
    | .opened =>
      some { w with
        phase := .healed
        pending := w.pending ++ terminateLastLine w.contents }
    | _ => none
  | .useJournal seed =>
    match w.phase with
    | .healed =>
      let store := Scoring.useJournal seed.store w.contents
      some { w with phase := .serving ⟨store, fun _ => .idle, none⟩ }
    | _ => none
  | .act t a =>
    match w.phase with
    | .serving p => w.act p t a
    | _ => none
  | .crash file =>
    match w.phase with
    | .down => none
    | _ =>
      if w.durable <+: file ∧ file <+: w.contents then
        some { w with
          phase := .down
          pending := file.drop w.durable.length
          torn := w.torn ++ [w.phase.InFlight] }
      else none

/-! ## Small facts -/

namespace Process

theorem threads_set (p : Process) (t : Nat) (th : Thread) (t' : Nat) :
    (p.set t th).threads t' = if t' = t then th else p.threads t' :=
  Function.update_apply p.threads t th t'

@[simp] theorem threads_set_self (p : Process) (t : Nat) (th : Thread) :
    (p.set t th).threads t = th := by
  rw [threads_set, if_pos rfl]

theorem threads_set_ne (p : Process) {t t' : Nat} (h : t' ≠ t) (th : Thread) :
    (p.set t th).threads t' = p.threads t' := by
  rw [threads_set, if_neg h]

@[simp] theorem lock_set (p : Process) (t : Nat) (th : Thread) : (p.set t th).lock = p.lock := rfl

/-- Only the thread that moves can change what is in flight. -/
theorem inFlight_set {p : Process} {t : Nat} {th : Thread} {s : Solve} :
    (p.set t th).InFlight s ↔
      th.inFlight = some s ∨ ∃ t' ≠ t, (p.threads t').inFlight = some s := by
  constructor
  · intro hflight
    obtain ⟨t', h⟩ := hflight
    rw [threads_set] at h
    split at h
    · exact .inl h
    · next ht => exact .inr ⟨t', ht, h⟩
  · intro hflight
    rcases hflight with h | ⟨t', ht, h⟩
    · exact ⟨t, by rwa [threads_set_self]⟩
    · exact ⟨t', by rwa [threads_set_ne p ht]⟩

/-- A move that keeps the mover's own solve keeps what is in flight. -/
theorem inFlight_set_same {p : Process} {t : Nat} {th : Thread}
    (h : th.inFlight = (p.threads t).inFlight) (s : Solve) :
    (p.set t th).InFlight s ↔ p.InFlight s := by
  rw [inFlight_set, h]
  constructor
  · intro hflight
    rcases hflight with h | ⟨t', -, h⟩
    · exact ⟨t, h⟩
    · exact ⟨t', h⟩
  · intro hflight
    obtain ⟨t', h⟩ := hflight
    by_cases ht : t' = t
    · exact .inl (ht ▸ h)
    · exact .inr ⟨t', ht, h⟩

/-- A thread that had nothing in flight adds its solve. -/
theorem inFlight_set_some {p : Process} {t : Nat} {th : Thread} {s : Solve}
    (hnow : (p.threads t).inFlight = none) (hthen : th.inFlight = some s) (r : Solve) :
    (p.set t th).InFlight r ↔ r = s ∨ p.InFlight r := by
  rw [inFlight_set, hthen, Option.some.injEq]
  constructor
  · intro hflight
    rcases hflight with rfl | ⟨t', -, h⟩
    · exact .inl rfl
    · exact .inr ⟨t', h⟩
  · intro hflight
    rcases hflight with rfl | ⟨t', h⟩
    · exact .inl rfl
    · refine .inr ⟨t', ?_, h⟩
      intro hsame
      subst hsame
      rw [hnow] at h
      contradiction

end Process

theorem inFlight_begin (store : Store) (inv : Invocation) : (inv.begin store).inFlight = none := by
  cases inv with
  | grade h submitted u =>
    simp only [Invocation.begin]
    cases store.get h with
    | none => rfl
    | some c => dsimp only; split <;> rfl
  | recordSolve h u => rfl

theorem solved_seed (seed : Seed) (h u : GoString) : seed.store.solved h u = false := by
  rw [Seed.store, Store.solved_foldl_put]
  exact Store.solved_newStore seed.phashGrade h u

/-- Recording a solve adds that solve and no other. -/
theorem solved_record (st : Store) (s r : Solve) :
    (st.recordSolve s.challenge s.user).2.solved r.challenge r.user = true ↔
      st.solved r.challenge r.user = true ∨ r = s := by
  have hsolve : r.challenge = s.challenge ∧ r.user = s.user ↔ r = s := by
    cases r
    cases s
    simp [and_comm]
  rw [Store.solved_recordSolve, hsolve]

/-- A replay adds the solves it visits. -/
theorem solved_useJournal_iff (store : Store) (file : GoString) (s : Solve) :
    (useJournal store file).solved s.challenge s.user = true ↔
      store.solved s.challenge s.user = true ∨ s ∈ (replay file).visited := by
  rw [useJournal]
  generalize (replay file).visited = visited
  induction visited generalizing store with
  | nil => simp
  | cons v visited ih => rw [List.foldl_cons, ih, solved_record, List.mem_cons, or_assoc]

/-- A process starts with the solves the replay visits. -/
theorem solved_useJournal (seed : Seed) (file : GoString) (s : Solve) :
    (useJournal seed.store file).solved s.challenge s.user = true ↔ s ∈ (replay file).visited := by
  rw [solved_useJournal_iff, solved_seed]
  simp

def Thread.Writing : Thread → Prop
  | .writing _ _ _ _ => True
  | _ => False

/-! ## What a step of a call can do -/

/-- The moves of thread `t`: one that touches neither the store nor the file, the
recording of a new solve, and the three steps of its append. -/
inductive Move (w : World) (p : Process) (t : Nat) : Act → World → Prop where
  | quiet {a : Act} {th : Thread} (hnow : (p.threads t).inFlight = none)
      (hthen : th.inFlight = none) (hdone : ∀ s, th = .done (.correct s) → p.solved s) :
      Move w p t a { w with phase := .serving (p.set t th) }
  | record {s : Solve} {at' : GoString} (hnow : p.threads t = .graded s) (hnew : ¬ p.solved s) :
      Move w p t (.record at') { w with
        phase := .serving ({ p with store := (p.store.recordSolve s.challenge s.user).2 }.set t
          (.append s at'))
        recorded := w.recorded ++ [s] }
  | lock {s : Solve} {at' : GoString} (hnow : p.threads t = .append s at')
      (hfree : p.lock = none) :
      Move w p t .lock { w with
        phase := .serving ({ p with lock := some t }.set t
          (.writing s at' [] (recordLine s at' ++ [newline]))) }
  | write {s : Solve} {at' written rest : GoString} {b : UInt8}
      (hnow : p.threads t = .writing s at' written (b :: rest)) :
      Move w p t .write { w with
        pending := w.pending ++ [b]
        phase := .serving (p.set t (.writing s at' (written ++ [b]) rest)) }
  | sync {s : Solve} {at' written : GoString} (hnow : p.threads t = .writing s at' written []) :
      Move w p t .sync { w with
        durable := w.contents
        pending := []
        phase := .serving ({ p with lock := none }.set t (.done (.correct s)))
        acked := w.acked ++ [s] }

theorem begin_correct {store : Store} {inv : Invocation} {s : Solve}
    (h : inv.begin store = .done (.correct s)) : False := by
  cases inv with
  | grade challengeHash submitted userID =>
    simp only [Invocation.begin] at h
    cases hc : store.get challengeHash with
    | none => simp [hc] at h
    | some c =>
      simp only [hc] at h
      split at h <;> cases h
  | recordSolve challengeHash userID => cases h

theorem move_of_act {w w' : World} {p : Process} {t : Nat} {a : Act}
    (h : w.act p t a = some w') : Move w p t a w' := by
  cases a with
  | call inv =>
    simp only [World.act] at h
    split at h
    · next hth =>
      cases h
      exact .quiet (hth ▸ rfl) (inFlight_begin _ _) fun s hs => (begin_correct hs).elim
    · cases h
  | record at' =>
    simp only [World.act] at h
    split at h
    · next s hth =>
      rw [Store.recordSolve_fst] at h
      by_cases hs : p.solved s
      · have hs' : p.store.solved s.challenge s.user = true := hs
        simp only [hs', Bool.not_true, Bool.false_eq_true, if_false] at h
        cases h
        refine .quiet (hth ▸ rfl) rfl ?_
        intro _ heq
        cases heq
        exact hs
      · have hs' : p.store.solved s.challenge s.user = false := by
          simpa [Process.solved] using hs
        simp only [hs', Bool.not_false, if_true] at h
        cases h
        exact .record hth hs
    · cases h
  | lock =>
    simp only [World.act] at h
    split at h
    · next hth hl =>
      cases h
      exact .lock hth hl
    · cases h
  | write =>
    simp only [World.act] at h
    split at h
    · next hth =>
      cases h
      exact .write hth
    · cases h
  | sync =>
    simp only [World.act] at h
    split at h
    · next hth =>
      cases h
      exact .sync hth
    · cases h
  | ret =>
    simp only [World.act] at h
    split at h
    · next hth =>
      cases h
      exact .quiet (hth ▸ rfl) rfl (by simp)
    · cases h

/-- The steps of a lifetime, the moves of its calls, and its end. -/
inductive Next (w : World) : Event → World → Prop where
  | openJournal (hp : w.phase = .down) : Next w .openJournal { w with phase := .opened }
  | heal (hp : w.phase = .opened) :
      Next w .heal { w with
        phase := .healed
        pending := w.pending ++ terminateLastLine w.contents }
  | useJournal {seed : Seed} (hp : w.phase = .healed) :
      Next w (.useJournal seed) { w with
        phase := .serving ⟨Scoring.useJournal seed.store w.contents, fun _ => .idle, none⟩ }
  | act {p : Process} {t : Nat} {a : Act} {w' : World} (hp : w.phase = .serving p)
      (hm : Move w p t a w') : Next w (.act t a) w'
  | crash {file : GoString} (hdurable : w.durable <+: file) (hfile : file <+: w.contents) :
      Next w (.crash file) { w with
        phase := .down
        pending := file.drop w.durable.length
        torn := w.torn ++ [w.phase.InFlight] }

theorem next_of_step {w w' : World} {e : Event} (h : w.step e = some w') : Next w e w' := by
  cases e with
  | openJournal =>
    simp only [World.step] at h
    split at h
    · next hp =>
      cases h
      exact .openJournal hp
    · cases h
  | heal =>
    simp only [World.step] at h
    split at h
    · next hp =>
      cases h
      exact .heal hp
    · cases h
  | useJournal seed =>
    simp only [World.step] at h
    split at h
    · next hp =>
      cases h
      exact .useJournal hp
    · cases h
  | act t a =>
    simp only [World.step] at h
    split at h
    · next p hp => exact .act hp (move_of_act h)
    · cases h
  | crash file =>
    simp only [World.step] at h
    split at h
    · cases h
    · split at h
      · next hfile =>
        cases h
        exact .crash hfile.1 hfile.2
      · cases h

theorem not_writing_of_inFlight {th : Thread} (h : th.inFlight = none) : ¬ th.Writing := by
  cases th <;> simp_all [Thread.inFlight, Thread.Writing]

/-! ## The journal mutex -/

/-- The file is `base`, which ends in a newline, and what the holder of the mutex has
written of its line. -/
structure Locked (contents : GoString) (p : Process) (base : GoString) : Prop where
  terminated : Terminated base
  free : p.lock = none → contents = base ∧ ∀ t, ¬ (p.threads t).Writing
  held : ∀ h, p.lock = some h → ∃ s at' written rest,
    p.threads h = .writing s at' written rest ∧ contents = base ++ written ∧
      written ++ rest = recordLine s at' ++ [newline] ∧ ∀ t ≠ h, ¬ (p.threads t).Writing

namespace Locked

variable {contents base : GoString} {p : Process} {t : Nat}

/-- Only the holder writes. -/
theorem lock_eq (h : Locked contents p base) (ht : (p.threads t).Writing) :
    p.lock = some t := by
  cases hlock : p.lock with
  | none => exact absurd ht ((h.free hlock).2 t)
  | some holder =>
    obtain ⟨-, -, -, -, -, -, -, hothers⟩ := h.held holder hlock
    by_contra hne
    exact hothers t (fun heq => hne (heq ▸ rfl)) ht

/-- A move of a thread that is not writing to a state in which it is not writing. -/
theorem set (h : Locked contents p base) (ht : ¬ (p.threads t).Writing) {th : Thread}
    (hth : ¬ th.Writing) (st : Store) :
    Locked contents ({ p with store := st }.set t th) base := by
  have hnot : ∀ t', ¬ (p.threads t').Writing →
      ¬ (({ p with store := st }.set t th).threads t').Writing := by
    intro t' hw
    rw [Process.threads_set]
    split
    · exact hth
    · exact hw
  refine ⟨h.terminated, fun hl => ?_, fun holder hl => ?_⟩
  · obtain ⟨heq, hno⟩ := h.free hl
    exact ⟨heq, fun t' => hnot t' (hno t')⟩
  · obtain ⟨s, at', written, rest, hholder, heq, hline, hno⟩ := h.held holder hl
    have hne : holder ≠ t := by
      intro heq'
      subst heq'
      exact ht (hholder ▸ trivial)
    refine ⟨s, at', written, rest, ?_, heq, hline, fun t' ht' => hnot t' (hno t' ht')⟩
    rw [Process.threads_set_ne _ hne]
    exact hholder

theorem lock {s : Solve} {at' : GoString} (h : Locked contents p base)
    (hfree : p.lock = none) :
    Locked contents ({ p with lock := some t }.set t
      (.writing s at' [] (recordLine s at' ++ [newline]))) base := by
  obtain ⟨heq, hno⟩ := h.free hfree
  refine ⟨h.terminated, nofun, ?_⟩
  intro _ heq'
  cases heq'
  refine ⟨s, at', [], _, Process.threads_set_self _ _ _, by simpa using heq, rfl, ?_⟩
  intro t' ht'
  rw [Process.threads_set_ne _ ht']
  exact hno t'

theorem write {s : Solve} {at' written rest : GoString} {b : UInt8}
    (h : Locked contents p base) (ht : p.threads t = .writing s at' written (b :: rest)) :
    Locked (contents ++ [b]) (p.set t (.writing s at' (written ++ [b]) rest)) base := by
  have hlock : p.lock = some t := h.lock_eq (ht ▸ trivial)
  obtain ⟨s', at'', written', rest', hthread, heq, hline, hno⟩ := h.held t hlock
  rw [ht, Thread.writing.injEq] at hthread
  obtain ⟨rfl, rfl, rfl, rfl⟩ := hthread
  refine ⟨h.terminated, fun hl => ?_, fun holder hl => ?_⟩
  · rw [Process.lock_set, hlock] at hl
    contradiction
  · rw [Process.lock_set, hlock, Option.some.injEq] at hl
    subst hl
    refine ⟨s, at', written ++ [b], rest, Process.threads_set_self _ _ _, ?_, ?_, ?_⟩
    · rw [heq, List.append_assoc]
    · rw [List.append_assoc, List.singleton_append]
      exact hline
    · intro t' ht'
      rw [Process.threads_set_ne _ ht']
      exact hno t' ht'

theorem sync {s : Solve} {at' written : GoString} (h : Locked contents p base)
    (ht : p.threads t = .writing s at' written []) :
    contents = base ++ (recordLine s at' ++ [newline]) ∧
      Locked contents ({ p with lock := none }.set t (.done (.correct s))) contents := by
  have hlock : p.lock = some t := h.lock_eq (ht ▸ trivial)
  obtain ⟨s', at'', written', rest', hthread, heq, hline, hno⟩ := h.held t hlock
  rw [ht, Thread.writing.injEq] at hthread
  obtain ⟨rfl, rfl, rfl, rfl⟩ := hthread
  rw [List.append_nil] at hline
  rw [hline] at heq
  refine ⟨heq, ⟨.inr ⟨base ++ recordLine s at', by rw [heq, List.append_assoc]⟩, ?_, nofun⟩⟩
  refine fun _ => ⟨rfl, fun t' => ?_⟩
  rw [Process.threads_set]
  split
  · exact id
  · next htt => exact hno t' htt

/-- A process that has just started. -/
theorem start {st : Store} (h : Terminated contents) :
    Locked contents ⟨st, fun _ => .idle, none⟩ contents :=
  ⟨h, fun _ => ⟨rfl, fun _ => id⟩, nofun⟩

end Locked

/-! ## A small class -/

namespace World

def seed : Seed := ⟨none, [⟨utf8 "c1", utf8 "docker-ps", 10, [utf8 "0f"], none⟩]⟩

def aliceSolve : Solve := ⟨utf8 "alice", utf8 "c1"⟩

def submit : Act := .call (.grade (utf8 "c1") (utf8 "0f") (utf8 "alice"))

def noon : GoString := utf8 "2026-01-02T12:00:00Z"

end World

end TrainingPlatform.Scoring
