import TrainingPlatform.Scoring.Process

/-!
# What the solve log keeps

The invariant of processes over one log: the file is a log of recorded solves,
each on one line, with at most a piece of a line at its end, and the solves of a
serving process are those of the log and those in flight.  It holds in every
state of every run of calls whose records the log can hold, and gives both what
survives any number of crashes and how log and memory agree.
-/

namespace TrainingPlatform.Scoring

open Go

/-- The solves of the lines that parse. -/
def pairs (file : GoString) : List Solve := records parseLine file

/-- Every line is a recorded solve's line or a piece of one, and no solve has two
lines. -/
structure LogOf (recorded : List Solve) (file : GoString) : Prop where
  scraps : ∀ l ∈ segments file, l = [] ∨
    ∃ s at', Recordable s at' ∧ s ∈ recorded ∧ l <+: recordLine s at'
  nodup : (pairs file).Nodup

namespace LogOf

variable {recorded : List Solve} {file base : GoString} {s : Solve} {at' : GoString}

theorem nil : LogOf recorded [] where
  scraps l hl := .inl (by simpa [segments] using hl)
  nodup := by simp [pairs, records, segments, List.filterMap_cons, parseLine_nil]

theorem mono (h : LogOf recorded file) {more : List Solve} : LogOf (recorded ++ more) file where
  scraps l hl := by
    obtain rfl | ⟨s, at', hrec, hs, hpre⟩ := h.scraps l hl
    · exact .inl rfl
    · exact .inr ⟨s, at', hrec, List.mem_append_left _ hs, hpre⟩
  nodup := h.nodup

/-- A piece of a line parses to nothing, or is the line. -/
theorem piece (h : LogOf recorded file) {l p : GoString} (hl : l ∈ segments file)
    (hp : p <+: l) : parseLine p = none ∨ p = l := by
  obtain rfl | ⟨s, at', -, -, hpre⟩ := h.scraps l hl
  · exact .inr (List.prefix_nil.mp hp)
  · by_cases hne : p = recordLine s at'
    · subst hne
      exact .inr (hp.eq_of_length_le hpre.length_le)
    · exact .inl (parseLine_piece (hp.trans hpre) hne)

theorem pairs_prefix (h : LogOf recorded file) (hbase : base <+: file) :
    pairs base <+: pairs file :=
  records_prefix hbase fun _ hl _ => h.piece hl

/-- What a crash leaves of a log is a log. -/
theorem of_prefix (h : LogOf recorded file) (hbase : base <+: file) : LogOf recorded base where
  scraps l hl := by
    obtain ⟨ls, p, k, rest, hs, ht, hp⟩ := segments_prefix hbase
    rw [hs, List.mem_append, List.mem_singleton] at hl
    rcases hl with hl | rfl
    · exact h.scraps l (by rw [ht]; exact List.mem_append_left _ hl)
    · rcases h.scraps k (by simp [ht]) with rfl | ⟨s, at', hrec, hs, hpre⟩
      · exact .inl (List.prefix_nil.mp hp)
      · exact .inr ⟨s, at', hrec, hs, hp.trans hpre⟩
  nodup := h.nodup.sublist (h.pairs_prefix hbase).sublist

theorem mem_recorded (h : LogOf recorded file) (hs : s ∈ pairs file) : s ∈ recorded := by
  obtain ⟨l, hl, hparse⟩ := mem_records.mp hs
  rcases h.scraps l hl with rfl | ⟨r, at', hrec, hr, hpre⟩
  · simp [parseLine_nil] at hparse
  · by_cases hne : l = recordLine r at'
    · rw [hne, parseLine_recordLine hrec, Option.some.injEq] at hparse
      exact hparse ▸ hr
    · rw [parseLine_piece hpre hne] at hparse
      contradiction

theorem short (h : LogOf recorded file) : Short file := by
  intro l hl
  rcases h.scraps l hl with rfl | ⟨s, at', hrec, -, hpre⟩
  · exact Nat.two_pow_pos 20
  · exact Nat.lt_of_le_of_lt hpre.length_le hrec.short

theorem plain (h : LogOf recorded file) : Plain file := by
  intro l hl hcr
  rcases h.scraps l hl with rfl | ⟨s, at', -, -, hpre⟩
  · simp at hcr
  · exact SolveRecord.carriageReturn_notMem_marshal _ (hpre.subset hcr)

/-- The scanner sees every line of the log. -/
theorem visited (h : LogOf recorded file) : (replay file).visited = pairs file :=
  replay_visited h.short h.plain

theorem pairs_append_newline (file : GoString) : pairs (file ++ [newline]) = pairs file :=
  records_append_newline parseLine_nil file

theorem append_newline (h : LogOf recorded file) : LogOf recorded (file ++ [newline]) where
  scraps l hl := by
    rw [segments_append_newline, List.mem_append] at hl
    rcases hl with hl | hl
    · exact h.scraps l hl
    · exact .inl (by simpa [segments] using hl)
  nodup := by rw [pairs_append_newline]; exact h.nodup

theorem heal (h : LogOf recorded file) : LogOf recorded (openJournal file) := by
  rcases openJournal_cases file with ⟨-, heq⟩ | heq
  · rwa [heq]
  · rw [heq]
    exact h.append_newline

/-- A whole new line. -/
theorem pairs_append_line (hb : Terminated base) (hrec : Recordable s at') :
    pairs (base ++ recordLine s at') = pairs base ++ [s] := by
  rw [pairs, records_append_line parseLine_nil hb (newline_notMem_recordLine s at'),
    parseLine_recordLine hrec]
  rfl

/-- A log with a piece of a new line behind it. -/
theorem append (h : LogOf recorded base) (hb : Terminated base) (hrec : Recordable s at')
    (hs : s ∈ recorded) (hnew : s ∉ pairs base) {w : GoString}
    (hw : w <+: recordLine s at' ++ [newline]) :
    LogOf recorded (base ++ w) ∧ (pairs (base ++ w) = pairs base ∨
      pairs (base ++ w) = pairs base ++ [s]) := by
  have hline : LogOf recorded (base ++ recordLine s at') := by
    refine ⟨fun l hl => ?_, ?_⟩
    · by_cases hne : base = []
      · rw [hne, List.nil_append, segments_of_not_mem (newline_notMem_recordLine s at'),
          List.mem_singleton] at hl
        exact .inr ⟨s, at', hrec, hs, hl ▸ List.prefix_rfl⟩
      · obtain ⟨ls, hbase, happ⟩ := segments_append_terminated (t := recordLine s at') hb hne
        rw [happ, segments_of_not_mem (newline_notMem_recordLine s at'), List.mem_append,
          List.mem_singleton] at hl
        rcases hl with hl | rfl
        · exact h.scraps l (by rw [hbase]; exact List.mem_append_left _ hl)
        · exact .inr ⟨s, at', hrec, hs, List.prefix_rfl⟩
    · rw [pairs_append_line hb hrec, List.nodup_append]
      refine ⟨h.nodup, List.nodup_singleton s, ?_⟩
      intro a ha b hb hpair
      rw [List.mem_singleton] at hb
      exact hnew (hb ▸ hpair ▸ ha)
  have hall : LogOf recorded (base ++ (recordLine s at' ++ [newline])) := by
    rw [← List.append_assoc]
    exact hline.append_newline
  have hpre : base ++ w <+: base ++ (recordLine s at' ++ [newline]) :=
    (List.prefix_append_right_inj base).mpr hw
  refine ⟨hall.of_prefix hpre, ?_⟩
  by_cases hwl : w <+: recordLine s at'
  · by_cases heq : w = recordLine s at'
    · subst heq
      exact .inr (pairs_append_line hb hrec)
    · left
      have hnl : newline ∉ w := fun hmem => newline_notMem_recordLine s at' (hwl.subset hmem)
      rw [pairs, records_append_line parseLine_nil hb hnl, parseLine_piece hwl heq]
      exact List.append_nil _
  · obtain rfl : w = recordLine s at' ++ [newline] := by
      rcases List.prefix_concat_iff.mp hw with h | h
      · exact h
      · exact absurd h hwl
    right
    rw [← List.append_assoc, pairs_append_newline]
    exact pairs_append_line hb hrec

end LogOf

/-! ## The invariant -/

/-- The solve of a thread that is about to append fits the log. -/
def Thread.Fits : Thread → Prop
  | .append s at' => Recordable s at'
  | .writing s at' _ _ => Recordable s at'
  | _ => True

/-- A serving process over the settled part of its log. -/
structure Running (recorded : List Solve) (p : Process) (base : GoString) : Prop where
  log : LogOf recorded base
  solved : ∀ s, p.solved s ↔ s ∈ pairs base ∨ p.InFlight s
  fresh : ∀ s, p.InFlight s → s ∉ pairs base ∧ s ∈ recorded
  distinct : ∀ t t' s, (p.threads t).inFlight = some s → (p.threads t').inFlight = some s → t = t'
  fits : ∀ t, (p.threads t).Fits

namespace Running

variable {recorded : List Solve} {p : Process} {base : GoString} {t : Nat} {s : Solve}
  {at' : GoString}

theorem recordable_of_append (h : Running recorded p base)
    (ht : p.threads t = .append s at') : Recordable s at' := by
  have hfits := h.fits t
  rwa [ht] at hfits

theorem recordable_of_writing (h : Running recorded p base) {written rest : GoString}
    (ht : p.threads t = .writing s at' written rest) : Recordable s at' := by
  have hfits := h.fits t
  rwa [ht] at hfits

theorem fits_set (h : Running recorded p base) {th : Thread} (hth : th.Fits) :
    ∀ t', ((p.set t th).threads t').Fits := by
  intro t'
  rw [Process.threads_set]
  split
  · exact hth
  · exact h.fits t'

end Running

/-- The log in each phase of a lifetime. -/
def Phase.Sound (recorded : List Solve) (contents : GoString) : Phase → Prop
  | .serving p => ∃ base, Locked contents p base ∧ Running recorded p base
  | .healed => Terminated contents ∧ LogOf recorded contents
  | _ => LogOf recorded contents

namespace World

structure Inv (w : World) : Prop where
  sound : w.phase.Sound w.recorded w.contents
  acked : ∀ s ∈ w.acked, s ∈ pairs w.durable
  covered : ∀ s ∈ w.recorded, s ∈ w.acked ∨ s ∈ w.phase.InFlight ∨ ∃ T ∈ w.torn, s ∈ T

/-- The solve of a call that is about to be recorded fits the log. -/
def Fits (w : World) : Event → Prop
  | .act t (.record at') => ∀ p s, w.phase = .serving p → p.threads t = .graded s →
      Recordable s at'
  | _ => True

variable {w w' : World} {p : Process} {base : GoString} {t : Nat}

/-- The file of a serving process: the settled log and a piece of the line being
written. -/
theorem running_contents {recorded : List Solve} {contents : GoString}
    (hl : Locked contents p base) (hr : Running recorded p base) :
    LogOf recorded contents ∧
      (pairs contents = pairs base ∨ ∃ s, p.InFlight s ∧ pairs contents = pairs base ++ [s]) := by
  cases hlock : p.lock with
  | none =>
    have heq := (hl.free hlock).1
    exact ⟨heq ▸ hr.log, .inl (heq ▸ rfl)⟩
  | some holder =>
    obtain ⟨s, at', written, rest, hthread, heq, hline, -⟩ := hl.held holder hlock
    have hflight : p.InFlight s := ⟨holder, by rw [hthread]; rfl⟩
    have hrec : Recordable s at' := hr.recordable_of_writing hthread
    obtain ⟨hnew, hmem⟩ := hr.fresh s hflight
    obtain ⟨hlog, hpairs⟩ := hr.log.append hl.terminated hrec hmem hnew
      (hline ▸ List.prefix_append written rest)
    rw [heq]
    refine ⟨hlog, ?_⟩
    rcases hpairs with h | h
    · exact .inl h
    · exact .inr ⟨s, hflight, h⟩

theorem Inv.serving (h : w.Inv) (hp : w.phase = .serving p) :
    ∃ base, Locked w.contents p base ∧ Running w.recorded p base := by
  have hsound := h.sound
  rwa [hp] at hsound

theorem Inv.covered_serving (h : w.Inv) (hp : w.phase = .serving p) :
    ∀ s ∈ w.recorded, s ∈ w.acked ∨ s ∈ {s | p.InFlight s} ∨ ∃ T ∈ w.torn, s ∈ T := by
  have hcovered := h.covered
  rwa [hp] at hcovered

theorem Inv.log (h : w.Inv) : LogOf w.recorded w.contents := by
  have hsound := h.sound
  cases hphase : w.phase with
  | serving p =>
    rw [hphase] at hsound
    obtain ⟨base, hl, hr⟩ := hsound
    exact (running_contents hl hr).1
  | healed =>
    rw [hphase] at hsound
    exact hsound.2
  | down | opened =>
    rw [hphase] at hsound
    exact hsound

/-- In a serving process, memory is the log and what is in flight. -/
theorem Inv.solved_iff (h : w.Inv) (hp : w.phase = .serving p) (s : Solve) :
    p.solved s ↔ s ∈ pairs w.contents ∨ p.InFlight s := by
  obtain ⟨base, hl, hr⟩ := h.serving hp
  rw [hr.solved]
  rcases (running_contents hl hr).2 with heq | ⟨r, hflight, heq⟩
  · rw [heq]
  · rw [heq, List.mem_append, List.mem_singleton, or_assoc]
    constructor
    · intro hlogged
      rcases hlogged with h | h
      · exact .inl h
      · exact .inr (.inr h)
    · intro hwritten
      rcases hwritten with h | rfl | h
      · exact .inl h
      · exact .inr hflight
      · exact .inr h

/-! ## Every step keeps it -/

/-- A move of a thread between two states with the same solve in flight. -/
theorem running_advance {recorded : List Solve} {th : Thread} {l : Option Nat}
    (hr : Running recorded p base) (hsame : th.inFlight = (p.threads t).inFlight)
    (hfits : th.Fits) : Running recorded ({ p with lock := l }.set t th) base := by
  have hthreads : ∀ t', (({ p with lock := l }.set t th).threads t').inFlight =
      (p.threads t').inFlight := by
    intro t'
    rw [Process.threads_set]
    split
    · next ht => rw [hsame, ht]
    · rfl
  have hflight : ∀ s, ({ p with lock := l }.set t th).InFlight s ↔ p.InFlight s :=
    Process.inFlight_set_same (p := { p with lock := l }) hsame
  refine ⟨hr.log, fun s => ?_, fun s hs => hr.fresh s ((hflight s).mp hs), ?_, hr.fits_set hfits⟩
  · rw [hflight]
    exact hr.solved s
  · intro t₁ t₂ s h₁ h₂
    rw [hthreads] at h₁ h₂
    exact hr.distinct t₁ t₂ s h₁ h₂

theorem running_quiet {recorded : List Solve} {th : Thread} (hr : Running recorded p base)
    (hnow : (p.threads t).inFlight = none) (hthen : th.inFlight = none) :
    Running recorded (p.set t th) base := by
  have hfits : th.Fits := by
    cases th with
    | append s at' => cases hthen
    | writing s at' written rest => cases hthen
    | idle | graded s | done v => trivial
  exact running_advance hr (hthen.trans hnow.symm) hfits

/-- A thread takes a solve that no other thread has in flight. -/
theorem distinct_set {th : Thread}
    (h : ∀ t t' r, (p.threads t).inFlight = some r → (p.threads t').inFlight = some r → t = t')
    (hthen : ∀ r, th.inFlight = some r → ¬ p.InFlight r) :
    ∀ t₁ t₂ r, ((p.set t th).threads t₁).inFlight = some r →
      ((p.set t th).threads t₂).inFlight = some r → t₁ = t₂ := by
  intro t₁ t₂ r h₁ h₂
  rw [Process.threads_set] at h₁ h₂
  split at h₁
  · next ht₁ =>
    split at h₂
    · next ht₂ => rw [ht₁, ht₂]
    · exact absurd ⟨t₂, h₂⟩ (hthen r h₁)
  · split at h₂
    · exact absurd ⟨t₁, h₁⟩ (hthen r h₂)
    · exact h t₁ t₂ r h₁ h₂

/-- A new solve goes to memory and to the thread that recorded it. -/
theorem running_record {recorded : List Solve} {s : Solve} {at' : GoString}
    (hr : Running recorded p base) (hnow : p.threads t = .graded s) (hnew : ¬ p.solved s)
    (hrec : Recordable s at') :
    Running (recorded ++ [s]) ({ p with store := (p.store.recordSolve s.challenge s.user).2 }.set t
      (.append s at')) base := by
  have hfree : s ∉ pairs base ∧ ¬ p.InFlight s := by
    rw [hr.solved, not_or] at hnew
    exact hnew
  have hnone : (p.threads t).inFlight = none := by rw [hnow]; rfl
  have hflight : ∀ r, ({ p with store := (p.store.recordSolve s.challenge s.user).2 }.set t
      (.append s at')).InFlight r ↔ r = s ∨ p.InFlight r :=
    Process.inFlight_set_some (p := { p with
      store := (p.store.recordSolve s.challenge s.user).2 }) hnone rfl
  refine ⟨hr.log.mono, fun r => ?_, fun r hr' => ?_, ?_, hr.fits_set hrec⟩
  · rw [hflight]
    show (p.store.recordSolve s.challenge s.user).2.solved r.challenge r.user = true ↔ _
    have hold : p.store.solved r.challenge r.user = true ↔ r ∈ pairs base ∨ p.InFlight r :=
      hr.solved r
    rw [solved_record, hold, or_assoc, or_comm (a := p.InFlight r)]
  · rcases (hflight r).mp hr' with rfl | h
    · exact ⟨hfree.1, List.mem_append_right _ (List.mem_singleton_self _)⟩
    · exact ⟨(hr.fresh r h).1, List.mem_append_left _ (hr.fresh r h).2⟩
  · refine distinct_set hr.distinct fun r hthen => ?_
    rw [← Option.some.inj hthen]
    exact hfree.2

/-- The append of a thread is complete and its solve moves from memory to the log. -/
theorem running_sync {recorded : List Solve} {s : Solve} {at' : GoString}
    (hl : Terminated base) (hr : Running recorded p base)
    (hnow : (p.threads t).inFlight = some s) (hrec : Recordable s at') :
    Running recorded ({ p with lock := none }.set t (.done (.correct s)))
      (base ++ (recordLine s at' ++ [newline])) := by
  obtain ⟨hnew, hmem⟩ := hr.fresh s ⟨t, hnow⟩
  have hpairs : pairs (base ++ (recordLine s at' ++ [newline])) = pairs base ++ [s] := by
    rw [← List.append_assoc, LogOf.pairs_append_newline, LogOf.pairs_append_line hl hrec]
  have hflight : ∀ r, ({ p with lock := none }.set t (.done (.correct s))).InFlight r ↔
      r ≠ s ∧ p.InFlight r := by
    intro r
    rw [Process.inFlight_set]
    constructor
    · intro hmoved
      rcases hmoved with h | ⟨t', ht, h⟩
      · cases h
      · refine ⟨?_, t', h⟩
        intro hsame
        subst hsame
        exact ht (hr.distinct t' t _ h hnow)
    · intro hothers
      obtain ⟨hne, t', h⟩ := hothers
      refine .inr ⟨t', ?_, h⟩
      intro hsame
      subst hsame
      rw [hnow, Option.some.injEq] at h
      exact hne h.symm
  refine ⟨(hr.log.append hl hrec hmem hnew List.prefix_rfl).1, fun r => ?_, fun r hr' => ?_,
    distinct_set hr.distinct nofun, hr.fits_set trivial⟩
  · rw [hflight, hpairs, List.mem_append, List.mem_singleton]
    show p.solved r ↔ _
    rw [hr.solved]
    by_cases hrs : r = s
    · have hin : p.InFlight r := ⟨t, hrs ▸ hnow⟩
      tauto
    · tauto
  · obtain ⟨hne, hin⟩ := (hflight r).mp hr'
    rw [hpairs, List.mem_append, List.mem_singleton, not_or]
    exact ⟨⟨(hr.fresh r hin).1, hne⟩, (hr.fresh r hin).2⟩

/-- A recorded solve stays covered when what is in flight grows. -/
theorem covered_mono {recorded acked : List Solve} {F F' : Set Solve} {torn : List (Set Solve)}
    (h : ∀ s ∈ recorded, s ∈ acked ∨ s ∈ F ∨ ∃ T ∈ torn, s ∈ T) (hF : ∀ s ∈ F, s ∈ F') :
    ∀ s ∈ recorded, s ∈ acked ∨ s ∈ F' ∨ ∃ T ∈ torn, s ∈ T := by
  intro s hs
  rcases h s hs with hack | hflight | htorn
  · exact .inl hack
  · exact .inr (.inl (hF s hflight))
  · exact .inr (.inr htorn)

theorem inv_quiet {th : Thread} (h : w.Inv) (hp : w.phase = .serving p)
    (hnow : (p.threads t).inFlight = none) (hthen : th.inFlight = none) :
    Inv { w with phase := .serving (p.set t th) } := by
  obtain ⟨base, hl, hr⟩ := h.serving hp
  refine ⟨⟨base, ?_, running_quiet hr hnow hthen⟩, h.acked, covered_mono (h.covered_serving hp) ?_⟩
  · exact hl.set (not_writing_of_inFlight hnow) (not_writing_of_inFlight hthen) p.store
  · exact fun s => (Process.inFlight_set_same (hthen.trans hnow.symm) s).mpr

theorem inv_record {s : Solve} {at' : GoString} (h : w.Inv) (hp : w.phase = .serving p)
    (hnow : p.threads t = .graded s) (hnew : ¬ p.solved s) (hrec : Recordable s at') :
    Inv { w with
      phase := .serving ({ p with store := (p.store.recordSolve s.challenge s.user).2 }.set t
        (.append s at'))
      recorded := w.recorded ++ [s] } := by
  obtain ⟨base, hl, hr⟩ := h.serving hp
  have hnot : ¬ (p.threads t).Writing := by rw [hnow]; exact id
  have hnone : (p.threads t).inFlight = none := by rw [hnow]; rfl
  have hflight : ∀ r, ({ p with store := (p.store.recordSolve s.challenge s.user).2 }.set t
      (.append s at')).InFlight r ↔ r = s ∨ p.InFlight r :=
    Process.inFlight_set_some (p := { p with
      store := (p.store.recordSolve s.challenge s.user).2 }) hnone rfl
  refine ⟨⟨base, hl.set hnot id _, running_record hr hnow hnew hrec⟩, h.acked, fun r hmem => ?_⟩
  rcases List.mem_append.mp hmem with hold | hmem
  · exact covered_mono (h.covered_serving hp) (fun r hin => (hflight r).mpr (.inr hin)) r hold
  · exact .inr (.inl ((hflight r).mpr (.inl (List.mem_singleton.mp hmem))))

theorem inv_lock {s : Solve} {at' : GoString} (h : w.Inv) (hp : w.phase = .serving p)
    (hnow : p.threads t = .append s at') (hfree : p.lock = none) :
    Inv { w with
      phase := .serving ({ p with lock := some t }.set t
        (.writing s at' [] (recordLine s at' ++ [newline]))) } := by
  obtain ⟨base, hl, hr⟩ := h.serving hp
  have hfits : Recordable s at' := hr.recordable_of_append hnow
  have hsame : (Thread.writing s at' [] (recordLine s at' ++ [newline])).inFlight =
      (p.threads t).inFlight := by rw [hnow]; rfl
  refine ⟨⟨base, hl.lock hfree, running_advance hr hsame hfits⟩, h.acked,
    covered_mono (h.covered_serving hp) fun r => ?_⟩
  exact (Process.inFlight_set_same (p := { p with lock := some t }) hsame r).mpr

theorem inv_write {s : Solve} {at' written rest : GoString} {b : UInt8} (h : w.Inv)
    (hp : w.phase = .serving p) (hnow : p.threads t = .writing s at' written (b :: rest)) :
    Inv { w with
      pending := w.pending ++ [b]
      phase := .serving (p.set t (.writing s at' (written ++ [b]) rest)) } := by
  obtain ⟨base, hl, hr⟩ := h.serving hp
  have hfits : Recordable s at' := hr.recordable_of_writing hnow
  have hsame : (Thread.writing s at' (written ++ [b]) rest).inFlight =
      (p.threads t).inFlight := by rw [hnow]; rfl
  refine ⟨⟨base, ?_, running_advance (l := p.lock) hr hsame hfits⟩, h.acked,
    covered_mono (h.covered_serving hp) fun r => (Process.inFlight_set_same hsame r).mpr⟩
  have hlocked := hl.write hnow
  rwa [contents, List.append_assoc] at hlocked

theorem inv_sync {s : Solve} {at' written : GoString} (h : w.Inv) (hp : w.phase = .serving p)
    (hnow : p.threads t = .writing s at' written []) :
    Inv { w with
      durable := w.contents
      pending := []
      phase := .serving ({ p with lock := none }.set t (.done (.correct s)))
      acked := w.acked ++ [s] } := by
  obtain ⟨base, hl, hr⟩ := h.serving hp
  have hfits : Recordable s at' := hr.recordable_of_writing hnow
  have hflight : (p.threads t).inFlight = some s := by rw [hnow]; rfl
  obtain ⟨heq, hlocked⟩ := hl.sync hnow
  have hpairs : pairs w.contents = pairs base ++ [s] := by
    rw [heq, ← List.append_assoc, LogOf.pairs_append_newline,
      LogOf.pairs_append_line hl.terminated hfits]
  refine ⟨⟨w.contents, ?_, ?_⟩, fun r hmem => ?_, fun r hmem => ?_⟩
  · show Locked (w.contents ++ []) _ w.contents
    rwa [List.append_nil]
  · rw [heq]
    exact running_sync hl.terminated hr hflight hfits
  · show r ∈ pairs w.contents
    rcases List.mem_append.mp hmem with hmem | hmem
    · exact (h.log.pairs_prefix (List.prefix_append _ _)).subset (h.acked r hmem)
    · rw [hpairs]
      exact List.mem_append_right _ hmem
  · rcases h.covered_serving hp r hmem with hack | ⟨t', hin⟩ | htorn
    · exact .inl (List.mem_append_left _ hack)
    · by_cases hrs : r = s
      · exact .inl (List.mem_append_right _ (List.mem_singleton.mpr hrs))
      · refine .inr (.inl ?_)
        show Process.InFlight _ r
        rw [Process.inFlight_set]
        refine .inr ⟨t', ?_, hin⟩
        intro heq'
        subst heq'
        rw [hflight, Option.some.injEq] at hin
        exact hrs hin.symm
    · exact .inr (.inr htorn)

theorem inv_act {a : Act} (h : w.Inv) (hp : w.phase = .serving p) (hf : w.Fits (.act t a))
    (hm : Move w p t a w') : w'.Inv := by
  cases hm with
  | quiet hnow hthen hdone => exact inv_quiet h hp hnow hthen
  | record hnow hnew => exact inv_record h hp hnow hnew (hf p _ hp hnow)
  | lock hnow hfree => exact inv_lock h hp hnow hfree
  | write hnow => exact inv_write h hp hnow
  | sync hnow => exact inv_sync h hp hnow

theorem inv_heal (h : w.Inv) (hp : w.phase = .opened) :
    Inv { w with phase := .healed, pending := w.pending ++ terminateLastLine w.contents } := by
  have hsound := h.sound
  have hcovered := h.covered
  rw [hp] at hsound hcovered
  have heq : w.durable ++ (w.pending ++ terminateLastLine w.contents) = openJournal w.contents := by
    rw [← List.append_assoc]
    rfl
  refine ⟨?_, h.acked, hcovered⟩
  show Terminated (w.durable ++ _) ∧ LogOf w.recorded (w.durable ++ _)
  rw [heq]
  exact ⟨terminated_openJournal _, hsound.heal⟩

theorem inv_useJournal (h : w.Inv) (hp : w.phase = .healed) (seed : Seed) :
    Inv { w with phase := .serving ⟨useJournal seed.store w.contents, fun _ => .idle, none⟩ } := by
  have hsound := h.sound
  have hcovered := h.covered
  rw [hp] at hsound hcovered
  obtain ⟨hterm, hlog⟩ := hsound
  have hidle : ∀ s, ¬ (Process.mk (useJournal seed.store w.contents) (fun _ => .idle)
      none).InFlight s := by
    intro s hflight
    obtain ⟨t, ht⟩ := hflight
    cases ht
  refine ⟨⟨w.contents, Locked.start hterm, hlog, fun s => ?_, fun s hs => absurd hs (hidle s),
    nofun, fun t => trivial⟩, h.acked, covered_mono hcovered fun s hs => hs.elim⟩
  unfold Process.solved
  rw [solved_useJournal, hlog.visited]
  exact (or_iff_left (hidle s)).symm

/-- The crash remembers what it caught in flight. -/
theorem inv_crash {file : GoString} (h : w.Inv) (hdurable : w.durable <+: file)
    (hfile : file <+: w.contents) :
    Inv { w with
      phase := .down
      pending := file.drop w.durable.length
      torn := w.torn ++ [w.phase.InFlight] } := by
  refine ⟨?_, h.acked, fun s hmem => ?_⟩
  · have heq : w.durable ++ file.drop w.durable.length = file := by
      obtain ⟨rest, rfl⟩ := hdurable
      rw [List.drop_left]
    show LogOf w.recorded (w.durable ++ file.drop w.durable.length)
    rw [heq]
    exact h.log.of_prefix hfile
  · rcases h.covered s hmem with hack | hin | ⟨T, hT, hin⟩
    · exact .inl hack
    · exact .inr (.inr ⟨_, List.mem_append_right _ (List.mem_singleton_self _), hin⟩)
    · exact .inr (.inr ⟨T, List.mem_append_left _ hT, hin⟩)

/-- Every step keeps the invariant. -/
theorem inv_step (w : World) (e : Event) (w' : World) (h : w.Inv) (hf : w.Fits e)
    (hs : w.step e = some w') : w'.Inv := by
  cases next_of_step hs with
  | openJournal hp =>
    have hsound := h.sound
    have hcovered := h.covered
    rw [hp] at hsound hcovered
    exact ⟨hsound, h.acked, hcovered⟩
  | heal hp => exact inv_heal h hp
  | useJournal hp => exact inv_useJournal h hp _
  | act hp hm => exact inv_act h hp hf hm
  | crash hdurable hfile => exact inv_crash h hdurable hfile

theorem inv_off : (off []).Inv := ⟨LogOf.nil, by simp [off], by simp [off]⟩

/-! ## What survives -/

/-- Log and memory agree: no solve has two lines that parse, and the solves of a
serving process are those of the log and those in flight. -/
def Agrees (w : World) : Prop :=
  (replay w.contents).visited.Nodup ∧ ∀ p, w.phase = .serving p → ∀ s,
    p.solved s ↔ s ∈ (replay w.contents).visited ∨ p.InFlight s

/-- Whatever the interleaving of the calls and wherever lifetimes end, log and memory
agree in every state. -/
theorem log_agrees (es : List Event) (h : Runs.Each step Fits (off []) es) :
    Runs.Always step Agrees (off []) es := by
  refine Runs.always_of_invariant inv_step (fun w hw => ?_) inv_off h
  unfold Agrees
  rw [hw.log.visited]
  exact ⟨hw.log.nodup, fun p hp => hw.solved_iff hp⟩

/-! ### One call at a time -/

/-- A step of a run with one call at a time, whose record fits the log. -/
def FitsAlone (w : World) (e : Event) : Prop :=
  w.Fits e ∧ ∀ t a, e = .act t a → t = 0

/-- Only thread 0 is ever busy, so a crash catches at most one call. -/
structure Alone (w : World) : Prop where
  inv : w.Inv
  idle : ∀ p, w.phase = .serving p → ∀ t ≠ 0, p.threads t = .idle
  torn : ∀ T ∈ w.torn, T.Subsingleton

theorem inFlight_subsingleton (h : ∀ t ≠ 0, p.threads t = .idle) :
    {s | p.InFlight s}.Subsingleton := by
  have hzero : ∀ s, p.InFlight s → (p.threads 0).inFlight = some s := by
    intro s hflight
    obtain ⟨t, ht⟩ := hflight
    by_cases h0 : t = 0
    · exact h0 ▸ ht
    · rw [h t h0] at ht
      cases ht
  intro s hs r hr
  have heq : some s = some r := (hzero s hs).symm.trans (hzero r hr)
  exact Option.some.inj heq

theorem move_others {a : Act} (hm : Move w p t a w') :
    w'.torn = w.torn ∧ ∃ p', w'.phase = .serving p' ∧ ∀ t' ≠ t, p'.threads t' = p.threads t' := by
  cases hm <;> exact ⟨rfl, _, rfl, fun t' ht => Process.threads_set_ne _ ht _⟩

theorem alone_step (w : World) (e : Event) (w' : World) (h : w.Alone) (hf : w.FitsAlone e)
    (hs : w.step e = some w') : w'.Alone := by
  have hinv := inv_step w e w' h.inv hf.1 hs
  cases next_of_step hs with
  | openJournal hp => exact ⟨hinv, nofun, h.torn⟩
  | heal hp => exact ⟨hinv, nofun, h.torn⟩
  | useJournal hp =>
    refine ⟨hinv, ?_, h.torn⟩
    intro p hserving t _
    cases hserving
    rfl
  | @act p t a _ hp hm =>
    have h0 : t = 0 := hf.2 t a rfl
    obtain ⟨htorn, p', hp', hothers⟩ := move_others hm
    refine ⟨hinv, fun q hq t' ht' => ?_, htorn ▸ h.torn⟩
    rw [hp', Phase.serving.injEq] at hq
    rw [← hq, hothers t' (h0 ▸ ht')]
    exact h.idle p hp t' ht'
  | crash hdurable hfile =>
    refine ⟨hinv, nofun, fun T hT => ?_⟩
    rcases List.mem_append.mp hT with hT | hT
    · exact h.torn T hT
    · rw [List.mem_singleton] at hT
      rw [hT]
      cases hp : w.phase with
      | serving p => exact inFlight_subsingleton (h.idle p hp)
      | down | opened | healed => exact Set.subsingleton_empty

/-- What a serving process has: every acknowledged solve, only recorded ones, and all
recorded ones but those in flight at a crash, of which each crash has at most one. -/
def Survives (w : World) : Prop :=
  (∀ T ∈ w.torn, T.Subsingleton) ∧ ∀ p, w.phase = .serving p →
    (∀ s ∈ w.acked, p.solved s) ∧ (∀ s, p.solved s → s ∈ w.recorded) ∧
      ∀ s ∈ w.recorded, p.solved s ∨ ∃ T ∈ w.torn, s ∈ T

theorem survives_of_alone (h : w.Alone) : w.Survives := by
  refine ⟨h.torn, fun p hp => ?_⟩
  have hsolved := h.inv.solved_iff hp
  have hacked : ∀ s ∈ w.acked, p.solved s := by
    intro s hs
    have hpairs := h.inv.log.pairs_prefix (List.prefix_append w.durable w.pending)
    exact (hsolved s).mpr (.inl (hpairs.subset (h.inv.acked s hs)))
  refine ⟨hacked, fun s hs => ?_, fun s hs => ?_⟩
  · rcases (hsolved s).mp hs with hs | hs
    · exact h.inv.log.mem_recorded hs
    · obtain ⟨base, -, hr⟩ := h.inv.serving hp
      exact (hr.fresh s hs).2
  · rcases h.inv.covered_serving hp s hs with hs | hs | hs
    · exact .inl (hacked s hs)
    · exact .inl ((hsolved s).mpr (.inr hs))
    · exact .inr hs

/-- Over any sequence of lifetimes on one log, each ended at any point, no
acknowledged solve is lost, none appears, and each crash costs at most the call in
flight. -/
theorem solves_survive (es : List Event) (h : Runs.Each step FitsAlone (off []) es) :
    Runs.Always step Survives (off []) es :=
  Runs.always_of_invariant alone_step (fun _ => survives_of_alone)
    ⟨inv_off, nofun, by simp [off]⟩ h

/-! ### A run that is torn and healed -/

theorem recordable_alice : Recordable aliceSolve noon :=
  ⟨by decide, by decide, by decide, by decide, by decide⟩

theorem recordable_bob : Recordable ⟨utf8 "bob", utf8 "c1"⟩ noon :=
  ⟨by decide, by decide, by decide, by decide, by decide⟩

/-- The steps of an append from the mutex to the return of the sync. -/
def appendOf (t : Nat) (s : Solve) (at' : GoString) : List Event :=
  .act t .lock :: (List.replicate (recordLine s at' ++ [newline]).length (.act t .write) ++
    [.act t .sync])

theorem mem_appendOf {s : Solve} {at' : GoString} {e : Event} (h : e ∈ appendOf t s at') :
    e = .act t .lock ∨ e = .act t .write ∨ e = .act t .sync := by
  rw [appendOf, List.mem_cons, List.mem_append, List.mem_replicate, List.mem_singleton] at h
  rcases h with rfl | ⟨-, rfl⟩ | rfl
  · exact .inl rfl
  · exact .inr (.inl rfl)
  · exact .inr (.inr rfl)

/-- The writes of a call, with nothing in between. -/
theorem run_writes {s : Solve} {at' written rest : GoString} (hp : w.phase = .serving p)
    (hnow : p.threads t = .writing s at' written rest) :
    Runs.run step w (List.replicate rest.length (.act t .write)) = some { w with
      pending := w.pending ++ rest
      phase := .serving (p.set t (.writing s at' (written ++ rest) [])) } := by
  induction rest generalizing w p written with
  | nil =>
    have hsame : p.set t (.writing s at' (written ++ []) []) = p := by
      rw [List.append_nil, Process.set, ← hnow, Function.update_eq_self]
    rw [hsame, List.append_nil, ← hp]
    rfl
  | cons b rest ih =>
    have hstep : step w (.act t .write) = some { w with
        pending := w.pending ++ [b]
        phase := .serving (p.set t (.writing s at' (written ++ [b]) rest)) } := by
      simp only [step, hp, act, hnow]
    rw [List.length_cons, List.replicate_succ, Runs.run_cons, hstep, Option.bind_some,
      ih rfl (Process.threads_set_self p t _)]
    simp [Process.set, Function.update_idem]

/-- An append that nothing interrupts is synced and acknowledged. -/
theorem run_appendOf {s : Solve} {at' : GoString} (hp : w.phase = .serving p)
    (hnow : p.threads t = .append s at') (hfree : p.lock = none) :
    Runs.run step w (appendOf t s at') = some { w with
      durable := w.contents ++ (recordLine s at' ++ [newline])
      pending := []
      phase := .serving (p.set t (.done (.correct s)))
      acked := w.acked ++ [s] } := by
  have hlock : step w (.act t .lock) = some { w with
      phase := .serving ({ p with lock := some t }.set t
        (.writing s at' [] (recordLine s at' ++ [newline]))) } := by
    simp only [step, hp, act, hnow, hfree]
  rw [appendOf, Runs.run_cons, hlock, Option.bind_some, Runs.run_append,
    run_writes rfl (Process.threads_set_self _ t _), Option.bind_some, Runs.run_cons]
  simp [step, act, contents, Process.set, Function.update_idem, ← hfree]

/-- A first lifetime in which the append of one solve is acknowledged and that of the next
crashes after one byte, and a second one. -/
def tornRun : List Event :=
  [.openJournal, .heal, .useJournal seed, .act 0 submit, .act 0 (.record noon)] ++
    (appendOf 0 aliceSolve noon ++
      [.act 0 .ret, .act 0 (.call (.grade (utf8 "c1") (utf8 "0f") (utf8 "bob"))),
        .act 0 (.record noon), .act 0 .lock, .act 0 .write,
        .crash (recordLine aliceSolve noon ++ [newline] ++ utf8 "\x7b"), .openJournal, .heal,
        .useJournal seed])

theorem fitsAlone_tornRun : Runs.Each step FitsAlone (off []) tornRun := by
  have quiet {w : World} {a : Act} (h : w.Fits (.act 0 a)) : w.FitsAlone (.act 0 a) :=
    ⟨h, fun _ _ heq => (Event.act.inj heq).1.symm⟩
  have happend : ∀ e ∈ appendOf 0 aliceSolve noon, ∀ w, FitsAlone w e := by
    intro e he w
    rcases mem_appendOf he with rfl | rfl | rfl <;> exact quiet trivial
  refine .append (.cons ⟨trivial, nofun⟩ rfl (.cons ⟨trivial, nofun⟩ rfl (.cons ⟨trivial, nofun⟩ rfl
    (.cons (quiet trivial) rfl (.cons (quiet ?_) rfl trivial))))) rfl
    (.append (Runs.each_of_forall happend) (run_appendOf rfl rfl rfl) ?_)
  · intro p s hp hs
    cases hp
    cases hs
    exact recordable_alice
  refine .cons (quiet trivial) rfl (.cons (quiet trivial) rfl (.cons (quiet ?_) rfl
    (.cons (quiet trivial) rfl (.cons (quiet trivial) rfl (.cons ⟨trivial, nofun⟩ rfl
    (.cons ⟨trivial, nofun⟩ rfl (.cons ⟨trivial, nofun⟩ rfl
    ⟨⟨trivial, nofun⟩, fun _ _ => trivial⟩)))))))
  intro p s hp hs
  cases hp
  cases hs
  exact recordable_bob

/-- The run comes to its end, with one solve acknowledged and the torn line closed. -/
theorem run_tornRun : ∃ w p, Runs.run step (off []) tornRun = some w ∧ w.phase = .serving p ∧
    w.acked = [aliceSolve] ∧
      w.contents = recordLine aliceSolve noon ++ [newline] ++ utf8 "\x7b" ++ [newline] :=
  ⟨_, _, Runs.run_append_some.mpr ⟨_, rfl,
    Runs.run_append_some.mpr ⟨_, run_appendOf rfl rfl rfl, rfl⟩⟩, rfl, rfl, rfl⟩

/-- The solve acknowledged before the crash is in the healed log, and in memory. -/
theorem log_agrees_tornRun : Runs.Always step Agrees (off []) tornRun ∧
    ∃ w p, Runs.run step (off []) tornRun = some w ∧ w.phase = .serving p ∧
      aliceSolve ∈ w.acked ∧ aliceSolve ∈ (replay w.contents).visited ∧ p.solved aliceSolve := by
  have hagrees := log_agrees tornRun (fitsAlone_tornRun.imp fun _ _ h => h.1)
  obtain ⟨w, p, hrun, hp, hacked, hcontents⟩ := run_tornRun
  have hvisited : aliceSolve ∈ (replay w.contents).visited := by
    rw [hcontents]
    decide +kernel
  exact ⟨hagrees, w, p, hrun, hp, hacked ▸ List.mem_singleton_self _, hvisited,
    ((hagrees.last hrun).2 p hp _).mpr (.inl hvisited)⟩

/-- The solve acknowledged before the crash survives it. -/
theorem solves_survive_tornRun : Runs.Always step Survives (off []) tornRun ∧
    ∃ w p, Runs.run step (off []) tornRun = some w ∧ w.phase = .serving p ∧
      aliceSolve ∈ w.acked ∧ p.solved aliceSolve := by
  have hsurvives := solves_survive tornRun fitsAlone_tornRun
  obtain ⟨w, p, hrun, hp, hacked, -⟩ := run_tornRun
  have hmem : aliceSolve ∈ w.acked := hacked ▸ List.mem_singleton_self _
  exact ⟨hsurvives, w, p, hrun, hp, hmem, ((hsurvives.last hrun).2 p hp).1 _ hmem⟩

end World

end TrainingPlatform.Scoring
