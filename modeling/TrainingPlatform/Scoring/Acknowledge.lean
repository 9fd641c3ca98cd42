import TrainingPlatform.Scoring.Durability

/-!
# When an acknowledgement is durable

A call returns "correct" either after its own append has been synced or because it
found the solve recorded already.  In the second case the append of the call that
recorded it may still be under way, or the solve was replayed from bytes that an
earlier lifetime had not synced.  Where neither occurs, and the log holds only lines
that a replay takes, every acknowledged solve is replayed whatever a crash leaves of
the log.
-/

namespace TrainingPlatform.Scoring

open Go

/-! ## Replays of what a crash leaves -/

theorem exists_line_of_visited {file : GoString} {s : Solve} (h : s ∈ (replay file).visited) :
    ∃ l ∈ segments file, parseLine (dropCR l) = some s := by
  obtain ⟨token, htoken, hparse⟩ := List.mem_filterMap.mp h
  obtain ⟨l, hl, rfl⟩ := List.mem_map.mp (List.mem_of_mem_filter htoken)
  exact ⟨l, (List.takeWhile_subset _) hl, hparse⟩

/-- A replay of short lines visits what its lines parse to. -/
theorem mem_visited_iff {file : GoString} (hshort : Short file) {s : Solve} :
    s ∈ (replay file).visited ↔ ∃ l ∈ segments file, parseLine (dropCR l) = some s := by
  refine ⟨exists_line_of_visited, fun h => ?_⟩
  obtain ⟨l, hl, hparse⟩ := h
  have hne : dropCR l ≠ [] := by
    intro hnil
    rw [hnil, parseLine_nil] at hparse
    cases hparse
  rw [replay, scanTokens_of_short hshort]
  exact List.mem_filterMap.mpr
    ⟨dropCR l, List.mem_filter.mpr ⟨List.mem_map_of_mem hl, decide_eq_true hne⟩, hparse⟩

/-- A line of a log is still there once the log has been healed and grown. -/
theorem mem_segments_of_healed {d file l : GoString} (h : openJournal d <+: file)
    (hl : l ∈ segments d) (hne : l ≠ []) : l ∈ segments file := by
  have hcomplete : l ∈ completeLines (openJournal d) := by
    rcases openJournal_cases d with ⟨hterm, heq⟩ | heq
    · rw [heq]
      exact mem_completeLines_of_mem_segments hterm hl hne
    · rwa [heq, completeLines_append_newline]
  exact mem_segments_of_complete (mem_completeLines_of_isPrefix h hcomplete)

/-- A log, or what has been written behind it since it was healed. -/
def GrownFrom (d file : GoString) : Prop := file = d ∨ openJournal d <+: file

/-- What is visited in a log stays visited as the log grows. -/
theorem GrownFrom.visited {d file : GoString} {s : Solve} (h : GrownFrom d file)
    (hshort : Short file) (hs : s ∈ (replay d).visited) : s ∈ (replay file).visited := by
  rcases h with rfl | h
  · exact hs
  · obtain ⟨l, hl, hparse⟩ := exists_line_of_visited hs
    have hne : l ≠ [] := by
      rintro rfl
      cases hparse
    exact (mem_visited_iff hshort).mpr ⟨l, mem_segments_of_healed h hl hne, hparse⟩

/-- What a crash leaves of a log that has grown is one. -/
theorem GrownFrom.of_crash {d file full : GoString} (h : GrownFrom d full) (hd : d <+: file)
    (hfile : file <+: full) : GrownFrom d file := by
  rcases h with rfl | h
  · exact .inl (hfile.eq_of_length_le hd.length_le)
  rcases List.prefix_or_prefix_of_prefix h hfile with hhealed | hcut
  · exact .inr hhealed
  rcases openJournal_cases d with ⟨-, heq⟩ | heq
  · rw [heq] at hcut
    exact .inl (hcut.eq_of_length_le hd.length_le)
  · rcases List.prefix_concat_iff.mp (heq ▸ hcut) with hclosed | hopen
    · exact .inr (by rw [hclosed, heq])
    · exact .inl (hopen.eq_of_length_le hd.length_le)

theorem GrownFrom.heal {d file : GoString} (h : GrownFrom d file) :
    openJournal d <+: openJournal file := by
  rcases h with rfl | h
  · exact List.prefix_rfl
  · exact h.trans (List.prefix_append _ _)

theorem openJournal_of_terminated {file : GoString} (h : Terminated file) :
    openJournal file = file := by
  obtain rfl | ⟨u, rfl⟩ := h
  · rfl
  · simp [openJournal, terminateLastLine]

theorem Short.of_prefix {file full : GoString} (h : Short full) (hfile : file <+: full) :
    Short file := by
  obtain ⟨ls, p, l, rest, hs, ht, hp⟩ := segments_prefix hfile
  intro k hk
  rw [hs, List.mem_append, List.mem_singleton] at hk
  rcases hk with hk | rfl
  · exact h k (by rw [ht]; exact List.mem_append_left _ hk)
  · exact Nat.lt_of_le_of_lt hp.length_le (h l (by simp [ht]))

theorem Short.append_newline {file : GoString} (h : Short file) : Short (file ++ [newline]) := by
  intro l hl
  rw [segments_append_newline, List.mem_append] at hl
  rcases hl with hl | hl
  · exact h l hl
  · rw [segments, List.mem_singleton] at hl
    rw [hl]
    exact Nat.two_pow_pos 20

theorem Short.heal {file : GoString} (h : Short file) : Short (openJournal file) := by
  rcases openJournal_cases file with ⟨-, heq⟩ | heq
  · rwa [heq]
  · rw [heq]
    exact h.append_newline

/-- A line that a replay takes keeps a log short. -/
theorem Short.append_line {base : GoString} {s : Solve} {at' : GoString} (h : Short base)
    (hbase : Terminated base) (hrec : Recordable s at') :
    Short (base ++ (recordLine s at' ++ [newline])) := by
  rw [← List.append_assoc]
  refine Short.append_newline fun l hl => ?_
  by_cases hnil : base = []
  · rw [hnil, List.nil_append, segments_of_not_mem (newline_notMem_recordLine s at'),
      List.mem_singleton] at hl
    exact hl ▸ hrec.short
  · obtain ⟨ls, hlines, happ⟩ := segments_append_terminated (t := recordLine s at') hbase hnil
    rw [happ, segments_of_not_mem (newline_notMem_recordLine s at'), List.mem_append,
      List.mem_singleton] at hl
    rcases hl with hl | rfl
    · exact h l (by rw [hlines]; exact List.mem_append_left _ hl)
    · exact hrec.short

/-- Healing a log changes nothing that is visited. -/
theorem visited_openJournal {file : GoString} (h : Short file) {s : Solve} :
    s ∈ (replay (openJournal file)).visited ↔ s ∈ (replay file).visited := by
  refine ⟨fun hs => ?_, GrownFrom.visited (.inr List.prefix_rfl) h.heal⟩
  rcases openJournal_cases file with ⟨-, heq⟩ | heq
  · rwa [heq] at hs
  · obtain ⟨l, hl, hparse⟩ := exists_line_of_visited hs
    rw [heq, segments_append_newline, List.mem_append] at hl
    refine (mem_visited_iff h).mpr ⟨l, hl.resolve_right fun htail => ?_, hparse⟩
    rw [segments, List.mem_singleton] at htail
    rw [htail] at hparse
    cases hparse

/-- The solve a thread has recorded, or found recorded. -/
def Thread.recorded : Thread → Option Solve
  | .append s _ => some s
  | .writing s _ _ _ => some s
  | .done (.correct s) => some s
  | _ => none

namespace World

variable {w w' : World} {p : Process} {t : Nat} {base : GoString}

/-- Over the settled part of its log: a solve in memory is replayed from what is synced or is
in flight, and the solve a call has recorded or found is in memory. -/
structure Backed (durable contents : GoString) (p : Process) (base : GoString) : Prop where
  short : Short base
  grown : openJournal durable <+: contents
  solved : ∀ s, p.solved s → s ∈ (replay durable).visited ∨ p.InFlight s
  held : ∀ t s, (p.threads t).recorded = some s → p.solved s
  fits : ∀ t, (p.threads t).Fits

/-- Between lifetimes a replay of the log visits only what one of its synced part visits. -/
structure Rested (durable contents : GoString) : Prop where
  short : Short contents
  grown : GrownFrom durable contents
  synced : ∀ s ∈ (replay contents).visited, s ∈ (replay durable).visited

def Phase.Backed (w : World) : Phase → Prop
  | .serving p => ∃ base, Locked w.contents p base ∧ World.Backed w.durable w.contents p base
  | .healed => Rested w.durable w.contents ∧ Terminated w.contents ∧
      openJournal w.durable <+: w.contents
  | _ => Rested w.durable w.contents

/-- What is in memory and in the log comes from what is on disk. -/
def OnDisk (w : World) : Prop := Phase.Backed w w.phase

/-- A record that is new is one a replay takes, a call that returns "correct" does so while no
append of its solve is under way, and a crash leaves no line that a replay visits and that
was not synced. -/
def Settled (w : World) : Event → Prop
  | .act t (.record at') => ∀ p s, w.phase = .serving p → p.threads t = .graded s →
      ¬ p.solved s → Recordable s at'
  | .act t .ret => ∀ p s, w.phase = .serving p → p.threads t = .done (.correct s) →
      ¬ p.InFlight s
  | .crash file => ∀ s ∈ (replay file).visited, s ∈ (replay w.durable).visited
  | _ => True

/-- The solve of a call that returns "correct" is replayed from every file that a crash can
leave at that moment, that of the synced bytes included. -/
def AcksDurably (w : World) : Event → Prop
  | .act t .ret => ∀ p s, w.phase = .serving p → p.threads t = .done (.correct s) →
      ∀ file, w.durable <+: file → file <+: w.contents → s ∈ (replay file).visited
  | _ => True

theorem recorded_set {th : Thread} {t' : Nat} {s : Solve}
    (h : ((p.set t th).threads t').recorded = some s) :
    th.recorded = some s ∨ (p.threads t').recorded = some s := by
  by_cases ht : t' = t
  · subst ht
    rw [Process.threads_set_self] at h
    exact .inl h
  · rw [Process.threads_set_ne p ht] at h
    exact .inr h

theorem fits_set {th : Thread} (h : ∀ t, (p.threads t).Fits) (hth : th.Fits) (t' : Nat) :
    ((p.set t th).threads t').Fits := by
  rw [Process.threads_set]
  split
  · exact hth
  · exact h t'

theorem correct_of_recorded {th : Thread} {s : Solve} (hflight : th.inFlight = none)
    (h : th.recorded = some s) : th = .done (.correct s) := by
  cases th with
  | done v => cases v <;> simp_all [Thread.recorded]
  | idle | graded r => cases h
  | append r at' | writing r at' written rest => cases hflight

theorem fits_of_inFlight {th : Thread} (h : th.inFlight = none) : th.Fits := by
  cases th with
  | append s at' | writing s at' written rest => cases h
  | idle | graded s | done v => trivial

theorem OnDisk.serving (h : w.OnDisk) (hp : w.phase = .serving p) :
    ∃ base, Locked w.contents p base ∧ Backed w.durable w.contents p base := by
  unfold OnDisk at h
  rwa [hp] at h

theorem Backed.fits_of {durable contents : GoString} {th : Thread}
    (h : Backed durable contents p base) (hnow : p.threads t = th) : th.Fits := hnow ▸ h.fits t

theorem Backed.held_of {durable contents : GoString} {th : Thread} {s : Solve}
    (h : Backed durable contents p base) (hnow : p.threads t = th) (hs : th.recorded = some s) :
    p.solved s := h.held t s (by rw [hnow, hs])

/-- The file of a serving process has short lines only, also while one is being written. -/
theorem Backed.short_contents {durable contents : GoString} (h : Backed durable contents p base)
    (hl : Locked contents p base) : Short contents := by
  cases hlock : p.lock with
  | none =>
    rw [(hl.free hlock).1]
    exact h.short
  | some holder =>
    obtain ⟨s, at', written, rest, hthread, heq, hline, -⟩ := hl.held holder hlock
    have hfits := h.fits_of hthread
    have hall : Short (base ++ (written ++ rest)) :=
      hline ▸ h.short.append_line hl.terminated hfits
    rw [heq]
    exact hall.of_prefix ((List.prefix_append_right_inj base).mpr (List.prefix_append _ _))

/-- Whatever a lifetime has come to, its log is short and has grown from the synced part. -/
theorem OnDisk.log (h : w.OnDisk) : Short w.contents ∧ GrownFrom w.durable w.contents := by
  unfold OnDisk at h
  cases hp : w.phase with
  | serving p =>
    rw [hp] at h
    obtain ⟨base, hl, hb⟩ := h
    exact ⟨hb.short_contents hl, .inr hb.grown⟩
  | healed =>
    rw [hp] at h
    exact ⟨h.1.short, h.1.grown⟩
  | down | opened =>
    rw [hp] at h
    exact ⟨h.short, h.grown⟩

/-! ## Every step keeps it -/

/-- A move of a thread between two states with the same solve in flight. -/
theorem Backed.advance {durable contents : GoString} {th : Thread}
    (h : Backed durable contents p base) (hsame : th.inFlight = (p.threads t).inFlight)
    (hfits : th.Fits) (hheld : ∀ s, th.recorded = some s → p.solved s) (l : Option Nat) :
    Backed durable contents ({ p with lock := l }.set t th) base := by
  refine ⟨h.short, h.grown, fun s hs => ?_, fun t' s ht' => ?_,
    fits_set (p := { p with lock := l }) h.fits hfits⟩
  · rcases h.solved s hs with hline | hin
    · exact .inl hline
    · exact .inr ((Process.inFlight_set_same (p := { p with lock := l }) hsame s).mpr hin)
  · rcases recorded_set (p := { p with lock := l }) ht' with heq | heq
    · exact hheld s heq
    · exact h.held t' s heq

theorem onDisk_quiet {th : Thread} (h : w.OnDisk) (hp : w.phase = .serving p)
    (hnow : (p.threads t).inFlight = none) (hthen : th.inFlight = none)
    (hdone : ∀ s, th = .done (.correct s) → p.solved s) :
    OnDisk { w with phase := .serving (p.set t th) } := by
  obtain ⟨base, hl, hb⟩ := h.serving hp
  refine ⟨base, ?_, hb.advance (hthen.trans hnow.symm) (fits_of_inFlight hthen)
    (fun s hs => hdone s (correct_of_recorded hthen hs)) p.lock⟩
  exact hl.set (not_writing_of_inFlight hnow) (not_writing_of_inFlight hthen) p.store

theorem onDisk_record {s : Solve} {at' : GoString} (h : w.OnDisk) (hp : w.phase = .serving p)
    (hnow : p.threads t = .graded s) (hrec : Recordable s at') :
    OnDisk { w with
      phase := .serving ({ p with store := (p.store.recordSolve s.challenge s.user).2 }.set t
        (.append s at'))
      recorded := w.recorded ++ [s] } := by
  obtain ⟨base, hl, hb⟩ := h.serving hp
  have hnot : ¬ (p.threads t).Writing := by rw [hnow]; exact id
  have hnone : (p.threads t).inFlight = none := by rw [hnow]; rfl
  have hsolved : ∀ r, ({ p with store := (p.store.recordSolve s.challenge s.user).2 }.set t
      (.append s at')).solved r ↔ p.solved r ∨ r = s := solved_record p.store s
  have hflight : ∀ r, ({ p with store := (p.store.recordSolve s.challenge s.user).2 }.set t
      (.append s at')).InFlight r ↔ r = s ∨ p.InFlight r :=
    Process.inFlight_set_some (p := { p with
      store := (p.store.recordSolve s.challenge s.user).2 }) hnone rfl
  refine ⟨base, hl.set hnot id _, hb.short, hb.grown, fun r hr => ?_, fun t' r ht' => ?_,
    fits_set (p := { p with store := _ }) hb.fits hrec⟩
  · rw [hflight]
    rcases (hsolved r).mp hr with hr | hr
    · exact (hb.solved r hr).imp_right .inr
    · exact .inr (.inl hr)
  · rw [hsolved]
    rcases recorded_set ht' with heq | heq
    · exact .inr (Option.some.inj heq).symm
    · exact .inl (hb.held t' r heq)

theorem onDisk_lock {s : Solve} {at' : GoString} (h : w.OnDisk) (hp : w.phase = .serving p)
    (hnow : p.threads t = .append s at') (hfree : p.lock = none) :
    OnDisk { w with
      phase := .serving ({ p with lock := some t }.set t
        (.writing s at' [] (recordLine s at' ++ [newline]))) } := by
  obtain ⟨base, hl, hb⟩ := h.serving hp
  have hfits : Recordable s at' := hb.fits_of hnow
  have hsame : (Thread.writing s at' [] (recordLine s at' ++ [newline])).inFlight =
      (p.threads t).inFlight := by rw [hnow]; rfl
  exact ⟨base, hl.lock hfree,
    hb.advance hsame hfits (fun _ hr => hb.held_of hnow hr) (some t)⟩

theorem onDisk_write {s : Solve} {at' written rest : GoString} {b : UInt8} (h : w.OnDisk)
    (hp : w.phase = .serving p) (hnow : p.threads t = .writing s at' written (b :: rest)) :
    OnDisk { w with
      pending := w.pending ++ [b]
      phase := .serving (p.set t (.writing s at' (written ++ [b]) rest)) } := by
  obtain ⟨base, hl, hb⟩ := h.serving hp
  have hfits : Recordable s at' := hb.fits_of hnow
  have hsame : (Thread.writing s at' (written ++ [b]) rest).inFlight =
      (p.threads t).inFlight := by rw [hnow]; rfl
  have hcontents : w.durable ++ (w.pending ++ [b]) = w.contents ++ [b] :=
    (List.append_assoc _ _ _).symm
  obtain ⟨hshort, hgrown, hsolved, hheld, hall⟩ :=
    hb.advance hsame hfits (fun _ hr => hb.held_of hnow hr) p.lock
  refine ⟨base, ?_, hshort, ?_, hsolved, hheld, hall⟩
  · rw [contents, hcontents]
    exact hl.write hnow
  · rw [contents, hcontents]
    exact hgrown.trans (List.prefix_append _ _)

/-- What a call has written and synced is replayed. -/
theorem onDisk_sync {s : Solve} {at' written : GoString} (h : w.OnDisk)
    (hp : w.phase = .serving p) (hnow : p.threads t = .writing s at' written []) :
    OnDisk { w with
      durable := w.contents
      pending := []
      phase := .serving ({ p with lock := none }.set t (.done (.correct s)))
      acked := w.acked ++ [s] } := by
  obtain ⟨base, hl, hb⟩ := h.serving hp
  obtain ⟨heq, hlocked⟩ := hl.sync hnow
  have hfits : Recordable s at' := hb.fits_of hnow
  have hshort : Short w.contents := heq ▸ hb.short.append_line hl.terminated hfits
  have hvisited : s ∈ (replay w.contents).visited := by
    refine mem_visited hshort ?_ (SolveRecord.carriageReturn_notMem_marshal _)
      (parseLine_recordLine hfits)
    rw [heq]
    exact mem_segments_of_complete
      (mem_completeLines_of_terminated hl.terminated (newline_notMem_recordLine s at'))
  refine ⟨w.contents, ?_, hshort, ?_, fun r hr => ?_, fun t' r ht' => ?_,
    fits_set (p := { p with lock := none }) hb.fits trivial⟩
  · show Locked (w.contents ++ []) _ w.contents
    rwa [List.append_nil]
  · show openJournal w.contents <+: w.contents ++ []
    rw [List.append_nil, openJournal_of_terminated hlocked.terminated]
  · show r ∈ (replay w.contents).visited ∨ _
    rw [Process.inFlight_set]
    rcases hb.solved r hr with hold | ⟨t', hin⟩
    · exact .inl (GrownFrom.visited (.inr hb.grown) hshort hold)
    · by_cases ht : t' = t
      · rw [ht, hnow] at hin
        cases hin
        exact .inl hvisited
      · exact .inr (.inr ⟨t', ht, hin⟩)
  · rcases recorded_set ht' with hrec | hrec
    · exact hb.held_of hnow hrec
    · exact hb.held t' r hrec

theorem onDisk_heal (h : w.OnDisk) (hp : w.phase = .opened) :
    OnDisk { w with phase := .healed, pending := w.pending ++ terminateLastLine w.contents } := by
  unfold OnDisk at h
  rw [hp] at h
  obtain ⟨hshort, hgrown, hsynced⟩ : Rested w.durable w.contents := h
  have hhealed : w.durable ++ (w.pending ++ terminateLastLine w.contents) =
      openJournal w.contents := (List.append_assoc _ _ _).symm
  show Rested w.durable (w.durable ++ _) ∧ Terminated (w.durable ++ _) ∧ _ <+: w.durable ++ _
  rw [hhealed]
  exact ⟨⟨hshort.heal, .inr hgrown.heal,
    fun s hs => hsynced s ((visited_openJournal hshort).mp hs)⟩, terminated_openJournal _,
    hgrown.heal⟩

/-- A process starts with what its log replays, all of it synced. -/
theorem onDisk_useJournal (h : w.OnDisk) (hp : w.phase = .healed) (seed : Seed) :
    OnDisk { w with
      phase := .serving ⟨useJournal seed.store w.contents, fun _ => .idle, none⟩ } := by
  unfold OnDisk at h
  rw [hp] at h
  obtain ⟨hrested, hterm, hgrown⟩ := h
  refine ⟨w.contents, Locked.start hterm, hrested.short, hgrown, fun s hsolved => .inl ?_, nofun,
    fun _ => trivial⟩
  unfold Process.solved at hsolved
  rw [solved_useJournal] at hsolved
  exact hrested.synced s hsolved

theorem onDisk_crash {file : GoString} (h : w.OnDisk) (hdurable : w.durable <+: file)
    (hfile : file <+: w.contents)
    (hsynced : ∀ s ∈ (replay file).visited, s ∈ (replay w.durable).visited) :
    OnDisk { w with
      phase := .down
      pending := file.drop w.durable.length
      torn := w.torn ++ [w.phase.InFlight] } := by
  obtain ⟨hshort, hgrown⟩ := h.log
  have hleft : w.durable ++ file.drop w.durable.length = file := by
    obtain ⟨rest, rfl⟩ := hdurable
    rw [List.drop_left]
  show Rested w.durable (w.durable ++ _)
  rw [hleft]
  exact ⟨hshort.of_prefix hfile, hgrown.of_crash hdurable hfile, hsynced⟩

theorem onDisk_step (w : World) (e : Event) (w' : World) (h : w.OnDisk) (hc : w.Settled e)
    (hs : w.step e = some w') : w'.OnDisk := by
  cases next_of_step hs with
  | openJournal hp =>
    unfold OnDisk at h
    rw [hp] at h
    exact h
  | heal hp => exact onDisk_heal h hp
  | useJournal hp => exact onDisk_useJournal h hp _
  | act hp hm =>
    cases hm with
    | quiet hnow hthen hdone => exact onDisk_quiet h hp hnow hthen hdone
    | record hnow hnew => exact onDisk_record h hp hnow (hc _ _ hp hnow hnew)
    | lock hnow hfree => exact onDisk_lock h hp hnow hfree
    | write hnow => exact onDisk_write h hp hnow
    | sync hnow => exact onDisk_sync h hp hnow
  | crash hdurable hfile => exact onDisk_crash h hdurable hfile hc

theorem acksDurably_of_onDisk (w : World) (e : Event) (h : w.OnDisk) (hc : w.Settled e) :
    w.AcksDurably e := by
  cases e with
  | act t a =>
    cases a with
    | ret =>
      intro p s hp hdone file hd hfile
      obtain ⟨hshort, hgrown⟩ := h.log
      obtain ⟨base, -, hb⟩ := h.serving hp
      have hsolved : p.solved s := hb.held_of hdone rfl
      rcases hb.solved s hsolved with hvisited | hflight
      · exact (hgrown.of_crash hd hfile).visited (hshort.of_prefix hfile) hvisited
      · exact absurd hflight (hc p s hp hdone)
    | call | record | lock | write | sync => trivial
  | openJournal | heal | useJournal | crash => trivial

/-- From any log of short lines on disk, in any interleaving of calls over any number of
lifetimes, every acknowledged solve is replayed whatever a crash leaves of the log at that
moment, provided that new records are such that a replay takes them, that no call which found
its solve recorded returns before the append of that solve has, and that no earlier crash
left a line that was written and not synced. -/
theorem acknowledged_durable (file : GoString) (es : List Event) (hshort : Short file)
    (h : Runs.Each step Settled (off file) es) : Runs.Each step AcksDurably (off file) es := by
  have hstart : (off file).OnDisk := by
    show Rested file (file ++ [])
    rw [List.append_nil]
    exact ⟨hshort, .inl rfl, fun _ hs => hs⟩
  exact Runs.each_of_invariant onDisk_step acksDurably_of_onDisk hstart h

/-! ### Two submissions of one answer -/

/-- The second submission finds the solve of the first recorded and returns while
the first still waits for the journal mutex. -/
def racingRun : List Event :=
  [.openJournal, .heal, .useJournal seed, .act 0 submit, .act 0 (.record noon),
    .act 1 submit, .act 1 (.record noon), .act 1 .ret]

theorem not_acksDurably_racingRun : ¬ Runs.Each step AcksDurably (off []) racingRun := by
  intro h
  have hlast : Runs.Each step AcksDurably (off []) (racingRun.take 7 ++ [.act 1 .ret]) := h
  obtain ⟨hacks, -⟩ := hlast.of_append rfl
  have hvisited := hacks _ aliceSolve rfl rfl [] List.prefix_rfl List.prefix_rfl
  exact absurd hvisited (by decide)

theorem not_inFlight_of_idle {s : Solve} (hidle : ∀ t ≠ 0, p.threads t = .idle)
    (hnow : (p.threads 0).inFlight = none) : ¬ p.InFlight s := by
  rintro ⟨t, ht⟩
  by_cases h0 : t = 0
  · rw [h0, hnow] at ht
    cases ht
  · rw [hidle t h0] at ht
    cases ht

theorem settled_tornRun : Runs.Each step Settled (off []) tornRun := by
  have happend : ∀ e ∈ appendOf 0 aliceSolve noon, ∀ w, Settled w e := by
    intro e he w
    rcases mem_appendOf he with rfl | rfl | rfl <;> exact trivial
  refine .append (.cons trivial rfl (.cons trivial rfl (.cons trivial rfl (.cons trivial rfl
    (.cons ?_ rfl trivial))))) rfl (.append (Runs.each_of_forall happend)
    (run_appendOf rfl rfl rfl) (.cons ?_ rfl (.cons trivial rfl (.cons ?_ rfl (.cons trivial rfl
    (.cons trivial rfl (.cons ?_ rfl (.cons trivial rfl (.cons trivial rfl
    ⟨trivial, fun _ _ => trivial⟩)))))))))
  · intro p s hp hs _
    cases hp
    cases hs
    exact recordable_alice
  · intro p s hp _
    cases hp
    exact not_inFlight_of_idle (fun t ht => by simp [Process.set, ht]) rfl
  · intro p s hp hs _
    cases hp
    cases hs
    exact recordable_bob
  · show ∀ s ∈ (replay (recordLine aliceSolve noon ++ [newline] ++ utf8 "\x7b")).visited,
      s ∈ (replay (recordLine aliceSolve noon ++ [newline])).visited
    decide +kernel

/-- One solve is acknowledged when its append has been synced, and again after a crash that
tore the line of another, when the log is replayed. -/
theorem acknowledged_durable_again : Runs.Each step AcksDurably (off [])
    (tornRun ++ [.act 0 submit, .act 0 (.record noon), .act 0 .ret]) := by
  refine acknowledged_durable [] _ (by decide +kernel) (.append settled_tornRun
    (Runs.run_append_some.mpr ⟨_, rfl, Runs.run_append_some.mpr ⟨_, run_appendOf rfl rfl rfl, rfl⟩⟩)
    (.cons trivial rfl (.cons ?_ rfl ⟨?_, fun _ _ => trivial⟩)))
  · intro p s hp hs _
    cases hp
    cases hs
    exact recordable_alice
  · intro p s hp _
    cases hp
    exact not_inFlight_of_idle (fun t ht => by simp [Process.set, ht]) rfl

end World

end TrainingPlatform.Scoring
