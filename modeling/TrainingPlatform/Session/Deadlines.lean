import TrainingPlatform.Go.Decimal
import TrainingPlatform.Runs
import TrainingPlatform.Session.Engine

/-!
# The deadlines of a Pod

A namespace in which instances are created, kept alive and collected, one operation
at a time, with the times the operations ran at.  The API server may refuse any call
of an operation.  `lives` records beside the Pods when each instance was created and
when it was last created or kept alive.
-/

namespace TrainingPlatform.Session

open Go

/-- When an instance was created, and when it was last created or kept alive. -/
structure Life where
  created : Int
  touched : Int

structure Namespace where
  pods : Pods
  lives : GoString → Option Life
  clock : Int

inductive Event where
  /-- `writes`: the API server takes the `Create`; `ready`: the Pod comes up; `cleans`:
  the API server takes the `Delete` of a Pod that does not come up. -/
  | create (name creator : GoString) (writes ready cleans : Bool)
  | extend (name : GoString) (api : Api)
  /-- `lists`: the API server answers the `List`; `deletes`: the Pods whose `Delete`
  it takes. -/
  | gc (lists : Bool) (deletes : GoString → Bool)

structure Timed where
  now : Int
  event : Event

/-- `NewEphemeralInstance`. -/
def newEphemeralInstance (eng : Engine) (now : Int) (pods : Pods) (name creator : GoString)
    (writes ready cleans : Bool) : Option Pods :=
  match createInstance eng ⟨true, writes⟩ now pods name creator with
  | none => none
  | some pods => some (if ready then pods else (deletePod ⟨true, cleans⟩ pods name).2)

/-- `GCExpiredPods` when the API server refuses some of its calls: it goes on behind a
`Delete` that fails. -/
def gcPass (lists : Bool) (deletes : GoString → Bool) (now : Int) (pods : Pods) : Pods :=
  if lists then
    ((expiredPods pods now).filter deletes).foldl (fun pods name => pods.erase name) pods
  else pods

def touch (lives : GoString → Option Life) (name : GoString) (now : Int) :
    GoString → Option Life :=
  Function.update lives name ((lives name).map fun l => { l with touched := now })

/-- The namespace after an operation. -/
def after (eng : Engine) (w : Namespace) (e : Timed) : Namespace :=
  match e.event with
  | .create name creator writes ready cleans =>
    match newEphemeralInstance eng e.now w.pods name creator writes ready cleans with
    | none => { w with clock := e.now }
    | some pods => ⟨pods, Function.update w.lives name (some ⟨e.now, e.now⟩), e.now⟩
  | .extend name api =>
    match extend eng api e.now w.pods name with
    | (.error _, pods) => ⟨pods, w.lives, e.now⟩
    | (.ok _, pods) => ⟨pods, touch w.lives name e.now, e.now⟩
  | .gc lists deletes => ⟨gcPass lists deletes e.now w.pods, w.lives, e.now⟩

/-- Time does not run backwards, and a clock reading is an `int64` of seconds. -/
def step (eng : Engine) (w : Namespace) (e : Timed) : Option Namespace :=
  if w.clock ≤ e.now ∧ unix e.now < 2 ^ 63 then some (after eng w e) else none

/-- One second after the epoch, with Pods whose history is not known. -/
def start (pods : Pods) : Namespace := ⟨pods, fun _ => none, 1000000000⟩

/-- What one operation does to the deadlines of the Pods. -/
structure Deadlines (eng : Engine) (w : Namespace) (e : Timed) (w' : Namespace) : Prop where
  hard_unchanged : ∀ name p p', w.pods.lookup name = some p → w'.pods.lookup name = some p' →
    p'.labels.lookup expiresAtLabel = p.labels.lookup expiresAtLabel
  extend_reports : ∀ name api exp, e.event = .extend name api →
    (extend eng api e.now w.pods name).1 = .ok exp → ∀ api', api'.reads = true →
      ∃ st, status api' w'.pods name = .ok st ∧ st.expiresAt = exp
  gc_spares : ∀ lists deletes name p l, e.event = .gc lists deletes →
    w.pods.lookup name = some p → w.lives name = some l → w'.pods.lookup name = none →
      l.created + eng.ttl < e.now ∨ l.touched + eng.idleTTL < e.now
  gc_reaps : ∀ deletes name p l, e.event = .gc true deletes → deletes name = true →
    w.pods.lookup name = some p → w.lives name = some l →
      (l.created + eng.ttl + 1000000000 ≤ e.now ∨ l.touched + eng.idleTTL + 1000000000 ≤ e.now) →
        w'.pods.lookup name = none

/-- Every enabled operation keeps to the deadlines. -/
def KeepsDeadlines (eng : Engine) (w : Namespace) (e : Timed) : Prop :=
  ∀ w', step eng w e = some w' → Deadlines eng w e w'

/-! ## Labels as numbers -/

/-- A number that is not negative is read back from a label if it is an `int64`. -/
theorem sscand_sprintd {n : Int} (hn : 0 ≤ n) :
    sscand (sprintd n) = if n < 2 ^ 63 then n else 0 := by
  obtain ⟨m, rfl⟩ := Int.eq_ofNat_of_zero_le hn
  have hitoa : sprintd (m : Int) = itoa m := rfl
  have hdigit : ∀ b ∈ itoa m, isDigit b = true := fun b hb => isDecimal_of_mem_itoa hb
  have hsign : ∀ c, isDigit c = false → (itoa m).head? ≠ some c := by
    intro c hc hhead
    rw [hdigit c (List.mem_of_mem_head? hhead)] at hc
    contradiction
  have hminus : (itoa m).head? ≠ some 0x2D := hsign _ (by decide)
  have hplus : (itoa m).head? ≠ some 0x2B := hsign _ (by decide)
  have htake : (itoa m).takeWhile isDigit = itoa m := List.takeWhile_eq_self_iff.mpr hdigit
  have hvalue : (itoa m).foldl (fun n b => 10 * n + ((b.toNat : Int) - 0x30)) 0 = m :=
    decimalValue_itoa m
  have hlow : -(2 ^ 63) ≤ (m : Int) := by omega
  rw [hitoa]
  unfold sscand
  simp only [hminus, hplus, decide_false, Bool.or_self, Bool.false_eq_true, if_false, htake,
    itoa_ne_nil, hvalue, hlow, decide_true, Bool.true_and, decide_eq_true_eq]

theorem lt_of_unix_lt {s t : Int} (h : unix s < unix t) : s < t := by
  unfold unix at h
  omega

theorem unix_lt_of_add_second_le {s t : Int} (h : s + 1000000000 ≤ t) : unix s < unix t := by
  unfold unix
  omega

theorem unix_pos {t : Int} (h : 1000000000 ≤ t) : 0 < unix t := by
  unfold unix
  omega

/-! ## What the labels say about a life -/

variable {eng : Engine} {p : Pod} {l : Life} {pods : Pods} {name n : GoString} {now : Int}

/-- The labels hold the deadlines of the life. -/
structure Dated (eng : Engine) (p : Pod) (l : Life) : Prop where
  managed : p.managed = true
  hard : p.labels.lookup expiresAtLabel = some (sprintd (unix (l.created + eng.ttl)))
  idle : p.labels.lookup idleExpiresAtLabel = some (sprintd (unix (l.touched + eng.idleTTL)))
  created_pos : 1000000000 ≤ l.created
  touched_pos : 1000000000 ≤ l.touched

theorem effectiveExpiry_of_dated (h : Dated eng p l) :
    effectiveExpiry p.labels =
      let hard := sscand (sprintd (unix (l.created + eng.ttl)))
      let idle := sscand (sprintd (unix (l.touched + eng.idleTTL)))
      if hard = 0 then idle else if idle = 0 then hard else if idle < hard then idle else hard := by
  unfold effectiveExpiry label
  rw [h.hard, h.idle]
  rfl

/-- A Pod has expired once the clock's second is past that of a deadline. -/
theorem expired_iff_of_dated (httl : 0 < eng.ttl) (hidle : 0 < eng.idleTTL)
    (h : Dated eng p l) (hnow : unix now < 2 ^ 63) :
    p.expired now = true ↔
      unix (l.created + eng.ttl) < unix now ∨ unix (l.touched + eng.idleTTL) < unix now := by
  have hcreated := h.created_pos
  have htouched := h.touched_pos
  have hhard : 0 < unix (l.created + eng.ttl) := unix_pos (by omega)
  have hidlePos : 0 < unix (l.touched + eng.idleTTL) := unix_pos (by omega)
  rw [Pod.expired, Bool.and_eq_true, decide_eq_true_eq, decide_eq_true_eq,
    effectiveExpiry_of_dated h, sscand_sprintd (le_of_lt hhard),
    sscand_sprintd (le_of_lt hidlePos)]
  -- A deadline that is no `int64` reads as absent, and the clock is never past it.
  dsimp only
  split_ifs <;> omega

/-- The labels of a new Pod hold its deadlines. -/
theorem dated_instance (hidle : 0 < eng.idleTTL) (hnow : 1000000000 ≤ now)
    (h : p.labels = instanceLabels eng now) : Dated eng p ⟨now, now⟩ := by
  have hne : expiresAtLabel ≠ idleExpiresAtLabel := by decide
  refine ⟨managed_of_instanceLabels h, ?_, ?_, hnow, hnow⟩
  · rw [h, instanceLabels, if_pos hidle, Finmap.lookup_insert_of_ne _ hne, Finmap.lookup_insert]
  · rw [h, instanceLabels, if_pos hidle, Finmap.lookup_insert]

/-- A keepalive moves the idle deadline and nothing else. -/
theorem dated_extend (hnow : 1000000000 ≤ now) (h : Dated eng p l) :
    Dated eng (p.setLabel idleExpiresAtLabel (sprintd (unix (now + eng.idleTTL))))
      { l with touched := now } := by
  have hne : expiresAtLabel ≠ idleExpiresAtLabel := by decide
  refine ⟨?_, ?_, ?_, h.created_pos, hnow⟩
  · rw [managed_setLabel_idle]
    exact h.managed
  · rw [Pod.setLabel, Finmap.lookup_insert_of_ne _ hne]
    exact h.hard
  · rw [Pod.setLabel, Finmap.lookup_insert]

/-! ## What the operations do -/

theorem mem_expiredPods :
    n ∈ expiredPods pods now ↔
      ∃ p, pods.lookup n = some p ∧ p.managed = true ∧ p.expired now = true := by
  rw [expiredPods, List.mem_filter]
  cases hn : pods.lookup n with
  | none => simp
  | some p =>
    have hkey : n ∈ pods.keys := AList.mem_keys.mp (AList.lookup_isSome.mp (by rw [hn]; rfl))
    simp [hkey]

theorem lookup_gcPass (lists : Bool) (deletes : GoString → Bool) :
    (gcPass lists deletes now pods).lookup n =
      if lists = true ∧ deletes n = true ∧ n ∈ expiredPods pods now then none
      else pods.lookup n := by
  unfold gcPass
  by_cases hl : lists = true
  · rw [if_pos hl, lookup_foldl_erase]
    simp only [List.mem_filter, hl, true_and, and_comm]
  · simp [hl]

/-- The collection of the composed server refuses all deletes or none. -/
theorem gcExpiredPods_eq_gcPass (api : Api) :
    gcExpiredPods api now pods = gcPass api.reads (fun _ => api.writes) now pods := by
  unfold gcExpiredPods gcPass
  cases api.reads <;> cases api.writes <;> simp

/-- A creation leaves a Pod with fresh labels under a name that was free, or none. -/
theorem lookup_newEphemeralInstance {pods' : Pods} {creator : GoString}
    {writes ready cleans : Bool}
    (h : newEphemeralInstance eng now pods name creator writes ready cleans = some pods') :
    pods.lookup name = none ∧
      (∀ p, pods'.lookup name = some p → p.labels = instanceLabels eng now) ∧
      ∀ n, n ≠ name → pods'.lookup n = pods.lookup n := by
  unfold newEphemeralInstance at h
  split at h
  · cases h
  next made hmade =>
  have hlookup := fun n => (lookup_createInstance (n := n) hmade).2
  refine ⟨(lookup_createInstance (n := name) hmade).1, ?_⟩
  rw [Option.some.injEq] at h
  subst h
  have hfresh : ∀ p, made.lookup name = some p → p.labels = instanceLabels eng now := by
    intro p hp
    rw [hlookup, if_pos rfl, Option.some.injEq] at hp
    subst hp
    rfl
  have hother : ∀ n, n ≠ name → made.lookup n = pods.lookup n := by
    intro n hn
    rw [hlookup, if_neg hn]
  unfold deletePod
  cases ready <;> cases cleans
  · exact ⟨hfresh, hother⟩
  · constructor
    · intro p hp
      rw [if_neg (by decide), if_pos rfl, AList.lookup_erase] at hp
      cases hp
    · intro n hn
      exact (AList.lookup_erase_ne hn).trans (hother n hn)
  · exact ⟨hfresh, hother⟩
  · exact ⟨hfresh, hother⟩

/-- A keepalive that is answered has relabelled its Pod, and reports the sooner of the
deadlines the Pod now carries. -/
theorem extend_ok {api : Api} {exp : Int} (hidle : 0 < eng.idleTTL)
    (h : (extend eng api now pods name).1 = .ok exp) :
    ∃ p, pods.lookup name = some p ∧
      (extend eng api now pods name).2 = pods.insert name
        (p.setLabel idleExpiresAtLabel (sprintd (unix (now + eng.idleTTL)))) ∧
      exp = effectiveExpiry
        (p.setLabel idleExpiresAtLabel (sprintd (unix (now + eng.idleTTL)))).labels := by
  unfold extend getPod at h ⊢
  by_cases hr : api.reads = true
  · rw [if_pos hr] at h ⊢
    cases hp : pods.lookup name with
    | none =>
      rw [hp] at h
      cases h
    | some p =>
      have hpos : ¬ eng.idleTTL ≤ 0 := by omega
      by_cases hw : api.writes = true
      · simp only [hp, hpos, hw, if_true, if_false, Except.ok.injEq] at h ⊢
        refine ⟨p, rfl, rfl, ?_⟩
        have hne : expiresAtLabel ≠ idleExpiresAtLabel := by decide
        subst h
        unfold effectiveExpiry label Pod.setLabel
        simp only [Finmap.lookup_insert, Finmap.lookup_insert_of_ne _ hne, Option.getD_some]
      · simp [hp, hpos, hw] at h
  · simp [hr] at h

theorem extend_error {api : Api} {e : ApiError} (h : (extend eng api now pods name).1 = .error e) :
    (extend eng api now pods name).2 = pods := by
  unfold extend at h ⊢
  split
  · rfl
  next hp =>
    rw [hp] at h
    dsimp only at h
    split_ifs at h ⊢
    rfl

/-! ## One step -/

variable {w w' : Namespace} {e : Timed}

theorem step_eq_some :
    step eng w e = some w' ↔ (w.clock ≤ e.now ∧ unix e.now < 2 ^ 63) ∧ w' = after eng w e := by
  unfold step
  split_ifs with hc
  · rw [Option.some.injEq, eq_comm]
    exact (and_iff_right hc).symm
  · exact iff_of_false (fun h => by cases h) fun h => hc h.1

/-- Every Pod with a known life carries its deadlines. -/
structure AllDated (eng : Engine) (w : Namespace) : Prop where
  clock_pos : 1000000000 ≤ w.clock
  dated : ∀ name p l, w.pods.lookup name = some p → w.lives name = some l → Dated eng p l

theorem allDated_start (eng : Engine) (pods : Pods) : AllDated eng (start pods) :=
  ⟨Int.le_refl _, fun _ _ _ _ hl => by cases hl⟩

theorem allDated_step (hidle : 0 < eng.idleTTL) (hw : AllDated eng w)
    (h : step eng w e = some w') : AllDated eng w' := by
  obtain ⟨⟨hclock, -⟩, rfl⟩ := step_eq_some.mp h
  have hnow : 1000000000 ≤ e.now := hw.clock_pos.trans hclock
  obtain ⟨now, event⟩ := e
  cases event with
  | create name creator writes ready cleans =>
    rw [after]
    dsimp only
    split
    · exact ⟨hnow, hw.dated⟩
    next pods hpods =>
    obtain ⟨-, hfresh, hother⟩ := lookup_newEphemeralInstance hpods
    refine ⟨hnow, fun n p l hp hl => ?_⟩
    by_cases hn : n = name
    · subst hn
      simp only [Function.update_self, Option.some.injEq] at hl
      subst hl
      exact dated_instance hidle hnow (hfresh p hp)
    · simp only [Function.update_of_ne hn] at hl
      exact hw.dated n p l ((hother n hn).symm.trans hp) hl
  | extend name api =>
    rw [after]
    dsimp only
    split
    next err pods hext =>
      have hpods : pods = w.pods :=
        (congrArg Prod.snd hext).symm.trans (extend_error (congrArg Prod.fst hext))
      subst hpods
      exact ⟨hnow, hw.dated⟩
    next exp pods hext =>
      obtain ⟨q, hq, hpods, -⟩ := extend_ok hidle (congrArg Prod.fst hext)
      rw [hext] at hpods
      dsimp only at hpods
      subst hpods
      refine ⟨hnow, fun n p l hp hl => ?_⟩
      by_cases hn : n = name
      · subst hn
        rw [AList.lookup_insert, Option.some.injEq] at hp
        simp only [touch, Function.update_self, Option.map_eq_some_iff] at hl
        obtain ⟨l₀, hl₀, rfl⟩ := hl
        subst hp
        exact dated_extend hnow (hw.dated n q l₀ hq hl₀)
      · rw [AList.lookup_insert_ne hn] at hp
        simp only [touch, Function.update_of_ne hn] at hl
        exact hw.dated n p l hp hl
  | gc lists deletes =>
    refine ⟨hnow, fun n p l hp hl => ?_⟩
    rw [after] at hp hl
    dsimp only at hp hl
    rw [lookup_gcPass] at hp
    split_ifs at hp
    exact hw.dated n p l hp hl

/-- A step leaves the hard deadline of a Pod it leaves. -/
theorem hard_unchanged_step (hidle : 0 < eng.idleTTL) {p p' : Pod}
    (hp : w.pods.lookup name = some p) (hp' : (after eng w e).pods.lookup name = some p') :
    p'.labels.lookup expiresAtLabel = p.labels.lookup expiresAtLabel := by
  have hsame : w.pods.lookup name = some p' →
      p'.labels.lookup expiresAtLabel = p.labels.lookup expiresAtLabel := by
    intro h
    rw [hp, Option.some.injEq] at h
    rw [h]
  obtain ⟨now, event⟩ := e
  cases event with
  | create m creator writes ready cleans =>
    rw [after] at hp'
    dsimp only at hp'
    split at hp'
    · exact hsame hp'
    next pods hpods =>
    obtain ⟨hfree, -, hother⟩ := lookup_newEphemeralInstance hpods
    by_cases hn : name = m
    · subst hn
      rw [hp] at hfree
      cases hfree
    · exact hsame ((hother name hn).symm.trans hp')
  | extend m api =>
    rw [after] at hp'
    dsimp only at hp'
    split at hp'
    next err pods hext =>
      have hpods : pods = w.pods :=
        (congrArg Prod.snd hext).symm.trans (extend_error (congrArg Prod.fst hext))
      subst hpods
      exact hsame hp'
    next exp pods hext =>
      obtain ⟨q, hq, hpods, -⟩ := extend_ok hidle (congrArg Prod.fst hext)
      rw [hext] at hpods
      dsimp only at hpods hp'
      subst hpods
      by_cases hn : name = m
      · subst hn
        have hne : expiresAtLabel ≠ idleExpiresAtLabel := by decide
        rw [hp, Option.some.injEq] at hq
        subst hq
        rw [AList.lookup_insert, Option.some.injEq] at hp'
        subst hp'
        exact Finmap.lookup_insert_of_ne _ hne
      · rw [AList.lookup_insert_ne hn] at hp'
        exact hsame hp'
  | gc lists deletes =>
    rw [after] at hp'
    dsimp only at hp'
    rw [lookup_gcPass] at hp'
    split_ifs at hp'
    exact hsame hp'

/-- The expiry a keepalive reports is the one a look at the Pod reports next. -/
theorem extend_reports_step (hidle : 0 < eng.idleTTL) {api api' : Api} {exp : Int}
    (he : e.event = .extend name api) (h : (extend eng api e.now w.pods name).1 = .ok exp)
    (hreads : api'.reads = true) :
    ∃ st, status api' (after eng w e).pods name = .ok st ∧ st.expiresAt = exp := by
  obtain ⟨q, -, hpods, hexp⟩ := extend_ok hidle h
  have hafter : (after eng w e).pods = (extend eng api e.now w.pods name).2 := by
    unfold after
    rw [he]
    dsimp only
    split <;> next hext => rw [hext]
  rw [hafter, hpods, status, getPod_eq_ok.mpr ⟨hreads, AList.lookup_insert _⟩]
  exact ⟨_, rfl, hexp.symm⟩

theorem pods_after_gc {lists : Bool} {deletes : GoString → Bool}
    (he : e.event = .gc lists deletes) :
    (after eng w e).pods = gcPass lists deletes e.now w.pods := by
  unfold after
  rw [he]

/-- Every operation, at any state its clock lets it run in, keeps to the deadlines. -/
theorem keepsDeadlines_of_allDated (httl : 0 < eng.ttl) (hidle : 0 < eng.idleTTL)
    (hw : AllDated eng w) : KeepsDeadlines eng w e := by
  intro w' h
  obtain ⟨⟨-, hnow⟩, rfl⟩ := step_eq_some.mp h
  refine ⟨fun name p p' => hard_unchanged_step hidle,
    fun name api exp he hok api' => extend_reports_step hidle he hok, ?_, ?_⟩
  · intro lists deletes n p l he hp hl hgone
    rw [pods_after_gc he, lookup_gcPass] at hgone
    split_ifs at hgone with hcond
    · obtain ⟨q, hq, -, hexpired⟩ := mem_expiredPods.mp hcond.2.2
      rw [hp, Option.some.injEq] at hq
      subst hq
      rw [expired_iff_of_dated httl hidle (hw.dated n p l hp hl) hnow] at hexpired
      exact hexpired.imp lt_of_unix_lt lt_of_unix_lt
    · rw [hp] at hgone
      cases hgone
  · intro deletes n p l he hdel hp hl hpast
    have hdated := hw.dated n p l hp hl
    have hexpired : p.expired e.now = true :=
      (expired_iff_of_dated httl hidle hdated hnow).mpr
        (hpast.imp unix_lt_of_add_second_le unix_lt_of_add_second_le)
    rw [pods_after_gc he, lookup_gcPass,
      if_pos ⟨rfl, hdel, mem_expiredPods.mpr ⟨p, hp, hdated.managed, hexpired⟩⟩]

/-- In every run, at any sub-second offsets: the hard deadline of a Pod stays, a
keepalive reports what a look at the Pod reads, and a collection removes a Pod only once
it is past a deadline, and for certain one second later. -/
theorem keepsDeadlines (httl : 0 < eng.ttl) (hidle : 0 < eng.idleTTL) (pods : Pods)
    (es : List Timed) : Runs.Each (step eng) (KeepsDeadlines eng) (start pods) es :=
  Runs.each_of_inductive (fun _ _ _ => allDated_step hidle)
    (fun _ _ => keepsDeadlines_of_allDated httl hidle) es (allDated_start eng pods)

/-- An instance that pings outlives its idle window and goes with the next. -/
def pingedRun : List Timed :=
  [⟨1500000000, .create (utf8 "i-0a") (utf8 "alice") true true true⟩,
    ⟨2900000000, .extend (utf8 "i-0a") ⟨true, true⟩⟩,
    ⟨4000000000, .gc true fun _ => true⟩,
    ⟨5900000000, .gc true fun _ => true⟩]

theorem keepsDeadlines_pingedRun :
    Runs.Each (step ⟨10000000000, 2000000000⟩) (KeepsDeadlines ⟨10000000000, 2000000000⟩)
      (start ∅) pingedRun :=
  keepsDeadlines (by decide) (by decide) ∅ pingedRun

end TrainingPlatform.Session
