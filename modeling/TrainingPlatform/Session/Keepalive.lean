import TrainingPlatform.Runs
import TrainingPlatform.Session.Deadlines

/-!
# Keepalives and collections in flight

`Extend` and `GCExpiredPods` as the API server sees them: a keepalive is one `Get` and
one `Patch`, a collection one `List` and one `Delete` by name for each listed Pod that
has expired, and the messages of any number of calls interleave.  Each call reads the
clock once, between its messages.
-/

namespace TrainingPlatform.Session

open Go

/-- Where a call stands between its messages. -/
inductive Call where
  /-- A collection that holds the answer of its `List`. -/
  | listed (snapshot : Pods)
  /-- A collection with the names it has yet to delete. -/
  | collecting (names : List GoString)
  /-- A keepalive that holds the labels its `Get` returned. -/
  | got (name : GoString) (labels : Labels)
  /-- A keepalive with the idle deadline it is about to write. -/
  | stamped (name : GoString) (labels : Labels) (idle : GoString)
  /-- A keepalive that has returned its expiry. -/
  | extended (name : GoString) (exp : Int)
  /-- A keepalive that has returned an error. -/
  | refused

structure Cluster where
  pods : Pods
  clock : Int
  calls : List Call

inductive Message where
  | tick (d : Nat)
  | gcList
  | extendGet (name : GoString)
  /-- The next message or clock reading of a call; `ok`: the API server takes it. -/
  | next (i : Nat) (ok : Bool)

/-- The labels `Extend` computes its result from. -/
def patched (labels : Labels) (idle : GoString) : Labels :=
  (Finmap.insert expiresAtLabel (label labels expiresAtLabel) ∅).insert idleExpiresAtLabel idle

def Cluster.resume (c : Cluster) (i : Nat) (call : Call) : Cluster :=
  { c with calls := c.calls.set i call }

def Cluster.advance (eng : Engine) (c : Cluster) (i : Nat) (ok : Bool) : Call → Option Cluster
  | .listed snapshot => some (c.resume i (.collecting (expiredPods snapshot c.clock)))
  | .collecting [] => none
  | .collecting (name :: names) =>
    some { c.resume i (.collecting names) with
      pods := if ok then c.pods.erase name else c.pods }
  | .got name labels =>
    some (c.resume i (.stamped name labels (sprintd (unix (c.clock + eng.idleTTL)))))
  | .stamped name labels idle =>
    match c.pods.lookup name with
    | some p =>
      if ok then
        some { c.resume i (.extended name (effectiveExpiry (patched labels idle))) with
          pods := c.pods.insert name (p.setLabel idleExpiresAtLabel idle) }
      else some (c.resume i .refused)
    | none => some (c.resume i .refused)
  | .extended _ _ => none
  | .refused => none

/-- One message at the API server, or one reading of the clock. -/
def Cluster.step (eng : Engine) (c : Cluster) : Message → Option Cluster
  | .tick d => some { c with clock := c.clock + d }
  | .gcList => some { c with calls := c.calls ++ [.listed c.pods] }
  | .extendGet name =>
    let call : Call :=
      match c.pods.lookup name with
      | none => .refused
      | some p =>
        if eng.idleTTL ≤ 0 then .extended name (effectiveExpiry p.labels) else .got name p.labels
    some { c with calls := c.calls ++ [call] }
  | .next i ok => (c.calls[i]?).bind (c.advance eng i ok)

/-- No call has begun. -/
def Cluster.quiet (pods : Pods) (clock : Int) : Cluster := ⟨pods, clock, []⟩

/-- The expiries that keepalives have returned for a Pod. -/
def Cluster.expiries (c : Cluster) (name : GoString) : List Int :=
  c.calls.filterMap fun
    | .extended n exp => if n = name then some exp else none
    | _ => none

/-- A Pod goes only when the clock is past every expiry a keepalive has returned for it. -/
def KeepsAcknowledged (eng : Engine) (c : Cluster) (m : Message) : Prop :=
  ∀ c', c.step eng m = some c' → ∀ name, c.pods.lookup name ≠ none → c'.pods.lookup name = none →
    ∀ exp ∈ c.expiries name, exp < unix c.clock

/-- No keepalive comes between a collection's `List` and its `Delete`, nor an earlier one
behind a later: a Pod that a `Delete` finds is still expired, and a `Patch` leaves no
expiry before one that has been returned. -/
def Undisturbed (c : Cluster) : Message → Prop
  | .next i true =>
    match c.calls[i]? with
    | some (.collecting (name :: _)) => ∀ p ∈ c.pods.lookup name, p.expired c.clock = true
    | some (.stamped name _ idle) => ∀ p ∈ c.pods.lookup name,
      let exp := effectiveExpiry (p.setLabel idleExpiresAtLabel idle).labels
      exp = 0 ∨ ∀ returned ∈ c.expiries name, returned ≤ exp
    | _ => True
  | _ => True

instance (c : Cluster) (m : Message) : Decidable (Undisturbed c m) := by
  unfold Undisturbed
  split
  · split <;> infer_instance
  · infer_instance

/-! ## Calls whose messages are not crossed -/

variable {eng : Engine} {c c' : Cluster} {m : Message}

/-- What `Extend` returns is what the Pod carries behind the `Patch`. -/
theorem effectiveExpiry_patched {p : Pod} {labels : Labels} {idle : GoString}
    (h : label labels expiresAtLabel = label p.labels expiresAtLabel) :
    effectiveExpiry (patched labels idle) =
      effectiveExpiry (p.setLabel idleExpiresAtLabel idle).labels := by
  have hne : expiresAtLabel ≠ idleExpiresAtLabel := by decide
  have hhard : label (patched labels idle) expiresAtLabel =
      label (p.setLabel idleExpiresAtLabel idle).labels expiresAtLabel := by
    unfold label at h
    simp only [label, patched, Pod.setLabel, Finmap.lookup_insert_of_ne _ hne, Finmap.lookup_insert,
      Option.getD_some, h]
  have hidle : label (patched labels idle) idleExpiresAtLabel =
      label (p.setLabel idleExpiresAtLabel idle).labels idleExpiresAtLabel := by
    simp only [label, patched, Pod.setLabel, Finmap.lookup_insert]
  unfold effectiveExpiry
  rw [hhard, hidle]

/-- A keepalive with nothing between its messages is `extend`. -/
theorem run_extend {api : Api} {name : GoString} {exp : Int} (hidle : 0 < eng.idleTTL)
    (h : (extend eng api c.clock c.pods name).1 = .ok exp) :
    Runs.run (Cluster.step eng) c
        [.extendGet name, .next c.calls.length true, .next c.calls.length true] =
      some { c with
        pods := (extend eng api c.clock c.pods name).2
        calls := c.calls ++ [.extended name exp] } := by
  obtain ⟨p, hp, hpods, hexp⟩ := extend_ok hidle h
  have hpos : ¬ eng.idleTTL ≤ 0 := by omega
  rw [hpods, hexp, ← effectiveExpiry_patched rfl]
  simp [Runs.run, Cluster.step, Cluster.advance, Cluster.resume, hp, hpos]

theorem run_deletes (deletes : GoString → Bool) {i : Nat} (names : List GoString) (c : Cluster)
    (hi : c.calls[i]? = some (.collecting names)) :
    Runs.run (Cluster.step eng) c (names.map fun name => .next i (deletes name)) =
      some { c.resume i (.collecting []) with
        pods := (names.filter deletes).foldl (fun pods name => pods.erase name) c.pods } := by
  induction names generalizing c with
  | nil =>
    have hset : c.calls.set i (.collecting []) = c.calls := by
      obtain ⟨hlt, hget⟩ := List.getElem?_eq_some_iff.mp hi
      rw [← hget, List.set_getElem_self]
    simp [Cluster.resume, hset]
  | cons name names ih =>
    have hlt : i < c.calls.length := (List.getElem?_eq_some_iff.mp hi).1
    rw [List.map_cons, Runs.run_cons, Cluster.step, hi, Option.bind_some, Cluster.advance,
      Option.bind_some, ih _ (by simp [Cluster.resume, hlt])]
    cases hd : deletes name <;> simp [Cluster.resume, hd]

/-- A collection with nothing between its messages is `gcPass`. -/
theorem run_gcPass (deletes : GoString → Bool) (c : Cluster) :
    Runs.run (Cluster.step eng) c (.gcList :: .next c.calls.length true ::
        (expiredPods c.pods c.clock).map fun name => .next c.calls.length (deletes name)) =
      some { c with
        pods := gcPass true deletes c.clock c.pods
        calls := c.calls ++ [.collecting []] } := by
  rw [Runs.run_cons, Cluster.step, Option.bind_some, Runs.run_cons, Cluster.step]
  simp [Cluster.advance, Cluster.resume, run_deletes, gcPass]

/-! ## The invariant -/

/-- What a call has returned or read agrees with the Pods: the Pod still has at least the
returned expiry, and the hard deadline that was read. -/
def Agrees (pods : Pods) : Call → Prop
  | .extended name exp => ∀ p, pods.lookup name = some p →
    exp ≤ effectiveExpiry p.labels ∨ effectiveExpiry p.labels = 0
  | .got name labels => ∀ p, pods.lookup name = some p →
    label labels expiresAtLabel = label p.labels expiresAtLabel
  | .stamped name labels _ => ∀ p, pods.lookup name = some p →
    label labels expiresAtLabel = label p.labels expiresAtLabel
  | .listed _ | .collecting _ | .refused => True

def Agreed (c : Cluster) : Prop := ∀ call ∈ c.calls, Agrees c.pods call

theorem mem_expiries {name : GoString} {exp : Int} :
    exp ∈ c.expiries name ↔ .extended name exp ∈ c.calls := by
  rw [Cluster.expiries, List.mem_filterMap]
  constructor
  · rintro ⟨call, hmem, hcall⟩
    cases call with
    | extended n exp' =>
      dsimp only at hcall
      split_ifs at hcall with hn
      cases hcall
      exact hn ▸ hmem
    | listed | collecting | got | stamped | refused => cases hcall
  · intro hmem
    exact ⟨_, hmem, if_pos rfl⟩

theorem agreed_quiet (pods : Pods) (clock : Int) : Agreed (.quiet pods clock) :=
  fun _ h => (List.not_mem_nil h).elim

theorem label_setLabel_hard {p : Pod} {idle : GoString} :
    label (p.setLabel idleExpiresAtLabel idle).labels expiresAtLabel =
      label p.labels expiresAtLabel := by
  have hne : expiresAtLabel ≠ idleExpiresAtLabel := by decide
  unfold label Pod.setLabel
  rw [Finmap.lookup_insert_of_ne _ hne]

theorem agrees_erase {pods : Pods} {call : Call} (name : GoString) (h : Agrees pods call) :
    Agrees (pods.erase name) call := by
  have hkept : ∀ n p, (pods.erase name).lookup n = some p → pods.lookup n = some p := by
    intro n p hp
    by_cases hn : n = name
    · subst hn
      rw [AList.lookup_erase] at hp
      cases hp
    · exact (AList.lookup_erase_ne hn).symm.trans hp
  cases call with
  | extended n exp => exact fun p hp => h p (hkept n p hp)
  | got n labels => exact fun p hp => h p (hkept n p hp)
  | stamped n labels idle => exact fun p hp => h p (hkept n p hp)
  | listed | collecting | refused => trivial

/-- A `Patch` that leaves no expiry before a returned one. -/
theorem agrees_patch {pods : Pods} {call : Call} {name idle : GoString} {p : Pod}
    (hp : pods.lookup name = some p) (h : Agrees pods call)
    (hlater : ∀ exp, call = .extended name exp →
      exp ≤ effectiveExpiry (p.setLabel idleExpiresAtLabel idle).labels ∨
        effectiveExpiry (p.setLabel idleExpiresAtLabel idle).labels = 0) :
    Agrees (pods.insert name (p.setLabel idleExpiresAtLabel idle)) call := by
  have hother : ∀ n q, n ≠ name →
      (pods.insert name (p.setLabel idleExpiresAtLabel idle)).lookup n = some q →
        pods.lookup n = some q :=
    fun n q hn hq => (AList.lookup_insert_ne hn).symm.trans hq
  have hself : ∀ q, (pods.insert name (p.setLabel idleExpiresAtLabel idle)).lookup name = some q →
      q = p.setLabel idleExpiresAtLabel idle := by
    intro q hq
    rw [AList.lookup_insert, Option.some.injEq] at hq
    exact hq.symm
  cases call with
  | extended n exp =>
    intro q hq
    by_cases hn : n = name
    · subst hn
      rw [hself q hq]
      exact hlater exp rfl
    · exact h q (hother n q hn hq)
  | got n labels =>
    intro q hq
    by_cases hn : n = name
    · subst hn
      rw [hself q hq, label_setLabel_hard]
      exact h p hp
    · exact h q (hother n q hn hq)
  | stamped n labels idle' =>
    intro q hq
    by_cases hn : n = name
    · subst hn
      rw [hself q hq, label_setLabel_hard]
      exact h p hp
    · exact h q (hother n q hn hq)
  | listed | collecting | refused => trivial

/-! ## One message -/

theorem agreed_concat {call : Call} (h : Agreed c) (hcall : Agrees c.pods call) :
    Agreed { c with calls := c.calls ++ [call] } := by
  intro call' hmem
  rw [List.mem_append, List.mem_singleton] at hmem
  rcases hmem with hmem | rfl
  · exact h call' hmem
  · exact hcall

/-- The calls behind a step are the ones before it but for the one that went on. -/
theorem agreed_resume {pods : Pods} {i : Nat} {call : Call}
    (h : ∀ call' ∈ c.calls, Agrees pods call') (hcall : Agrees pods call) :
    Agreed { c.resume i call with pods := pods } := by
  intro call' hmem
  rcases List.mem_or_eq_of_mem_set hmem with hmem | rfl
  · exact h call' hmem
  · exact hcall

theorem agreed_advance {i : Nat} {ok : Bool} {call : Call} (h : Agreed c)
    (hi : c.calls[i]? = some call) (hcond : Undisturbed c (.next i ok))
    (hstep : c.advance eng i ok call = some c') : Agreed c' := by
  have hcall : Agrees c.pods call := h call (List.mem_of_getElem? hi)
  cases call with
  | listed snapshot =>
    cases hstep
    exact agreed_resume h trivial
  | collecting names =>
    cases names with
    | nil => cases hstep
    | cons name names =>
      cases hstep
      cases ok
      · exact agreed_resume h trivial
      · exact agreed_resume (fun call' hmem => agrees_erase name (h call' hmem)) trivial
  | got name labels =>
    cases hstep
    exact agreed_resume h hcall
  | stamped name labels idle =>
    rw [Cluster.advance] at hstep
    cases hp : c.pods.lookup name with
    | none =>
      rw [hp] at hstep
      cases hstep
      exact agreed_resume h trivial
    | some p =>
      rw [hp] at hstep
      cases ok
      · cases hstep
        exact agreed_resume h trivial
      · rw [Undisturbed, hi] at hcond
        cases hstep
        refine agreed_resume (fun call' hmem => agrees_patch hp (h call' hmem) ?_) ?_
        · rintro exp rfl
          exact (hcond p hp).symm.imp (fun hlater => hlater exp (mem_expiries.mpr hmem)) id
        · intro q hq
          rw [AList.lookup_insert, Option.some.injEq] at hq
          subst hq
          exact .inl (le_of_eq (effectiveExpiry_patched (hcall p hp)))
  | extended name exp => cases hstep
  | refused => cases hstep

theorem agreed_step (h : Agreed c) (hcond : Undisturbed c m) (hstep : c.step eng m = some c') :
    Agreed c' := by
  cases m with
  | tick d =>
    cases hstep
    exact h
  | gcList =>
    cases hstep
    exact agreed_concat h trivial
  | extendGet name =>
    cases hstep
    refine agreed_concat h ?_
    cases hp : c.pods.lookup name with
    | none => trivial
    | some p =>
      have hself : ∀ q, c.pods.lookup name = some q → q = p := by
        intro q hq
        rw [hp, Option.some.injEq] at hq
        exact hq.symm
      dsimp only
      split_ifs
      · exact fun q hq => .inl (le_of_eq (by rw [hself q hq]))
      · exact fun q hq => by rw [hself q hq]
  | next i ok =>
    obtain ⟨call, hi, hadvance⟩ := Option.bind_eq_some_iff.mp hstep
    exact agreed_advance h hi hcond hadvance

/-- Only a collection's `Delete` removes a Pod. -/
theorem removed_by_delete {name : GoString} (hstep : c.step eng m = some c')
    (hp : c.pods.lookup name ≠ none) (hgone : c'.pods.lookup name = none) :
    ∃ i names, m = .next i true ∧ c.calls[i]? = some (.collecting (name :: names)) := by
  cases m with
  | tick | gcList | extendGet =>
    cases hstep
    exact absurd hgone hp
  | next i ok =>
    obtain ⟨call, hi, hadvance⟩ := Option.bind_eq_some_iff.mp hstep
    cases call with
    | listed | got =>
      cases hadvance
      exact absurd hgone hp
    | extended | refused => cases hadvance
    | collecting names =>
      cases names with
      | nil => cases hadvance
      | cons first names =>
        cases hadvance
        cases ok
        · exact absurd hgone hp
        · by_cases hn : name = first
          · subst hn
            exact ⟨i, names, rfl, hi⟩
          · exact absurd ((AList.lookup_erase_ne hn).symm.trans hgone) hp
    | stamped first labels idle =>
      rw [Cluster.advance] at hadvance
      cases hfirst : c.pods.lookup first with
      | none =>
        rw [hfirst] at hadvance
        cases hadvance
        exact absurd hgone hp
      | some p =>
        rw [hfirst] at hadvance
        cases ok
        · cases hadvance
          exact absurd hgone hp
        · cases hadvance
          by_cases hn : name = first
          · subst hn
            rw [AList.lookup_insert] at hgone
            cases hgone
          · exact absurd ((AList.lookup_insert_ne hn).symm.trans hgone) hp

theorem keepsAcknowledged_of_agreed (h : Agreed c) (hcond : Undisturbed c m) :
    KeepsAcknowledged eng c m := by
  intro c' hstep name hp hgone exp hmem
  obtain ⟨i, names, rfl, hi⟩ := removed_by_delete hstep hp hgone
  obtain ⟨p, hlookup⟩ := Option.ne_none_iff_exists'.mp hp
  rw [Undisturbed, hi] at hcond
  have hexpired : p.expired c.clock = true := hcond p hlookup
  rw [Pod.expired, Bool.and_eq_true, decide_eq_true_eq, decide_eq_true_eq] at hexpired
  rcases h _ (mem_expiries.mp hmem) p hlookup with hle | hzero
  · exact lt_of_le_of_lt hle hexpired.2
  · exact absurd hzero hexpired.1

/-- In every interleaving whose collections and keepalives do not cross, no Pod goes
before an expiry that has been returned for it. -/
theorem keepsAcknowledged (eng : Engine) (pods : Pods) (clock : Int) (ms : List Message)
    (h : Runs.Each (Cluster.step eng) Undisturbed (.quiet pods clock) ms) :
    Runs.Each (Cluster.step eng) (KeepsAcknowledged eng) (.quiet pods clock) ms :=
  Runs.each_of_invariant (fun _ _ _ => agreed_step) (fun _ _ => keepsAcknowledged_of_agreed)
    (agreed_quiet pods clock) h

/-! ## A keepalive behind the `List` -/

def classEngine : Engine := ⟨100000000000, 2000000000⟩

/-- One instance, created at the first second, whose idle window ends at the third. -/
def idlePods : Pods :=
  AList.insert (utf8 "i-0a")
    ⟨instanceLabels classEngine 1000000000, .running, utf8 "10.0.0.7", [], none⟩ ∅

/-- At the fifth second a collection lists the Pod, the page pings, and the collection
deletes the Pod. -/
def crossedRun : List Message :=
  [.gcList, .next 0 true, .extendGet (utf8 "i-0a"), .next 1 true, .next 1 true, .next 0 true]

/-- The same calls one after the other, and a second collection three seconds later. -/
def orderlyRun : List Message :=
  [.extendGet (utf8 "i-0a"), .next 0 true, .next 0 true, .gcList, .next 1 true,
    .tick 3000000000, .gcList, .next 2 true, .next 2 true]

theorem keepsAcknowledged_orderlyRun :
    Runs.Each (Cluster.step classEngine) (KeepsAcknowledged classEngine)
      (.quiet idlePods 5000000000) orderlyRun :=
  keepsAcknowledged classEngine idlePods 5000000000 orderlyRun (by decide +kernel)

/-- The keepalive has returned the seventh second, and the Pod goes at the fifth. -/
theorem not_keepsAcknowledged_crossedRun :
    ¬ Runs.Each (Cluster.step classEngine) (KeepsAcknowledged classEngine)
      (.quiet idlePods 5000000000) crossedRun := by
  intro h
  have hlost : ∃ c ∈ Runs.run (Cluster.step classEngine) (.quiet idlePods 5000000000)
      (crossedRun.take 5), ∃ c' ∈ c.step classEngine (.next 0 true),
      (c.pods.lookup (utf8 "i-0a")).isSome = true ∧ (c'.pods.lookup (utf8 "i-0a")).isNone = true ∧
        7 ∈ c.expiries (utf8 "i-0a") ∧ unix c.clock = 5 := by decide +kernel
  obtain ⟨c, hrun, c', hstep, hfound, hgone, hreturned, hclock⟩ := hlost
  have hsplit : Runs.Each (Cluster.step classEngine) (KeepsAcknowledged classEngine)
      (.quiet idlePods 5000000000) (crossedRun.take 5 ++ [.next 0 true]) := h
  have hpast := (hsplit.of_append hrun).1 c' hstep (utf8 "i-0a") (Option.isSome_iff_ne_none.mp hfound)
    (Option.isNone_iff_eq_none.mp hgone) 7 hreturned
  rw [hclock] at hpast
  exact absurd hpast (by decide)

end TrainingPlatform.Session
