import TrainingPlatform.Go.Strings
import Mathlib.Data.Finmap

/-!
# The session engine

The Pods of the session namespace and the engine's operations on them.  A Pod
keeps the fields the engine reads.  Which learner asked for a Pod is not one of
them: `creator` records it beside the state.  Time is in nanoseconds, and an API
server that does not answer is an argument of each operation.
-/

namespace TrainingPlatform.Session

open Go

def managedByLabel : GoString := utf8 "app.kubernetes.io/managed-by"
def managedByValue : GoString := utf8 "training-platform"
def expiresAtLabel : GoString := utf8 "training.kalw/expires-at"
def idleExpiresAtLabel : GoString := utf8 "training.kalw/idle-expires-at"

abbrev Labels := Finmap fun _ : GoString => GoString

inductive PodPhase where
  | pending | running | succeeded | failed | unknown
  deriving DecidableEq

/-- `string(phase)`. -/
def phaseName : PodPhase → GoString
  | .pending => utf8 "Pending"
  | .running => utf8 "Running"
  | .succeeded => utf8 "Succeeded"
  | .failed => utf8 "Failed"
  | .unknown => utf8 "Unknown"

/-- `waiting` lists the reason and message of each container that is waiting. -/
structure Pod where
  labels : Labels
  phase : PodPhase
  podIP : GoString
  waiting : List (GoString × GoString)
  creator : Option GoString

abbrev Pods := AList fun _ : GoString => Pod

/-- Carries the platform's label. -/
def Pod.managed (p : Pod) : Bool := p.labels.lookup managedByLabel = some managedByValue

/-- Whether the API server answers reads and writes. -/
structure Api where
  reads : Bool
  writes : Bool

inductive ApiError where
  | notFound
  | other
  deriving DecidableEq

structure Engine where
  ttl : Int
  idleTTL : Int

/-! ## Expiry -/

/-- `Time.Unix`. -/
def unix (t : Int) : Int := t / 1000000000

/-- `fmt.Sprintf("%d", n)`. -/
def sprintd (n : Int) : GoString := utf8 (toString n)

def isDigit (b : UInt8) : Bool := 0x30 ≤ b && b ≤ 0x39

/-- `fmt.Sscanf(s, "%d", &n)` into a zero `int64`, which an error leaves zero.  A
label value has no spaces to skip. -/
def sscand (s : GoString) : Int :=
  let neg := s.head? = some 0x2D
  let digits := (if neg || s.head? = some 0x2B then s.tail else s).takeWhile isDigit
  let n : Int := digits.foldl (fun n b => 10 * n + (b.toNat - 0x30)) 0
  let v := if neg then -n else n
  if digits = [] then 0
  else if -(2 ^ 63) ≤ v && v < 2 ^ 63 then v
  else 0

def label (labels : Labels) (key : GoString) : GoString := (labels.lookup key).getD []

/-- The sooner of the hard cap and the idle window. -/
def effectiveExpiry (labels : Labels) : Int :=
  let hard := sscand (label labels expiresAtLabel)
  let idle := sscand (label labels idleExpiresAtLabel)
  if hard = 0 then idle
  else if idle = 0 then hard
  else if idle < hard then idle
  else hard

/-! ## Status -/

def fatalReasons : List GoString :=
  ["ErrImagePull", "ImagePullBackOff", "InvalidImageName", "CreateContainerConfigError",
    "CreateContainerError", "CrashLoopBackOff"].map utf8

def fatalPodReason (p : Pod) : GoString :=
  match p.phase with
  | .failed => utf8 "pod Failed"
  | .succeeded => utf8 "pod Succeeded"
  | _ =>
    match p.waiting.find? fun w => w.1 ∈ fatalReasons with
    | some w => w.1 ++ utf8 ": " ++ w.2
    | none => []

structure PodStatus where
  name : GoString
  phase : PodPhase
  ready : Bool
  reason : GoString
  ip : GoString
  expiresAt : Int

def getPod (api : Api) (pods : Pods) (name : GoString) : Except ApiError Pod :=
  if api.reads then
    match pods.lookup name with
    | none => .error .notFound
    | some p => .ok p
  else .error .other

/-- `Status` looks a Pod up by name alone. -/
def status (api : Api) (pods : Pods) (name : GoString) : Except ApiError PodStatus :=
  match getPod api pods name with
  | .error e => .error e
  | .ok p => .ok
    { name := name
      phase := p.phase
      ready := p.phase = .running && p.podIP ≠ []
      reason := fatalPodReason p
      ip := p.podIP
      expiresAt := effectiveExpiry p.labels }

/-! ## Keepalive, deletion and collection -/

def Pod.setLabel (p : Pod) (key value : GoString) : Pod :=
  { p with labels := p.labels.insert key value }

/-- Slides the idle window forward. -/
def extend (eng : Engine) (api : Api) (now : Int) (pods : Pods) (name : GoString) :
    Except ApiError Int × Pods :=
  match getPod api pods name with
  | .error e => (.error e, pods)
  | .ok p =>
    if eng.idleTTL ≤ 0 then (.ok (effectiveExpiry p.labels), pods)
    else
      let idle := sprintd (unix (now + eng.idleTTL))
      if api.writes then
        let labels : Labels := (Finmap.insert expiresAtLabel (label p.labels expiresAtLabel) ∅).insert
          idleExpiresAtLabel idle
        (.ok (effectiveExpiry labels), pods.insert name (p.setLabel idleExpiresAtLabel idle))
      else (.error .other, pods)

/-- A Pod that is not there counts as deleted. -/
def deletePod (api : Api) (pods : Pods) (name : GoString) : Option ApiError × Pods :=
  if api.writes then (none, pods.erase name) else (some .other, pods)

/-- Past either deadline. -/
def Pod.expired (p : Pod) (now : Int) : Bool :=
  effectiveExpiry p.labels ≠ 0 && effectiveExpiry p.labels < unix now

/-- The names of the listed Pods that have expired. -/
def expiredPods (pods : Pods) (now : Int) : List GoString :=
  pods.keys.filter fun name =>
    match pods.lookup name with
    | none => false
    | some p => p.managed && p.expired now

def gcExpiredPods (api : Api) (now : Int) (pods : Pods) : Pods :=
  if api.reads && api.writes then
    (expiredPods pods now).foldl (fun pods name => pods.erase name) pods
  else pods

/-! ## Creation -/

def instanceLabels (eng : Engine) (now : Int) : Labels :=
  let labels : Labels := (Finmap.insert managedByLabel managedByValue ∅).insert expiresAtLabel
    (sprintd (unix (now + eng.ttl)))
  if 0 < eng.idleTTL then
    labels.insert idleExpiresAtLabel (sprintd (unix (now + eng.idleTTL)))
  else labels

/-- The `Create` call of `NewEphemeralInstance`; a name in use is an error. -/
def createInstance (eng : Engine) (api : Api) (now : Int) (pods : Pods) (name : GoString)
    (creator : GoString) : Option Pods :=
  if api.writes && (pods.lookup name).isNone then
    some (pods.insert name ⟨instanceLabels eng now, .pending, [], [], some creator⟩)
  else none

/-- One round of `waitForReady`: an address, a reason to give up, or neither. -/
inductive Wait where
  | ready (ip : GoString)
  | failed
  | again

def waitForReady (api : Api) (timeout : Bool) (pods : Pods) (name : GoString) : Wait :=
  match getPod api pods name with
  | .error _ => .failed
  | .ok p =>
    if fatalPodReason p ≠ [] then .failed
    else if p.phase = .running && p.podIP ≠ [] then .ready p.podIP
    else if timeout then .failed
    else .again

/-! ## What the operations do to one Pod -/

variable {pods : Pods} {name n : GoString} {p : Pod} {api : Api} {now : Int} {eng : Engine}

theorem getPod_eq_ok : getPod api pods name = .ok p ↔ api.reads = true ∧ pods.lookup name = some p := by
  unfold getPod
  by_cases hr : api.reads = true
  · rw [if_pos hr]
    cases pods.lookup name <;> simp [hr]
  · simp [hr]

/-- A Pod that is up answers with its address. -/
theorem status_of_getPod (h : getPod api pods name = .ok p) :
    ∃ st, status api pods name = .ok st ∧ st.ip = p.podIP ∧
      (st.ready = true ↔ p.phase = .running ∧ p.podIP ≠ []) := by
  refine ⟨_, by rw [status, h], rfl, ?_⟩
  simp

theorem lookup_foldl_erase (names : List GoString) (pods : Pods) (n : GoString) :
    (names.foldl (fun pods name => pods.erase name) pods).lookup n =
      if n ∈ names then none else pods.lookup n := by
  induction names generalizing pods with
  | nil => simp
  | cons m names ih =>
    rw [List.foldl_cons, ih]
    by_cases hn : n = m
    · subst hn
      simp [AList.lookup_erase]
    · have hne : (pods.erase m).lookup n = pods.lookup n := AList.lookup_erase_ne hn
      rw [hne]
      simp [hn]

/-- A collection leaves the Pods without the label alone. -/
theorem lookup_gcExpiredPods (h : pods.lookup n = some p) (hp : p.managed = false) :
    (gcExpiredPods api now pods).lookup n = some p := by
  unfold gcExpiredPods
  split
  · have hnot : n ∉ expiredPods pods now := by
      intro hmem
      have hsel := (List.mem_filter.mp hmem).2
      simp [h, hp] at hsel
    rw [lookup_foldl_erase, if_neg hnot, h]
  · exact h

theorem lookup_deletePod (h : pods.lookup n = some p) :
    (deletePod api pods name).2.lookup n = some p ↔ ¬ (api.writes = true ∧ n = name) := by
  unfold deletePod
  by_cases hw : api.writes = true
  · rw [if_pos hw]
    by_cases hn : n = name
    · subst hn
      simp [AList.lookup_erase, hw]
    · have hne : (pods.erase name).lookup n = pods.lookup n := AList.lookup_erase_ne hn
      simp [hne, h, hn]
  · simp [hw, h]

theorem setLabel_eq_self {key value : GoString} :
    p.setLabel key value = p ↔ p.labels.lookup key = some value := by
  constructor
  · intro h
    have hlabels : p.labels.insert key value = p.labels := congrArg Pod.labels h
    rw [← hlabels, Finmap.lookup_insert]
  · intro h
    have hlabels : p.labels.insert key value = p.labels := by
      apply Finmap.ext_lookup
      intro k
      by_cases hk : k = key
      · rw [hk, Finmap.lookup_insert, h]
      · rw [Finmap.lookup_insert_of_ne _ hk]
    unfold Pod.setLabel
    rw [hlabels]

/-- The value a keepalive writes. -/
def idleDeadline (eng : Engine) (now : Int) : GoString := sprintd (unix (now + eng.idleTTL))

/-- A keepalive relabels the Pod it names, whoever it belongs to. -/
theorem lookup_extend (h : pods.lookup n = some p) :
    (extend eng api now pods name).2.lookup n = some p ↔
      ¬ (api.reads = true ∧ api.writes = true ∧ 0 < eng.idleTTL ∧ n = name ∧
        p.labels.lookup idleExpiresAtLabel ≠ some (idleDeadline eng now)) := by
  rw [ne_eq, ← setLabel_eq_self]
  unfold extend getPod
  by_cases hr : api.reads = true
  · rw [if_pos hr]
    cases hname : pods.lookup name with
    | none =>
      have hne : n ≠ name := by
        intro heq
        subst heq
        rw [h] at hname
        contradiction
      simp [h, hne]
    | some q =>
      by_cases ht : eng.idleTTL ≤ 0
      · have hnot : ¬ 0 < eng.idleTTL := by omega
        simp [ht, h, hnot]
      · have hpos : 0 < eng.idleTTL := by omega
        by_cases hw : api.writes = true
        · by_cases hn : n = name
          · subst hn
            rw [h, Option.some.injEq] at hname
            subst hname
            simp [ht, hw, hr, hpos, AList.lookup_insert, idleDeadline]
          · have hne : (pods.insert name (q.setLabel idleExpiresAtLabel
                (sprintd (unix (now + eng.idleTTL))))).lookup n = pods.lookup n :=
              AList.lookup_insert_ne hn
            simp [ht, hw, hne, h, hn]
        · simp [ht, hw, h]
  · simp [hr, h]

theorem lookup_createInstance {pods' : Pods} {creator : GoString}
    (h : createInstance eng api now pods name creator = some pods') :
    pods.lookup name = none ∧ pods'.lookup n =
      if n = name then some ⟨instanceLabels eng now, .pending, [], [], some creator⟩
      else pods.lookup n := by
  unfold createInstance at h
  split at h
  · next hc =>
    cases h
    rw [Bool.and_eq_true, Option.isNone_iff_eq_none] at hc
    refine ⟨hc.2, ?_⟩
    by_cases hn : n = name
    · subst hn
      rw [if_pos rfl, AList.lookup_insert]
    · rw [if_neg hn, AList.lookup_insert_ne hn]
  · cases h

/-- A Pod that the engine has created carries the label. -/
theorem managed_of_instanceLabels (h : p.labels = instanceLabels eng now) : p.managed = true := by
  have h₁ : managedByLabel ≠ expiresAtLabel := by decide
  have h₂ : managedByLabel ≠ idleExpiresAtLabel := by decide
  have hlabel : (instanceLabels eng now).lookup managedByLabel = some managedByValue := by
    unfold instanceLabels
    split
    · rw [Finmap.lookup_insert_of_ne _ h₂, Finmap.lookup_insert_of_ne _ h₁, Finmap.lookup_insert]
    · rw [Finmap.lookup_insert_of_ne _ h₁, Finmap.lookup_insert]
  rw [Pod.managed, h, hlabel]
  exact decide_eq_true rfl

/-- A relabelled Pod keeps its owner and its label. -/
theorem managed_setLabel_idle (value : GoString) :
    (p.setLabel idleExpiresAtLabel value).managed = p.managed := by
  have h : managedByLabel ≠ idleExpiresAtLabel := by decide
  unfold Pod.managed Pod.setLabel
  rw [Finmap.lookup_insert_of_ne _ h]

end TrainingPlatform.Session
