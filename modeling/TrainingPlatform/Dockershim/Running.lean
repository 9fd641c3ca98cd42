import TrainingPlatform.Dockershim.Answers

/-!
# Containers reported as running

An inspection says of every name outside the table of started containers that it runs, and
of the others what the Pod under their Pod name does.
-/

namespace TrainingPlatform.Dockershim

open Go

/-- Whether a container stands after an event: a create request makes it, a removal that
succeeds unmakes it. -/
def Event.stands (id : GoString) (before : Bool) : Event → Bool
  | .request env (.create name (some _)) => if containerID env name = id then true else before
  | .request env (.remove name) => if name = id ∧ env.api.writes = true then false else before
  | .request _ _ | .put _ _ | .drop _ | .assign _ _ => before

def stands (id : GoString) (es : List Event) : Bool := es.foldl (Event.stands id) false

/-- The shim has created a Pod for the name, and it is in phase Running. -/
def RunsPod (report : Report) (pods : Pods) (id : GoString) : Prop :=
  ∃ k p, pods.lookup k = some p ∧ p.createdFor = some id ∧ report.phase k = utf8 "Running"

def inspectRequest (id : GoString) : Request := .container id (utf8 "json") none

variable (sha : Sha1)

/-- An inspection reports a container as running only if it is. -/
def Truthful (env : Env) (y : System) (id : GoString) : Prop :=
  ∀ report c, (answer sha env report y (.request (inspectRequest id))).body = .container c →
    c.running = true → RunsPod report y.pods id

/-- The container has been started, and where the API server answers, a Pod with an address
under its Pod name is the one the shim created for it. -/
def OwnPod (env : Env) (y : System) (id : GoString) : Prop :=
  id ∈ y.shim.created ∧
    (env.api.reads = true → ∀ p ∈ y.pods.lookup (sanitizeK8sName sha.hex id),
      p.podIP ≠ [] → p.createdFor = some id)

/-- `P` holds at every inspection of a run that is of a standing container. -/
def Inspections (P : Env → System → GoString → Prop) (es : List Event) : Prop :=
  ∀ pre env id post y, es = pre ++ .request env (inspectRequest id) :: post →
    Runs.run (step sha.hex) boot pre = some y → stands id pre = true → P env y id

variable {sha} {sha1Hex : GoString → GoString} {env : Env} {report : Report} {id : GoString}
  {y y' : System} {e : Event} {es : List Event}

/-! ## The containers that stand -/

theorem isSome_pending_step (h : step sha1Hex y e = some y') :
    (y'.shim.pending.lookup id).isSome = e.stands id (y.shim.pending.lookup id).isSome := by
  by_cases hleaves : e.leaves id
  · rw [lookup_pending_step hleaves h]
    cases e with
    | put name p => rfl
    | drop name => rfl
    | assign name podIP => rfl
    | request env r =>
      cases r with
      | container n action cmd => rfl
      | execStart execID tty => rfl
      | networkConnect networkName container => rfl
      | remove name => exact (if_neg fun hname => hleaves hname.1).symm
      | create name body =>
        cases body with
        | none => rfl
        | some req => exact (if_neg hleaves).symm
  · cases e with
    | put | drop | assign => exact absurd trivial hleaves
    | request env r =>
      cases h
      cases r with
      | container | execStart | networkConnect => exact absurd trivial hleaves
      | remove name =>
        obtain rfl : name = id := not_not.mp hleaves
        change ((handleContainerRemove sha1Hex env y.shim y.pods name).shim.pending.lookup
          name).isSome = if name = name ∧ env.api.writes = true then false else _
        unfold handleContainerRemove deletePod
        cases env.api.writes
        · rw [if_neg (fun h => Bool.false_ne_true h.2)]
          exact congrArg (fun t => (AList.lookup name t).isSome) pending_k8sPodName
        · rw [if_pos ⟨rfl, rfl⟩]
          exact congrArg Option.isSome (AList.lookup_erase _ _)
      | create name body =>
        obtain rfl : containerID env name = id := not_not.mp hleaves
        cases body with
        | none => rfl
        | some req =>
          rw [Event.stands, if_pos rfl]
          exact congrArg Option.isSome (AList.lookup_insert y.shim.pending)

/-- The table of pending requests holds the containers that stand. -/
theorem isSome_pending_run (h : Runs.run (step sha1Hex) y es = some y') :
    (y'.shim.pending.lookup id).isSome =
      es.foldl (Event.stands id) (y.shim.pending.lookup id).isSome := by
  induction es generalizing y with
  | nil =>
    cases h
    rfl
  | cons e es ih =>
    obtain ⟨m, hm, hrest⟩ := Runs.run_cons_some.mp h
    rw [ih hrest, isSome_pending_step hm, List.foldl_cons]

theorem stands_eq (h : Runs.run (step sha1Hex) boot es = some y) :
    stands id es = (y.shim.pending.lookup id).isSome := by
  exact (isSome_pending_run h).symm

/-! ## One inspection -/

theorem body_inspectRequest {c : ContainerJSON} :
    (answer sha env report y (.request (inspectRequest id))).body = .container c ↔
      inspectJSON sha env report y.shim y.pods id = some c := by
  change inspectBody sha env report y.shim y.pods id = .container c ↔ _
  unfold inspectBody
  cases inspectJSON sha env report y.shim y.pods id with
  | none => simp
  | some d => simp

/-- A name outside the table of started containers is reported as running, in the networks
the table of networks has for it. -/
theorem inspectJSON_of_notMem (sha : Sha1) (env : Env) (report : Report)
    (h : id ∉ y.shim.created) :
    ∃ c, inspectJSON sha env report y.shim y.pods id = some c ∧ c.running = true ∧
      c.networks = (y.shim.members id).image fun net => (net, fakeIPFor sha id net) := by
  unfold inspectJSON isManaged
  rw [if_neg (by simpa using h)]
  exact ⟨_, rfl, rfl, rfl⟩

/-- A started container is reported by the phase of the Pod under its Pod name. -/
theorem running_inspectJSON_iff (env : Env) (hcached : Cached sha.hex y.shim) (h : id ∈ y.shim.created) :
    (∃ c, inspectJSON sha env report y.shim y.pods id = some c ∧ c.running = true) ↔
      env.api.reads = true ∧ ∃ p ∈ y.pods.lookup (sanitizeK8sName sha.hex id), p.podIP ≠ [] ∧
        report.phase (sanitizeK8sName sha.hex id) = utf8 "Running" := by
  unfold inspectJSON isManaged getPod
  rw [if_pos (by simpa using h)]
  dsimp only
  rw [k8sPodName_fst hcached]
  cases env.api.reads
  · simp
  · simp only [if_true, true_and]
    cases y.pods.lookup (sanitizeK8sName sha.hex id) with
    | none => simp
    | some p =>
      by_cases hip : p.podIP = []
      · simp [hip]
      · simp [hip]

theorem truthful_iff_ownPod (hy : Owned sha.hex y) :
    Truthful sha env y id ↔ OwnPod sha env y id := by
  simp only [Truthful, body_inspectRequest]
  constructor
  · intro htruthful
    have hcreated : id ∈ y.shim.created := by
      by_contra hnot
      -- No Pod is in phase Running, and the answer says that the container runs.
      obtain ⟨c, hc, hrunning, -⟩ :=
        inspectJSON_of_notMem sha env ⟨fun _ => [], fun _ => [], []⟩ hnot
      obtain ⟨k, p, -, -, hphase⟩ := htruthful _ c hc hrunning
      exact absurd (show ([] : GoString) = utf8 "Running" from hphase) (by decide)
    refine ⟨hcreated, fun hreads p hp hip => ?_⟩
    -- The Pod under the container's Pod name is the one Pod in phase Running.
    let report : Report :=
      ⟨fun k => if k = sanitizeK8sName sha.hex id then utf8 "Running" else [], fun _ => [], []⟩
    have hphase : report.phase (sanitizeK8sName sha.hex id) = utf8 "Running" := if_pos rfl
    obtain ⟨c, hc, hrunning⟩ := (running_inspectJSON_iff env hy.cached hcreated).mpr
      ⟨hreads, p, hp, hip, hphase⟩
    obtain ⟨k, q, hq, hown, hk⟩ := htruthful report c hc hrunning
    have hname : k = sanitizeK8sName sha.hex id := by
      by_contra hne
      rw [show report.phase k = [] from if_neg hne] at hk
      exact absurd hk (by decide)
    subst hname
    rw [Option.mem_def.mp hp, Option.some.injEq] at hq
    exact hq ▸ hown
  · rintro ⟨hcreated, hown⟩ report c hc hrunning
    obtain ⟨hreads, p, hp, hip, hphase⟩ :=
      (running_inspectJSON_iff env hy.cached hcreated).mp ⟨c, hc, hrunning⟩
    exact ⟨_, p, hp, hown hreads p hp hip, hphase⟩

/-- Along a run, every inspection of a standing container reports it as running only if the
shim's Pod for it does run, exactly when each of these containers has been started and no
other Pod with an address stands under its Pod name. -/
theorem inspections_truthful_iff (sha : Sha1) (es : List Event) :
    Inspections sha (Truthful sha) es ↔ Inspections sha (OwnPod sha) es := by
  refine forall_congr' fun pre => forall_congr' fun env => forall_congr' fun id =>
    forall_congr' fun post => forall_congr' fun y => ?_
  refine imp_congr_right fun _ => imp_congr_right fun hrun => imp_congr_right fun _ => ?_
  exact truthful_iff_ownPod (Runs.run_invariant (fun _ _ _ h => owned_step h) owned_boot hrun)

/-- A started container whose Pod name no other container has, nor a Pod of another party. -/
theorem ownPod_of_unshared (hy : Owned sha.hex y) (hstarted : id ∈ y.shim.created)
    (hname : ∀ m ∈ y.shim.created,
      sanitizeK8sName sha.hex m = sanitizeK8sName sha.hex id → m = id)
    (hforeign : ∀ p ∈ y.pods.lookup (sanitizeK8sName sha.hex id), p.createdFor.isSome = true) :
    OwnPod sha env y id :=
  ⟨hstarted, fun _ p hp _ => createdFor_of_unshared hy hname hp (hforeign p hp)⟩

/-! ## A container that is never started -/

def noSum : Sha1 := ⟨fun _ => Vector.replicate 20 0⟩

/-- The container's create request is followed by its inspection. -/
def neverStarted : List Event :=
  [.request up (.create (utf8 "web") (some busybox)), .request up (inspectRequest (utf8 "web"))]

/-- The inspection says that the container is running, and there is no Pod. -/
theorem not_inspections_truthful_neverStarted :
    ¬ Inspections noSum (Truthful noSum) neverStarted := by
  intro h
  let created : System :=
    ⟨(handle noSum.hex up newShim ∅ (.create (utf8 "web") (some busybox))).shim, ∅⟩
  have htruthful : Truthful noSum up created (utf8 "web") :=
    h [.request up (.create (utf8 "web") (some busybox))] up (utf8 "web") [] created rfl rfl
      (by decide +kernel)
  have hnot : utf8 "web" ∉ created.shim.created := by decide +kernel
  obtain ⟨c, hc, hrunning, -⟩ :=
    inspectJSON_of_notMem noSum up ⟨fun _ => utf8 "Running", fun _ => [], []⟩ hnot
  obtain ⟨k, p, hp, -, -⟩ := htruthful _ c (body_inspectRequest.mpr hc) hrunning
  exact absurd hp (by simp [created])

end TrainingPlatform.Dockershim
