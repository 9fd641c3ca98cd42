import TrainingPlatform.Dockershim.Server

/-!
# The command a container runs

Docker and Kubernetes each override an image's entrypoint and command by what a request
sets of them.  The shim hands Docker's two lists to the Pod as its command alone.
-/

namespace TrainingPlatform.Dockershim

open Go

structure Image where
  entrypoint : List GoString
  cmd : List GoString

/-- What Docker runs for a create request. -/
def dockerArgv (image : Image) (req : CreateContainerRequest) : List GoString :=
  if req.entrypoint ≠ [] then req.entrypoint ++ req.cmd
  else if req.cmd ≠ [] then image.entrypoint ++ req.cmd
  else image.entrypoint ++ image.cmd

/-- What a Pod's container runs, by its command and its arguments. -/
def podArgv (image : Image) (command args : List GoString) : List GoString :=
  if command ≠ [] then command ++ args
  else if args ≠ [] then image.entrypoint ++ args
  else image.entrypoint ++ image.cmd

/-- The shim never sets a Pod's arguments. -/
def Pod.argv (p : Pod) (image : Image) : List GoString := podArgv image p.command []

def startRequest (id : GoString) : Request := .container id (utf8 "start") none

/-- The Pod the container `id` goes by runs what Docker would run for `req`. -/
def StartedAs (sha1Hex : GoString → GoString) (out : Outcome) (id : GoString) (image : Image)
    (req : CreateContainerRequest) : Prop :=
  ∃ p ∈ out.pods.lookup (k8sPodName sha1Hex out.shim id).1, p.argv image = dockerArgv image req

/-- An event that neither creates nor removes the container `id`. -/
def Event.leaves (id : GoString) : Event → Prop
  | .request env (.create name _) => containerID env name ≠ id
  | .request _ (.remove name) => name ≠ id
  | .request _ _ | .put _ _ | .drop _ | .assign _ _ => True

variable {sha1Hex : GoString → GoString} {s : Shim} {pods : Pods} {env : Env} {id : GoString}
  {y y' : System} {image : Image} {req : CreateContainerRequest}

/-! ## The two rules -/

/-- The translation changes the command of an image with an entrypoint when the request has
a command and no entrypoint, and of no other. -/
theorem argv_podFor_iff (id : GoString) :
    (podFor id req).argv image = dockerArgv image req ↔
      req.entrypoint ≠ [] ∨ req.cmd = [] ∨ image.entrypoint = [] := by
  change podArgv image (req.entrypoint ++ req.cmd) [] = _ ↔ _
  rw [podArgv, dockerArgv, List.append_nil]
  by_cases he : req.entrypoint = []
  · rw [he, List.nil_append]
    by_cases hc : req.cmd = []
    · simp [hc]
    · -- Docker puts the image's entrypoint before the command, the Pod runs it alone.
      rw [if_pos hc, if_neg (fun h => h rfl), if_pos hc]
      constructor
      · intro h
        exact .inr (.inr (List.self_eq_append_left.mp h))
      · intro h
        rw [(h.resolve_left fun h => h rfl).resolve_left hc, List.nil_append]
  · rw [if_pos (fun h => he (List.append_eq_nil_iff.mp h).1), if_pos he]
    exact iff_of_true rfl (.inl he)

/-! ## From the create request to the Pod -/

variable {action : GoString} {cmd : Option (List GoString × Bool)} {e : Event} {es : List Event}

/-- The name a container was given once is the name it goes by. -/
theorem k8sPodName_again {t : Shim} (h : t.podName = (k8sPodName sha1Hex s id).2.podName) :
    (k8sPodName sha1Hex t id).1 = (k8sPodName sha1Hex s id).1 := by
  have ht : t.podName.lookup id = some (k8sPodName sha1Hex s id).1 := by
    rw [h]
    unfold k8sPodName
    cases hn : s.podName.lookup id with
    | some n => exact hn
    | none => exact AList.lookup_insert s.podName
  rw [k8sPodName, ht]

/-- What a start request leaves: the Pod of the pending request, or nothing. -/
inductive Started (sha1Hex : GoString → GoString) (s : Shim) (id : GoString) (out : Outcome) :
    Prop where
  | refused : out.status = 500 → out.shim.pending = s.pending → Started sha1Hex s id out
  | created (spec : CreateContainerRequest) : s.pending.lookup id = some spec →
    out.shim.pending = s.pending →
    out.pods.lookup (k8sPodName sha1Hex out.shim id).1 = some (podFor id spec) →
    Started sha1Hex s id out

theorem started_handleContainerStart (sha1Hex : GoString → GoString) (env : Env) (s : Shim)
    (pods : Pods) (id : GoString) :
    Started sha1Hex s id (handleContainerStart sha1Hex env s pods id) := by
  unfold handleContainerStart startContainer
  cases hspec : s.pending.lookup id with
  | none => exact .refused rfl rfl
  | some spec =>
    dsimp only
    by_cases hfree : (env.api.writes && (pods.lookup (k8sPodName sha1Hex s id).1).isNone) = true
    · rw [if_pos hfree]
      refine .created spec hspec pending_k8sPodName ?_
      dsimp only
      rw [k8sPodName_again (by rfl)]
      exact AList.lookup_insert pods
    · rw [if_neg hfree]
      exact .refused rfl pending_k8sPodName

theorem Written.lookup_pending {s' : Shim} {r : Request} (h : Written sha1Hex env s r s')
    (hleaves : (Event.request env r).leaves id) :
    s'.pending.lookup id = s.pending.lookup id := by
  have hname : ∀ n, (k8sPodName sha1Hex s n).2.pending.lookup id = s.pending.lookup id :=
    fun _ => congrArg (AList.lookup id) pending_k8sPodName
  cases h with
  | nothing | exec | connected => rfl
  | named _ n => exact hname n
  | started n => exact hname n
  | created name req => exact AList.lookup_insert_ne (Ne.symm hleaves)
  | removed n => exact (AList.lookup_erase_ne (Ne.symm hleaves)).trans (hname n)

theorem lookup_pending_step (hleaves : e.leaves id) (h : step sha1Hex y e = some y') :
    y'.shim.pending.lookup id = y.shim.pending.lookup id := by
  cases e with
  | request env r =>
    cases h
    exact (written r).lookup_pending hleaves
  | put name p =>
    rw [step] at h
    split_ifs at h
    cases h
    rfl
  | drop name =>
    cases h
    rfl
  | assign name podIP =>
    obtain ⟨p, -, rfl⟩ := Option.map_eq_some_iff.mp h
    rfl

/-- A create request stands until the container is created again or removed. -/
theorem lookup_pending_run (hleaves : ∀ e ∈ es, e.leaves id)
    (h : Runs.run (step sha1Hex) y es = some y') :
    y'.shim.pending.lookup id = y.shim.pending.lookup id := by
  induction es generalizing y with
  | nil =>
    cases h
    rfl
  | cons e es ih =>
    obtain ⟨m, hm, hrest⟩ := Runs.run_cons_some.mp h
    rw [List.forall_mem_cons] at hleaves
    rw [ih hleaves.2 hrest, lookup_pending_step hleaves.1 hm]

/-- A container that starts runs what Docker would run for the create request it stands for,
whatever happened in between, exactly when the request has an entrypoint or no command, or
the image no entrypoint. -/
theorem startedAs_iff {name : GoString} {env' : Env}
    (hcreate : step sha1Hex y (.request env (.create name (some req))) = some y')
    {z : System} (hrun : Runs.run (step sha1Hex) y' es = some z)
    (hleaves : ∀ e ∈ es, e.leaves (containerID env name))
    (hstart : (handle sha1Hex env' z.shim z.pods (startRequest (containerID env name))).status =
      204) :
    StartedAs sha1Hex (handle sha1Hex env' z.shim z.pods (startRequest (containerID env name)))
        (containerID env name) image req ↔
      req.entrypoint ≠ [] ∨ req.cmd = [] ∨ image.entrypoint = [] := by
  have hreq : z.shim.pending.lookup (containerID env name) = some req := by
    rw [lookup_pending_run hleaves hrun]
    cases hcreate
    exact AList.lookup_insert y.shim.pending
  have hhandle : handle sha1Hex env' z.shim z.pods (startRequest (containerID env name)) =
      handleContainerStart sha1Hex env' z.shim z.pods (containerID env name) := by
    rfl
  rw [hhandle] at hstart ⊢
  cases started_handleContainerStart sha1Hex env' z.shim z.pods (containerID env name) with
  | refused h _ =>
    rw [h] at hstart
    cases hstart
  | created spec hspec _ hpod =>
    rw [hreq, Option.some.injEq] at hspec
    subst hspec
    rw [← argv_podFor_iff (containerID env name), StartedAs, hpod]
    simp

/-! ## An image with an entrypoint -/

def redis : Image := ⟨[utf8 "docker-entrypoint.sh"], [utf8 "redis-server"]⟩

def redisRequest (entrypoint cmd : List GoString) : CreateContainerRequest :=
  { busybox with image := utf8 "redis", entrypoint := entrypoint, cmd := cmd }

/-- The shim that has taken a create request under the name `r`. -/
def afterCreate (req : CreateContainerRequest) : System :=
  ⟨(handle (fun _ => []) up newShim ∅ (.create (utf8 "r") (some req))).shim, ∅⟩

def startOf (y : System) : Outcome :=
  handle (fun _ => []) up y.shim y.pods (startRequest (containerID up (utf8 "r")))

instance (out : Outcome) (id : GoString) (image : Image) (req : CreateContainerRequest) :
    Decidable (StartedAs sha1Hex out id image req) :=
  inferInstanceAs (Decidable (∃ p ∈ out.pods.lookup (k8sPodName sha1Hex out.shim id).1,
    p.argv image = dockerArgv image req))

def foreignPod : Event := .put (utf8 "i-0a") (podFor [] busybox)

/-- A request with an entrypoint and a command, between whose create and start another
party creates a Pod. -/
theorem startedAs_redis :
    ∃ z ∈ Runs.run (step fun _ => []) (afterCreate (redisRequest [utf8 "sh"] [utf8 "-c"]))
      [foreignPod],
      StartedAs (fun _ => []) (startOf z) (containerID up (utf8 "r")) redis
        (redisRequest [utf8 "sh"] [utf8 "-c"]) := by
  have hleaves : ∀ e ∈ [foreignPod], e.leaves (containerID up (utf8 "r")) := by
    intro e he
    rw [List.mem_singleton] at he
    subst he
    trivial
  refine ⟨_, rfl, (startedAs_iff (y := boot) rfl rfl hleaves ?_).mpr (.inl ?_)⟩
  · decide +kernel
  · exact List.cons_ne_nil _ _

/-- A command alone: Docker runs `docker-entrypoint.sh redis-cli`, the Pod `redis-cli`. -/
theorem not_startedAs_redis :
    (startOf (afterCreate (redisRequest [] [utf8 "redis-cli"]))).status = 204 ∧
      ¬ StartedAs (fun _ => []) (startOf (afterCreate (redisRequest [] [utf8 "redis-cli"])))
        (containerID up (utf8 "r")) redis (redisRequest [] [utf8 "redis-cli"]) := by
  decide +kernel

end TrainingPlatform.Dockershim
