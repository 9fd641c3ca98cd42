import TrainingPlatform.Dockershim.K8s
import TrainingPlatform.Runs

/-!
# The Docker shim's requests

The handlers of the container and exec requests, in any order, between which other
parties create and delete Pods of the same namespace.  Each handler also says which
Pods it has used, by the names it gave the API server.
-/

namespace TrainingPlatform.Dockershim

open Go

/-- Whether the API server answers, whether the connection can be hijacked, and the
identifier `uuid.NewString` returns. -/
structure Env where
  api : Api
  hijacks : Bool
  uuid : GoString

/-- A request behind the mux: the docker name and action of its path, and its body,
`none` where it does not decode. -/
inductive Request where
  | create (name : GoString) (body : Option CreateContainerRequest)
  | container (id action : GoString) (cmd : Option (List GoString × Bool))
  | remove (id : GoString)
  | execStart (execID : GoString) (tty : Bool)
  | networkConnect (networkName container : GoString)

/-- How a request uses a Pod. -/
inductive Use where
  | create | delete | get | logs | exec | attach
  deriving DecidableEq

structure Access where
  use : Use
  podName : GoString

/-- What a handler leaves: its status, the tables, the Pods, and the Pods it used. -/
structure Outcome where
  status : Nat
  shim : Shim
  pods : Pods
  accesses : List Access

/-- The `Id` of a create request's response. -/
def containerID (env : Env) (name : GoString) : GoString :=
  if name = [] then utf8 "pwd-poc-" ++ env.uuid.take 8 else name

variable (sha1Hex : GoString → GoString)

def handleContainerCreate (env : Env) (s : Shim) (pods : Pods) (name : GoString) :
    Option CreateContainerRequest → Outcome
  | none => ⟨400, s, pods, []⟩
  | some req =>
    let id := if name = [] then utf8 "pwd-poc-" ++ env.uuid.take 8 else name
    ⟨201, { s with pending := s.pending.insert id req }, pods, []⟩

def handleContainerStart (env : Env) (s : Shim) (pods : Pods) (id : GoString) : Outcome :=
  match startContainer sha1Hex env.api s pods id with
  | (true, s, pods) => ⟨204, s, pods, [⟨.create, (k8sPodName sha1Hex s id).1⟩]⟩
  | (false, s, pods) => ⟨500, s, pods, []⟩

/-- The Pod that `waitForIP` gives up on has no address yet. -/
def handleContainerInspect (env : Env) (s : Shim) (pods : Pods) (id : GoString) : Outcome :=
  if isManaged s id then
    let podName := (k8sPodName sha1Hex s id).1
    match getPod sha1Hex env.api s pods id with
    | (none, s) => ⟨if env.api.reads then 404 else 500, s, pods, []⟩
    | (some p, s) => ⟨if p.podIP = [] then 500 else 200, s, pods, [⟨.get, podName⟩]⟩
  else ⟨200, s, pods, []⟩

def handleContainerStop (env : Env) (s : Shim) (pods : Pods) (id : GoString) : Outcome :=
  let access : Access := ⟨.delete, (k8sPodName sha1Hex s id).1⟩
  match deletePod sha1Hex env.api s pods id with
  | (true, s, pods) => ⟨204, s, pods, [access]⟩
  | (false, s, pods) => ⟨500, s, pods, []⟩

def handleContainerRemove (env : Env) (s : Shim) (pods : Pods) (id : GoString) : Outcome :=
  let access : Access := ⟨.delete, (k8sPodName sha1Hex s id).1⟩
  match deletePod sha1Hex env.api s pods id with
  | (true, s, pods) =>
    ⟨204, { s with pending := s.pending.erase id, created := s.created.erase id }, pods, [access]⟩
  | (false, s, pods) => ⟨500, s, pods, []⟩

/-- The log stream is opened on a Pod that `getPod` has found. -/
def handleContainerLogs (env : Env) (s : Shim) (pods : Pods) (id : GoString) : Outcome :=
  let podName := (k8sPodName sha1Hex s id).1
  match getPod sha1Hex env.api s pods id with
  | (none, s) => ⟨500, s, pods, []⟩
  | (some _, s) => ⟨200, s, pods, [⟨.get, podName⟩, ⟨.logs, podName⟩]⟩

def handleExecCreate (env : Env) (s : Shim) (pods : Pods) (containerID : GoString) :
    Option (List GoString × Bool) → Outcome
  | none => ⟨400, s, pods, []⟩
  | some (cmd, tty) =>
    ⟨201, { s with execs := s.execs.insert env.uuid ⟨containerID, cmd, tty⟩ }, pods, []⟩

/-- The response is written before the stream to the Pod is opened. -/
def handleContainerAttach (env : Env) (s : Shim) (pods : Pods) (id : GoString) : Outcome :=
  if env.hijacks then
    let (podName, s) := k8sPodName sha1Hex s id
    ⟨101, s, pods, if env.api.writes then [⟨.attach, podName⟩] else []⟩
  else ⟨500, s, pods, []⟩

def handleContainersPrefix (env : Env) (s : Shim) (pods : Pods) (id action : GoString)
    (cmd : Option (List GoString × Bool)) : Outcome :=
  if action = utf8 "json" then handleContainerInspect sha1Hex env s pods id
  else if action = utf8 "start" then handleContainerStart sha1Hex env s pods id
  else if action = utf8 "stop" ∨ action = utf8 "kill" then handleContainerStop sha1Hex env s pods id
  else if action = utf8 "logs" then handleContainerLogs sha1Hex env s pods id
  else if action = utf8 "exec" then handleExecCreate env s pods id cmd
  else if action = utf8 "attach" then handleContainerAttach sha1Hex env s pods id
  else if action = utf8 "resize" then ⟨200, s, pods, []⟩
  else ⟨404, s, pods, []⟩

def handleExecStart (env : Env) (s : Shim) (pods : Pods) (execID : GoString) : Outcome :=
  match s.execs.lookup execID with
  | none => ⟨404, s, pods, []⟩
  | some entry =>
    if env.hijacks then
      let (podName, s) := k8sPodName sha1Hex s entry.containerID
      ⟨101, s, pods, if env.api.writes then [⟨.exec, podName⟩] else []⟩
    else ⟨500, s, pods, []⟩

def handle (env : Env) (s : Shim) (pods : Pods) : Request → Outcome
  | .create name body => handleContainerCreate env s pods name body
  | .container id action cmd => handleContainersPrefix sha1Hex env s pods id action cmd
  | .remove id => handleContainerRemove sha1Hex env s pods id
  | .execStart execID _ => handleExecStart sha1Hex env s pods execID
  | .networkConnect networkName container =>
    ⟨200, Dockershim.networkConnect s container networkName, pods, []⟩

/-! ## Runs -/

structure System where
  shim : Shim
  pods : Pods

inductive Event where
  | request (env : Env) (r : Request)
  /-- Another party creates or deletes a Pod. -/
  | put (name : GoString) (p : Pod)
  | drop (name : GoString)
  /-- The kubelet gives a Pod its address. -/
  | assign (name podIP : GoString)

def step (y : System) : Event → Option System
  | .request env r =>
    let out := handle sha1Hex env y.shim y.pods r
    some ⟨out.shim, out.pods⟩
  | .put name p =>
    if (y.pods.lookup name).isNone then
      some { y with pods := y.pods.insert name { p with createdFor := none } }
    else none
  | .drop name => some { y with pods := y.pods.erase name }
  | .assign name podIP =>
    (y.pods.lookup name).map fun p => { y with pods := y.pods.insert name { p with podIP := podIP } }

/-- A shim that has just started, in an empty namespace. -/
def boot : System := ⟨newShim, ∅⟩

/-- The actions on a container that stands already. -/
def standingActions : List GoString := ["stop", "kill", "logs", "attach"].map utf8

/-- The docker name of a request that is for a container that stands already. -/
def Request.standing (s : Shim) : Request → Option GoString
  | .container id action _ => if standingActions.contains action then some id else none
  | .remove id => some id
  | .execStart execID _ => (s.execs.lookup execID).map ExecEntry.containerID
  | .create _ _ | .networkConnect _ _ => none

/-- The docker name of a start, stop, kill, remove, exec, attach or logs request. -/
def Request.dockerName (s : Shim) : Request → Option GoString
  | .container id action cmd =>
    if action = utf8 "start" ∨ action = utf8 "exec" then some id
    else Request.standing s (.container id action cmd)
  | r => r.standing s

/-- A request for a docker name uses and changes only Pods the shim created for it. -/
def KeepsToOwn (y : System) : Event → Prop
  | .request env r => ∀ n, r.dockerName y.shim = some n →
    let out := handle sha1Hex env y.shim y.pods r
    (∀ a ∈ out.accesses, ∀ p, y.pods.lookup a.podName = some p → p.createdFor = some n) ∧
      ∀ k, out.pods.lookup k ≠ y.pods.lookup k →
        (∀ p, y.pods.lookup k = some p → p.createdFor = some n) ∧
          ∀ p, out.pods.lookup k = some p → p.createdFor = some n
  | .put _ _ | .drop _ | .assign _ _ => True

/-- No other docker name with a container goes by the Pod name of the requested one, and
no Pod of another party stands under it. -/
def Unshared (y : System) : Event → Prop
  | .request _ r => ∀ n ∈ r.standing y.shim,
    (∀ m ∈ y.shim.created, sanitizeK8sName sha1Hex m = sanitizeK8sName sha1Hex n → m = n) ∧
      ∀ p ∈ y.pods.lookup (sanitizeK8sName sha1Hex n), p.createdFor.isSome = true
  | .put _ _ | .drop _ | .assign _ _ => True

/-! ## What one request does -/

variable {sha1Hex} {s : Shim} {pods : Pods} {env : Env} {id n : GoString} {y y' : System}

/-- The cache holds what the translation computes. -/
def Cached (sha1Hex : GoString → GoString) (s : Shim) : Prop :=
  ∀ n k, s.podName.lookup n = some k → k = sanitizeK8sName sha1Hex n

theorem k8sPodName_fst (h : Cached sha1Hex s) :
    (k8sPodName sha1Hex s n).1 = sanitizeK8sName sha1Hex n := by
  unfold k8sPodName
  cases hn : s.podName.lookup n with
  | none => rfl
  | some k => exact h n k hn

theorem cached_k8sPodName (h : Cached sha1Hex s) : Cached sha1Hex (k8sPodName sha1Hex s n).2 := by
  unfold k8sPodName
  cases hn : s.podName.lookup n with
  | some k => exact h
  | none =>
    intro m k hm
    by_cases heq : m = n
    · subst heq
      rw [AList.lookup_insert, Option.some.injEq] at hm
      exact hm.symm
    · exact h m k ((AList.lookup_insert_ne heq).symm.trans hm)

theorem created_k8sPodName : (k8sPodName sha1Hex s n).2.created = s.created := by
  unfold k8sPodName
  split <;> rfl

theorem pending_k8sPodName : (k8sPodName sha1Hex s n).2.pending = s.pending := by
  unfold k8sPodName
  split <;> rfl

/-- What a handler leaves of the Pods and of the table of containers. -/
inductive Effect (sha1Hex : GoString → GoString) (s : Shim) (pods : Pods) (r : Request)
    (out : Outcome) : Prop where
  | keeps : out.pods = pods → out.shim.created = s.created → Effect sha1Hex s pods r out
  | creates (n : GoString) (spec : CreateContainerRequest) : r.dockerName s = some n →
    pods.lookup (sanitizeK8sName sha1Hex n) = none →
    out.pods = pods.insert (sanitizeK8sName sha1Hex n) (podFor n spec) →
    out.shim.created = insert n s.created → Effect sha1Hex s pods r out
  | deletes (n : GoString) : r.standing s = some n → r.dockerName s = some n →
    out.pods = pods.erase (sanitizeK8sName sha1Hex n) →
    (out.shim.created = s.created ∨ out.shim.created = s.created.erase n) →
    Effect sha1Hex s pods r out

/-- What is known of a handler's outcome: its cache, its effect, and that the Pods it used
go by the name of its docker name, where it found none if it is not for a standing
container. -/
structure Handled (sha1Hex : GoString → GoString) (s : Shim) (pods : Pods) (r : Request)
    (out : Outcome) : Prop where
  cached : Cached sha1Hex out.shim
  effect : Effect sha1Hex s pods r out
  accesses : ∀ n, r.dockerName s = some n → ∀ a ∈ out.accesses,
    a.podName = sanitizeK8sName sha1Hex n ∧
      (r.standing s = some n ∨ pods.lookup (sanitizeK8sName sha1Hex n) = none)

variable {r : Request}

/-- A handler that uses no Pod and creates and deletes none. -/
theorem handled_quiet {s' : Shim} {status : Nat} (hc : Cached sha1Hex s')
    (hcreated : s'.created = s.created) :
    Handled sha1Hex s pods r ⟨status, s', pods, []⟩ :=
  ⟨hc, .keeps rfl hcreated, fun _ _ _ ha => (List.not_mem_nil ha).elim⟩

/-- A handler that uses the Pod of a standing container and leaves it. -/
theorem handled_uses {status : Nat} {accesses : List Access} (hc : Cached sha1Hex s)
    (hn : r.standing s = some id) (hname : r.dockerName s = some id)
    (ha : ∀ a ∈ accesses, a.podName = (k8sPodName sha1Hex s id).1) :
    Handled sha1Hex s pods r ⟨status, (k8sPodName sha1Hex s id).2, pods, accesses⟩ := by
  refine ⟨cached_k8sPodName hc, .keeps rfl created_k8sPodName, fun n hdn a hmem => ?_⟩
  rw [hname, Option.some.injEq] at hdn
  subst hdn
  exact ⟨(ha a hmem).trans (k8sPodName_fst hc), .inl hn⟩

theorem handled_start (hc : Cached sha1Hex s) (hname : r.dockerName s = some id) :
    Handled sha1Hex s pods r (handleContainerStart sha1Hex env s pods id) := by
  unfold handleContainerStart startContainer
  cases hp : s.pending.lookup id with
  | none => exact handled_quiet hc rfl
  | some spec =>
    have hfst := k8sPodName_fst (n := id) hc
    have hcached := cached_k8sPodName (n := id) hc
    by_cases hfree : (env.api.writes && (pods.lookup (k8sPodName sha1Hex s id).1).isNone) = true
    · simp only [hfree, if_true]
      rw [Bool.and_eq_true, Option.isNone_iff_eq_none, hfst] at hfree
      refine ⟨hcached, ?_, ?_⟩
      · refine .creates id spec hname hfree.2 ?_ ?_
        · rw [← hfst]
        · exact congrArg (insert id) created_k8sPodName
      · intro n hdn a ha
        rw [hname, Option.some.injEq] at hdn
        subst hdn
        rw [List.mem_singleton] at ha
        subst ha
        exact ⟨k8sPodName_fst hcached, .inr hfree.2⟩
    · simp only [hfree]
      exact handled_quiet hcached created_k8sPodName

theorem handled_stop (hc : Cached sha1Hex s) (hn : r.standing s = some id)
    (hname : r.dockerName s = some id) :
    Handled sha1Hex s pods r (handleContainerStop sha1Hex env s pods id) := by
  unfold handleContainerStop deletePod
  have hfst := k8sPodName_fst (n := id) hc
  cases env.api.writes
  · exact handled_quiet (cached_k8sPodName hc) created_k8sPodName
  · refine ⟨cached_k8sPodName hc, .deletes id hn hname ?_ (.inl created_k8sPodName), ?_⟩
    · exact congrArg (pods.erase ·) hfst
    · intro n hdn a ha
      rw [hname, Option.some.injEq] at hdn
      subst hdn
      cases ha with
      | head => exact ⟨hfst, .inl hn⟩
      | tail _ ha => exact (List.not_mem_nil ha).elim

theorem handled_remove (hc : Cached sha1Hex s) (hn : r.standing s = some id)
    (hname : r.dockerName s = some id) :
    Handled sha1Hex s pods r (handleContainerRemove sha1Hex env s pods id) := by
  unfold handleContainerRemove deletePod
  have hfst := k8sPodName_fst (n := id) hc
  cases env.api.writes
  · exact handled_quiet (cached_k8sPodName hc) created_k8sPodName
  · refine ⟨cached_k8sPodName hc, .deletes id hn hname ?_ (.inr ?_), ?_⟩
    · exact congrArg (pods.erase ·) hfst
    · exact congrArg (Finset.erase · id) created_k8sPodName
    · intro n hdn a ha
      rw [hname, Option.some.injEq] at hdn
      subst hdn
      cases ha with
      | head => exact ⟨hfst, .inl hn⟩
      | tail _ ha => exact (List.not_mem_nil ha).elim

theorem handled_logs (hc : Cached sha1Hex s) (hn : r.standing s = some id)
    (hname : r.dockerName s = some id) :
    Handled sha1Hex s pods r (handleContainerLogs sha1Hex env s pods id) := by
  unfold handleContainerLogs getPod
  dsimp only
  cases (if env.api.reads then pods.lookup (k8sPodName sha1Hex s id).1 else none) with
  | none => exact handled_quiet (cached_k8sPodName hc) created_k8sPodName
  | some p => exact handled_uses hc hn hname (by simp)

theorem handled_attach (hc : Cached sha1Hex s) (hn : r.standing s = some id)
    (hname : r.dockerName s = some id) :
    Handled sha1Hex s pods r (handleContainerAttach sha1Hex env s pods id) := by
  unfold handleContainerAttach
  cases env.hijacks
  · exact handled_quiet hc rfl
  · refine handled_uses hc hn hname fun a ha => ?_
    rw [List.mem_ite_nil_right, List.mem_singleton] at ha
    exact congrArg Access.podName ha.2

theorem handled_execStart {execID : GoString} {tty : Bool} (hc : Cached sha1Hex s) :
    Handled sha1Hex s pods (.execStart execID tty) (handleExecStart sha1Hex env s pods execID) := by
  unfold handleExecStart
  cases he : s.execs.lookup execID with
  | none => exact handled_quiet hc rfl
  | some entry =>
    have hname : (Request.execStart execID tty).standing s = some entry.containerID := by
      rw [Request.standing, he, Option.map_some]
    cases env.hijacks
    · exact handled_quiet hc rfl
    · refine handled_uses hc hname hname fun a ha => ?_
      rw [List.mem_ite_nil_right, List.mem_singleton] at ha
      exact congrArg Access.podName ha.2

/-- An inspection is for no docker name of the frame. -/
theorem handled_inspect (hc : Cached sha1Hex s) (hname : r.dockerName s = none) :
    Handled sha1Hex s pods r (handleContainerInspect sha1Hex env s pods id) := by
  have hfree : ∀ status accesses, Handled sha1Hex s pods r
      ⟨status, (k8sPodName sha1Hex s id).2, pods, accesses⟩ :=
    fun status accesses => ⟨cached_k8sPodName hc, .keeps rfl created_k8sPodName,
      fun n hdn => by rw [hname] at hdn; cases hdn⟩
  unfold handleContainerInspect getPod
  cases isManaged s id
  · exact handled_quiet hc rfl
  · dsimp only
    rw [if_pos rfl]
    cases (if env.api.reads then pods.lookup (k8sPodName sha1Hex s id).1 else none) with
    | none => exact hfree _ _
    | some p => exact hfree _ _

/-- Every request, by its action. -/
theorem handled (hc : Cached sha1Hex s) :
    Handled sha1Hex s pods r (handle sha1Hex env s pods r) := by
  cases r with
  | create name body =>
    cases body with
    | none => exact handled_quiet hc rfl
    | some req => exact handled_quiet hc rfl
  | remove id => exact handled_remove hc rfl rfl
  | execStart execID tty => exact handled_execStart hc
  | networkConnect networkName container => exact handled_quiet hc rfl
  | container id action cmd =>
    rw [handle, handleContainersPrefix]
    split_ifs with hjson hstart hstop hlogs hexec hattach hresize
    · subst hjson
      exact handled_inspect hc rfl
    · exact handled_start hc (if_pos (.inl hstart))
    · rcases hstop with rfl | rfl
      · exact handled_stop hc rfl rfl
      · exact handled_stop hc rfl rfl
    · subst hlogs
      exact handled_logs hc rfl rfl
    · cases cmd with
      | none => exact handled_quiet hc rfl
      | some req => exact handled_quiet hc rfl
    · subst hattach
      exact handled_attach hc rfl rfl
    · exact handled_quiet hc rfl
    · exact handled_quiet hc rfl

/-! ## What one request writes -/

/-- What a handler leaves of the tables: they are as they were, or but for the cache, or it
has made one of its writes. -/
inductive Written (sha1Hex : GoString → GoString) (env : Env) (s : Shim) : Request → Shim → Prop
    where
  | nothing (r : Request) : Written sha1Hex env s r s
  | named (r : Request) (n : GoString) : Written sha1Hex env s r (k8sPodName sha1Hex s n).2
  | created (name : GoString) (req : CreateContainerRequest) :
    Written sha1Hex env s (.create name (some req))
      { s with pending := s.pending.insert (containerID env name) req }
  | started (n action : GoString) (cmd : Option (List GoString × Bool))
    (spec : CreateContainerRequest) :
    Written sha1Hex env s (.container n action cmd)
      { (k8sPodName sha1Hex s n).2 with
        created := insert n (k8sPodName sha1Hex s n).2.created
        netMembers := addMembers (k8sPodName sha1Hex s n).2.netMembers n spec.endpointsConfig }
  | removed (n : GoString) :
    Written sha1Hex env s (.remove n)
      { (k8sPodName sha1Hex s n).2 with
        pending := (k8sPodName sha1Hex s n).2.pending.erase n
        created := (k8sPodName sha1Hex s n).2.created.erase n }
  | exec (n action : GoString) (cmd : List GoString) (tty : Bool) :
    Written sha1Hex env s (.container n action (some (cmd, tty)))
      { s with execs := s.execs.insert env.uuid ⟨n, cmd, tty⟩ }
  | connected (networkName n : GoString) :
    Written sha1Hex env s (.networkConnect networkName n) (networkConnect s n networkName)

variable {action : GoString} {cmd : Option (List GoString × Bool)}

theorem written_start : Written sha1Hex env s (.container id action cmd)
    (handleContainerStart sha1Hex env s pods id).shim := by
  unfold handleContainerStart startContainer
  cases s.pending.lookup id with
  | none => exact .nothing _
  | some spec =>
    dsimp only
    cases env.api.writes && (pods.lookup (k8sPodName sha1Hex s id).1).isNone
    · exact .named _ id
    · exact .started id action cmd spec

theorem written_inspect :
    Written sha1Hex env s r (handleContainerInspect sha1Hex env s pods id).shim := by
  unfold handleContainerInspect getPod
  cases isManaged s id
  · exact .nothing r
  · dsimp only
    rw [if_pos rfl]
    cases (if env.api.reads then pods.lookup (k8sPodName sha1Hex s id).1 else none) with
    | none => exact .named r id
    | some p => exact .named r id

theorem written_stop :
    Written sha1Hex env s r (handleContainerStop sha1Hex env s pods id).shim := by
  unfold handleContainerStop deletePod
  cases env.api.writes
  · exact .named r id
  · exact .named r id

theorem written_remove :
    Written sha1Hex env s (.remove id) (handleContainerRemove sha1Hex env s pods id).shim := by
  unfold handleContainerRemove deletePod
  cases env.api.writes
  · exact .named _ id
  · exact .removed id

theorem written_logs :
    Written sha1Hex env s r (handleContainerLogs sha1Hex env s pods id).shim := by
  unfold handleContainerLogs getPod
  dsimp only
  cases (if env.api.reads then pods.lookup (k8sPodName sha1Hex s id).1 else none) with
  | none => exact .named r id
  | some p => exact .named r id

theorem written_attach :
    Written sha1Hex env s r (handleContainerAttach sha1Hex env s pods id).shim := by
  unfold handleContainerAttach
  cases env.hijacks
  · exact .nothing r
  · exact .named r id

theorem written_execStart {execID : GoString} :
    Written sha1Hex env s r (handleExecStart sha1Hex env s pods execID).shim := by
  unfold handleExecStart
  cases s.execs.lookup execID with
  | none => exact .nothing r
  | some entry =>
    cases env.hijacks
    · exact .nothing r
    · exact .named r entry.containerID

theorem written (r : Request) :
    Written sha1Hex env s r (handle sha1Hex env s pods r).shim := by
  cases r with
  | create name body =>
    cases body with
    | none => exact .nothing _
    | some req => exact .created name req
  | remove id => exact written_remove
  | execStart execID tty => exact written_execStart
  | networkConnect networkName container => exact .connected networkName container
  | container id action cmd =>
    rw [handle, handleContainersPrefix]
    split_ifs
    · exact written_inspect
    · exact written_start
    · exact written_stop
    · exact written_logs
    · cases cmd with
      | none => exact .nothing _
      | some cmd => exact .exec id action cmd.1 cmd.2
    · exact written_attach
    · exact .nothing _
    · exact .nothing _

/-! ## One step -/

/-- A Pod created for a docker name goes by its translation, and the name is in the table
of containers. -/
structure Owned (sha1Hex : GoString → GoString) (y : System) : Prop where
  cached : Cached sha1Hex y.shim
  owned : ∀ k p n, y.pods.lookup k = some p → p.createdFor = some n →
    k = sanitizeK8sName sha1Hex n ∧ n ∈ y.shim.created

theorem owned_boot : Owned sha1Hex boot :=
  ⟨fun _ _ h => (by cases h), fun _ _ _ h _ => (by cases h)⟩

theorem owned_request (h : Owned sha1Hex y) :
    Owned sha1Hex ⟨(handle sha1Hex env y.shim y.pods r).shim,
      (handle sha1Hex env y.shim y.pods r).pods⟩ := by
  have hh : Handled sha1Hex y.shim y.pods r (handle sha1Hex env y.shim y.pods r) := handled h.cached
  refine ⟨hh.cached, fun k p n hp hn => ?_⟩
  dsimp only at hp ⊢
  cases hh.effect with
  | keeps hpods hcreated =>
    rw [hpods] at hp
    rw [hcreated]
    exact h.owned k p n hp hn
  | creates m spec hm hfree hpods hcreated =>
    rw [hpods] at hp
    rw [hcreated]
    by_cases hk : k = sanitizeK8sName sha1Hex m
    · subst hk
      rw [AList.lookup_insert, Option.some.injEq] at hp
      subst hp
      cases hn
      exact ⟨rfl, Finset.mem_insert_self _ _⟩
    · rw [AList.lookup_insert_ne hk] at hp
      exact (h.owned k p n hp hn).imp id Finset.mem_insert_of_mem
  | deletes m hm hname hpods hcreated =>
    rw [hpods] at hp
    by_cases hk : k = sanitizeK8sName sha1Hex m
    · subst hk
      rw [AList.lookup_erase] at hp
      cases hp
    · rw [AList.lookup_erase_ne hk] at hp
      obtain ⟨hkn, hmem⟩ := h.owned k p n hp hn
      refine ⟨hkn, ?_⟩
      rcases hcreated with hcreated | hcreated
      · exact hcreated ▸ hmem
      · rw [hcreated, Finset.mem_erase]
        refine ⟨fun hnm => ?_, hmem⟩
        subst hnm
        exact hk hkn

theorem owned_step {e : Event} (h : Owned sha1Hex y) (hstep : step sha1Hex y e = some y') :
    Owned sha1Hex y' := by
  cases e with
  | request env r =>
    cases hstep
    exact owned_request h
  | put name p =>
    rw [step] at hstep
    split_ifs at hstep
    cases hstep
    refine ⟨h.cached, fun k q n hq hn => ?_⟩
    by_cases hk : k = name
    · subst hk
      rw [AList.lookup_insert, Option.some.injEq] at hq
      subst hq
      cases hn
    · exact h.owned k q n ((AList.lookup_insert_ne hk).symm.trans hq) hn
  | drop name =>
    cases hstep
    refine ⟨h.cached, fun k q n hq hn => ?_⟩
    by_cases hk : k = name
    · subst hk
      rw [AList.lookup_erase] at hq
      cases hq
    · exact h.owned k q n ((AList.lookup_erase_ne hk).symm.trans hq) hn
  | assign name podIP =>
    obtain ⟨p, hp, rfl⟩ := Option.map_eq_some_iff.mp hstep
    refine ⟨h.cached, fun k q n hq hn => ?_⟩
    by_cases hk : k = name
    · subst hk
      rw [AList.lookup_insert, Option.some.injEq] at hq
      subst hq
      exact h.owned k p n hp hn
    · exact h.owned k q n ((AList.lookup_insert_ne hk).symm.trans hq) hn

/-- The Pod of a name that no other container goes by is the one created for it. -/
theorem createdFor_of_unshared {p : Pod} (h : Owned sha1Hex y)
    (hcreated : ∀ m ∈ y.shim.created, sanitizeK8sName sha1Hex m = sanitizeK8sName sha1Hex n → m = n)
    (hp : y.pods.lookup (sanitizeK8sName sha1Hex n) = some p) (hsome : p.createdFor.isSome = true) :
    p.createdFor = some n := by
  obtain ⟨m, hm⟩ := Option.isSome_iff_exists.mp hsome
  obtain ⟨hname, hmem⟩ := h.owned _ p m hp hm
  rw [hm, hcreated m hmem hname.symm]

theorem keepsToOwn_of_unshared {e : Event} (h : Owned sha1Hex y) (hcond : Unshared sha1Hex y e) :
    KeepsToOwn sha1Hex y e := by
  cases e with
  | put | drop | assign => trivial
  | request env r =>
    intro n hname
    have hh : Handled sha1Hex y.shim y.pods r (handle sha1Hex env y.shim y.pods r) :=
      handled h.cached
    have hown : r.standing y.shim = some n → ∀ p,
        y.pods.lookup (sanitizeK8sName sha1Hex n) = some p → p.createdFor = some n := by
      intro hn p hp
      obtain ⟨hcreated, hforeign⟩ := hcond n hn
      exact createdFor_of_unshared h hcreated hp (hforeign p hp)
    constructor
    · intro a ha p hp
      obtain ⟨hpod, hn | hfree⟩ := hh.accesses n hname a ha
      · rw [hpod] at hp
        exact hown hn p hp
      · rw [hpod, hfree] at hp
        cases hp
    · intro k hchanged
      cases hh.effect with
      | keeps hpods _ => exact absurd (congrArg (AList.lookup k) hpods) hchanged
      | creates m spec hm hfree hpods _ =>
        rw [hname, Option.some.injEq] at hm
        subst hm
        rw [hpods] at hchanged ⊢
        have hk : k = sanitizeK8sName sha1Hex n := by
          by_contra hne
          exact hchanged (AList.lookup_insert_ne hne)
        subst hk
        constructor
        · intro p hp
          rw [hfree] at hp
          cases hp
        · intro p hp
          rw [AList.lookup_insert, Option.some.injEq] at hp
          subst hp
          rfl
      | deletes m hm hdm hpods _ =>
        rw [hname, Option.some.injEq] at hdm
        subst hdm
        rw [hpods] at hchanged ⊢
        have hk : k = sanitizeK8sName sha1Hex n := by
          by_contra hne
          exact hchanged (AList.lookup_erase_ne hne)
        subst hk
        constructor
        · exact hown hm
        · intro p hp
          rw [AList.lookup_erase] at hp
          cases hp

/-- In every run whose requests name no container by another's Pod name, no request uses or
changes a Pod but those the shim created for its docker name. -/
theorem keepsToOwn (sha1Hex : GoString → GoString) (es : List Event)
    (h : Runs.Each (step sha1Hex) (Unshared sha1Hex) boot es) :
    Runs.Each (step sha1Hex) (KeepsToOwn sha1Hex) boot es :=
  Runs.each_of_invariant (fun _ _ _ hy _ => owned_step hy) (fun _ _ => keepsToOwn_of_unshared)
    owned_boot h

/-! ## Two names for one Pod -/

def up : Env := ⟨⟨true, true⟩, true, utf8 "0f6d1c2e"⟩

def busybox : CreateContainerRequest := ⟨utf8 "busybox", [], [], true, true, [], false, []⟩

def containerRequest (id action : String) : Event :=
  .request up (.container (utf8 id) (utf8 action) none)

instance (y : System) (e : Event) : Decidable (Unshared sha1Hex y e) := by
  unfold Unshared
  split <;> infer_instance

/-- A container is started, attached to and stopped beside a Pod of the session engine. -/
def ownRun : List Event :=
  [.put (utf8 "i-0a") (podFor [] busybox), .request up (.create (utf8 "a_b") (some busybox)),
    containerRequest "a_b" "start", containerRequest "a_b" "attach", containerRequest "a_b" "stop"]

theorem keepsToOwn_ownRun :
    Runs.Each (step fun _ => []) (KeepsToOwn fun _ => []) boot ownRun :=
  keepsToOwn (fun _ => []) ownRun (by decide +kernel)

/-- The container of one name, and a stop request for the other. -/
def sharedRun : List Event :=
  [.request up (.create (utf8 "a_b") (some busybox)), containerRequest "a_b" "start"]

theorem not_keepsToOwn_sharedRun :
    ¬ Runs.Each (step fun _ => []) (KeepsToOwn fun _ => []) boot
      (sharedRun ++ [containerRequest "a-b" "stop"]) := by
  intro h
  have hshared : ∃ y ∈ Runs.run (step fun _ => []) boot sharedRun,
      ∃ p ∈ y.pods.lookup (utf8 "a-b"), p.createdFor = some (utf8 "a_b") ∧
        (handle (fun _ => []) up y.shim y.pods
          (.container (utf8 "a-b") (utf8 "stop") none)).pods.lookup (utf8 "a-b") = none := by
    decide +kernel
  obtain ⟨y, hrun, p, hp, howner, hgone⟩ := hshared
  have hkeeps := (h.of_append hrun).1 (utf8 "a-b") rfl
  have hmine := (hkeeps.2 (utf8 "a-b") (fun hsame => ?_)).1 p hp
  · rw [howner] at hmine
    revert hmine
    decide
  · rw [hgone, hp] at hsame
    cases hsame

end TrainingPlatform.Dockershim
