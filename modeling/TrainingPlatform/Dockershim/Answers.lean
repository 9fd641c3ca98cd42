import TrainingPlatform.Dockershim.Argv
import TrainingPlatform.Dockershim.PodNames
import Mathlib.Data.Finset.Image

/-!
# What the shim answers

The responses of the requests, beside what they leave of the tables and the Pods.  The Pods'
phases and creation times, and the texts of errors from outside the shim, are arguments.
-/

namespace TrainingPlatform.Dockershim

open Go

/-- What the API server says of its Pods while a request is handled, and the text of the
error of a call that fails. -/
structure Report where
  phase : GoString → GoString
  creation : GoString → GoString
  failure : GoString

/-- The fields of `containerJSON` a handler sets; `image` goes out twice.  The networks are
the pairs of the map's keys and addresses. -/
structure ContainerJSON where
  id : GoString
  created : GoString
  name : GoString
  image : GoString
  status : GoString
  running : Bool
  tty : Bool
  ipAddress : GoString
  networks : Finset (GoString × GoString)
  deriving DecidableEq

/-- A response's body; `stream` is the hijacked connection, bridged to the Pod's process or
to a command beside it. -/
inductive Body where
  | empty
  | notFound
  | created (id : GoString)
  | container (c : ContainerJSON)
  | exec (id : GoString)
  | logs (podName : GoString) (tty : Bool)
  | stream (podName : GoString) (command : Option (List GoString × Bool))
  | message (text : GoString)
  deriving DecidableEq

structure Answer where
  status : Nat
  body : Body
  deriving DecidableEq

/-- A request, or the inspection of an exec, which leaves everything as it is. -/
inductive Call where
  | request (r : Request)
  | execInspect (execID : GoString)

/-- The networks the table has for a docker name. -/
def Shim.members (s : Shim) (dockerName : GoString) : Finset GoString :=
  (s.netMembers.lookup dockerName).getD ∅

variable (sha : Sha1)

def fakeIPFor (dockerName networkName : GoString) : GoString :=
  let sum := sha.sum (dockerName ++ utf8 "/" ++ networkName)
  utf8 "169.254." ++ itoa sum[0].toNat ++ utf8 "." ++ itoa sum[1].toNat

/-- `none` where an error is answered instead. -/
def inspectJSON (env : Env) (report : Report) (s : Shim) (pods : Pods) (id : GoString) :
    Option ContainerJSON :=
  if isManaged s id then
    let podName := (k8sPodName sha.hex s id).1
    match (getPod sha.hex env.api s pods id).1 with
    | none => none
    | some p =>
      if p.podIP = [] then none
      else
        some
          { id := id
            created := report.creation podName
            name := utf8 "/" ++ id
            image := p.image
            status := report.phase podName
            running := report.phase podName = utf8 "Running"
            tty := p.tty
            ipAddress := p.podIP
            networks := (s.members id).image fun net => (net, p.podIP) }
  else
    some
      { id := id
        created := []
        name := utf8 "/" ++ id
        image := []
        status := utf8 "running"
        running := true
        tty := false
        ipAddress := []
        networks := (s.members id).image fun net => (net, fakeIPFor sha id net) }

/-! ## Bodies

Each is chosen by the tests of the handler that writes it, on the tables and the Pods it
finds. -/

def createBody (env : Env) (report : Report) (name : GoString) :
    Option CreateContainerRequest → Body
  | none => .message report.failure
  | some _ => .created (containerID env name)

def startBody (env : Env) (report : Report) (s : Shim) (pods : Pods) (id : GoString) : Body :=
  if (s.pending.lookup id).isNone then .message (utf8 "no such container: " ++ id)
  else if (startContainer sha.hex env.api s pods id).1 then .empty
  else .message (utf8 "creating pod: " ++ report.failure)

def inspectBody (env : Env) (report : Report) (s : Shim) (pods : Pods) (id : GoString) : Body :=
  match inspectJSON sha env report s pods id with
  | some c => .container c
  | none => .message report.failure

/-- Of a stop and of a removal. -/
def deleteBody (env : Env) (report : Report) : Body :=
  if env.api.writes then .empty else .message report.failure

def logsBody (env : Env) (report : Report) (s : Shim) (pods : Pods) (id : GoString) : Body :=
  match (getPod sha.hex env.api s pods id).1 with
  | some p => .logs (k8sPodName sha.hex s id).1 p.tty
  | none => .message report.failure

def execCreateBody (env : Env) (report : Report) : Option (List GoString × Bool) → Body
  | none => .message report.failure
  | some _ => .created env.uuid

def streamBody (env : Env) (podName : GoString) (command : Option (List GoString × Bool)) :
    Body :=
  if env.hijacks then .stream podName command
  else .message (utf8 "connection does not support hijacking")

def containersBody (env : Env) (report : Report) (s : Shim) (pods : Pods) (id action : GoString)
    (cmd : Option (List GoString × Bool)) : Body :=
  if action = utf8 "json" then inspectBody sha env report s pods id
  else if action = utf8 "start" then startBody sha env report s pods id
  else if action = utf8 "stop" ∨ action = utf8 "kill" then deleteBody env report
  else if action = utf8 "logs" then logsBody sha env report s pods id
  else if action = utf8 "exec" then execCreateBody env report cmd
  else if action = utf8 "attach" then streamBody env (k8sPodName sha.hex s id).1 none
  else if action = utf8 "resize" then .empty
  else .notFound

/-- A terminal is asked for by the exec or by its start. -/
def execStartBody (env : Env) (s : Shim) (execID : GoString) (tty : Bool) : Body :=
  match s.execs.lookup execID with
  | none => .message (utf8 "no such exec")
  | some entry =>
    streamBody env (k8sPodName sha.hex s entry.containerID).1
      (some (entry.cmd, tty || entry.tty))

def body (env : Env) (report : Report) (s : Shim) (pods : Pods) : Request → Body
  | .create name req => createBody env report name req
  | .container id action cmd => containersBody sha env report s pods id action cmd
  | .remove _ => deleteBody env report
  | .execStart execID tty => execStartBody sha env s execID tty
  | .networkConnect _ _ => .empty

def handleExecInspect (s : Shim) (execID : GoString) : Answer :=
  match s.execs.lookup execID with
  | none => ⟨404, .message (utf8 "no such exec")⟩
  | some _ => ⟨200, .exec execID⟩

def answer (env : Env) (report : Report) (y : System) : Call → Answer
  | .request r =>
    ⟨(handle sha.hex env y.shim y.pods r).status, body sha env report y.shim y.pods r⟩
  | .execInspect execID => handleExecInspect y.shim execID

/-- The state a call leaves. -/
def next (env : Env) (y : System) : Call → System
  | .request r =>
    ⟨(handle sha.hex env y.shim y.pods r).shim, (handle sha.hex env y.shim y.pods r).pods⟩
  | .execInspect _ => y

/-! ## Errors -/

def Body.isError : Body → Bool
  | .message _ | .notFound => true
  | .empty | .created _ | .container _ | .exec _ | .logs _ _ | .stream _ _ => false

variable {sha} {env : Env} {report : Report} {s : Shim} {pods : Pods} {id : GoString}
  {y : System} {c : Call}

theorem isError_inspectBody :
    (inspectBody sha env report s pods id).isError =
      decide (400 ≤ (handleContainerInspect sha.hex env s pods id).status) := by
  unfold handleContainerInspect inspectBody inspectJSON getPod
  cases isManaged s id
  · rfl
  · simp only [if_true]
    cases hp : (if env.api.reads then pods.lookup (k8sPodName sha.hex s id).1 else none) with
    | none =>
      cases env.api.reads
      · rfl
      · rfl
    | some p =>
      dsimp only
      split_ifs
      · rfl
      · rfl

theorem isError_startBody :
    (startBody sha env report s pods id).isError =
      decide (400 ≤ (handleContainerStart sha.hex env s pods id).status) := by
  unfold handleContainerStart startBody
  cases hp : s.pending.lookup id with
  | none =>
    rw [startContainer, hp]
    rfl
  | some spec =>
    rw [Option.isNone_some, if_neg Bool.false_ne_true]
    obtain ⟨started, t, after⟩ := startContainer sha.hex env.api s pods id
    cases started
    · rfl
    · rfl

theorem isError_deleteBody_stop :
    (deleteBody env report).isError =
      decide (400 ≤ (handleContainerStop sha.hex env s pods id).status) := by
  unfold handleContainerStop deletePod deleteBody
  cases env.api.writes
  · rfl
  · rfl

theorem isError_deleteBody_remove :
    (deleteBody env report).isError =
      decide (400 ≤ (handleContainerRemove sha.hex env s pods id).status) := by
  unfold handleContainerRemove deletePod deleteBody
  cases env.api.writes
  · rfl
  · rfl

theorem isError_logsBody :
    (logsBody sha env report s pods id).isError =
      decide (400 ≤ (handleContainerLogs sha.hex env s pods id).status) := by
  rw [Bool.eq_iff_iff, decide_eq_true_iff]
  unfold handleContainerLogs logsBody getPod
  dsimp only
  cases (if env.api.reads then pods.lookup (k8sPodName sha.hex s id).1 else none) with
  | none =>
    dsimp only
    exact iff_of_true rfl (by decide)
  | some p =>
    dsimp only
    exact iff_of_false Bool.false_ne_true (by decide)

theorem isError_attachBody :
    (streamBody env (k8sPodName sha.hex s id).1 none).isError =
      decide (400 ≤ (handleContainerAttach sha.hex env s pods id).status) := by
  unfold handleContainerAttach streamBody
  cases env.hijacks
  · rfl
  · rfl

theorem isError_execStartBody {execID : GoString} {tty : Bool} :
    (execStartBody sha env s execID tty).isError =
      decide (400 ≤ (handleExecStart sha.hex env s pods execID).status) := by
  unfold handleExecStart execStartBody streamBody
  cases s.execs.lookup execID with
  | none => rfl
  | some entry =>
    cases env.hijacks
    · rfl
    · rfl

theorem isError_containersBody {action : GoString} {cmd : Option (List GoString × Bool)} :
    (containersBody sha env report s pods id action cmd).isError =
      decide (400 ≤ (handleContainersPrefix sha.hex env s pods id action cmd).status) := by
  unfold handleContainersPrefix containersBody
  split_ifs
  · exact isError_inspectBody
  · exact isError_startBody
  · exact isError_deleteBody_stop
  · exact isError_logsBody
  · cases cmd with
    | none => rfl
    | some cmd => rfl
  · exact isError_attachBody
  · rfl
  · rfl

/-- An answer is an error by its status exactly when it is one by its body. -/
theorem isError_answer :
    (answer sha env report y c).body.isError =
      decide (400 ≤ (answer sha env report y c).status) := by
  cases c with
  | execInspect execID =>
    rw [answer, handleExecInspect]
    cases y.shim.execs.lookup execID with
    | none => rfl
    | some entry => rfl
  | request r =>
    cases r with
    | create name req =>
      cases req with
      | none => rfl
      | some req => rfl
    | container id action cmd => exact isError_containersBody
    | remove id => exact isError_deleteBody_remove
    | execStart execID tty => exact isError_execStartBody
    | networkConnect networkName container => rfl

end TrainingPlatform.Dockershim
