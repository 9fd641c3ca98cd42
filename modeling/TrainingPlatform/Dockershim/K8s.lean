import TrainingPlatform.Go.Text
import TrainingPlatform.Go.Utf8
import Mathlib.Data.Finmap

/-!
# Docker containers as Pods

The shim's tables and the Pods of its namespace, which other parties also use.  A Pod
records beside its fields the docker name the shim created it for.  `crypto/sha1` with
`hex.EncodeToString` is an argument.
-/

namespace TrainingPlatform.Dockershim

open Go

structure CreateContainerRequest where
  image : GoString
  cmd : List GoString
  entrypoint : List GoString
  tty : Bool
  openStdin : Bool
  env : List GoString
  privileged : Bool
  endpointsConfig : List GoString

structure ExecEntry where
  containerID : GoString
  cmd : List GoString
  tty : Bool

/-- `createdFor` is the docker name of the start request that created the Pod, and `none`
for a Pod of another party. -/
structure Pod where
  managedBy : GoString
  image : GoString
  command : List GoString
  tty : Bool
  stdin : Bool
  env : List (GoString × GoString)
  privileged : Bool
  podIP : GoString
  createdFor : Option GoString

abbrev Pods := AList fun _ : GoString => Pod

/-- A `map[string]bool` that holds no `false` is the set of its keys. -/
structure Shim where
  pending : AList fun _ : GoString => CreateContainerRequest
  created : Finset GoString
  podName : AList fun _ : GoString => GoString
  execs : AList fun _ : GoString => ExecEntry
  netMembers : AList fun _ : GoString => Finset GoString

/-- The tables of `newShim`. -/
def newShim : Shim := ⟨∅, ∅, ∅, ∅, ∅⟩

/-! ## Names -/

/-- What the loop writes for a rune of the lowered name.  Two runes that are not ASCII
have a lower case that is: U+0130 and U+212A. -/
def podNameByte : Rune → UInt8
  | .valid [b] =>
    if 0x41 ≤ b && b ≤ 0x5A then b + 0x20
    else if (0x61 ≤ b && b ≤ 0x7A) || (0x30 ≤ b && b ≤ 0x39) || b = 0x2D then b
    else 0x2D
  | .valid bs =>
    if bs = [0xC4, 0xB0] then 0x69
    else if bs = [0xE2, 0x84, 0xAA] then 0x6B
    else 0x2D
  | .invalid _ => 0x2D

variable (sha1Hex : GoString → GoString)

def sanitizeK8sName (name : GoString) : GoString :=
  let out := trim [0x2D] ((toRunes name).map podNameByte)
  let out := if out = [] then utf8 "c" else out
  if 63 < out.length then
    let suffix := 0x2D :: (sha1Hex name).take 8
    out.take (63 - suffix.length) ++ suffix
  else out

/-- The name and the table that caches it. -/
def k8sPodName (s : Shim) (dockerName : GoString) : GoString × Shim :=
  match s.podName.lookup dockerName with
  | some n => (n, s)
  | none =>
    let n := sanitizeK8sName sha1Hex dockerName
    (n, { s with podName := s.podName.insert dockerName n })

/-! ## Pods -/

/-- The `Create` and `Delete`, `Get`, log, exec and attach calls the API server takes. -/
structure Api where
  reads : Bool
  writes : Bool

/-- A line of the environment up to its first `=`. -/
def envFromDockerFormat (env : List GoString) : List (GoString × GoString) :=
  env.filterMap fun kv =>
    if kv.contains 0x3D then
      some (kv.takeWhile (· ≠ 0x3D), (kv.dropWhile (· ≠ 0x3D)).drop 1)
    else none

def podFor (dockerName : GoString) (spec : CreateContainerRequest) : Pod :=
  { managedBy := utf8 "docker-k8s-shim-poc"
    image := spec.image
    command := spec.entrypoint ++ spec.cmd
    tty := spec.tty
    stdin := spec.openStdin
    env := envFromDockerFormat spec.env
    privileged := spec.privileged
    podIP := []
    createdFor := some dockerName }

def addMembers (members : AList fun _ : GoString => Finset GoString) (dockerName : GoString)
    (nets : List GoString) : AList fun _ : GoString => Finset GoString :=
  if nets = [] then members
  else members.insert dockerName ((members.lookup dockerName).getD ∅ ∪ nets.toFinset)

/-- `false` is the error of a name that was never created, or of the `Create` call: a
name in use is one. -/
def startContainer (api : Api) (s : Shim) (pods : Pods) (dockerName : GoString) :
    Bool × Shim × Pods :=
  match s.pending.lookup dockerName with
  | none => (false, s, pods)
  | some spec =>
    let (podName, s) := k8sPodName sha1Hex s dockerName
    if api.writes && (pods.lookup podName).isNone then
      (true,
        { s with
          created := insert dockerName s.created
          netMembers := addMembers s.netMembers dockerName spec.endpointsConfig },
        pods.insert podName (podFor dockerName spec))
    else (false, s, pods)

def isManaged (s : Shim) (dockerName : GoString) : Bool := dockerName ∈ s.created

/-- A Pod that is not there counts as deleted. -/
def deletePod (api : Api) (s : Shim) (pods : Pods) (dockerName : GoString) :
    Bool × Shim × Pods :=
  let (podName, s) := k8sPodName sha1Hex s dockerName
  if api.writes then (true, s, pods.erase podName) else (false, s, pods)

def getPod (api : Api) (s : Shim) (pods : Pods) (dockerName : GoString) : Option Pod × Shim :=
  let (podName, s) := k8sPodName sha1Hex s dockerName
  (if api.reads then pods.lookup podName else none, s)

def networkConnect (s : Shim) (dockerName networkName : GoString) : Shim :=
  { s with netMembers := addMembers s.netMembers dockerName [networkName] }

end TrainingPlatform.Dockershim
