import TrainingPlatform.Scoring.Http
import TrainingPlatform.Session.Engine

/-!
# The composed server

The sessions API, the pod fetcher and the scoring API over one store and one
session namespace.  A `POST /api/v1/sessions` is its `Create` call and then the
rounds of its wait, between which other requests are served; every other request
is one step.  The kubelet moves a Pod's status.
-/

namespace TrainingPlatform.Server

open Go Session Scoring

def slash : UInt8 := 0x2F

/-- `strings.Cut(s, "/")`. -/
def cut (s : GoString) : GoString × GoString :=
  (s.takeWhile (· ≠ slash), (s.dropWhile (· ≠ slash)).tail)

def isPodByte (b : UInt8) : Bool := (0x61 ≤ b && b ≤ 0x7A) || (0x30 ≤ b && b ≤ 0x39)

/-- `termPodRe.MatchString`. -/
def termPodRe : GoString → Bool
  | [] => false
  | b :: name => isPodByte b && name.all fun b => isPodByte b || b = 0x2D

/-! ## The pod fetcher -/

/-- What dialling an address and asking for a path on a port yields: the error of the
request, or a status code and what reading the body gives. -/
abbrev Net := GoString → Int → GoString → Except GoString (Int × Except GoString GoString)

def maxVerifyBody : Nat := 2 ^ 20

/-- The checks of `FetchPod`, and the address it dials. -/
def resolve (api : Api) (pods : Pods) (pod : GoString) (port : Int) : Except GoString GoString :=
  if !termPodRe pod then .error (utf8 "invalid pod name")
  else if port ≤ 0 || 65535 < port then .error (utf8 "invalid port")
  else
    match status api pods pod with
    | .error _ => .error (utf8 "no such session")
    | .ok st => if !st.ready || st.ip = [] then .error (utf8 "session not ready") else .ok st.ip

def fetchPod (net : Net) (api : Api) (pods : Pods) : PodFetcher := fun pod port path =>
  match resolve api pods pod port with
  | .error e => .error e
  | .ok ip =>
    match net ip port (if hasPrefix path [slash] then path else slash :: path) with
    | .error e => .error (utf8 "could not reach the page in your session: " ++ e)
    | .ok (_, .error e) => .error e
    | .ok (code, .ok body) => .ok (code, body.take maxVerifyBody)

/-! ## Requests -/

/-- A request to `/api/v1/sessions/{pod}` and what follows it. -/
structure SessionRequest where
  method : GoString
  path : GoString

def sessionsPrefix : GoString := utf8 "/api/v1/sessions/"

/-- The Pod and the action a path names. -/
def SessionRequest.target (r : SessionRequest) : GoString × GoString :=
  cut (if hasPrefix r.path sessionsPrefix then r.path.drop sessionsPrefix.length else r.path)

def methodGet : GoString := utf8 "GET"
def methodDelete : GoString := utf8 "DELETE"
def keepalive : GoString := utf8 "keepalive"

def statusBody (st : PodStatus) : Json.Value :=
  .obj [(utf8 "pod", .str st.name), (utf8 "phase", .str (phaseName st.phase)),
    (utf8 "ready", .bool st.ready), (utf8 "reason", .str st.reason), (utf8 "ip", .str st.ip),
    (utf8 "expires_at", .num (itoa st.expiresAt))]

def noSuchSession : Response := ⟨404, .text (utf8 "no such session\n")⟩

/-- The handler of `/api/v1/sessions/`. -/
def handleSession (eng : Engine) (api : Api) (now : Int) (pods : Pods) (r : SessionRequest) :
    Response × Pods :=
  let (pod, action) := r.target
  if !termPodRe pod then (⟨404, .text (utf8 "404 page not found\n")⟩, pods)
  else if action = keepalive && r.method = methodPost then
    match extend eng api now pods pod with
    | (.error .notFound, pods) => (noSuchSession, pods)
    | (.error .other, pods) => (⟨502, .text (utf8 "keepalive failed\n")⟩, pods)
    | (.ok exp, pods) =>
      (⟨200, .json (.obj [(utf8 "expires_at", .num (itoa exp)), (utf8 "pod", .str pod)])⟩, pods)
  else if action = [] && r.method = methodGet then
    match status api pods pod with
    | .error .notFound => (noSuchSession, pods)
    | .error .other => (⟨502, .text (utf8 "status failed\n")⟩, pods)
    | .ok st => (⟨200, .json (statusBody st)⟩, pods)
  else if action = [] && r.method = methodDelete then
    (⟨204, .text []⟩, (deletePod api pods pod).2)
  else (methodNotAllowed, pods)

/-! ## Steps -/

/-- The store, the session namespace, the POSTs that wait for their Pod, and, beside
the state, which user each created Pod's name went to. -/
structure Platform where
  store : Store
  pods : Pods
  waiting : List GoString
  sessions : List (GoString × GoString)

structure Config where
  eng : Engine
  regexp : Regexp

inductive Event where
  | create (r : Request) (suffix : GoString) (api : Api) (now : Int)
  | await (name : GoString) (api : Api) (timeout : Bool)
  | session (r : SessionRequest) (api : Api) (now : Int)
  | attempt (r : Request)
  | verify (r : Request) (api : Api) (net : Net)
  | gc (api : Api) (now : Int)
  | kubelet (name : GoString) (phase : PodPhase) (podIP : GoString)
      (waiting : List (GoString × GoString))

/-- The name of an ephemeral instance. -/
def instanceName (suffix : GoString) : GoString := utf8 "i-" ++ suffix

def step (cfg : Config) (w : Platform) : Event → Option Platform
  | .create r suffix api now =>
    if r.method ≠ methodPost then some w
    else
      match createInstance cfg.eng api now w.pods (instanceName suffix) r.user with
      | none => some w
      | some pods => some { w with
          pods := pods
          waiting := instanceName suffix :: w.waiting
          sessions := w.sessions ++ [(instanceName suffix, r.user)] }
  | .await name api timeout =>
    if w.waiting.contains name then
      match waitForReady api timeout w.pods name with
      | .ready _ => some { w with waiting := w.waiting.erase name }
      | .failed => some { w with
          pods := (deletePod api w.pods name).2
          waiting := w.waiting.erase name }
      | .again => some w
    else none
  | .session r api now => some { w with pods := (handleSession cfg.eng api now w.pods r).2 }
  | .attempt r => some { w with store := (handleAttempt w.store r).2 }
  | .verify r api net => some { w with
      store := (handleVerify cfg.regexp (some (fetchPod net api w.pods)) w.store r).2 }
  | .gc api now => some { w with pods := gcExpiredPods api now w.pods }
  | .kubelet name phase podIP waiting =>
    match w.pods.lookup name with
    | none => none
    | some p => some { w with
        pods := w.pods.insert name { p with phase := phase, podIP := podIP, waiting := waiting } }

/-- A server that has just started in a namespace. -/
def boot (store : Store) (pods : Pods) : Platform := ⟨store, pods, [], []⟩

/-! ## What a step can do -/

/-- The outcomes of a step: a creation is refused or adds a Pod; a wait is answered,
given up or goes on; every other step has one outcome. -/
inductive Effect (cfg : Config) (w : Platform) : Event → Platform → Prop where
  | refused {r : Request} {suffix : GoString} {api : Api} {now : Int} :
      Effect cfg w (.create r suffix api now) w
  | created {r : Request} {suffix : GoString} {api : Api} {now : Int} {pods : Pods}
      (hcreate : createInstance cfg.eng api now w.pods (instanceName suffix) r.user = some pods) :
      Effect cfg w (.create r suffix api now) { w with
        pods := pods
        waiting := instanceName suffix :: w.waiting
        sessions := w.sessions ++ [(instanceName suffix, r.user)] }
  | answered {name : GoString} {api : Api} {timeout : Bool} :
      Effect cfg w (.await name api timeout) { w with waiting := w.waiting.erase name }
  | abandoned {name : GoString} {api : Api} {timeout : Bool} (hname : name ∈ w.waiting) :
      Effect cfg w (.await name api timeout) { w with
        pods := (deletePod api w.pods name).2
        waiting := w.waiting.erase name }
  | again {name : GoString} {api : Api} {timeout : Bool} : Effect cfg w (.await name api timeout) w
  | session {r : SessionRequest} {api : Api} {now : Int} :
      Effect cfg w (.session r api now) { w with
        pods := (handleSession cfg.eng api now w.pods r).2 }
  | attempt {r : Request} :
      Effect cfg w (.attempt r) { w with store := (handleAttempt w.store r).2 }
  | verify {r : Request} {api : Api} {net : Net} :
      Effect cfg w (.verify r api net) { w with
        store := (handleVerify cfg.regexp (some (fetchPod net api w.pods)) w.store r).2 }
  | gc {api : Api} {now : Int} :
      Effect cfg w (.gc api now) { w with pods := gcExpiredPods api now w.pods }
  | kubelet {name podIP : GoString} {phase : PodPhase} {waiting : List (GoString × GoString)}
      {p : Pod} (hp : w.pods.lookup name = some p) :
      Effect cfg w (.kubelet name phase podIP waiting) { w with
        pods := w.pods.insert name { p with phase := phase, podIP := podIP, waiting := waiting } }

theorem effect_of_step {cfg : Config} {w w' : Platform} {e : Event} (h : step cfg w e = some w') :
    Effect cfg w e w' := by
  cases e with
  | create r suffix api now =>
    simp only [step] at h
    split at h
    · cases h
      exact .refused
    · split at h
      · cases h
        exact .refused
      · next hcreate =>
        cases h
        exact .created hcreate
  | await name api timeout =>
    simp only [step] at h
    split at h
    · next hname =>
      split at h
      · cases h
        exact .answered
      · cases h
        exact .abandoned (List.contains_iff_mem.mp hname)
      · cases h
        exact .again
    · cases h
  | session r api now =>
    cases h
    exact .session
  | attempt r =>
    cases h
    exact .attempt
  | verify r api net =>
    cases h
    exact .verify
  | gc api now =>
    cases h
    exact .gc
  | kubelet name phase podIP waiting =>
    simp only [step] at h
    split at h
    · cases h
    · next hp =>
      cases h
      exact .kubelet hp

/-! ## What a request does to the namespace -/

variable {cfg : Config} {w w' : Platform} {eng : Engine} {api : Api} {now : Int} {pods : Pods}
  {n : GoString} {p : Pod} {r : SessionRequest}

/-- A session request deletes or relabels the Pod it names. -/
def SessionRequest.Deletes (r : SessionRequest) : Prop :=
  r.target.2 = [] ∧ r.method = methodDelete

def SessionRequest.Relabels (r : SessionRequest) : Prop :=
  r.target.2 = keepalive ∧ r.method = methodPost

theorem handleSession_pods (eng : Engine) (api : Api) (now : Int) (pods : Pods)
    (r : SessionRequest) :
    (¬ (termPodRe r.target.1 = true ∧ (r.Deletes ∨ r.Relabels)) ∧
        (handleSession eng api now pods r).2 = pods) ∨
      (termPodRe r.target.1 = true ∧ r.Deletes ∧
        (handleSession eng api now pods r).2 = (deletePod api pods r.target.1).2) ∨
      (termPodRe r.target.1 = true ∧ r.Relabels ∧
        (handleSession eng api now pods r).2 = (extend eng api now pods r.target.1).2) := by
  have hpd : methodPost ≠ methodDelete := by decide
  have hgd : methodGet ≠ methodDelete := by decide
  have hkn : keepalive ≠ [] := by decide
  unfold handleSession SessionRequest.Deletes SessionRequest.Relabels
  obtain ⟨pod, action⟩ := r.target
  by_cases hname : termPodRe pod = true
  · simp only [hname, Bool.not_true, Bool.false_eq_true, if_false, true_and]
    by_cases hkeep : action = keepalive ∧ r.method = methodPost
    · right
      right
      refine ⟨hkeep, ?_⟩
      rw [if_pos (by simpa using hkeep)]
      split <;> simp_all
    · rw [if_neg (by simpa using hkeep)]
      by_cases hget : action = [] ∧ r.method = methodGet
      · left
        rw [if_pos (by simpa using hget)]
        refine ⟨?_, ?_⟩
        · intro hwrites
          rcases hwrites with ⟨-, hdel⟩ | ⟨hact, -⟩
          · exact hgd (hget.2.symm.trans hdel)
          · exact hkn (hact.symm.trans hget.1)
        · split <;> rfl
      · rw [if_neg (by simpa using hget)]
        by_cases hdel : action = [] ∧ r.method = methodDelete
        · right
          left
          exact ⟨hdel, by rw [if_pos (by simpa using hdel)]⟩
        · left
          rw [if_neg (by simpa using hdel)]
          exact ⟨fun h => h.elim hdel hkeep, rfl⟩
  · left
    simp only [hname, Bool.not_false, if_true]
    exact ⟨fun h => Bool.false_ne_true h.1, trivial⟩

/-- The fetcher reaches a page only through a running Pod of the name it is given. -/
theorem resolve_eq_ok {pod : GoString} {port : Int} {ip : GoString} :
    resolve api pods pod port = .ok ip ↔
      termPodRe pod = true ∧ 0 < port ∧ port ≤ 65535 ∧ api.reads = true ∧
        ∃ p, pods.lookup pod = some p ∧ p.phase = .running ∧ p.podIP ≠ [] ∧ p.podIP = ip := by
  by_cases hname : termPodRe pod = true
  · by_cases hport : 0 < port ∧ port ≤ 65535
    · have hlow : ¬ port ≤ 0 := by omega
      have hhigh : ¬ 65535 < port := by omega
      have hport' : ¬ (decide (port ≤ 0) || decide (65535 < port)) = true := by simp [hlow, hhigh]
      rw [resolve, if_neg (by simp [hname]), if_neg hport']
      cases hget : getPod api pods pod with
      | error e =>
        have hno : ¬ ∃ p, getPod api pods pod = .ok p := by simp [hget]
        have herr : status api pods pod = .error e := by rw [status, hget]
        rw [herr]
        refine iff_of_false (fun hok => by cases hok) ?_
        intro hfound
        obtain ⟨-, -, -, hr, p, hp, -⟩ := hfound
        exact hno ⟨p, getPod_eq_ok.mpr ⟨hr, hp⟩⟩
      | ok p =>
        obtain ⟨hr, hp⟩ := getPod_eq_ok.mp hget
        obtain ⟨st, hst, hip, hready⟩ := status_of_getPod hget
        rw [hst]
        by_cases hup : p.phase = .running ∧ p.podIP ≠ []
        · simp [hready.mpr hup, hip, hname, hport, hr, hp, hup]
        · have hnot : st.ready = false := by
            rw [← Bool.not_eq_true, hready]
            exact hup
          simp only [hnot, Bool.not_false, Bool.true_or, if_true, hp, Option.some.injEq]
          refine iff_of_false (fun hok => by cases hok) ?_
          intro hfound
          obtain ⟨-, -, -, -, q, rfl, hrun, hne, -⟩ := hfound
          exact hup ⟨hrun, hne⟩
    · have hport' : (decide (port ≤ 0) || decide (65535 < port)) = true := by
        rw [Bool.or_eq_true, decide_eq_true_eq, decide_eq_true_eq]
        omega
      rw [resolve, if_neg (by simp [hname]), if_pos hport']
      refine iff_of_false (fun hok => by cases hok) ?_
      intro hfound
      obtain ⟨-, hlow, hhigh, -⟩ := hfound
      exact hport ⟨hlow, hhigh⟩
  · rw [resolve, if_pos (by simpa using hname)]
    exact iff_of_false (fun hok => by cases hok) fun h => hname h.1

theorem resolve_of_fetchPod {net : Net} {pod path : GoString} {port : Int}
    {page : Int × GoString} (h : fetchPod net api pods pod port path = .ok page) :
    ∃ ip, resolve api pods pod port = .ok ip := by
  unfold fetchPod at h
  cases hres : resolve api pods pod port with
  | error e => simp [hres] at h
  | ok ip => exact ⟨ip, rfl⟩

end TrainingPlatform.Server
