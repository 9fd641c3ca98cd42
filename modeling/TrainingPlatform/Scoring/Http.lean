import TrainingPlatform.Runs
import TrainingPlatform.Go.Json
import TrainingPlatform.Scoring.Store

/-!
# The scoring API

The handlers of the challenge endpoints.  A request carries what they read: its
method, its body and the user `userIDFunc` makes of it.  The regular expressions
and the pod fetcher are arguments.
-/

namespace TrainingPlatform.Scoring

open Go

/-- A response body: what `writeJSON` encodes, or the text of `http.Error`. -/
inductive Body where
  | json (v : Json.Value)
  | text (s : GoString)

structure Response where
  status : Nat
  body : Body

structure Request where
  method : GoString
  body : GoString
  user : GoString

structure AttemptRequest where
  challengeHash : GoString
  submission : GoString
  deriving DecidableEq

structure VerifyRequest where
  challengeHash : GoString
  pod : GoString
  deriving DecidableEq

def AttemptRequest.set (r : AttemptRequest) (key : GoString) (v : Json.Value) :
    Option AttemptRequest :=
  if key = utf8 "CHALLENGE_HASH" then Json.setString r (fun s => { r with challengeHash := s }) v
  else if key = utf8 "SUBMISSION" then Json.setString r (fun s => { r with submission := s }) v
  else some r

def VerifyRequest.set (r : VerifyRequest) (key : GoString) (v : Json.Value) :
    Option VerifyRequest :=
  if key = utf8 "CHALLENGE_HASH" then Json.setString r (fun s => { r with challengeHash := s }) v
  else if key = utf8 "POD" then Json.setString r (fun s => { r with pod := s }) v
  else some r

def decodeAttempt (body : GoString) : Option AttemptRequest :=
  (Json.parseFirst Json.start body).bind (Json.decodeStruct AttemptRequest.set ⟨[], []⟩)

def decodeVerify (body : GoString) : Option VerifyRequest :=
  (Json.parseFirst Json.start body).bind (Json.decodeStruct VerifyRequest.set ⟨[], []⟩)

/-- `FetchPod`: the text of an error, or the status and the body of the page. -/
abbrev PodFetcher := GoString → Int → GoString → Except GoString (Int × GoString)

def methodPost : GoString := utf8 "POST"
def statusOK : Int := 200

/-! ## Responses -/

def failure : Json.Value := .obj [(utf8 "success", .bool false)]

def failureWith (msg : String) : Json.Value :=
  .obj [(utf8 "error", .str (utf8 msg)), (utf8 "success", .bool false)]

def success (data : Json.Value) : Json.Value :=
  .obj [(utf8 "data", data), (utf8 "success", .bool true)]

def verdict (status : String) (more : List (GoString × Json.Value)) : Json.Value :=
  success (.obj (more ++ [(utf8 "status", .str (utf8 status))]))

def methodNotAllowed : Response := ⟨405, .text (utf8 "method not allowed\n")⟩

/-- A challenge as a client sees it. -/
def pub (c : Challenge) : Json.Value :=
  .obj [(utf8 "hash", .str c.hash), (utf8 "name", .str c.name), (utf8 "value", .num (itoa c.value))]

/-! ## Handlers -/

/-- `GET /api/v1/challenges`, given the order in which `List` ranges over the map. -/
def handleList (list : List Challenge) : Response :=
  ⟨200, .json (success (.arr (list.map pub)))⟩

def isHexDigit (b : UInt8) : Bool :=
  (0x30 ≤ b && b ≤ 0x39) || (0x61 ≤ b && b ≤ 0x66) || (0x41 ≤ b && b ≤ 0x46)

def hashPrefix : GoString := utf8 "/api/v1/challenges/hash/"

/-- `hashPathRe.FindStringSubmatch`. -/
def hashOfPath (path : GoString) : Option GoString :=
  let hash := path.drop hashPrefix.length
  if hasPrefix path hashPrefix && hash ≠ [] && hash.all isHexDigit then some hash else none

/-- `GET /api/v1/challenges/hash/{hash}`. -/
def handleHash (s : Store) (path : GoString) : Response :=
  match hashOfPath path with
  | none => ⟨404, .text (utf8 "404 page not found\n")⟩
  | some hash =>
    match s.get hash with
    | none => ⟨404, .json failure⟩
    | some c => ⟨200, .json (success (pub c))⟩

/-- `POST /api/v1/challenges/attempt`. -/
def handleAttempt (s : Store) (r : Request) : Response × Store :=
  if r.method ≠ methodPost then (methodNotAllowed, s)
  else
    match decodeAttempt r.body with
    | none => (⟨400, .json failure⟩, s)
    | some req =>
      let g := s.grade req.challengeHash req.submission r.user
      if !g.known then (⟨404, .json failure⟩, g.store)
      else (⟨200, .json (verdict (if g.correct then "correct" else "incorrect") [])⟩, g.store)

/-- `POST /api/v1/challenges/verify`.  Without a fetcher there is no cluster. -/
def handleVerify (regexp : Regexp) (fetcher : Option PodFetcher) (s : Store) (r : Request) :
    Response × Store :=
  if r.method ≠ methodPost then (methodNotAllowed, s)
  else
    match fetcher with
    | none => (⟨503, .json (failureWith "verification unavailable (no cluster)")⟩, s)
    | some fetchPod =>
      match decodeVerify r.body with
      | none => (⟨400, .json failure⟩, s)
      | some req =>
        match s.get req.challengeHash with
        | none => (⟨404, .json failure⟩, s)
        | some c =>
          match c.verify with
          | none => (⟨400, .json (failureWith "challenge has no content assertion")⟩, s)
          | some v =>
            if !assertive (some v) then
              (⟨400, .json (failureWith "challenge has no content assertion")⟩, s)
            else
              match fetchPod req.pod v.port v.path with
              | .error detail =>
                (⟨200, .json (verdict "unreachable" [(utf8 "detail", .str detail)])⟩, s)
              | .ok (status, body) =>
                if status ≠ statusOK || !v.matches regexp body then
                  (⟨200, .json (verdict "incorrect" [(utf8 "http_status", .num (itoa status))])⟩, s)
                else (⟨200, .json (verdict "correct" [])⟩, (s.RecordSolve c.hash r.user).2)

/-- The call of `FetchPod` a verify request leads to, if it gets that far. -/
def fetchArgs (s : Store) (r : Request) : Option (GoString × Int × GoString) :=
  if r.method ≠ methodPost then none
  else
    match decodeVerify r.body with
    | none => none
    | some req =>
      match s.get req.challengeHash with
      | none => none
      | some c =>
        match c.verify with
        | none => none
        | some v => if assertive (some v) then some (req.pod, v.port, v.path) else none

/-- The fetcher is called with these arguments and no others. -/
theorem handleVerify_congr {regexp : Regexp} {f g : PodFetcher} {s : Store} {r : Request}
    (h : ∀ pod port path, fetchArgs s r = some (pod, port, path) →
      f pod port path = g pod port path) :
    handleVerify regexp (some f) s r = handleVerify regexp (some g) s r := by
  unfold handleVerify
  unfold fetchArgs at h
  by_cases hm : r.method = methodPost
  · rw [if_neg (by simpa using hm), if_neg (by simpa using hm)]
    rw [if_neg (by simpa using hm)] at h
    cases hreq : decodeVerify r.body with
    | none => rfl
    | some req =>
      cases hc : s.get req.challengeHash with
      | none => simp [hc]
      | some c =>
        cases hv : c.verify with
        | none => simp [hc, hv]
        | some v =>
          by_cases ha : assertive (some v) = true
          · simp only [hreq, hc, hv, ha, if_true] at h
            have heq := h req.pod v.port v.path rfl
            simp [hc, hv, ha, heq]
          · simp [hc, hv, ha]
  · rw [if_pos hm, if_pos hm]

/-! ## What the handlers do to the store -/

/-- A verify request of `r.user` for `c` whose page passes the content check. -/
def Passes (regexp : Regexp) (fetcher : Option PodFetcher) (c : Challenge) (r : Request) : Prop :=
  r.method = methodPost ∧ ∃ fetchPod req v body, fetcher = some fetchPod ∧
    decodeVerify r.body = some req ∧ req.challengeHash = c.hash ∧
    c.verify = some v ∧ assertive (some v) = true ∧
    fetchPod req.pod v.port v.path = .ok (statusOK, body) ∧ v.matches regexp body = true

/-- A submission of `r.user` that a flag of `c` accepts. -/
def Accepts (g : PhashGrader) (c : Challenge) (r : Request) : Prop :=
  r.method = methodPost ∧ ∃ req, decodeAttempt r.body = some req ∧ req.challengeHash = c.hash ∧
    ∃ flag ∈ c.flags, Store.FlagAccepts g flag req.submission

variable {regexp : Regexp} {fetcher : Option PodFetcher} {s : Store} {r : Request} {c : Challenge}

theorem handleAttempt_of_accepts (hc : s.get c.hash = some c)
    (h : Accepts s.phashGrade c r) :
    (handleAttempt s r).2 = (s.recordSolve c.hash r.user).2 := by
  obtain ⟨hm, req, hreq, hhash, hflag⟩ := h
  have hgrade := Store.grade_of_accepts (u := r.user) (hhash ▸ hc) hflag
  rw [hhash] at hgrade
  simp [handleAttempt, hm, hreq, hgrade, hhash]

theorem handleAttempt_of_not_accepts
    (hno : ∀ c, s.get c.hash = some c → ¬ Accepts s.phashGrade c r) :
    (handleAttempt s r).2 = s := by
  unfold handleAttempt
  by_cases hm : r.method = methodPost
  · rw [if_neg (by simpa using hm)]
    cases hreq : decodeAttempt r.body with
    | none => rfl
    | some req =>
      have hflags : ∀ c, s.get req.challengeHash = some c →
          ¬ ∃ flag ∈ c.flags, Store.FlagAccepts s.phashGrade flag req.submission := by
        intro c hc hflag
        have hkey := s.keyed _ c hc
        exact hno c (hkey ▸ hc) ⟨hm, req, hreq, hkey.symm, hflag⟩
      have hgrade := (Store.grade_of_not_accepts hflags r.user).1
      dsimp only
      split <;> exact hgrade
  · rw [if_pos hm]

theorem handleVerify_of_passes (hc : s.get c.hash = some c) (h : Passes regexp fetcher c r) :
    (handleVerify regexp fetcher s r).2 = (s.recordSolve c.hash r.user).2 := by
  obtain ⟨hm, fetchPod, req, v, body, rfl, hreq, hhash, hv, ha, hfetch, hmatch⟩ := h
  simp [handleVerify, hm, hreq, hhash, hc, hv, ha, hfetch, hmatch, Store.RecordSolve]

theorem handleVerify_of_not_passes
    (hno : ∀ c, s.get c.hash = some c → ¬ Passes regexp fetcher c r) :
    (handleVerify regexp fetcher s r).2 = s := by
  unfold handleVerify
  by_cases hm : r.method = methodPost
  · rw [if_neg (by simpa using hm)]
    cases hf : fetcher with
    | none => rfl
    | some fetchPod =>
      cases hreq : decodeVerify r.body with
      | none => rfl
      | some req =>
        cases hc : s.get req.challengeHash with
        | none => simp [hc]
        | some c =>
          cases hv : c.verify with
          | none => simp [hc, hv]
          | some v =>
            by_cases ha : assertive (some v) = true
            · cases hfetch : fetchPod req.pod v.port v.path with
              | error detail => simp [hc, hv, ha, hfetch]
              | ok page =>
                obtain ⟨status, body⟩ := page
                by_cases hok : status = statusOK
                · cases hmatch : v.matches regexp body with
                  | false => simp [hc, hv, ha, hfetch, hmatch]
                  | true =>
                    subst hok
                    have hkey := s.keyed _ c hc
                    exact absurd ⟨hm, fetchPod, req, v, body, hf, hreq, hkey.symm, hv, ha,
                      hfetch, hmatch⟩ (hno c (hkey ▸ hc))
                · simp [hc, hv, ha, hfetch, hok]
            · simp [hc, hv, ha]
  · rw [if_pos hm]

/-! ## Runs of the API -/

/-- A request that can change the store. -/
inductive Call where
  | attempt (r : Request)
  | verify (r : Request) (fetcher : Option PodFetcher)

/-- The store, and the calls served so far. -/
structure Server where
  store : Store
  served : List Call

namespace Server

def serve (regexp : Regexp) (srv : Server) : Call → Server
  | .attempt r => ⟨(handleAttempt srv.store r).2, srv.served ++ [.attempt r]⟩
  | .verify r fetcher =>
    ⟨(handleVerify regexp fetcher srv.store r).2, srv.served ++ [.verify r fetcher]⟩

def step (regexp : Regexp) (srv : Server) (call : Call) : Option Server := some (srv.serve regexp call)

end Server

/-- The call proves that user `u` serves the page `c` asks for. -/
def Call.Proves (regexp : Regexp) (c : Challenge) (u : GoString) : Call → Prop
  | .attempt _ => False
  | .verify r fetcher => r.user = u ∧ Passes regexp fetcher c r

namespace Server

/-- Every solve of a challenge with a content check is backed by a verify request of
that user that passed it. -/
def Verified (regexp : Regexp) (srv : Server) : Prop :=
  ∀ h c u, srv.store.get h = some c → assertive c.verify = true → srv.store.solved h u = true →
    ∃ call ∈ srv.served, call.Proves regexp c u

/-- A submission that a flag of a challenge with a content check accepts comes from a
user who has solved the challenge. -/
def NoFlagSolve (srv : Server) : Call → Prop
  | .attempt r => ∀ c, srv.store.get c.hash = some c → assertive c.verify = true →
      Accepts srv.store.phashGrade c r → srv.store.solved c.hash r.user = true
  | .verify _ _ => True

/-- A passed check is recorded. -/
def Recorded (regexp : Regexp) (srv : Server) : Prop :=
  ∀ c u, srv.store.get c.hash = some c → ∀ call ∈ srv.served, call.Proves regexp c u →
    srv.store.solved c.hash u = true

/-- One call: the store keeps its challenges and either is unchanged or has the solve
of one registered challenge by the call's user. -/
theorem serve_cases (regexp : Regexp) (srv : Server) (call : Call) :
    ((srv.serve regexp call).store = srv.store ∧
        ∀ c u, srv.store.get c.hash = some c → ¬ call.Proves regexp c u ∧
          ∀ r, call = .attempt r → ¬ Accepts srv.store.phashGrade c r) ∨
      ∃ c u, srv.store.get c.hash = some c ∧
        (srv.serve regexp call).store = (srv.store.recordSolve c.hash u).2 ∧
        (call.Proves regexp c u ∨ ∃ r, call = .attempt r ∧ r.user = u ∧
          Accepts srv.store.phashGrade c r) := by
  cases call with
  | attempt r =>
    by_cases h : ∃ c, srv.store.get c.hash = some c ∧ Accepts srv.store.phashGrade c r
    · obtain ⟨c, hc, hacc⟩ := h
      exact .inr ⟨c, r.user, hc, handleAttempt_of_accepts hc hacc, .inr ⟨r, rfl, rfl, hacc⟩⟩
    · have hno : ∀ c, srv.store.get c.hash = some c → ¬ Accepts srv.store.phashGrade c r :=
        fun c hc hacc => h ⟨c, hc, hacc⟩
      refine .inl ⟨handleAttempt_of_not_accepts hno, fun c u hc => ⟨id, ?_⟩⟩
      intro _ heq
      cases heq
      exact hno c hc
  | verify r fetcher =>
    by_cases h : ∃ c, srv.store.get c.hash = some c ∧ Passes regexp fetcher c r
    · obtain ⟨c, hc, hpass⟩ := h
      exact .inr ⟨c, r.user, hc, handleVerify_of_passes hc hpass, .inl ⟨rfl, hpass⟩⟩
    · have hno : ∀ c, srv.store.get c.hash = some c → ¬ Passes regexp fetcher c r :=
        fun c hc hpass => h ⟨c, hc, hpass⟩
      refine .inl ⟨handleVerify_of_not_passes hno, fun c u hc => ⟨?_, nofun⟩⟩
      intro hverified
      obtain ⟨-, hpass⟩ := hverified
      exact hno c hc hpass

theorem get_serve (regexp : Regexp) (srv : Server) (call : Call) (h : GoString) :
    (srv.serve regexp call).store.get h = srv.store.get h := by
  obtain ⟨hsame, -⟩ | ⟨c, u, -, hrec, -⟩ := serve_cases regexp srv call
  · rw [hsame]
  · rw [hrec, Store.get, Store.recordSolve_byHash]
    rfl

theorem solved_serve_of_solved {regexp : Regexp} {srv : Server} {h u : GoString} (call : Call)
    (hs : srv.store.solved h u = true) : (srv.serve regexp call).store.solved h u = true := by
  obtain ⟨hsame, -⟩ | ⟨c, v, -, hrec, -⟩ := serve_cases regexp srv call
  · rwa [hsame]
  · rw [hrec, Store.solved_recordSolve]
    exact .inl hs

@[simp] theorem served_serve (regexp : Regexp) (srv : Server) (call : Call) :
    (srv.serve regexp call).served = srv.served ++ [call] := by
  cases call <;> rfl

theorem proves_unique {call : Call} {c c' : Challenge} {u u' : GoString}
    (h : call.Proves regexp c u) (h' : call.Proves regexp c' u') : c.hash = c'.hash ∧ u = u' := by
  cases call with
  | attempt r => exact h.elim
  | verify r fetcher =>
    obtain ⟨rfl, -, -, req, -, -, -, hreq, hhash, -⟩ := h
    obtain ⟨rfl, -, -, req', -, -, -, hreq', hhash', -⟩ := h'
    rw [hreq, Option.some.injEq] at hreq'
    exact ⟨by rw [← hhash, hreq', hhash'], rfl⟩

theorem recorded_serve {srv : Server} (call : Call) (hs : srv.Recorded regexp) :
    (srv.serve regexp call).Recorded regexp := by
  intro c u hc call' hcall' hproves
  rw [get_serve] at hc
  rw [served_serve, List.mem_append, List.mem_singleton] at hcall'
  obtain hold | rfl := hcall'
  · exact solved_serve_of_solved call (hs c u hc call' hold hproves)
  · obtain ⟨-, hno⟩ | ⟨c', u', -, hrec, hwhy⟩ := serve_cases regexp srv call'
    · exact absurd hproves (hno c u hc).1
    · obtain hproves' | ⟨r, rfl, -⟩ := hwhy
      · rw [hrec, Store.solved_recordSolve]
        exact .inr (proves_unique hproves hproves')
      · exact hproves.elim

/-- A call keeps the solves verified when no flag records one. -/
theorem verified_serve {srv : Server} {call : Call} (hs : srv.Verified regexp)
    (hcall : srv.NoFlagSolve call) : (srv.serve regexp call).Verified regexp := by
  intro h c u hc ha hsolved
  rw [get_serve] at hc
  rw [served_serve]
  have hold : srv.store.solved h u = true → ∃ call' ∈ srv.served ++ [call],
      call'.Proves regexp c u := by
    intro hsolved
    obtain ⟨call', hmem, hproves⟩ := hs h c u hc ha hsolved
    exact ⟨call', List.mem_append_left _ hmem, hproves⟩
  obtain ⟨hsame, -⟩ | ⟨c', u', hc', hrec, hwhy⟩ := serve_cases regexp srv call
  · exact hold (hsame ▸ hsolved)
  · rw [hrec, Store.solved_recordSolve] at hsolved
    obtain hsolved | ⟨rfl, rfl⟩ := hsolved
    · exact hold hsolved
    · rw [hc', Option.some.injEq] at hc
      subst hc
      obtain hproves | ⟨r, rfl, rfl, haccepts⟩ := hwhy
      · exact ⟨call, List.mem_append_right _ (List.mem_singleton_self _), hproves⟩
      · exact hold (hcall c' hc' ha haccepts)

/-- A call after which the solves are verified records none through a flag. -/
theorem noFlagSolve_of_verified {srv : Server} {call : Call} (hrec : srv.Recorded regexp)
    (hnext : (srv.serve regexp call).Verified regexp) : srv.NoFlagSolve call := by
  cases call with
  | verify r fetcher => trivial
  | attempt r =>
    intro c hc ha haccepts
    have hsolved : (srv.serve regexp (.attempt r)).store.solved c.hash r.user = true := by
      rw [serve, handleAttempt_of_accepts hc haccepts, Store.solved_recordSolve]
      exact .inr ⟨rfl, rfl⟩
    obtain ⟨call, hmem, hproves⟩ := hnext c.hash c r.user (by rwa [get_serve]) ha hsolved
    rw [served_serve, List.mem_append, List.mem_singleton] at hmem
    obtain hmem | rfl := hmem
    · exact hrec c r.user hc call hmem hproves
    · exact hproves.elim

/-- From a store without solves, every solve of a challenge with a content check is
backed by a passed check throughout a run exactly when no step of the run submits
an answer that a flag of such a challenge accepts for a user who has not solved
it. -/
theorem verified_iff_noFlagSolve (regexp : Regexp) {s : Store}
    (hs : ∀ h u, s.solved h u = false) (calls : List Call) :
    Runs.Always (step regexp) (Verified regexp) ⟨s, []⟩ calls ↔
      Runs.Each (step regexp) NoFlagSolve ⟨s, []⟩ calls := by
  refine Runs.always_iff_each (I := Recorded regexp) ?_ ?_ ?_ ?_
  · intro srv call _ hrec heq
    cases heq
    exact recorded_serve call hrec
  · intro srv call hrec hver
    constructor
    · intro hcall _ heq
      cases heq
      exact verified_serve hver hcall
    · exact fun hnext => noFlagSolve_of_verified hrec (hnext _ rfl)
  · intro c u _ call hmem
    simp at hmem
  · intro h c u _ _ hsolved
    rw [hs h u] at hsolved
    contradiction

/-- An exercise with both a content check and an answer hash. -/
def checkedChallenge : Challenge :=
  ⟨utf8 "ab12", utf8 "fix-nginx", 20, [utf8 "0f"],
    some ⟨80, utf8 "/", utf8 "running correctly", []⟩⟩

def checkedStore : Store := (Store.newStore none).put checkedChallenge

theorem get_checkedStore {h : GoString} {c : Challenge} (hc : checkedStore.get h = some c) :
    c = checkedChallenge := by
  rw [checkedStore, Store.get_put] at hc
  split_ifs at hc
  · exact (Option.some.inj hc).symm
  · simp [Store.newStore, Store.get] at hc

def alice (submission : String) : Request :=
  ⟨methodPost, utf8 "\x7b\"challenge_hash\":\"ab12\",\"submission\":\"" ++ utf8 submission ++
    utf8 "\"\x7d", utf8 "alice"⟩

/-- Alice has her page checked. -/
def checkPage : Call := .verify
  ⟨methodPost, utf8 "\x7b\"challenge_hash\":\"ab12\",\"pod\":\"i-0a\"\x7d", utf8 "alice"⟩
  (some fun _ _ _ => .ok (statusOK, utf8 "nginx is running correctly"))

/-- A wrong answer, a check that passes, and the answer hash of the exercise that is solved by
then leave the solves verified. -/
theorem verified_checkPage :
    Runs.Always (step fun _ => none) (Verified fun _ => none) ⟨checkedStore, []⟩
        [.attempt (alice "1e"), checkPage, .attempt (alice "0f")] ∧
      ∃ srv, Runs.run (step fun _ => none) ⟨checkedStore, []⟩
        [.attempt (alice "1e"), checkPage, .attempt (alice "0f")] = some srv ∧
        srv.store.solved (utf8 "ab12") (utf8 "alice") = true := by
  refine ⟨(verified_iff_noFlagSolve _ (s := checkedStore) (Store.solved_newStore none) _).mpr
    (.cons ?_ rfl (.cons trivial rfl ⟨?_, fun _ _ => trivial⟩)), _, rfl, by decide +kernel⟩
  · intro c hc _ hverified
    obtain ⟨-, req, hreq, -, flag, hflag, haccepts⟩ := hverified
    have hwrong : decodeAttempt (alice "1e").body = some ⟨utf8 "ab12", utf8 "1e"⟩ := by decide
    rw [hwrong, Option.some.injEq] at hreq
    rw [get_checkedStore hc, checkedChallenge, List.mem_singleton] at hflag
    subst hreq hflag
    have hplain : ¬ isPhashFlag (utf8 "0f") = true := by decide
    rw [Store.FlagAccepts, if_neg hplain] at haccepts
    exact absurd haccepts (by decide)
  · intro c hc _ _
    rw [get_serve, get_serve] at hc
    rw [get_checkedStore hc]
    decide +kernel

/-- The answer hash alone records the solve of a challenge with a content check. -/
theorem not_verified_answer_hash :
    ¬ Runs.Always (step fun _ => none) (Verified fun _ => none) ⟨checkedStore, []⟩
      [.attempt (alice "0f")] := by
  intro hlisted
  obtain ⟨-, h⟩ := hlisted
  have hver : Verified _ (serve (fun _ => none) ⟨checkedStore, []⟩ (.attempt (alice "0f"))) :=
    h _ rfl
  obtain ⟨call, hmem, hproves⟩ := hver checkedChallenge.hash checkedChallenge (utf8 "alice")
    (by decide) (by decide) (by decide)
  rw [served_serve, List.mem_append, List.mem_singleton] at hmem
  obtain hmem | rfl := hmem
  · simp at hmem
  · exact hproves.elim

end Server

end TrainingPlatform.Scoring
