import TrainingPlatform.Auth.Identity

/-!
# One browser

A browser sends requests with the learner cookie it has at the time, the server answers
them in any order, and the browser stores what the answers set, in any order.  There is no
social login, and the other cookies of a request play no part.
-/

namespace TrainingPlatform.Auth.Browser

open Go

/-- A request under way: its learner cookie, and its call of the scoring API if it is
one. -/
structure Sent where
  cookie : Option GoString
  call : Option Scoring.Call

/-- A connection.  `answered` is the answer to a request, scoring or not, with the cookie it
sets. -/
inductive Conn where
  | idle
  | sent (req : Sent)
  | answered (scoring : Bool) (setCookie : Option GoString)

structure World where
  cookie : Option GoString
  conn : Nat → Conn
  server : Scoring.Server

inductive Event where
  | send (t : Nat) (call : Option Scoring.Call)
  | serve (t : Nat) (d : Draw)
  | deliver (t : Nat)

/-- The request as it arrives. -/
def request (cookie : Option GoString) : Request := ⟨(cookie.map (Prod.mk anonCookie)).toList, none⟩

/-- `hmac` is the argument of `resolve`, which a server without social login never
calls. -/
def step (regexp : Scoring.Regexp) (hmac : GoString → GoString → List UInt8) (w : World) :
    Event → Option World
  | .send t call =>
    match w.conn t with
    | .idle => some { w with conn := Function.update w.conn t (.sent ⟨w.cookie, call⟩) }
    | _ => none
  | .serve t d =>
    match w.conn t with
    | .sent ⟨cookie, call⟩ => some
      { w with
        conn := Function.update w.conn t
          (.answered call.isSome (anonymousMiddleware d (request cookie)).setCookie)
        server := match call with
          | none => w.server
          | some call => w.server.serve regexp (Visit.scored hmac none ⟨request cookie, d, call⟩) }
    | _ => none
  | .deliver t =>
    match w.conn t with
    | .answered _ setCookie => some
      { w with conn := Function.update w.conn t .idle, cookie := setCookie <|> w.cookie }
    | _ => none

/-- The cookie is one the server accepts as a learner name. -/
def named : Option GoString → Bool
  | none => false
  | some v => nameRe.isMatch v

/-- An unanswered request that came, or will be found, without a learner name. -/
def Conn.unnamed : Conn → Bool
  | .idle => false
  | .sent req => !named req.cookie
  | .answered _ setCookie => setCookie.isSome

/-- An unanswered call of the scoring API. -/
def Conn.scoring : Conn → Bool
  | .idle => false
  | .sent req => req.call.isSome
  | .answered scoring _ => scoring

/-- No request is sent while a call of the scoring API without a learner name is unanswered,
and no call of the scoring API while any request without a learner name is. -/
def Exclusive (w : World) : Event → Prop
  | .send _ call => ∀ t, (w.conn t).unnamed = true → (w.conn t).scoring = false ∧ call = none
  | .serve _ _ | .deliver _ => True

/-- The browser has the name, or an answer under way sets it. -/
def Carried (w : World) (name : GoString) : Prop :=
  w.cookie = some name ∨ ∃ t scoring, w.conn t = .answered scoring (some name)

/-- The solves recorded for the browser are all under one name, and it is not lost. -/
def SingleName (before : Scoring.Store) (w : World) : Prop :=
  ∃ name, ∀ h u, w.server.store.solved h u = true →
    before.solved h u = true ∨ u = name ∧ Carried w name

/-- A browser with no request under way. -/
def start (cookie : Option GoString) (server : Scoring.Server) : World :=
  ⟨cookie, fun _ => .idle, server⟩

/-! ## The middleware on one request -/

variable {regexp : Scoring.Regexp} {hmac : GoString → GoString → List UInt8}
  {before : Scoring.Store} {w w' : World} {e : Event} {t : Nat} {d : Draw}
  {cookie : Option GoString} {n : GoString}

theorem cookie_request : (request cookie).cookie anonCookie = cookie := by
  cases cookie with
  | none => rfl
  | some v => exact List.lookup_cons_self

/-- A learner name that the browser has is kept. -/
theorem named_spec (hmac : GoString → GoString → List UInt8) (h : nameRe.isMatch n = true)
    (d : Draw) :
    (anonymousMiddleware d (request (some n))).setCookie = none ∧
      resolve hmac none d (request (some n)) = n := by
  have hne : n ≠ [] := (isMatch_nameRe_iff.mp h).ne_nil
  have hforward : anonymousMiddleware d (request (some n)) =
      ⟨{ request (some n) with learner := some n }, none⟩ := by
    rw [anonymousMiddleware, cookie_request]
    simp only [if_pos h, if_neg hne]
  rw [resolve, hforward]
  exact ⟨rfl, if_pos hne⟩

theorem named_cookie_spec (hmac : GoString → GoString → List UInt8) (h : named cookie = true)
    (d : Draw) :
    (anonymousMiddleware d (request cookie)).setCookie = none ∧
      cookie = some (resolve hmac none d (request cookie)) := by
  cases cookie with
  | none => cases h
  | some v =>
    obtain ⟨hset, hresolve⟩ := named_spec hmac h d
    exact ⟨hset, congrArg some hresolve.symm⟩

/-- Without one the answer sets the name the request was taken for. -/
theorem unnamed_spec (hmac : GoString → GoString → List UInt8) (h : named cookie = false)
    (d : Draw) :
    (anonymousMiddleware d (request cookie)).setCookie =
        some (resolve hmac none d (request cookie)) ∧
      nameRe.isMatch (resolve hmac none d (request cookie)) = true := by
  have hname := isLearnerName_randomLearnerName d
  have hforward : anonymousMiddleware d (request cookie) =
      ⟨{ request cookie with learner := some (randomLearnerName d) },
        some (randomLearnerName d)⟩ := by
    rw [anonymousMiddleware, cookie_request]
    cases cookie with
    | none => rfl
    | some v =>
      have hv : nameRe.isMatch v = false := h
      simp [hv]
  have hresolve : resolve hmac none d (request cookie) = randomLearnerName d := by
    rw [resolve, hforward]
    exact if_pos hname.ne_nil
  rw [hresolve, hforward]
  exact ⟨rfl, isMatch_nameRe_iff.mpr hname⟩

/-- A served call adds solves of the resolved name only. -/
theorem solved_server_serve {call : Option Scoring.Call} {h u : GoString}
    (hsolved : (match call with
      | none => w.server
      | some call =>
        w.server.serve regexp (Visit.scored hmac none ⟨request cookie, d, call⟩)).store.solved h u =
          true) :
    w.server.store.solved h u = true ∨
      call.isSome = true ∧ u = resolve hmac none d (request cookie) := by
  cases call with
  | none => exact .inl hsolved
  | some call => exact (solved_serve hsolved).imp id fun hu => ⟨rfl, hu⟩

/-! ## The three phases -/

/-- Where the browser's name stands: no call of the scoring API has been sent; one without a
name is unanswered; or the browser has the name of every call. -/
inductive Phase (before : Scoring.Store) (w : World) : Prop where
  | fresh : (∀ t, (w.conn t).scoring = false) →
    (∀ h u, w.server.store.solved h u = true → before.solved h u = true) → Phase before w
  | asked (t : Nat) : (w.conn t).unnamed = true → (w.conn t).scoring = true →
    (∀ t', t' ≠ t → (w.conn t').unnamed = false ∧ (w.conn t').scoring = false) →
    (∀ v, w.conn t = .answered true (some v) → nameRe.isMatch v = true) →
    (∀ h u, w.server.store.solved h u = true →
      before.solved h u = true ∨ w.conn t = .answered true (some u)) → Phase before w
  | settled (n : GoString) : w.cookie = some n → nameRe.isMatch n = true →
    (∀ t, (w.conn t).unnamed = false) →
    (∀ t req, w.conn t = .sent req → req.call.isSome = true → req.cookie = some n) →
    (∀ h u, w.server.store.solved h u = true → before.solved h u = true ∨ u = n) → Phase before w

theorem singleName_of_phase (h : Phase before w) : SingleName before w := by
  cases h with
  | fresh _ hsolved => exact ⟨[], fun h u hu => .inl (hsolved h u hu)⟩
  | asked t _ _ _ _ hsolved =>
    by_cases hname : ∃ name, w.conn t = .answered true (some name)
    · obtain ⟨name, hname⟩ := hname
      refine ⟨name, fun h u hu => (hsolved h u hu).imp id fun hconn => ?_⟩
      rw [hname] at hconn
      cases hconn
      exact ⟨rfl, .inr ⟨t, true, hname⟩⟩
    · exact ⟨[], fun h u hu => .inl ((hsolved h u hu).resolve_right fun hconn => hname ⟨u, hconn⟩)⟩
  | settled n hcookie _ _ _ hsolved =>
    refine ⟨n, fun h u hu => (hsolved h u hu).imp id fun hname => ?_⟩
    exact ⟨hname, .inl hcookie⟩

/-! ## One step -/

theorem step_send {call : Option Scoring.Call} (h : step regexp hmac w (.send t call) = some w') :
    w' = { w with conn := Function.update w.conn t (.sent ⟨w.cookie, call⟩) } := by
  rw [step] at h
  split at h
  · exact (Option.some.inj h).symm
  · cases h

theorem step_serve (h : step regexp hmac w (.serve t d) = some w') :
    ∃ req, w.conn t = .sent req ∧ w' =
      { w with
        conn := Function.update w.conn t
          (.answered req.call.isSome (anonymousMiddleware d (request req.cookie)).setCookie)
        server := match req.call with
          | none => w.server
          | some call =>
            w.server.serve regexp (Visit.scored hmac none ⟨request req.cookie, d, call⟩) } := by
  rw [step] at h
  split at h
  · rename_i cookie call hconn
    exact ⟨⟨cookie, call⟩, hconn, (Option.some.inj h).symm⟩
  · cases h

theorem step_deliver (h : step regexp hmac w (.deliver t) = some w') :
    ∃ scoring setCookie, w.conn t = .answered scoring setCookie ∧
      w' = { w with conn := Function.update w.conn t .idle, cookie := setCookie <|> w.cookie } := by
  rw [step] at h
  split at h
  · rename_i scoring setCookie hconn
    exact ⟨scoring, setCookie, hconn, (Option.some.inj h).symm⟩
  · cases h

/-- What holds of every connection and of the new one holds after an update. -/
theorem forall_update {P : Nat → Conn → Prop} {conn : Nat → Conn} {c : Conn} (hc : P t c)
    (h : ∀ t', t' ≠ t → P t' (conn t')) (t' : Nat) : P t' (Function.update conn t c t') := by
  by_cases ht : t' = t
  · subst ht
    rw [Function.update_self]
    exact hc
  · rw [Function.update_of_ne ht]
    exact h t' ht

/-- An answer or a request on another connection leaves the unanswered one alone. -/
theorem asked_update {t₀ : Nat} {c : Conn} {server : Scoring.Server} (ht : t ≠ t₀)
    (hun : (w.conn t₀).unnamed = true) (hscoring : (w.conn t₀).scoring = true)
    (hothers : ∀ t', t' ≠ t₀ → (w.conn t').unnamed = false ∧ (w.conn t').scoring = false)
    (hshape : ∀ v, w.conn t₀ = .answered true (some v) → nameRe.isMatch v = true)
    (hc : c.unnamed = false ∧ c.scoring = false)
    (hsolved : ∀ h u, server.store.solved h u = true →
      before.solved h u = true ∨ w.conn t₀ = .answered true (some u)) :
    Phase before ⟨cookie, Function.update w.conn t c, server⟩ := by
  have hkeep : Function.update w.conn t c t₀ = w.conn t₀ := Function.update_of_ne (Ne.symm ht) _ _
  refine .asked t₀ ?_ ?_ (fun t' ht' => ?_) (fun v hv => ?_) fun h u hu => ?_
  · dsimp only
    rwa [hkeep]
  · dsimp only
    rwa [hkeep]
  · exact forall_update (P := fun t' c => t' ≠ t₀ → c.unnamed = false ∧ c.scoring = false)
      (fun _ => hc) (fun t' _ => hothers t') t' ht'
  · exact hshape v (hkeep ▸ hv)
  · dsimp only
    rw [hkeep]
    exact hsolved h u hu

/-- A browser with a name keeps it, whatever happens on a connection. -/
theorem settled_update {c : Conn} {server : Scoring.Server} (hcookie : cookie = some n)
    (hn : nameRe.isMatch n = true) (hc : c.unnamed = false)
    (hsend : ∀ req, c = .sent req → req.call.isSome = true → req.cookie = some n)
    (hnamed : ∀ t', t' ≠ t → (w.conn t').unnamed = false)
    (hsent : ∀ t', t' ≠ t → ∀ req, w.conn t' = .sent req → req.call.isSome = true →
      req.cookie = some n)
    (hsolved : ∀ h u, server.store.solved h u = true → before.solved h u = true ∨ u = n) :
    Phase before ⟨cookie, Function.update w.conn t c, server⟩ := by
  refine .settled n hcookie hn ?_ ?_ hsolved
  · exact forall_update (P := fun _ c => c.unnamed = false) hc hnamed
  · exact forall_update
      (P := fun _ c => ∀ req, c = .sent req → req.call.isSome = true → req.cookie = some n)
      hsend hsent

/-- No scoring call is under way on a connection that has sent another request. -/
theorem no_call_of_scoring {t' : Nat} (hscoring : (w.conn t').scoring = false) (req : Sent)
    (hreq : w.conn t' = .sent req) (hcall : req.call.isSome = true) : False := by
  rw [hreq, Conn.scoring, hcall] at hscoring
  cases hscoring

theorem phase_send {call : Option Scoring.Call} (h : Phase before w)
    (hcond : Exclusive w (.send t call)) (hstep : step regexp hmac w (.send t call) = some w') :
    Phase before w' := by
  obtain rfl := step_send hstep
  cases h with
  | fresh hscoring hsolved =>
    cases call with
    | none =>
      exact .fresh (forall_update (P := fun _ c => c.scoring = false) rfl fun t' _ => hscoring t')
        hsolved
    | some call =>
      -- A call is only sent while no other request is without a name.
      have hnamed : ∀ t', (w.conn t').unnamed = false := by
        intro t'
        by_contra hun
        cases (hcond t' (by simpa using hun)).2
      cases hcookie : named w.cookie with
      | true =>
        obtain ⟨n, hn⟩ : ∃ n, w.cookie = some n := by
          cases hw : w.cookie with
          | none =>
            rw [hw] at hcookie
            cases hcookie
          | some n => exact ⟨n, rfl⟩
        refine settled_update hn (by rwa [hn] at hcookie) (congrArg not hcookie)
          (fun req hreq _ => ?_) (fun t' _ => hnamed t') (fun t' _ req hreq hcall => ?_)
          fun h u hu => .inl (hsolved h u hu)
        · cases hreq
          exact hn
        · exact (no_call_of_scoring (hscoring t') req hreq hcall).elim
      | false =>
        refine .asked t ?_ ?_ (fun t' ht => ?_) (fun v hv => ?_)
          fun h u hu => .inl (hsolved h u hu)
        · simp [Conn.unnamed, hcookie]
        · simp [Conn.scoring]
        · dsimp only
          rw [Function.update_of_ne ht]
          exact ⟨hnamed t', hscoring t'⟩
        · dsimp only at hv
          rw [Function.update_self] at hv
          cases hv
  | asked t₀ hun hscoring _ _ _ =>
    rw [(hcond t₀ hun).1] at hscoring
    cases hscoring
  | settled n hcookie hn hnamed hsent hsolved =>
    refine settled_update hcookie hn ?_ (fun req hreq _ => ?_) (fun t' _ => hnamed t')
      (fun t' _ => hsent t') hsolved
    · rw [hcookie]
      exact congrArg not hn
    · cases hreq
      exact hcookie

theorem phase_serve (h : Phase before w) (hstep : step regexp hmac w (.serve t d) = some w') :
    Phase before w' := by
  obtain ⟨req, hconn, rfl⟩ := step_serve hstep
  cases h with
  | fresh hscoring hsolved =>
    have hcall : req.call.isSome = false := by
      have hnot := hscoring t
      rwa [hconn] at hnot
    refine .fresh ?_ fun h u hu => ?_
    · exact forall_update (P := fun _ c => c.scoring = false) hcall fun t' _ => hscoring t'
    · rcases solved_server_serve hu with hold | ⟨hsome, -⟩
      · exact hsolved h u hold
      · rw [hcall] at hsome
        cases hsome
  | asked t₀ hun hscoring hothers hshape hsolved =>
    by_cases ht : t₀ = t
    · subst ht
      rw [hconn] at hun hscoring
      obtain ⟨hset, hmatch⟩ := unnamed_spec hmac (by simpa [Conn.unnamed] using hun) d
      have hcall : req.call.isSome = true := hscoring
      refine .asked t₀ ?_ ?_ (fun t' ht => ?_) (fun v hv => ?_) fun h u hu => ?_
      · simp [Conn.unnamed, hset]
      · simpa [Conn.scoring] using hcall
      · dsimp only
        rw [Function.update_of_ne ht]
        exact hothers t' ht
      · dsimp only at hv
        rw [Function.update_self, hset, Conn.answered.injEq, Option.some.injEq] at hv
        exact hv.2 ▸ hmatch
      · rcases solved_server_serve hu with hold | ⟨-, rfl⟩
        · refine (hsolved h u hold).imp id fun heq => ?_
          rw [hconn] at heq
          cases heq
        · refine .inr ?_
          dsimp only
          rw [Function.update_self, hset, hcall]
    · obtain ⟨hnamed, hcall⟩ := hothers t (Ne.symm ht)
      rw [hconn] at hnamed hcall
      have hset := (named_cookie_spec hmac (by simpa [Conn.unnamed] using hnamed) d).1
      refine asked_update (Ne.symm ht) hun hscoring hothers hshape ?_ fun h u hu => ?_
      · rw [hset]
        exact ⟨rfl, hcall⟩
      · rcases solved_server_serve hu with hold | ⟨hsome, -⟩
        · exact hsolved h u hold
        · exact absurd hsome (by simpa [Conn.scoring] using hcall)
  | settled n hcookie hn hnamed hsent hsolved =>
    have hreq := hnamed t
    rw [hconn] at hreq
    obtain ⟨hset, hresolve⟩ := named_cookie_spec hmac (by simpa [Conn.unnamed] using hreq) d
    refine settled_update hcookie hn ?_ (fun req hreq _ => ?_) (fun t' _ => hnamed t')
      (fun t' _ => hsent t') fun h u hu => ?_
    · rw [hset]
      rfl
    · cases hreq
    · rcases solved_server_serve hu with hold | ⟨hsome, rfl⟩
      · exact hsolved h u hold
      · refine .inr (Option.some.inj ?_)
        rw [← hresolve]
        exact hsent t req hconn hsome

theorem phase_deliver (h : Phase before w) (hstep : step regexp hmac w (.deliver t) = some w') :
    Phase before w' := by
  obtain ⟨scoring, setCookie, hconn, rfl⟩ := step_deliver hstep
  cases h with
  | fresh hscoring hsolved =>
    exact .fresh (forall_update (P := fun _ c => c.scoring = false) rfl fun t' _ => hscoring t')
      hsolved
  | asked t₀ hun hscoring hothers hshape hsolved =>
    by_cases ht : t₀ = t
    · subst ht
      -- The answer gives the browser its name.
      rw [hconn] at hun hscoring
      obtain rfl : scoring = true := hscoring
      obtain ⟨n, rfl⟩ := Option.isSome_iff_exists.mp hun
      refine settled_update rfl (hshape n hconn) rfl (fun req hreq _ => ?_)
        (fun t' ht => (hothers t' ht).1) (fun t' ht req hreq hcall => ?_) fun h u hu => ?_
      · cases hreq
      · exact (no_call_of_scoring (hothers t' ht).2 req hreq hcall).elim
      · refine (hsolved h u hu).imp id fun heq => ?_
        rw [hconn] at heq
        cases heq
        rfl
    · have hnamed := (hothers t (Ne.symm ht)).1
      rw [hconn] at hnamed
      obtain rfl : setCookie = none := by simpa [Conn.unnamed] using hnamed
      exact asked_update (Ne.symm ht) hun hscoring hothers hshape ⟨rfl, rfl⟩ hsolved
  | settled n hcookie hn hnamed hsent hsolved =>
    have hset := hnamed t
    rw [hconn] at hset
    obtain rfl : setCookie = none := by simpa [Conn.unnamed] using hset
    refine settled_update hcookie hn rfl (fun req hreq _ => ?_) (fun t' _ => hnamed t')
      (fun t' _ => hsent t') hsolved
    cases hreq

theorem phase_step (h : Phase before w) (hcond : Exclusive w e)
    (hstep : step regexp hmac w e = some w') : Phase before w' := by
  cases e with
  | send t call => exact phase_send h hcond hstep
  | serve t d => exact phase_serve h hstep
  | deliver t => exact phase_deliver h hstep

/-- In every run in which no call of the scoring API overlaps with a request without a
learner name, the solves recorded for the browser are all under one name, which the browser
has or is being given. -/
theorem singleName_of_exclusive (regexp : Scoring.Regexp)
    (hmac : GoString → GoString → List UInt8) (cookie : Option GoString)
    (server : Scoring.Server) (es : List Event)
    (h : Runs.Each (step regexp hmac) Exclusive (start cookie server) es) :
    Runs.Always (step regexp hmac) (SingleName server.store) (start cookie server) es :=
  Runs.always_of_invariant (fun _ _ _ hw hc hstep => phase_step hw hc hstep)
    (fun _ => singleName_of_phase) (.fresh (fun _ => rfl) fun _ _ hu => hu) h

/-! ## Two calls without a name -/

/-- A correct answer. -/
def attempt : Scoring.Call := .attempt (Scoring.Server.alice "0f")

def lastWords : Draw := ⟨⟨31, by decide⟩, ⟨31, by decide⟩, (255, 255)⟩

def unused : Scoring.Server := ⟨Scoring.Server.checkedStore, []⟩

theorem singleName_oneByOne :
    Runs.Always (step (fun _ => none) fun _ _ => []) (SingleName unused.store) (start none unused)
      [.send 0 (some attempt), .serve 0 firstWords, .deliver 0, .send 0 (some attempt),
        .serve 0 lastWords, .deliver 0] := by
  refine singleName_of_exclusive _ _ none unused _ ?_
  refine .cons (fun t ht => by cases ht) rfl (.cons trivial rfl (.cons trivial rfl ?_))
  refine .cons (fun t ht => ?_) rfl (.cons trivial rfl (.cons trivial rfl trivial))
  have hidle : ∀ c c', (Function.update (Function.update (Function.update (fun _ => Conn.idle) 0 c)
      0 c') 0 .idle t).unnamed = false := by
    intro c c'
    simp [Conn.unnamed]
  cases (hidle _ _).symm.trans ht

/-- Two calls that leave together are recorded under two names. -/
theorem not_singleName_twoCalls :
    ¬ Runs.Always (step (fun _ => none) fun _ _ => []) (SingleName unused.store)
      (start none unused)
      [.send 0 (some attempt), .send 1 (some attempt), .serve 0 firstWords,
        .serve 1 lastWords] := by
  intro hlisted
  have hrun : ∃ w, Runs.run (step (fun _ => none) fun _ _ => []) (start none unused)
      [.send 0 (some attempt), .send 1 (some attempt), .serve 0 firstWords,
        .serve 1 lastWords] = some w ∧
      w.server.store.solved (utf8 "ab12") (randomLearnerName firstWords) = true ∧
      w.server.store.solved (utf8 "ab12") (randomLearnerName lastWords) = true :=
    ⟨_, rfl, by decide +kernel, by decide +kernel⟩
  obtain ⟨w, hw, hfirst, hlast⟩ := hrun
  obtain ⟨name, hname⟩ := hlisted.last hw
  have hnew : ∀ u, unused.store.solved (utf8 "ab12") u = false :=
    Scoring.Store.solved_newStore none (utf8 "ab12")
  have hone : ∀ u, w.server.store.solved (utf8 "ab12") u = true → u = name := by
    intro u hu
    rcases hname _ u hu with hold | ⟨heq, -⟩
    · rw [hnew] at hold
      cases hold
    · exact heq
  have heq := (hone _ hfirst).trans (hone _ hlast).symm
  exact absurd heq (by decide +kernel)

end TrainingPlatform.Auth.Browser
