import TrainingPlatform.Go.Base64
import TrainingPlatform.Go.Matching
import TrainingPlatform.Scoring.Http
import TrainingPlatform.Scoring.Phash

/-!
# Who a request is

A request's cookies are what `net/http` reads from its headers, in order.  HMAC-SHA256 is
an argument, and so is what the random source draws for one name.
-/

namespace TrainingPlatform.Auth

open Go

def anonCookie : GoString := utf8 "training_learner"
def sessionCookie : GoString := utf8 "training_session"
def anonymous : GoString := utf8 "anonymous"

/-- The cookies of a request, and the learner name in its context. -/
structure Request where
  cookies : List (GoString × GoString)
  learner : Option GoString

/-- The first cookie of a name. -/
def Request.cookie (r : Request) (name : GoString) : Option GoString := r.cookies.lookup name

/-! ## Learner names -/

def isLower (b : UInt8) : Bool := 0x61 ≤ b && b ≤ 0x7A

/-- `^[a-z]+-[a-z]+-[0-9a-f]{3}$` -/
def nameParts : List Re :=
  [.many1 (.set isLower), .byte 0x2D, .many1 (.set isLower), .byte 0x2D,
    .set Scoring.isLowerHex, .set Scoring.isLowerHex, .set Scoring.isLowerHex]

def nameRe : Re := .anchored nameParts

def anonAdjectives : List GoString :=
  ["amber", "brave", "brisk", "calm", "clever", "cosmic", "crisp", "curious",
    "eager", "fluent", "gentle", "swift", "keen", "lucid", "merry", "nimble",
    "noble", "patient", "plucky", "quiet", "rapid", "serene", "sharp", "solar",
    "spry", "steady", "sunny", "tidy", "vivid", "witty", "zesty", "bright"].map utf8

def anonAnimals : List GoString :=
  ["otter", "falcon", "badger", "heron", "lynx", "marten", "osprey", "puffin",
    "raven", "salmon", "stoat", "tapir", "vole", "wombat", "yak", "gecko",
    "ibex", "koala", "lemur", "manta", "narwhal", "ocelot", "panda", "quokka",
    "robin", "seal", "tern", "urchin", "viper", "walrus", "wren", "bison"].map utf8

/-- What the random source gives for one name.  Where it fails, `pick` takes the first
word and the bytes stay 0. -/
structure Draw where
  adjective : Fin anonAdjectives.length
  animal : Fin anonAnimals.length
  bytes : UInt8 × UInt8

def randomLearnerName (d : Draw) : GoString :=
  let hex := Scoring.hexDigits 2 d.bytes.1.toNat ++ Scoring.hexDigits 2 d.bytes.2.toNat
  anonAdjectives.get d.adjective ++ 0x2D :: (anonAnimals.get d.animal ++ 0x2D :: hex.take 3)

/-- The request as the wrapped handler gets it, and the learner cookie of the response. -/
structure Forwarded where
  request : Request
  setCookie : Option GoString

def anonymousMiddleware (d : Draw) (r : Request) : Forwarded :=
  let name : GoString :=
    match r.cookie anonCookie with
    | some v => if nameRe.isMatch v then v else []
    | none => []
  if name = [] then
    ⟨{ r with learner := some (randomLearnerName d) }, some (randomLearnerName d)⟩
  else ⟨{ r with learner := some name }, none⟩

def learnerID (r : Request) : GoString :=
  match r.learner with
  | some v => if v ≠ [] then v else anonymous
  | none => anonymous

/-! ## Sessions -/

/-- The part of a manager that sessions depend on. -/
structure Manager where
  secret : GoString

variable (hmac : GoString → GoString → List UInt8)

/-- `<payload>.<mac>` -/
def Manager.sign (m : Manager) (payload : GoString) : GoString :=
  Base64.encodeToString payload ++ 0x2E :: Base64.encodeToString (hmac m.secret payload)

/-- `strings.SplitN` at the first dot, and the check of the MAC. -/
def Manager.verify (m : Manager) (v : GoString) : Option GoString :=
  if v.contains 0x2E then
    match Base64.decodeString (v.takeWhile (· ≠ 0x2E)) with
    | none => none
    | some payload =>
      if Base64.encodeToString (hmac m.secret payload) = (v.dropWhile (· ≠ 0x2E)).drop 1 then
        some payload
      else none
  else none

def Manager.userID (m : Manager) (r : Request) : GoString :=
  match r.cookie sessionCookie with
  | none => anonymous
  | some v => (m.verify hmac v).getD anonymous

/-- What `handleCallback` signs for a provider and the id of its user. -/
def callbackUserID (provider id : GoString) : GoString := provider ++ 0x3A :: id

/-- `nil` where social login is not configured. -/
def userIDFunc (m : Option Manager) (r : Request) : GoString :=
  match m with
  | some m =>
    let id := m.userID hmac r
    if id ≠ [] ∧ id ≠ anonymous then id else learnerID r
  | none => learnerID r

/-- Who scoring takes a request for, behind the middleware. -/
def resolve (m : Option Manager) (d : Draw) (r : Request) : GoString :=
  userIDFunc hmac m (anonymousMiddleware d r).request

/-! ## The shape of a learner name -/

/-- Two lower-case words and three hexadecimal digits. -/
structure LearnerName (name adjective animal hex : GoString) : Prop where
  eq : name = adjective ++ 0x2D :: (animal ++ 0x2D :: hex)
  adjective_ne : adjective ≠ []
  animal_ne : animal ≠ []
  adjective_lower : ∀ b ∈ adjective, isLower b = true
  animal_lower : ∀ b ∈ animal, isLower b = true
  hex_length : hex.length = 3
  hex_digits : ∀ b ∈ hex, Scoring.isLowerHex b = true

def IsLearnerName (name : GoString) : Prop := ∃ a b c, LearnerName name a b c

theorem consumes_word {v : GoString} {c : Re.Caps} :
    Re.Consumes (.many1 (.set isLower)) v c ↔ (v ≠ [] ∧ ∀ b ∈ v, isLower b = true) ∧ c = [] := by
  rw [Re.consumes_many1_set, and_assoc]

theorem consumes_hexDigits {v : GoString} {c : Re.Caps} :
    Re.Consumes (.all [.set Scoring.isLowerHex, .set Scoring.isLowerHex, .set Scoring.isLowerHex])
      v c ↔ (v.length = 3 ∧ ∀ b ∈ v, Scoring.isLowerHex b = true) ∧ c = [] := by
  rw [Re.consumes_all_cons_of_plain Re.consumes_set]
  constructor
  · intro h
    obtain ⟨_, _, ⟨x, hx, rfl⟩, h₁, rfl⟩ := h
    obtain ⟨_, _, ⟨y, hy, rfl⟩, h₂, rfl⟩ := (Re.consumes_all_cons_of_plain Re.consumes_set).mp h₁
    obtain ⟨⟨z, hz, rfl⟩, rfl⟩ := Re.consumes_set.mp (Re.consumes_all_singleton.mp h₂)
    simp [hx, hy, hz]
  · intro h
    obtain ⟨⟨hlen, hv⟩, rfl⟩ := h
    obtain ⟨x, y, z, rfl⟩ := List.length_eq_three.mp hlen
    simp only [List.forall_mem_cons] at hv
    obtain ⟨hx, hy, hz, -⟩ := hv
    refine ⟨[x], [y, z], ⟨x, hx, rfl⟩, ?_, rfl⟩
    refine (Re.consumes_all_cons_of_plain Re.consumes_set).mpr ⟨[y], [z], ⟨y, hy, rfl⟩, ?_, rfl⟩
    exact Re.consumes_all_singleton.mpr (.set hz)

theorem consumes_nameParts {v : GoString} {c : Re.Caps} :
    Re.Consumes (.all nameParts) v c ↔ IsLearnerName v ∧ c = [] := by
  rw [nameParts, Re.consumes_all_cons_of_plain consumes_word]
  constructor
  · intro h
    obtain ⟨adj, _, hadj, h₁, rfl⟩ := h
    obtain ⟨_, h₂, rfl⟩ := Re.consumes_all_byte_cons.mp h₁
    obtain ⟨animal, _, hanimal, h₃, rfl⟩ := (Re.consumes_all_cons_of_plain consumes_word).mp h₂
    obtain ⟨hex, h₄, rfl⟩ := Re.consumes_all_byte_cons.mp h₃
    obtain ⟨hhex, rfl⟩ := consumes_hexDigits.mp h₄
    exact ⟨⟨adj, animal, hex, rfl, hadj.1, hanimal.1, hadj.2, hanimal.2, hhex.1, hhex.2⟩, rfl⟩
  · intro h
    obtain ⟨⟨adj, animal, hex, h⟩, rfl⟩ := h
    refine ⟨adj, _, ⟨h.adjective_ne, h.adjective_lower⟩, ?_, h.eq⟩
    refine Re.consumes_all_byte_cons.mpr ⟨_, ?_, rfl⟩
    refine (Re.consumes_all_cons_of_plain consumes_word).mpr
      ⟨animal, _, ⟨h.animal_ne, h.animal_lower⟩, ?_, rfl⟩
    refine Re.consumes_all_byte_cons.mpr ⟨hex, ?_, rfl⟩
    exact consumes_hexDigits.mpr ⟨⟨h.hex_length, h.hex_digits⟩, rfl⟩

theorem isMatch_nameRe_iff {v : GoString} : nameRe.isMatch v = true ↔ IsLearnerName v := by
  rw [Re.isMatch, Option.isSome_iff_exists]
  constructor
  · intro h
    obtain ⟨m, hm⟩ := h
    exact (consumes_nameParts.mp (Re.consumes_of_find_anchored hm)).1
  · intro h
    refine Option.isSome_iff_exists.mp
      (Re.isSome_find_anchored ?_ (consumes_nameParts.mpr ⟨h, rfl⟩))
    simp [nameParts, Re.all, Re.Plain, Re.many1, Re.byte]

/-- No colon is in a learner name. -/
theorem IsLearnerName.ne_callbackUserID {name : GoString} (h : IsLearnerName name)
    (provider id : GoString) : name ≠ callbackUserID provider id := by
  obtain ⟨a, b, c, h⟩ := h
  intro heq
  have hcolon : (0x3A : UInt8) ∈ name := by
    rw [heq]
    exact List.mem_append_right _ List.mem_cons_self
  rw [h.eq, List.mem_append, List.mem_cons, List.mem_append, List.mem_cons] at hcolon
  rcases hcolon with hmem | hdash | hmem | hdash | hmem
  · exact absurd (h.adjective_lower _ hmem) (by decide)
  · exact absurd hdash (by decide)
  · exact absurd (h.animal_lower _ hmem) (by decide)
  · exact absurd hdash (by decide)
  · exact absurd (h.hex_digits _ hmem) (by decide)

theorem IsLearnerName.ne_nil {name : GoString} (h : IsLearnerName name) : name ≠ [] := by
  obtain ⟨a, b, c, h⟩ := h
  rw [h.eq]
  exact List.append_ne_nil_of_left_ne_nil h.adjective_ne _

theorem isLower_of_mem_words :
    (∀ w ∈ anonAdjectives, w ≠ [] ∧ ∀ b ∈ w, isLower b = true) ∧
      ∀ w ∈ anonAnimals, w ≠ [] ∧ ∀ b ∈ w, isLower b = true := by
  decide +kernel

/-- What the middleware makes up has the shape it accepts back. -/
theorem isLearnerName_randomLearnerName (d : Draw) : IsLearnerName (randomLearnerName d) := by
  obtain ⟨hadj, hanimal⟩ := isLower_of_mem_words
  obtain ⟨hadj_ne, hadj_lower⟩ := hadj _ (List.get_mem anonAdjectives d.adjective)
  obtain ⟨hanimal_ne, hanimal_lower⟩ := hanimal _ (List.get_mem anonAnimals d.animal)
  refine ⟨_, _, _, ⟨rfl, hadj_ne, hanimal_ne, hadj_lower, hanimal_lower, ?_, fun b hb => ?_⟩⟩
  · rfl
  · rcases List.mem_append.mp (List.mem_of_mem_take hb) with h | h
    · exact Scoring.isLowerHex_hexDigits h
    · exact Scoring.isLowerHex_hexDigits h

/-! ## Sessions and names -/

variable {hmac : GoString → GoString → List UInt8} {m : Option Manager} {d d' : Draw}
  {r r' : Request}

/-- A session that was signed is recognised. -/
theorem verify_sign (m : Manager) (payload : GoString) :
    m.verify hmac (m.sign hmac payload) = some payload := by
  have hdot : ∀ b ∈ Base64.encodeToString payload, (decide (b ≠ 0x2E)) = true := by
    intro b hb
    exact decide_eq_true fun heq => Base64.dot_notMem_encodeToString payload (heq ▸ hb)
  have htake : (m.sign hmac payload).takeWhile (· ≠ 0x2E) = Base64.encodeToString payload := by
    rw [Manager.sign, List.takeWhile_append_of_pos hdot]
    simp
  have hdrop : (m.sign hmac payload).dropWhile (· ≠ 0x2E) =
      0x2E :: Base64.encodeToString (hmac m.secret payload) := by
    rw [Manager.sign, List.dropWhile_append_of_pos hdot]
    simp
  have hcontains : (m.sign hmac payload).contains 0x2E = true := by
    simp [Manager.sign]
  rw [Manager.verify, if_pos hcontains, htake, hdrop, Base64.decodeString_encodeToString]
  simp

/-- The identity a request's session cookie stands for, which the learner cookie has no
part in. -/
def loggedIn (hmac : GoString → GoString → List UInt8) (m : Option Manager) (r : Request) :
    Option GoString :=
  (m.bind fun m => (r.cookie sessionCookie).bind (m.verify hmac)).filter
    fun id => id ≠ [] ∧ id ≠ anonymous

/-- A session cookie of the request carries the payload under a MAC that verifies. -/
def Signed (hmac : GoString → GoString → List UInt8) (m : Option Manager) (r : Request)
    (payload : GoString) : Prop :=
  ∃ mgr v, m = some mgr ∧ r.cookie sessionCookie = some v ∧ mgr.verify hmac v = some payload

theorem signed_of_loggedIn {id : GoString} (h : loggedIn hmac m r = some id) :
    Signed hmac m r id ∧ id ≠ [] ∧ id ≠ anonymous := by
  rw [loggedIn, Option.filter_eq_some_iff, decide_eq_true_iff] at h
  obtain ⟨h, hne⟩ := h
  obtain ⟨mgr, hm, hv⟩ := Option.bind_eq_some_iff.mp h
  obtain ⟨v, hcookie, hv⟩ := Option.bind_eq_some_iff.mp hv
  exact ⟨⟨mgr, v, hm, hcookie, hv⟩, hne⟩

theorem learnerID_anonymousMiddleware (d : Draw) (r : Request) :
    IsLearnerName (learnerID (anonymousMiddleware d r).request) := by
  have hdraw := isLearnerName_randomLearnerName d
  have hname : ∀ name, IsLearnerName name → learnerID { r with learner := some name } = name := by
    intro name h
    exact if_pos h.ne_nil
  unfold anonymousMiddleware
  dsimp only
  split_ifs with hempty
  · rw [hname _ hdraw]
    exact hdraw
  · revert hempty
    cases r.cookie anonCookie with
    | none => exact fun h => absurd rfl h
    | some v =>
      dsimp only
      split_ifs with hmatch
      · intro _
        have hv := isMatch_nameRe_iff.mp hmatch
        rw [hname v hv]
        exact hv
      · exact fun h => absurd rfl h

/-- A logged-in identity wins, and otherwise the learner name counts. -/
theorem resolve_eq (d : Draw) (r : Request) : resolve hmac m d r =
    (loggedIn hmac m r).getD (learnerID (anonymousMiddleware d r).request) := by
  have hcookie : (anonymousMiddleware d r).request.cookie sessionCookie =
      r.cookie sessionCookie := by
    unfold anonymousMiddleware
    dsimp only
    split_ifs
    · rfl
    · rfl
  rw [resolve, loggedIn]
  unfold userIDFunc
  cases m with
  | none => rfl
  | some mgr =>
    dsimp only
    rw [Manager.userID, hcookie, Option.bind_some]
    cases r.cookie sessionCookie with
    | none => simp
    | some v =>
      dsimp only
      rw [Option.bind_some]
      rcases Option.eq_none_or_eq_some (mgr.verify hmac v) with hv | ⟨id, hv⟩
      · simp [hv]
      · simp only [hv, Option.getD_some, Option.filter_some]
        by_cases hid : id ≠ [] ∧ id ≠ anonymous
        · rw [if_pos hid, if_pos (decide_eq_true hid), Option.getD_some]
        · rw [if_neg hid, if_neg (by simpa using hid), Option.getD_none]

theorem resolve_of_loggedIn {id : GoString} (h : loggedIn hmac m r = some id) (d : Draw) :
    resolve hmac m d r = id := by
  rw [resolve_eq, h, Option.getD_some]

theorem isLearnerName_resolve (h : loggedIn hmac m r = none) (d : Draw) :
    IsLearnerName (resolve hmac m d r) := by
  rw [resolve_eq, h, Option.getD_none]
  exact learnerID_anonymousMiddleware d r

/-- The user is a signed payload or a learner name, whatever cookies a request has. -/
theorem signed_or_isLearnerName (d : Draw) (r : Request) :
    Signed hmac m r (resolve hmac m d r) ∨ IsLearnerName (resolve hmac m d r) := by
  cases h : loggedIn hmac m r with
  | none => exact .inr (isLearnerName_resolve h d)
  | some id => exact .inl (resolve_of_loggedIn h d ▸ (signed_of_loggedIn h).1)

/-- The two requests have the same cookies but for the learner cookie. -/
def SameButLearner (r r' : Request) : Prop :=
  (r.cookies.filter fun c => c.1 ≠ anonCookie) = r'.cookies.filter fun c => c.1 ≠ anonCookie

theorem lookup_filter_cookies (cookies : List (GoString × GoString)) :
    (cookies.filter fun c => c.1 ≠ anonCookie).lookup sessionCookie =
      cookies.lookup sessionCookie := by
  induction cookies with
  | nil => rfl
  | cons c cookies ih =>
    obtain ⟨name, v⟩ := c
    by_cases hname : name = anonCookie
    · subst hname
      have hne : (sessionCookie == anonCookie) = false := by decide
      rw [List.filter_cons, if_neg (by simp), ih, List.lookup_cons, hne]
    · rw [List.filter_cons, if_pos (by simpa using hname), List.lookup_cons, List.lookup_cons, ih]

theorem loggedIn_congr (h : SameButLearner r r') : loggedIn hmac m r = loggedIn hmac m r' := by
  have hcookie : r.cookie sessionCookie = r'.cookie sessionCookie := by
    rw [Request.cookie, Request.cookie, ← lookup_filter_cookies, h, lookup_filter_cookies]
  rw [loggedIn, loggedIn, hcookie]

/-! ## The scoreboard -/

/-- A request to the scoring API: its cookies, the draw of its middleware, and the call,
whose user the handler asks for. -/
structure Visit where
  request : Request
  draw : Draw
  call : Scoring.Call

def Visit.scored (hmac : GoString → GoString → List UInt8) (m : Option Manager) (v : Visit) :
    Scoring.Call :=
  match v.call with
  | .attempt r => .attempt { r with user := resolve hmac m v.draw v.request }
  | .verify r fetcher => .verify { r with user := resolve hmac m v.draw v.request } fetcher

/-- One call adds no solve but one of the request's user. -/
theorem solved_serve {regexp : Scoring.Regexp} {srv : Scoring.Server} {v : Visit}
    {h u : GoString} (hsolved : (srv.serve regexp (v.scored hmac m)).store.solved h u = true) :
    srv.store.solved h u = true ∨ u = resolve hmac m v.draw v.request := by
  rcases srv.serve_cases regexp (v.scored hmac m) with ⟨hstore, -⟩ | ⟨c, user, -, hstore, huser⟩
  · rw [hstore] at hsolved
    exact .inl hsolved
  · rw [hstore, Scoring.Store.solved_recordSolve] at hsolved
    refine hsolved.imp id fun hnew => hnew.2.trans ?_
    rw [Visit.scored] at huser
    cases hcall : v.call with
    | attempt r =>
      rw [hcall] at huser
      rcases huser with hproves | ⟨r', heq, rfl, -⟩
      · exact hproves.elim
      · cases heq
        rfl
    | verify r fetcher =>
      rw [hcall] at huser
      rcases huser with hproves | ⟨r', heq, -⟩
      · exact hproves.1.symm
      · cases heq

/-- Nor do any number of calls. -/
theorem solved_run {regexp : Scoring.Regexp} {srv srv' : Scoring.Server} {visits : List Visit}
    (hrun : Runs.run (Scoring.Server.step regexp) srv (visits.map (Visit.scored hmac m)) =
      some srv')
    {h u : GoString} (hsolved : srv'.store.solved h u = true) :
    srv.store.solved h u = true ∨ ∃ v ∈ visits, u = resolve hmac m v.draw v.request := by
  induction visits generalizing srv with
  | nil =>
    cases hrun
    exact .inl hsolved
  | cons v visits ih =>
    obtain ⟨mid, hmid, hrest⟩ := Runs.run_cons_some.mp hrun
    cases hmid
    rcases ih hrest with hold | ⟨v', hv', hu⟩
    · exact (solved_serve hold).imp id fun hu => ⟨v, List.mem_cons_self, hu⟩
    · exact .inr ⟨v', List.mem_cons_of_mem v hv', hu⟩

/-- Behind the middleware a request is a signed payload or a learner name; the two never
meet; a learner cookie neither gives nor changes a logged-in identity; and the scoreboard
gets no other user. -/
theorem identity_closed (hmac : GoString → GoString → List UInt8) (m : Option Manager) :
    (∀ d r, Signed hmac m r (resolve hmac m d r) ∨ IsLearnerName (resolve hmac m d r)) ∧
      (∀ name provider id, IsLearnerName name → name ≠ callbackUserID provider id) ∧
      (∀ d d' r r', SameButLearner r r' → loggedIn hmac m r = loggedIn hmac m r' ∧
        (∀ id, loggedIn hmac m r = some id →
          resolve hmac m d r = id ∧ resolve hmac m d' r' = id) ∧
        (loggedIn hmac m r = none →
          IsLearnerName (resolve hmac m d r) ∧ IsLearnerName (resolve hmac m d' r'))) ∧
      ∀ regexp srv srv' (visits : List Visit),
        Runs.run (Scoring.Server.step regexp) srv (visits.map (Visit.scored hmac m)) = some srv' →
          ∀ h u, srv'.store.solved h u = true → srv.store.solved h u = true ∨
            ∃ v ∈ visits, u = resolve hmac m v.draw v.request ∧
              (Signed hmac m v.request u ∨ IsLearnerName u) := by
  refine ⟨signed_or_isLearnerName, fun _ provider id h => h.ne_callbackUserID provider id, ?_, ?_⟩
  · intro d d' r r' hsame
    have hlogged : loggedIn hmac m r = loggedIn hmac m r' := loggedIn_congr hsame
    refine ⟨hlogged, fun id hid => ?_, fun hnone => ?_⟩
    · exact ⟨resolve_of_loggedIn hid d, resolve_of_loggedIn (hlogged ▸ hid) d'⟩
    · exact ⟨isLearnerName_resolve hnone d, isLearnerName_resolve (hlogged ▸ hnone) d'⟩
  · intro regexp srv srv' visits hrun h u hsolved
    refine (solved_run hrun hsolved).imp id fun hvisit => ?_
    obtain ⟨v, hv, rfl⟩ := hvisit
    exact ⟨v, hv, rfl, signed_or_isLearnerName v.draw v.request⟩

/-! ## A session beside a learner cookie -/

/-- HMAC-SHA256 of one payload under one secret. -/
def githubMac : GoString → GoString → List UInt8 := fun secret payload =>
  if secret = utf8 "s3cr3t" ∧ payload = utf8 "github:42" then
    [0x57, 0x97, 0x05, 0xAA, 0x9C, 0x05, 0x2C, 0x9C, 0x0C, 0xDE, 0xB4, 0xE9, 0x3D, 0x84, 0xD9, 0xAE,
      0x7F, 0xE4, 0xA3, 0xE2, 0x25, 0xDA, 0x9C, 0x41, 0xC5, 0xB6, 0x4E, 0xD4, 0xF9, 0x31, 0x90, 0x95]
  else []

def manager : Manager := ⟨utf8 "s3cr3t"⟩

def withLearner (learner : String) : Request :=
  ⟨[(anonCookie, utf8 learner),
    (sessionCookie, utf8 "Z2l0aHViOjQy.V5cFqpwFLJwM3rTpPYTZrn_ko-Il2pxBxbZO1PkxkJU")], none⟩

def firstWords : Draw := ⟨⟨0, by decide⟩, ⟨0, by decide⟩, (0, 0)⟩

theorem identity_closed_github :
    resolve githubMac (some manager) firstWords (withLearner "brisk-otter-4f2") =
        utf8 "github:42" ∧
      resolve githubMac (some manager) firstWords (withLearner "<b>admin</b>") =
        utf8 "github:42" := by
  have hclosed := identity_closed githubMac (some manager)
  have hlogged : loggedIn githubMac (some manager) (withLearner "brisk-otter-4f2") =
      some (utf8 "github:42") := by
    decide +kernel
  have hsame : SameButLearner (withLearner "brisk-otter-4f2") (withLearner "<b>admin</b>") := by
    unfold SameButLearner
    decide +kernel
  exact (hclosed.2.2.1 firstWords firstWords _ _ hsame).2.1 _ hlogged

end TrainingPlatform.Auth
