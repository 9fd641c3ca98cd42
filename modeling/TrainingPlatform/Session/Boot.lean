import TrainingPlatform.Session.Deadlines

/-!
# Booting an instance

The two constructors of an instance, with their wait for the Pod.  What the API server replies
during a call is an argument: to the create, to each poll in turn, and to the delete that
cleans up.
-/

namespace TrainingPlatform.Session.Boot

open Go

/-- One round of the wait: what `Get` returns, and `ctx.Err()` if the context has ended when the
round does. -/
structure Round where
  get : Except GoString Pod
  done : Option GoString

structure Replies where
  create : Option GoString
  rounds : List Round
  delete : Option GoString

structure Instance where
  name : GoString
  sessionID : GoString
  ip : GoString
  image : GoString
  expiresAt : Int

/-- The fields of the engine a constructor reads. -/
structure Config extends Engine where
  nsPfx : GoString
  dindImg : GoString

/-- The Pods of each namespace. -/
abbrev Cluster := GoString → Pods

/-- Running with an address. -/
def isUp (p : Pod) : Bool := p.phase = .running && p.podIP ≠ []

/-- The body of the loop of `waitForReady`, none where it goes round again. -/
def Round.result (r : Round) : Option (Except GoString GoString) :=
  match r.get with
  | .error e => some (.error e)
  | .ok p =>
    if fatalPodReason p ≠ [] then
      some (.error (utf8 "instance pod cannot start: " ++ fatalPodReason p))
    else if isUp p then some (.ok p.podIP)
    else r.done.map fun e => .error (utf8 "waiting for instance pod (last phase " ++
      phaseName p.phase ++ utf8 "): " ++ e)

/-- None while the rounds seen so far leave it waiting. -/
def waitForReady : List Round → Option (Except GoString GoString)
  | [] => none
  | r :: rs =>
    match r.result with
    | some x => some x
    | none => waitForReady rs

/-- A `Create` that the API server takes is for a name that was free. -/
def createPod (reply : Option GoString) (cluster : Cluster) (ns name : GoString) (p : Pod) :
    Except GoString Cluster :=
  match reply with
  | some e => .error e
  | none =>
    if ((cluster ns).lookup name).isSome then
      .error (utf8 "pods \"" ++ name ++ utf8 "\" already exists")
    else .ok (Function.update cluster ns ((cluster ns).insert name p))

def deletePod (reply : Option GoString) (cluster : Cluster) (ns name : GoString) : Cluster :=
  match reply with
  | some _ => cluster
  | none => Function.update cluster ns ((cluster ns).erase name)

/-- What a constructor returns, none while it waits, and the Pods there are then. -/
structure Outcome where
  returned : Option (Except GoString Instance)
  cluster : Cluster

def Config.namespaceFor (cfg : Config) (sessionID : GoString) : GoString := cfg.nsPfx ++ sessionID

/-- The labels of an instance of a session, which has no deadline. -/
def sessionLabels (sessionID : GoString) : Labels :=
  (Finmap.insert managedByLabel managedByValue ∅).insert (utf8 "training.kalw/session-id") sessionID

/-- `InstanceNew`. -/
def instanceNew (cfg : Config) (replies : Replies) (cluster : Cluster)
    (sessionID name image : GoString) : Outcome :=
  let image := if image = [] then cfg.dindImg else image
  let ns := cfg.namespaceFor sessionID
  let labels := sessionLabels sessionID
  match createPod replies.create cluster ns name ⟨labels, .pending, [], [], none⟩ with
  | .error e => ⟨some (.error (utf8 "creating instance pod: " ++ e)), cluster⟩
  | .ok made =>
    match waitForReady replies.rounds with
    | none => ⟨none, made⟩
    | some (.error e) => ⟨some (.error e), made⟩
    | some (.ok ip) => ⟨some (.ok ⟨name, sessionID, ip, image, 0⟩), made⟩

/-- `NewEphemeralInstance`, given the time and the suffix it draws. -/
def newEphemeralInstance (cfg : Config) (replies : Replies) (cluster : Cluster) (now : Int)
    (suffix creator ns image : GoString) : Outcome :=
  let image := if image = [] then cfg.dindImg else image
  let name := utf8 "i-" ++ suffix
  let labels := instanceLabels cfg.toEngine now
  match createPod replies.create cluster ns name ⟨labels, .pending, [], [], some creator⟩ with
  | .error e => ⟨some (.error (utf8 "creating instance pod: " ++ e)), cluster⟩
  | .ok made =>
    match waitForReady replies.rounds with
    | none => ⟨none, made⟩
    | some (.error e) => ⟨some (.error e), deletePod replies.delete made ns name⟩
    | some (.ok ip) => ⟨some (.ok ⟨name, [], ip, image, effectiveExpiry labels⟩), made⟩

/-! ## The wait -/

/-- The round finds the Pod up, and with nothing that keeps it from starting. -/
def Round.Ready (r : Round) : Prop :=
  ∃ p, r.get = .ok p ∧ fatalPodReason p = [] ∧ isUp p = true

/-- The round finds a Pod that can still start, and the context has time left. -/
def Round.waits (r : Round) : Bool :=
  match r.get with
  | .error _ => false
  | .ok p => fatalPodReason p = [] && !isUp p && r.done.isNone

/-- The first round that does not wait. -/
def lastRound (rounds : List Round) : Option Round := (rounds.dropWhile Round.waits).head?

/-- No round before the Pod is ready ends the wait. -/
def ComesUp (rounds : List Round) : Prop := ∀ r, lastRound rounds = some r → r.Ready

/-- A round that waits goes round again, a ready one returns the address of its Pod, and any other
an error. -/
theorem result_cases (r : Round) :
    (r.waits = true ∧ r.result = none) ∨ r.waits = false ∧
      ((∃ p, r.get = .ok p ∧ fatalPodReason p = [] ∧ isUp p = true ∧
        r.result = some (.ok p.podIP)) ∨
      ¬ r.Ready ∧ ∃ e, r.result = some (.error e)) := by
  obtain ⟨get, done⟩ := r
  cases get with
  | error e => exact .inr ⟨rfl, .inr ⟨fun h => (by obtain ⟨p, hp, -⟩ := h; cases hp), e, rfl⟩⟩
  | ok p =>
    by_cases hfatal : fatalPodReason p = []
    · cases hup : isUp p with
      | true =>
        refine .inr ⟨by simp [Round.waits, hup], .inl ⟨p, rfl, hfatal, hup, ?_⟩⟩
        simp [Round.result, hfatal, hup]
      | false =>
        cases done with
        | none => exact .inl ⟨by simp [Round.waits, hfatal, hup], by simp [Round.result, hfatal, hup]⟩
        | some e =>
          refine .inr ⟨by simp [Round.waits], .inr ⟨?_, _, by simp [Round.result, hfatal, hup]; rfl⟩⟩
          intro hready
          obtain ⟨q, hq, -, hqup⟩ := hready
          cases hq
          rw [hup] at hqup
          cases hqup
    · refine .inr ⟨by simp [Round.waits, hfatal], .inr ⟨?_, _, by simp [Round.result, hfatal]; rfl⟩⟩
      intro hready
      obtain ⟨q, hq, hnone, -⟩ := hready
      cases hq
      exact hfatal hnone

/-- The wait ends with the first round that does not go round again. -/
theorem waitForReady_eq (rounds : List Round) :
    waitForReady rounds = (lastRound rounds).bind Round.result := by
  induction rounds with
  | nil => rfl
  | cons r rounds ih =>
    rw [waitForReady, lastRound]
    rcases result_cases r with hwaits | hends
    · rw [List.dropWhile_cons_of_pos hwaits.1, hwaits.2]
      exact ih
    · have hnot : ¬ r.waits = true := by rw [hends.1]; exact Bool.false_ne_true
      rw [List.dropWhile_cons_of_neg hnot, List.head?_cons, Option.bind_some]
      rcases hends.2 with hready | hfails
      · obtain ⟨p, -, -, -, hresult⟩ := hready
        rw [hresult]
      · obtain ⟨-, e, hresult⟩ := hfails
        rw [hresult]

theorem mem_of_lastRound {rounds : List Round} {r : Round} (h : lastRound rounds = some r) :
    r ∈ rounds ∧ r.waits = false := by
  refine ⟨(List.dropWhile_sublist _).subset (List.mem_of_mem_head? h), ?_⟩
  have hne : rounds.dropWhile Round.waits ≠ [] := by
    intro hnil
    rw [lastRound, hnil] at h
    cases h
  have hhead := List.head_dropWhile_not Round.waits hne
  rw [lastRound, List.head?_eq_some_head hne, Option.some.injEq] at h
  rwa [h] at hhead

/-- It returns the address of a Pod a round found up. -/
theorem waitForReady_ok {rounds : List Round} {ip : GoString}
    (h : waitForReady rounds = some (.ok ip)) :
    ∃ r ∈ rounds, ∃ p, r.get = .ok p ∧ fatalPodReason p = [] ∧ isUp p = true ∧ ip = p.podIP := by
  rw [waitForReady_eq, Option.bind_eq_some_iff] at h
  obtain ⟨r, hr, hresult⟩ := h
  refine ⟨r, (mem_of_lastRound hr).1, ?_⟩
  rcases result_cases r with hwaits | hends
  · rw [hwaits.2] at hresult
    cases hresult
  · rcases hends.2 with hready | hfails
    · obtain ⟨p, hp, hfatal, hup, heq⟩ := hready
      rw [heq] at hresult
      cases hresult
      exact ⟨p, hp, hfatal, hup, rfl⟩
    · obtain ⟨-, e, heq⟩ := hfails
      rw [heq] at hresult
      cases hresult

/-- It fails exactly where a round before the Pod is ready ends the wait. -/
theorem waitForReady_error_iff {rounds : List Round} :
    (∃ e, waitForReady rounds = some (.error e)) ↔ ¬ ComesUp rounds := by
  rw [waitForReady_eq, ComesUp]
  cases hlast : lastRound rounds with
  | none => exact iff_of_false (by simp) (by simp)
  | some r =>
    simp only [Option.bind_some, Option.some.injEq, forall_eq']
    rcases result_cases r with hwaits | hends
    · rw [(mem_of_lastRound hlast).2] at hwaits
      cases hwaits.1
    · rcases hends.2 with hready | hfails
      · obtain ⟨p, hp, hfatal, hup, heq⟩ := hready
        refine iff_of_false (fun he => ?_) (not_not.mpr ⟨p, hp, hfatal, hup⟩)
        obtain ⟨e, he⟩ := he
        rw [heq] at he
        cases he
      · exact iff_of_true hfails.2 hfails.1

/-- A context that ends ends the wait. -/
theorem waitForReady_isSome {rounds : List Round} (h : ∃ r ∈ rounds, r.done.isSome = true) :
    (waitForReady rounds).isSome = true := by
  rw [waitForReady_eq]
  cases hlast : lastRound rounds with
  | none =>
    obtain ⟨r, hr, hdone⟩ := h
    have hall := List.dropWhile_eq_nil_iff.mp (List.head?_eq_none_iff.mp hlast) r hr
    unfold Round.waits at hall
    split at hall
    · cases hall
    · simp [Option.isNone_iff_eq_none] at hall
      rw [hall.2] at hdone
      cases hdone
  | some r =>
    rw [Option.bind_some]
    rcases result_cases r with hwaits | hends
    · rw [(mem_of_lastRound hlast).2] at hwaits
      cases hwaits.1
    · rcases hends.2 with hready | hfails
      · obtain ⟨p, -, -, -, heq⟩ := hready
        rw [heq]
        rfl
      · obtain ⟨-, e, heq⟩ := hfails
        rw [heq]
        rfl

/-! ## What is left behind -/

/-- An instance is one whose Pod was seen up, and an error leaves the Pods as they were.  A
constructor returns at the latest when its context ends. -/
structure Tidy (before : Cluster) (rounds : List Round) (out : Outcome) : Prop where
  ready : ∀ inst, out.returned = some (.ok inst) →
    ∃ r ∈ rounds, ∃ p, r.get = .ok p ∧ p.phase = .running ∧ p.podIP ≠ [] ∧
      fatalPodReason p = [] ∧ inst.ip = p.podIP
  undone : ∀ e, out.returned = some (.error e) →
    ∀ ns name, (out.cluster ns).lookup name = (before ns).lookup name
  returns : (∃ r ∈ rounds, r.done.isSome = true) → out.returned.isSome = true

section Tidy

variable {before made : Cluster} {ns name : GoString} {p : Pod} {rounds : List Round}

theorem createPod_eq_ok {reply : Option GoString} :
    createPod reply before ns name p = .ok made ↔
      reply = none ∧ (before ns).lookup name = none ∧
        made = Function.update before ns ((before ns).insert name p) := by
  cases reply with
  | some e => simp [createPod]
  | none =>
    rw [createPod]
    cases (before ns).lookup name with
    | none => simp [eq_comm]
    | some q => simp

/-- A Pod made and deleted again leaves no trace. -/
theorem lookup_deletePod_made (hfree : (before ns).lookup name = none) (ns' name' : GoString) :
    ((deletePod none (Function.update before ns ((before ns).insert name p)) ns name) ns').lookup
      name' = (before ns').lookup name' := by
  rw [deletePod]
  by_cases hns : ns' = ns
  · subst hns
    rw [Function.update_self, Function.update_self]
    by_cases hname : name' = name
    · subst hname
      rw [AList.lookup_erase, hfree]
    · rw [AList.lookup_erase_ne hname, AList.lookup_insert_ne hname]
  · rw [Function.update_of_ne hns, Function.update_of_ne hns]

/-- The end of a constructor: an instance of the address the wait returns, or its error with the
Pods `left` behind. -/
def finish (rounds : List Round) (made left : Cluster) (inst : GoString → Instance) : Outcome :=
  match waitForReady rounds with
  | none => ⟨none, made⟩
  | some (.error e) => ⟨some (.error e), left⟩
  | some (.ok ip) => ⟨some (.ok (inst ip)), made⟩

theorem tidy_finish_iff {left : Cluster} {inst : GoString → Instance}
    (hinst : ∀ ip, (inst ip).ip = ip) :
    Tidy before rounds (finish rounds made left inst) ↔
      ComesUp rounds ∨ ∀ ns name, (left ns).lookup name = (before ns).lookup name := by
  have herror := @waitForReady_error_iff rounds
  have hends := @waitForReady_isSome rounds
  rw [finish]
  cases hwait : waitForReady rounds with
  | none =>
    rw [hwait] at herror hends
    have hup : ComesUp rounds := not_not.mp (herror.not.mp (by simp))
    exact iff_of_true ⟨nofun, nofun, hends⟩ (.inl hup)
  | some result =>
    cases result with
    | error e =>
      have hup : ¬ ComesUp rounds := herror.mp ⟨e, hwait⟩
      rw [or_iff_right hup]
      exact ⟨fun h => h.undone e rfl, fun h => ⟨nofun, fun _ _ => h, fun _ => rfl⟩⟩
    | ok ip =>
      rw [hwait] at herror
      have hup : ComesUp rounds := not_not.mp (herror.not.mp (by simp))
      refine iff_of_true ⟨fun i hi => ?_, nofun, fun _ => rfl⟩ (.inl hup)
      obtain ⟨r, hr, p, hp, hfatal, hpup, rfl⟩ := waitForReady_ok hwait
      rw [Option.some.injEq, Except.ok.injEq] at hi
      rw [isUp, Bool.and_eq_true, decide_eq_true_eq, decide_eq_true_eq] at hpup
      exact ⟨r, hr, p, hp, hpup.1, hpup.2, hfatal, by rw [← hi, hinst]⟩

/-- A create that fails returns at once. -/
theorem tidy_of_create_error {e : GoString} :
    Tidy before rounds ⟨some (.error e), before⟩ :=
  ⟨nofun, fun _ _ _ _ => rfl, fun _ => rfl⟩

theorem createPod_eq_error {reply : Option GoString} {e : GoString}
    (h : createPod reply before ns name p = .error e) :
    reply.isSome = true ∨ ((before ns).lookup name).isSome = true := by
  cases reply with
  | some e => exact .inl rfl
  | none =>
    rw [createPod] at h
    cases hname : (before ns).lookup name with
    | none =>
      rw [hname] at h
      cases h
    | some q => exact .inr rfl

variable (cfg : Config) (replies : Replies) (before) (sessionID name image : GoString)

theorem instanceNew_eq :
    instanceNew cfg replies before sessionID name image =
      match createPod replies.create before (cfg.namespaceFor sessionID) name
        ⟨sessionLabels sessionID, .pending, [], [], none⟩ with
      | .error e => ⟨some (.error (utf8 "creating instance pod: " ++ e)), before⟩
      | .ok made => finish replies.rounds made made fun ip =>
        ⟨name, sessionID, ip, if image = [] then cfg.dindImg else image, 0⟩ := rfl

/-- `InstanceNew` leaves its Pod where the wait fails. -/
theorem tidy_instanceNew_iff :
    Tidy before replies.rounds (instanceNew cfg replies before sessionID name image) ↔
      replies.create.isSome = true ∨
        ((before (cfg.namespaceFor sessionID)).lookup name).isSome = true ∨
          ComesUp replies.rounds := by
  rw [instanceNew_eq]
  split
  · next e hcreate =>
    rw [← or_assoc]
    exact iff_of_true tidy_of_create_error (.inl (createPod_eq_error hcreate))
  · next made hcreate =>
    obtain ⟨hreply, hfree, hmade⟩ := createPod_eq_ok.mp hcreate
    -- The Pod is there whenever the wait has begun.
    have hleft : ¬ ∀ ns name, (made ns).lookup name = (before ns).lookup name := by
      intro h
      have hpod := h (cfg.namespaceFor sessionID) name
      rw [hmade, Function.update_self, AList.lookup_insert, hfree] at hpod
      cases hpod
    rw [tidy_finish_iff fun _ => rfl, or_iff_left hleft, hreply, hfree]
    simp

variable (now : Int) (suffix creator ns : GoString)

theorem newEphemeralInstance_eq :
    newEphemeralInstance cfg replies before now suffix creator ns image =
      match createPod replies.create before ns (utf8 "i-" ++ suffix)
        ⟨instanceLabels cfg.toEngine now, .pending, [], [], some creator⟩ with
      | .error e => ⟨some (.error (utf8 "creating instance pod: " ++ e)), before⟩
      | .ok made => finish replies.rounds made
        (deletePod replies.delete made ns (utf8 "i-" ++ suffix)) fun ip =>
          ⟨utf8 "i-" ++ suffix, [], ip, if image = [] then cfg.dindImg else image,
            effectiveExpiry (instanceLabels cfg.toEngine now)⟩ := rfl

/-- `NewEphemeralInstance` deletes its Pod where the wait fails. -/
theorem tidy_newEphemeralInstance (hdelete : replies.delete = none) :
    Tidy before replies.rounds
      (newEphemeralInstance cfg replies before now suffix creator ns image) := by
  rw [newEphemeralInstance_eq]
  split
  · next e hcreate => exact tidy_of_create_error
  · next made hcreate =>
    obtain ⟨-, hfree, rfl⟩ := createPod_eq_ok.mp hcreate
    rw [hdelete]
    exact (tidy_finish_iff fun _ => rfl).mpr (.inr (lookup_deletePod_made hfree))

/-- Where clean-up deletes succeed, one constructor always leaves things as it should, and the
other exactly where its create fails or its Pod comes up. -/
theorem tidy_iff_comesUp (hdelete : replies.delete = none) :
    Tidy before replies.rounds
      (newEphemeralInstance cfg replies before now suffix creator ns image) ∧
    (Tidy before replies.rounds (instanceNew cfg replies before sessionID name image) ↔
      replies.create.isSome = true ∨
        ((before (cfg.namespaceFor sessionID)).lookup name).isSome = true ∨
          ComesUp replies.rounds) :=
  ⟨tidy_newEphemeralInstance before cfg replies image now suffix creator ns hdelete,
    tidy_instanceNew_iff before cfg replies sessionID name image⟩

end Tidy

/-! ## The operations of a namespace -/

/-- A round is the one of the namespace's engine, whose `Get` looks the Pod up. -/
theorem waitForReady_eq_result (api : Api) (timeout : Bool) (pods : Pods) (name : GoString)
    (text : ApiError → GoString) (err : GoString) :
    Session.waitForReady api timeout pods name =
      match Round.result ⟨(getPod api pods name).mapError text, if timeout then some err else none⟩ with
      | some (.ok ip) => .ready ip
      | some (.error _) => .failed
      | none => .again := by
  rw [Session.waitForReady]
  cases getPod api pods name with
  | error e => rfl
  | ok p =>
    have hup : (decide (p.phase = .running) && decide (p.podIP ≠ [])) = isUp p := rfl
    simp only [Except.mapError, Round.result, hup]
    by_cases hfatal : fatalPodReason p = []
    · rw [if_neg (not_not.mpr hfatal), if_neg (not_not.mpr hfatal)]
      cases isUp p <;> cases timeout <;> rfl
    · rw [if_pos hfatal, if_pos hfatal]

/-- The wait has failed. -/
def waitFailed (rounds : List Round) : Bool :=
  match waitForReady rounds with
  | some (.error _) => true
  | _ => false

/-- What the boot does to its namespace is the operation of `Session.newEphemeralInstance`. -/
theorem pods_newEphemeralInstance (cfg : Config) (replies : Replies) (before : Cluster) (now : Int)
    (suffix creator ns image : GoString) :
    (newEphemeralInstance cfg replies before now suffix creator ns image).cluster ns =
      (Session.newEphemeralInstance cfg.toEngine now (before ns) (utf8 "i-" ++ suffix) creator
        replies.create.isNone (!waitFailed replies.rounds) replies.delete.isNone).getD (before ns) := by
  obtain ⟨create, rounds, delete⟩ := replies
  rw [newEphemeralInstance_eq, Session.newEphemeralInstance, createInstance]
  cases create with
  | some e => rfl
  | none =>
    cases hfree : (before ns).lookup (utf8 "i-" ++ suffix) with
    | some p =>
      simp only [createPod, hfree]
      rfl
    | none =>
      have hcreate := fun p : Pod => (createPod_eq_ok (p := p)).mpr ⟨rfl, hfree, rfl⟩
      simp only [hcreate, finish, Option.isNone_none, Bool.and_self, if_true, Option.getD_some]
      cases hwait : waitForReady rounds with
      | none =>
        simp only [waitFailed, hwait]
        exact Function.update_self ..
      | some result =>
        cases result with
        | ok ip =>
          simp only [waitFailed, hwait]
          exact Function.update_self ..
        | error e =>
          simp only [waitFailed, hwait]
          cases delete with
          | some _ => exact Function.update_self ..
          | none =>
            refine (Function.update_self ..).trans ?_
            rw [Function.update_self]
            rfl

/-! ## An image that cannot be pulled -/

def defaultConfig : Config :=
  ⟨⟨4 * 3600 * 1000000000, 600 * 1000000000⟩, utf8 "session-",
    utf8 "ghcr.io/kalw/training-console-pwd:dind"⟩

/-- The create succeeds, and the first poll finds that the image cannot be pulled. -/
def badImage : Replies where
  create := none
  rounds := [⟨.ok ⟨∅, .pending, [], [(utf8 "ErrImagePull", utf8 "not found")], none⟩, none⟩]
  delete := none

/-- The create succeeds, and the second poll finds the Pod up. -/
def goodImage : Replies where
  create := none
  rounds := [⟨.ok ⟨∅, .pending, [], [], none⟩, none⟩,
    ⟨.ok ⟨∅, .running, utf8 "10.42.0.7", [], none⟩, none⟩]
  delete := none

/-- The ephemeral instance cleans up after the bad image, and a session gets an instance of
the good one. -/
theorem tidy_badImage_goodImage :
    Tidy (fun _ => ∅) badImage.rounds (newEphemeralInstance defaultConfig badImage (fun _ => ∅) 0
      (utf8 "0a1b2c3d4e") (utf8 "anonymous") (utf8 "training-sessions") []) ∧
    Tidy (fun _ => ∅) goodImage.rounds
      (instanceNew defaultConfig goodImage (fun _ => ∅) (utf8 "s1") (utf8 "node1") []) ∧
    ∃ inst, (instanceNew defaultConfig goodImage (fun _ => ∅) (utf8 "s1") (utf8 "node1")
      []).returned = some (.ok inst) ∧ inst.ip = utf8 "10.42.0.7" := by
  have hbad := tidy_iff_comesUp (fun _ => ∅) defaultConfig badImage (utf8 "s1") (utf8 "node1") [] 0
    (utf8 "0a1b2c3d4e") (utf8 "anonymous") (utf8 "training-sessions") rfl
  have hgood := tidy_iff_comesUp (fun _ => ∅) defaultConfig goodImage (utf8 "s1") (utf8 "node1") [] 0
    (utf8 "0a1b2c3d4e") (utf8 "anonymous") (utf8 "training-sessions") rfl
  refine ⟨hbad.1, hgood.2.mpr (.inr (.inr ?_)), _, rfl, rfl⟩
  intro r hr
  obtain rfl := Option.some.inj hr
  exact ⟨_, rfl, by decide, by decide⟩

/-- `InstanceNew` returns the reason, and its Pod stays. -/
theorem not_tidy_badImage :
    ¬ Tidy (fun _ => ∅) badImage.rounds
      (instanceNew defaultConfig badImage (fun _ => ∅) (utf8 "s1") (utf8 "node1") []) := by
  intro h
  have hleft := congrArg Option.isSome (h.undone _ rfl (utf8 "session-s1") (utf8 "node1"))
  exact absurd hleft (by decide +kernel)

end TrainingPlatform.Session.Boot
