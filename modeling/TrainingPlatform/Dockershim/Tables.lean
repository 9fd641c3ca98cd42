import TrainingPlatform.Dockershim.Answers

/-!
# What calls see of the tables

A call sees the entries of the tables and not their order, and of the cache of Pod names
nothing.  A request for one docker name leaves what the tables hold of another.
-/

namespace TrainingPlatform.Dockershim

open Go

/-- Calls whose answers are read, and whatever else happens between them. -/
inductive Later where
  | asks (env : Env) (report : Report) (c : Call)
  | meanwhile (e : Event)

variable (sha : Sha1)

def answers : System → List Later → List Answer
  | _, [] => []
  | y, .asks env report c :: later =>
    answer sha env report y c :: answers (next sha env y c) later
  | y, .meanwhile e :: later =>
    match step sha.hex y e with
    | some y' => answers y' later
    | none => []

/-! ## Tables that cannot be told apart -/

/-- Tables with the same entries, whose caches hold what they should. -/
structure Alike (sha1Hex : GoString → GoString) (s t : Shim) : Prop where
  pending : ∀ n, s.pending.lookup n = t.pending.lookup n
  created : s.created = t.created
  execs : ∀ x, s.execs.lookup x = t.execs.lookup x
  members : ∀ n, s.members n = t.members n
  cached_left : Cached sha1Hex s
  cached_right : Cached sha1Hex t

/-- Outcomes of one request on tables that cannot be told apart. -/
structure SameOutcome (sha1Hex : GoString → GoString) (out out' : Outcome) : Prop where
  status : out.status = out'.status
  pods : out.pods = out'.pods
  shim : Alike sha1Hex out.shim out'.shim

variable {sha} {sha1Hex : GoString → GoString} {s t : Shim} {pods : Pods} {env : Env}
  {report : Report} {id n : GoString} {y y' : System} {e : Event} {es : List Event}

theorem execs_k8sPodName : (k8sPodName sha1Hex s n).2.execs = s.execs := by
  unfold k8sPodName
  split <;> rfl

theorem netMembers_k8sPodName : (k8sPodName sha1Hex s n).2.netMembers = s.netMembers := by
  unfold k8sPodName
  split <;> rfl

theorem members_k8sPodName {m : GoString} :
    (k8sPodName sha1Hex s n).2.members m = s.members m :=
  congrArg (fun table => (AList.lookup m table).getD ∅) netMembers_k8sPodName

theorem Alike.name (h : Alike sha1Hex s t) :
    (k8sPodName sha1Hex s n).1 = (k8sPodName sha1Hex t n).1 :=
  (k8sPodName_fst h.cached_left).trans (k8sPodName_fst h.cached_right).symm

theorem Alike.getPod {api : Api} (h : Alike sha1Hex s t) :
    (getPod sha1Hex api s pods n).1 = (getPod sha1Hex api t pods n).1 := by
  change (if api.reads then pods.lookup (k8sPodName sha1Hex s n).1 else none) =
    if api.reads then pods.lookup (k8sPodName sha1Hex t n).1 else none
  rw [h.name]

/-- The cache is filled on both sides. -/
theorem Alike.named (h : Alike sha1Hex s t) :
    Alike sha1Hex (k8sPodName sha1Hex s n).2 (k8sPodName sha1Hex t n).2 where
  pending m := by
    rw [pending_k8sPodName, pending_k8sPodName]
    exact h.pending m
  created := by
    rw [created_k8sPodName, created_k8sPodName]
    exact h.created
  execs x := by
    rw [execs_k8sPodName, execs_k8sPodName]
    exact h.execs x
  members m := by
    rw [members_k8sPodName, members_k8sPodName]
    exact h.members m
  cached_left := cached_k8sPodName h.cached_left
  cached_right := cached_k8sPodName h.cached_right

theorem lookup_addMembers (members : AList fun _ : GoString => Finset GoString)
    (nets : List GoString) (m : GoString) :
    ((addMembers members n nets).lookup m).getD ∅ =
      if m = n then (members.lookup m).getD ∅ ∪ nets.toFinset
      else (members.lookup m).getD ∅ := by
  unfold addMembers
  by_cases hnets : nets = []
  · rw [if_pos hnets, hnets, List.toFinset_nil, Finset.union_empty, ite_self]
  · rw [if_neg hnets]
    by_cases hm : m = n
    · subst hm
      rw [if_pos rfl, AList.lookup_insert, Option.getD_some]
    · rw [if_neg hm, AList.lookup_insert_ne hm]

/-! ## One call -/

variable {action execID : GoString} {cmd : Option (List GoString × Bool)}

theorem lookup_insert_congr {β : Type} {a b : AList fun _ : GoString => β}
    (h : ∀ n, a.lookup n = b.lookup n) (k : GoString) (v : β) (n : GoString) :
    (a.insert k v).lookup n = (b.insert k v).lookup n := by
  by_cases hn : n = k
  · subst hn
    rw [AList.lookup_insert, AList.lookup_insert]
  · rw [AList.lookup_insert_ne hn, AList.lookup_insert_ne hn, h n]

theorem lookup_erase_congr {β : Type} {a b : AList fun _ : GoString => β}
    (h : ∀ n, a.lookup n = b.lookup n) (k n : GoString) :
    (a.erase k).lookup n = (b.erase k).lookup n := by
  by_cases hn : n = k
  · subst hn
    rw [AList.lookup_erase, AList.lookup_erase]
  · rw [AList.lookup_erase_ne hn, AList.lookup_erase_ne hn, h n]

theorem Alike.insertPending (h : Alike sha1Hex s t) (req : CreateContainerRequest) :
    Alike sha1Hex { s with pending := s.pending.insert id req }
      { t with pending := t.pending.insert id req } :=
  { h with pending := lookup_insert_congr h.pending id req }

theorem Alike.insertExec (h : Alike sha1Hex s t) (entry : ExecEntry) :
    Alike sha1Hex { s with execs := s.execs.insert execID entry }
      { t with execs := t.execs.insert execID entry } :=
  { h with execs := lookup_insert_congr h.execs execID entry }

theorem Alike.erase (h : Alike sha1Hex s t) :
    Alike sha1Hex { s with pending := s.pending.erase id, created := s.created.erase id }
      { t with pending := t.pending.erase id, created := t.created.erase id } :=
  { h with
    pending := lookup_erase_congr h.pending id
    created := congrArg (Finset.erase · id) h.created }

theorem Alike.addMembers (h : Alike sha1Hex s t) (nets : List GoString) :
    Alike sha1Hex { s with netMembers := addMembers s.netMembers id nets }
      { t with netMembers := addMembers t.netMembers id nets } := by
  refine { h with members := fun n => ?_ }
  change ((Dockershim.addMembers s.netMembers id nets).lookup n).getD ∅ =
    ((Dockershim.addMembers t.netMembers id nets).lookup n).getD ∅
  rw [lookup_addMembers, lookup_addMembers]
  change (if n = id then s.members n ∪ nets.toFinset else s.members n) =
    if n = id then t.members n ∪ nets.toFinset else t.members n
  rw [h.members n]

theorem Alike.insertCreated (h : Alike sha1Hex s t) :
    Alike sha1Hex { s with created := insert id s.created }
      { t with created := insert id t.created } :=
  { h with created := congrArg (insert id) h.created }

theorem sameOutcome_start (h : Alike sha1Hex s t) :
    SameOutcome sha1Hex (handleContainerStart sha1Hex env s pods id)
      (handleContainerStart sha1Hex env t pods id) := by
  unfold handleContainerStart startContainer
  rw [h.pending id]
  cases t.pending.lookup id with
  | none => exact ⟨rfl, rfl, h⟩
  | some spec =>
    dsimp only
    rw [h.name]
    cases env.api.writes && (pods.lookup (k8sPodName sha1Hex t id).1).isNone
    · exact ⟨rfl, rfl, h.named⟩
    · exact ⟨rfl, rfl, h.named.insertCreated.addMembers spec.endpointsConfig⟩

theorem sameOutcome_inspect (h : Alike sha1Hex s t) :
    SameOutcome sha1Hex (handleContainerInspect sha1Hex env s pods id)
      (handleContainerInspect sha1Hex env t pods id) := by
  unfold handleContainerInspect isManaged getPod
  rw [h.created]
  cases decide (id ∈ t.created)
  · exact ⟨rfl, rfl, h⟩
  · dsimp only
    rw [h.name]
    cases (if env.api.reads then pods.lookup (k8sPodName sha1Hex t id).1 else none) with
    | none => exact ⟨rfl, rfl, h.named⟩
    | some p => exact ⟨rfl, rfl, h.named⟩

theorem sameOutcome_stop (h : Alike sha1Hex s t) :
    SameOutcome sha1Hex (handleContainerStop sha1Hex env s pods id)
      (handleContainerStop sha1Hex env t pods id) := by
  unfold handleContainerStop deletePod
  cases env.api.writes
  · exact ⟨rfl, rfl, h.named⟩
  · exact ⟨rfl, congrArg (pods.erase ·) h.name, h.named⟩

theorem sameOutcome_remove (h : Alike sha1Hex s t) :
    SameOutcome sha1Hex (handleContainerRemove sha1Hex env s pods id)
      (handleContainerRemove sha1Hex env t pods id) := by
  unfold handleContainerRemove deletePod
  cases env.api.writes
  · exact ⟨rfl, rfl, h.named⟩
  · exact ⟨rfl, congrArg (pods.erase ·) h.name, h.named.erase⟩

theorem sameOutcome_logs (h : Alike sha1Hex s t) :
    SameOutcome sha1Hex (handleContainerLogs sha1Hex env s pods id)
      (handleContainerLogs sha1Hex env t pods id) := by
  unfold handleContainerLogs getPod
  dsimp only
  rw [h.name]
  cases (if env.api.reads then pods.lookup (k8sPodName sha1Hex t id).1 else none) with
  | none => exact ⟨rfl, rfl, h.named⟩
  | some p => exact ⟨rfl, rfl, h.named⟩

theorem sameOutcome_attach (h : Alike sha1Hex s t) :
    SameOutcome sha1Hex (handleContainerAttach sha1Hex env s pods id)
      (handleContainerAttach sha1Hex env t pods id) := by
  unfold handleContainerAttach
  cases env.hijacks
  · exact ⟨rfl, rfl, h⟩
  · exact ⟨rfl, rfl, h.named⟩

theorem sameOutcome_execStart (h : Alike sha1Hex s t) :
    SameOutcome sha1Hex (handleExecStart sha1Hex env s pods execID)
      (handleExecStart sha1Hex env t pods execID) := by
  unfold handleExecStart
  rw [h.execs execID]
  cases t.execs.lookup execID with
  | none => exact ⟨rfl, rfl, h⟩
  | some entry =>
    cases env.hijacks
    · exact ⟨rfl, rfl, h⟩
    · exact ⟨rfl, rfl, h.named⟩

theorem sameOutcome_containersPrefix (h : Alike sha1Hex s t) :
    SameOutcome sha1Hex (handleContainersPrefix sha1Hex env s pods id action cmd)
      (handleContainersPrefix sha1Hex env t pods id action cmd) := by
  unfold handleContainersPrefix
  split_ifs
  · exact sameOutcome_inspect h
  · exact sameOutcome_start h
  · exact sameOutcome_stop h
  · exact sameOutcome_logs h
  · cases cmd with
    | none => exact ⟨rfl, rfl, h⟩
    | some cmd => exact ⟨rfl, rfl, h.insertExec _⟩
  · exact sameOutcome_attach h
  · exact ⟨rfl, rfl, h⟩
  · exact ⟨rfl, rfl, h⟩

/-- No request tells the tables apart by its status or by the Pods. -/
theorem sameOutcome_handle (h : Alike sha1Hex s t) (r : Request) :
    SameOutcome sha1Hex (handle sha1Hex env s pods r) (handle sha1Hex env t pods r) := by
  cases r with
  | create name body =>
    cases body with
    | none => exact ⟨rfl, rfl, h⟩
    | some req => exact ⟨rfl, rfl, h.insertPending req⟩
  | container id action cmd => exact sameOutcome_containersPrefix h
  | remove id => exact sameOutcome_remove h
  | execStart execID tty => exact sameOutcome_execStart h
  | networkConnect networkName container => exact ⟨rfl, rfl, h.addMembers [networkName]⟩

theorem inspectJSON_congr (h : Alike sha.hex s t) :
    inspectJSON sha env report s pods id = inspectJSON sha env report t pods id := by
  unfold inspectJSON isManaged
  rw [h.created, h.members id, h.name, h.getPod]

theorem startContainer_congr (h : Alike sha.hex s t) :
    (startContainer sha.hex env.api s pods id).1 =
      (startContainer sha.hex env.api t pods id).1 := by
  unfold startContainer
  rw [h.pending id]
  cases t.pending.lookup id with
  | none => rfl
  | some spec =>
    dsimp only
    rw [h.name]
    cases env.api.writes && (pods.lookup (k8sPodName sha.hex t id).1).isNone
    · rfl
    · rfl

theorem containersBody_congr (h : Alike sha.hex s t) :
    containersBody sha env report s pods id action cmd =
      containersBody sha env report t pods id action cmd := by
  have hinspect : inspectBody sha env report s pods id = inspectBody sha env report t pods id := by
    unfold inspectBody
    rw [inspectJSON_congr h]
  have hstart : startBody sha env report s pods id = startBody sha env report t pods id := by
    unfold startBody
    rw [h.pending id, startContainer_congr h]
  have hlogs : logsBody sha env report s pods id = logsBody sha env report t pods id := by
    unfold logsBody
    rw [h.name, h.getPod]
  unfold containersBody
  rw [hinspect, hstart, hlogs, h.name]

theorem body_congr (h : Alike sha.hex s t) (r : Request) :
    body sha env report s pods r = body sha env report t pods r := by
  cases r with
  | create name req => rfl
  | container id action cmd => exact containersBody_congr h
  | remove id => rfl
  | networkConnect networkName container => rfl
  | execStart execID tty =>
    change execStartBody sha env s execID tty = execStartBody sha env t execID tty
    unfold execStartBody
    rw [h.execs execID]
    cases t.execs.lookup execID with
    | none => rfl
    | some entry =>
      dsimp only
      rw [h.name]

/-! ## Every call that follows -/

/-- The same Pods, beside tables that cannot be told apart. -/
structure System.Alike (sha1Hex : GoString → GoString) (y z : System) : Prop where
  pods : y.pods = z.pods
  shim : Dockershim.Alike sha1Hex y.shim z.shim

variable {z : System} {c : Call}

theorem System.Alike.symm (h : y.Alike sha1Hex z) : z.Alike sha1Hex y where
  pods := h.pods.symm
  shim :=
    { pending := fun n => (h.shim.pending n).symm
      created := h.shim.created.symm
      execs := fun x => (h.shim.execs x).symm
      members := fun n => (h.shim.members n).symm
      cached_left := h.shim.cached_right
      cached_right := h.shim.cached_left }

theorem sameOutcome_of_alike (h : y.Alike sha1Hex z) (r : Request) :
    SameOutcome sha1Hex (handle sha1Hex env y.shim y.pods r)
      (handle sha1Hex env z.shim z.pods r) := by
  rw [← h.pods]
  exact sameOutcome_handle h.shim r

/-- No call tells the tables apart by its answer. -/
theorem answer_congr (h : y.Alike sha.hex z) :
    answer sha env report y c = answer sha env report z c := by
  cases c with
  | execInspect execID =>
    rw [answer, answer, handleExecInspect, handleExecInspect, h.shim.execs execID]
  | request r =>
    rw [answer, answer, (sameOutcome_of_alike h r).status, body_congr h.shim, h.pods]

theorem next_congr (h : y.Alike sha.hex z) :
    (next sha env y c).Alike sha.hex (next sha env z c) := by
  cases c with
  | execInspect execID => exact h
  | request r => exact ⟨(sameOutcome_of_alike h r).pods, (sameOutcome_of_alike h r).shim⟩

/-- What can happen to the one can happen to the other. -/
theorem step_congr (h : y.Alike sha1Hex z) (hstep : step sha1Hex y e = some y') :
    ∃ z', step sha1Hex z e = some z' ∧ y'.Alike sha1Hex z' := by
  cases e with
  | request env r =>
    cases hstep
    exact ⟨_, rfl, (sameOutcome_of_alike h r).pods, (sameOutcome_of_alike h r).shim⟩
  | put name p =>
    rw [step] at hstep
    split_ifs at hstep with hfree
    cases hstep
    rw [h.pods] at hfree
    exact ⟨_, if_pos hfree,
      congrArg (AList.insert name { p with createdFor := none }) h.pods, h.shim⟩
  | drop name =>
    cases hstep
    exact ⟨_, rfl, congrArg (AList.erase name) h.pods, h.shim⟩
  | assign name podIP =>
    obtain ⟨p, hp, rfl⟩ := Option.map_eq_some_iff.mp hstep
    rw [h.pods] at hp
    exact ⟨_, Option.map_eq_some_iff.mpr ⟨p, hp, rfl⟩,
      congrArg (AList.insert name { p with podIP := podIP }) h.pods, h.shim⟩

/-- No sequence of calls tells the tables apart, whatever happens in between. -/
theorem answers_congr (h : y.Alike sha.hex z) (later : List Later) :
    answers sha y later = answers sha z later := by
  induction later generalizing y z with
  | nil => rfl
  | cons l later ih =>
    cases l with
    | asks env report c => rw [answers, answers, answer_congr h, ih (next_congr h)]
    | meanwhile e =>
      rw [answers, answers]
      cases hy : step sha.hex y e with
      | some y' =>
        obtain ⟨z', hz, hnext⟩ := step_congr h hy
        rw [hz]
        exact ih hnext
      | none =>
        cases hz : step sha.hex z e with
        | none => rfl
        | some z' =>
          obtain ⟨y', hy', -⟩ := step_congr h.symm hz
          rw [hy] at hy'
          cases hy'

/-! ## Requests for other docker names -/

/-- An event that is no request for the docker name. -/
def Event.avoids (id : GoString) : Event → Prop
  | .request env (.create name _) => containerID env name ≠ id
  | .request _ (.container n _ _) | .request _ (.remove n) => n ≠ id
  | .request _ (.networkConnect _ n) => n ≠ id
  | .request _ (.execStart _ _) | .put _ _ | .drop _ | .assign _ _ => True

/-- What the later tables hold of a docker name, the earlier ones did. -/
structure Leaves (id : GoString) (s s' : Shim) : Prop where
  pending : s'.pending.lookup id = s.pending.lookup id
  created : id ∈ s'.created → id ∈ s.created
  members : s'.members id = s.members id
  execs : ∀ x entry, s'.execs.lookup x = some entry → entry.containerID = id →
    s.execs.lookup x = some entry

theorem leaves_refl : Leaves id s s :=
  ⟨rfl, fun h => h, rfl, fun _ _ hx _ => hx⟩

theorem leaves_k8sPodName : Leaves id s (k8sPodName sha1Hex s n).2 where
  pending := congrArg (AList.lookup id) pending_k8sPodName
  created h := by rwa [created_k8sPodName] at h
  members := members_k8sPodName
  execs x entry hx _ := by rwa [execs_k8sPodName] at hx

theorem Written.leaves {s' : Shim} {r : Request} (h : Written sha1Hex env s r s')
    (havoids : (Event.request env r).avoids id) : Leaves id s s' := by
  have hname : ∀ n, Leaves id s (k8sPodName sha1Hex s n).2 := fun _ => leaves_k8sPodName
  cases h with
  | nothing => exact leaves_refl
  | named _ n => exact hname n
  | created name req =>
    exact { leaves_refl with pending := AList.lookup_insert_ne (Ne.symm havoids) }
  | started n action cmd spec =>
    refine { hname n with
      created := fun hmem =>
        (hname n).created ((Finset.mem_insert.mp hmem).resolve_left (Ne.symm havoids))
      members := ?_ }
    exact ((lookup_addMembers _ _ id).trans (if_neg (Ne.symm havoids))).trans (hname n).members
  | removed n =>
    exact { hname n with
      pending := (AList.lookup_erase_ne (Ne.symm havoids)).trans (hname n).pending
      created := fun hmem => (hname n).created (Finset.mem_of_mem_erase hmem) }
  | exec n action cmd tty =>
    refine { leaves_refl with execs := fun x entry hx hid => ?_ }
    by_cases huuid : x = env.uuid
    · subst huuid
      have hentry : (⟨n, cmd, tty⟩ : ExecEntry) = entry :=
        Option.some.inj ((AList.lookup_insert s.execs).symm.trans hx)
      exact absurd ((congrArg ExecEntry.containerID hentry).trans hid) havoids
    · exact (AList.lookup_insert_ne huuid).symm.trans hx
  | connected networkName n =>
    exact { leaves_refl with
      members := (lookup_addMembers _ _ id).trans (if_neg (Ne.symm havoids)) }

/-- Requests for other docker names leave what the tables hold of this one. -/
theorem leaves_step (havoids : e.avoids id) (h : step sha1Hex y e = some y') :
    Leaves id y.shim y'.shim := by
  cases e with
  | put name p =>
    rw [step] at h
    split_ifs at h
    cases h
    exact leaves_refl
  | drop name =>
    cases h
    exact leaves_refl
  | assign name podIP =>
    obtain ⟨p, -, rfl⟩ := Option.map_eq_some_iff.mp h
    exact leaves_refl
  | request env r =>
    cases h
    exact (written r).leaves havoids

end TrainingPlatform.Dockershim
