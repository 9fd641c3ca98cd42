import TrainingPlatform.Dockershim.Running
import TrainingPlatform.Dockershim.Tables

/-!
# What a removal leaves behind

Five tables hold what the shim knows of a container, and a removal clears two of them.  A
third is a cache of a function, and the last two show in later answers.
-/

namespace TrainingPlatform.Dockershim

open Go

/-- The tables without their entries for a docker name. -/
def Shim.forget (s : Shim) (id : GoString) : Shim :=
  { pending := s.pending.erase id
    created := s.created.erase id
    podName := s.podName.erase id
    execs := ⟨s.execs.entries.filter fun x => x.2.containerID ≠ id,
      s.execs.nodupKeys.sublist List.filter_sublist⟩
    netMembers := s.netMembers.erase id }

/-- The calls read are for the docker name or for an exec. -/
def Later.about (id : GoString) : Later → Prop
  | .asks env _ (.request (.create name _)) => containerID env name = id
  | .asks _ _ (.request (.container n _ _)) => n = id
  | .asks _ _ (.request (.remove n)) => n = id
  | .asks _ _ (.request (.networkConnect _ n)) => n = id
  | .asks _ _ (.request (.execStart _ _)) | .asks _ _ (.execInspect _) | .meanwhile _ => True

variable (sha : Sha1)

/-- The shim answers as if it had never heard of the container. -/
def Forgotten (y : System) (id : GoString) : Prop :=
  ∀ later, (∀ l ∈ later, l.about id) →
    answers sha y later = answers sha ⟨y.shim.forget id, y.pods⟩ later

/-- A removal that succeeds leaves nothing of the container to be seen. -/
def Forgets (y : System) : Event → Prop
  | .request env (.remove id) =>
    (handle sha.hex env y.shim y.pods (.remove id)).status = 204 →
      Forgotten sha (next sha env y (.request (.remove id))) id
  | .request _ _ | .put _ _ | .drop _ | .assign _ _ => True

/-- The tables have no network and no exec for the docker name. -/
structure Shim.Unused (s : Shim) (id : GoString) : Prop where
  members : s.members id = ∅
  execs : ∀ x entry, s.execs.lookup x = some entry → entry.containerID ≠ id

/-- A removal finds neither a network nor an exec. -/
def RemovesUnused (y : System) : Event → Prop
  | .request env (.remove id) => env.api.writes = true → y.shim.Unused id
  | .request _ _ | .put _ _ | .drop _ | .assign _ _ => True

/-! ## Forgetting a container -/

variable {sha} {sha1Hex : GoString → GoString} {s : Shim} {env : Env} {report : Report}
  {id : GoString} {y y' : System} {c : Call} {e : Event} {es : List Event}

/-- Tables without an entry for a docker name, but for the cache. -/
structure Shim.Unknown (s : Shim) (id : GoString) : Prop extends s.Unused id where
  pending : s.pending.lookup id = none
  created : id ∉ s.created

theorem lookup_execs_forget (x : GoString) :
    (s.forget id).execs.lookup x =
      (s.execs.lookup x).filter fun entry => entry.containerID ≠ id := by
  ext entry
  rw [Option.filter_eq_some_iff, ← Option.mem_def, ← Option.mem_def, AList.mem_lookup_iff,
    AList.mem_lookup_iff]
  exact List.mem_filter

theorem alike_forget (hcached : Cached sha1Hex s) (h : s.Unknown id) :
    Alike sha1Hex s (s.forget id) where
  pending n := by
    by_cases hn : n = id
    · subst hn
      exact h.pending.trans (AList.lookup_erase n s.pending).symm
    · exact (AList.lookup_erase_ne hn).symm
  created := (Finset.erase_eq_of_notMem h.created).symm
  execs x := by
    rw [lookup_execs_forget]
    cases hx : s.execs.lookup x with
    | none => rfl
    | some entry => exact (Option.filter_some_pos (by simpa using h.execs x entry hx)).symm
  members n := by
    by_cases hn : n = id
    · subst hn
      exact h.members.trans (congrArg (Option.getD · ∅) (AList.lookup_erase n s.netMembers)).symm
    · exact (congrArg (Option.getD · ∅) (AList.lookup_erase_ne hn)).symm
  cached_left := hcached
  cached_right n k hk := by
    by_cases hn : n = id
    · subst hn
      rw [show (s.forget n).podName.lookup n = none from AList.lookup_erase n s.podName] at hk
      cases hk
    · exact hcached n k ((AList.lookup_erase_ne hn).symm.trans hk)

/-- A shim that knows nothing of a container answers so. -/
theorem forgotten_of_unknown (hcached : Cached sha.hex y.shim) (h : y.shim.Unknown id) :
    Forgotten sha y id := by
  have hforget : y.Alike sha.hex ⟨y.shim.forget id, y.pods⟩ := ⟨rfl, alike_forget hcached h⟩
  exact fun later _ => answers_congr hforget later

/-! ## A shim that was never asked -/

theorem Shim.Unknown.leaves {s' : Shim} (h : s.Unknown id) (hleaves : Leaves id s s') :
    s'.Unknown id where
  members := hleaves.members.trans h.members
  execs x entry hx hid := h.execs x entry (hleaves.execs x entry hx hid) hid
  pending := hleaves.pending.trans h.pending
  created hmem := h.created (hleaves.created hmem)

theorem unknown_run (havoids : ∀ e ∈ es, e.avoids id) (h : y.shim.Unknown id)
    (hrun : Runs.run (step sha1Hex) y es = some y') : y'.shim.Unknown id := by
  induction es generalizing y with
  | nil =>
    cases hrun
    exact h
  | cons e es ih =>
    obtain ⟨m, hm, hrest⟩ := Runs.run_cons_some.mp hrun
    rw [List.forall_mem_cons] at havoids
    exact ih havoids.2 (h.leaves (leaves_step havoids.1 hm)) hrest

theorem unknown_newShim : newShim.Unknown id :=
  ⟨⟨rfl, fun _ _ hx => (by cases hx)⟩, rfl, Finset.notMem_empty id⟩

/-- In a run without a request for a container, the shim answers as one that has never heard
of it. -/
theorem forgotten_of_avoids (havoids : ∀ e ∈ es, e.avoids id)
    (hrun : Runs.run (step sha.hex) boot es = some y) : Forgotten sha y id :=
  forgotten_of_unknown (Runs.run_invariant (fun _ _ _ h => owned_step h) owned_boot hrun).cached
    (unknown_run havoids unknown_newShim hrun)

/-! ## A removal -/

theorem shim_next_remove (hwrites : env.api.writes = true) :
    (next sha env y (.request (.remove id))).shim =
      { (k8sPodName sha.hex y.shim id).2 with
        pending := (k8sPodName sha.hex y.shim id).2.pending.erase id
        created := (k8sPodName sha.hex y.shim id).2.created.erase id } := by
  change (handleContainerRemove sha.hex env y.shim y.pods id).shim = _
  unfold handleContainerRemove deletePod
  rw [hwrites]
  rfl

/-- Two tables are as they were before a removal. -/
theorem unused_next_remove (hwrites : env.api.writes = true) :
    (next sha env y (.request (.remove id))).shim.Unused id ↔ y.shim.Unused id := by
  have hexecs : (next sha env y (.request (.remove id))).shim.execs = y.shim.execs := by
    rw [shim_next_remove hwrites]
    exact execs_k8sPodName
  have hmembers : (next sha env y (.request (.remove id))).shim.members id = y.shim.members id := by
    rw [shim_next_remove hwrites]
    exact members_k8sPodName
  constructor
  · intro h
    exact ⟨hmembers.symm.trans h.members, fun x entry hx => h.execs x entry (hexecs ▸ hx)⟩
  · intro h
    exact ⟨hmembers.trans h.members, fun x entry hx => h.execs x entry (hexecs ▸ hx)⟩

theorem created_next_remove (hwrites : env.api.writes = true) :
    id ∉ (next sha env y (.request (.remove id))).shim.created := by
  rw [shim_next_remove hwrites]
  exact Finset.notMem_erase id _

/-- The other two are cleared of the container. -/
theorem unknown_next_remove (hwrites : env.api.writes = true) (h : y.shim.Unused id) :
    (next sha env y (.request (.remove id))).shim.Unknown id := by
  refine { (unused_next_remove hwrites).mpr h with
    pending := ?_
    created := created_next_remove hwrites }
  rw [shim_next_remove hwrites]
  exact AList.lookup_erase _ _

theorem status_remove_iff :
    (handle sha1Hex env y.shim y.pods (.remove id)).status = 204 ↔ env.api.writes = true := by
  change (handleContainerRemove sha1Hex env y.shim y.pods id).status = 204 ↔ _
  unfold handleContainerRemove deletePod
  cases env.api.writes
  · exact iff_of_false (show ¬ 500 = 204 by decide) Bool.false_ne_true
  · exact iff_of_true rfl rfl

theorem answer_of_forgotten (env : Env) (report : Report) (c : Call) (h : Forgotten sha y id)
    (habout : (Later.asks env report c).about id) :
    answer sha env report y c = answer sha env report ⟨y.shim.forget id, y.pods⟩ c := by
  have hanswers := h [.asks env report c] (List.forall_mem_singleton.mpr habout)
  exact (List.cons.inj hanswers).1

/-- What the tables keep for a container that is not started shows in a single answer: an
exec is found, or an inspection lists a network. -/
theorem unused_of_forgotten (hcreated : id ∉ y.shim.created) (h : Forgotten sha y id) :
    y.shim.Unused id := by
  let report : Report := ⟨fun _ => [], fun _ => [], []⟩
  constructor
  · have hforgot : id ∉ (y.shim.forget id).created := Finset.notMem_erase id y.shim.created
    obtain ⟨d, hd, -, hnets⟩ :=
      inspectJSON_of_notMem (y := ⟨y.shim.forget id, y.pods⟩) sha up report hforgot
    have hempty : (y.shim.forget id).members id = ∅ :=
      congrArg (Option.getD · ∅) (AList.lookup_erase id y.shim.netMembers)
    obtain ⟨c, hc, -, hkept⟩ := inspectJSON_of_notMem sha up report hcreated
    have hanswer := answer_of_forgotten up report (.request (inspectRequest id)) h rfl
    have hsame : Body.container c = .container d := by
      rw [← body_inspectRequest.mpr hc, ← body_inspectRequest.mpr hd, hanswer]
    cases hsame
    rw [hkept, hempty, Finset.image_empty, Finset.image_eq_empty] at hnets
    exact hnets
  · intro x entry hx hid
    have hanswer := answer_of_forgotten up report (.execInspect x) h trivial
    have hgone : (y.shim.forget id).execs.lookup x = none := by
      rw [lookup_execs_forget, hx]
      exact Option.filter_some_neg (by simpa using hid)
    rw [answer, answer, handleExecInspect, handleExecInspect, hx, hgone] at hanswer
    exact absurd (congrArg Answer.status hanswer) (show ¬ 200 = 404 by decide)

theorem forgets_iff_removesUnused (hy : Owned sha.hex y) : Forgets sha y e ↔ RemovesUnused y e := by
  cases e with
  | put | drop | assign => exact Iff.rfl
  | request env r =>
    cases r with
    | create | container | execStart | networkConnect => exact Iff.rfl
    | remove id =>
      change (_ → _) ↔ (_ → _)
      rw [status_remove_iff]
      refine imp_congr_right fun hwrites => ?_
      constructor
      · intro h
        exact (unused_next_remove hwrites).mp (unused_of_forgotten (created_next_remove hwrites) h)
      · intro h
        exact forgotten_of_unknown (owned_request hy).cached (unknown_next_remove hwrites h)

/-- Along a run, every removal that succeeds makes the shim answer as if it had never heard
of the container, exactly when every removal finds neither a network nor an exec of it. -/
theorem forgets_iff (sha : Sha1) (es : List Event) :
    Runs.Each (step sha.hex) (Forgets sha) boot es ↔
      Runs.Each (step sha.hex) RemovesUnused boot es :=
  Runs.each_congr_of_invariant (fun _ _ _ h => owned_step h)
    (fun _ _ h => forgets_iff_removesUnused h) owned_boot

/-! ## A container of a session network -/

/-- The container is started in a network, and an exec is created for it. -/
def sessionRun : List Event :=
  [.request up (.create (utf8 "web") (some { busybox with endpointsConfig := [utf8 "s1"] })),
    containerRequest "web" "start",
    .request up (.container (utf8 "web") (utf8 "exec") (some ([utf8 "sh"], true)))]

/-- The name is used again, and the old exec is started. -/
def reuse : List Later :=
  let report : Report := ⟨fun _ => utf8 "Running", fun _ => [], []⟩
  [.asks up report (.request (.create (utf8 "web") (some busybox))),
    .asks up report (.request (startRequest (utf8 "web"))),
    .meanwhile (.assign (utf8 "web") (utf8 "10.0.0.7")),
    .asks up report (.request (inspectRequest (utf8 "web"))),
    .asks up report (.request (.execStart up.uuid false))]

/-- The new container is reported in the old one's network, and the old one's exec runs in
its Pod. -/
theorem not_forgets_sessionRun :
    ¬ Runs.Each (step noSum.hex) (Forgets noSum) boot
      (sessionRun ++ [.request up (.remove (utf8 "web"))]) := by
  intro h
  have hkept : ∃ y ∈ Runs.run (step noSum.hex) boot sessionRun,
      answers noSum (next noSum up y (.request (.remove (utf8 "web")))) reuse ≠
        answers noSum
          ⟨(next noSum up y (.request (.remove (utf8 "web")))).shim.forget (utf8 "web"),
            (next noSum up y (.request (.remove (utf8 "web")))).pods⟩ reuse := by
    decide +kernel
  obtain ⟨y, hrun, hdiffer⟩ := hkept
  have hforgets : Forgets noSum y (.request up (.remove (utf8 "web"))) := (h.of_append hrun).1
  have habout : ∀ l ∈ reuse, l.about (utf8 "web") := by
    simp only [reuse, List.forall_mem_cons]
    exact ⟨if_neg (by decide), rfl, trivial, rfl, trivial, fun _ hl => (List.not_mem_nil hl).elim⟩
  exact hdiffer (hforgets (status_remove_iff.mpr rfl) reuse habout)

end TrainingPlatform.Dockershim
