import TrainingPlatform.Server.Ownership

/-!
# Pods the platform does not manage

The session namespace is shared.  The collector lists Pods by the platform's
label, but the handlers act on whatever Pod a request names.  A step leaves every
Pod without the label alone exactly when its request does not name one where it
counts.
-/

namespace TrainingPlatform.Server

open Go Session Scoring

variable {cfg : Config} {w w' : Platform} {e : Event}

/-- The address a step dials. -/
def dials (w : Platform) : Event → Option GoString
  | .verify r api _ =>
    (fetchArgs w.store r).bind fun args => (resolve api w.pods args.1 args.2.1).toOption
  | _ => none

/-- The kubelet's own steps. -/
def Event.ofPlatform : Event → Prop
  | .kubelet _ _ _ _ => False
  | _ => True

/-- A step of the platform leaves every Pod without the label as it was and does not
dial its address. -/
def LeavesForeign (cfg : Config) (w : Platform) (e : Event) : Prop :=
  e.ofPlatform → ∀ w', step cfg w e = some w' → ∀ n p, w.pods.lookup n = some p →
    p.managed = false → w'.pods.lookup n = some p ∧ dials w e ≠ some p.podIP

/-- A Pod of that name is there and lacks the label. -/
def Foreign (w : Platform) (n : GoString) (p : Pod) : Prop :=
  w.pods.lookup n = some p ∧ p.managed = false

/-- A session request that would delete a Pod or move its idle window, or a verify
request that would fetch a page, does not name a Pod without the label where the
API server answers; for a fetch, no Pod without the label has the address of the
Pod it names. -/
def SparesForeign (cfg : Config) (w : Platform) : Event → Prop
  | .session r api now => termPodRe r.target.1 = true → ∀ p, Foreign w r.target.1 p →
      ¬ (r.Deletes ∧ api.writes = true) ∧
        ¬ (r.Relabels ∧ api.reads = true ∧ api.writes = true ∧ 0 < cfg.eng.idleTTL ∧
          p.labels.lookup idleExpiresAtLabel ≠ some (idleDeadline cfg.eng now))
  | .verify r api _ => ∀ pod port path q, fetchArgs w.store r = some (pod, port, path) →
      termPodRe pod = true → 0 < port → port ≤ 65535 → api.reads = true →
      w.pods.lookup pod = some q → q.phase = .running → q.podIP ≠ [] →
      ∀ n p, Foreign w n p → p.podIP ≠ q.podIP
  | _ => True

/-- A POST that waits for its Pod waits for one of the platform's. -/
def WaitsForOwn (w : Platform) : Prop :=
  ∀ n ∈ w.waiting, ∀ p, w.pods.lookup n = some p → p.managed = true

theorem waitsForOwn_step (w : Platform) (e : Event) (w' : Platform) (hw : WaitsForOwn w)
    (h : step cfg w e = some w') : WaitsForOwn w' := by
  have heffect := effect_of_step h
  -- a step that creates no Pod makes no POST wait for another name
  have hold : w'.sessions = w.sessions → (∀ n ∈ w'.waiting, n ∈ w.waiting) → WaitsForOwn w' := by
    intro hsess hwaiting n hn p hp
    obtain ⟨q, hq, hm, -⟩ := sameOwner_effect heffect hsess n p hp
    rw [hm]
    exact hw n (hwaiting n hn) q hq
  cases heffect with
  | created hcreate =>
    intro n hn p hp
    rw [(lookup_createInstance hcreate).2] at hp
    split at hp
    · cases hp
      exact managed_of_instanceLabels rfl
    · next hne =>
      have hmem : n ∈ w.waiting := (List.mem_cons.mp hn).resolve_left hne
      exact hw n hmem p hp
  | answered => exact hold rfl fun n hn => List.mem_of_mem_erase hn
  | abandoned hname => exact hold rfl fun n hn => List.mem_of_mem_erase hn
  | refused | again => exact hold rfl fun n hn => hn
  | session | attempt | verify | gc | kubelet => exact hold rfl fun n hn => hn

theorem dials_verify {r : Request} {api : Api} {net : Net} {ip : GoString} :
    dials w (.verify r api net) = some ip ↔ ∃ pod port path q,
      fetchArgs w.store r = some (pod, port, path) ∧ termPodRe pod = true ∧ 0 < port ∧
        port ≤ 65535 ∧ api.reads = true ∧ w.pods.lookup pod = some q ∧ q.phase = .running ∧
        q.podIP ≠ [] ∧ q.podIP = ip := by
  have hres : ∀ pod port, (resolve api w.pods pod port).toOption = some ip ↔
      resolve api w.pods pod port = .ok ip := by
    intro pod port
    cases resolve api w.pods pod port <;> simp [Except.toOption]
  rw [dials, Option.bind_eq_some_iff]
  simp only [hres, resolve_eq_ok]
  constructor
  · intro hdials
    obtain ⟨⟨pod, port, path⟩, hargs, h₁, h₂, h₃, h₄, q, h₅⟩ := hdials
    exact ⟨pod, port, path, q, hargs, h₁, h₂, h₃, h₄, h₅⟩
  · intro hnamed
    obtain ⟨pod, port, path, q, hargs, h₁, h₂, h₃, h₄, h₅⟩ := hnamed
    exact ⟨(pod, port, path), hargs, h₁, h₂, h₃, h₄, q, h₅⟩

/-- A session request leaves a Pod alone unless it deletes or relabels it by name. -/
theorem lookup_handleSession {api : Api} {now : Int} {r : SessionRequest} {n : GoString} {p : Pod}
    (hp : w.pods.lookup n = some p) :
    (handleSession cfg.eng api now w.pods r).2.lookup n = some p ↔
      ¬ (termPodRe r.target.1 = true ∧ n = r.target.1 ∧ ((r.Deletes ∧ api.writes = true) ∨
        (r.Relabels ∧ api.reads = true ∧ api.writes = true ∧ 0 < cfg.eng.idleTTL ∧
          p.labels.lookup idleExpiresAtLabel ≠ some (idleDeadline cfg.eng now)))) := by
  have hexcl : ¬ (r.Deletes ∧ r.Relabels) := by
    intro hboth
    obtain ⟨⟨h₁, -⟩, ⟨h₂, -⟩⟩ := hboth
    exact absurd (h₁.symm.trans h₂) (by decide)
  rcases handleSession_pods cfg.eng api now w.pods r with ⟨hno, h⟩ | ⟨hre, hdel, h⟩ | ⟨hre, hrel, h⟩
  · rw [h]
    refine iff_of_true hp ?_
    intro htouched
    rcases htouched with ⟨hre, -, ⟨hdel, -⟩ | ⟨hrel, -⟩⟩
    · exact hno ⟨hre, .inl hdel⟩
    · exact hno ⟨hre, .inr hrel⟩
  · rw [h, lookup_deletePod hp]
    have hrel : ¬ r.Relabels := fun hrel => hexcl ⟨hdel, hrel⟩
    simp only [hre, hdel, hrel, true_and, false_and, or_false]
    exact not_congr and_comm
  · rw [h, lookup_extend hp]
    have hdel : ¬ r.Deletes := fun hdel => hexcl ⟨hdel, hrel⟩
    simp only [hre, hrel, hdel, true_and, false_and, false_or]
    refine not_congr ⟨?_, ?_⟩
    · intro hwrites
      obtain ⟨h₁, h₂, h₃, h₄, h₅⟩ := hwrites
      exact ⟨h₄, h₁, h₂, h₃, h₅⟩
    · intro hwrites
      obtain ⟨h₄, h₁, h₂, h₃, h₅⟩ := hwrites
      exact ⟨h₁, h₂, h₃, h₄, h₅⟩

/-- A creation and its wait, a submission and a collection leave those Pods alone. -/
theorem leavesForeign_of_effect {n : GoString} {p : Pod} (hw : WaitsForOwn w)
    (hp : w.pods.lookup n = some p) (hforeign : p.managed = false) (h : Effect cfg w e w')
    (hsession : ∀ r api now, e ≠ .session r api now) (hplatform : e.ofPlatform) :
    w'.pods.lookup n = some p := by
  cases h with
  | @created r suffix api now pods hcreate =>
    obtain ⟨hnone, hlook⟩ := lookup_createInstance (n := n) hcreate
    have hne : n ≠ instanceName suffix := by
      intro hnamed
      subst hnamed
      rw [hp] at hnone
      contradiction
    show pods.lookup n = some p
    rw [hlook, if_neg hne, hp]
  | abandoned hname =>
    refine (lookup_deletePod hp).mpr ?_
    intro hdeleted
    obtain ⟨-, rfl⟩ := hdeleted
    rw [hw n hname p hp] at hforeign
    contradiction
  | gc => exact lookup_gcExpiredPods hp hforeign
  | session => exact absurd rfl (hsession _ _ _)
  | kubelet => exact hplatform.elim
  | refused | answered | again => exact hp
  | attempt | verify => exact hp

/-- One step: what it must not name is exactly what it would touch. -/
theorem leavesForeign_iff (cfg : Config) (w : Platform) (e : Event) (hw : WaitsForOwn w) :
    SparesForeign cfg w e ↔ LeavesForeign cfg w e := by
  cases e with
  | session r api now =>
    constructor
    · intro hs _ w' h n p hp hforeign
      cases h
      refine ⟨(lookup_handleSession hp).mpr ?_, nofun⟩
      intro htouched
      rcases htouched with ⟨hre, rfl, hdel | hrel⟩
      · exact (hs hre p ⟨hp, hforeign⟩).1 hdel
      · exact (hs hre p ⟨hp, hforeign⟩).2 hrel
    · intro hl hre p hforeign
      have hkept := (lookup_handleSession hforeign.1).mp (hl trivial _ rfl _ p hforeign.1 hforeign.2).1
      exact ⟨fun h => hkept ⟨hre, rfl, .inl h⟩, fun h => hkept ⟨hre, rfl, .inr h⟩⟩
  | verify r api net =>
    constructor
    · intro hs _ w' h n p hp hforeign
      refine ⟨leavesForeign_of_effect hw hp hforeign (effect_of_step h) nofun trivial,
        fun hdial => ?_⟩
      obtain ⟨pod, port, path, q, hargs, h₁, h₂, h₃, h₄, h₅, h₆, h₇, h₈⟩ := dials_verify.mp hdial
      exact hs pod port path q hargs h₁ h₂ h₃ h₄ h₅ h₆ h₇ n p ⟨hp, hforeign⟩ h₈.symm
    · intro hl pod port path q hargs h₁ h₂ h₃ h₄ h₅ h₆ h₇ n p hforeign heq
      have hdial := (hl trivial _ rfl n p hforeign.1 hforeign.2).2
      exact hdial (dials_verify.mpr
        ⟨pod, port, path, q, hargs, h₁, h₂, h₃, h₄, h₅, h₆, h₇, heq.symm⟩)
  | create | await | attempt | gc =>
    refine iff_of_true trivial ?_
    intro hplatform w' h n p hp hforeign
    exact ⟨leavesForeign_of_effect hw hp hforeign (effect_of_step h) nofun hplatform, nofun⟩
  | kubelet name phase podIP waiting => exact iff_of_true trivial nofun

/-- From any namespace, a run leaves the Pods without the label alone exactly when no
request of the run names one where it counts. -/
theorem leavesForeign_iff_sparesForeign (cfg : Config) (store : Store) (pods : Pods)
    (es : List Event) :
    Runs.Each (step cfg) (LeavesForeign cfg) (boot store pods) es ↔
      Runs.Each (step cfg) (SparesForeign cfg) (boot store pods) es := by
  refine (Runs.each_congr_of_invariant waitsForOwn_step (leavesForeign_iff cfg) ?_).symm
  intro n hn
  simp [boot] at hn

/-! ## A container of the Docker shim -/

def shimPod : Pod := ⟨∅, .running, utf8 "10.0.0.9", [], none⟩

def shimPods : Pods := AList.insert (utf8 "web-1") shimPod ∅

def deleteShimPod : Event :=
  .session ⟨methodDelete, utf8 "/api/v1/sessions/web-1"⟩ up 0

/-- A learner's `DELETE` removes a Pod the platform does not manage. -/
theorem not_leavesForeign_deleteShimPod :
    ¬ Runs.Each (step classConfig) (LeavesForeign classConfig) (boot (Store.newStore none) shimPods)
      [deleteShimPod] := by
  intro hleaves
  obtain ⟨h, -⟩ := hleaves
  obtain ⟨hkept, -⟩ := h trivial _ rfl (utf8 "web-1") shimPod (by rfl) (by decide)
  have hgone : (boot (Store.newStore none) shimPods).pods.lookup (utf8 "web-1") = some shimPod := rfl
  have hdeleted := (@lookup_handleSession classConfig (boot (Store.newStore none) shimPods) up 0
    ⟨methodDelete, utf8 "/api/v1/sessions/web-1"⟩ _ _ hgone).mp hkept
  exact hdeleted ⟨by decide, by decide, .inl ⟨⟨by decide, rfl⟩, rfl⟩⟩

end TrainingPlatform.Server
