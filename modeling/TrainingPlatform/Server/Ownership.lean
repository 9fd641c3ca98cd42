import TrainingPlatform.Server.Platform

/-!
# Whose session a solve rests on

A verify request names a Pod, and nothing compares it with the user who asks.  A
credited solve rests on a Pod of that user's own as long as credited requests
name Pods whose sessions the same user opened and names are not handed out
twice.
-/

namespace TrainingPlatform.Server

open Go Session Scoring

variable {cfg : Config} {w w' : Platform} {pods : Pods} {n u : GoString} {p : Pod}

/-- The verify request is credited to `u` for the page of the Pod named `n`. -/
def Credited (cfg : Config) (w : Platform) (n u : GoString) : Event → Prop
  | .verify r api net => r.user = u ∧ (∃ req, decodeVerify r.body = some req ∧ req.pod = n) ∧
      ∃ c, w.store.get c.hash = some c ∧ Passes cfg.regexp (some (fetchPod net api w.pods)) c r
  | _ => False

/-- A credited solve rests on an instance Pod that a session request of the same user
created. -/
def RestsOnOwnPod (cfg : Config) (w : Platform) (e : Event) : Prop :=
  ∀ n u, Credited cfg w n u e →
    ∃ p, w.pods.lookup n = some p ∧ p.managed = true ∧ p.creator = some u

/-- A credited request names a Pod whose session the same user opened, and a name is
handed out once. -/
def NamesOwnPod (cfg : Config) (w : Platform) (e : Event) : Prop :=
  (∀ n u, Credited cfg w n u e → (n, u) ∈ w.sessions) ∧
    ∀ r suffix api now, e = .create r suffix api now →
      instanceName suffix ∉ w.sessions.map Prod.fst

/-- The Pods that hold a handed-out name are the ones created for it. -/
def Owned (w : Platform) : Prop :=
  ∀ n u p, (n, u) ∈ w.sessions → w.pods.lookup n = some p →
    p.managed = true ∧ p.creator = some u

/-- What no operation but a creation changes about a Pod. -/
def SameOwner (pods pods' : Pods) : Prop :=
  ∀ n p', pods'.lookup n = some p' → ∃ p, pods.lookup n = some p ∧
    p'.managed = p.managed ∧ p'.creator = p.creator

theorem SameOwner.refl (pods : Pods) : SameOwner pods pods := fun _ p hp => ⟨p, hp, rfl, rfl⟩

theorem sameOwner_erase (pods : Pods) (name : GoString) : SameOwner pods (pods.erase name) := by
  intro n p' hp
  by_cases hn : n = name
  · subst hn
    rw [AList.lookup_erase] at hp
    contradiction
  · rw [AList.lookup_erase_ne hn] at hp
    exact ⟨p', hp, rfl, rfl⟩

theorem sameOwner_insert {name : GoString} {q q' : Pod} (hq : pods.lookup name = some q)
    (hm : q'.managed = q.managed) (hc : q'.creator = q.creator) :
    SameOwner pods (pods.insert name q') := by
  intro n p' hp
  by_cases hn : n = name
  · subst hn
    rw [AList.lookup_insert, Option.some.injEq] at hp
    exact ⟨q, hq, hp ▸ hm, hp ▸ hc⟩
  · rw [AList.lookup_insert_ne hn] at hp
    exact ⟨p', hp, rfl, rfl⟩

theorem sameOwner_deletePod (api : Api) (pods : Pods) (name : GoString) :
    SameOwner pods (deletePod api pods name).2 := by
  unfold deletePod
  split
  · exact sameOwner_erase pods name
  · exact SameOwner.refl pods

theorem sameOwner_extend (eng : Engine) (api : Api) (now : Int) (pods : Pods) (name : GoString) :
    SameOwner pods (extend eng api now pods name).2 := by
  unfold extend getPod
  by_cases hr : api.reads = true
  · rw [if_pos hr]
    cases hq : pods.lookup name with
    | none => exact SameOwner.refl pods
    | some q =>
      dsimp only
      split
      · exact SameOwner.refl pods
      · split
        · exact sameOwner_insert hq (managed_setLabel_idle _) rfl
        · exact SameOwner.refl pods
  · rw [if_neg hr]
    exact SameOwner.refl pods

theorem sameOwner_gc (api : Api) (now : Int) (pods : Pods) :
    SameOwner pods (gcExpiredPods api now pods) := by
  intro n p' hp
  unfold gcExpiredPods at hp
  split at hp
  · rw [lookup_foldl_erase] at hp
    split at hp
    · contradiction
    · exact ⟨p', hp, rfl, rfl⟩
  · exact ⟨p', hp, rfl, rfl⟩

theorem sameOwner_handleSession (eng : Engine) (api : Api) (now : Int) (pods : Pods)
    (r : SessionRequest) : SameOwner pods (handleSession eng api now pods r).2 := by
  rcases handleSession_pods eng api now pods r with ⟨-, h⟩ | ⟨-, -, h⟩ | ⟨-, -, h⟩
  · rw [h]
    exact SameOwner.refl pods
  · rw [h]
    exact sameOwner_deletePod api pods _
  · rw [h]
    exact sameOwner_extend eng api now pods _

/-- A step that creates no Pod. -/
theorem sameOwner_effect {e : Event} (h : Effect cfg w e w') (hsess : w'.sessions = w.sessions) :
    SameOwner w.pods w'.pods := by
  cases h with
  | created hcreate => simp at hsess
  | refused => exact SameOwner.refl _
  | answered => exact SameOwner.refl _
  | abandoned hname => exact sameOwner_deletePod _ w.pods _
  | again => exact SameOwner.refl _
  | session => exact sameOwner_handleSession cfg.eng _ _ w.pods _
  | attempt => exact SameOwner.refl _
  | verify => exact SameOwner.refl _
  | gc => exact sameOwner_gc _ _ w.pods
  | kubelet hp => exact sameOwner_insert hp rfl rfl

/-- Only a creation hands out a name or adds a Pod. -/
theorem step_owner {e : Event} (h : step cfg w e = some w') :
    (w'.sessions = w.sessions ∧ SameOwner w.pods w'.pods) ∨
      ∃ r suffix api now, e = .create r suffix api now ∧
        createInstance cfg.eng api now w.pods (instanceName suffix) r.user = some w'.pods ∧
        w'.sessions = w.sessions ++ [(instanceName suffix, r.user)] := by
  have heffect := effect_of_step h
  by_cases hsess : w'.sessions = w.sessions
  · exact .inl ⟨hsess, sameOwner_effect heffect hsess⟩
  · right
    cases heffect with
    | created hcreate => exact ⟨_, _, _, _, rfl, hcreate, rfl⟩
    | refused | answered | abandoned | again => exact absurd rfl hsess
    | session | attempt | verify | gc | kubelet => exact absurd rfl hsess

theorem owned_step (w : Platform) (e : Event) (w' : Platform) (hw : Owned w)
    (hc : NamesOwnPod cfg w e) (h : step cfg w e = some w') : Owned w' := by
  intro n u p hmem hp
  rcases step_owner h with ⟨hsess, hsame⟩ | ⟨r, suffix, api, now, rfl, hcreate, hsess⟩
  · rw [hsess] at hmem
    obtain ⟨q, hq, hm, hcr⟩ := hsame n p hp
    rw [hm, hcr]
    exact hw n u q hmem hq
  · have hfresh := hc.2 r suffix api now rfl
    rw [(lookup_createInstance hcreate).2] at hp
    rw [hsess, List.mem_append, List.mem_singleton, Prod.mk.injEq] at hmem
    rcases hmem with hmem | ⟨rfl, rfl⟩
    · have hne : n ≠ instanceName suffix := by
        intro hnamed
        subst hnamed
        exact hfresh (List.mem_map.mpr ⟨_, hmem, rfl⟩)
      rw [if_neg hne] at hp
      exact hw n u p hmem hp
    · rw [if_pos rfl, Option.some.injEq] at hp
      subst hp
      exact ⟨managed_of_instanceLabels rfl, rfl⟩

/-- A credited request has found a Pod of the name it gives. -/
theorem lookup_of_credited {e : Event} (h : Credited cfg w n u e) :
    ∃ p, w.pods.lookup n = some p := by
  cases e with
  | verify r api net =>
    obtain ⟨-, ⟨req, hreq, rfl⟩, c, -, -, f, req', v, body, hf, hreq', -, -, -, hfetch, -⟩ := h
    rw [Option.some.injEq] at hf
    subst hf
    rw [hreq, Option.some.injEq] at hreq'
    subst hreq'
    obtain ⟨ip, hres⟩ := resolve_of_fetchPod hfetch
    obtain ⟨-, -, -, -, p, hp, -⟩ := resolve_eq_ok.mp hres
    exact ⟨p, hp⟩
  | create | await | session | attempt | gc | kubelet => exact h.elim

/-- In a run in which credited requests name Pods whose sessions the same user opened
and no name is handed out twice, every credited solve rests on the user's own
Pod. -/
theorem credited_restsOnOwnPod (cfg : Config) (store : Store) (pods : Pods) (es : List Event)
    (h : Runs.Each (step cfg) (NamesOwnPod cfg) (boot store pods) es) :
    Runs.Each (step cfg) (RestsOnOwnPod cfg) (boot store pods) es := by
  refine Runs.each_of_invariant owned_step ?_ ?_ h
  · intro w e hw hc n u hcred
    obtain ⟨p, hp⟩ := lookup_of_credited hcred
    exact ⟨p, hp, hw n u p (hc.1 n u hcred) hp⟩
  · intro n u p hmem
    simp [boot] at hmem

/-! ## A page from the session next door -/

def hours (n : Int) : Int := n * 3600 * 1000000000

def classConfig : Config := ⟨⟨hours 4, hours 1⟩, fun _ => none⟩

def up : Api := ⟨true, true⟩

def classNet : Net := fun ip _ _ =>
  if ip = utf8 "10.0.0.7" then .ok (200, .ok (utf8 "The service is running correctly"))
  else .error (utf8 "no route to host")

/-- Alice's session, and a check of its page asked for by `user`. -/
def sharedPage (user : String) : List Event :=
  [.create ⟨methodPost, [], utf8 "alice"⟩ (utf8 "0a") up 0,
    .kubelet (utf8 "i-0a") .running (utf8 "10.0.0.7") [],
    .verify ⟨methodPost, utf8 "\x7b\"challenge_hash\":\"ab12\",\"pod\":\"i-0a\"\x7d", utf8 user⟩
      up classNet]

def alicePods : Pods :=
  (AList.insert (utf8 "i-0a") ⟨instanceLabels classConfig.eng 0, .pending, [], [],
    some (utf8 "alice")⟩ ∅).insert (utf8 "i-0a")
      ⟨instanceLabels classConfig.eng 0, .running, utf8 "10.0.0.7", [], some (utf8 "alice")⟩

theorem decodeVerify_sharedPage :
    decodeVerify (utf8 "\x7b\"challenge_hash\":\"ab12\",\"pod\":\"i-0a\"\x7d") =
      some ⟨utf8 "ab12", utf8 "i-0a"⟩ := by
  decide

/-- Alice's own check rests on her own Pod. -/
theorem restsOnOwnPod_alice :
    Runs.Each (step classConfig) (RestsOnOwnPod classConfig) (boot Server.checkedStore ∅)
      (sharedPage "alice") := by
  refine credited_restsOnOwnPod classConfig Server.checkedStore ∅ _
    (.cons ⟨nofun, fun r suffix api now _ => by simp [boot]⟩ rfl
      (.cons ⟨nofun, nofun⟩ rfl ⟨⟨?_, nofun⟩, fun _ _ => trivial⟩))
  intro n u hawaited
  obtain ⟨rfl, ⟨req, hreq, rfl⟩, -⟩ := hawaited
  rw [decodeVerify_sharedPage, Option.some.injEq] at hreq
  subst hreq
  decide

theorem passes_sharedPage (user : GoString) :
    Passes classConfig.regexp (some (fetchPod classNet up alicePods)) Server.checkedChallenge
      ⟨methodPost, utf8 "\x7b\"challenge_hash\":\"ab12\",\"pod\":\"i-0a\"\x7d", user⟩ :=
  ⟨rfl, _, ⟨utf8 "ab12", utf8 "i-0a"⟩, ⟨80, utf8 "/", utf8 "running correctly", []⟩,
    utf8 "The service is running correctly", rfl, decodeVerify_sharedPage, rfl, rfl, rfl,
    by decide, by decide⟩

/-- Bob is credited for the page that Alice's session serves. -/
theorem not_restsOnOwnPod_bob :
    ¬ Runs.Each (step classConfig) (RestsOnOwnPod classConfig) (boot Server.checkedStore ∅)
      (sharedPage "bob") := by
  intro h
  have hlast : Runs.Each (step classConfig) (RestsOnOwnPod classConfig) (boot Server.checkedStore ∅)
      ((sharedPage "bob").take 2 ++ (sharedPage "bob").drop 2) := h
  obtain ⟨hown, -⟩ := hlast.of_append rfl
  obtain ⟨p, hp, -, hcreator⟩ := hown (utf8 "i-0a") (utf8 "bob")
    ⟨rfl, ⟨_, decodeVerify_sharedPage, rfl⟩, Server.checkedChallenge, by decide,
      passes_sharedPage (utf8 "bob")⟩
  have halice : alicePods.lookup (utf8 "i-0a") = some p := hp
  rw [alicePods, AList.lookup_insert, Option.some.injEq] at halice
  rw [← halice] at hcreator
  exact absurd hcreator (by decide)

end TrainingPlatform.Server
