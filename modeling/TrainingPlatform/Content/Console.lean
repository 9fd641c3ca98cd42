import TrainingPlatform.Runs
import TrainingPlatform.Go.Strings

/-!
# The console of a lesson page

The script of a lesson page boots one Pod for each terminal, saves their names in the
session storage so that a reload finds them again, and deletes them on Stop.  Its functions
wait for the server at every request, so their calls interleave.  Statuses and DELETEs
succeed; a POST may fail, and a Pod may end or become not ready at any time.
-/

namespace TrainingPlatform.Content.Console

open Go

/-- A terminal: its Pod, and whether `stop` is at it. -/
structure Node where
  pod : Option GoString
  stopped : Bool

/-- The entry in the session storage. -/
structure Saved where
  pods : List (Option GoString)
  images : List GoString

/-- A request of `keepalive` about a node: the Pod it names, the nodes behind it, and the
tally. -/
structure Ping where
  node : Nat
  asked : Option GoString
  rest : List Nat
  live : Nat
  gone : Nat
  deriving DecidableEq

/-- A call of the script that waits for the server. -/
inductive Call where
  /-- For the status of each saved Pod. -/
  | reattach (pods : List (Option GoString))
  /-- For the Pod of a node, with the nodes behind it. -/
  | start (i : Nat) (rest : List Nat)
  /-- For the DELETE of a node's Pod. -/
  | stop (i : Nat) (rest : List Nat)
  /-- For the keepalive of a Pod. -/
  | ping (p : Ping)
  /-- For the status of a Pod whose keepalive was not found. -/
  | check (p : Ping)
  deriving DecidableEq

inductive Answer where
  /-- The Pods that are ready. -/
  | statuses (ready : GoString → Bool)
  /-- The Pod created, if the POST succeeds. -/
  | posted (pod : Option GoString)
  | deleted
  | pinged (notFound : Bool)

inductive Event where
  /-- The page is loaded anew, as the lesson is now; `landed`: a Pod of a POST that the page
  no longer waits for. -/
  | reload (images : List GoString) (landed : Option GoString)
  | start
  | stop
  | keepalive
  | answer (k : Nat) (a : Answer)
  /-- A Pod ends by itself. -/
  | gone (pod : GoString)

/-- The page, its session storage and the Pods it created that still run and that it has
not deleted. -/
structure World where
  images : List GoString
  nodes : List Node
  calls : List Call
  /-- `#boot` is hidden and `#stop` is not. -/
  up : Bool
  /-- `#boot` is disabled. -/
  booting : Bool
  timer : Bool
  store : Option Saved
  running : List GoString

namespace World

variable (w : World)

def podAt (i : Nat) : Option GoString := (w.nodes[i]?).bind Node.pod

def stoppedAt (i : Nat) : Bool := (w.nodes[i]?).any Node.stopped

def modify (i : Nat) (f : Node → Node) : World := { w with nodes := w.nodes.modify i f }

def setPod (i : Nat) (pod : GoString) : World := w.modify i fun n => { n with pod := some pod }

def markStopped (i : Nat) : World := w.modify i fun n => { n with stopped := true }

/-- The DELETE of the Pod behind a node. -/
def delete (i : Nat) (pod : GoString) : World :=
  { w.markStopped i with running := w.running.filter (· != pod) }

def reset (i : Nat) : World := w.modify i fun _ => ⟨none, false⟩

def sessionUp : World :=
  { w with up := true, timer := true, store := some ⟨w.nodes.map Node.pod, w.images⟩ }

/-- What `stop` and `expireUI` end with. -/
def sessionDown : World := { w with up := false, store := none }

def expireUI : World :=
  { w with timer := false, nodes := w.nodes.map fun _ => ⟨none, false⟩ }.sessionDown

/-- The entry is of this page: `reattach` asks for its Pods. -/
def fits (images : List GoString) (s : Saved) : Bool :=
  s.pods.length == images.length && s.images == images

/-- The page with the given terminals, which tries to reattach. -/
def load (images : List GoString) : World :=
  let fresh : World := ⟨images, images.map fun _ => ⟨none, false⟩, [], false, false, false, w.store,
    w.running⟩
  match images, w.store with
  | [], _ => fresh
  | _ :: _, none => fresh
  | _ :: _, some s =>
    if fits images s then { fresh with calls := [.reattach s.pods] } else { fresh with store := none }

def attach (nodes : List Node) (pods : List (Option GoString)) : List Node :=
  List.zipWith (fun n pod => ⟨pod, n.stopped⟩) nodes pods

def reattach (pods : List (Option GoString)) (ready : GoString → Bool) : World :=
  if pods.all (Option.any ready) then
    { w with nodes := attach w.nodes pods }.sessionUp
  else { w with store := none }

/-- The answer to the POST of `bootNode`, and the rest of the loop of `start`. -/
def boot (i : Nat) (rest : List Nat) : Option GoString → World × Option Call
  | none => ({ w with booting := false }, none)
  | some pod =>
    let booted := { w.setPod i pod with running := pod :: w.running }
    match rest with
    | [] => ({ booted.sessionUp with booting := false }, none)
    | j :: js => (booted, some (.start j js))

/-- The loop of `stop` up to its next request. -/
def stopNodes : World → List Nat → World × Option Call
  | w, [] => (w.sessionDown, none)
  | w, i :: is =>
    match w.podAt i with
    | none => stopNodes (w.reset i) is
    | some pod => (w.delete i pod, some (.stop i is))

/-- The loop of `keepalive` up to its next request. -/
def keepaliveNodes (live gone : Nat) : List Nat → World × Option Call
  | [] => (if live ≠ 0 ∧ gone = live then w.expireUI else w, none)
  | i :: is => (w, some (.ping ⟨i, w.podAt i, is, live + 1, gone⟩))

/-- A Pod that runs is found. -/
def mayMiss (asked : Option GoString) : Bool := !asked.any w.running.contains

/-- What a call does with its answer. -/
def resume : Call → Answer → Option (World × Option Call)
  | .reattach pods, .statuses ready => some (w.reattach pods ready, none)
  | .start i rest, .posted pod => some (w.boot i rest pod)
  | .stop i rest, .deleted => some ((w.reset i).stopNodes rest)
  | .ping p, .pinged false => some (w.keepaliveNodes p.live p.gone p.rest)
  | .ping p, .pinged true =>
    if w.mayMiss p.asked then some (w, some (.check { p with asked := w.podAt p.node })) else none
  | .check p, .pinged false => some (w.keepaliveNodes p.live p.gone p.rest)
  | .check p, .pinged true =>
    if w.mayMiss p.asked then some (w.keepaliveNodes p.live (p.gone + 1) p.rest) else none
  | _, _ => none

/-- A call begins, unless it is over at once. -/
def began (r : World × Option Call) : World := { r.1 with calls := r.1.calls ++ r.2.toList }

/-- A call waits again or is over. -/
def continued (k : Nat) (r : World × Option Call) : World :=
  { r.1 with
    calls := match r.2 with
      | none => r.1.calls.eraseIdx k
      | some call => r.1.calls.set k call }

def isStart : Call → Bool
  | .start _ _ => true
  | _ => false

def step (w : World) : Event → Option World
  | .reload images landed =>
    if landed.isSome && !w.calls.any isStart then none
    else some ({ w with running := landed.toList ++ w.running }.load images)
  | .start =>
    match List.range w.nodes.length with
    | [] => none
    | i :: is =>
      if w.up || w.booting then none
      else some { w with booting := true, calls := w.calls ++ [.start i is] }
  | .stop =>
    if w.up then
      some (began (stopNodes { w with timer := false } (List.range w.nodes.length)))
    else none
  | .keepalive =>
    if w.timer || w.nodes.any (·.pod.isSome) then
      some (began (w.keepaliveNodes 0 0
        ((List.range w.nodes.length).filter fun i => (w.podAt i).isSome && !w.stoppedAt i)))
    else none
  | .answer k a => (w.calls[k]?).bind fun call => (w.resume call a).map (continued k)
  | .gone pod => some { w with running := w.running.filter (· != pod) }

/-- A node names the Pod. -/
def Names (pod : GoString) : Prop := some pod ∈ w.nodes.map Node.pod

/-- The saved entry names the Pod. -/
def Saves (pod : GoString) : Prop := ∃ s ∈ w.store, some pod ∈ s.pods

/-- Every running Pod can be stopped or found again. -/
def Reachable : Prop := ∀ pod ∈ w.running, w.Names pod ∨ w.Saves pod

/-- No running Pod is behind the node. -/
def Idle (i : Nat) : Prop := ∀ pod ∈ w.running, w.podAt i ≠ some pod

/-- A start overlaps no other call and boots over no running Pod, the page is not left with
running Pods that are not saved, and the entry is not given up while a Pod of it runs. -/
def Orderly : Event → Prop
  | .reload images landed => landed = none ∧
      (w.store = none → ∀ pod ∈ w.running, ¬ w.Names pod) ∧
      (images ≠ [] → w.store.any (fits images) = false → ∀ pod ∈ w.running, ¬ w.Saves pod)
  | .start => w.calls = []
  | .stop => True
  | .keepalive => w.calls.any isStart = false
  | .answer k a =>
    match w.calls[k]?, a with
    | some (.start i _), .posted (some _) => w.Idle i
    | some (.reattach pods), .statuses ready =>
      pods.all (Option.any ready) = true ∨ ∀ pod ∈ w.running, ¬ w.Saves pod
    | _, _ => True
  | .gone _ => True

instance (pod : GoString) : Decidable (w.Names pod) :=
  inferInstanceAs (Decidable (some pod ∈ w.nodes.map Node.pod))

instance (pod : GoString) : Decidable (w.Saves pod) :=
  inferInstanceAs (Decidable (∃ s ∈ w.store, some pod ∈ s.pods))

instance : Decidable w.Reachable :=
  inferInstanceAs (Decidable (∀ pod ∈ w.running, w.Names pod ∨ w.Saves pod))

instance (i : Nat) : Decidable (w.Idle i) :=
  inferInstanceAs (Decidable (∀ pod ∈ w.running, w.podAt i ≠ some pod))

instance (e : Event) : Decidable (w.Orderly e) := by
  unfold Orderly
  split
  case h_5 => split <;> infer_instance
  all_goals infer_instance

end World

/-- The page is open, and no Pod runs. -/
def opened (images : List GoString) : World :=
  ⟨images, images.map fun _ => ⟨none, false⟩, [], false, false, false, none, []⟩

namespace World

variable {w w' w'' : World} {i j : Nat} {is : List Nat} {pod : GoString} {call : Call}

/-! ## Nodes -/

theorem names_iff : w.Names pod ↔ ∃ i, w.podAt i = some pod := by
  rw [Names, List.mem_map]
  constructor
  · intro h
    obtain ⟨n, hn, hpod⟩ := h
    obtain ⟨i, hi⟩ := List.mem_iff_getElem?.mp hn
    exact ⟨i, by rw [podAt, hi, Option.bind_some, hpod]⟩
  · intro h
    obtain ⟨i, hi⟩ := h
    obtain ⟨n, hn, hpod⟩ := Option.bind_eq_some_iff.mp hi
    exact ⟨n, List.mem_of_getElem? hn, hpod⟩

theorem podAt_modify_ne (h : i ≠ j) (f : Node → Node) : (w.modify i f).podAt j = w.podAt j := by
  rw [podAt, modify, List.getElem?_modify_ne f w.nodes h]
  rfl

theorem stoppedAt_modify_ne (h : i ≠ j) (f : Node → Node) :
    (w.modify i f).stoppedAt j = w.stoppedAt j := by
  rw [stoppedAt, modify, List.getElem?_modify_ne f w.nodes h]
  rfl

theorem podAt_setPod (h : i < w.nodes.length) (pod : GoString) :
    (w.setPod i pod).podAt i = some pod := by
  rw [podAt, setPod, modify, List.getElem?_modify_eq, List.getElem?_eq_getElem h]
  rfl

theorem podAt_markStopped (i j : Nat) : (w.markStopped i).podAt j = w.podAt j := by
  by_cases hij : i = j
  · subst hij
    rw [podAt, podAt, markStopped, modify, List.getElem?_modify_eq]
    cases w.nodes[i]? <;> rfl
  · exact podAt_modify_ne hij _

theorem podAt_reset (i j : Nat) : (w.reset i).podAt j = if i = j then none else w.podAt j := by
  by_cases hij : i = j
  · subst hij
    rw [if_pos rfl, podAt, reset, modify, List.getElem?_modify_eq]
    cases w.nodes[i]? <;> rfl
  · rw [if_neg hij]
    exact podAt_modify_ne hij _

theorem stoppedAt_setPod (i j : Nat) (pod : GoString) :
    (w.setPod i pod).stoppedAt j = w.stoppedAt j := by
  by_cases hij : i = j
  · subst hij
    rw [stoppedAt, stoppedAt, setPod, modify, List.getElem?_modify_eq]
    cases w.nodes[i]? <;> rfl
  · exact stoppedAt_modify_ne hij _

theorem stoppedAt_reset (h : (w.reset i).stoppedAt j = true) : i ≠ j ∧ w.stoppedAt j = true := by
  by_cases hij : i = j
  · subst hij
    rw [stoppedAt, reset, modify, List.getElem?_modify_eq] at h
    cases hn : w.nodes[i]? with
    | none =>
      rw [hn] at h
      cases h
    | some n =>
      rw [hn] at h
      cases h
  · rw [reset, stoppedAt_modify_ne hij] at h
    exact ⟨hij, h⟩

/-! ## The session goes down -/

/-- Pods end, nodes that no running Pod is behind are emptied, and the entry is kept with
the session or cleared. -/
structure Shrinks (w w' : World) : Prop where
  running : ∀ pod ∈ w'.running, pod ∈ w.running
  pods : ∀ i, w'.podAt i = w.podAt i ∨
    w'.podAt i = none ∧ ∀ pod ∈ w'.running, w.podAt i ≠ some pod
  store : w'.store = none ∨ w'.store = w.store ∧ w'.up = w.up

theorem Shrinks.trans (h : w.Shrinks w') (h' : w'.Shrinks w'') : w.Shrinks w'' where
  running pod hpod := h.running pod (h'.running pod hpod)
  pods i := by
    rcases h'.pods i with heq | ⟨hnone, hidle⟩
    · rcases h.pods i with heq' | ⟨hnone, hidle⟩
      · exact .inl (heq.trans heq')
      · exact .inr ⟨heq.trans hnone, fun pod hpod => hidle pod (h'.running pod hpod)⟩
    · refine .inr ⟨hnone, fun pod hpod => ?_⟩
      rcases h.pods i with heq | ⟨-, hidle'⟩
      · rw [← heq]
        exact hidle pod hpod
      · exact hidle' pod (h'.running pod hpod)
  store := by
    rcases h'.store with hnone | ⟨hstore, hup⟩
    · exact .inl hnone
    · rw [hstore, hup]
      exact h.store

theorem Idle.of_shrinks (h : w.Idle i) (hs : w.Shrinks w') : w'.Idle i := by
  intro pod hpod
  rcases hs.pods i with heq | ⟨hnone, -⟩
  · rw [heq]
    exact h pod (hs.running pod hpod)
  · rw [hnone]
    exact (Option.some_ne_none pod).symm

theorem shrinks_calls (w : World) (calls : List Call) : w.Shrinks { w with calls } :=
  ⟨fun _ h => h, fun _ => .inl rfl, .inr ⟨rfl, rfl⟩⟩

theorem shrinks_sessionDown (w : World) : w.Shrinks w.sessionDown :=
  ⟨fun _ h => h, fun _ => .inl rfl, .inl rfl⟩

theorem shrinks_reset (h : w.Idle i) : w.Shrinks (w.reset i) where
  running _ hpod := hpod
  pods j := by
    rw [podAt_reset]
    by_cases hij : i = j
    · subst hij
      exact .inr ⟨if_pos rfl, h⟩
    · exact .inl (if_neg hij)
  store := .inr ⟨rfl, rfl⟩

theorem shrinks_expireUI (h : ∀ i, w.Idle i) : w.Shrinks w.expireUI where
  running _ hpod := hpod
  pods i := by
    refine .inr ⟨?_, h i⟩
    rw [podAt, expireUI, sessionDown]
    dsimp only
    rw [List.getElem?_map]
    cases w.nodes[i]? <;> rfl
  store := .inl rfl

theorem shrinks_delete (i : Nat) (pod : GoString) : w.Shrinks (w.delete i pod) where
  running _ hpod := (List.mem_filter.mp hpod).1
  pods j := .inl (podAt_markStopped i j)
  store := .inr ⟨rfl, rfl⟩

/-! ## Calls that only take the session down -/

/-- When each node a keepalive has seen was gone, only nodes it has yet to see have a
running Pod behind them. -/
def Tallied (w : World) (p : Ping) : Prop :=
  p.gone < p.live ∧ (p.gone + 1 = p.live → ∀ j, j ∉ p.node :: p.rest → w.Idle j)

/-- A call that neither boots nor reattaches, and what it knows of the nodes behind it. -/
def Calm (w : World) : Call → Prop
  | .reattach _ | .start _ _ => False
  | .stop i rest => w.Idle i ∧ ∀ j, j ∉ i :: rest → w.Idle j
  | .ping p => w.Tallied p
  | .check p => w.Tallied p ∧ (w.podAt p.node = p.asked ∨ w.podAt p.node = none)

theorem Tallied.of_shrinks {p : Ping} (h : w.Tallied p) (hs : w.Shrinks w') : w'.Tallied p :=
  ⟨h.1, fun heq j hj => (h.2 heq j hj).of_shrinks hs⟩

theorem Calm.of_shrinks (h : w.Calm call) (hs : w.Shrinks w') : w'.Calm call := by
  cases call with
  | reattach pods => exact h
  | start i rest => exact h
  | stop i rest => exact ⟨h.1.of_shrinks hs, fun j hj => (h.2 j hj).of_shrinks hs⟩
  | ping p => exact Tallied.of_shrinks h hs
  | check p =>
    refine ⟨h.1.of_shrinks hs, ?_⟩
    rcases hs.pods p.node with heq | ⟨hnone, -⟩
    · rw [heq]
      exact h.2
    · exact .inr hnone

/-- What a call does up to its next request. -/
structure Goes (w : World) (r : World × Option Call) : Prop where
  shrinks : w.Shrinks r.1
  calls : r.1.calls = w.calls
  calm : ∀ call ∈ r.2, r.1.Calm call
  stopped : ∀ i, r.1.stoppedAt i = true →
    w.stoppedAt i = true ∨ ∃ rest, r.2 = some (.stop i rest)

/-- With a node reset the others are as idle as they were. -/
theorem idle_reset {i j : Nat} (hidle : w.Idle i) (h : ∀ j, j ∉ i :: is → w.Idle j)
    (hj : j ∉ is) : (w.reset i).Idle j := by
  have hreset := shrinks_reset hidle
  by_cases hij : j = i
  · subst hij
    exact hidle.of_shrinks hreset
  · exact (h j (List.not_mem_cons_of_ne_of_not_mem hij hj)).of_shrinks hreset

theorem goes_stopNodes (h : ∀ j, j ∉ is → w.Idle j) : w.Goes (w.stopNodes is) := by
  induction is generalizing w with
  | nil =>
    refine ⟨shrinks_sessionDown w, rfl, fun call hcall => ?_, fun j hj => .inl hj⟩
    cases hcall
  | cons i is ih =>
    rw [stopNodes]
    cases hpod : w.podAt i with
    | none =>
      have hidle : w.Idle i := by
        intro pod _
        rw [hpod]
        exact (Option.some_ne_none pod).symm
      have hgoes := ih fun j hj => idle_reset hidle h hj
      refine ⟨(shrinks_reset hidle).trans hgoes.shrinks, hgoes.calls, hgoes.calm, fun j hj => ?_⟩
      exact (hgoes.stopped j hj).imp_left fun h => (stoppedAt_reset h).2
    | some pod =>
      dsimp only
      have hdelete := w.shrinks_delete i pod
      refine ⟨hdelete, rfl, fun call hcall => ?_, fun j hj => ?_⟩
      · cases hcall
        refine ⟨fun p hp => ?_, fun j hj => (h j hj).of_shrinks hdelete⟩
        have hne := (List.mem_filter.mp hp).2
        intro heq
        have hp := hpod.symm.trans ((podAt_markStopped i i).symm.trans heq)
        rw [Option.some.inj hp, bne_self_eq_false] at hne
        cases hne
      · by_cases hij : i = j
        · subst hij
          exact .inr ⟨is, rfl⟩
        · refine .inl ?_
          rwa [← stoppedAt_modify_ne hij fun n => { n with stopped := true }]

/-- A keepalive that has found every node it has seen gone ends the session. -/
theorem goes_keepaliveNodes {live gone : Nat} (hle : gone ≤ live)
    (h : gone = live → ∀ j, j ∉ is → w.Idle j) : w.Goes (w.keepaliveNodes live gone is) := by
  cases is with
  | nil =>
    rw [keepaliveNodes]
    split_ifs with hall
    · refine ⟨shrinks_expireUI fun i => h hall.2 i List.not_mem_nil, rfl, fun call hcall => ?_,
        fun i hi => ?_⟩
      · cases hcall
      · rw [stoppedAt, expireUI, sessionDown] at hi
        dsimp only at hi
        rw [List.getElem?_map] at hi
        cases hn : w.nodes[i]? with
        | none =>
          rw [hn] at hi
          cases hi
        | some n =>
          rw [hn] at hi
          cases hi
    · refine ⟨w.shrinks_calls w.calls, rfl, fun call hcall => ?_, fun i hi => .inl hi⟩
      cases hcall
  | cons i is =>
    refine ⟨w.shrinks_calls w.calls, rfl, fun call hcall => ?_, fun i hi => .inl hi⟩
    cases hcall
    exact ⟨Nat.lt_succ_of_le hle, fun heq => h (Nat.succ.inj heq)⟩

/-! ## Phases of the page -/

/-- Before the statuses of the saved Pods are there, or without terminals. -/
structure Loading (w : World) : Prop where
  up : w.up = false
  timer : w.timer = false
  pods : ∀ i, w.podAt i = none
  stopped : ∀ i, w.stoppedAt i = false
  saves : ∀ pod ∈ w.running, w.Saves pod
  calls : w.nodes = [] ∧ w.calls = [] ∨
    ∃ s, w.store = some s ∧ s.pods.length = w.nodes.length ∧ w.calls = [.reattach s.pods]

/-- During a start. -/
structure Booting (w : World) : Prop where
  up : w.up = false
  store : w.store = none
  stopped : ∀ i, w.stoppedAt i = false
  names : ∀ pod ∈ w.running, w.Names pod
  calls : ∃ i is, w.calls = [.start i is] ∧ ∀ j ∈ i :: is, j < w.nodes.length

/-- The nodes name every running Pod, and so does the entry while there is one. -/
structure Settled (w : World) : Prop where
  down : w.up = false → w.store = none
  names : ∀ pod ∈ w.running, w.Names pod
  saves : w.store ≠ none → ∀ pod ∈ w.running, w.Saves pod
  calm : ∀ call ∈ w.calls, w.Calm call
  stopped : ∀ i, w.stoppedAt i = true → ∃ rest, .stop i rest ∈ w.calls

inductive Phase (w : World) : Prop where
  | loading (h : Loading w)
  | booting (h : Booting w)
  | settled (h : Settled w)

theorem reachable_of_phase (h : w.Phase) : w.Reachable := by
  intro pod hpod
  cases h with
  | loading h => exact .inr (h.saves pod hpod)
  | booting h => exact .inl (h.names pod hpod)
  | settled h => exact .inl (h.names pod hpod)

/-- What is left in the session storage when the page goes. -/
theorem saves_of_phase (h : w.Phase) (hleft : w.store = none → ∀ pod ∈ w.running, ¬ w.Names pod) :
    ∀ pod ∈ w.running, w.Saves pod := by
  cases h with
  | loading h => exact h.saves
  | booting h => exact fun pod hpod => absurd (h.names pod hpod) (hleft h.store pod hpod)
  | settled h =>
    intro pod hpod
    by_cases hstore : w.store = none
    · exact absurd (h.names pod hpod) (hleft hstore pod hpod)
    · exact h.saves hstore pod hpod

theorem Shrinks.names (hs : w.Shrinks w') (h : ∀ pod ∈ w.running, w.Names pod) :
    ∀ pod ∈ w'.running, w'.Names pod := by
  intro pod hpod
  obtain ⟨i, hi⟩ := names_iff.mp (h pod (hs.running pod hpod))
  rcases hs.pods i with heq | ⟨-, hidle⟩
  · exact names_iff.mpr ⟨i, heq.trans hi⟩
  · exact absurd hi (hidle pod hpod)

theorem Shrinks.saves (hs : w.Shrinks w')
    (h : w.store ≠ none → ∀ pod ∈ w.running, w.Saves pod) :
    w'.store ≠ none → ∀ pod ∈ w'.running, w'.Saves pod := by
  intro hstore pod hpod
  rcases hs.store with hnone | ⟨heq, -⟩
  · exact absurd hnone hstore
  · rw [Saves, heq]
    exact h (heq ▸ hstore) pod (hs.running pod hpod)

theorem Shrinks.down (hs : w.Shrinks w') (h : w.up = false → w.store = none) :
    w'.up = false → w'.store = none := by
  intro hup
  rcases hs.store with hnone | ⟨heq, heq'⟩
  · exact hnone
  · exact heq.trans (h (heq'.symm.trans hup))

theorem settled_began {r : World × Option Call} (h : w.Settled) (hr : w.Goes r) :
    (began r).Settled := by
  have hcalls := shrinks_calls r.1 (r.1.calls ++ r.2.toList)
  have hs := hr.shrinks.trans hcalls
  refine ⟨hs.down h.down, hs.names h.names, hs.saves h.saves, fun call hcall => ?_, fun i hi => ?_⟩
  · rcases List.mem_append.mp hcall with hold | hnew
    · rw [hr.calls] at hold
      exact (h.calm call hold).of_shrinks hs
    · exact (hr.calm call (Option.mem_toList.mp hnew)).of_shrinks hcalls
  · rcases hr.stopped i hi with hold | ⟨rest, hnew⟩
    · obtain ⟨rest, hrest⟩ := h.stopped i hold
      exact ⟨rest, List.mem_append_left _ (hr.calls ▸ hrest)⟩
    · exact ⟨rest, List.mem_append_right _ (Option.mem_toList.mpr hnew)⟩

theorem mem_continued {k : Nat} {r : World × Option Call} (h : call ∈ (continued k r).calls) :
    call ∈ r.1.calls ∨ call ∈ r.2 := by
  obtain ⟨w', next⟩ := r
  cases next with
  | none => exact .inl (List.mem_of_mem_eraseIdx h)
  | some next => exact (List.mem_or_eq_of_mem_set h).imp_right fun heq => congrArg some heq.symm

theorem mem_continued_of_ne {k : Nat} {r : World × Option Call} {call' : Call}
    (h : call' ∈ r.1.calls) (hcall : r.1.calls[k]? = some call) (hne : call' ≠ call) :
    call' ∈ (continued k r).calls := by
  obtain ⟨w', next⟩ := r
  obtain ⟨j, hj⟩ := List.mem_iff_getElem?.mp h
  have hjk : j ≠ k := by
    intro heq
    rw [heq, hcall] at hj
    exact hne (Option.some.inj hj).symm
  cases next with
  | none => exact List.mem_eraseIdx_iff_getElem?.mpr ⟨j, hjk, hj⟩
  | some next => exact List.mem_of_getElem? ((List.getElem?_set_ne (Ne.symm hjk)).trans hj)

/-- A call goes on, with its own node emptied if it is a stop. -/
theorem settled_continued {k : Nat} {r : World × Option Call} (h : w.Settled)
    (hcall : w.calls[k]? = some call) (hw : w.Shrinks w') (hcalls : w'.calls = w.calls)
    (hstopped : ∀ i, w'.stoppedAt i = true → w.stoppedAt i = true ∧ ∀ rest, call ≠ .stop i rest)
    (hr : w'.Goes r) : (continued k r).Settled := by
  have hs' : r.1.Shrinks (continued k r) := shrinks_calls r.1 _
  have hs := hw.trans (hr.shrinks.trans hs')
  have hkeep := hr.calls.trans hcalls
  refine ⟨hs.down h.down, hs.names h.names, hs.saves h.saves, fun c hc => ?_, fun i hi => ?_⟩
  · rcases mem_continued hc with hold | hnew
    · exact (h.calm c (hkeep ▸ hold)).of_shrinks hs
    · exact (hr.calm c hnew).of_shrinks hs'
  · rcases hr.stopped i hi with hold | ⟨rest, hnew⟩
    · obtain ⟨hi', hne⟩ := hstopped i hold
      obtain ⟨rest, hrest⟩ := h.stopped i hi'
      refine ⟨rest, mem_continued_of_ne (hkeep ▸ hrest) (hkeep ▸ hcall) (hne rest).symm⟩
    · obtain ⟨w₁, next⟩ := r
      subst hnew
      have hlt : k < w₁.calls.length := by
        rw [show w₁.calls = w.calls from hkeep]
        exact (List.getElem?_eq_some_iff.mp hcall).1
      exact ⟨rest, List.mem_set hlt _⟩

/-! ## Events -/

theorem settled_of_quiet (hstore : w.store = none) (hcalls : w.calls = [])
    (hstopped : ∀ i, w.stoppedAt i = false) (hnames : ∀ pod ∈ w.running, w.Names pod) :
    w.Settled := by
  refine ⟨fun _ => hstore, hnames, fun hne => absurd hstore hne, fun call hcall => ?_,
    fun i hi => ?_⟩
  · rw [hcalls] at hcall
    cases hcall
  · rw [hstopped i] at hi
    cases hi

theorem podAt_fresh (h : ∀ n ∈ w.nodes, n = ⟨none, false⟩) (i : Nat) :
    w.podAt i = none ∧ w.stoppedAt i = false := by
  rw [podAt, stoppedAt]
  cases hn : w.nodes[i]? with
  | none => exact ⟨rfl, rfl⟩
  | some n =>
    rw [h n (List.mem_of_getElem? hn)]
    exact ⟨rfl, rfl⟩

theorem idle_of_podAt (h : w.podAt i = none) : w.Idle i := by
  intro pod _
  rw [h]
  exact (Option.some_ne_none pod).symm

theorem idle_of_not_mem_range (h : i ∉ List.range w.nodes.length) : w.Idle i := by
  refine idle_of_podAt ?_
  rw [podAt, List.getElem?_eq_none (Nat.le_of_not_lt fun hlt => h (List.mem_range.mpr hlt))]
  rfl

theorem phase_load {images : List GoString} (hsaves : ∀ pod ∈ w.running, w.Saves pod)
    (hfits : images ≠ [] → w.store.any (fits images) = false → ∀ pod ∈ w.running, ¬ w.Saves pod) :
    (w.load images).Phase := by
  have hnodes : ∀ n ∈ images.map fun _ => Node.mk none false, n = ⟨none, false⟩ := by
    intro n hn
    obtain ⟨_, -, rfl⟩ := List.mem_map.mp hn
    rfl
  unfold load
  dsimp only
  split
  · exact .loading ⟨rfl, rfl, fun i => rfl, fun i => rfl, hsaves, .inl ⟨rfl, rfl⟩⟩
  · rename_i hstore
    refine .settled (settled_of_quiet hstore rfl (fun i => (podAt_fresh hnodes i).2) ?_)
    intro pod hpod
    obtain ⟨s, hs, -⟩ := hsaves pod hpod
    rw [hstore] at hs
    cases hs
  · rename_i image images s hstore
    split_ifs with hfit
    · have hlength := (Bool.and_eq_true_iff.mp hfit).1
      rw [beq_iff_eq] at hlength
      refine .loading ⟨rfl, rfl, fun i => (podAt_fresh hnodes i).1,
        fun i => (podAt_fresh hnodes i).2, hsaves, .inr ⟨s, hstore, ?_, rfl⟩⟩
      rw [hlength, List.length_map]
    · refine .settled (settled_of_quiet rfl rfl (fun i => (podAt_fresh hnodes i).2) ?_)
      intro pod hpod
      have hnone : w.store.any (fits (image :: images)) = false := by
        rw [hstore]
        exact eq_false_of_ne_true hfit
      exact absurd (hsaves pod hpod) (hfits (List.cons_ne_nil _ _) hnone pod hpod)

theorem phase_gone (h : w.Phase) (pod : GoString) :
    Phase { w with running := w.running.filter (· != pod) } := by
  have hrun : ∀ p ∈ w.running.filter (· != pod), p ∈ w.running :=
    fun p hp => (List.mem_filter.mp hp).1
  cases h with
  | loading h =>
    exact .loading ⟨h.up, h.timer, h.pods, h.stopped, fun p hp => h.saves p (hrun p hp), h.calls⟩
  | booting h =>
    exact .booting ⟨h.up, h.store, h.stopped, fun p hp => h.names p (hrun p hp), h.calls⟩
  | settled h =>
    have hs : w.Shrinks { w with running := w.running.filter (· != pod) } :=
      ⟨hrun, fun _ => .inl rfl, .inr ⟨rfl, rfl⟩⟩
    exact .settled ⟨h.down, hs.names h.names, hs.saves h.saves,
      fun call hcall => (h.calm call hcall).of_shrinks hs, h.stopped⟩

theorem phase_start (h : w.Phase) (hcalls : w.calls = []) (hstep : w.step .start = some w') :
    w'.Phase := by
  rw [step] at hstep
  split at hstep
  · cases hstep
  · rename_i i is hrange
    split_ifs at hstep with hup
    cases hstep
    rw [Bool.or_eq_true, not_or, Bool.not_eq_true] at hup
    cases h with
    | loading h =>
      rcases h.calls with ⟨hnodes, -⟩ | ⟨s, -, -, hwait⟩
      · rw [hnodes] at hrange
        cases hrange
      · rw [hcalls] at hwait
        cases hwait
    | booting h =>
      obtain ⟨j, js, hwait, -⟩ := h.calls
      rw [hcalls] at hwait
      cases hwait
    | settled h =>
      refine .booting ⟨hup.1, h.down hup.1, fun j => ?_, h.names, i, is, ?_, fun j hj => ?_⟩
      · rw [← Bool.not_eq_true]
        intro hj
        obtain ⟨rest, hrest⟩ := h.stopped j hj
        rw [hcalls] at hrest
        cases hrest
      · rw [hcalls]
        rfl
      · exact List.mem_range.mp (hrange ▸ hj)

theorem phase_stop (h : w.Phase) (hstep : w.step .stop = some w') : w'.Phase := by
  rw [step] at hstep
  split_ifs at hstep with hup
  cases hstep
  cases h with
  | loading h =>
    rw [h.up] at hup
    cases hup
  | booting h =>
    rw [h.up] at hup
    cases hup
  | settled h =>
    have hquiet : Settled { w with timer := false } := ⟨h.down, h.names, h.saves, h.calm, h.stopped⟩
    exact .settled (settled_began hquiet (goes_stopNodes fun j hj => idle_of_not_mem_range hj))

theorem phase_keepalive (h : w.Phase) (hstart : w.calls.any isStart = false)
    (hstep : w.step .keepalive = some w') : w'.Phase := by
  rw [step] at hstep
  split_ifs at hstep with hawake
  cases hstep
  cases h with
  | loading h =>
    rw [h.timer, Bool.false_or, List.any_eq_true] at hawake
    obtain ⟨n, hn, hpod⟩ := hawake
    obtain ⟨i, hi⟩ := List.mem_iff_getElem?.mp hn
    have hnone := h.pods i
    rw [podAt, hi, Option.bind_some] at hnone
    rw [hnone] at hpod
    cases hpod
  | booting h =>
    obtain ⟨i, is, hcalls, -⟩ := h.calls
    rw [hcalls] at hstart
    cases hstart
  | settled h =>
    refine .settled (settled_began h (goes_keepaliveNodes le_rfl fun _ j hj => ?_))
    by_cases hrange : j ∈ List.range w.nodes.length
    · have hskip : ¬ ((w.podAt j).isSome && !w.stoppedAt j) = true :=
        fun hlive => hj (List.mem_filter.mpr ⟨hrange, hlive⟩)
      rw [Bool.and_eq_true, not_and_or, Bool.not_eq_true, Option.isSome_eq_false_iff,
        Bool.not_eq_true, Bool.not_eq_false'] at hskip
      rcases hskip with hnone | hstopped
      · exact idle_of_podAt (Option.isNone_iff_eq_none.mp hnone)
      · obtain ⟨rest, hrest⟩ := h.stopped j hstopped
        exact (h.calm _ hrest).1
    · exact idle_of_not_mem_range hrange

theorem map_pod_attach {nodes : List Node} {pods : List (Option GoString)}
    (h : pods.length = nodes.length) : (attach nodes pods).map Node.pod = pods := by
  induction nodes generalizing pods with
  | nil => exact (List.length_eq_zero_iff.mp h).symm
  | cons n nodes ih =>
    cases pods with
    | nil => rfl
    | cons pod pods => exact congrArg (pod :: ·) (ih (Nat.succ.inj h))

theorem stoppedAt_attach {pods : List (Option GoString)} (h : w.stoppedAt i = false) :
    stoppedAt { w with nodes := attach w.nodes pods } i = false := by
  rw [stoppedAt]
  dsimp only
  cases hn : (attach w.nodes pods)[i]? with
  | none => rfl
  | some n =>
    obtain ⟨m, pod, hm, -, rfl⟩ := List.getElem?_zipWith_eq_some.mp hn
    rwa [stoppedAt, hm] at h

/-- Reattaching gives the nodes the Pods of the entry. -/
theorem phase_reattach {s : Saved} {ready : GoString → Bool} (h : w.Loading)
    (hstore : w.store = some s) (hlength : s.pods.length = w.nodes.length)
    (hcalls : w.calls = [.reattach s.pods])
    (hready : s.pods.all (Option.any ready) = true ∨ ∀ pod ∈ w.running, ¬ w.Saves pod) :
    (continued 0 (w.reattach s.pods ready, none)).Phase := by
  rw [reattach]
  split_ifs with hall
  · have hpods := map_pod_attach hlength
    have hnames : ∀ pod ∈ w.running, some pod ∈ (attach w.nodes s.pods).map Node.pod := by
      intro pod hpod
      obtain ⟨s', hs', hin⟩ := h.saves pod hpod
      cases hstore.symm.trans hs'
      rwa [hpods]
    refine .settled ⟨fun hup => ?_, hnames, fun _ pod hpod => ⟨_, rfl, hnames pod hpod⟩,
      fun call hcall => ?_, fun i hi => ?_⟩
    · cases hup
    · rw [continued, sessionUp] at hcall
      dsimp only at hcall
      rw [hcalls] at hcall
      cases hcall
    · cases (stoppedAt_attach (h.stopped i)).symm.trans hi
  · have hnone := hready.resolve_left hall
    refine .settled (settled_of_quiet rfl ?_ h.stopped fun pod hpod => ?_)
    · rw [continued]
      dsimp only
      rw [hcalls]
      rfl
    · exact absurd (h.saves pod hpod) (hnone pod hpod)

theorem names_setPod (hi : i < w.nodes.length) (hidle : w.Idle i)
    (h : ∀ pod ∈ w.running, w.Names pod) : ∀ p ∈ pod :: w.running, (w.setPod i pod).Names p := by
  intro p hp
  rcases List.mem_cons.mp hp with rfl | hp
  · exact names_iff.mpr ⟨i, podAt_setPod hi p⟩
  · obtain ⟨j, hj⟩ := names_iff.mp (h p hp)
    have hij : i ≠ j := by
      intro heq
      subst heq
      exact hidle p hp hj
    exact names_iff.mpr ⟨j, (podAt_modify_ne hij _).trans hj⟩

theorem phase_boot {created : Option GoString} (h : w.Booting) (hcalls : w.calls = [.start i is])
    (hin : ∀ j ∈ i :: is, j < w.nodes.length) (hidle : created ≠ none → w.Idle i) :
    (continued 0 (w.boot i is created)).Phase := by
  cases created with
  | none =>
    refine .settled (settled_of_quiet h.store ?_ h.stopped h.names)
    rw [boot, continued]
    dsimp only
    rw [hcalls]
    rfl
  | some pod =>
    obtain ⟨hi, his⟩ := List.forall_mem_cons.mp hin
    have hnames : ∀ p ∈ pod :: w.running, (w.setPod i pod).Names p :=
      names_setPod hi (hidle (Option.some_ne_none pod)) h.names
    have hstopped : ∀ j, (w.setPod i pod).stoppedAt j = false :=
      fun j => (stoppedAt_setPod i j pod).trans (h.stopped j)
    cases is with
    | nil =>
      refine .settled ⟨fun hup => ?_, hnames, fun _ p hp => ⟨_, rfl, hnames p hp⟩,
        fun call hcall => ?_, fun j hj => ?_⟩
      · cases hup
      · rw [boot, continued] at hcall
        dsimp only [sessionUp, setPod, modify] at hcall
        rw [hcalls] at hcall
        cases hcall
      · cases (hstopped j).symm.trans hj
    | cons j js =>
      refine .booting ⟨h.up, h.store, hstopped, hnames, j, js, ?_, fun m hm => ?_⟩
      · rw [boot, continued]
        dsimp only [setPod, modify]
        rw [hcalls]
        rfl
      · rw [boot, continued]
        dsimp only [setPod, modify]
        rw [List.length_modify]
        exact his m hm

/-- A node that is still there when a keepalive asks for its Pod does not count. -/
theorem settled_found {k : Nat} {p : Ping} (h : w.Settled) (hcall : w.calls[k]? = some call)
    (htally : w.Tallied p) (hne : ∀ i rest, call ≠ .stop i rest) :
    (continued k (w.keepaliveNodes p.live p.gone p.rest)).Settled :=
  settled_continued h hcall (w.shrinks_calls w.calls) rfl (fun i hi => ⟨hi, hne i⟩)
    (goes_keepaliveNodes htally.1.le fun heq => absurd heq htally.1.ne)

theorem idle_of_mayMiss {asked : Option GoString} (h : w.mayMiss asked = true)
    (hasked : w.podAt i = asked ∨ w.podAt i = none) : w.Idle i := by
  rcases hasked with heq | hnone
  · intro pod hpod hat
    rw [← heq, hat, mayMiss, Option.any_some, List.contains_iff_mem.mpr hpod] at h
    cases h
  · exact idle_of_podAt hnone

theorem of_singleton {α : Type} {a b : α} {k : Nat} (h : [a][k]? = some b) : k = 0 ∧ a = b := by
  cases k with
  | zero => exact ⟨rfl, Option.some.inj h⟩
  | succ k => cases h

/-- A call of a settled page goes on. -/
theorem settled_resume {k : Nat} {a : Answer} {r : World × Option Call} (h : w.Settled)
    (hcall : w.calls[k]? = some call) (hr : w.resume call a = some r) :
    (continued k r).Settled := by
  have hcalm := h.calm call (List.mem_of_getElem? hcall)
  have hsame := w.shrinks_calls w.calls
  cases call with
  | reattach pods => exact hcalm.elim
  | start i rest => exact hcalm.elim
  | stop i rest =>
    cases a with
    | deleted =>
      cases hr
      obtain ⟨hidle, hrest⟩ := hcalm
      refine settled_continued h hcall (shrinks_reset hidle) rfl (fun j hj => ?_)
        (goes_stopNodes fun j hj => idle_reset hidle hrest hj)
      obtain ⟨hne, hj⟩ := stoppedAt_reset hj
      refine ⟨hj, fun rest' heq => ?_⟩
      cases heq
      exact hne rfl
    | _ => cases hr
  | ping p =>
    cases a with
    | pinged notFound =>
      cases notFound with
      | false =>
        cases hr
        exact settled_found h hcall hcalm (fun _ _ => Call.noConfusion)
      | true =>
        rw [resume] at hr
        split_ifs at hr with hmiss
        cases hr
        refine settled_continued h hcall hsame rfl (fun i hi => ⟨hi, fun _ => Call.noConfusion⟩)
          ⟨hsame, rfl, fun c hc => ?_, fun i hi => .inl hi⟩
        cases hc
        exact ⟨hcalm, .inl rfl⟩
    | _ => cases hr
  | check p =>
    cases a with
    | pinged notFound =>
      obtain ⟨htally, hasked⟩ := hcalm
      cases notFound with
      | false =>
        cases hr
        exact settled_found h hcall htally (fun _ _ => Call.noConfusion)
      | true =>
        rw [resume] at hr
        split_ifs at hr with hmiss
        cases hr
        refine settled_continued h hcall hsame rfl (fun i hi => ⟨hi, fun _ => Call.noConfusion⟩)
          (goes_keepaliveNodes htally.1 fun heq j hj => ?_)
        by_cases hij : j = p.node
        · subst hij
          exact idle_of_mayMiss hmiss hasked
        · exact htally.2 heq j (List.not_mem_cons_of_ne_of_not_mem hij hj)
    | _ => cases hr

theorem phase_resume {k : Nat} {a : Answer} {r : World × Option Call} (h : w.Phase)
    (hcond : w.Orderly (.answer k a)) (hcall : w.calls[k]? = some call)
    (hr : w.resume call a = some r) : (continued k r).Phase := by
  unfold Orderly at hcond
  dsimp only at hcond
  rw [hcall] at hcond
  cases h with
  | loading h =>
    rcases h.calls with ⟨-, hcalls⟩ | ⟨s, hstore, hlength, hcalls⟩
    · rw [hcalls] at hcall
      cases hcall
    · obtain ⟨rfl, rfl⟩ := of_singleton (hcalls ▸ hcall)
      cases a with
      | statuses ready =>
        cases hr
        exact phase_reattach h hstore hlength hcalls hcond
      | _ => cases hr
  | booting h =>
    obtain ⟨i, is, hcalls, hin⟩ := h.calls
    obtain ⟨rfl, rfl⟩ := of_singleton (hcalls ▸ hcall)
    cases a with
    | posted created =>
      cases hr
      refine phase_boot h hcalls hin fun hne => ?_
      cases created with
      | none => exact absurd rfl hne
      | some pod => exact hcond
    | _ => cases hr
  | settled h => exact .settled (settled_resume h hcall hr)

theorem phase_step {e : Event} (h : w.Phase) (hcond : w.Orderly e) (hstep : w.step e = some w') :
    w'.Phase := by
  cases e with
  | reload images landed =>
    obtain ⟨hlanded, hleft, hfits⟩ := hcond
    subst hlanded
    cases hstep
    exact phase_load (saves_of_phase h hleft) hfits
  | start => exact phase_start h hcond hstep
  | stop => exact phase_stop h hstep
  | keepalive => exact phase_keepalive h hcond hstep
  | answer k a =>
    obtain ⟨call, hcall, hresume⟩ := Option.bind_eq_some_iff.mp hstep
    obtain ⟨r, hr, rfl⟩ := Option.map_eq_some_iff.mp hresume
    exact phase_resume h hcond hcall hr
  | gone pod =>
    cases hstep
    exact phase_gone h pod

theorem phase_opened (images : List GoString) : (opened images).Phase := by
  have hnodes : ∀ n ∈ images.map fun _ => Node.mk none false, n = ⟨none, false⟩ := by
    intro n hn
    obtain ⟨_, -, rfl⟩ := List.mem_map.mp hn
    rfl
  exact .settled (settled_of_quiet rfl rfl (fun i => (podAt_fresh hnodes i).2)
    fun _ hpod => absurd hpod List.not_mem_nil)

end World

/-- In a run whose steps are orderly every running Pod is named by a node or by the saved
entry. -/
theorem reachable_of_orderly (images : List GoString) (es : List Event)
    (h : Runs.Each World.step World.Orderly (opened images) es) :
    Runs.Always World.step World.Reachable (opened images) es :=
  Runs.always_of_invariant (I := World.Phase)
    (fun _ _ _ hphase hcond hstep => World.phase_step hphase hcond hstep)
    (fun _ => World.reachable_of_phase) (World.phase_opened images) h

/-- A lesson of two terminals. -/
def twoImages : List GoString := [utf8 "sh", utf8 "sh"]

/-- A start, a reload that reattaches, and a stop. -/
def reattachedRun : List Event :=
  [.start, .answer 0 (.posted (some (utf8 "a"))), .answer 0 (.posted (some (utf8 "b"))),
    .reload twoImages none, .answer 0 (.statuses fun _ => true), .stop, .answer 0 .deleted,
    .answer 0 .deleted]

theorem reachable_reattachedRun :
    (Runs.run World.step (opened twoImages) reattachedRun).isSome = true ∧
      Runs.Always World.step World.Reachable (opened twoImages) reattachedRun :=
  ⟨by decide +kernel, reachable_of_orderly twoImages reattachedRun (by decide +kernel)⟩

/-- A start that fails at its second Pod, and another one. -/
def twoStarts : List Event :=
  [.start, .answer 0 (.posted (some (utf8 "a"))), .answer 0 (.posted none), .start,
    .answer 0 (.posted (some (utf8 "b")))]

theorem not_reachable_twoStarts :
    ¬ Runs.Always World.step World.Reachable (opened twoImages) twoStarts := by
  intro h
  have hend : (Runs.run World.step (opened twoImages) twoStarts).any
      (fun w => !decide w.Reachable) = true := by decide +kernel
  obtain ⟨w, hrun, hlost⟩ := (Option.any_eq_true _ _).mp hend
  have hkept := h.last hrun
  rw [decide_eq_true hkept] at hlost
  cases hlost

end TrainingPlatform.Content.Console
