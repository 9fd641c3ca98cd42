import TrainingPlatform.Content.Console
import Mathlib.Data.List.Nodup
import Mathlib.Data.List.Perm.Basic

/-!
# The sockets of a lesson page

Every terminal of a lesson page has a WebSocket to its Pod.  The script connects it when
the Pod is booted or found again and closes it on Stop and when the session expired.  The
browser delivers the close event later, and its handler connects anew while the Pod is
ready, after a request and a timer.
-/

namespace TrainingPlatform.Content.Console

open Go

inductive ReadyState where
  | connecting
  | opened
  | closing
  | closed
  deriving DecidableEq

/-- The socket of a node, and whether `stop` or `expireUI` closed it. -/
structure Socket where
  node : Nat
  readyState : ReadyState
  shut : Bool

/-- `ws` and `retries` of a node. -/
structure Conn where
  ws : Option Nat
  retries : Nat

inductive Wait where
  | status
  | timer
  deriving DecidableEq

/-- A close handler that waits for the status of the node's Pod or for its timer. -/
structure Reconnect where
  node : Nat
  socket : Nat
  wait : Wait

inductive Effect where
  | status (text : GoString)
  | connected

/-- What an event of a socket did to its node, and whether the socket had been shut. -/
structure Change where
  node : Nat
  socket : Nat
  effect : Effect
  late : Bool

/-- The page with its sockets, in the order of their creation. -/
structure Page where
  world : World
  conns : List Conn
  sockets : List Socket
  reconnects : List Reconnect
  changes : List Change

inductive PageEvent where
  /-- An event of the script's functions. -/
  | script (e : Event)
  | opened (k : Nat)
  /-- The server begins to close a socket. -/
  | closing (k : Nat)
  | closed (k : Nat)
  /-- The answer to a close handler: the Pod is ready. -/
  | replied (j : Nat) (ready : Bool)
  | fired (j : Nat)

namespace Socket

def live (s : Socket) : Bool := s.readyState = .connecting || s.readyState = .opened

/-- `ws.close()` by `stop` or `expireUI`. -/
def close (s : Socket) : Socket :=
  if s.readyState = .closed then s else { s with readyState := .closing, shut := true }

/-- A close event is to come, and the socket was not shut. -/
def pending (s : Socket) : Bool := s.readyState ≠ .closed && !s.shut

end Socket

namespace Page

variable (p : Page)

def shutAt (k : Nat) : Bool := (p.sockets[k]?).any Socket.shut

def changed (node socket : Nat) (effect : Effect) : Page :=
  { p with changes := p.changes ++ [⟨node, socket, effect, p.shutAt socket⟩] }

def setState (k : Nat) (st : ReadyState) : Page :=
  { p with sockets := p.sockets.modify k fun s => { s with readyState := st } }

def setRetries (i : Nat) (f : Nat → Nat) : Page :=
  { p with conns := p.conns.modify i fun c => { c with retries := f c.retries } }

def connect (i : Nat) : Page :=
  { p with
    sockets := p.sockets ++ [⟨i, .connecting, false⟩]
    conns := p.conns.modify i fun c => { c with ws := some p.sockets.length } }

def closeWs (i : Nat) : Page :=
  match (p.conns[i]?).bind Conn.ws with
  | none => p
  | some k => { p with sockets := p.sockets.modify k Socket.close }

/-- What the loop of `stop` does to the sockets up to its next request; a node without a
Pod is reset at once. -/
def stopNodes (w : World) : Page → List Nat → Page
  | p, [] => p
  | p, i :: is =>
    if (w.podAt i).isSome then p.closeWs i
    else stopNodes w ((p.closeWs i).setRetries i fun _ => 0) is

def expireUI : Page :=
  let p' := (List.range p.conns.length).foldl closeWs p
  { p' with conns := p'.conns.map fun _ => ⟨none, 0⟩ }

/-- `keepalive` behind an answer. -/
def keepaliveNodes (live gone : Nat) (rest : List Nat) : Page :=
  if rest = [] ∧ live ≠ 0 ∧ gone = live then p.expireUI else p

def answered : Call → Answer → Page
  | .start i _, .posted (some _) => p.connect i
  | .reattach pods, .statuses ready =>
    if pods.all (Option.any ready) then (List.range pods.length).foldl connect p else p
  | .stop i rest, .deleted => stopNodes (p.world.reset i) (p.setRetries i fun _ => 0) rest
  | .ping c, .pinged false => p.keepaliveNodes c.live c.gone c.rest
  | .check c, .pinged false => p.keepaliveNodes c.live c.gone c.rest
  | .check c, .pinged true => p.keepaliveNodes c.live (c.gone + 1) c.rest
  | _, _ => p

/-- What an event of the script does to the sockets. -/
def scripted : Event → Page
  | .reload images _ =>
    { p with conns := images.map fun _ => ⟨none, 0⟩, sockets := [], reconnects := [] }
  | .stop => stopNodes p.world p (List.range p.world.nodes.length)
  | .answer k a =>
    match p.world.calls[k]? with
    | none => p
    | some call => p.answered call a
  | _ => p

/-- `onopen`. -/
def onopen (k : Nat) (s : Socket) : Page :=
  ((p.setState k .opened).setRetries s.node fun _ => 0).changed s.node k
    (.status ((p.world.podAt s.node).getD []))

/-- `onclose`, up to its request. -/
def onclose (k : Nat) (s : Socket) : Page :=
  let p' := p.setState k .closed
  if p.world.stoppedAt s.node then p'
  else
    let p' := (p'.changed s.node k (.status (utf8 "disconnected"))).setRetries s.node (· + 1)
    if (p.conns[s.node]?).any (·.retries < 5) then
      { p' with reconnects := p'.reconnects ++ [⟨s.node, k, .status⟩] }
    else p'.changed s.node k (.status (utf8 "session ended"))

/-- `onclose` behind the answer about the Pod. -/
def replied (j : Nat) (r : Reconnect) (ready : Bool) : Page :=
  if ready then
    { p.changed r.node r.socket (.status (utf8 "reconnecting…")) with
      reconnects := p.reconnects.set j { r with wait := .timer } }
  else
    { p.changed r.node r.socket (.status (utf8 "session ended")) with
      reconnects := p.reconnects.eraseIdx j }

/-- The timer of `onclose`. -/
def fired (j : Nat) (r : Reconnect) : Page :=
  ({ p with reconnects := p.reconnects.eraseIdx j }.changed r.node r.socket .connected).connect
    r.node

def step (p : Page) : PageEvent → Option Page
  | .script e => (p.world.step e).map fun w => { p.scripted e with world := w }
  | .opened k => (p.sockets[k]?).bind fun s =>
    if s.readyState = .connecting then some (p.onopen k s) else none
  | .closing k => (p.sockets[k]?).bind fun s =>
    if s.readyState = .opened then some (p.setState k .closing) else none
  | .closed k => (p.sockets[k]?).bind fun s =>
    if s.readyState = .closed then none else some (p.onclose k s)
  | .replied j ready => (p.reconnects[j]?).bind fun r =>
    if r.wait = .status then some (p.replied j r ready) else none
  | .fired j => (p.reconnects[j]?).bind fun r =>
    if r.wait = .timer then some (p.fired j r) else none

/-- A node has at most one socket that is connecting or open, and a socket that was shut
changed nothing since. -/
structure Tame : Prop where
  single : ∀ i, p.sockets.countP (fun s => s.node = i && s.live) ≤ 1
  quiet : ∀ c ∈ p.changes, c.late = false

/-- A call that is going to connect nodes. -/
def connects : Call → Bool
  | .start _ _ | .reattach _ => true
  | _ => false

/-- Start is pressed when nothing is left that may connect or has a socket, and the close
event of a socket that was shut comes while its node is being stopped. -/
def Orderly : PageEvent → Prop
  | .script .start => (∀ s ∈ p.sockets, s.pending = false) ∧ p.reconnects = [] ∧
      ∀ c ∈ p.world.calls, connects c = false
  | .closed k => p.shutAt k = true → ∀ s ∈ p.sockets[k]?, p.world.stoppedAt s.node = true
  | _ => True

instance instDecidableOrderly (e : PageEvent) : Decidable (p.Orderly e) := by
  unfold Orderly
  split <;> infer_instance

end Page

/-- The page is open, and no Pod runs. -/
def openedPage (images : List GoString) : Page :=
  ⟨opened images, images.map fun _ => ⟨none, 0⟩, [], [], []⟩

/-! ## Counting -/

section Count

variable {α : Type} {l : List α} {k : Nat} {a : α} (f : α → Bool)

theorem countP_eraseIdx (h : l[k]? = some a) :
    (l.eraseIdx k).countP f + (if f a then 1 else 0) = l.countP f := by
  obtain ⟨hk, rfl⟩ := List.getElem?_eq_some_iff.mp h
  rw [← (List.getElem_cons_eraseIdx_perm hk).countP_eq f, List.countP_cons]

theorem countP_set_add (h : l[k]? = some a) (b : α) :
    (l.set k b).countP f + (if f a then 1 else 0) = l.countP f + if f b then 1 else 0 := by
  obtain ⟨hk, rfl⟩ := List.getElem?_eq_some_iff.mp h
  have hle : (if f l[k] then 1 else 0) ≤ l.countP f := List.boole_getElem_le_countP hk
  rw [List.countP_set hk]
  omega

theorem countP_modify (h : l[k]? = some a) (g : α → α) :
    (l.modify k g).countP f + (if f a then 1 else 0) = l.countP f + if f (g a) then 1 else 0 := by
  obtain ⟨hk, rfl⟩ := List.getElem?_eq_some_iff.mp h
  rw [List.modify_eq_take_cons_drop hk, ← countP_set_add f h, List.set_eq_take_append_cons_drop,
    if_pos hk]

theorem countP_modify_le (k : Nat) {g : α → α} (hg : ∀ a, f (g a) = true → f a = true) :
    (l.modify k g).countP f ≤ l.countP f := by
  by_cases hk : k < l.length
  · have hcount := countP_modify f (List.getElem?_eq_getElem hk) g
    by_cases hf : f (g l[k]) = true
    · rw [if_pos hf, if_pos (hg _ hf)] at hcount
      omega
    · rw [if_neg hf] at hcount
      omega
  · rw [List.modify_eq_self (Nat.le_of_not_lt hk)]

end Count

/-! ## Calls of the script -/

/-- A call is going to connect a node. -/
def claims (i : Nat) : Call → Bool
  | .start j rest => i ∈ j :: rest
  | .reattach pods => i < pods.length
  | _ => false

section Calls

variable {w w' : World} {i : Nat} {call : Call}

theorem claims_of_connects (h : Page.connects call = false) : claims i call = false := by
  cases call with
  | start j rest => cases h
  | reattach pods => cases h
  | _ => rfl

theorem calls_stopNodes (w : World) (is : List Nat) : (w.stopNodes is).1.calls = w.calls ∧
    ∀ c ∈ (w.stopNodes is).2, Page.connects c = false := by
  induction is generalizing w with
  | nil => exact ⟨rfl, fun c hc => absurd hc (Option.not_mem_none c)⟩
  | cons i is ih =>
    rw [World.stopNodes]
    cases w.podAt i with
    | none => exact ih (w.reset i)
    | some pod =>
      refine ⟨rfl, fun c hc => ?_⟩
      cases hc
      rfl

theorem calls_keepaliveNodes (w : World) (live gone : Nat) (is : List Nat) :
    (w.keepaliveNodes live gone is).1.calls = w.calls ∧
      ∀ c ∈ (w.keepaliveNodes live gone is).2, Page.connects c = false := by
  cases is with
  | nil =>
    rw [World.keepaliveNodes]
    refine ⟨?_, fun c hc => absurd hc (Option.not_mem_none c)⟩
    split_ifs <;> rfl
  | cons i is =>
    refine ⟨rfl, fun c hc => ?_⟩
    cases hc
    rfl

/-- What is claimed when a call goes on. -/
theorem countP_continued {k : Nat} {r : World × Option Call} (f : Call → Bool)
    (hcalls : r.1.calls = w.calls) (hcall : w.calls[k]? = some call) :
    (World.continued k r).calls.countP f + (if f call then 1 else 0) =
      w.calls.countP f + r.2.toList.countP f := by
  rw [World.continued]
  cases hr : r.2 with
  | none =>
    dsimp only
    rw [hcalls]
    exact countP_eraseIdx f hcall
  | some c =>
    dsimp only
    rw [hcalls, countP_set_add f hcall, Option.toList_some, List.countP_singleton]

theorem calls_load (w : World) (images : List GoString) :
    (w.load images).calls = [] ∨ ∃ pods, (w.load images).calls = [.reattach pods] := by
  unfold World.load
  dsimp only
  split
  · exact .inl rfl
  · exact .inl rfl
  · split_ifs
    · exact .inr ⟨_, rfl⟩
    · exact .inl rfl

/-- A call that goes on leaves the others. -/
theorem calls_resume {a : Answer} {r : World × Option Call} (h : w.resume call a = some r) :
    r.1.calls = w.calls := by
  unfold World.resume at h
  split at h
  case h_1 pods ready =>
    cases h
    rw [World.reattach]
    dsimp only
    split_ifs <;> rfl
  case h_2 i rest created =>
    cases h
    cases created with
    | none => rfl
    | some pod => cases rest <;> rfl
  case h_3 => cases h; exact (calls_stopNodes _ _).1
  case h_4 => cases h; exact (calls_keepaliveNodes w _ _ _).1
  case h_5 => split_ifs at h; cases h; rfl
  case h_6 => cases h; exact (calls_keepaliveNodes w _ _ _).1
  case h_7 => split_ifs at h; cases h; exact (calls_keepaliveNodes w _ _ _).1
  case h_8 => cases h

end Calls

namespace Page

variable {p p' p'' : Page} {i j k : Nat} {s : Socket}

/-! ## Closing sockets -/

/-- A socket of the node that reconnects it when it closes. -/
def holds (i : Nat) (s : Socket) : Bool := s.node = i && s.pending

/-- Sockets are shut, and nothing else happens. -/
structure Shuts (p p' : Page) : Prop where
  world : p'.world = p.world
  reconnects : p'.reconnects = p.reconnects
  changes : p'.changes = p.changes
  count : ∀ i, p'.sockets.countP (holds i) ≤ p.sockets.countP (holds i)
  shut : (∀ s ∈ p.sockets, s.shut = true → s.live = false) →
    ∀ s ∈ p'.sockets, s.shut = true → s.live = false
  closed : ∀ (k : Nat) (s : Socket), p.sockets[k]? = some s → s.readyState = .closed →
    p'.sockets[k]? = some s

theorem Shuts.refl (p : Page) : p.Shuts p := ⟨rfl, rfl, rfl, fun _ => le_rfl, id, fun _ _ h _ => h⟩

theorem Shuts.trans (h : p.Shuts p') (h' : p'.Shuts p'') : p.Shuts p'' where
  world := h'.world.trans h.world
  reconnects := h'.reconnects.trans h.reconnects
  changes := h'.changes.trans h.changes
  count i := (h'.count i).trans (h.count i)
  shut hs := h'.shut (h.shut hs)
  closed k s hk hs := h'.closed k s (h.closed k s hk hs) hs

theorem holds_of_close (h : holds i s.close = true) : holds i s = true := by
  rw [Socket.close] at h
  split_ifs at h with hclosed
  · exact h
  · simp [holds, Socket.pending] at h

theorem shuts_closeWs (p : Page) (i : Nat) : p.Shuts (p.closeWs i) := by
  rw [closeWs]
  split
  · exact .refl p
  · rename_i k hk
    refine ⟨rfl, rfl, rfl, fun i => countP_modify_le _ k fun s => holds_of_close,
      fun hs s hmem => ?_, fun j s hj hclosed => ?_⟩
    · obtain ⟨j, hj⟩ := List.mem_iff_getElem?.mp hmem
      dsimp only at hj
      by_cases hkj : k = j
      · rw [hkj, List.getElem?_modify_eq] at hj
        obtain ⟨t, ht, rfl⟩ := Option.map_eq_some_iff.mp hj
        rw [Socket.close]
        split_ifs with hclosed
        · exact hs t (List.mem_of_getElem? ht)
        · exact fun _ => rfl
      · rw [List.getElem?_modify_ne _ _ hkj] at hj
        exact hs s (List.mem_of_getElem? hj)
    · dsimp only
      by_cases hkj : k = j
      · rw [hkj, List.getElem?_modify_eq, hj, Option.map_eq_map, Option.map_some, Socket.close,
          if_pos hclosed]
      · rw [List.getElem?_modify_ne _ _ hkj, hj]

theorem shuts_setRetries (p : Page) (i : Nat) (f : Nat → Nat) : p.Shuts (p.setRetries i f) :=
  ⟨rfl, rfl, rfl, fun _ => le_rfl, id, fun _ _ h _ => h⟩

theorem shuts_stopNodes (w : World) (p : Page) (is : List Nat) : p.Shuts (stopNodes w p is) := by
  induction is generalizing p with
  | nil => exact .refl p
  | cons i is ih =>
    rw [stopNodes]
    split_ifs
    · exact shuts_closeWs p i
    · exact ((shuts_closeWs p i).trans (shuts_setRetries _ i _)).trans (ih _)

theorem shuts_expireUI (p : Page) : p.Shuts p.expireUI := by
  have hclose : ∀ (is : List Nat) (p : Page), p.Shuts (is.foldl closeWs p) := by
    intro is
    induction is with
    | nil => exact .refl
    | cons i is ih => exact fun p => (shuts_closeWs p i).trans (ih _)
  refine (hclose (List.range p.conns.length) p).trans ?_
  exact ⟨rfl, rfl, rfl, fun _ => le_rfl, id, fun _ _ h _ => h⟩

theorem shuts_keepaliveNodes (p : Page) (live gone : Nat) (rest : List Nat) :
    p.Shuts (p.keepaliveNodes live gone rest) := by
  rw [keepaliveNodes]
  split_ifs
  · exact shuts_expireUI p
  · exact .refl p

/-! ## At most one of a node -/

/-- What may connect the node, or has a socket of it: a socket, a close handler, a call. -/
def tokens (p : Page) (i : Nat) : Nat :=
  p.sockets.countP (holds i) + p.reconnects.countP (fun r => r.node = i) +
    p.world.calls.countP (claims i)

/-- A node has at most one of these, and a close handler waits only for a socket that
closed by itself. -/
structure Inv (p : Page) : Prop where
  one : ∀ i, p.tokens i ≤ 1
  shut : ∀ s ∈ p.sockets, s.shut = true → s.live = false
  waits : ∀ r ∈ p.reconnects, ∃ s, p.sockets[r.socket]? = some s ∧ s.readyState = .closed ∧
    s.shut = false
  nodup : ∀ i rest, Call.start i rest ∈ p.world.calls → (i :: rest).Nodup
  quiet : ∀ c ∈ p.changes, c.late = false

theorem tame_of_inv (h : p.Inv) : p.Tame where
  single i := by
    refine le_trans (List.countP_mono_left fun s hs hlive => ?_)
      ((Nat.le_add_right _ _).trans ((Nat.le_add_right _ _).trans (h.one i)))
    obtain ⟨hnode, hlive⟩ := (Bool.and_eq_true _ _).mp hlive
    have hshut : s.shut = false := by
      cases hshut : s.shut with
      | false => rfl
      | true =>
        rw [h.shut s hs hshut] at hlive
        cases hlive
    have hstate : s.readyState ≠ .closed := fun heq => by
      rw [Socket.live, heq] at hlive
      cases hlive
    simp [holds, Socket.pending, hshut, hstate, of_decide_eq_true hnode]
  quiet := h.quiet

/-- The script shuts sockets and claims no more. -/
theorem inv_of_shuts {w : World} (h : p.Inv) (hs : p.Shuts p')
    (hclaims : ∀ i, w.calls.countP (claims i) ≤ p.world.calls.countP (claims i))
    (hnodup : ∀ i rest, Call.start i rest ∈ w.calls → (i :: rest).Nodup) :
    Inv { p' with world := w } where
  one i := by
    have hone := h.one i
    have hcount := hs.count i
    have hless := hclaims i
    rw [tokens] at hone ⊢
    dsimp only
    rw [hs.reconnects]
    omega
  shut := hs.shut h.shut
  waits r hr := by
    rw [hs.reconnects] at hr
    obtain ⟨s, hk, hclosed, hshut⟩ := h.waits r hr
    exact ⟨s, hs.closed _ s hk hclosed, hclosed, hshut⟩
  nodup := hnodup
  quiet := by
    rw [hs.changes]
    exact h.quiet

theorem countP_claims_eq_zero {o : Option Call} (h : ∀ c ∈ o, connects c = false) (i : Nat) :
    o.toList.countP (claims i) = 0 :=
  List.countP_eq_zero.mpr fun c hc =>
    Bool.eq_false_iff.mp (claims_of_connects (h c (Option.mem_toList.mp hc)))

/-- A call that goes on without connecting a node. -/
theorem inv_continued {call : Call} {r : World × Option Call} (h : p.Inv) (hs : p.Shuts p')
    (hcalls : r.1.calls = p.world.calls) (hcall : p.world.calls[k]? = some call)
    (hnext : ∀ c ∈ r.2, connects c = false) : Inv { p' with world := World.continued k r } := by
  refine inv_of_shuts h hs (fun i => ?_) fun i rest hstart => ?_
  · have hcount := countP_continued (claims i) hcalls hcall
    rw [countP_claims_eq_zero hnext i] at hcount
    omega
  · rcases World.mem_continued hstart with hmem | hmem
    · exact h.nodup i rest (hcalls ▸ hmem)
    · cases hnext _ hmem

/-- A call that begins and connects no node. -/
theorem inv_began {r : World × Option Call} (h : p.Inv) (hs : p.Shuts p')
    (hcalls : r.1.calls = p.world.calls) (hnext : ∀ c ∈ r.2, connects c = false) :
    Inv { p' with world := World.began r } := by
  refine inv_of_shuts h hs (fun i => ?_) fun i rest hstart => ?_
  · rw [World.began]
    dsimp only
    rw [List.countP_append, countP_claims_eq_zero hnext, hcalls, Nat.add_zero]
  · rcases List.mem_append.mp hstart with hmem | hmem
    · exact h.nodup i rest (hcalls ▸ hmem)
    · cases hnext _ (Option.mem_toList.mp hmem)

theorem foldl_connect (is : List Nat) (p : Page) : (is.foldl connect p).sockets =
      p.sockets ++ is.map (fun i => ⟨i, .connecting, false⟩) ∧
    (is.foldl connect p).reconnects = p.reconnects ∧ (is.foldl connect p).changes = p.changes := by
  induction is generalizing p with
  | nil => exact ⟨(List.append_nil _).symm, rfl, rfl⟩
  | cons i is ih =>
    obtain ⟨hsockets, hreconnects, hchanges⟩ := ih (p.connect i)
    rw [List.foldl_cons, hsockets, hreconnects, hchanges]
    exact ⟨List.append_assoc _ _ _, rfl, rfl⟩

/-- Nodes that were claimed are connected. -/
theorem inv_connected {w : World} {l : List Nat} (h : p.Inv)
    (hclaims : ∀ i, w.calls.countP (claims i) + l.count i ≤ p.world.calls.countP (claims i))
    (hnodup : ∀ i rest, Call.start i rest ∈ w.calls → (i :: rest).Nodup) :
    Inv { l.foldl connect p with world := w } := by
  obtain ⟨hsockets, hreconnects, hchanges⟩ := foldl_connect l p
  have hnew : ∀ i, (l.map fun i => Socket.mk i .connecting false).countP (holds i) = l.count i := by
    intro i
    rw [List.countP_map, List.count]
    congr 1
    funext j
    exact Bool.eq_iff_iff.mpr (by simp [holds, Socket.pending])
  refine ⟨fun i => ?_, ?_, ?_, hnodup, ?_⟩
  · have hone := h.one i
    have hless := hclaims i
    rw [tokens] at hone ⊢
    dsimp only
    rw [hsockets, hreconnects, List.countP_append, hnew]
    omega
  · dsimp only
    rw [hsockets, List.forall_mem_append]
    refine ⟨h.shut, fun s hs hshut => ?_⟩
    obtain ⟨i, -, rfl⟩ := List.mem_map.mp hs
    cases hshut
  · dsimp only
    rw [hsockets, hreconnects]
    intro r hr
    obtain ⟨s, hk, hs⟩ := h.waits r hr
    exact ⟨s, List.getElem?_append_left (List.getElem?_eq_some_iff.mp hk).1 ▸ hk, hs⟩
  · dsimp only
    rw [hchanges]
    exact h.quiet

theorem inv_started {rest : List Nat} {r : World × Option Call} (h : p.Inv)
    (hcall : p.world.calls[k]? = some (.start i rest)) (hcalls : r.1.calls = p.world.calls)
    (hnext : ∀ c ∈ r.2, ∃ j js, rest = j :: js ∧ c = .start j js) :
    Inv { p.connect i with world := World.continued k r } := by
  have hdistinct := h.nodup i rest (List.mem_of_getElem? hcall)
  refine inv_connected (l := [i]) h (fun x => ?_) fun x xs hstart => ?_
  · have hcount := countP_continued (claims x) hcalls hcall
    have hrest : r.2.toList.countP (claims x) ≤ if x ∈ rest then 1 else 0 := by
      cases hr : r.2 with
      | none => exact Nat.zero_le _
      | some c =>
        obtain ⟨j, js, rfl, rfl⟩ := hnext c hr
        simp [claims]
    have hclaim : claims x (.start i rest) = decide (x = i ∨ x ∈ rest) := by simp [claims]
    rw [hclaim] at hcount
    rw [List.count_singleton]
    by_cases hx : x = i
    · subst hx
      rw [if_neg (List.nodup_cons.mp hdistinct).1] at hrest
      simp only [true_or, decide_true, if_true, beq_self_eq_true] at hcount ⊢
      omega
    · have hne : (i == x) = false := beq_false_of_ne (Ne.symm hx)
      simp only [hx, false_or, decide_eq_true_eq, hne] at hcount ⊢
      rw [if_neg Bool.false_ne_true]
      omega
  · rcases World.mem_continued hstart with hmem | hmem
    · exact h.nodup x xs (hcalls ▸ hmem)
    · obtain ⟨j, js, rfl, heq⟩ := hnext _ hmem
      cases heq
      exact (List.nodup_cons.mp hdistinct).2

theorem inv_answered {call : Call} {a : Answer} {r : World × Option Call} (h : p.Inv)
    (hcall : p.world.calls[k]? = some call) (hr : p.world.resume call a = some r) :
    Inv { p.answered call a with world := World.continued k r } := by
  have hcalls := calls_resume hr
  cases call with
  | reattach pods =>
    cases a with
    | statuses ready =>
      cases hr
      rw [answered]
      split_ifs with hready
      · refine inv_connected h (fun i => ?_) fun i rest hstart => ?_
        · have hcount := countP_continued (claims i) hcalls hcall
          have hrange : (List.range pods.length).count i ≤
              if claims i (.reattach pods) then 1 else 0 := by
            by_cases hi : i < pods.length
            · rw [claims, if_pos (decide_eq_true hi)]
              exact List.nodup_iff_count_le_one.mp List.nodup_range i
            · rw [List.count_eq_zero_of_not_mem fun hmem => hi (List.mem_range.mp hmem)]
              exact Nat.zero_le _
          exact le_trans (Nat.add_le_add_left hrange _) hcount.le
        · exact h.nodup i rest (hcalls ▸ (World.mem_continued hstart).resolve_right nofun)
      · exact inv_continued h (.refl p) hcalls hcall nofun
    | _ => cases hr
  | start i rest =>
    cases a with
    | posted created =>
      cases hr
      cases created with
      | none => exact inv_continued h (.refl p) hcalls hcall nofun
      | some pod =>
        refine inv_started h hcall hcalls fun c hc => ?_
        cases rest with
        | nil => cases hc
        | cons j js =>
          cases hc
          exact ⟨j, js, rfl, rfl⟩
    | _ => cases hr
  | stop i rest =>
    cases a with
    | deleted =>
      cases hr
      exact inv_continued h ((shuts_setRetries p i _).trans (shuts_stopNodes _ _ rest)) hcalls hcall
        (calls_stopNodes _ rest).2
    | _ => cases hr
  | ping c =>
    cases a with
    | pinged notFound =>
      cases notFound with
      | false =>
        cases hr
        exact inv_continued h (shuts_keepaliveNodes p _ _ _) hcalls hcall
          (calls_keepaliveNodes _ _ _ _).2
      | true =>
        rw [World.resume] at hr
        split_ifs at hr
        cases hr
        refine inv_continued h (.refl p) hcalls hcall fun c hc => ?_
        cases hc
        rfl
    | _ => cases hr
  | check c =>
    cases a with
    | pinged notFound =>
      cases notFound with
      | false =>
        cases hr
        exact inv_continued h (shuts_keepaliveNodes p _ _ _) hcalls hcall
          (calls_keepaliveNodes _ _ _ _).2
      | true =>
        rw [World.resume] at hr
        split_ifs at hr
        cases hr
        exact inv_continued h (shuts_keepaliveNodes p _ _ _) hcalls hcall
          (calls_keepaliveNodes _ _ _ _).2
    | _ => cases hr

theorem inv_scripted {e : Event} {w : World} (h : p.Inv) (hcond : p.Orderly (.script e))
    (hstep : p.world.step e = some w) : Inv { p.scripted e with world := w } := by
  cases e with
  | reload images landed =>
    rw [World.step] at hstep
    split_ifs at hstep
    cases hstep
    generalize { p.world with running := landed.toList ++ p.world.running } = w
    refine ⟨fun i => ?_, fun s hs => absurd hs List.not_mem_nil,
      fun r hr => absurd hr List.not_mem_nil, fun i rest hstart => ?_, h.quiet⟩
    · rw [tokens]
      dsimp only
      rcases calls_load w images with hcalls | ⟨pods, hcalls⟩
      · rw [hcalls]
        exact Nat.zero_le 1
      · rw [hcalls]
        exact (Nat.le_of_eq (Nat.zero_add _)).trans List.countP_le_length
    · rcases calls_load w images with hcalls | ⟨pods, hcalls⟩
      · cases hcalls ▸ hstart
      · cases List.mem_singleton.mp (hcalls ▸ hstart)
  | start =>
    obtain ⟨hsockets, hreconnects, hcalls⟩ := hcond
    rw [World.step] at hstep
    split at hstep
    · cases hstep
    rename_i i is hrange
    split_ifs at hstep
    cases hstep
    refine ⟨fun x => ?_, h.shut, h.waits, fun x xs hstart => ?_, h.quiet⟩
    · have hidle : p.sockets.countP (holds x) = 0 := List.countP_eq_zero.mpr fun s hs hhold => by
        rw [holds, hsockets s hs, Bool.and_false] at hhold
        cases hhold
      have hquiet : p.world.calls.countP (claims x) = 0 := List.countP_eq_zero.mpr fun c hc =>
        Bool.eq_false_iff.mp (claims_of_connects (hcalls c hc))
      rw [tokens]
      dsimp only [scripted]
      rw [hidle, hreconnects, List.countP_append, hquiet, List.countP_nil]
      exact (Nat.le_of_eq (by omega)).trans
        (List.countP_le_length (p := claims x) (l := [.start i is]))
    · rcases List.mem_append.mp hstart with hmem | hmem
      · exact h.nodup x xs hmem
      · cases List.mem_singleton.mp hmem
        exact hrange ▸ List.nodup_range
  | stop =>
    rw [World.step] at hstep
    split_ifs at hstep
    cases hstep
    exact inv_began h (shuts_stopNodes _ p _) (calls_stopNodes _ _).1 (calls_stopNodes _ _).2
  | keepalive =>
    rw [World.step] at hstep
    split_ifs at hstep
    cases hstep
    exact inv_began h (.refl p) (calls_keepaliveNodes _ _ _ _).1 (calls_keepaliveNodes _ _ _ _).2
  | answer k a =>
    obtain ⟨call, hcall, hresume⟩ := Option.bind_eq_some_iff.mp hstep
    obtain ⟨r, hr, rfl⟩ := Option.map_eq_some_iff.mp hresume
    rw [scripted, hcall]
    exact inv_answered h hcall hr
  | gone pod =>
    cases hstep
    exact inv_of_shuts h (.refl p) (fun _ => le_rfl) h.nodup

/-! ## Events of the sockets -/

theorem getElem?_setState {t : ReadyState} (h : p.sockets[k]? = some s) :
    (p.setState k t).sockets[k]? = some { s with readyState := t } := by
  rw [setState]
  dsimp only
  rw [List.getElem?_modify_eq, h]
  rfl

theorem countP_setState (t : ReadyState) (h : p.sockets[k]? = some s) (i : Nat) :
    (p.setState k t).sockets.countP (holds i) + (if holds i s then 1 else 0) =
      p.sockets.countP (holds i) + if holds i { s with readyState := t } then 1 else 0 :=
  countP_modify (holds i) h _

/-- A socket goes on to another state, or closes. -/
theorem inv_setState {t : ReadyState} (h : p.Inv) (hk : p.sockets[k]? = some s)
    (hstate : s.readyState ≠ .closed)
    (hlive : s.shut = true → { s with readyState := t }.live = false) :
    (p.setState k t).Inv where
  one i := by
    have hone := h.one i
    have hcount := countP_setState t hk i
    have hhold : holds i { s with readyState := t } = true → holds i s = true := by
      simp +contextual [holds, Socket.pending, hstate]
    rw [tokens] at hone ⊢
    have hle : (p.setState k t).sockets.countP (holds i) ≤ p.sockets.countP (holds i) := by
      by_cases hnew : holds i { s with readyState := t } = true
      · rw [if_pos hnew, if_pos (hhold hnew)] at hcount
        omega
      · rw [if_neg hnew] at hcount
        omega
    exact le_trans (Nat.add_le_add_right (Nat.add_le_add_right hle _) _) hone
  shut s' hs := by
    obtain ⟨j, hj⟩ := List.mem_iff_getElem?.mp hs
    by_cases hkj : k = j
    · subst hkj
      rw [getElem?_setState hk] at hj
      cases hj
      exact hlive
    · rw [setState] at hj
      dsimp only at hj
      rw [List.getElem?_modify_ne _ _ hkj] at hj
      exact h.shut s' (List.mem_of_getElem? hj)
  waits r hr := by
    obtain ⟨s', hs, hclosed, hshut⟩ := h.waits r hr
    have hne : k ≠ r.socket := by
      intro heq
      rw [← heq, hk] at hs
      cases hs
      exact hstate hclosed
    refine ⟨s', ?_, hclosed, hshut⟩
    rw [setState]
    dsimp only
    rw [List.getElem?_modify_ne _ _ hne, hs]
  nodup := h.nodup
  quiet := h.quiet

theorem inv_changed {e : Effect} (h : p.Inv) (hk : p.shutAt k = false) :
    (p.changed i k e).Inv :=
  ⟨h.one, h.shut, h.waits, h.nodup,
    List.forall_mem_append.mpr ⟨h.quiet, List.forall_mem_singleton.mpr hk⟩⟩

theorem inv_setRetries {f : Nat → Nat} (h : p.Inv) : (p.setRetries i f).Inv :=
  ⟨h.one, h.shut, h.waits, h.nodup, h.quiet⟩

theorem shutAt_eq (h : p.sockets[k]? = some s) : p.shutAt k = s.shut := by
  rw [shutAt, h, Option.any_some]

theorem inv_onopen (h : p.Inv) (hk : p.sockets[k]? = some s)
    (hstate : s.readyState = .connecting) : (p.onopen k s).Inv := by
  have hshut : s.shut = false := by
    rw [← Bool.not_eq_true]
    intro hshut
    have hlive := h.shut s (List.mem_of_getElem? hk) hshut
    rw [Socket.live, hstate] at hlive
    cases hlive
  have hstill : (p.setState k .opened).shutAt k = false := by
    rw [shutAt_eq (getElem?_setState hk)]
    exact hshut
  refine inv_changed (inv_setRetries (inv_setState h hk ?_ ?_)) hstill
  · rw [hstate]
    exact ReadyState.noConfusion
  · rw [hshut]
    exact nofun

/-- The close handler of a socket that closed by itself waits in its place. -/
theorem inv_wait {w : Wait} (h : p.Inv) (hk : p.sockets[k]? = some s)
    (hstate : s.readyState ≠ .closed) (hshut : s.shut = false) :
    Inv { p.setState k .closed with
      reconnects := p.reconnects ++ [⟨s.node, k, w⟩] } := by
  have hclosed := inv_setState (t := .closed) h hk hstate fun _ => rfl
  refine ⟨fun i => ?_, hclosed.shut, List.forall_mem_append.mpr ⟨hclosed.waits, ?_⟩, h.nodup,
    h.quiet⟩
  · have hone := h.one i
    have hcount := countP_setState .closed hk i
    have hold : holds i s = decide (s.node = i) := by simp [holds, Socket.pending, hstate, hshut]
    have hnew : holds i { s with readyState := .closed } = false := by
      simp [holds, Socket.pending]
    rw [hold, hnew] at hcount
    rw [tokens] at hone ⊢
    rw [List.countP_append, List.countP_singleton,
      show (p.setState k .closed).world = p.world from rfl]
    rw [if_neg Bool.false_ne_true] at hcount
    dsimp only
    omega
  · exact List.forall_mem_singleton.mpr ⟨_, getElem?_setState hk, rfl, hshut⟩

theorem inv_onclose (h : p.Inv) (hk : p.sockets[k]? = some s) (hstate : s.readyState ≠ .closed)
    (hcond : p.Orderly (.closed k)) : (p.onclose k s).Inv := by
  rw [onclose]
  dsimp only
  by_cases hstopped : p.world.stoppedAt s.node = true
  · rw [if_pos hstopped]
    exact inv_setState h hk hstate fun _ => rfl
  have hshut : s.shut = false := by
    rw [← Bool.not_eq_true]
    exact fun hshut => hstopped (hcond ((shutAt_eq hk).trans hshut) s hk)
  have hquiet := (shutAt_eq (getElem?_setState (t := .closed) hk)).trans hshut
  rw [if_neg hstopped]
  split_ifs
  · exact inv_setRetries (inv_changed (inv_wait h hk hstate hshut) hquiet)
  · exact inv_changed (inv_setRetries (inv_changed (inv_setState h hk hstate fun _ => rfl) hquiet))
      hquiet

/-- Close handlers go on or are over. -/
theorem inv_reconnects {rs : List Reconnect} (h : p.Inv)
    (hcount : ∀ i, rs.countP (fun r => r.node = i) ≤ p.reconnects.countP fun r => r.node = i)
    (hwaits : ∀ r ∈ rs, ∃ s, p.sockets[r.socket]? = some s ∧ s.readyState = .closed ∧
      s.shut = false) : Inv { p with reconnects := rs } := by
  refine ⟨fun i => ?_, h.shut, hwaits, h.nodup, h.quiet⟩
  have hone := h.one i
  have hless := hcount i
  rw [tokens] at hone ⊢
  dsimp only
  omega

theorem inv_replied {r : Reconnect} {ready : Bool} (h : p.Inv) (hj : p.reconnects[j]? = some r) :
    (p.replied j r ready).Inv := by
  obtain ⟨s, hk, hclosed, hshut⟩ := h.waits r (List.mem_of_getElem? hj)
  have hquiet : p.shutAt r.socket = false := (shutAt_eq hk).trans hshut
  rw [replied]
  split_ifs
  · refine inv_changed (inv_reconnects h (fun i => ?_) fun r' hr' => ?_) hquiet
    · have hcount := countP_set_add (fun r : Reconnect => r.node = i) hj { r with wait := .timer }
      dsimp only at hcount
      omega
    · rcases List.mem_or_eq_of_mem_set hr' with hr' | rfl
      · exact h.waits r' hr'
      · exact ⟨s, hk, hclosed, hshut⟩
  · refine inv_changed (inv_reconnects h (fun i => ?_) fun r' hr' => ?_) hquiet
    · have hcount := countP_eraseIdx (fun r : Reconnect => r.node = i) hj
      omega
    · exact h.waits r' (List.mem_of_mem_eraseIdx hr')

theorem inv_fired {r : Reconnect} (h : p.Inv) (hj : p.reconnects[j]? = some r) :
    (p.fired j r).Inv := by
  obtain ⟨s, hk, hclosed, hshut⟩ := h.waits r (List.mem_of_getElem? hj)
  have hquiet : p.shutAt r.socket = false := (shutAt_eq hk).trans hshut
  refine ⟨fun i => ?_, ?_, fun r' hr' => ?_, h.nodup, (inv_changed h hquiet).quiet⟩
  · have hone := h.one i
    have hcount := countP_eraseIdx (fun r : Reconnect => r.node = i) hj
    have hnew : holds i ⟨r.node, .connecting, false⟩ = decide (r.node = i) := by
      simp [holds, Socket.pending]
    rw [tokens] at hone ⊢
    rw [fired, connect]
    dsimp only [changed]
    rw [List.countP_append, List.countP_singleton, hnew]
    omega
  · exact List.forall_mem_append.mpr ⟨h.shut, List.forall_mem_singleton.mpr nofun⟩
  · obtain ⟨t, ht, hclosed, hshut⟩ := h.waits r' (List.mem_of_mem_eraseIdx hr')
    exact ⟨t, (List.getElem?_append_left (List.getElem?_eq_some_iff.mp ht).1).trans ht, hclosed,
      hshut⟩

theorem inv_step {e : PageEvent} (h : p.Inv) (hcond : p.Orderly e) (hstep : p.step e = some p') :
    p'.Inv := by
  cases e with
  | script e =>
    obtain ⟨w, hw, rfl⟩ := Option.map_eq_some_iff.mp hstep
    exact inv_scripted h hcond hw
  | opened k =>
    obtain ⟨s, hk, hs⟩ := Option.bind_eq_some_iff.mp hstep
    split_ifs at hs with hstate
    cases hs
    exact inv_onopen h hk hstate
  | closing k =>
    obtain ⟨s, hk, hs⟩ := Option.bind_eq_some_iff.mp hstep
    split_ifs at hs with hstate
    cases hs
    refine inv_setState h hk ?_ fun _ => rfl
    rw [hstate]
    exact ReadyState.noConfusion
  | closed k =>
    obtain ⟨s, hk, hs⟩ := Option.bind_eq_some_iff.mp hstep
    split_ifs at hs with hstate
    cases hs
    exact inv_onclose h hk hstate hcond
  | replied j ready =>
    obtain ⟨r, hj, hr⟩ := Option.bind_eq_some_iff.mp hstep
    split_ifs at hr
    cases hr
    exact inv_replied h hj
  | fired j =>
    obtain ⟨r, hj, hr⟩ := Option.bind_eq_some_iff.mp hstep
    split_ifs at hr
    cases hr
    exact inv_fired h hj

/-! ## The script underneath -/

theorem world_step {e : PageEvent} (h : p.step e = some p') :
    (∃ e', e = .script e' ∧ p.world.step e' = some p'.world) ∨
      (∀ e', e ≠ .script e') ∧ p'.world = p.world := by
  cases e with
  | script e =>
    obtain ⟨w, hw, rfl⟩ := Option.map_eq_some_iff.mp h
    exact .inl ⟨e, rfl, hw⟩
  | opened k | closing k =>
    obtain ⟨s, hk, hs⟩ := Option.bind_eq_some_iff.mp h
    split_ifs at hs
    cases hs
    exact .inr ⟨nofun, rfl⟩
  | closed k =>
    obtain ⟨s, hk, hs⟩ := Option.bind_eq_some_iff.mp h
    split_ifs at hs
    cases hs
    refine .inr ⟨nofun, ?_⟩
    rw [onclose]
    dsimp only
    split_ifs <;> rfl
  | replied j ready =>
    obtain ⟨r, hj, hr⟩ := Option.bind_eq_some_iff.mp h
    split_ifs at hr
    cases hr
    refine .inr ⟨nofun, ?_⟩
    rw [replied]
    split_ifs <;> rfl
  | fired j =>
    obtain ⟨r, hj, hr⟩ := Option.bind_eq_some_iff.mp h
    split_ifs at hr
    cases hr
    exact .inr ⟨nofun, rfl⟩

/-- The events of the script in a run. -/
def scriptEvents (es : List PageEvent) : List Event :=
  es.filterMap fun
    | .script e => some e
    | _ => none

/-- A run of the page is a run of the script. -/
theorem world_run {es : List PageEvent} (h : Runs.run step p es = some p') :
    Runs.run World.step p.world (scriptEvents es) = some p'.world := by
  induction es generalizing p with
  | nil =>
    cases h
    rfl
  | cons e es ih =>
    obtain ⟨m, hm, hrest⟩ := Runs.run_cons_some.mp h
    rcases world_step hm with ⟨e', rfl, hw⟩ | ⟨hother, hw⟩
    · exact Runs.run_cons_some.mpr ⟨m.world, hw, ih hrest⟩
    · have hskip : scriptEvents (e :: es) = scriptEvents es := by
        cases e with
        | script e => exact absurd rfl (hother e)
        | _ => rfl
      rw [hskip, ← hw]
      exact ih hrest

theorem inv_openedPage (images : List GoString) : (openedPage images).Inv :=
  ⟨fun _ => Nat.zero_le 1, nofun, nofun, nofun, nofun⟩

end Page

/-- In a run whose steps are orderly every node has at most one socket that is connecting or
open, and a socket that was shut changes nothing any more. -/
theorem tame_of_orderly (images : List GoString) (es : List PageEvent)
    (h : Runs.Each Page.step Page.Orderly (openedPage images) es) :
    Runs.Always Page.step Page.Tame (openedPage images) es :=
  Runs.always_of_invariant (I := Page.Inv)
    (fun _ _ _ hinv hcond hstep => Page.inv_step hinv hcond hstep)
    (fun _ => Page.tame_of_inv) (Page.inv_openedPage images) h

/-- A socket that drops and is connected anew, a stop during whose DELETE the socket
closes, and another start. -/
def reconnectedRun : List PageEvent :=
  [.script .start, .script (.answer 0 (.posted (some (utf8 "a")))), .opened 0, .closed 0,
    .replied 0 true, .fired 0, .opened 1, .script .stop, .closed 1, .script (.answer 0 .deleted),
    .script .start, .script (.answer 0 (.posted (some (utf8 "b")))), .opened 2]

theorem tame_reconnectedRun :
    (Runs.run Page.step (openedPage [utf8 "sh"]) reconnectedRun).isSome = true ∧
      Runs.Always Page.step Page.Tame (openedPage [utf8 "sh"]) reconnectedRun :=
  ⟨by decide +kernel, tame_of_orderly [utf8 "sh"] reconnectedRun (by decide +kernel)⟩

/-- The close event of the first session's socket arrives in the second session. -/
def lateCloseRun : List PageEvent :=
  [.script .start, .script (.answer 0 (.posted (some (utf8 "a")))), .opened 0, .script .stop,
    .script (.answer 0 .deleted), .script .start,
    .script (.answer 0 (.posted (some (utf8 "b")))), .opened 1, .closed 0, .replied 0 true,
    .fired 0]

theorem not_tame_lateCloseRun :
    ¬ Runs.Always Page.step Page.Tame (openedPage [utf8 "sh"]) lateCloseRun := by
  intro h
  have hend : (Runs.run Page.step (openedPage [utf8 "sh"]) lateCloseRun).any
      (fun p => p.sockets.countP (fun s => s.node = 0 && s.live) = 2) = true := by decide +kernel
  obtain ⟨p, hrun, htwo⟩ := (Option.any_eq_true _ _).mp hend
  have hone := (h.last hrun).single 0
  rw [of_decide_eq_true htwo] at hone
  exact absurd hone (by decide)

end TrainingPlatform.Content.Console
