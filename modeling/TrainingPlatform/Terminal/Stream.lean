import TrainingPlatform.Go.Decimal
import TrainingPlatform.Go.Json
import TrainingPlatform.Runs
import Mathlib.Data.List.Basic

/-!
# The WebSocket of a terminal

A browser's socket as the two things the executor reads: the bytes typed, by `Read`, and the
sizes of the terminal, by `Next`.  `Read` stops at every message it has to wait for, and `Next`
is called by another goroutine, so a run is any order of calls and messages.
-/

namespace TrainingPlatform.Terminal

open Go

/-- `remotecommand.TerminalSize`. -/
structure TerminalSize where
  width : Nat
  height : Nat
  deriving DecidableEq

structure ControlMsg where
  type : GoString
  cols : Nat
  rows : Nat

/-- A number decoded into a field of type `uint16`. -/
def setUint16 {α : Type} (r : α) (put : Nat → α) : Json.Value → Option α
  | .null => some r
  | .num lit =>
    if lit.all isDecimal && decimalValue lit < 2 ^ 16 then some (put (decimalValue lit).toNat)
    else none
  | _ => none

def setControlMsg (m : ControlMsg) (key : GoString) (v : Json.Value) : Option ControlMsg :=
  if key = utf8 "TYPE" then Json.setString m (fun s => { m with type := s }) v
  else if key = utf8 "COLS" then setUint16 m (fun n => { m with cols := n }) v
  else if key = utf8 "ROWS" then setUint16 m (fun n => { m with rows := n }) v
  else some m

/-- `json.Unmarshal` into a `controlMsg`. -/
def unmarshal (data : GoString) : Option ControlMsg :=
  (Json.parse data).bind (Json.decodeStruct setControlMsg ⟨[], 0, 0⟩)

/-- The size a text message asks for, when it is a valid resize. -/
def resize (data : GoString) : Option TerminalSize :=
  (unmarshal data).bind fun m =>
    if m.type = utf8 "resize" ∧ 0 < m.cols ∧ 0 < m.rows then some ⟨m.cols, m.rows⟩ else none

inductive MessageType where
  | text
  | binary
  | other (mt : Int)
  deriving DecidableEq

/-- What `ReadMessage` returns without an error. -/
structure Message where
  type : MessageType
  data : GoString

/-- `wsStream`.  The channel `sizes` is the list of what waits in it. -/
structure WsStream where
  buf : GoString
  sizes : List TerminalSize
  closed : Bool

def newWSStream : WsStream := ⟨[], [], false⟩

/-- The capacity of `sizes`. -/
def sizesCap : Nat := 4

/-- The `select` that offers a size: the channel takes it if it has room. -/
def WsStream.offer (s : WsStream) (sz : TerminalSize) : WsStream :=
  if s.sizes.length < sizesCap then { s with sizes := s.sizes ++ [sz] } else s

/-- The `switch` of `Read` into a buffer of length `p`: the bytes it returns, or none where it
waits for the next message. -/
def WsStream.handle (s : WsStream) (p : Nat) (m : Message) : WsStream × Option GoString :=
  match m.type with
  | .text =>
    match resize m.data with
    | some sz => (s.offer sz, none)
    | none => (s, none)
  | .binary =>
    if p < m.data.length then ({ s with buf := m.data.drop p }, some (m.data.take p))
    else (s, some m.data)
  | .other _ => (s, none)

/-- The stream with the `Read` that waits, if one does, and what has happened so far: the
messages received, the bytes the calls of `Read` returned, and the sizes `Next` did. -/
structure Conn where
  stream : WsStream
  reading : Option Nat
  received : List Message
  returned : GoString
  taken : List TerminalSize

def newConn : Conn := ⟨newWSStream, none, [], [], []⟩

inductive Event where
  | read (p : Nat)
  | message (m : Message)
  | readError
  | next
  | nextNil

/-- One event.  `Read` returns what is left over, or waits; a message goes to the `Read` that
waits; `Next` takes the size in front, or returns nil once the stream is closed. -/
def step (c : Conn) : Event → Option Conn
  | .read p =>
    if c.reading.isSome || c.stream.closed then none
    else if c.stream.buf ≠ [] then
      some { c with
        stream := { c.stream with buf := c.stream.buf.drop p }
        returned := c.returned ++ c.stream.buf.take p }
    else some { c with reading := some p }
  | .message m =>
    c.reading.map fun p =>
      match c.stream.handle p m with
      | (s, none) => { c with stream := s, received := c.received ++ [m] }
      | (s, some bytes) => { c with
        stream := s, reading := none, received := c.received ++ [m]
        returned := c.returned ++ bytes }
  | .readError =>
    c.reading.map fun _ => { c with stream := { c.stream with closed := true }, reading := none }
  | .next =>
    match c.stream.sizes with
    | [] => none
    | sz :: sizes => some { c with stream := { c.stream with sizes }, taken := c.taken ++ [sz] }
  | .nextNil => if c.stream.closed then some c else none

/-! ## The bytes -/

/-- What a message adds to the bytes typed. -/
def Message.payload (m : Message) : GoString :=
  match m.type with
  | .binary => m.data
  | _ => []

/-- The bytes of the messages received, in order. -/
def Conn.typed (c : Conn) : GoString := c.received.flatMap Message.payload

/-- Nothing is left over while a `Read` waits. -/
structure InStep (c : Conn) : Prop where
  bytes : c.returned ++ c.stream.buf = c.typed
  waiting : c.reading.isSome = true → c.stream.buf = []

@[simp] theorem typed_concat (c : Conn) (m : Message) :
    (c.received ++ [m]).flatMap Message.payload = c.typed ++ m.payload := by
  rw [List.flatMap_append, List.flatMap_singleton]
  rfl

@[simp] theorem buf_offer (s : WsStream) (sz : TerminalSize) : (s.offer sz).buf = s.buf := by
  unfold WsStream.offer
  split_ifs <;> rfl

/-- A message taken with nothing left over: it adds its payload, and `Read` returns exactly for a
binary one. -/
theorem handle_bytes {s : WsStream} (hbuf : s.buf = []) (p : Nat) (m : Message) :
    (m.payload = [] ∧ (s.handle p m).2 = none ∧ (s.handle p m).1.buf = []) ∨
      ∃ bytes, (s.handle p m).2 = some bytes ∧ bytes ++ (s.handle p m).1.buf = m.payload := by
  obtain ⟨type, data⟩ := m
  cases type with
  | text =>
    refine .inl ⟨rfl, ?_⟩
    rw [WsStream.handle]
    dsimp only
    cases resize data with
    | none => exact ⟨rfl, hbuf⟩
    | some sz => exact ⟨rfl, (buf_offer s sz).trans hbuf⟩
  | binary =>
    refine .inr ?_
    rw [WsStream.handle]
    dsimp only
    split_ifs with hlong
    · exact ⟨_, rfl, List.take_append_drop p data⟩
    · exact ⟨_, rfl, by rw [hbuf, List.append_nil]; rfl⟩
  | other mt => exact .inl ⟨rfl, rfl, hbuf⟩

theorem inStep_step (c : Conn) (e : Event) (c' : Conn) (hc : InStep c) (h : step c e = some c') :
    InStep c' := by
  cases e with
  | read p =>
    rw [step] at h
    split_ifs at h with hbusy hbuf
    · cases h
      refine ⟨?_, fun hwaiting => absurd hwaiting (by simp_all)⟩
      rw [List.append_assoc, List.take_append_drop]
      exact hc.bytes
    · cases h
      exact ⟨hc.bytes, fun _ => not_not.mp hbuf⟩
  | message m =>
    rw [step, Option.map_eq_some_iff] at h
    obtain ⟨p, hp, h⟩ := h
    have hbuf := hc.waiting (by rw [hp]; rfl)
    have hbytes := hc.bytes
    rw [hbuf, List.append_nil] at hbytes
    rcases handle_bytes hbuf p m with hcontrol | hbinary
    · obtain ⟨hpayload, hnone, hleft⟩ := hcontrol
      generalize c.stream.handle p m = r at h hnone hleft
      obtain ⟨s, out⟩ := r
      cases hnone
      cases h
      refine ⟨?_, fun _ => hleft⟩
      rw [Conn.typed, typed_concat, hpayload, hleft, List.append_nil, List.append_nil]
      exact hbytes
    · obtain ⟨bytes, hsome, hsplit⟩ := hbinary
      generalize c.stream.handle p m = r at h hsome hsplit
      obtain ⟨s, out⟩ := r
      cases hsome
      cases h
      refine ⟨?_, nofun⟩
      rw [Conn.typed, typed_concat, List.append_assoc, hsplit, hbytes]
  | readError =>
    rw [step, Option.map_eq_some_iff] at h
    obtain ⟨p, -, rfl⟩ := h
    exact ⟨hc.bytes, nofun⟩
  | next =>
    rw [step] at h
    split at h
    · cases h
    · cases h
      exact ⟨hc.bytes, hc.waiting⟩
  | nextNil =>
    rw [step] at h
    split_ifs at h
    cases h
    exact hc

/-- In every order of messages and calls, the bytes returned and those left over are the ones
typed. -/
theorem returned_append_buf (es : List Event) :
    Runs.Always step (fun c => c.returned ++ c.stream.buf = c.typed) newConn es :=
  Runs.always_of_inductive inStep_step (fun _ hc => hc.bytes) es ⟨rfl, nofun⟩

/-! ## The sizes -/

/-- The size a message asks for. -/
def Message.size (m : Message) : Option TerminalSize :=
  match m.type with
  | .text => resize m.data
  | _ => none

/-- The valid resizes received, in order. -/
def Conn.resizes (c : Conn) : List TerminalSize := c.received.filterMap Message.size

/-- Once `Next` has been called until no size waits, the last one it returned is that of the last
valid resize. -/
def Settles (c : Conn) : Prop :=
  ∀ n c', Runs.run step c (List.replicate n .next) = some c' → c'.stream.sizes = [] →
    c'.taken.getLast? = c.resizes.getLast?

/-- A valid resize finds room in the channel, or the newest size there is the same. -/
def KeepsNewest (c : Conn) : Event → Prop
  | .message m => c.reading.isSome = true → ∀ sz, m.size = some sz →
      c.stream.sizes.length < sizesCap ∨ c.stream.sizes.getLast? = some sz
  | _ => True

instance (c : Conn) (e : Event) : Decidable (KeepsNewest c e) :=
  match e with
  | .message m => inferInstanceAs (Decidable (c.reading.isSome = true → ∀ sz ∈ m.size,
      c.stream.sizes.length < sizesCap ∨ c.stream.sizes.getLast? = some sz))
  | .read _ | .readError | .next | .nextNil => inferInstanceAs (Decidable True)

/-- The size the terminal has after the sizes that wait. -/
def Conn.newest (c : Conn) : Option TerminalSize := (c.taken ++ c.stream.sizes).getLast?

theorem run_replicate_next (n : Nat) (c c' : Conn) :
    Runs.run step c (List.replicate n .next) = some c' ↔
      n ≤ c.stream.sizes.length ∧ c' = { c with
        stream := { c.stream with sizes := c.stream.sizes.drop n }
        taken := c.taken ++ c.stream.sizes.take n } := by
  induction n generalizing c with
  | zero => simp [eq_comm]
  | succ n ih =>
    rw [List.replicate_succ, Runs.run_cons, step]
    cases hsizes : c.stream.sizes with
    | nil => simp
    | cons sz sizes =>
      simp only [Option.bind_some, ih, List.length_cons, Nat.add_le_add_iff_right,
        List.drop_succ_cons, List.take_succ_cons, List.append_assoc, List.singleton_append]

theorem settles_iff_newest (c : Conn) : Settles c ↔ c.newest = c.resizes.getLast? := by
  constructor
  · intro h
    have hdrained := (run_replicate_next c.stream.sizes.length c _).mpr ⟨le_rfl, rfl⟩
    have hlast := h _ _ hdrained List.drop_length
    rwa [List.take_length] at hlast
  · intro h n c' hrun hsizes
    obtain ⟨-, rfl⟩ := (run_replicate_next n c c').mp hrun
    have htake : c.stream.sizes.take n = c.stream.sizes :=
      List.take_of_length_le (List.drop_eq_nil_iff.mp hsizes)
    rw [← h, Conn.newest, htake]

theorem sizes_handle (s : WsStream) (p : Nat) (m : Message) :
    (s.handle p m).1.sizes = (m.size.elim s fun sz => s.offer sz).sizes := by
  obtain ⟨type, data⟩ := m
  cases type with
  | text =>
    rw [WsStream.handle, Message.size]
    dsimp only
    cases resize data <;> rfl
  | binary =>
    rw [WsStream.handle, Message.size]
    dsimp only
    split_ifs <;> rfl
  | other mt => rfl

/-- What a message changes for the sizes: its own is the last one asked for, and waits if there
was room. -/
theorem message_spec {c c' : Conn} {m : Message} (h : step c (.message m) = some c') :
    c.reading.isSome = true ∧ c'.taken = c.taken ∧
      c'.stream.sizes = (m.size.elim c.stream fun sz => c.stream.offer sz).sizes ∧
        c'.resizes = c.resizes ++ m.size.toList := by
  rw [step, Option.map_eq_some_iff] at h
  obtain ⟨p, hp, h⟩ := h
  have hsizes := sizes_handle c.stream p m
  have hresizes : (c.received ++ [m]).filterMap Message.size = c.resizes ++ m.size.toList := by
    rw [List.filterMap_append]
    cases hsize : m.size <;> simp [hsize, Conn.resizes]
  generalize c.stream.handle p m = r at h hsizes
  obtain ⟨s, out⟩ := r
  refine ⟨by rw [hp]; rfl, ?_⟩
  cases out with
  | none =>
    cases h
    exact ⟨rfl, hsizes, hresizes⟩
  | some bytes =>
    cases h
    exact ⟨rfl, hsizes, hresizes⟩

theorem newest_message {c c' : Conn} {m : Message} (h : step c (.message m) = some c') :
    c'.newest = c'.resizes.getLast? ↔ m.size.elim (c.newest = c.resizes.getLast?) fun sz =>
      c.stream.sizes.length < sizesCap ∨ c.stream.sizes.getLast? = some sz := by
  obtain ⟨-, htaken, hsizes, hresizes⟩ := message_spec h
  rw [Conn.newest, htaken, hsizes, hresizes]
  cases m.size with
  | none => rw [Option.elim_none, Option.elim_none, Option.toList_none, List.append_nil, Conn.newest]
  | some sz =>
    rw [Option.elim_some, Option.elim_some, Option.toList_some, List.getLast?_concat,
      WsStream.offer]
    by_cases hroom : c.stream.sizes.length < sizesCap
    · rw [if_pos hroom]
      refine iff_of_true ?_ (.inl hroom)
      rw [← List.append_assoc, List.getLast?_concat]
    · have hne : c.stream.sizes ≠ [] := by
        intro hnil
        rw [hnil] at hroom
        exact hroom (by decide)
      rw [if_neg hroom, List.getLast?_append_of_ne_nil _ hne]
      exact (or_iff_right hroom).symm

/-- Where the newest size was the last one asked for, it stays so exactly if the step keeps it. -/
theorem keepsNewest_iff {c : Conn} (hc : c.newest = c.resizes.getLast?) (e : Event) :
    KeepsNewest c e ↔ ∀ c', step c e = some c' → c'.newest = c'.resizes.getLast? := by
  cases e with
  | read p =>
    refine iff_of_true trivial fun c' h => ?_
    rw [step] at h
    split_ifs at h with hbusy hbuf
    · cases h
      exact hc
    · cases h
      exact hc
  | message m =>
    constructor
    · intro hkeep c' h
      have hreading := (message_spec h).1
      refine (newest_message h).mpr ?_
      cases hsize : m.size with
      | none => exact hc
      | some sz => exact hkeep hreading sz hsize
    · intro h hreading sz hsize
      obtain ⟨p, hp⟩ := Option.isSome_iff_exists.mp hreading
      have hstep : ∃ c', step c (.message m) = some c' := by
        rw [step, hp]
        exact ⟨_, rfl⟩
      obtain ⟨c', hstep⟩ := hstep
      have hnewest := (newest_message hstep).mp (h c' hstep)
      rwa [hsize] at hnewest
  | readError =>
    refine iff_of_true trivial fun c' h => ?_
    rw [step, Option.map_eq_some_iff] at h
    obtain ⟨p, -, rfl⟩ := h
    exact hc
  | next =>
    refine iff_of_true trivial fun c' h => ?_
    have hrun : Runs.run step c (List.replicate 1 .next) = some c' := by
      rw [List.replicate_one, Runs.run_cons, h]
      rfl
    obtain ⟨-, rfl⟩ := (run_replicate_next 1 c c').mp hrun
    rw [Conn.newest, List.append_assoc, List.take_append_drop]
    exact hc
  | nextNil =>
    refine iff_of_true trivial fun c' h => ?_
    rw [step] at h
    split_ifs at h
    cases h
    exact hc

/-- Every stop of a run settles at the last size asked for exactly when no resize is dropped in it
behind a different one. -/
theorem settles_iff_keepsNewest (es : List Event) :
    Runs.Always step Settles newConn es ↔ Runs.Each step KeepsNewest newConn es := by
  refine Runs.always_iff_each (I := fun _ => True) (fun _ _ _ _ _ => trivial) ?_ trivial
    ((settles_iff_newest newConn).mpr rfl)
  intro c e _ hc
  simp only [settles_iff_newest] at hc ⊢
  exact keepsNewest_iff hc e

/-- The resize the page sends for a terminal of `cols` columns. -/
def resizeText (cols : String) : GoString :=
  utf8 "\x7b\"type\":\"resize\",\"cols\":" ++ utf8 cols ++ utf8 ",\"rows\":24\x7d"

/-- Five resizes before the executor asks for the first: the window is dragged while the shell
starts. -/
def draggedRun : List Event :=
  .read 32 :: ["80", "81", "82", "83", "84"].map fun cols => .message ⟨.text, resizeText cols⟩

theorem run_draggedRun :
    (Runs.run step newConn draggedRun).map (fun c => (c.newest, c.resizes.getLast?)) =
      some (some ⟨83, 24⟩, some ⟨84, 24⟩) := by
  decide +kernel

/-- The terminal stays at 83 columns. -/
theorem not_settles_draggedRun : ¬ Runs.Always step Settles newConn draggedRun := by
  intro h
  obtain ⟨c, hrun, hsizes⟩ := Option.map_eq_some_iff.mp run_draggedRun
  rw [Prod.mk.injEq] at hsizes
  have hlast := (settles_iff_newest c).mp (h.last hrun)
  rw [hsizes.1, hsizes.2] at hlast
  exact absurd hlast (by decide)

end TrainingPlatform.Terminal
