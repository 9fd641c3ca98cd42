import TrainingPlatform.Framing
import TrainingPlatform.Go.Utf8
import Mathlib.Algebra.Group.Nat.Defs
import Mathlib.Data.Fintype.Basic

/-!
# The output of an exec without a terminal

Two goroutines copy a command's stdout and stderr to the hijacked connection, each
through a `dockerFrameWriter`, whose `Write` is one write of a header and one of the
payload.  Docker's client takes the stream apart again.
-/

namespace TrainingPlatform.Dockershim

open Go

inductive Fd where
  | stdout | stderr
  deriving DecidableEq

instance : Fintype Fd := ⟨{.stdout, .stderr}, fun fd => by cases fd <;> decide⟩

/-- The `stream` of the two writers of `runExec`. -/
def Fd.stream : Fd → UInt8
  | .stdout => 1
  | .stderr => 2

/-- `binary.BigEndian.PutUint32` of `uint32(n)`: the conversion of each byte drops what
lies above it. -/
def putUint32 (n : Nat) : List UInt8 :=
  [UInt8.ofNat (n / 2 ^ 24), UInt8.ofNat (n / 2 ^ 16), UInt8.ofNat (n / 2 ^ 8), UInt8.ofNat n]

def uint32 (a b c d : UInt8) : Nat :=
  a.toNat * 2 ^ 24 + b.toNat * 2 ^ 16 + c.toNat * 2 ^ 8 + d.toNat

/-- The first write of `dockerFrameWriter.Write`; the second is the payload. -/
def frameHeader (fd : Fd) (p : List UInt8) : List UInt8 := [fd.stream, 0, 0, 0] ++ putUint32 p.length

/-- Payloads whose length a header can hold. -/
def FitsFrame (p : List UInt8) : Prop := p.length < 2 ^ 32

/-- Docker's demultiplexer, by its protocol: a frame is appended to the stream its header
names. -/
abbrev StdCopy := Framing.Demux frameHeader FitsFrame

/-- The state of the connection: the writes the two copiers have still to make, the frame
each is inside of, and the bytes sent. -/
abbrev ExecStream := Framing.Wire Fd UInt8

/-- One underlying write of one of the copiers. -/
def writeStep : ExecStream → Fd → Option ExecStream := Framing.step frameHeader

/-- No copier writes between the header and the payload of the other's frame, unless that
payload is empty. -/
def WholeFrames (w : ExecStream) (fd : Fd) : Prop := Framing.Unbroken w fd

/-- When both copiers have finished, the client has both outputs, and between two frames
those of the writes made so far. -/
def Demultiplexed (d : StdCopy) (input : Fd → List (List UInt8)) (w : ExecStream) : Prop :=
  Framing.Demuxes d input w ∧
    ((∀ fd, w.half fd = none ∧ w.todo fd = []) →
      d.demux w.sent = some fun fd => (input fd).flatten)

theorem uint32_putUint32 {n : Nat} (h : n < 2 ^ 32) :
    uint32 (UInt8.ofNat (n / 2 ^ 24)) (UInt8.ofNat (n / 2 ^ 16)) (UInt8.ofNat (n / 2 ^ 8))
      (UInt8.ofNat n) = n := by
  simp only [uint32, UInt8.toNat_ofNat']
  omega

/-! ## The client -/

/-- What goes to stdin is shown on stdout. -/
def streamFd (stream : UInt8) : Fd := if stream = 2 then .stderr else .stdout

/-- `stdcopy.StdCopy` over the whole stream: it stops at an incomplete header or frame, and
`none` is its error for a stream that is none of stdin, stdout and stderr. -/
def stdCopyLoop : Nat → List UInt8 → Option (Fd → List UInt8)
  | fuel + 1, stream :: _ :: _ :: _ :: a :: b :: c :: d :: rest =>
    if 3 < stream then none
    else if rest.length < uint32 a b c d then some fun _ => []
    else if stream = 3 then none
    else
      (stdCopyLoop fuel (rest.drop (uint32 a b c d))).map fun out =>
        Function.update out (streamFd stream)
          (rest.take (uint32 a b c d) ++ out (streamFd stream))
  | _, _ => some fun _ => []

def stdCopy (bs : List UInt8) : Option (Fd → List UInt8) := stdCopyLoop bs.length bs

/-- Fuel for every byte is enough. -/
theorem stdCopyLoop_eq {n m : Nat} {bs : List UInt8} (hn : bs.length ≤ n) (hm : bs.length ≤ m) :
    stdCopyLoop n bs = stdCopyLoop m bs := by
  fun_induction stdCopyLoop n bs generalizing m with
  | case1 k stream z₁ z₂ z₃ a b c d rest hbad =>
    cases m with
    | zero => cases hm
    | succ m => rw [stdCopyLoop, if_pos hbad]
  | case2 k stream z₁ z₂ z₃ a b c d rest hbad hshort =>
    cases m with
    | zero => cases hm
    | succ m => rw [stdCopyLoop, if_neg hbad, if_pos hshort]
  | case3 k z₁ z₂ z₃ a b c d rest hbad hshort =>
    cases m with
    | zero => cases hm
    | succ m => rw [stdCopyLoop, if_neg hbad, if_neg hshort, if_pos rfl]
  | case4 k stream z₁ z₂ z₃ a b c d rest hbad hlen hsys ih =>
    cases m with
    | zero => cases hm
    | succ m =>
      simp only [List.length_cons] at hn hm
      rw [stdCopyLoop, if_neg hbad, if_neg hlen, if_neg hsys]
      have hk : (rest.drop (uint32 a b c d)).length ≤ k := by
        rw [List.length_drop]
        omega
      have hm' : (rest.drop (uint32 a b c d)).length ≤ m := by
        rw [List.length_drop]
        omega
      rw [ih hk hm']
  | case5 n bs hshort =>
    unfold stdCopyLoop
    split
    · cases n with
      | zero => cases hn
      | succ n => exact (hshort _ _ _ _ _ _ _ _ _ _ rfl rfl).elim
    · rfl

theorem stdCopy_frame (fd : Fd) (p rest : List UInt8) (h : FitsFrame p) :
    stdCopy (frameHeader fd p ++ p ++ rest) =
      (stdCopy rest).map fun out => Function.update out fd (p ++ out fd) := by
  have hlen : uint32 (UInt8.ofNat (p.length / 2 ^ 24)) (UInt8.ofNat (p.length / 2 ^ 16))
      (UInt8.ofNat (p.length / 2 ^ 8)) (UInt8.ofNat p.length) = p.length := uint32_putUint32 h
  have hfuel : stdCopyLoop (7 + (p ++ rest).length) rest = stdCopy rest :=
    stdCopyLoop_eq (by rw [List.length_append]; omega) (Nat.le_refl _)
  have hstream : ¬ 3 < fd.stream ∧ fd.stream ≠ 3 ∧ streamFd fd.stream = fd := by
    cases fd
    · decide
    · decide
  obtain ⟨hknown, hsys, hfd⟩ := hstream
  have hcount : (frameHeader fd p ++ p ++ rest).length = (7 + (p ++ rest).length) + 1 := by
    simp [frameHeader, putUint32]
    omega
  rw [stdCopy, hcount]
  change stdCopyLoop _ (fd.stream :: 0 :: 0 :: 0 :: UInt8.ofNat (p.length / 2 ^ 24) ::
    UInt8.ofNat (p.length / 2 ^ 16) :: UInt8.ofNat (p.length / 2 ^ 8) ::
    UInt8.ofNat p.length :: (p ++ rest)) = _
  rw [stdCopyLoop, if_neg hknown, hlen, if_neg, if_neg hsys, List.drop_left, List.take_left, hfuel,
    hfd]
  rw [List.length_append]
  omega

/-- Docker's demultiplexer as it runs. -/
def stdcopy : StdCopy := ⟨stdCopy, rfl, stdCopy_frame⟩

/-! ## Every interleaving -/

theorem demultiplexed_of_demuxes {d : StdCopy} {input : Fd → List (List UInt8)} {w : ExecStream}
    (h : Framing.Demuxes d input w) : Demultiplexed d input w := by
  refine ⟨h, fun hdone => ?_⟩
  obtain ⟨sent, hsent, hdemux⟩ := h fun fd => (hdone fd).1
  have hall : sent = input := by
    funext fd
    rw [← hsent fd, (hdone fd).2, List.append_nil]
  rw [hdemux, hall]

/-- In every interleaving of the underlying writes in which no copier writes inside the
other's frame, the client gets the bytes of both outputs in order. -/
theorem demultiplexed_of_wholeFrames (d : StdCopy) (input : Fd → List (List UInt8))
    (hfits : ∀ fd, ∀ p ∈ input fd, p.length < 2 ^ 32) (fds : List Fd)
    (h : Runs.Each writeStep WholeFrames (Framing.start input) fds) :
    Runs.Always writeStep (Demultiplexed d input) (Framing.start input) fds :=
  (Framing.always_demuxes d hfits h).imp fun _ => demultiplexed_of_demuxes

/-! ## Two headers in a row -/

/-- One byte on each output. -/
def twoBytes : Fd → List (List UInt8)
  | .stdout => [utf8 "a"]
  | .stderr => [utf8 "b"]

instance (w : ExecStream) (fd : Fd) : Decidable (WholeFrames w fd) :=
  inferInstanceAs (Decidable (∀ j, j ≠ fd → ∀ p ∈ w.half j, p = []))

theorem demultiplexed_twoBytes :
    Runs.Always writeStep (Demultiplexed stdcopy twoBytes) (Framing.start twoBytes)
      [.stdout, .stdout, .stderr, .stderr] :=
  demultiplexed_of_wholeFrames stdcopy twoBytes (by decide) _ (by decide)

/-- Both headers are written before either payload: the client takes the second header's
first byte for the payload of the first frame, and stops. -/
theorem not_demultiplexed_twoBytes :
    ¬ Runs.Always writeStep (Demultiplexed stdcopy twoBytes) (Framing.start twoBytes)
      [.stdout, .stderr, .stdout, .stderr] := by
  intro h
  have hrun : ∃ w ∈ Runs.run writeStep (Framing.start twoBytes)
      [.stdout, .stderr, .stdout, .stderr], (∀ fd, w.half fd = none ∧ w.todo fd = []) ∧
        (stdCopy w.sent).map (fun out => out .stderr) = some [] := by
    decide +kernel
  obtain ⟨w, hw, hdone, herr⟩ := hrun
  rw [← List.append_nil [Fd.stdout, .stderr, .stdout, .stderr]] at h
  have hdemux := (h.of_append hw).head.2 hdone
  change stdCopy w.sent = _ at hdemux
  rw [hdemux] at herr
  cases herr

end TrainingPlatform.Dockershim
