import TrainingPlatform.Dockershim.Exec
import TrainingPlatform.Dockershim.K8s

/-!
# Container logs

A log is copied chunk by chunk as the API server delivers it, each chunk of a container
without a terminal in a frame of its own.  The client's connection may fail at any write.
-/

namespace TrainingPlatform.Dockershim

open Go

/-- What one `Read` of the log gives: bytes for the buffer of 4096, and whether an error, or
the end of the log, comes with them. -/
structure Chunk where
  bytes : List UInt8
  err : Bool
  fits : bytes.length ≤ 4096

/-- The failures of a connection: of a write behind the bytes it has taken, `none` if it takes
all of it, or the number of bytes it takes before its error. -/
abbrev Connection := List UInt8 → List UInt8 → Option Nat

/-- A connection without failures. -/
def reliable : Connection := fun _ _ => none

/-- The bytes of a response so far, and how many there were at each flush. -/
structure LogBody where
  bytes : List UInt8
  flushes : List Nat

/-- `w.Write`, and whether it went without an error. -/
def writeTo (conn : Connection) (sent p : List UInt8) : List UInt8 × Bool :=
  match conn sent p with
  | none => (sent ++ p, true)
  | some n => (sent ++ p.take n, false)

/-- `dockerFrameWriter.Write`. -/
def writeFrame (conn : Connection) (fd : Fd) (sent p : List UInt8) : List UInt8 × Bool :=
  match writeTo conn sent (frameHeader fd p) with
  | (sent, true) => writeTo conn sent p
  | (sent, false) => (sent, false)

/-- `dst.Write`. -/
def writeLog (conn : Connection) (tty : Bool) (sent p : List UInt8) : List UInt8 × Bool :=
  if tty then writeTo conn sent p else writeFrame conn .stdout sent p

/-- The loop of `handleContainerLogs`; the chunks end where the next `Read` has not returned. -/
def logLoop (conn : Connection) (tty flusher : Bool) : List Chunk → LogBody → LogBody
  | [], out => out
  | c :: chunks, out =>
    if c.bytes = [] then if c.err then out else logLoop conn tty flusher chunks out
    else
      match writeLog conn tty out.bytes c.bytes with
      | (sent, false) => { out with bytes := sent }
      | (sent, true) =>
        let out := ⟨sent, if flusher then out.flushes ++ [sent.length] else out.flushes⟩
        if c.err then out else logLoop conn tty flusher chunks out

/-- The body of the response for the log of a Pod. -/
def logBody (conn : Connection) (p : Pod) (flusher : Bool) (chunks : List Chunk) : LogBody :=
  logLoop conn p.tty flusher chunks ⟨[], []⟩

/-- The chunks up to the first that comes with an error. -/
def chunksRead : List Chunk → List Chunk
  | [] => []
  | c :: chunks => c :: if c.err then [] else chunksRead chunks

def bytesRead (chunks : List Chunk) : List UInt8 := (chunksRead chunks).flatMap Chunk.bytes

/-- Every frame of a log is one of stdout. -/
def stdoutFrames (payloads : List (List UInt8)) : List (Fd × List UInt8) :=
  payloads.map (Prod.mk .stdout)

/-- So many bytes are whole frames. -/
def FrameBoundary (bytes : List UInt8) (n : Nat) : Prop :=
  n ≤ bytes.length ∧ ∃ payloads, (∀ p ∈ payloads, FitsFrame p) ∧
    bytes.take n = Framing.encode frameHeader (stdoutFrames payloads)

/-! ## Frames -/

theorem encode_stdoutFrames_concat (payloads : List (List UInt8)) (p : List UInt8) :
    Framing.encode frameHeader (stdoutFrames (payloads ++ [p])) =
      Framing.encode frameHeader (stdoutFrames payloads) ++ frameHeader .stdout p ++ p := by
  rw [stdoutFrames, List.map_append]
  exact Framing.encode_append

theorem payloads_stdoutFrames (payloads : List (List UInt8)) (fd : Fd) :
    Framing.payloads (stdoutFrames payloads) fd = if fd = .stdout then payloads else [] := by
  rw [Framing.payloads, stdoutFrames, List.filter_map, List.map_map]
  cases fd with
  | stdout => simp [Function.comp_def]
  | stderr => simp [Function.comp_def]

theorem Chunk.fitsFrame (c : Chunk) : FitsFrame c.bytes := lt_of_le_of_lt c.fits (by decide)

/-- The payloads of a log. -/
def logPayloads (chunks : List Chunk) : List (List UInt8) :=
  ((chunksRead chunks).map Chunk.bytes).filter (· ≠ [])

theorem flatten_logPayloads (chunks : List Chunk) :
    (logPayloads chunks).flatten = bytesRead chunks := by
  rw [logPayloads, bytesRead, List.flatMap_def]
  exact List.flatten_filter_ne_nil

theorem fitsFrame_of_mem_logPayloads {chunks : List Chunk} {p : List UInt8}
    (h : p ∈ logPayloads chunks) : FitsFrame p := by
  obtain ⟨c, -, rfl⟩ := List.mem_map.mp (List.mem_filter.mp h).1
  exact c.fitsFrame

variable {conn : Connection} {flusher : Bool} {out : LogBody}

/-- A write of a frame sends the whole frame or fails. -/
theorem writeFrame_ok {fd : Fd} {sent sent' p : List UInt8}
    (h : writeFrame conn fd sent p = (sent', true)) : sent' = sent ++ frameHeader fd p ++ p := by
  unfold writeFrame writeTo at h
  cases hheader : conn sent (frameHeader fd p) with
  | some n =>
    rw [hheader] at h
    cases h
  | none =>
    rw [hheader] at h
    dsimp only at h
    cases hpayload : conn (sent ++ frameHeader fd p) p with
    | some n =>
      rw [hpayload] at h
      cases h
    | none =>
      rw [hpayload] at h
      cases h
      rfl

theorem logPayloads_cons (c : Chunk) (chunks : List Chunk) :
    logPayloads (c :: chunks) =
      (if c.bytes = [] then [] else [c.bytes]) ++ if c.err then [] else logPayloads chunks := by
  rw [logPayloads, chunksRead, List.map_cons, List.filter_cons]
  by_cases hempty : c.bytes = []
  · cases c.err
    · simp [hempty, logPayloads]
    · simp [hempty]
  · cases c.err
    · simp [hempty, logPayloads]
    · simp [hempty]

/-- Over a connection that does not fail, every chunk that is not empty becomes a frame. -/
theorem bytes_logLoop_reliable (chunks : List Chunk) (out : LogBody) :
    (logLoop reliable false flusher chunks out).bytes =
      out.bytes ++ Framing.encode frameHeader (stdoutFrames (logPayloads chunks)) := by
  induction chunks generalizing out with
  | nil => exact (List.append_nil _).symm
  | cons c chunks ih =>
    have hnil : Framing.encode frameHeader (stdoutFrames []) = [] := rfl
    rw [logLoop, logPayloads_cons]
    by_cases hempty : c.bytes = []
    · rw [if_pos hempty, if_pos hempty, List.nil_append]
      cases c.err
      · exact ih out
      · exact (List.append_nil _).symm
    · have hwrite : writeLog reliable false out.bytes c.bytes =
          (out.bytes ++ frameHeader .stdout c.bytes ++ c.bytes, true) := rfl
      rw [if_neg hempty, if_neg hempty, hwrite]
      dsimp only
      cases c.err
      · rw [if_neg Bool.false_ne_true, if_neg Bool.false_ne_true, ih]
        simp [stdoutFrames, Framing.encode]
      · rw [if_pos rfl, if_pos rfl]
        simp [stdoutFrames, Framing.encode]

/-! ## Flushes -/

theorem FrameBoundary.append {bytes : List UInt8} {n : Nat} (h : FrameBoundary bytes n)
    (more : List UInt8) : FrameBoundary (bytes ++ more) n := by
  obtain ⟨hle, payloads, hfits, htake⟩ := h
  refine ⟨hle.trans ?_, payloads, hfits, ?_⟩
  · rw [List.length_append]
    exact Nat.le_add_right _ _
  · rw [List.take_append_of_le_length hle, htake]

/-- What a loop keeps: the response is whole frames, and was at every flush. -/
structure Aligned (out : LogBody) : Prop where
  whole : FrameBoundary out.bytes out.bytes.length
  flushes : ∀ n ∈ out.flushes, FrameBoundary out.bytes n

/-- Another frame keeps it, flushed or not. -/
theorem Aligned.frame (flusher : Bool) (h : Aligned out) {p : List UInt8} (hp : FitsFrame p) :
    Aligned ⟨out.bytes ++ frameHeader .stdout p ++ p,
      if flusher then out.flushes ++ [(out.bytes ++ frameHeader .stdout p ++ p).length]
      else out.flushes⟩ := by
  obtain ⟨⟨-, payloads, hfits, htake⟩, hflushes⟩ := h
  rw [List.take_length] at htake
  have hold : ∀ n ∈ out.flushes, FrameBoundary (out.bytes ++ frameHeader .stdout p ++ p) n := by
    intro n hn
    rw [List.append_assoc]
    exact (hflushes n hn).append _
  have hwhole : FrameBoundary (out.bytes ++ frameHeader .stdout p ++ p)
      (out.bytes ++ frameHeader .stdout p ++ p).length := by
    refine ⟨le_rfl, payloads ++ [p], fun q hq => ?_, ?_⟩
    · rcases List.mem_append.mp hq with hq | hq
      · exact hfits q hq
      · exact List.mem_singleton.mp hq ▸ hp
    · rw [List.take_length, encode_stdoutFrames_concat, htake]
  refine ⟨hwhole, fun n hn => ?_⟩
  dsimp only at hn
  cases flusher
  · exact hold n hn
  · rcases List.mem_append.mp hn with hn | hn
    · exact hold n hn
    · exact List.mem_singleton.mp hn ▸ hwhole

theorem bytes_writeTo (conn : Connection) (sent p : List UInt8) :
    ∃ k, (writeTo conn sent p).1 = sent ++ p.take k := by
  rw [writeTo]
  cases conn sent p with
  | none => exact ⟨p.length, by rw [List.take_length]⟩
  | some n => exact ⟨n, rfl⟩

/-- A write of a frame sends a part of the frame. -/
theorem bytes_writeFrame (conn : Connection) (fd : Fd) (sent p : List UInt8) :
    ∃ k, (writeFrame conn fd sent p).1 = sent ++ (frameHeader fd p ++ p).take k := by
  unfold writeFrame
  obtain ⟨k, hk⟩ := bytes_writeTo conn sent (frameHeader fd p)
  cases hheader : writeTo conn sent (frameHeader fd p) with
  | mk sent₁ ok =>
    rw [hheader] at hk
    cases ok with
    | false =>
      refine ⟨min k (frameHeader fd p).length, hk.trans ?_⟩
      rw [List.take_append_of_le_length (Nat.min_le_right _ _), ← List.take_take, List.take_length]
    | true =>
      have hwhole : sent₁ = sent ++ frameHeader fd p := by
        unfold writeTo at hheader
        cases hconn : conn sent (frameHeader fd p) with
        | some n =>
          rw [hconn] at hheader
          cases hheader
        | none =>
          rw [hconn] at hheader
          cases hheader
          rfl
      obtain ⟨n, hn⟩ := bytes_writeTo conn sent₁ p
      refine ⟨(frameHeader fd p).length + n, hn.trans ?_⟩
      rw [hwhole, List.take_length_add_append, List.append_assoc]

theorem writeFrame_part {fd : Fd} {sent sent' p : List UInt8} {ok : Bool}
    (h : writeFrame conn fd sent p = (sent', ok)) :
    ∃ k, sent' = sent ++ (frameHeader fd p ++ p).take k := by
  obtain ⟨k, hsent⟩ := bytes_writeFrame conn fd sent p
  exact ⟨k, (congrArg Prod.fst h).symm.trans hsent⟩

/-- Whatever the connection does, every flush is behind a whole frame. -/
theorem frameBoundary_logLoop (chunks : List Chunk) (h : Aligned out) :
    ∀ n ∈ (logLoop conn false flusher chunks out).flushes,
      FrameBoundary (logLoop conn false flusher chunks out).bytes n := by
  induction chunks generalizing out with
  | nil => exact h.flushes
  | cons c chunks ih =>
    rw [logLoop]
    by_cases hempty : c.bytes = []
    · rw [if_pos hempty]
      cases c.err
      · exact ih h
      · exact h.flushes
    · rw [if_neg hempty]
      cases hwrite : writeLog conn false out.bytes c.bytes with
      | mk sent ok =>
        cases ok with
        | false =>
          obtain ⟨k, hpart⟩ := writeFrame_part hwrite
          intro n hn
          dsimp only
          rw [hpart]
          exact (h.flushes n hn).append _
        | true =>
          have hframe := h.frame flusher c.fitsFrame
          rw [← writeFrame_ok hwrite] at hframe
          dsimp only
          cases c.err
          · exact ih hframe
          · exact hframe.flushes

/-! ## What the client reads -/

/-- A frame that is not whole. -/
def CutFrame (tail : List UInt8) : Prop :=
  ∃ p, FitsFrame p ∧ tail <+: frameHeader .stdout p ++ p ∧
    tail.length < (frameHeader .stdout p ++ p).length

/-- The client waits for the rest of such a frame. -/
theorem stdCopy_cutFrame {tail : List UInt8} (h : CutFrame tail) :
    stdCopy tail = some fun _ => [] := by
  obtain ⟨p, hp, hprefix, hlt⟩ := h
  have hheader : (frameHeader .stdout p).length = 8 := rfl
  rcases Nat.lt_or_ge tail.length 8 with hshort | hlong
  · rw [stdCopy]
    unfold stdCopyLoop
    split
    · simp only [List.length_cons] at hshort
      omega
    · rfl
  · obtain ⟨q, rfl⟩ : frameHeader .stdout p <+: tail :=
      List.prefix_of_prefix_length_le (List.prefix_append _ p) hprefix (by omega)
    have hq : q.length < p.length := by
      rw [List.length_append, List.length_append] at hlt
      omega
    have hlen : uint32 (UInt8.ofNat (p.length / 2 ^ 24)) (UInt8.ofNat (p.length / 2 ^ 16))
        (UInt8.ofNat (p.length / 2 ^ 8)) (UInt8.ofNat p.length) = p.length := uint32_putUint32 hp
    have hcount : (frameHeader .stdout p ++ q).length = (7 + q.length) + 1 := by
      rw [List.length_append, hheader]
      omega
    rw [stdCopy, hcount]
    change stdCopyLoop _ (1 :: 0 :: 0 :: 0 :: UInt8.ofNat (p.length / 2 ^ 24) ::
      UInt8.ofNat (p.length / 2 ^ 16) :: UInt8.ofNat (p.length / 2 ^ 8) ::
      UInt8.ofNat p.length :: q) = _
    rw [stdCopyLoop, if_neg (by decide), hlen, if_pos hq]

/-- Over any connection the response is the frames of the first chunks, and perhaps a part of
the next. -/
theorem bytes_logLoop (conn : Connection) (flusher : Bool) (chunks : List Chunk) (out : LogBody) :
    ∃ done tail, done <+: logPayloads chunks ∧ (tail = [] ∨ CutFrame tail) ∧
      (logLoop conn false flusher chunks out).bytes =
        out.bytes ++ Framing.encode frameHeader (stdoutFrames done) ++ tail := by
  have hnone : ∀ out : LogBody, out.bytes =
      out.bytes ++ Framing.encode frameHeader (stdoutFrames []) ++ [] := by
    intro out
    exact (List.append_nil _).symm.trans (List.append_nil _).symm
  induction chunks generalizing out with
  | nil => exact ⟨[], [], List.nil_prefix, .inl rfl, hnone out⟩
  | cons c chunks ih =>
    rw [logLoop, logPayloads_cons]
    by_cases hempty : c.bytes = []
    · rw [if_pos hempty, if_pos hempty, List.nil_append]
      cases c.err
      · exact ih out
      · exact ⟨[], [], List.nil_prefix, .inl rfl, hnone out⟩
    · rw [if_neg hempty, if_neg hempty]
      have hfirst : ∀ rest, [c.bytes] <+: [c.bytes] ++ rest := List.prefix_append _
      have hframe : Framing.encode frameHeader (stdoutFrames [c.bytes]) =
          frameHeader .stdout c.bytes ++ c.bytes := List.append_nil _
      cases hwrite : writeLog conn false out.bytes c.bytes with
      | mk sent ok =>
        cases ok with
        | false =>
          obtain ⟨k, hpart⟩ := writeFrame_part hwrite
          by_cases hwhole : (frameHeader .stdout c.bytes ++ c.bytes).length ≤ k
          · refine ⟨[c.bytes], [], hfirst _, .inl rfl, ?_⟩
            dsimp only
            rw [hpart, List.take_of_length_le hwhole, hframe, List.append_nil]
          · refine ⟨[], _, List.nil_prefix, .inr ⟨c.bytes, c.fitsFrame, List.take_prefix k _, ?_⟩, ?_⟩
            · rw [List.length_take]
              omega
            · dsimp only
              rw [hpart]
              exact congrArg (· ++ _) (List.append_nil _).symm
        | true =>
          have hsent : sent = out.bytes ++ frameHeader .stdout c.bytes ++ c.bytes :=
            writeFrame_ok hwrite
          dsimp only
          cases c.err
          · obtain ⟨done, tail, hdone, htail, hbytes⟩ := ih
              ⟨sent, if flusher then out.flushes ++ [sent.length] else out.flushes⟩
            refine ⟨c.bytes :: done, tail, List.cons_prefix_cons.mpr ⟨rfl, hdone⟩, htail, ?_⟩
            refine hbytes.trans ?_
            dsimp only
            rw [hsent]
            simp [stdoutFrames, Framing.encode]
          · refine ⟨[c.bytes], [], hfirst _, .inl rfl, ?_⟩
            rw [if_pos rfl, hsent, hframe, List.append_nil, List.append_assoc]

/-- The client of a log without a terminal reads all that was read of the log, on stdout and in
order; every flush is behind a whole frame; and over a connection that fails it still reads
the start of the log. -/
theorem logBody_framed (p : Pod) (htty : p.tty = false) (flusher : Bool) (chunks : List Chunk) :
    (∀ d : StdCopy, d.demux (logBody reliable p flusher chunks).bytes =
        some fun fd => if fd = .stdout then bytesRead chunks else []) ∧
      ∀ conn, (∀ n ∈ (logBody conn p flusher chunks).flushes,
          FrameBoundary (logBody conn p flusher chunks).bytes n) ∧
        ∃ start, start <+: bytesRead chunks ∧ stdCopy (logBody conn p flusher chunks).bytes =
          some fun fd => if fd = .stdout then start else [] := by
  have hfits : ∀ payloads, payloads <+: logPayloads chunks →
      ∀ f ∈ stdoutFrames payloads, FitsFrame f.2 := by
    intro payloads hsent f hf
    obtain ⟨q, hq, rfl⟩ := List.mem_map.mp hf
    exact fitsFrame_of_mem_logPayloads (hsent.subset hq)
  have hpick : ∀ (payloads : List (List UInt8)) fd,
      (Framing.payloads (stdoutFrames payloads) fd).flatten =
        if fd = .stdout then payloads.flatten else [] := by
    intro payloads fd
    rw [payloads_stdoutFrames]
    split_ifs
    · rfl
    · rfl
  have hempty : Aligned ⟨[], []⟩ :=
    ⟨⟨le_rfl, [], fun _ h => (List.not_mem_nil h).elim, rfl⟩, fun _ h => (List.not_mem_nil h).elim⟩
  simp only [logBody, htty]
  refine ⟨fun d => ?_, fun conn => ⟨frameBoundary_logLoop chunks hempty, ?_⟩⟩
  · rw [bytes_logLoop_reliable, List.nil_append, Framing.demux_encode d (hfits _ List.prefix_rfl)]
    simp only [hpick, flatten_logPayloads]
  · obtain ⟨done, tail, hdone, htail, hbytes⟩ := bytes_logLoop conn flusher chunks ⟨[], []⟩
    have hrest : stdCopy tail = some fun _ => [] := by
      rcases htail with rfl | hcut
      · rfl
      · exact stdCopy_cutFrame hcut
    refine ⟨done.flatten, ?_, ?_⟩
    · rw [← flatten_logPayloads]
      obtain ⟨rest, hrest⟩ := hdone
      rw [← hrest, List.flatten_append]
      exact List.prefix_append _ _
    · have hdemux := Framing.demux_encode_append stdcopy (hfits done hdone) tail
      rw [hbytes, List.nil_append]
      refine hdemux.trans ?_
      change (stdCopy tail).map _ = _
      rw [hrest, Option.map_some]
      simp only [hpick, List.append_nil]

/-- Two chunks, the second with the end of the log. -/
def lastWords : List Chunk := [⟨utf8 "hello ", false, by decide⟩, ⟨utf8 "world\n", true, by decide⟩]

def plainPod : Pod := ⟨utf8 "docker-k8s-shim-poc", utf8 "busybox", [], false, false, [], false, [], none⟩

theorem logBody_framed_lastWords :
    stdcopy.demux (logBody reliable plainPod true lastWords).bytes =
      some fun fd => if fd = .stdout then utf8 "hello world\n" else [] := by
  have hread : bytesRead lastWords = utf8 "hello world\n" := by decide +kernel
  rw [← hread]
  exact (logBody_framed plainPod rfl true lastWords).1 stdcopy

end TrainingPlatform.Dockershim
