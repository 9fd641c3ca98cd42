import TrainingPlatform.Go.Strings
import Mathlib.Data.List.TakeWhile

/-!
# Line logs

A log is a byte string that a `bufio.Scanner` reads line by line.  `segments`
are the lines with the unterminated tail last.  `records` reads a log of short
lines through a decoder; the rules say what appending a line, closing the tail
and losing the end of the log do to it.
-/

namespace Go

def newline : UInt8 := 0x0A
def carriageReturn : UInt8 := 0x0D

def segments : GoString → List GoString
  | [] => [[]]
  | b :: s =>
    if b = newline then [] :: segments s
    else match segments s with
      | [] => [[b]]
      | l :: ls => (b :: l) :: ls

/-- `dropCR` of `bufio.ScanLines`. -/
def dropCR (l : GoString) : GoString :=
  if l.getLast? = some carriageReturn then l.dropLast else l

/-- The tokens a scanner with a buffer of `maxToken` bytes returns, and whether it
stops at a line that does not fit.  The empty tail of a terminated log is no
token; readers skip empty tokens, so it may stand here as one. -/
def scanTokens (maxToken : Nat) (text : GoString) : List GoString × Bool :=
  ((segments text).takeWhile (fun l => l.length < maxToken) |>.map dropCR,
    !(segments text).all fun l => l.length < maxToken)

/-- An append starts a new line. -/
def Terminated (text : GoString) : Prop := text = [] ∨ ∃ s, text = s ++ [newline]

theorem segments_ne_nil (s : GoString) : segments s ≠ [] := by
  cases s with
  | nil => simp [segments]
  | cons b s =>
    unfold segments
    split_ifs
    · simp
    · split <;> simp

theorem segments_append_newline (s t : GoString) :
    segments (s ++ newline :: t) = segments s ++ segments t := by
  induction s with
  | nil => simp [segments]
  | cons b s ih =>
    simp only [List.cons_append, segments, ih]
    by_cases hb : b = newline
    · simp [hb]
    · cases hs : segments s with
      | nil => exact absurd hs (segments_ne_nil s)
      | cons l ls => simp [hb]

theorem segments_of_not_mem {s : GoString} (h : newline ∉ s) : segments s = [s] := by
  induction s with
  | nil => rfl
  | cons b s ih =>
    rw [List.mem_cons, not_or] at h
    simp [segments, ih h.2, Ne.symm h.1]

theorem newline_not_mem_of_mem_segments {l s : GoString} (h : l ∈ segments s) : newline ∉ l := by
  induction s generalizing l with
  | nil =>
    rw [List.mem_singleton.mp h]
    exact List.not_mem_nil
  | cons b s ih =>
    rw [segments] at h
    split_ifs at h with hb
    · rcases List.mem_cons.mp h with rfl | h
      · exact List.not_mem_nil
      · exact ih h
    · cases hs : segments s with
      | nil => exact absurd hs (segments_ne_nil s)
      | cons k ks =>
        rw [hs] at h ih
        rcases List.mem_cons.mp h with rfl | h
        · rw [List.mem_cons, not_or]
          exact ⟨Ne.symm hb, ih List.mem_cons_self⟩
        · exact ih (List.mem_cons_of_mem k h)

/-- A log is its complete lines and its tail. -/
theorem segments_eq (s : GoString) :
    ∃ ls tail, segments s = ls ++ [tail] ∧ newline ∉ tail ∧
      ∀ t, segments (s ++ t) = ls ++ segments (tail ++ t) := by
  induction s with
  | nil => exact ⟨[], [], rfl, by simp, fun t => rfl⟩
  | cons b s ih =>
    obtain ⟨ls, tail, hs, htail, happ⟩ := ih
    by_cases hb : b = newline
    · exact ⟨[] :: ls, tail, by simp [segments, hb, hs], htail,
        fun t => by simp [segments, hb, happ]⟩
    · cases ls with
      | nil =>
        refine ⟨[], b :: tail, by simp [segments, hb, hs], ?_, fun t => ?_⟩
        · simpa [Ne.symm hb] using htail
        · simp [segments, hb, happ]
      | cons l ls =>
        exact ⟨(b :: l) :: ls, tail, by simp [segments, hb, hs], htail,
          fun t => by simp [segments, hb, happ]⟩

/-- What starts with a piece of a line starts with a line that extends it. -/
theorem segments_append_of_not_mem {s : GoString} (h : newline ∉ s) (t : GoString) :
    ∃ l ls, segments (s ++ t) = l :: ls ∧ s <+: l := by
  induction s with
  | nil =>
    cases ht : segments t with
    | nil => exact absurd ht (segments_ne_nil t)
    | cons l ls => exact ⟨l, ls, ht, List.nil_prefix⟩
  | cons b s ih =>
    rw [List.mem_cons, not_or] at h
    obtain ⟨l, ls, heq, hpre⟩ := ih h.2
    exact ⟨b :: l, ls, by simp [segments, heq, Ne.symm h.1],
      List.cons_prefix_cons.mpr ⟨rfl, hpre⟩⟩

/-- The lines of a prefix are the first lines and a piece of the next one. -/
theorem segments_prefix {s t : GoString} (h : s <+: t) :
    ∃ ls p l rest, segments s = ls ++ [p] ∧ segments t = ls ++ l :: rest ∧ p <+: l := by
  obtain ⟨u, rfl⟩ := h
  obtain ⟨ls, tail, hs, htail, happ⟩ := segments_eq s
  obtain ⟨l, rest, heq, hpre⟩ := segments_append_of_not_mem htail u
  exact ⟨ls, tail, l, rest, hs, by rw [happ, heq], hpre⟩

theorem segments_append_terminated {s t : GoString} (hs : Terminated s) (hne : s ≠ []) :
    ∃ ls, segments s = ls ++ [[]] ∧ segments (s ++ t) = ls ++ segments t := by
  obtain rfl | ⟨u, rfl⟩ := hs
  · contradiction
  · refine ⟨segments u, segments_append_newline u [], ?_⟩
    rw [List.append_assoc, List.singleton_append, segments_append_newline]

/-- The lines a newline closes. -/
def completeLines (text : GoString) : List GoString := (segments text).dropLast

theorem mem_segments_of_complete {s l : GoString} (h : l ∈ completeLines s) :
    l ∈ segments s := List.mem_of_mem_dropLast h

/-- A complete line stays one whatever is written behind it. -/
theorem completeLines_append (s t : GoString) :
    completeLines s <+: completeLines (s ++ t) := by
  obtain ⟨ls, tail, hs, -, happ⟩ := segments_eq s
  rw [completeLines, completeLines, hs, happ, List.dropLast_concat,
    List.dropLast_append_of_ne_nil (segments_ne_nil _)]
  exact List.prefix_append _ _

theorem mem_completeLines_of_isPrefix {s t l : GoString} (h : s <+: t)
    (hl : l ∈ completeLines s) : l ∈ completeLines t := by
  obtain ⟨u, rfl⟩ := h
  exact (completeLines_append s u).subset hl

theorem completeLines_append_newline (s : GoString) :
    completeLines (s ++ [newline]) = segments s := by
  rw [completeLines, segments_append_newline]
  exact List.dropLast_concat

/-- The lines of a terminated log are complete, but for the empty tail. -/
theorem mem_completeLines_of_mem_segments {s l : GoString} (hs : Terminated s)
    (hl : l ∈ segments s) (hne : l ≠ []) : l ∈ completeLines s := by
  obtain rfl | ⟨u, rfl⟩ := hs
  · rw [segments, List.mem_singleton] at hl
    exact absurd hl hne
  · rw [completeLines_append_newline]
    rw [segments_append_newline, List.mem_append] at hl
    refine hl.resolve_right fun htail => ?_
    rw [segments, List.mem_singleton] at htail
    exact hne htail

/-- A line written to a terminated log is complete. -/
theorem mem_completeLines_of_terminated {s l : GoString} (hs : Terminated s)
    (hl : newline ∉ l) : l ∈ completeLines (s ++ (l ++ [newline])) := by
  rw [← List.append_assoc, completeLines_append_newline]
  by_cases hne : s = []
  · subst hne
    rw [List.nil_append, segments_of_not_mem hl]
    exact List.mem_singleton_self l
  · obtain ⟨ls, -, happ⟩ := segments_append_terminated (t := l) hs hne
    rw [happ, segments_of_not_mem hl]
    exact List.mem_append_right _ (List.mem_singleton_self l)

/-! ## Records -/

section Records

variable {ρ : Type*} (decode : GoString → Option ρ)

/-- The records of the lines that decode, oldest first. -/
def records (text : GoString) : List ρ := (segments text).filterMap decode

variable {decode}

theorem mem_records {text : GoString} {r : ρ} :
    r ∈ records decode text ↔ ∃ l ∈ segments text, decode l = some r := by
  rw [records, List.mem_filterMap]

/-- An append to a terminated log is a line of its own. -/
theorem records_append_line (hempty : decode [] = none) {s l : GoString} (hs : Terminated s)
    (hl : newline ∉ l) : records decode (s ++ l) = records decode s ++ (decode l).toList := by
  have hsingle : (segments l).filterMap decode = (decode l).toList := by
    rw [segments_of_not_mem hl]
    cases hd : decode l <;> simp [hd]
  by_cases hne : s = []
  · subst hne
    simp [records, segments, hempty, hsingle]
  · obtain ⟨ls, heq, happ⟩ := segments_append_terminated (t := l) hs hne
    rw [records, records, happ, heq, List.filterMap_append, List.filterMap_append, hsingle]
    simp [hempty]

/-- Closing the last line changes no record. -/
theorem records_append_newline (hempty : decode [] = none) (s : GoString) :
    records decode (s ++ [newline]) = records decode s := by
  rw [records, segments_append_newline, List.filterMap_append]
  simp [segments, hempty, records]

/-- What a log that is a prefix of another keeps, when no piece of a line decodes to
anything else than the line. -/
theorem records_prefix {s t : GoString} (h : s <+: t)
    (hpiece : ∀ l ∈ segments t, ∀ p, p <+: l → decode p = none ∨ p = l) :
    records decode s <+: records decode t := by
  obtain ⟨ls, p, l, rest, hs, ht, hp⟩ := segments_prefix h
  rw [records, records, hs, ht, List.filterMap_append, List.filterMap_append]
  refine (List.prefix_append_right_inj _).mpr ?_
  obtain hnone | rfl := hpiece l (by simp [ht]) p hp
  · simp [hnone]
  · exact (List.prefix_append [p] rest).filterMap decode

end Records

end Go
