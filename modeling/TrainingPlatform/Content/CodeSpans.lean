import TrainingPlatform.Content.Markup
import TrainingPlatform.Go.Letters

/-!
# Code spans

A line is rewritten for its code spans, then for its bold text and its links, and a rewrite
sees what the earlier ones wrote.  The rewrites are followed in letters here, which keep
apart what stood in the line and what was put in.
-/

namespace TrainingPlatform.Content

open Go Go.Re Letter

def codeElement (c : GoString) : GoString := utf8 "<code>" ++ c ++ utf8 "</code>"
def codeText (c : GoString) : GoString := utf8 "`" ++ c ++ utf8 "`"

/-- What `codeRe` matches behind a text: the text in front, and what is between the quotes. -/
def spansFrom (x : GoString) : List (GoString × Match) → List (GoString × GoString)
  | [] => []
  | (pre, m) :: ms => (x ++ pre, m.group 1) :: spansFrom (x ++ pre ++ m.text) ms

def spans (s : GoString) : List (GoString × GoString) :=
  spansFrom [] (findAllN codeRe s.length ⟨none, s⟩).1

/-- Around bold text its delimiters are replaced. -/
def boldCut (r : GoString × Match) : Parts UInt8 :=
  [(r.1, utf8 "**"), (r.2.group 1, utf8 "**")]

/-- A name whose attribute `ialAttrs` leaves out. -/
def isSkipped (name : GoString) : Bool :=
  name ≠ utf8 "id" && name ≠ utf8 "class" && !hasPrefix name (utf8 "data-")

/-- An attribute list up to the quote in front of the value. -/
def attrStart (m : Match) : GoString := m.text.takeWhile (· ≠ 0x26) ++ utf8 "&#34;"

/-- Of an attribute list only the value is kept. -/
def ialAttrCut (r : GoString × Match) : Parts UInt8 :=
  if isSkipped (r.2.group 1) then [([], r.1 ++ r.2.text)]
  else [([], r.1 ++ attrStart r.2),
    (r.2.group 2, r.2.text.drop ((attrStart r.2).length + (r.2.group 2).length))]

/-- Of a link its text, its target and the values of its attributes are kept. -/
def linkCut (r : GoString × Match) : Parts UInt8 :=
  [(r.1, utf8 "["), (r.2.group 1, utf8 "]("), (r.2.group 2, utf8 ")")] ++
    (parts ialAttrRe ialAttrCut (r.2.group 3) ++ [([], lastPart ialAttrRe (r.2.group 3))])

/-- From where to where the delimiters of bold text and links go in a line. -/
def delimiters (s : GoString) : List (Nat × Nat) :=
  gaps 0 (parts boldRe boldCut s) ++ gaps 0 (parts linkRe linkCut s)

/-! ## Marks -/

/-- What the rewrites put in; those of a code span know where in the line it starts. -/
inductive Mark where
  | codeOpen (start : Nat)
  | codeClose (start : Nat)
  | strongOpen
  | strongClose
  | linkOpen
  | quote
  | tagEnd
  | linkClose
  deriving DecidableEq

def Mark.rendered : Mark → GoString
  | .codeOpen _ => utf8 "<code>"
  | .codeClose _ => utf8 "</code>"
  | .strongOpen => utf8 "<strong>"
  | .strongClose => utf8 "</strong>"
  | .linkOpen => utf8 "<a href=\""
  | .quote => utf8 "\""
  | .tagEnd => utf8 ">"
  | .linkClose => utf8 "</a>"

/-- What the marks of the first rewrite stand for in the line. -/
def Mark.coded : Mark → GoString
  | .codeOpen _ | .codeClose _ => utf8 "`"
  | a => a.rendered

/-- What the marks of the first two rewrites stand for in the line. -/
def Mark.written : Mark → GoString
  | .codeOpen _ | .codeClose _ => utf8 "`"
  | .strongOpen | .strongClose => utf8 "**"
  | a => a.rendered

/-- The code span at `n` in letters. -/
def code (n : Nat) (c : GoString) : List (Letter Mark) :=
  .mark (.codeOpen n) :: (bytes c ++ [.mark (.codeClose n)])

theorem code_ne_nil {n : Nat} {c : GoString} : code n c ≠ [] := List.cons_ne_nil _ _

theorem mark_not_mem_code {n : Nat} {c : GoString} {a : Mark} (ho : a ≠ .codeOpen n)
    (hc : a ≠ .codeClose n) : Letter.mark a ∉ code n c := by
  rw [code, List.mem_cons, List.mem_append, List.mem_singleton, Letter.mark.injEq,
    Letter.mark.injEq, not_or, not_or]
  exact ⟨ho, mark_not_mem_bytes, hc⟩

theorem text_code (ρ : Mark → GoString) (n : Nat) (c : GoString) :
    text ρ (code n c) = ρ (.codeOpen n) ++ c ++ ρ (.codeClose n) := by
  rw [code, text_mark, text_append, text_bytes, text_mark, text_nil, List.append_nil,
    List.append_assoc]

theorem text_rendered_code (n : Nat) (c : GoString) :
    text Mark.rendered (code n c) = codeElement c := text_code _ n c

theorem text_written_code (n : Nat) (c : GoString) : text Mark.written (code n c) = codeText c :=
  text_code _ n c

theorem text_coded_code (n : Nat) (c : GoString) : text Mark.coded (code n c) = codeText c :=
  text_code _ n c

/-! ## Code spans in letters -/

/-- The code spans of a line behind `n` bytes, each quote with its mark. -/
def codeMarks :
    Nat → List (GoString × Match) → List (List (Letter Mark) × Mark × List (Letter Mark))
  | _, [] => []
  | n, (pre, m) :: ms =>
    (bytes pre, .codeOpen (n + pre.length), bytes (utf8 "`")) ::
      (bytes (m.group 1), .codeClose (n + pre.length), bytes (utf8 "`")) ::
        codeMarks (n + pre.length + m.text.length) ms

/-- The first rewrite. -/
def codeLetters (s : GoString) : List (Letter Mark) :=
  marked (codeMarks 0 (findAllN codeRe s.length ⟨none, s⟩).1)
    (bytes (findAllN codeRe s.length ⟨none, s⟩).2)

theorem group_codeRe {s : GoString} {r : GoString × Match}
    (h : r ∈ (findAllN codeRe s.length ⟨none, s⟩).1) :
    r.2.text = codeText (r.2.group 1) := by
  rw [codeText, List.append_assoc]
  exact (group_between ((findAllN_spec codeRe s.length ⟨none, s⟩).1 r h)).1

theorem marked_codeMarks {n : Nat} {r : GoString × Match} {ms : List (GoString × Match)}
    {rest : GoString} : marked (codeMarks n (r :: ms)) (bytes rest) =
      bytes r.1 ++ (code (n + r.1.length) (r.2.group 1) ++
        marked (codeMarks (n + r.1.length + r.2.text.length) ms) (bytes rest)) := by
  simp [marked, codeMarks, code]

theorem text_codeLetters {ρ : Mark → GoString} {u v : GoString}
    (hopen : ∀ n, ρ (.codeOpen n) = u) (hclose : ∀ n, ρ (.codeClose n) = v) (n : Nat)
    (ms : List (GoString × Match)) (rest : GoString) :
    text ρ (marked (codeMarks n ms) (bytes rest)) =
      ms.flatMap (fun r => r.1 ++ (u ++ r.2.group 1 ++ v)) ++ rest := by
  induction ms generalizing n with
  | nil => simp [codeMarks, marked]
  | cons r ms ih =>
    rw [marked_codeMarks, text_append, text_append, text_bytes, text_code, hopen, hclose, ih,
      List.flatMap_cons]
    simp only [List.append_assoc]

theorem text_rendered_codeLetters (s : GoString) :
    text Mark.rendered (codeLetters s) = replaceAll codeRe codeHtml s := by
  rw [codeLetters, text_codeLetters (fun _ => rfl) (fun _ => rfl), replaceAll]
  rfl

theorem text_coded_codeLetters (s : GoString) : text Mark.coded (codeLetters s) = s := by
  have hs : s = _ := (findAllN_spec codeRe s.length ⟨none, s⟩).2
  rw [codeLetters, text_codeLetters (fun _ => rfl) (fun _ => rfl)]
  conv_rhs => rw [hs]
  refine congrArg (· ++ _) (List.flatMap_congr fun r hr => ?_)
  rw [group_codeRe hr]
  rfl

/-- A code span in the letters is a match of `codeRe`, with its place. -/
theorem mem_spansFrom_iff {ms : List (GoString × Match)}
    (hms : ∀ r ∈ ms, r.2.text = codeText (r.2.group 1)) {rest x y c : GoString} {n : Nat} :
    (∃ A, y ++ text Mark.coded A = x ∧
      A ++ code n c <+: marked (codeMarks y.length ms) (bytes rest)) ↔
      (x, c) ∈ spansFrom y ms ∧ n = x.length := by
  induction ms generalizing y with
  | nil =>
    refine ⟨fun h => ?_, fun h => absurd h.1 List.not_mem_nil⟩
    obtain ⟨A, -, hA⟩ := h
    have hmem : Letter.mark (Mark.codeOpen n) ∈ bytes rest :=
      hA.subset (List.mem_append_right A List.mem_cons_self)
    exact absurd hmem mark_not_mem_bytes
  | cons r ms ih =>
    obtain ⟨htext, hms⟩ := List.forall_mem_cons.mp hms
    have hskip : text Mark.coded (bytes r.1 ++ code (y.length + r.1.length) (r.2.group 1)) =
        r.1 ++ r.2.text := by
      rw [htext, text_append, text_bytes, text_coded_code]
    have ih := ih hms (y := y ++ r.1 ++ r.2.text)
    rw [List.length_append, List.length_append] at ih
    rw [marked_codeMarks, spansFrom, List.mem_cons, Prod.mk.injEq, or_and_right, ← ih]
    constructor
    · intro h
      obtain ⟨A, rfl, z, hz⟩ := h
      rw [List.append_assoc] at hz
      obtain ⟨U, rfl, hU⟩ := eq_append_of_not_mem mark_not_mem_bytes hz.symm
      cases U with
      | nil =>
        obtain ⟨hopen, hc⟩ := List.cons.inj hU
        obtain rfl := Mark.codeOpen.inj (Letter.mark.inj hopen)
        simp only [List.append_eq, List.append_assoc, List.singleton_append] at hc
        obtain ⟨hbytes, -⟩ := eq_of_append_cons_eq mark_not_mem_bytes mark_not_mem_bytes hc
        have hc := congrArg (text Mark.coded) hbytes
        rw [text_bytes, text_bytes] at hc
        refine .inl ⟨⟨by rw [List.append_nil, text_bytes], hc.symm⟩, ?_⟩
        rw [List.append_nil, text_bytes, List.length_append]
      | cons l U =>
        obtain ⟨rfl, htail⟩ := List.cons.inj hU
        have hspan : Letter.mark (Mark.codeOpen n) ∉
            bytes (r.2.group 1) ++ [.mark (.codeClose (y.length + r.1.length))] := by
          rw [List.mem_append, List.mem_singleton, not_or]
          exact ⟨mark_not_mem_bytes, fun h => Mark.noConfusion (Letter.mark.inj h)⟩
        obtain ⟨V, rfl, hV⟩ := eq_append_of_not_mem hspan htail
        refine .inr ⟨V, ?_, z, ?_⟩
        · rw [← List.cons_append, ← code, ← List.append_assoc, text_append, hskip]
          simp only [List.append_assoc]
        · rw [hV, List.append_assoc]
          rfl
    · intro h
      rcases h with ⟨⟨rfl, rfl⟩, rfl⟩ | ⟨A, rfl, hA⟩
      · refine ⟨bytes r.1, by rw [text_bytes], ?_⟩
        rw [List.prefix_append_right_inj, List.length_append]
        exact List.prefix_append _ _
      · refine ⟨bytes r.1 ++ code (y.length + r.1.length) (r.2.group 1) ++ A, ?_, ?_⟩
        · rw [text_append, hskip]
          simp only [List.append_assoc]
        · simpa only [List.append_assoc, List.prefix_append_right_inj] using hA

theorem mem_spans_iff {s x c : GoString} {n : Nat} :
    (∃ A, text Mark.coded A = x ∧ A ++ code n c <+: codeLetters s) ↔
      (x, c) ∈ spans s ∧ n = x.length :=
  mem_spansFrom_iff (y := []) fun _ => group_codeRe

/-- A span is told by its place. -/
theorem eq_of_mem_spans {s x x' c c' : GoString} (h : (x, c) ∈ spans s) (h' : (x', c') ∈ spans s)
    (hlen : x.length = x'.length) : x = x' := by
  have hpre : ∀ {x c}, (x, c) ∈ spans s → x <+: s := by
    intro x c h
    obtain ⟨A, rfl, B, hB⟩ := mem_spans_iff.mpr ⟨h, rfl⟩
    refine ⟨text Mark.coded (code (text Mark.coded A).length c ++ B), ?_⟩
    rw [← text_append, ← List.append_assoc, hB, text_coded_codeLetters]
  exact (List.prefix_of_prefix_length_le (hpre h) (hpre h') hlen.le).eq_of_length hlen

theorem mark_mem_codeMarks {n : Nat} {ms : List (GoString × Match)}
    {t : List (Letter Mark) × Mark × List (Letter Mark)} (h : t ∈ codeMarks n ms) :
    (∃ s, t.1 = bytes s) ∧ ∃ k, t.2.1 = .codeOpen k ∨ t.2.1 = .codeClose k := by
  induction ms generalizing n with
  | nil => cases h
  | cons r ms ih =>
    rw [codeMarks, List.mem_cons, List.mem_cons] at h
    rcases h with rfl | rfl | h
    · exact ⟨⟨_, rfl⟩, _, .inl rfl⟩
    · exact ⟨⟨_, rfl⟩, _, .inr rfl⟩
    · exact ih h

theorem mark_mem_codeLetters {s : GoString} {a : Mark} (h : .mark a ∈ codeLetters s) :
    ∃ n, a = .codeOpen n ∨ a = .codeClose n := by
  rcases List.mem_append.mp h with h | h
  · obtain ⟨t, ht, ha⟩ := List.mem_flatMap.mp h
    obtain ⟨⟨u, hu⟩, n, hn⟩ := mark_mem_codeMarks ht
    rcases List.mem_append.mp ha with ha | ha
    · rw [hu] at ha
      exact absurd ha mark_not_mem_bytes
    · rw [Letter.mark.inj (List.mem_singleton.mp ha)]
      exact ⟨n, hn⟩
  · exact absurd h mark_not_mem_bytes

/-! ## Bold text -/

def boldMarks (r : List (Letter Mark) × Found Mark) :
    List (List (Letter Mark) × Mark × List (Letter Mark)) :=
  [(r.1, .strongOpen, bytes (utf8 "**")), (r.2.group 1, .strongClose, bytes (utf8 "**"))]

/-- Bold text of a match and its letters. -/
def strongLetters (m : Match) (G : List (Letter Mark)) : List (Letter Mark) :=
  .mark .strongOpen :: (slice Mark.rendered 2 (m.group 1).length G ++ [.mark .strongClose])

/-- The second rewrite. -/
def boldLetters (L : List (Letter Mark)) : List (Letter Mark) :=
  let r := findLetters Mark.rendered boldRe L
  r.1.flatMap (fun p => p.before ++ strongLetters p.found p.text) ++ r.2

/-- A reading without an asterisk in a mark. -/
def Starless (ρ : Mark → GoString) : Prop := ∀ a, ρ a ≠ [] ∧ 0x2A ∉ ρ a

theorem starless_rendered : Starless Mark.rendered := by
  intro a
  cases a <;> simp only [Mark.rendered] <;> decide

theorem starless_coded : Starless Mark.coded := by
  intro a
  cases a <;> simp only [Mark.coded, Mark.rendered] <;> decide

theorem exists_divides_boldRe (L : List (Letter Mark)) : ∃ M R,
    Divides boldRe Starless (fun G => ∃ g, G = Found.between (utf8 "**") g) L M R := by
  have hbold : boldRe =
      all [lit (utf8 "**"), group 1 (many1 (noneOf [0x2A])), lit (utf8 "**")] := by
    rw [boldRe, show utf8 "*" = [0x2A] by decide]
  have hD : utf8 "**" = 0x2A :: List.replicate 1 0x2A := by decide
  rw [hbold]
  refine exists_divides (fun ρ hρ a => (hρ a).1) (fun ρ hρ a x hx b s => ?_)
    (aligned_between _ hD (fun ρ hρ a => (hρ a).1) fun ρ hρ a => (hρ a).2) L
  refine matchAt_eq_none_of_head (y := 0x2A) (fun u d h => ?_) ?_
  · obtain ⟨g, rfl, -⟩ := consumes_between.mp h
    rfl
  · rintro rfl
    exact (hρ a).2 hx

theorem strongLetters_eq {g : List (Letter Mark)} {m : Match}
    (h : (Found.between (utf8 "**") g).Read Mark.rendered m) :
    strongLetters m (Found.between (utf8 "**") g).text =
      .mark .strongOpen :: (g ++ [.mark .strongClose]) := by
  have hslice := slice_append (fun a => (starless_rendered a).1) (bytes (utf8 "**")) g
    (bytes (utf8 "**"))
  rw [text_bytes, show (utf8 "**").length = 2 by decide] at hslice
  have hgroup : m.group 1 = text Mark.rendered g := h.group 1
  rw [strongLetters, hgroup, Found.between, hslice]

/-- A code span of the second rewrite is one of the first that no delimiter of bold text
meets. -/
theorem boldLetters_spec {L : List (Letter Mark)}
    (hL : ∀ a, .mark a ∈ L → ∃ n, a = .codeOpen n ∨ a = .codeClose n) :
    text Mark.rendered (boldLetters L) = replaceAll boldRe strongHtml (text Mark.rendered L) ∧
      text Mark.written (boldLetters L) = text Mark.coded L ∧
      ∀ x n c, (∃ A, text Mark.written A = x ∧ A ++ code n c <+: boldLetters L) ↔
        ∃ A, text Mark.coded A = x ∧ A ++ code n c <+: L ∧
          ∀ g ∈ gaps 0 (parts boldRe boldCut (text Mark.coded L)),
            (x ++ codeText c).length ≤ g.1 ∨ g.2 ≤ x.length := by
  obtain ⟨M, R, hM⟩ := exists_divides_boldRe L
  have hflat : L = whole (unmarked (M.flatMap boldMarks)) R := by
    rw [hM.flat, whole, unmarked, List.map_flatMap, List.flatMap_assoc]
    refine congrArg (· ++ R) (List.flatMap_congr fun r hr => ?_)
    obtain ⟨g, hg⟩ := hM.found r hr
    rw [hg, boldMarks, hg]
    simp [Found.between, Found.group]
  have hread : ∀ a, Letter.mark a ∈ whole (unmarked (M.flatMap boldMarks)) R →
      a.written = a.coded := by
    intro a ha
    rw [← hflat] at ha
    obtain ⟨n, rfl | rfl⟩ := hL a ha <;> rfl
  have hparts : parts boldRe boldCut (text Mark.coded L) =
      textParts Mark.coded (unmarked (M.flatMap boldMarks)) := by
    rw [unmarked, List.map_flatMap]
    refine hM.parts_eq starless_coded fun r m _ hpre hread => ?_
    rw [boldCut, hpre, hread.group 1]
    simp [boldMarks, textParts]
  have hmarks : ∀ t ∈ M.flatMap boldMarks, text Mark.coded t.2.2 = t.2.1.written ∧
      ∀ n c, Letter.mark t.2.1 ∉ code n c := by
    intro t ht
    obtain ⟨r, -, hr⟩ := List.mem_flatMap.mp ht
    rw [boldMarks, List.mem_cons, List.mem_singleton] at hr
    rcases hr with rfl | rfl
    · exact ⟨text_bytes, fun n c => mark_not_mem_code Mark.noConfusion Mark.noConfusion⟩
    · exact ⟨text_bytes, fun n c => mark_not_mem_code Mark.noConfusion Mark.noConfusion⟩
  have hletters : boldLetters L = marked (M.flatMap boldMarks) R := by
    obtain ⟨hmatches, hrest⟩ := hM.findLetters_eq (fun a => (starless_rendered a).1)
      starless_rendered (f := fun p => p.before ++ strongLetters p.found p.text)
      (F := fun r => r.1 ++ .mark .strongOpen :: (r.2.group 1 ++ [.mark .strongClose]))
      fun r m hQ hm => by
        obtain ⟨g, hg⟩ := hQ
        rw [hg] at hm ⊢
        exact congrArg (r.1 ++ ·) (strongLetters_eq hm)
    rw [boldLetters, hmatches, hrest, marked, List.flatMap_assoc]
    refine congrArg (· ++ R) (List.flatMap_congr fun r _ => ?_)
    simp [boldMarks]
  refine ⟨?_, ?_, fun x n c => ?_⟩
  · rw [hletters, marked, List.flatMap_assoc]
    refine (hM.replaceAll_eq starless_rendered fun r m _ hread => ?_).symm
    rw [strongHtml, hread.group 1]
    simp [boldMarks, Mark.rendered]
  · rw [hletters, text_marked_eq (fun t ht => (hmarks t ht).1) hread, ← hflat]
  · rw [hletters,
      exists_prefix_marked_iff (fun t ht => ⟨(hmarks t ht).2 n c, (hmarks t ht).1⟩) hread]
    refine exists_congr fun A => and_congr_right fun hA => ?_
    rw [hparts, ← hA, ← text_coded_code n, ← text_append,
      within_iff fun a => (starless_coded a).1, ← hflat]

end TrainingPlatform.Content
