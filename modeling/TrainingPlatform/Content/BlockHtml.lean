import TrainingPlatform.Content.Placeholders

/-!
# The HTML of a block

Which patterns and marks the HTML of a block adds to those of its text: none but its own
`data-challenge`.  Escaped text shows an escaped placeholder only where the text has the
placeholder itself.
-/

namespace TrainingPlatform.Content

open Go Go.Re Scoring

/-- What follows `<` in the tags of a page, of a choice and of a button. -/
def pageStarts : GoString := utf8 "/abcdefghijklmnopqrstuvwxyz"
def choiceStarts : GoString := utf8 "/il"
def buttonStarts : GoString := utf8 "/a"

theorem foreign_token {t a : GoString}
    (h : Between (utf8 "<!--BLOCK:") isDecimal (utf8 "-->") t a) : Foreign pageStarts t where
  head := by
    obtain ⟨Q, rfl⟩ := pageMark_token.start h
    exact .inr ⟨0x21, Q, rfl, by decide⟩
  plain := by
    have hplain : ∀ b ∈ utf8 " =\"\n", b ∉ utf8 "<!--BLOCK:" ∧ isDecimal b = false ∧
        b ∉ utf8 "-->" := by decide +kernel
    intro b hb
    obtain ⟨hp, hf, hq⟩ := hplain b hb
    exact not_mem_between hp hf hq h
  tail := pageMark_token.tail h
  init := pageMark_token.init h

theorem escapeString_of_plain {s : GoString} (h : ∀ b ∈ s, b ∉ utf8 "&'<>\"") :
    escapeString s = s := by
  induction s with
  | nil => rfl
  | cons b s ih =>
    obtain ⟨hb, hs⟩ := List.forall_mem_cons.mp h
    have hne : ∀ c ∈ utf8 "&'<>\"", b ≠ c := fun c hc heq => hb (heq ▸ hc)
    rw [escapeString, List.flatMap_cons, if_neg (hne _ (by decide)), if_neg (hne _ (by decide)),
      if_neg (hne _ (by decide)), if_neg (hne _ (by decide)), if_neg (hne _ (by decide))]
    exact congrArg (b :: ·) (ih hs)

theorem escapeString_append (s t : GoString) :
    escapeString (s ++ t) = escapeString s ++ escapeString t := List.flatMap_append

theorem escapeString_token (i : Nat) : escapeString (placeholderToken i) =
    utf8 "&lt;" ++ ((utf8 "!--BLOCK:" ++ itoa i ++ utf8 "--") ++ utf8 "&gt;") := by
  have hdigits : escapeString (itoa i) = itoa i := by
    refine escapeString_of_plain fun b hb hmem => ?_
    have hall : ∀ b ∈ utf8 "&'<>\"", isDecimal b = false := by decide +kernel
    have hno := hall b hmem
    rw [isDecimal_of_mem_itoa hb] at hno
    cases hno
  rw [placeholderToken, escapeString_append, escapeString_append, hdigits,
    show escapeString (utf8 "<!--BLOCK:") = utf8 "&lt;" ++ utf8 "!--BLOCK:" by decide,
    show escapeString (utf8 "-->") = utf8 "--" ++ utf8 "&gt;" by decide]
  simp only [List.append_assoc]

theorem foreign_escaped (i : Nat) : Foreign pageStarts (escapeString (placeholderToken i)) := by
  have h : Between (utf8 "&lt;!--BLOCK:") isDecimal (utf8 "--&gt;")
      (escapeString (placeholderToken i)) (itoa i) := by
    refine ⟨?_, fun _ => isDecimal_of_mem_itoa⟩
    rw [escapeString_token, show utf8 "&lt;!--BLOCK:" = utf8 "&lt;" ++ utf8 "!--BLOCK:" by decide,
      show utf8 "--&gt;" = utf8 "--" ++ utf8 "&gt;" by decide]
    simp only [List.append_assoc]
  have hplain : ∀ b ∈ utf8 "<> =\"\n", b ∉ utf8 "&lt;!--BLOCK:" ∧ isDecimal b = false ∧
      b ∉ utf8 "--&gt;" := by decide +kernel
  have hnot : ∀ b ∈ utf8 "<> =\"\n", b ∉ escapeString (placeholderToken i) := fun b hb =>
    not_mem_between (hplain b hb).1 (hplain b hb).2.1 (hplain b hb).2.2 h
  refine ⟨.inl ?_, fun b hb => hnot b ?_, not_mem_tail (hnot _ (by decide)),
    not_mem_dropLast (hnot _ (by decide))⟩
  · rw [escapeString_token]
    exact ⟨_, rfl⟩
  · exact List.mem_cons_of_mem _ (List.mem_cons_of_mem _ hb)

/-- An attribute as it stands in a tag. -/
def attrText (a : GoString × GoString) : GoString := 0x20 :: (a.1 ++ 0x3D :: 0x22 :: (a.2 ++ [0x22]))

/-- The attributes of a button behind its class. -/
def demoAttrs (chHash : GoString) (r : DemoRouting) : List (GoString × GoString) :=
  [(utf8 "data-hash-code", chHash), (utf8 "data-port", r.port), (utf8 "data-path", r.path),
    (utf8 "data-term", r.term)] ++
    (if r.hostPrefix ≠ [] then [(utf8 "data-host-prefix", r.hostPrefix)] else []) ++
    if r.proto ≠ [] then [(utf8 "data-protocol", r.proto)] else []

def demoAttrNames : List GoString :=
  [utf8 "data-hash-code", utf8 "data-port", utf8 "data-path", utf8 "data-term",
    utf8 "data-host-prefix", utf8 "data-protocol"]

theorem mem_demoAttrs {chHash : GoString} {r : DemoRouting} {a : GoString × GoString}
    (h : a ∈ demoAttrs chHash r) : a.1 ∈ demoAttrNames ∧
      (a.2 = chHash ∨ a.2 ∈ [r.port, r.path, r.term, r.hostPrefix, r.proto]) := by
  rw [demoAttrs, List.mem_append, List.mem_append] at h
  rcases h with (h | h) | h
  · simp only [List.mem_cons, List.not_mem_nil, or_false] at h
    rcases h with rfl | rfl | rfl | rfl <;> exact ⟨by dsimp only; decide, by simp⟩
  · split_ifs at h
    · rw [List.mem_singleton.mp h]
      exact ⟨by dsimp only; decide, by simp⟩
    · cases h
  · split_ifs at h
    · rw [List.mem_singleton.mp h]
      exact ⟨by dsimp only; decide, by simp⟩
    · cases h

theorem demoButton_eq (chHash : GoString) (r : DemoRouting) :
    demoButton chHash r = utf8 "<a class=\"exercise-demo\"" ++
      ((demoAttrs chHash r).flatMap attrText ++ utf8 " href=\"#\">Test Exercise</a>") := by
  have hopen : utf8 "<a class=\"exercise-demo\" data-hash-code=\"" =
      utf8 "<a class=\"exercise-demo\"" ++ 0x20 :: (utf8 "data-hash-code" ++ [0x3D, 0x22]) := by
    decide
  have hport : utf8 "data-port=\"" = utf8 "data-port" ++ [0x3D, 0x22] := by decide
  have hpath : utf8 "\" data-path=\"" =
      0x22 :: 0x20 :: (utf8 "data-path" ++ [0x3D, 0x22]) := by decide
  have hterm : utf8 "\" data-term=\"" =
      0x22 :: 0x20 :: (utf8 "data-term" ++ [0x3D, 0x22]) := by decide
  have hprefix : utf8 " data-host-prefix=\"" =
      0x20 :: (utf8 "data-host-prefix" ++ [0x3D, 0x22]) := by decide
  have hproto : utf8 " data-protocol=\"" = 0x20 :: (utf8 "data-protocol" ++ [0x3D, 0x22]) := by
    decide
  have hquote : utf8 "\"" = [0x22] := by decide
  have hspace : utf8 "\" " = [0x22, 0x20] := by decide
  rw [demoButton, demoAttrs, hopen, hport, hpath, hterm, hprefix, hproto, hquote, hspace]
  by_cases hp : r.hostPrefix = [] <;> by_cases hq : r.proto = [] <;> simp [hp, hq, attrText]

theorem getLast?_append_close {c : GoString} (s : GoString) (hc : c.getLast? = some 0x3E) :
    (s ++ c).getLast? = some 0x3E := by
  rw [List.getLast?_append, hc]
  rfl

theorem tagged_demoButton (chHash : GoString) (r : DemoRouting) : Tagged (demoButton chHash r) := by
  rw [demoButton_eq, ← List.append_assoc]
  exact tagged_append (by decide) (by decide) _

theorem autoDemoAnchor_ne_nil (chHash : GoString) : autoDemoAnchor chHash ≠ [] :=
  (tagged_demoButton chHash defaultDemoRouting).ne_nil

theorem tagged_choiceHtml (sha : Sha256) (salt chHash text : GoString) :
    Tagged (choiceHtml sha salt chHash text) := by
  rw [choiceHtml]
  simp only [List.append_assoc (utf8 "<label><input type=\"radio\" name=\"q-")]
  exact tagged_append (o := utf8 "<label><input type=\"radio\" name=\"q-") (c := utf8 "</label>")
    (by decide) (by decide) _

theorem tagged_quizHtml (sha : Sha256) (salt chHash : GoString) (q : Quiz) :
    Tagged (quizHtml sha salt chHash q) :=
  ⟨rfl, getLast?_append_close _ (by decide)⟩

theorem tagged_exerciseHtml (chHash text : GoString) : Tagged (exerciseHtml chHash text) :=
  ⟨rfl, getLast?_append_close _ (by decide)⟩

theorem isMarkup_hex (sha : Sha256) {starts s d : GoString} (hd : d ⊆ sha.hex s) :
    isMarkup starts d = true := by
  have hdigit : ∀ b, isLowerHex b = false → b ∉ d := fun b hb hmem => by
    rw [sha.digits s b (hd hmem)] at hb
    contradiction
  exact isMarkup_of_not_mem (hdigit _ (by decide)) (hdigit _ (by decide))

section BlockHtml

variable {P : GoString}

theorem Foreign.of_attrs {starts : GoString} (hP : Foreign starts P)
    {as : List (GoString × GoString)} {u tail : GoString}
    (h : P <:+: u ++ (as.flatMap attrText ++ 0x20 :: tail)) :
    P <:+: u ∨ (∃ a ∈ as, P <:+: a.1 ∨ P <:+: a.2) ∨ P <:+: tail := by
  induction as generalizing u with
  | nil => exact ((hP.sep_iff (by decide)).mp h).imp_right .inr
  | cons a as ih =>
    rw [List.flatMap_cons, attrText] at h
    simp only [List.append_assoc, List.cons_append, List.nil_append] at h
    rw [hP.sep_iff (by decide), hP.sep_iff (by decide), hP.sep_cons_iff (by decide),
      hP.sep_iff (by decide)] at h
    rcases h with h | h | h | h
    · exact .inl h
    · exact .inr (.inl ⟨a, List.mem_cons_self, .inl h⟩)
    · exact .inr (.inl ⟨a, List.mem_cons_self, .inr h⟩)
    · rcases ih (u := []) h with h | ⟨b, hb, hPb⟩ | h
      · exact absurd (List.infix_nil.mp h) hP.ne_nil
      · exact .inr (.inl ⟨b, List.mem_cons_of_mem a hb, hPb⟩)
      · exact .inr (.inr h)

/-- A pattern in a button stands in its routing. -/
theorem Foreign.of_demoButton (hP : Foreign buttonStarts P) {chHash : GoString}
    (hh : isMarkup buttonStarts chHash = true) {r : DemoRouting} (h : P <:+: demoButton chHash r) :
    ∃ v ∈ [r.port, r.path, r.term, r.hostPrefix, r.proto], P <:+: v := by
  have hlit : ∀ s, isMarkup buttonStarts s = true → ¬ P <:+: s := fun s => hP.not_infix_markup
  have htail : utf8 " href=\"#\">Test Exercise</a>" =
      0x20 :: utf8 "href=\"#\">Test Exercise</a>" := by decide
  rw [demoButton_eq, htail] at h
  rcases hP.of_attrs h with h | ⟨a, ha, h⟩ | h
  · exact absurd h (hlit _ (by decide))
  · rcases mem_demoAttrs ha with ⟨hname, hvalue⟩
    have hmarkup : ∀ n ∈ demoAttrNames, isMarkup buttonStarts n = true := by decide
    rcases h with h | h
    · exact absurd h (hlit _ (hmarkup _ hname))
    · rcases hvalue with hvalue | hvalue
      · rw [hvalue] at h
        exact absurd h (hlit _ hh)
      · exact ⟨_, hvalue, h⟩
  · exact absurd h (hlit _ (by decide))

theorem Foreign.of_choiceHtml (hP : Foreign choiceStarts P) {sha : Sha256}
    {salt chHash text : GoString} (hh : isMarkup choiceStarts (chHash.take 8) = true)
    (h : P <:+: choiceHtml sha salt chHash text) : P <:+: htmlEscape text := by
  have hlit : ∀ s, isMarkup choiceStarts s = true → ¬ P <:+: s := fun s => hP.not_infix_markup
  have hflag : isMarkup choiceStarts (flagHash sha text salt) = true :=
    isMarkup_hex sha (List.Subset.refl _)
  have hspace : utf8 "\"> " = utf8 "\">" ++ [0x20] := by decide
  rw [choiceHtml, List.append_assoc _ (htmlEscape text), hspace, ← List.append_assoc _ (utf8 "\">"),
    List.append_assoc _ [0x20], List.singleton_append] at h
  rcases (hP.sep_iff (by decide)).mp h with h | h
  · exact absurd h (hlit _ (isMarkup_append (isMarkup_append (isMarkup_append (isMarkup_append
      (by decide) hh) (by decide)) hflag) (by decide)))
  rcases (hP.append_of_open (by decide)).mp h with h | h
  · exact h
  · exact absurd h (hlit _ (by decide))

/-- A pattern in the HTML of an exercise stands in its text. -/
theorem Foreign.of_exerciseHtml (hP : Foreign pageStarts P) {sha : Sha256} {key text : GoString}
    (h : P <:+: exerciseHtml (sha.hex key) text) : P <:+: renderMarkdown text := by
  have hlit : ∀ s, isMarkup pageStarts s = true → ¬ P <:+: s := fun s => hP.not_infix_markup
  have hh : ∀ starts, isMarkup starts (sha.hex key) = true := fun starts =>
    isMarkup_hex sha (List.Subset.refl _)
  have hauto := tagged_demoButton (sha.hex key) defaultDemoRouting
  rw [exerciseHtml, List.append_assoc _ (autoDemoAnchor (sha.hex key)), List.append_assoc _ (utf8 "</div>"),
    List.append_assoc _ (renderMarkdown text)] at h
  rcases (hP.append_of_close (getLast?_append_close _ (by decide))).mp h with h | h
  · exact absurd h (hlit _ (isMarkup_append (isMarkup_append (by decide) (hh _)) (by decide)))
  rcases (hP.append_of_open (by rfl)).mp h with h | h
  · exact h
  rcases (hP.append_of_close (by decide)).mp h with h | h
  · exact absurd h (hlit _ (by decide))
  rcases (hP.append_of_close hauto.2).mp h with h | h
  · obtain ⟨v, hv, hPv⟩ := (hP.mono (by decide)).of_demoButton (hh _) h
    have hplain : ∀ v ∈ [defaultDemoRouting.port, defaultDemoRouting.path, defaultDemoRouting.term,
        defaultDemoRouting.hostPrefix, defaultDemoRouting.proto],
        isMarkup pageStarts v = true := by decide
    exact absurd hPv (hlit v (hplain v hv))
  · exact absurd h (hlit _ (by decide))

/-- A pattern in the HTML of a quiz stands, escaped, in its question or in a choice. -/
theorem Foreign.of_quizHtml (hP : Foreign pageStarts P) {sha : Sha256} {salt key : GoString}
    {q : Quiz} (h : P <:+: quizHtml sha salt (sha.hex key) q) :
    P <:+: htmlEscape q.text ∨ ∃ c ∈ q.choices, P <:+: htmlEscape c.text := by
  have hlit : ∀ s, isMarkup pageStarts s = true → ¬ P <:+: s := fun s => hP.not_infix_markup
  have hh : ∀ starts, isMarkup starts (sha.hex key) = true := fun starts =>
    isMarkup_hex sha (List.Subset.refl _)
  have hh' : ∀ starts, isMarkup starts ((sha.hex key).take 8) = true := fun starts =>
    isMarkup_hex sha fun b hb => List.mem_of_mem_take hb
  rw [quizHtml, List.append_assoc _ (q.choices.flatMap _), List.append_assoc _ (utf8 "</div>"),
    List.append_assoc _ (htmlEscape q.text)] at h
  rcases (hP.append_of_close (getLast?_append_close _ (by decide))).mp h with h | h
  · exact absurd h (hlit _ (isMarkup_append (isMarkup_append (by decide) (hh _)) (by decide)))
  rcases (hP.append_of_open (by rfl)).mp h with h | h
  · exact .inl h
  rcases (hP.append_of_close (by decide)).mp h with h | h
  · exact absurd h (hlit _ (by decide))
  rcases (hP.append_of_open (by decide)).mp h with h | h
  · refine .inr ?_
    generalize q.choices = choices at h ⊢
    induction choices with
    | nil => exact absurd (List.infix_nil.mp h) hP.ne_nil
    | cons c cs ih =>
      rw [List.flatMap_cons] at h
      rcases (hP.append_of_close (tagged_choiceHtml sha salt (sha.hex key) c.text).2).mp h with h | h
      · exact ⟨c, List.mem_cons_self, (hP.mono (by decide)).of_choiceHtml (hh' _) h⟩
      · obtain ⟨d, hd, hPd⟩ := ih h
        exact ⟨d, List.mem_cons_of_mem c hd, hPd⟩
  · exact absurd h (hlit _ (by decide))

end BlockHtml

/-! ## Escaped text -/

theorem lt_not_mem_htmlEscape (s : GoString) : 0x3C ∉ htmlEscape s := by
  rw [htmlEscape, List.mem_flatMap]
  rintro ⟨b, -, hb⟩
  split_ifs at hb with h₁ h₂ h₃ h₄ <;> try exact absurd hb (by decide)
  exact h₂ (List.mem_singleton.mp hb).symm

/-- An escape of bytes: a byte stands for itself or becomes a reference, and only `<` and
`>` become theirs. -/
structure IsEscape (e : UInt8 → GoString) : Prop where
  shape : ∀ b, (e b = [b] ∧ b ≠ 0x26) ∨ ∃ c r, e b = 0x26 :: c :: r ∧ 0x26 ∉ c :: r
  lt : ∀ b, (e b).take 2 = utf8 "&l" → b = 0x3C ∧ e b = utf8 "&lt;"
  gt : ∀ b, (e b).take 2 = utf8 "&g" → b = 0x3E

theorem take_singleton_ne {b : UInt8} {q : GoString} (hq : q.length = 2) : [b].take 2 ≠ q := by
  rintro rfl
  simp at hq

theorem isEscape_htmlEscape : IsEscape fun b => if b = 0x26 then utf8 "&amp;"
    else if b = 0x3C then utf8 "&lt;"
    else if b = 0x3E then utf8 "&gt;"
    else if b = 0x22 then utf8 "&quot;"
    else [b] where
  shape b := by
    split_ifs with h <;> first
      | exact .inl ⟨rfl, h⟩
      | exact .inr ⟨_, _, rfl, by decide⟩
  lt b h := by
    split_ifs at h ⊢ with h₁ h₂ h₃ h₄ <;> first
      | exact ⟨h₂, rfl⟩
      | exact absurd h (by decide)
      | exact absurd h (take_singleton_ne rfl)
  gt b h := by
    split_ifs at h with h₁ h₂ h₃ h₄ <;> first
      | exact h₃
      | exact absurd h (by decide)
      | exact absurd h (take_singleton_ne rfl)

theorem isEscape_escapeString : IsEscape fun b => if b = 0x26 then utf8 "&amp;"
    else if b = 0x27 then utf8 "&#39;"
    else if b = 0x3C then utf8 "&lt;"
    else if b = 0x3E then utf8 "&gt;"
    else if b = 0x22 then utf8 "&#34;"
    else [b] where
  shape b := by
    split_ifs with h <;> first
      | exact .inl ⟨rfl, h⟩
      | exact .inr ⟨_, _, rfl, by decide⟩
  lt b h := by
    split_ifs at h ⊢ with h₁ h₂ h₃ h₄ h₅ <;> first
      | exact ⟨h₃, rfl⟩
      | exact absurd h (by decide)
      | exact absurd h (take_singleton_ne rfl)
  gt b h := by
    split_ifs at h with h₁ h₂ h₃ h₄ h₅ <;> first
      | exact h₄
      | exact absurd h (by decide)
      | exact absurd h (take_singleton_ne rfl)

section Escape

variable {e : UInt8 → GoString} (he : IsEscape e)
include he

/-- Bytes other than `&` come from themselves. -/
theorem IsEscape.plain_prefix {m w s : GoString} (hm : 0x26 ∉ m) (h : m ++ w <+: s.flatMap e) :
    ∃ r, s = m ++ r ∧ w <+: r.flatMap e := by
  induction m generalizing s with
  | nil => exact ⟨s, rfl, h⟩
  | cons x m ih =>
    rw [List.mem_cons, not_or] at hm
    cases s with
    | nil => exact absurd (List.prefix_nil.mp h) (List.cons_ne_nil _ _)
    | cons b s =>
      rw [List.flatMap_cons, List.cons_append] at h
      rcases he.shape b with ⟨hb, -⟩ | ⟨c, r, hb, -⟩ <;> rw [hb] at h
      · obtain ⟨rfl, hrest⟩ := List.cons_prefix_cons.mp h
        obtain ⟨r, rfl, hr⟩ := ih hm.2 hrest
        exact ⟨r, rfl, hr⟩
      · exact absurd (List.cons_prefix_cons.mp h).1.symm hm.1

/-- The reference a text starts with comes from one byte. -/
theorem IsEscape.reference_prefix {c : UInt8} {w s : GoString}
    (h : 0x26 :: c :: w <+: s.flatMap e) :
    ∃ b r, s = b :: r ∧ (e b).take 2 = [0x26, c] := by
  cases s with
  | nil => exact absurd (List.prefix_nil.mp h) (List.cons_ne_nil _ _)
  | cons b s =>
    rw [List.flatMap_cons] at h
    rcases he.shape b with ⟨hb, hne⟩ | ⟨d, r, hb, -⟩ <;> rw [hb] at h
    · exact absurd (List.cons_prefix_cons.mp h).1.symm hne
    · have hd := (List.cons_prefix_cons.mp (List.cons_prefix_cons.mp h).2).1
      exact ⟨b, s, rfl, by rw [hb, hd]; rfl⟩

theorem IsEscape.infix_reference {Q s : GoString} (h : 0x26 :: Q <:+: s.flatMap e) :
    ∃ u v, s = u ++ v ∧ 0x26 :: Q <+: v.flatMap e := by
  induction s with
  | nil => exact absurd (List.infix_nil.mp h) (List.cons_ne_nil _ _)
  | cons b s ih =>
    rw [List.flatMap_cons] at h
    have hrest : 0x26 :: Q <:+: s.flatMap e →
        ∃ u v, b :: s = u ++ v ∧ 0x26 :: Q <+: v.flatMap e := fun h => by
      obtain ⟨u, v, rfl, hv⟩ := ih h
      exact ⟨b :: u, v, rfl, hv⟩
    rcases he.shape b with ⟨hb, hne⟩ | ⟨c, r, hb, hr⟩ <;> rw [hb] at h
    · rcases List.infix_cons_iff.mp h with h | h
      · exact absurd (List.cons_prefix_cons.mp h).1.symm hne
      · exact hrest h
    · rcases List.infix_cons_iff.mp h with h | h
      · exact ⟨[], b :: s, rfl, by rw [List.flatMap_cons, hb]; exact h⟩
      · exact hrest (infix_append_of_head_not_mem hr h)

/-- An escaped tag in an escaped text stands in the text. -/
theorem IsEscape.infix_of_escaped {m s : GoString} (hm : 0x26 ∉ m)
    (h : utf8 "&lt;" ++ (m ++ utf8 "&gt;") <:+: s.flatMap e) : 0x3C :: (m ++ [0x3E]) <:+: s := by
  obtain ⟨u, v, rfl, hv⟩ := he.infix_reference h
  obtain ⟨b, r, rfl, hb⟩ := he.reference_prefix hv
  obtain ⟨rfl, hlt⟩ := he.lt b hb
  rw [List.flatMap_cons, hlt] at hv
  have hv' : m ++ utf8 "&gt;" <+: r.flatMap e := (List.prefix_append_right_inj (utf8 "&lt;")).mp hv
  obtain ⟨r', rfl, hr⟩ := he.plain_prefix hm hv'
  obtain ⟨b, r'', rfl, hb⟩ := he.reference_prefix hr
  obtain rfl := he.gt b hb
  exact ⟨u, r'', by simp⟩

end Escape

theorem token_of_escaped {i : Nat} {s : GoString} :
    (escapeString (placeholderToken i) <:+: escapeString s → placeholderToken i <:+: s) ∧
      (escapeString (placeholderToken i) <:+: htmlEscape s → placeholderToken i <:+: s) := by
  have hm : 0x26 ∉ utf8 "!--BLOCK:" ++ itoa i ++ utf8 "--" := by
    rw [List.mem_append, List.mem_append]
    rintro ((h | h) | h)
    · exact absurd h (by decide)
    · exact absurd (isDecimal_of_mem_itoa h) (by decide)
    · exact absurd h (by decide)
  have htoken : placeholderToken i =
      0x3C :: (utf8 "!--BLOCK:" ++ itoa i ++ utf8 "--" ++ [0x3E]) := by
    rw [placeholderToken, show utf8 "<!--BLOCK:" = 0x3C :: utf8 "!--BLOCK:" by decide,
      show utf8 "-->" = utf8 "--" ++ [0x3E] by decide]
    simp
  rw [escapeString_token]
  constructor <;> intro h <;> rw [htoken]
  · exact isEscape_escapeString.infix_of_escaped hm h
  · exact isEscape_htmlEscape.infix_of_escaped hm h

/-! ## The marks of a block -/

/-- The opening tag of a block's div. -/
def divTag (word value : GoString) : GoString := divOpen word ++ (value ++ utf8 "\">")

theorem scan_divTag {word value : GoString} (hw : word = quizWord ∨ word = exerciseWord)
    (hv : ∀ b ∈ value, isValueByte b = true) :
    scan (readDiv word) (divTag word value) = [value] := by
  refine scan_eq_singleton (reads_div word) ⟨rfl, hv⟩ fun t a ht hin => ?_
  obtain ⟨Q, rfl⟩ := (pageMark_div hw).start ht
  exact (pageMark_div hw).tail ⟨rfl, hv⟩ (hin.subset List.mem_cons_self)

/-- No div of one kind of block opens with the tag of the other. -/
theorem scan_divTag_other {word w value : GoString} (hw : w = quizWord ∨ w = exerciseWord)
    (hv : ∀ b ∈ value, isValueByte b = true) (hword : word = quizWord ∨ word = exerciseWord)
    (hne : ¬ divOpen w <+: divOpen word ∧ ¬ divOpen word <+: divOpen w) :
    scan (readDiv w) (divTag word value) = [] := by
  refine scan_eq_nil (reads_div w) fun t a ht hin => ?_
  have htag := (pageMark_div hword).tail (t := divTag word value) ⟨rfl, hv⟩
  have hpre : divOpen w <+: divTag word value := by
    obtain ⟨r, hr⟩ := (pageMark_div hword).start (t := divTag word value) ⟨rfl, hv⟩
    obtain ⟨Q, hQ⟩ := (pageMark_div hw).start ht
    rw [hr] at hin htag ⊢
    rcases List.infix_cons_iff.mp hin with hin | hin
    · exact List.IsPrefix.trans ⟨_, ht.1.symm⟩ hin
    · rw [hQ] at hin
      exact absurd (hin.subset List.mem_cons_self) htag
  rcases List.prefix_or_prefix_of_prefix hpre (List.prefix_append (divOpen word) _) with h | h
  · exact hne.1 h
  · exact hne.2 h

theorem divChallenges_divTag {word value : GoString} (hw : word = quizWord ∨ word = exerciseWord)
    (hv : ∀ b ∈ value, isValueByte b = true) : divChallenges (divTag word value) = [value] := by
  rw [divChallenges]
  rcases hw with rfl | rfl
  · rw [scan_divTag (.inl rfl) hv, scan_divTag_other (.inr rfl) hv (.inl rfl) (by decide)]
    rfl
  · rw [scan_divTag (.inr rfl) hv, scan_divTag_other (.inl rfl) hv (.inr rfl) (by decide)]
    rfl

theorem getLast?_divTag (word value : GoString) : (divTag word value).getLast? = some 0x3E := by
  rw [divTag, ← List.append_assoc]
  exact getLast?_append_close _ (by decide)

theorem quizHtml_eq (sha : Sha256) (salt chHash : GoString) (q : Quiz) :
    quizHtml sha salt chHash q = divTag quizWord chHash ++ (utf8 "<div class=\"q\">" ++
      (htmlEscape q.text ++ (utf8 "</div>" ++
        ((q.choices.flatMap fun c => choiceHtml sha salt chHash c.text) ++
          utf8 "<button class=\"quiz-submit\">Submit</button><div class=\"verdict\"></div></div>")))) := by
  have hopen : utf8 "<div class=\"quiz\" data-challenge=\"" = divOpen quizWord := by decide
  have hclose : utf8 "\"><div class=\"q\">" = utf8 "\">" ++ utf8 "<div class=\"q\">" := by decide
  rw [quizHtml, hopen, hclose, divTag]
  simp only [List.append_assoc]

theorem exerciseHtml_eq (chHash text : GoString) :
    exerciseHtml chHash text = divTag exerciseWord chHash ++ (utf8 "<div class=\"q\">" ++
      (renderMarkdown text ++ (utf8 "</div>" ++ (autoDemoAnchor chHash ++
        utf8 "<div class=\"verdict\"></div></div>")))) := by
  have hopen : utf8 "<div class=\"exercise\" data-challenge=\"" = divOpen exerciseWord := by decide
  have hclose : utf8 "\"><div class=\"q\">" = utf8 "\">" ++ utf8 "<div class=\"q\">" := by decide
  rw [exerciseHtml, hopen, hclose, divTag]
  simp only [List.append_assoc]

/-- The tags in the HTML of a block besides that of its div are no marks. -/
structure NotMarkup (read : GoString → Option GoString) : Prop where
  question : scan read (utf8 "<div class=\"q\">") = []
  close : scan read (utf8 "</div>") = []
  submit : scan read
    (utf8 "<button class=\"quiz-submit\">Submit</button><div class=\"verdict\"></div></div>") = []
  verdict : scan read (utf8 "<div class=\"verdict\"></div></div>") = []

theorem notMarkup_div {word : GoString} (hw : word = quizWord ∨ word = exerciseWord) :
    NotMarkup (readDiv word) := by
  rcases hw with rfl | rfl <;>
    exact ⟨by decide +kernel, by decide +kernel, by decide +kernel, by decide +kernel⟩

theorem notMarkup_token : NotMarkup readToken :=
  ⟨by decide +kernel, by decide +kernel, by decide +kernel, by decide +kernel⟩

/-- The built-in button has no tag but its own. -/
theorem not_infix_autoDemoAnchor {c : UInt8} (hstart : buttonStarts.contains c = false)
    (hplain : c ∉ utf8 "<> =\"\n") (sha : Sha256) (key : GoString) :
    ¬ [0x3C, c] <:+: autoDemoAnchor (sha.hex key) := by
  intro h
  have hvalues : ∀ v ∈ [defaultDemoRouting.port, defaultDemoRouting.path, defaultDemoRouting.term,
      defaultDemoRouting.hostPrefix, defaultDemoRouting.proto], 0x3C ∉ v := by decide
  obtain ⟨v, hv, hin⟩ := (foreign_pair hstart hplain).of_demoButton
    (isMarkup_hex sha (List.Subset.refl _)) h
  exact hvalues v hv (hin.subset List.mem_cons_self)

section BlockMarks

variable {c : UInt8} {read : GoString → Option GoString} {mark : GoString → GoString → Prop}
  (hread : Reads read mark) (hmark : PageMark c mark) (hc : c = 0x64 ∨ c = 0x21)
include hread hmark hc

omit hc in
/-- A text without `<` and the byte behind it has no mark. -/
theorem scan_of_not_pair {s : GoString} (hs : ¬ [0x3C, c] <:+: s) : scan read s = [] := by
  refine scan_eq_nil hread fun t a ht hin => hs ?_
  obtain ⟨Q, rfl⟩ := hmark.start ht
  exact List.IsInfix.trans ⟨[], Q, rfl⟩ hin

theorem scan_autoDemoAnchor (sha : Sha256) (key : GoString) :
    scan read (autoDemoAnchor (sha.hex key)) = [] := by
  refine scan_of_not_pair hread hmark ?_
  rcases hc with rfl | rfl <;> exact not_infix_autoDemoAnchor (by decide) (by decide) sha key

theorem scan_choiceHtml (sha : Sha256) (salt key text : GoString) :
    scan read (choiceHtml sha salt (sha.hex key) text) = [] := by
  have hpair : Foreign choiceStarts [0x3C, c] := by
    rcases hc with rfl | rfl <;> exact foreign_pair (by decide) (by decide)
  refine scan_of_not_pair hread hmark fun h => ?_
  have hh : isMarkup choiceStarts ((sha.hex key).take 8) = true :=
    isMarkup_hex sha fun b hb => List.mem_of_mem_take hb
  exact lt_not_mem_htmlEscape text ((hpair.of_choiceHtml hh h).subset List.mem_cons_self)

/-- The marks in the HTML of a quiz are those of the tag of its div. -/
theorem scan_quizHtml (hnone : NotMarkup read) (sha : Sha256) (salt key : GoString) (q : Quiz) :
    scan read (quizHtml sha salt (sha.hex key) q) = scan read (divTag quizWord (sha.hex key)) := by
  have hchoices : scan read (q.choices.flatMap fun c =>
      choiceHtml sha salt (sha.hex key) c.text) = [] := by
    generalize q.choices = choices
    induction choices with
    | nil => rfl
    | cons choice choices ih =>
      rw [List.flatMap_cons, scan_append_close hread hmark (tagged_choiceHtml sha salt _ _).2, ih,
        scan_choiceHtml hread hmark hc]
      rfl
  rw [quizHtml_eq, scan_append_close hread hmark (getLast?_divTag _ _),
    scan_append_close hread hmark (u := utf8 "<div class=\"q\">") (by decide),
    scan_no_open_append hread hmark (lt_not_mem_htmlEscape _),
    scan_append_close hread hmark (u := utf8 "</div>") (by decide),
    scan_append_open hread hmark (v := utf8 _) (by decide), hnone.question, hnone.close,
    hnone.submit, hchoices]
  simp only [List.append_nil]

/-- Those in the HTML of an exercise, and those of its text. -/
theorem scan_exerciseHtml (hnone : NotMarkup read) (sha : Sha256) (key text : GoString) :
    scan read (exerciseHtml (sha.hex key) text) =
      scan read (divTag exerciseWord (sha.hex key)) ++ scan read (renderMarkdown text) := by
  have hauto := tagged_demoButton (sha.hex key) defaultDemoRouting
  rw [exerciseHtml_eq, scan_append_close hread hmark (getLast?_divTag _ _),
    scan_append_close hread hmark (u := utf8 "<div class=\"q\">") (by decide),
    scan_append_open hread hmark (v := utf8 "</div>" ++ _) rfl,
    scan_append_close hread hmark (u := utf8 "</div>") (by decide),
    scan_append_close hread hmark (u := autoDemoAnchor _) hauto.2,
    scan_autoDemoAnchor hread hmark hc, hnone.question, hnone.close, hnone.verdict]
  simp only [List.append_nil, List.nil_append]

end BlockMarks

/-! ## The blocks of a page -/

theorem isValueByte_hex (sha : Sha256) (key : GoString) :
    ∀ b ∈ sha.hex key, isValueByte b = true := by
  intro b hb
  have hdigit := sha.digits key b hb
  rw [isValueByte, Bool.not_eq_true', ← Bool.not_eq_true, List.contains_iff_mem]
  have hplain : ∀ b ∈ utf8 "\"<>\n", isLowerHex b = false := by decide +kernel
  intro hmem
  rw [hplain b hmem] at hdigit
  cases hdigit

theorem divChallenges_quizHtml (sha : Sha256) (salt key : GoString) (q : Quiz) :
    divChallenges (quizHtml sha salt (sha.hex key) q) = [sha.hex key] := by
  rw [← divChallenges_divTag (.inl rfl) (isValueByte_hex sha key), divChallenges, divChallenges,
    scan_quizHtml (reads_div _) (pageMark_div (.inl rfl)) (.inl rfl) (notMarkup_div (.inl rfl)),
    scan_quizHtml (reads_div _) (pageMark_div (.inr rfl)) (.inl rfl) (notMarkup_div (.inr rfl))]

theorem scan_token_divTag (word value : GoString) (hw : word = quizWord ∨ word = exerciseWord)
    (hv : ∀ b ∈ value, isValueByte b = true) : scan readToken (divTag word value) = [] := by
  have hmark : Between (divOpen word) isValueByte (utf8 "\">") (divTag word value) value :=
    ⟨rfl, hv⟩
  have htail := (pageMark_div hw).tail hmark
  obtain ⟨Q, hQ⟩ := (pageMark_div hw).start hmark
  rw [hQ] at htail ⊢
  rw [scan_other_tag reads_token pageMark_token (by decide)]
  exact scan_of_no_open reads_token pageMark_token htail

theorem scan_token_quizHtml (sha : Sha256) (salt key : GoString) (q : Quiz) :
    scan readToken (quizHtml sha salt (sha.hex key) q) = [] := by
  rw [scan_quizHtml reads_token pageMark_token (.inr rfl) notMarkup_token,
    scan_token_divTag _ _ (.inl rfl) (isValueByte_hex sha key)]

theorem scan_token_exerciseHtml (sha : Sha256) (key text : GoString) :
    scan readToken (exerciseHtml (sha.hex key) text) = scan readToken (renderMarkdown text) := by
  rw [scan_exerciseHtml reads_token pageMark_token (.inr rfl) notMarkup_token,
    scan_token_divTag _ _ (.inr rfl) (isValueByte_hex sha key), List.nil_append]

theorem scan_token_renderMarkdown (s : GoString) : scan readToken (renderMarkdown s) =
    (rawLines (segments s).length (segments s)).flatMap (scan readToken) := by
  refine scan_renderMarkdown reads_token (fun t a ht => ?_) (fun t a ht => pageMark_token.line ht) s
  obtain ⟨Q, rfl⟩ := pageMark_token.start ht
  exact ⟨_, Q, rfl, foreign_pair (by decide) (by decide)⟩

theorem scan_div_renderMarkdown {word : GoString} (hw : word = quizWord ∨ word = exerciseWord)
    (s : GoString) : scan (readDiv word) (renderMarkdown s) =
      (rawLines (segments s).length (segments s)).flatMap (scan (readDiv word)) := by
  refine scan_renderMarkdown (reads_div word) (fun t a ht => ?_)
    (fun t a ht => (pageMark_div hw).line ht) s
  obtain ⟨Q, rfl⟩ := (pageMark_div hw).start ht
  exact ⟨_, Q, rfl, foreign_pair (by decide) (by decide)⟩

theorem divChallenges_renderMarkdown {s : GoString} (h : ¬ utf8 "data-challenge=" <:+: s) :
    divChallenges (renderMarkdown s) = [] := by
  have hlines : ∀ l ∈ rawLines (segments s).length (segments s), divChallenges l = [] :=
    fun l hl => divChallenges_eq_nil fun hin =>
      h (hin.trans (infix_of_mem_segments ((rawLines_sublist _).subset hl)))
  have hword : ∀ word, word = quizWord ∨ word = exerciseWord →
      scan (readDiv word) (renderMarkdown s) = [] := by
    intro word hw
    rw [scan_div_renderMarkdown hw, List.flatMap_eq_nil_iff]
    intro l hl
    have hl := hlines l hl
    rw [divChallenges, List.append_eq_nil_iff] at hl
    rcases hw with rfl | rfl
    · exact hl.1
    · exact hl.2
  rw [divChallenges, hword _ (.inl rfl), hword _ (.inr rfl), List.append_nil]

theorem divChallenges_exerciseHtml {text : GoString} (h : ¬ utf8 "data-challenge=" <:+: text)
    (sha : Sha256) (key : GoString) :
    divChallenges (exerciseHtml (sha.hex key) text) = [sha.hex key] := by
  have hnone := divChallenges_renderMarkdown h
  rw [divChallenges, List.append_eq_nil_iff] at hnone
  rw [← divChallenges_divTag (.inr rfl) (isValueByte_hex sha key), divChallenges, divChallenges,
    scan_exerciseHtml (reads_div _) (pageMark_div (.inl rfl)) (.inl rfl) (notMarkup_div (.inl rfl)),
    scan_exerciseHtml (reads_div _) (pageMark_div (.inr rfl)) (.inl rfl) (notMarkup_div (.inr rfl)),
    hnone.1, hnone.2, List.append_nil, List.append_nil]

end TrainingPlatform.Content
