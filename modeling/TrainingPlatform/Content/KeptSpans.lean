import TrainingPlatform.Content.DemoLinks
import TrainingPlatform.Content.LinkLetters

/-!
# Code spans on a page

The lines of a text that are marked up, and the condition under which a code span of such a
line is on the page as it is written: none of the delimiters of bold text or of a link
stands in it.  Two spans with one content are told apart by their places.
-/

namespace TrainingPlatform.Content

open Go Go.Re Letter

/-- What is marked up of a line outside the fences: a heading's text, a list item's, or a
paragraph. -/
def lineText (l : GoString) : Option GoString :=
  match find headingRe l with
  | some m => some (m.group 2)
  | none =>
    if isMatch listRe l then (find listRe l).map (Match.group · 1)
    else if trimSpace l = [] ∨ hasPrefix (trimSpace l) (utf8 "<") then none
    else some l

/-- The three rewrites of a line. -/
def inlineLetters (s : GoString) : List (Letter Mark) :=
  linkLetters (boldLetters (codeLetters s))

/-- No delimiter of bold text or of a link reaches into the text `w` behind `x` of a line. -/
def Untouched (s x w : GoString) : Prop :=
  ∀ d ∈ delimiters s, (x ++ w).length ≤ d.1 ∨ d.2 ≤ x.length

/-- A span of a line, with the text in front, meets no delimiter. -/
def SpanKept (t : GoString) (p : GoString × GoString) : Prop :=
  Untouched (escapeString t) (escapeString p.1) (escapeString (codeText p.2))

instance instDecidableSpanKept (t : GoString) (p : GoString × GoString) :
    Decidable (SpanKept t p) :=
  inferInstanceAs (Decidable (∀ _ ∈ _, _))

/-- The markup of a line has the span at its place between the tags of code, with nothing of
its content left out and nothing put in. -/
def Shown (t : GoString) (p : GoString × GoString) : Prop :=
  code (escapeString p.1).length (escapeString p.2) <:+: inlineLetters (escapeString t)

/-! ## One line -/

theorem text_inlineLetters (s : GoString) : text Mark.rendered (inlineLetters s) = inline s := by
  rw [inlineLetters, (linkLetters_spec _).1, (boldLetters_spec fun _ => mark_mem_codeLetters).1,
    text_rendered_codeLetters, inline_eq]

/-- A span of a line is in its markup where it is untouched. -/
theorem infix_inlineLetters_iff {s x c : GoString} (h : (x, c) ∈ spans s) :
    code x.length c <:+: inlineLetters s ↔ Untouched s x (codeText c) := by
  obtain ⟨-, hwritten, hbold⟩ := boldLetters_spec (L := codeLetters s) fun _ => mark_mem_codeLetters
  rw [text_coded_codeLetters] at hwritten hbold
  rw [inlineLetters, (linkLetters_spec _).2, hwritten, Untouched, delimiters,
    List.forall_mem_append]
  constructor
  · intro hin
    obtain ⟨A, hA, hlink⟩ := hin
    obtain ⟨B, hB, hpre, hbold⟩ := (hbold _ _ c).mp ⟨A, rfl, hA⟩
    obtain ⟨hspan, hlen⟩ := mem_spans_iff.mp ⟨B, hB, hpre⟩
    obtain rfl := eq_of_mem_spans h hspan hlen
    exact ⟨hbold, hlink⟩
  · rintro ⟨huntouched, hlink⟩
    obtain ⟨B, hB, hpre⟩ := mem_spans_iff.mpr ⟨h, rfl⟩
    obtain ⟨A, rfl, hA⟩ := (hbold x _ c).mpr ⟨B, hB, hpre, huntouched⟩
    exact ⟨A, hA, hlink⟩

/-! ## Escaping -/

def escapeByte (b : UInt8) : GoString :=
  if b = 0x26 then utf8 "&amp;"
  else if b = 0x27 then utf8 "&#39;"
  else if b = 0x3C then utf8 "&lt;"
  else if b = 0x3E then utf8 "&gt;"
  else if b = 0x22 then utf8 "&#34;"
  else [b]

theorem escapeString_cons (b : UInt8) (s : GoString) :
    escapeString (b :: s) = escapeByte b ++ escapeString s := rfl

theorem escapeByte_of_plain {b : UInt8} (h : b ∉ utf8 "&'<>\"") : escapeByte b = [b] := by
  have hone := escapeString_of_plain (s := [b]) (List.forall_mem_singleton.mpr h)
  rwa [escapeString_cons, escapeString, List.flatMap_nil, List.append_nil] at hone

theorem escapeByte_ne_nil (b : UInt8) : escapeByte b ≠ [] := by
  by_cases hb : b ∈ utf8 "&'<>\""
  · have hall : ∀ b ∈ utf8 "&'<>\"", escapeByte b ≠ [] := by decide +kernel
    exact hall b hb
  · rw [escapeByte_of_plain hb]
    exact List.cons_ne_nil _ _

/-- A byte other than the quote of code spans. -/
abbrev NoQuote := { b : UInt8 // b ≠ 0x60 }

/-- A line in letters: its quotes, and marks for what escaping may change. -/
def plainLetters (t : GoString) : List (Letter NoQuote) :=
  t.map fun b => if h : b = 0x60 then .byte b else .mark ⟨b, h⟩

def rawByte (a : NoQuote) : GoString := [a.1]
def escaped (a : NoQuote) : GoString := escapeByte a.1

theorem quote_not_mem_escaped (a : NoQuote) : 0x60 ∉ escaped a := by
  by_cases ha : a.1 ∈ utf8 "&'<>\""
  · have hall : ∀ b ∈ utf8 "&'<>\"", 0x60 ∉ escapeByte b := by decide +kernel
    exact hall a.1 ha
  · rw [escaped, escapeByte_of_plain ha, List.mem_singleton]
    exact a.2.symm

theorem text_rawByte_plainLetters (t : GoString) : text rawByte (plainLetters t) = t := by
  induction t with
  | nil => rfl
  | cons b t ih =>
    rw [plainLetters, List.map_cons, ← plainLetters]
    split_ifs with h
    · rw [text_byte, ih]
    · rw [text_mark, ih]
      rfl

/-- Escaping letters is reading their marks escaped. -/
theorem escapeString_text {L : List (Letter NoQuote)} (hL : ∀ b, .byte b ∈ L → b = 0x60) :
    escapeString (text rawByte L) = text escaped L := by
  induction L with
  | nil => rfl
  | cons l L ih =>
    have htail := ih fun b hb => hL b (List.mem_cons_of_mem l hb)
    cases l with
    | byte b =>
      rw [text_byte, text_byte, escapeString_cons, htail, hL b List.mem_cons_self]
      rfl
    | mark a =>
      rw [text_mark, text_mark, rawByte, List.singleton_append, escapeString_cons, htail]
      rfl

/-- The spans of a line in letters. -/
def foundSpans {μ : Type} (Y : List (Letter μ)) :
    List (List (Letter μ) × Found μ) → List (List (Letter μ) × List (Letter μ))
  | [] => []
  | r :: M => (Y ++ r.1, r.2.group 1) :: foundSpans (Y ++ r.1 ++ r.2.text) M

theorem spansFrom_eq {μ : Type} {ρ : μ → GoString} {M : List (List (Letter μ) × Found μ)}
    {ms : List (GoString × Match)}
    (h : List.Forall₂ (fun r m => m.1 = text ρ r.1 ∧ r.2.Read ρ m.2) M ms) (Y : List (Letter μ)) :
    spansFrom (text ρ Y) ms = (foundSpans Y M).map fun p => (text ρ p.1, text ρ p.2) := by
  induction h generalizing Y with
  | nil => rfl
  | @cons r m M ms hm _ ih =>
    obtain ⟨pre, m⟩ := m
    obtain ⟨hpre, hread⟩ := hm
    have hpre : pre = text ρ r.1 := hpre
    have hbehind := ih (Y ++ r.1 ++ r.2.text)
    rw [text_append, text_append] at hbehind
    rw [spansFrom, foundSpans, List.map_cons, hpre, hread.text, hbehind, hread.group, text_append]

theorem mem_foundSpans {μ : Type} {S Y : List (Letter μ)} {M : List (List (Letter μ) × Found μ)}
    (hY : Y ⊆ S) (hM : ∀ r ∈ M, r.1 ⊆ S ∧ r.2.text ⊆ S ∧ r.2.group 1 ⊆ S) :
    ∀ p ∈ foundSpans Y M, p.1 ⊆ S ∧ p.2 ⊆ S := by
  induction M generalizing Y with
  | nil => exact fun p hp => absurd hp List.not_mem_nil
  | cons r M ih =>
    obtain ⟨⟨hpre, htext, hgroup⟩, hM⟩ := List.forall_mem_cons.mp hM
    have hbefore : Y ++ r.1 ⊆ S := List.append_subset.mpr ⟨hY, hpre⟩
    exact List.forall_mem_cons.mpr
      ⟨⟨hbefore, hgroup⟩, ih (List.append_subset.mpr ⟨hbefore, htext⟩) hM⟩

/-- The spans of an escaped line are the spans of the line, escaped. -/
theorem spans_escapeString (t : GoString) :
    spans (escapeString t) = (spans t).map fun p => (escapeString p.1, escapeString p.2) := by
  have hcode : codeRe = all [lit (utf8 "`"), group 1 (many1 (noneOf [0x60])), lit (utf8 "`")] := by
    rw [codeRe, show utf8 "`" = [0x60] by decide]
  have hreading : ∀ ρ, ρ = rawByte ∨ ρ = escaped → ∀ a, ρ a ≠ [] ∧ 0x60 ∉ ρ a := by
    intro ρ hρ a
    rcases hρ with rfl | rfl
    · exact ⟨List.cons_ne_nil _ _, fun h => a.2 (List.mem_singleton.mp h).symm⟩
    · exact ⟨escapeByte_ne_nil a.1, quote_not_mem_escaped a⟩
  have haligned := fun L => aligned_between (μ := NoQuote) (x := 0x60) (n := 0) (utf8 "`")
    (by decide) (fun ρ hρ a => (hreading ρ hρ a).1) (fun ρ hρ a => (hreading ρ hρ a).2) L
  rw [← hcode] at haligned
  obtain ⟨M, R, hM⟩ := exists_divides (fun ρ hρ a => (hreading ρ hρ a).1)
    (fun ρ hρ a x hx b s => matchAt_eq_none_of_head (y := 0x60)
      (fun u d h => by
        rw [hcode] at h
        obtain ⟨g, rfl, -⟩ := consumes_between.mp h
        rfl)
      fun hxy => (hreading ρ hρ a).2 (hxy ▸ hx)) haligned (plainLetters t)
  have hletters : ∀ b, Letter.byte b ∈ plainLetters t → b = 0x60 := by
    intro b hb
    obtain ⟨c, -, hc⟩ := List.mem_map.mp hb
    split_ifs at hc with h
    exact (Letter.byte.inj hc).symm.trans h
  have hspans : ∀ ρ, ρ = rawByte ∨ ρ = escaped → spans (text ρ (plainLetters t)) =
      (foundSpans [] M).map fun p => (text ρ p.1, text ρ p.2) := by
    intro ρ hρ
    obtain ⟨ms, hms, hall⟩ := hM.read ρ hρ _ none le_rfl
    rw [spans, hms]
    exact spansFrom_eq hall []
  have hsub : ∀ p ∈ foundSpans [] M, p.1 ⊆ plainLetters t ∧ p.2 ⊆ plainLetters t := by
    refine mem_foundSpans (List.nil_subset _) fun r hr => ?_
    have hin : r.1 ++ r.2.text ⊆ plainLetters t := by
      rw [hM.flat]
      exact fun l hl => List.mem_append_left R (List.mem_flatMap.mpr ⟨r, hr, hl⟩)
    have htext : ∀ l ∈ r.2.text, l ∈ plainLetters t :=
      fun l hl => hin (List.mem_append_right r.1 hl)
    refine ⟨fun l hl => hin (List.mem_append_left _ hl), htext, fun l hl => htext l ?_⟩
    obtain ⟨g, hg⟩ := hM.found r hr
    rw [hg] at hl ⊢
    exact List.mem_append_right _ (List.mem_append_left _ hl)
  have hraw := hspans rawByte (.inl rfl)
  have hescaped := hspans escaped (.inr rfl)
  rw [text_rawByte_plainLetters] at hraw
  rw [← escapeString_text hletters, text_rawByte_plainLetters] at hescaped
  rw [hescaped, hraw, List.map_map]
  refine List.map_congr_left fun p hp => ?_
  obtain ⟨hbefore, hgroup⟩ := hsub p hp
  show _ = (escapeString _, escapeString _)
  rw [escapeString_text fun b hb => hletters b (hbefore hb),
    escapeString_text fun b hb => hletters b (hgroup hb)]

/-! ## Lines -/

theorem heading_eq_none_of_list {l : GoString} (h : isMatch listRe l = true) :
    find headingRe l = none := by
  obtain ⟨b, s, rfl, hb⟩ := head_of_listRe h
  cases hheading : find headingRe (b :: s) with
  | none => rfl
  | some m =>
    obtain ⟨t, ht⟩ := head_of_headingRe (by rw [hheading]; rfl)
    rw [(List.cons.inj ht).1] at hb
    exact absurd hb (by decide)

theorem infix_heading (m : Match) : inline (escapeString (m.group 2)) <:+: heading m := by
  generalize hn : itoa (m.group 1).length = n
  refine ⟨utf8 "<h" ++ n ++ utf8 ">", utf8 "</h" ++ n ++ utf8 ">", ?_⟩
  rw [heading, hn]
  simp only [List.append_assoc]

theorem infix_listItem {l t : GoString} (h : isMatch listRe l = true) (ht : lineText l = some t) :
    inline (escapeString t) <:+: listItem l := by
  rw [lineText, heading_eq_none_of_list h] at ht
  dsimp only at ht
  rw [if_pos h] at ht
  rw [listItem, ht, Option.getD_some]
  exact List.infix_append _ _ _

/-- What is marked up of a line outside the fences is on the page. -/
theorem exists_mem_renderLines {n : Nat} {ls : List GoString} (hn : ls.length ≤ n) {l t : GoString}
    (hl : l ∈ outsideFences false ls) (ht : lineText l = some t) :
    ∃ o ∈ renderLines n ls, inline (escapeString t) <:+: o := by
  induction n generalizing ls with
  | zero =>
    obtain rfl := List.length_eq_zero_iff.mp (Nat.le_zero.mp hn)
    exact absurd hl List.not_mem_nil
  | succ n ih =>
    cases ls with
    | nil => exact absurd hl List.not_mem_nil
    | cons k ls =>
      rw [List.length_cons] at hn
      have hlater : ∀ {ks : List GoString} {os : List GoString}, ks.length ≤ n →
          renderLines n ks <:+ os → l ∈ outsideFences false ks →
          ∃ o ∈ os, inline (escapeString t) <:+: o := by
        intro ks os hks hos hl
        obtain ⟨o, ho, hin⟩ := ih hks hl
        exact ⟨o, hos.subset ho, hin⟩
      rw [renderLines]
      by_cases hfence : hasPrefix k fence = true
      · rw [if_pos hfence]
        rw [outsideFences, if_pos hfence, outsideFences_true] at hl
        exact hlater (by rw [List.length_drop]; omega) (List.suffix_cons _ _) hl
      rw [if_neg hfence]
      rw [outsideFences, if_neg hfence, List.mem_cons] at hl
      cases hheading : find headingRe k with
      | some m =>
        rcases hl with rfl | hl
        · rw [lineText, hheading] at ht
          obtain rfl := Option.some.inj ht
          exact ⟨_, List.mem_cons_self, infix_heading m⟩
        · exact hlater (by omega) (List.suffix_cons _ _) hl
      | none =>
        dsimp only
        split_ifs with hlist hblank hraw
        · have hsplit := takeWhile_append_drop (isMatch listRe) (k :: ls)
          have hitems : ∀ k' ∈ (k :: ls).takeWhile (isMatch listRe), hasPrefix k' fence = false :=
            fun _ hk => not_fence_of_listRe (List.mem_takeWhile_imp hk)
          have hlen : ((k :: ls).takeWhile (isMatch listRe)).length ≠ 0 := by
            rw [List.takeWhile_cons_of_pos hlist]
            exact Nat.succ_ne_zero _
          have hl : l ∈ outsideFences false (k :: ls) := by
            rw [outsideFences, if_neg hfence]
            exact List.mem_cons.mpr hl
          rw [← hsplit, outsideFences_append hitems] at hl
          rcases List.mem_append.mp hl with hl | hl
          · refine ⟨_, List.mem_cons_self, ?_⟩
            have hitem := infix_listItem (List.mem_takeWhile_imp hl) ht
            have hin : listItem l <:+:
                (((k :: ls).takeWhile (isMatch listRe)).map listItem).flatten :=
              List.infix_of_mem_flatten (List.mem_map_of_mem hl)
            exact hitem.trans (hin.trans (List.infix_append _ _ _))
          · refine hlater ?_ (List.suffix_cons _ _) hl
            rw [List.length_drop, List.length_cons]
            omega
        · rcases hl with rfl | hl
          · rw [lineText, hheading] at ht
            dsimp only at ht
            rw [if_neg hlist, if_pos (.inl hblank)] at ht
            cases ht
          · exact hlater (by omega) (List.suffix_refl _) hl
        · rcases hl with rfl | hl
          · rw [lineText, hheading] at ht
            dsimp only at ht
            rw [if_neg hlist, if_pos (.inr hraw)] at ht
            cases ht
          · exact hlater (by omega) (List.suffix_cons _ _) hl
        · rcases hl with rfl | hl
          · rw [lineText, hheading] at ht
            dsimp only at ht
            rw [if_neg hlist, if_neg (not_or.mpr ⟨hblank, hraw⟩)] at ht
            obtain rfl := Option.some.inj ht
            exact ⟨_, List.mem_cons_self, List.infix_append _ _ _⟩
          · exact hlater (by omega) (List.suffix_cons _ _) hl

theorem inline_infix_renderMarkdown {src l t : GoString}
    (hl : l ∈ outsideFences false (segments src)) (ht : lineText l = some t) :
    inline (escapeString t) <:+: renderMarkdown src := by
  obtain ⟨o, ho, hin⟩ := exists_mem_renderLines (n := (segments src).length) le_rfl hl ht
  exact hin.trans (infix_join_of_mem _ ho)

theorem shown_iff {t : GoString} {p : GoString × GoString} (hp : p ∈ spans t) :
    Shown t p ↔ SpanKept t p := by
  have htext : escapeString (codeText p.2) = codeText (escapeString p.2) := by
    rw [codeText, escapeString_append, escapeString_append]
    rfl
  have hspan : (escapeString p.1, escapeString p.2) ∈ spans (escapeString t) := by
    rw [spans_escapeString]
    exact List.mem_map_of_mem hp
  rw [Shown, SpanKept, htext, infix_inlineLetters_iff hspan]

theorem Shown.infix_inline {t : GoString} {p : GoString × GoString} (h : Shown t p) :
    codeElement (escapeString p.2) <:+: inline (escapeString t) := by
  obtain ⟨U, V, hUV⟩ := h
  rw [← text_inlineLetters, ← hUV, text_append, text_append, text_rendered_code]
  exact List.infix_append _ _ _

/-- Of every line that is marked up, the line's HTML is on the page, and a code span is in it
as it is written exactly where no match of bold text or of a link has a delimiter in the
span. -/
theorem shown_iff_spanKept (src : GoString) {l t : GoString}
    (hl : l ∈ outsideFences false (segments src)) (ht : lineText l = some t) :
    inline (escapeString t) <:+: renderMarkdown src ∧
      text Mark.rendered (inlineLetters (escapeString t)) = inline (escapeString t) ∧
      ∀ p ∈ spans t, (Shown t p ↔ SpanKept t p) ∧
        (Shown t p → codeElement (escapeString p.2) <:+: renderMarkdown src) := by
  have hpage := inline_infix_renderMarkdown hl ht
  exact ⟨hpage, text_inlineLetters _, fun p hp =>
    ⟨shown_iff hp, fun hshown => hshown.infix_inline.trans hpage⟩⟩

/-- A span beside bold text, in a link. -/
def keptSpanText : GoString := utf8 "**a** [run `b*c`](/d)\x7b:id=\"e\"\x7d"

theorem shown_keptSpanText :
    Shown keptSpanText (utf8 "**a** [run ", utf8 "b*c") ∧
      codeElement (utf8 "b*c") <:+: renderMarkdown keptSpanText := by
  obtain ⟨-, -, hspans⟩ := shown_iff_spanKept keptSpanText (l := keptSpanText)
    (t := keptSpanText) (by decide +kernel) (by decide +kernel)
  obtain ⟨hiff, hpage⟩ := hspans (utf8 "**a** [run ", utf8 "b*c") (by decide +kernel)
  have hshown := hiff.mpr (by decide +kernel)
  exact ⟨hshown, hpage hshown⟩

/-- A link to a demo pieced together from two spans, each beside a span with its content. -/
example :
    let t := utf8 "`](/)\x7b:id=\"exerciseDemo\"\x7d` `[x` `](/)\x7b:id=\"exerciseDemo\"\x7d` `[x`"
    (spans t).map (fun p => decide (SpanKept t p)) = [true, false, false, true] ∧
      demoLinks (renderMarkdown t) =
        [utf8 "<a href=\"/\" id=\"exerciseDemo\">"] := by
  decide +kernel

/-- A span with a link to a demo, and one with bold text. -/
def rewrittenSpanText : GoString := utf8 "`[x](/)\x7b:id=\"exerciseDemo\"\x7d` `**y**`"

theorem not_codeElement_infix :
    rewrittenSpanText ∈ outsideFences false (segments rewrittenSpanText) ∧
    lineText rewrittenSpanText = some rewrittenSpanText ∧
    (spans rewrittenSpanText).map Prod.snd =
      [utf8 "[x](/)\x7b:id=\"exerciseDemo\"\x7d", utf8 "**y**"] ∧
    (∀ p ∈ spans rewrittenSpanText,
      ¬ codeElement (escapeString p.2) <:+: renderMarkdown rewrittenSpanText) ∧
    demoLinks (renderMarkdown rewrittenSpanText) = [utf8 "<a href=\"/\" id=\"exerciseDemo\">"] := by
  decide +kernel

end TrainingPlatform.Content
