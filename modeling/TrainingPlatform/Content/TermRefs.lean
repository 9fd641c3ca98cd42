import TrainingPlatform.Content.Dom
import TrainingPlatform.Content.Page
import TrainingPlatform.Content.SamePage
import TrainingPlatform.Go.Matching

/-!
# References to terminals

The build looks for references to terminals the lesson does not have; the page takes the
digits out of whatever reference an element has.  The two agree on the references the build
finds.
-/

namespace TrainingPlatform.Content

open Go Go.Re

/-! ## The page -/

def Element.termRef (e : Element) : Option GoString := e.attr (utf8 "data-term")

/-- An exposed-port link, `a[data-port]`. -/
def Element.isPortLink (e : Element) : Bool :=
  e.name = utf8 "a" && (e.attr (utf8 "data-port")).isSome

/-- A click-to-run block, `pre.term-code`. -/
def Element.isTermCode (e : Element) : Bool :=
  e.name = utf8 "pre" && e.hasClass (utf8 "term-code")

/-- The elements the page resolves to a node. -/
def termElements (es : List Element) : List Element :=
  es.filter fun e => e.isPortLink || e.isTermCode

def refNumber (ref : GoString) : Int := decimalValue (ref.filter isDecimal)

/-- `nodeFromTermRef`: the node's index, 1 for no digits and for zero. -/
def nodeFromTermRef (ref : Option GoString) : Int :=
  let n := refNumber (ref.getD [])
  if n = 0 then 1 else n

/-- Every element of the page that names a node names one of the lesson's. -/
def TermsResolve (parse : HtmlParser) (terms : Int) (html : GoString) : Prop :=
  ∀ e ∈ termElements (parse html),
    1 ≤ nodeFromTermRef e.termRef ∧ nodeFromTermRef e.termRef ≤ terms

/-! ## The build -/

/-- A number, `termN` or `.termN`. -/
def isTermRef (ref : GoString) : Bool :=
  let digits := if hasPrefix ref (utf8 ".term") then ref.drop 5
    else if hasPrefix ref (utf8 "term") then ref.drop 4 else ref
  digits ≠ [] && digits.all isDecimal

def termAttr (ref : GoString) : GoString := utf8 "data-term=\"" ++ (ref ++ utf8 "\"")

/-- The build finds the reference on the page it checks. -/
def TermChecked (page ref : GoString) : Prop := isTermRef ref = true ∧ termAttr ref <:+: page

/-- What the page resolves is in range: there is a terminal if anything needs one, and no
reference that the build does not find has too large a number. -/
structure TermsCovered (parse : HtmlParser) (terms : Int) (page html : GoString) : Prop where
  terminal : termElements (parse html) ≠ [] → 1 ≤ terms
  number : ∀ e ∈ termElements (parse html), ∀ ref, e.termRef = some ref →
    ¬ TermChecked page ref → refNumber ref ≤ terms

/-! ## Spelled references -/

/-- What the expression for references captures. -/
theorem consumes_termRefRe {u : GoString} {d : Caps} :
    Consumes termRefRe u d ↔ ∃ word digits, (word = [] ∨ word = utf8 "term" ∨ word = utf8 ".term") ∧
      (digits ≠ [] ∧ ∀ b ∈ digits, isDecimal b = true) ∧ u = termAttr (word ++ digits) ∧
        d = [(1, digits)] := by
  have hword : ∀ {v c}, Consumes (opt (all [opt (lit (utf8 ".")), lit (utf8 "term")])) v c ↔
      (v = [] ∨ v = utf8 "term" ∨ v = utf8 ".term") ∧ c = [] := by
    intro v c
    rw [consumes_opt]
    constructor
    · rintro (h | ⟨rfl, rfl⟩)
      · obtain ⟨x, w, c₁, c₂, hdot, hterm, rfl, rfl⟩ := consumes_all_cons.mp h
        obtain ⟨rfl, rfl⟩ := consumes_lit.mp (consumes_all_singleton.mp hterm)
        rcases consumes_opt.mp hdot with hdot | ⟨rfl, rfl⟩
        · obtain ⟨rfl, rfl⟩ := consumes_lit.mp hdot
          exact ⟨.inr (.inr (by decide)), rfl⟩
        · exact ⟨.inr (.inl rfl), rfl⟩
      · exact ⟨.inl rfl, rfl⟩
    · rintro ⟨rfl | rfl | rfl, rfl⟩
      · exact .inr ⟨rfl, rfl⟩
      · exact .inl (consumes_all_cons.mpr ⟨[], _, [], [], consumes_opt.mpr (.inr ⟨rfl, rfl⟩),
          consumes_all_singleton.mpr (consumes_lit.mpr ⟨rfl, rfl⟩), rfl, rfl⟩)
      · exact .inl (consumes_all_cons.mpr ⟨utf8 ".", utf8 "term", [], [],
          consumes_opt.mpr (.inl (consumes_lit.mpr ⟨rfl, rfl⟩)),
          consumes_all_singleton.mpr (consumes_lit.mpr ⟨rfl, rfl⟩), by decide, rfl⟩)
  rw [termRefRe, consumes_all_cons_of_plain consumes_lit]
  simp only [consumes_all_cons_of_plain hword]
  constructor
  · rintro ⟨_, _, rfl, ⟨word, _, hw, h, rfl⟩, rfl⟩
    obtain ⟨_, _, _, _, hgroup, hquote, rfl, rfl⟩ := consumes_all_cons.mp h
    obtain ⟨_, hdigits, rfl⟩ := consumes_group.mp hgroup
    obtain ⟨hne, hall, rfl⟩ := consumes_many1_set.mp hdigits
    obtain ⟨rfl, rfl⟩ := consumes_lit.mp (consumes_all_singleton.mp hquote)
    exact ⟨word, _, hw, ⟨hne, hall⟩, by simp [termAttr], rfl⟩
  · rintro ⟨word, digits, hw, ⟨hne, hall⟩, rfl, rfl⟩
    refine ⟨_, word ++ (digits ++ utf8 "\""), rfl, ⟨word, _, hw, ?_, rfl⟩, by simp [termAttr]⟩
    exact consumes_all_cons.mpr ⟨digits, utf8 "\"", _, [],
      consumes_group.mpr ⟨[], consumes_many1_set.mpr ⟨hne, hall, rfl⟩, rfl⟩,
      consumes_all_singleton.mpr (consumes_lit.mpr ⟨rfl, rfl⟩), rfl, rfl⟩

theorem exists_digits_of_isTermRef {ref : GoString} (h : isTermRef ref = true) :
    ∃ word digits, (word = [] ∨ word = utf8 "term" ∨ word = utf8 ".term") ∧
      (digits ≠ [] ∧ ∀ b ∈ digits, isDecimal b = true) ∧ ref = word ++ digits := by
  unfold isTermRef at h
  dsimp only at h
  rw [Bool.and_eq_true, decide_eq_true_eq, List.all_eq_true] at h
  split_ifs at h with hdot hterm
  · obtain ⟨digits, rfl⟩ := List.isPrefixOf_iff_prefix.mp hdot
    exact ⟨_, digits, .inr (.inr rfl), h, rfl⟩
  · obtain ⟨digits, rfl⟩ := List.isPrefixOf_iff_prefix.mp hterm
    exact ⟨_, digits, .inr (.inl rfl), h, rfl⟩
  · exact ⟨[], ref, .inl rfl, h, rfl⟩

section Spelled

variable {word digits : GoString} (hw : word = [] ∨ word = utf8 "term" ∨ word = utf8 ".term")
  (hd : ∀ b ∈ digits, isDecimal b = true)
include hw hd

theorem quote_not_mem_ref : 0x22 ∉ word ++ digits := by
  rw [List.mem_append, not_or]
  constructor
  · rcases hw with rfl | rfl | rfl <;> decide
  · exact fun h => absurd (hd _ h) (by decide)

/-- The page takes the digits out of a spelled reference. -/
theorem filter_ref : (word ++ digits).filter isDecimal = digits := by
  have hnone : word.filter isDecimal = [] := by
    rcases hw with rfl | rfl | rfl <;> decide
  rw [List.filter_append, hnone, List.nil_append, List.filter_eq_self.mpr hd]

end Spelled

/-- A match starts with a byte that stands nowhere else in it. -/
theorem head_termRefRe {u : GoString} {d : Caps} (h : Consumes termRefRe u d) :
    u.head? = some 0x64 ∧ 0x64 ∉ u.tail := by
  obtain ⟨word, digits, hw, ⟨-, hd⟩, rfl, -⟩ := consumes_termRefRe.mp h
  refine ⟨rfl, ?_⟩
  have htail : (termAttr (word ++ digits)).tail =
      utf8 "ata-term=\"" ++ (word ++ (digits ++ utf8 "\"")) := by
    rw [termAttr, List.append_assoc]
    rfl
  rw [htail]
  simp only [List.mem_append, not_or]
  refine ⟨by decide, ?_, fun hin => absurd (hd _ hin) (by decide), by decide⟩
  rcases hw with rfl | rfl | rfl <;> decide

theorem plain_termRefRe : Plain termRefRe := by
  repeat constructor

/-- The check has seen every spelled reference on the page. -/
theorem refNumber_le_of_checked {page ref : GoString} {terms : Int} (hterms : terms ≤ maxTerminals)
    (h : checkTermRefs page terms = .ok ()) (hchecked : TermChecked page ref) :
    refNumber ref ≤ terms := by
  obtain ⟨word, digits, hw, ⟨hne, hd⟩, rfl⟩ := exists_digits_of_isTermRef hchecked.1
  obtain ⟨m, hm, hpre⟩ := exists_mem_findAll_of_infix plain_termRefRe (fun _ _ => head_termRefRe)
    (consumes_termRefRe.mpr ⟨word, digits, hw, ⟨hne, hd⟩, rfl, rfl⟩) hchecked.2
  obtain ⟨word', digits', hw', ⟨hne', hd'⟩, htext, hcaps⟩ :=
    consumes_termRefRe.mp (mem_findAll hm).1
  -- Both references end at the first quote behind the name of the attribute.
  have hsame : word ++ digits = word' ++ digits' := by
    obtain ⟨r, hr⟩ := hpre
    rw [htext, termAttr, termAttr, List.append_assoc, List.append_assoc _ _ m.after.rest,
      List.append_right_inj, List.append_assoc, List.append_assoc _ _ m.after.rest] at hr
    exact (eq_of_append_cons_eq (quote_not_mem_ref hw hd) (quote_not_mem_ref hw' hd') hr).1
  have hgroup : m.group 1 = digits := by
    have hdigits : digits' = digits := by
      rw [← filter_ref hw' hd', ← hsame, filter_ref hw hd]
    rw [Match.group, hcaps, hdigits]
    rfl
  have hle : (atoi digits).1 ≤ terms := by
    unfold checkTermRefs at h
    cases hfind : (findAll termRefRe page).find? fun m => terms < (atoi (m.group 1)).1 with
    | some m' =>
      rw [hfind] at h
      dsimp only at h
      split_ifs at h
    | none =>
      have hnone := List.find?_eq_none.mp hfind m hm
      rw [decide_eq_true_eq, hgroup] at hnone
      omega
  rw [refNumber, filter_ref hw hd]
  rw [atoi_of_digits hne hd] at hle
  unfold maxTerminals at hterms
  split_ifs at hle with hbig
  · dsimp only at hle
    omega
  · exact hle

/-! ## A lesson -/

theorem nodeFromTermRef_le_iff {ref : Option GoString} {terms : Int} (hterms : 1 ≤ terms) :
    nodeFromTermRef ref ≤ terms ↔ refNumber (ref.getD []) ≤ terms := by
  unfold nodeFromTermRef
  dsimp only
  split_ifs with hzero
  · rw [hzero]
    omega
  · rfl

theorem one_le_nodeFromTermRef (ref : Option GoString) : 1 ≤ nodeFromTermRef ref := by
  unfold nodeFromTermRef
  dsimp only
  have hpos : 0 ≤ refNumber (ref.getD []) := decimalValue_nonneg fun b hb => (List.mem_filter.mp hb).2
  split_ifs <;> omega

theorem terminals_le {fm : FrontMatter} (h : fm.validateTerminals = .ok ()) :
    fm.terminals ≤ maxTerminals := by
  unfold FrontMatter.validateTerminals at h
  dsimp only at h
  split_ifs at h with hrange
  rw [not_or, not_lt, not_lt] at hrange
  exact hrange.2

variable {env : Env} {resolver : Resolver} {slug src salt : GoString} {l : Lesson}

/-- Every reference on the page of a lesson resolves to one of its terminals exactly when
those the build cannot find do, and a lesson without terminals has none. -/
theorem termsResolve_iff_covered (parse : HtmlParser)
    (h : render env slug src salt resolver = .ok l) :
    TermsResolve parse l.frontMatter.terminals l.html ↔
      TermsCovered parse l.frontMatter.terminals (demoPage env slug src salt).1 l.html := by
  have hpage := render_page h
  constructor
  · intro hresolve
    have hterminal : ∀ e ∈ termElements (parse l.html), 1 ≤ l.frontMatter.terminals :=
      fun e he => (hresolve e he).1.trans (hresolve e he).2
    refine ⟨fun hne => ?_, fun e he ref href _ => ?_⟩
    · obtain ⟨e, he⟩ := List.exists_mem_of_ne_nil _ hne
      exact hterminal e he
    · have hnode := (nodeFromTermRef_le_iff (hterminal e he)).mp (hresolve e he).2
      rwa [href] at hnode
  · intro hcovered e he
    have hterminal := hcovered.terminal (List.ne_nil_of_mem he)
    refine ⟨one_le_nodeFromTermRef _, (nodeFromTermRef_le_iff hterminal).mpr ?_⟩
    cases href : e.termRef with
    | none => exact (show (0 : Int) ≤ 1 by decide).trans hterminal
    | some ref =>
      by_cases hchecked : TermChecked (demoPage env slug src salt).1 ref
      · exact refNumber_le_of_checked (terminals_le hpage.terminals) hpage.refs hchecked
      · exact hcovered.number e he ref href hchecked

/-- A lesson of one terminal and one link to a port. -/
def linkLesson (ref : String) : GoString :=
  utf8 "[server](/)\x7b:data-term=\"" ++ utf8 ref ++ utf8 "\"\x7d\x7b:data-port=\"80\"\x7d\n"

theorem termsResolve_linkLesson : ∃ l,
    render dockerEnv (utf8 "link") (linkLesson ".term1") (utf8 "demo-salt") none = .ok l ∧
      (termElements (startTags l.html)).map Element.termRef = [some (utf8 ".term1")] ∧
      TermsResolve startTags l.frontMatter.terminals l.html := by
  have hrender : ∃ l, render dockerEnv (utf8 "link") (linkLesson ".term1") (utf8 "demo-salt") none =
      .ok l ∧ ((termElements (startTags l.html)).map Element.termRef, l.frontMatter.terminals) =
        ([some (utf8 ".term1")], 1) := ok_of_toOption (by decide +kernel)
  obtain ⟨l, hl, hpair⟩ := hrender
  obtain ⟨hrefs, hterminals⟩ := Prod.mk.inj hpair
  refine ⟨l, hl, hrefs, (termsResolve_iff_covered startTags hl).mpr ⟨fun _ => ?_, ?_⟩⟩
  · rw [hterminals]
  · intro e he ref href _
    have hmem : e.termRef ∈ [some (utf8 ".term1")] := hrefs ▸ List.mem_map_of_mem he
    rw [href, List.mem_singleton, Option.some.injEq] at hmem
    rw [hmem, hterminals]
    decide +kernel

/-- A link to node9 renders, and the page looks for its ninth node. -/
theorem not_termsResolve_node9 : ∃ l,
    render dockerEnv (utf8 "link") (linkLesson "node9") (utf8 "demo-salt") none = .ok l ∧
      ¬ TermsResolve startTags l.frontMatter.terminals l.html := by
  have hrender : ∃ l, render dockerEnv (utf8 "link") (linkLesson "node9") (utf8 "demo-salt") none =
      .ok l ∧ ((termElements (startTags l.html)).map fun e => nodeFromTermRef e.termRef,
        l.frontMatter.terminals) = ([9], 1) := ok_of_toOption (by decide +kernel)
  obtain ⟨l, hl, hpair⟩ := hrender
  rw [Prod.mk.injEq] at hpair
  refine ⟨l, hl, fun hresolve => ?_⟩
  obtain ⟨e, he, hnode⟩ := List.mem_map.mp (hpair.1 ▸ List.mem_singleton_self (9 : Int))
  have hle := (hresolve e he).2
  rw [hnode, hpair.2] at hle
  exact absurd hle (by decide)

end TrainingPlatform.Content
