import TrainingPlatform.Content.Placed

/-!
# Demo links on a page

What pairing the demo links and marking the checked buttons does to a page: every value of
a button comes from a tag of the page, and the blocks and patterns of the page stay.
-/

namespace TrainingPlatform.Content

open Go Go.Re Scoring

/-- The tags `pairDemoLinks` takes for authored demo links. -/
def demoLinks (html : GoString) : List GoString :=
  ((findAll anchorTagRe html).map Match.text).filter isDemoLink

/-! ## The routing of a tag -/

def DemoRouting.values (r : DemoRouting) : List GoString :=
  [r.port, r.path, r.term, r.hostPrefix, r.proto]

/-- What the expression for an attribute captures. -/
theorem consumes_attrValRe {u : GoString} {d : Caps} (h : Consumes attrValRe u d) :
    ∃ n v, u = n ++ (utf8 "=\"" ++ (v ++ utf8 "\"")) ∧
      (n ≠ [] ∧ ∀ b ∈ n, (letter b || b = 0x2D) = true) ∧ 0x22 ∉ v ∧ d = [(2, v), (1, n)] := by
  obtain ⟨_, _, rfl, h₁, rfl⟩ := (consumes_all_cons_of_plain consumes_wordBoundary).mp h
  obtain ⟨n, _, _, _, hname, h₂, rfl, rfl⟩ := consumes_all_cons.mp h₁
  obtain ⟨_, hn, rfl⟩ := consumes_group.mp hname
  obtain ⟨hne, hall, rfl⟩ := consumes_many1_set.mp hn
  obtain ⟨_, _, rfl, h₃, rfl⟩ := (consumes_all_cons_of_plain consumes_lit).mp h₂
  obtain ⟨v, _, _, _, hvalue, h₄, rfl, rfl⟩ := consumes_all_cons.mp h₃
  obtain ⟨_, hv, rfl⟩ := consumes_group.mp hvalue
  obtain ⟨hquote, rfl⟩ := consumes_many_set.mp hv
  obtain ⟨rfl, rfl⟩ := consumes_lit.mp (consumes_all_singleton.mp h₄)
  refine ⟨n, v, rfl, ⟨hne, hall⟩, fun hmem => ?_, rfl⟩
  exact absurd (of_decide_eq_true (hquote _ hmem)) (by decide)

/-- The value of an attribute is part of the tag and holds no quote. -/
theorem tagAttr_spec (tag name : GoString) :
    tagAttr tag name <:+: tag ∧ 0x22 ∉ tagAttr tag name := by
  rw [tagAttr]
  cases hfind : (findAll attrValRe tag).reverse.find? fun m => m.group 1 = name with
  | none => exact ⟨List.nil_infix, List.not_mem_nil⟩
  | some m =>
    obtain ⟨hm, hin⟩ := mem_findAll (List.mem_reverse.mp (List.mem_of_find?_eq_some hfind))
    refine ⟨(group_isInfix hm 2).trans hin, ?_⟩
    obtain ⟨n, v, -, -, hquote, hcaps⟩ := consumes_attrValRe hm
    have hgroup : m.group 2 = v := by
      rw [Match.group, hcaps]
      rfl
    rw [Option.map_some, Option.getD_some, hgroup]
    exact hquote

/-- The values a tag or the built-in button gives. -/
theorem mem_values_demoRoutingOf {tag v : GoString} (h : v ∈ (demoRoutingOf tag).values) :
    0x22 ∉ v ∧ (v <:+: tag ∨ v ∈ defaultDemoRouting.values) := by
  have hdefault : ∀ v ∈ defaultDemoRouting.values, 0x22 ∉ v := by decide
  have hattr : ∀ name, 0x22 ∉ tagAttr tag name ∧
      (tagAttr tag name <:+: tag ∨ tagAttr tag name ∈ defaultDemoRouting.values) :=
    fun name => ⟨(tagAttr_spec tag name).2, .inl (tagAttr_spec tag name).1⟩
  have hor : ∀ name, ∀ d ∈ defaultDemoRouting.values, 0x22 ∉ orDefault (tagAttr tag name) d ∧
      (orDefault (tagAttr tag name) d <:+: tag ∨
        orDefault (tagAttr tag name) d ∈ defaultDemoRouting.values) := by
    intro name d hd
    rw [orDefault]
    split_ifs
    · exact hattr name
    · exact ⟨hdefault d hd, .inr hd⟩
  simp only [DemoRouting.values, List.mem_cons, List.not_mem_nil, or_false] at h
  rcases h with rfl | rfl | rfl | rfl | rfl
  · exact hor _ _ (by decide)
  · rw [demoRoutingOf]
    dsimp only
    split_ifs
    · exact hattr _
    · exact ⟨by decide, .inr (by decide)⟩
  · exact hor _ _ (by decide)
  · exact hattr _
  · exact hattr _

/-! ## Buttons -/

/-- What opens a div with a class, and the first byte of its class. -/
def classOpen (c : UInt8) : GoString := utf8 "<div class=" ++ [0x22, c]

theorem classOpen_eq (c : UInt8) : classOpen c = 0x3C :: 0x64 :: (utf8 "iv class=" ++ [0x22, c]) :=
  rfl

/-- A pattern with a value in quotes that is no attribute's lies behind the attributes, since
behind the value of an attribute there is a blank. -/
theorem infix_of_attrs {p r : GoString} {c : UInt8} (hp : 0x22 ∉ p) (hc : c ≠ 0x20)
    {as : List (GoString × GoString)} {rest : GoString}
    (has : ∀ a ∈ as, 0x22 ∉ a.1 ∧ 0x22 ∉ a.2 ∧
      ∀ s, ¬ (p <:+ 0x20 :: (a.1 ++ [0x3D]) ∧ c :: r <+: a.2 ++ 0x22 :: s))
    (h : p ++ 0x22 :: c :: r <:+: as.flatMap attrText ++ 0x20 :: rest) :
    p ++ 0x22 :: c :: r <:+: 0x20 :: rest := by
  induction as with
  | nil => exact h
  | cons a as ih =>
    obtain ⟨⟨hname, hvalue, hother⟩, has⟩ := List.forall_mem_cons.mp has
    refine ih has ?_
    have hnext : ∃ s, as.flatMap attrText ++ 0x20 :: rest = 0x20 :: s := by
      cases as with
      | nil => exact ⟨rest, rfl⟩
      | cons b as =>
        rw [List.flatMap_cons, attrText, List.cons_append, List.cons_append]
        exact ⟨_, rfl⟩
    obtain ⟨s, hs⟩ := hnext
    have hquote : 0x22 ∉ 0x20 :: (a.1 ++ [0x3D]) := by simp [hname]
    have htext : attrText a ++ 0x20 :: s =
        (0x20 :: (a.1 ++ [0x3D])) ++ 0x22 :: (a.2 ++ 0x22 :: 0x20 :: s) := by simp [attrText]
    rw [List.flatMap_cons, List.append_assoc, hs, htext] at h
    rw [hs]
    have hbehind := infix_of_not_aligned hp hquote (hother _) h
    exact infix_of_infix_append_cons hp hvalue (.inl hc.symm) hbehind

/-- Nothing in a button opens a div with a class, whatever its routing. -/
theorem not_infix_demoButton {c : UInt8} (hc : c ≠ 0x20) {chHash : GoString} (hh : 0x22 ∉ chHash)
    {r : DemoRouting} (hr : ∀ v ∈ r.values, 0x22 ∉ v) :
    ¬ classOpen c <:+: demoButton chHash r := by
  intro h
  have htail : utf8 " href=\"#\">Test Exercise</a>" =
      0x20 :: utf8 "href=\"#\">Test Exercise</a>" := by decide
  have hopen : utf8 "<a class=\"exercise-demo\"" =
      0x3C :: 0x61 :: utf8 " class=\"exercise-demo\"" := by decide
  rw [demoButton_eq, htail, hopen, classOpen_eq, List.cons_append, List.infix_cons_iff] at h
  rcases h with h | h
  · exact absurd (List.cons_prefix_cons.mp (List.cons_prefix_cons.mp h).2).1 (by decide)
  · have hattrs := infix_append_of_head_not_mem (by decide) h
    rw [← classOpen_eq] at hattrs
    have hrest := infix_of_attrs (p := utf8 "<div class=") (r := []) (by decide) hc
      (fun a ha => ?_) hattrs
    · have hpair : [0x3C, 0x64] <:+: classOpen c := ⟨[], utf8 "iv class=" ++ [0x22, c], rfl⟩
      exact absurd (hpair.trans hrest) (by decide)
    · obtain ⟨hname, hvalue⟩ := mem_demoAttrs ha
      have hnames : ∀ n ∈ demoAttrNames, 0x22 ∉ n ∧
          ¬ utf8 "<div class=" <:+ 0x20 :: (n ++ [0x3D]) := by decide
      refine ⟨(hnames _ hname).1, ?_, fun s hs => (hnames _ hname).2 hs.1⟩
      rcases hvalue with hvalue | hvalue
      · rwa [hvalue]
      · exact hr _ hvalue

/-- A button shows no block. -/
theorem divChallenges_demoButton {chHash : GoString} (hh : 0x22 ∉ chHash) {r : DemoRouting}
    (hr : ∀ v ∈ r.values, 0x22 ∉ v) : divChallenges (demoButton chHash r) = [] := by
  have hword : ∀ c word, (word = quizWord ∨ word = exerciseWord) → c ≠ 0x20 →
      classOpen c <:+: divOpen word → scan (readDiv word) (demoButton chHash r) = [] := by
    intro c word hw hc hclass
    refine scan_eq_nil (reads_div word) fun t a ht hin => not_infix_demoButton hc hh hr ?_
    rw [ht.1] at hin
    exact hclass.trans (List.infix_append_left.trans hin)
  rw [divChallenges, hword 0x71 quizWord (.inl rfl) (by decide) (by decide),
    hword 0x65 exerciseWord (.inr rfl) (by decide) (by decide), List.append_nil]

/-! ## Pairing -/

/-- What every button that is put in keeps holds of the page with the buttons. -/
theorem pairTags_induction {I : GoString → Prop} {tags hashes : List GoString} {out : GoString}
    (hstep : ∀ tag ∈ tags, ∀ h ∈ hashes, ∀ s, I s →
      I (replaceFirst (autoDemoAnchor h) (demoButton h (demoRoutingOf tag)) s))
    (hout : I out) : I (pairTags tags hashes out).1 := by
  induction tags generalizing hashes out with
  | nil => exact hout
  | cons tag tags ih =>
    obtain ⟨htag, htags⟩ := List.forall_mem_cons.mp hstep
    cases hashes with
    | nil => exact hout
    | cons h hashes =>
      rw [pairTags]
      split_ifs
      · exact ih (fun t ht k hk => htags t ht k (List.mem_cons_of_mem h hk))
          (htag h List.mem_cons_self out hout)
      · exact ih htags hout

theorem divChallenges_replaceFirst {old new : GoString} (hold : Tagged old) (hnew : Tagged new)
    (hsame : divChallenges new = divChallenges old) (s : GoString) :
    (divChallenges (replaceFirst old new s)).Perm (divChallenges s) := by
  by_cases hin : old <:+: s
  · obtain ⟨u, v, hs, hr⟩ := replaceFirst_of_infix new hold.ne_nil hin
    rw [hr, hs]
    refine (divChallenges_tagged hnew u v).trans ?_
    rw [hsame]
    exact (divChallenges_tagged hold u v).symm
  · rw [replaceFirst_of_not_isInfix new hin]

theorem quote_not_mem_hex (sha : Sha256) (key : GoString) : 0x22 ∉ sha.hex key :=
  fun h => absurd (sha.digits key _ h) (by decide)

section Pairing

variable {sha : Sha256} {html : GoString} {hashes : List GoString}
  (hhashes : ∀ h ∈ hashes, ∃ key, h = sha.hex key)
include hhashes

/-- The page with the buttons shows the same blocks. -/
theorem divChallenges_pairDemoLinks :
    (divChallenges (pairDemoLinks html hashes).1).Perm (divChallenges html) := by
  refine pairTags_induction (I := fun s => (divChallenges s).Perm (divChallenges html))
    (fun tag _ h hh s hs => ?_) (.refl _)
  obtain ⟨key, rfl⟩ := hhashes h hh
  refine (divChallenges_replaceFirst (tagged_demoButton _ _) (tagged_demoButton _ _) ?_ s).trans hs
  rw [divChallenges_demoButton (quote_not_mem_hex sha key) fun v hv =>
    (mem_values_demoRoutingOf hv).1]
  exact (divChallenges_demoButton (quote_not_mem_hex sha key) (by decide)).symm

/-- A pattern on the page with the buttons is one of the page. -/
theorem Foreign.of_pairDemoLinks {P : GoString} (hP : Foreign buttonStarts P)
    (h : P <:+: (pairDemoLinks html hashes).1) : P <:+: html := by
  refine pairTags_induction (I := fun s => P <:+: s → P <:+: html)
    (fun tag htag h hh s hs hin => ?_) id h
  obtain ⟨key, rfl⟩ := hhashes h hh
  obtain ⟨m, hm, rfl⟩ := List.mem_map.mp htag
  by_cases hauto : autoDemoAnchor (sha.hex key) <:+: s
  · obtain ⟨u, v, hs', hr⟩ := replaceFirst_of_infix _ (autoDemoAnchor_ne_nil _) hauto
    rw [hr, hP.append_tagged_iff (tagged_demoButton _ _)] at hin
    rcases hin with hin | hin | hin
    · exact hs (hs' ▸ hin.trans List.infix_append_left)
    · obtain ⟨w, hw, hPw⟩ := hP.of_demoButton (isMarkup_hex sha (List.Subset.refl _)) hin
      rcases (mem_values_demoRoutingOf hw).2 with hw | hw
      · exact hPw.trans (hw.trans (mem_findAll hm).2)
      · have hplain : ∀ v ∈ defaultDemoRouting.values, isMarkup buttonStarts v = true := by decide
        exact absurd hPw (hP.not_infix_markup (hplain w hw))
    · exact hs (hs' ▸ hin.trans (List.infix_append_right.trans List.infix_append_right))
  · rw [replaceFirst_of_not_isInfix _ hauto] at hin
    exact hs hin

end Pairing

/-! ## Checked buttons -/

def verifyMark (h : GoString) : GoString := utf8 "data-hash-code=\"" ++ h ++ utf8 "\""
def verifyAttr : GoString := utf8 " data-verify=\"1\""

theorem verifyMark_ne_nil (h : GoString) : verifyMark h ≠ [] :=
  List.append_ne_nil_of_right_ne_nil _ (by decide)

theorem not_mem_verifyMark {c : UInt8}
    (hc : isLowerHex c = false ∧ c ∉ utf8 "data-hash-code=\"") (sha : Sha256) (key : GoString) :
    c ∉ verifyMark (sha.hex key) := by
  have hquote : c ∉ utf8 "\"" := fun h => hc.2 (List.mem_append_right (utf8 "data-hash-code=") h)
  rw [verifyMark, List.mem_append, List.mem_append, not_or, not_or]
  refine ⟨⟨hc.2, fun h => ?_⟩, hquote⟩
  have hdigit := sha.digits key c h
  rw [hc.1] at hdigit
  cases hdigit

/-- Each exercise marks the first button of its hash. -/
theorem assertContent_induction {I : GoString → Prop} {quote : GoString → GoString}
    {fm : FrontMatter} {targets : List (GoString × DemoRouting)} {cs : List Challenge}
    {rendered : GoString} {r : List Challenge × GoString}
    (hstep : ∀ t ∈ targets, ∀ s, I s →
      I (replaceFirst (verifyMark t.1) (verifyMark t.1 ++ verifyAttr) s))
    (hout : I rendered) (h : assertContent quote fm targets cs rendered = .ok r) : I r.2 := by
  induction targets generalizing cs rendered with
  | nil =>
    rw [assertContent, Except.ok.injEq] at h
    rw [← h]
    exact hout
  | cons target targets ih =>
    obtain ⟨k, routing⟩ := target
    obtain ⟨htarget, htargets⟩ := List.forall_mem_cons.mp hstep
    rw [assertContent] at h
    dsimp only at h
    split_ifs at h
    exact ih htargets (htarget rendered hout) h

theorem divTag_eq (word value : GoString) : divTag word value = utf8 "<div class=" ++
    0x22 :: (word ++ 0x22 :: 0x20 :: (utf8 "data-challenge=" ++
      0x22 :: (value ++ [0x22, 0x3E]))) := by
  have hclass : utf8 "<div class=\"" = utf8 "<div class=" ++ [0x22] := by decide
  have hchallenge : utf8 "\" data-challenge=\"" =
      0x22 :: 0x20 :: (utf8 "data-challenge=" ++ [0x22]) := by decide
  have hclose : utf8 "\">" = [0x22, 0x3E] := by decide
  rw [divTag, divOpen, hclass, hchallenge, hclose]
  simp only [List.append_assoc, List.cons_append, List.nil_append]

/-- The tag of a block's div does not hold the hash of a button. -/
theorem not_infix_divTag {word value : GoString} (hw : word = quizWord ∨ word = exerciseWord)
    (hv : 0x22 ∉ value) (sha : Sha256) (key : GoString) :
    ¬ verifyMark (sha.hex key) <:+: divTag word value := by
  obtain ⟨b, hex, hhex⟩ := List.exists_cons_of_ne_nil (sha.hex_ne_nil key)
  have hb : isLowerHex b = true := sha.digits key b (hhex ▸ List.mem_cons_self)
  have hne : ∀ x, isLowerHex x = false → x ≠ b := fun x hx heq => by
    rw [heq, hb] at hx
    cases hx
  have hcode : utf8 "code=" ++ 0x22 :: b :: [] <:+: verifyMark (sha.hex key) := by
    rw [verifyMark, hhex, show utf8 "data-hash-code=\"" =
      utf8 "data-hash-" ++ (utf8 "code=" ++ [0x22]) by decide]
    exact ⟨utf8 "data-hash-", hex ++ utf8 "\"", by simp only [List.append_assoc]; rfl⟩
  have hquote : 0x22 ∉ utf8 "code=" := by decide
  have hword : (∃ c w, word = c :: w) ∧ 0x22 ∉ word := by
    rcases hw with rfl | rfl
    · exact ⟨⟨0x71, utf8 "uiz", rfl⟩, by decide⟩
    · exact ⟨⟨0x65, utf8 "xercise", rfl⟩, by decide⟩
  obtain ⟨⟨c, w, hcw⟩, hquoted⟩ := hword
  intro h
  have hclass := hcode.trans h
  -- No quote of the tag has the end of the attribute's name before it and a digit behind it.
  rw [divTag_eq, hcw, List.cons_append] at hclass
  have hbehind := infix_of_infix_append_cons hquote (by decide) (.inr (by decide)) hclass
  rw [← List.cons_append, ← hcw] at hbehind
  have hchallenge := infix_of_infix_append_cons hquote hquoted (.inl (hne 0x20 (by decide))) hbehind
  obtain ⟨x, v, hxv⟩ := List.exists_cons_of_ne_nil
    (List.append_ne_nil_of_right_ne_nil value (List.cons_ne_nil (0x22 : UInt8) [0x3E]))
  rw [hxv, ← List.cons_append] at hchallenge
  have hvalue := infix_of_infix_append_cons hquote (by decide) (.inr (by decide)) hchallenge
  rw [← hxv] at hvalue
  have hlast := infix_of_infix_append_cons hquote hv (.inl (hne 0x3E (by decide))) hvalue
  exact absurd hlast.length_le (by simp)

/-- The mark of a button lies in no div's tag. -/
theorem scan_verifyMark {word : GoString} (hw : word = quizWord ∨ word = exerciseWord)
    (sha : Sha256) (key : GoString) (s : GoString) :
    scan (readDiv word) (replaceFirst (verifyMark (sha.hex key))
        (verifyMark (sha.hex key) ++ verifyAttr) s) = scan (readDiv word) s := by
  have hopen : 0x3C ∉ verifyMark (sha.hex key) := not_mem_verifyMark (by decide) sha key
  have hsplits : ∀ u v t a, Between (divOpen word) isValueByte (utf8 "\">") t a →
      ¬ Splits t (u ++ verifyMark (sha.hex key)) v := by
    rintro u v t a ht ⟨p, q, hp, -, rfl, hpu, -⟩
    obtain ⟨Q, hQ⟩ := (pageMark_div hw).start ht
    obtain ⟨x, p, rfl⟩ := List.exists_cons_of_ne_nil hp
    have hx : x = 0x3C := (List.cons.inj hQ).1
    have hsuffix : verifyMark (sha.hex key) <:+ x :: p := by
      rcases List.suffix_or_suffix_of_suffix (List.suffix_append u _) hpu with h | h
      · exact h
      · exact absurd (h.subset (hx ▸ List.mem_cons_self)) hopen
    have hquoted : 0x22 ∉ a := fun h => absurd (ht.2 _ h) (by decide)
    refine not_infix_divTag hw hquoted sha key ?_
    have hmark : divTag word a = x :: p ++ q := ht.1.symm
    rw [hmark]
    exact hsuffix.isInfix.trans List.infix_append_left
  by_cases hin : verifyMark (sha.hex key) <:+: s
  · obtain ⟨u, v, hs, hr⟩ := replaceFirst_of_infix (verifyMark (sha.hex key) ++ verifyAttr)
      (verifyMark_ne_nil _) hin
    rw [hr, hs, List.append_assoc, ← List.append_assoc, ← List.append_assoc u,
      scan_append (reads_div word) (hsplits u _), scan_append (reads_div word) (hsplits u _),
      scan_no_open_append (reads_div word) (pageMark_div hw) (u := verifyAttr) (by decide)]
  · rw [replaceFirst_of_not_isInfix _ hin]

theorem Foreign.of_verifyMark {P : GoString} (hP : Foreign buttonStarts P) (sha : Sha256)
    (key : GoString) {s : GoString}
    (h : P <:+: replaceFirst (verifyMark (sha.hex key))
      (verifyMark (sha.hex key) ++ verifyAttr) s) :
    P <:+: s := by
  by_cases hin : verifyMark (sha.hex key) <:+: s
  · obtain ⟨u, v, hs, hr⟩ := replaceFirst_of_infix (verifyMark (sha.hex key) ++ verifyAttr)
      (verifyMark_ne_nil _) hin
    have hattr : verifyAttr = 0x20 :: (utf8 "data-verify=\"1" ++ [0x22]) := by decide
    rw [hr, hattr] at h
    simp only [List.append_assoc, List.cons_append, List.nil_append] at h
    rw [← List.append_assoc u, hP.sep_iff (by decide), hP.sep_iff (by decide)] at h
    rw [hs, ← List.append_assoc]
    rcases h with h | h | h
    · exact h.trans List.infix_append_left
    · exact absurd h (hP.not_infix_markup (by decide))
    · exact h.trans List.infix_append_right
  · rwa [replaceFirst_of_not_isInfix _ hin] at h

end TrainingPlatform.Content
