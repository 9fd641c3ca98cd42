import TrainingPlatform.Content.Fences
import TrainingPlatform.Html.Tags

/-!
# The tags of rendered Markdown

Author text is escaped before it is marked up, and what the three rewrites of a line add
is whole tags: a rewrite divides a line at bytes no tag has, so it never cuts a tag that
an earlier one wrote.
-/

namespace TrainingPlatform.Content

open Go Go.Re Html

def tagWords : List GoString :=
  [utf8 "h1", utf8 "h2", utf8 "h3", utf8 "h4", utf8 "p", utf8 "pre", utf8 "code", utf8 "ul",
    utf8 "li", utf8 "strong", utf8 "a"]

/-- The attributes the renderer writes: inert ones on a link, its own on a code block. -/
def writesAttr (word name : GoString) : Bool :=
  if word = utf8 "a" then
    name = utf8 "href" || name = utf8 "id" || name = utf8 "class" || hasPrefix name (utf8 "data-")
  else
    word = utf8 "pre" && (name = utf8 "class" || name = utf8 "data-term" || name = utf8 "title")

/-- A tag of the renderer, every attribute of which is closed by the double quote that
opened it. -/
def RendererTag (t : Tag) : Prop :=
  t.name ∈ tagWords ∧ ∀ a ∈ t.attrs, a.quote = some 0x22 ∧ writesAttr t.name a.name = true

instance instDecidableRendererTag (t : Tag) : Decidable (RendererTag t) :=
  inferInstanceAs (Decidable (_ ∧ _))

/-! ## The rewrites of a line -/

def codeHtml (m : Match) : GoString := utf8 "<code>" ++ m.group 1 ++ utf8 "</code>"
def strongHtml (m : Match) : GoString := utf8 "<strong>" ++ m.group 1 ++ utf8 "</strong>"
def linkHtml (m : Match) : GoString :=
  utf8 "<a href=\"" ++ m.group 2 ++ utf8 "\"" ++ ialAttrs (m.group 3) ++ utf8 ">" ++ m.group 1 ++
    utf8 "</a>"

theorem inline_eq (s : GoString) : inline s =
    replaceAll linkRe linkHtml (replaceAll boldRe strongHtml (replaceAll codeRe codeHtml s)) := rfl

/-- The tags of the first two rewrites. -/
def spanTags : List GoString :=
  [utf8 "<code>", utf8 "</code>", utf8 "<strong>", utf8 "</strong>"]

theorem sound_spanTags : ∀ t ∈ spanTags, Sound RendererTag t := by
  intro t ht
  simp only [spanTags, List.mem_cons, List.not_mem_nil, or_false] at ht
  rcases ht with rfl | rfl | rfl | rfl
  · exact sound_of_tag (t := ⟨false, utf8 "code", []⟩) (by decide) (by decide)
  · exact sound_of_tag (t := ⟨true, utf8 "code", []⟩) (by decide) (by decide)
  · exact sound_of_tag (t := ⟨false, utf8 "strong", []⟩) (by decide) (by decide)
  · exact sound_of_tag (t := ⟨true, utf8 "strong", []⟩) (by decide) (by decide)

theorem marked_span {o c g : GoString} (ho : o ∈ spanTags) (hc : c ∈ spanTags)
    (hg : Marked spanTags g) : Marked spanTags (o ++ g ++ c) := by
  have hclose : Marked spanTags (c ++ []) := .tag hc .nil
  rw [List.append_nil] at hclose
  rw [List.append_assoc]
  exact .tag ho (hg.append hclose)

theorem group_between {p q bs : GoString} {m : Match}
    (h : Consumes (all [lit p, group 1 (many1 (noneOf bs)), lit q]) m.text m.caps) :
    m.text = p ++ (m.group 1 ++ q) ∧ m.group 1 ≠ [] ∧ ∀ b ∈ bs, b ∉ m.group 1 := by
  obtain ⟨g, htext, hne, hall, hcaps⟩ := consumes_between.mp h
  have hgroup : m.group 1 = g := by
    rw [Match.group, hcaps]
    rfl
  rw [hgroup, htext]
  exact ⟨rfl, hne, hall⟩

theorem marked_codePass {s : GoString} (hlt : 0x3C ∉ s) (hquot : 0x22 ∉ s) :
    Marked spanTags (replaceAll codeRe codeHtml s) := by
  refine replaceAll_of_matches (P := fun s => 0x3C ∉ s ∧ 0x22 ∉ s)
    (fun s h => marked_of_not_mem h.1 h.2) (fun s t => Marked.append) (fun m u v hm h => ?_)
    ⟨hlt, hquot⟩
  have hin : m.group 1 <:+: u ++ (m.text ++ v) := (group_isInfix hm 1).trans
    (List.infix_append_left.trans List.infix_append_right)
  have hpart : ∀ {w}, w <:+: u ++ (m.text ++ v) → 0x3C ∉ w ∧ 0x22 ∉ w := fun hw =>
    ⟨fun hmem => h.1 (hw.subset hmem), fun hmem => h.2 (hw.subset hmem)⟩
  refine ⟨hpart List.infix_append_left, ?_,
    hpart (List.infix_append_right.trans List.infix_append_right)⟩
  exact marked_span (by decide) (by decide) (marked_of_not_mem (hpart hin).1 (hpart hin).2)

theorem marked_boldPass {s : GoString} (h : Marked spanTags s) :
    Marked spanTags (replaceAll boldRe strongHtml s) := by
  refine replaceAll_of_matches (fun s h => h) (fun s t => Marked.append) (fun m u v hm h => ?_) h
  have hstar : ∀ t ∈ spanTags, 0x2A ∉ t := by decide
  obtain ⟨htext, -⟩ := group_between hm
  rw [htext, show utf8 "**" = [0x2A, 0x2A] by decide] at h
  simp only [List.append_assoc, List.cons_append, List.nil_append] at h
  obtain ⟨hu, h⟩ := h.split hstar
  obtain ⟨-, h⟩ := h.split (u := []) hstar
  obtain ⟨hg, h⟩ := h.split hstar
  obtain ⟨-, hv⟩ := h.split (u := []) hstar
  exact ⟨hu, marked_span (by decide) (by decide) hg, hv⟩

/-! ## Links -/

/-- One attribute list behind a link. -/
def ialRe : Re := all [lit (utf8 "\x7b:"), many (noneOf (utf8 "\x7b\x7d")), lit (utf8 "\x7d")]

theorem consumes_ialRe {u : GoString} {d : Caps} : Consumes ialRe u d ↔
    ∃ x, u = utf8 "\x7b:" ++ (x ++ [0x7D]) ∧ (∀ b ∈ utf8 "\x7b\x7d", b ∉ x) ∧ d = [] := by
  rw [ialRe, consumes_all_cons_of_plain consumes_lit]
  simp only [noneOf, consumes_all_cons_of_plain consumes_many_set, consumes_all_singleton,
    consumes_lit]
  constructor
  · intro h
    obtain ⟨_, w, rfl, ⟨x, z, hx, ⟨rfl, rfl⟩, rfl⟩, rfl⟩ := h
    exact ⟨x, rfl, fun b hb hmem => of_decide_eq_true (hx b hmem) hb, rfl⟩
  · intro h
    obtain ⟨x, rfl, hx, rfl⟩ := h
    exact ⟨_, _, rfl, ⟨x, _, fun b hb => decide_eq_true fun hmem => hx b hmem hb, ⟨rfl, rfl⟩, rfl⟩,
      rfl⟩

theorem consumes_ials {u : GoString} {d : Caps} (h : Consumes (many ialRe) u d) :
    d = [] ∧ (u = [] ∨ ∃ w, u = w ++ [0x7D]) := by
  generalize hs : many _ = s at h
  induction h with
  | starNil => exact ⟨rfl, .inl rfl⟩
  | starCons hr _ _ _ ih =>
    cases hs
    obtain ⟨rfl, hv⟩ := ih rfl
    obtain ⟨x, rfl, -, rfl⟩ := consumes_ialRe.mp hr
    refine ⟨rfl, .inr ?_⟩
    rcases hv with rfl | ⟨w, rfl⟩
    · exact ⟨utf8 "\x7b:" ++ x, by rw [List.append_nil, List.append_assoc]⟩
    · exact ⟨_, (List.append_assoc _ w [0x7D]).symm⟩
  | _ => cases hs

theorem consumes_linkRe {u : GoString} {d : Caps} : Consumes linkRe u d ↔ ∃ t q i,
    u = 0x5B :: (t ++ 0x5D :: 0x28 :: (q ++ 0x29 :: i)) ∧ (t ≠ [] ∧ 0x5D ∉ t) ∧
      (q ≠ [] ∧ 0x29 ∉ q) ∧ Consumes (many ialRe) i [] ∧ d = [(3, i), (2, q), (1, t)] := by
  constructor
  · intro h
    obtain ⟨_, w, rfl, hopen, rfl⟩ := (consumes_all_cons_of_plain consumes_lit).mp h
    obtain ⟨t, w, c, e, ht, hmid, rfl, rfl⟩ := consumes_all_cons.mp hopen
    obtain ⟨d, hset, rfl⟩ := consumes_group.mp ht
    obtain ⟨htne, htext, rfl⟩ := consumes_many1_set.mp hset
    obtain ⟨_, w, rfl, htarget, rfl⟩ := (consumes_all_cons_of_plain consumes_lit).mp hmid
    obtain ⟨q, w, c, e, hq, hclose, rfl, rfl⟩ := consumes_all_cons.mp htarget
    obtain ⟨d, hset', rfl⟩ := consumes_group.mp hq
    obtain ⟨hqne, hqtext, rfl⟩ := consumes_many1_set.mp hset'
    obtain ⟨_, i, rfl, hlist, rfl⟩ := (consumes_all_cons_of_plain consumes_lit).mp hclose
    obtain ⟨d, hi, rfl⟩ := consumes_group.mp (consumes_all_singleton.mp hlist)
    obtain rfl := (consumes_ials hi).1
    refine ⟨t, q, i, rfl, ⟨htne, fun hmem => ?_⟩, ⟨hqne, fun hmem => ?_⟩, hi, rfl⟩
    · exact of_decide_eq_true (htext _ hmem) (by decide)
    · exact of_decide_eq_true (hqtext _ hmem) (by decide)
  · intro h
    obtain ⟨t, q, i, rfl, ⟨htne, ht⟩, ⟨hqne, hq⟩, hi, rfl⟩ := h
    have hset : ∀ {b : UInt8} {s g : GoString}, s = [b] → g ≠ [] → b ∉ g →
        Consumes (many1 (noneOf s)) g [] := by
      intro b s g hs hne hb
      refine consumes_many1_set.mpr ⟨hne, fun y hy => decide_eq_true fun hmem => ?_, rfl⟩
      rw [hs, List.mem_singleton] at hmem
      exact hb (hmem ▸ hy)
    refine (consumes_all_cons_of_plain consumes_lit).mpr ⟨_, _, rfl, ?_, rfl⟩
    refine consumes_all_cons.mpr ⟨t, _, [(1, t)], [(3, i), (2, q)],
      consumes_group.mpr ⟨[], hset (by decide) htne ht, rfl⟩, ?_, rfl, rfl⟩
    refine (consumes_all_cons_of_plain consumes_lit).mpr ⟨_, _, rfl, ?_, rfl⟩
    refine consumes_all_cons.mpr ⟨q, _, [(2, q)], [(3, i)],
      consumes_group.mpr ⟨[], hset (by decide) hqne hq, rfl⟩, ?_, rfl, rfl⟩
    refine (consumes_all_cons_of_plain consumes_lit).mpr ⟨_, i, rfl, ?_, rfl⟩
    exact consumes_all_singleton.mpr (consumes_group.mpr ⟨[], hi, rfl⟩)

theorem group_linkRe {m : Match} (h : Consumes linkRe m.text m.caps) :
    m.text = 0x5B :: (m.group 1 ++ 0x5D :: 0x28 :: (m.group 2 ++ 0x29 :: m.group 3)) ∧
      (m.group 3 = [] ∨ ∃ w, m.group 3 = w ++ [0x7D]) := by
  obtain ⟨t, q, i, htext, -, -, hi, hcaps⟩ := consumes_linkRe.mp h
  have hgroup : m.group 1 = t ∧ m.group 2 = q ∧ m.group 3 = i := by
    rw [Match.group, Match.group, Match.group, hcaps]
    exact ⟨rfl, rfl, rfl⟩
  rw [hgroup.1, hgroup.2.1, hgroup.2.2, htext]
  exact ⟨rfl, (consumes_ials hi).2⟩

/-- A byte of an attribute's name in a list behind a link. -/
def isIalName (b : UInt8) : Bool := letter b || (0x30 ≤ b && b ≤ 0x39) || b = 0x2D

theorem isNameByte_of_isIalName {b : UInt8} (h : isIalName b = true) : isNameByte b = true := by
  have hne : ∀ c, isIalName c = false → b ≠ c := by
    intro c hc hbc
    rw [hbc, hc] at h
    contradiction
  refine isNameByte_iff.mpr ⟨?_, hne 0x2F rfl, hne 0x3E rfl, hne 0x3D rfl⟩
  rw [isBlank, decide_eq_false (hne 0x20 rfl), decide_eq_false (hne 0x09 rfl),
    decide_eq_false (hne 0x0A rfl), decide_eq_false (hne 0x0C rfl), decide_eq_false (hne 0x0D rfl)]
  rfl

/-- An attribute's name as `ialAttrRe` takes it. -/
def IsIalName (n : GoString) : Prop :=
  ∃ b v, n = b :: v ∧ letter b = true ∧ ∀ x ∈ v, isIalName x = true

def attrOpening (x n : GoString) : GoString := utf8 "\x7b:" ++ (x ++ (n ++ utf8 "=&#34;"))
def attrClosing (y : GoString) : GoString := utf8 "&#34;" ++ (y ++ [0x7D])

/-- What stands around the value of an attribute. -/
structure AttrParts (x n y : GoString) : Prop where
  before : ∀ b ∈ x, isBlank b = true
  name : IsIalName n
  behind : ∀ b ∈ y, isBlank b = true

theorem consumes_ialAttrRe {u : GoString} {d : Caps} : Consumes ialAttrRe u d ↔ ∃ x n v y,
    u = attrOpening x n ++ (v ++ attrClosing y) ∧ AttrParts x n y ∧
      (∀ b ∈ utf8 "&\x7b\x7d", b ∉ v) ∧ d = [(2, v), (1, n)] := by
  have htext : ∀ x n v y : GoString, attrOpening x n ++ (v ++ attrClosing y) = utf8 "\x7b:" ++
      (x ++ (n ++ (utf8 "=&#34;" ++ (v ++ (utf8 "&#34;" ++ (y ++ [0x7D])))))) := by
    intro x n v y
    simp only [attrOpening, attrClosing, List.append_assoc]
  simp only [htext]
  constructor
  · intro h
    obtain ⟨_, w, rfl, hopen, rfl⟩ := (consumes_all_cons_of_plain consumes_lit).mp h
    obtain ⟨x, w, hx, hname, rfl⟩ := (consumes_all_cons_of_plain consumes_many_set).mp hopen
    obtain ⟨n, w, c, e, hn, hequals, rfl, rfl⟩ := consumes_all_cons.mp hname
    obtain ⟨d, hparts, rfl⟩ := consumes_group.mp hn
    obtain ⟨_, t, ⟨b, hb, rfl⟩, hrest, rfl⟩ :=
      (consumes_all_cons_of_plain consumes_set).mp hparts
    obtain ⟨ht, rfl⟩ := consumes_many_set.mp (consumes_all_singleton.mp hrest)
    obtain ⟨_, w, rfl, hvalue, rfl⟩ := (consumes_all_cons_of_plain consumes_lit).mp hequals
    obtain ⟨v, w, c, e, hv, hquote, rfl, rfl⟩ := consumes_all_cons.mp hvalue
    obtain ⟨d, hset, rfl⟩ := consumes_group.mp hv
    obtain ⟨hvtext, rfl⟩ := consumes_many_set.mp hset
    obtain ⟨_, w, rfl, hblanks, rfl⟩ := (consumes_all_cons_of_plain consumes_lit).mp hquote
    obtain ⟨y, w, hy, hclose, rfl⟩ := (consumes_all_cons_of_plain consumes_many_set).mp hblanks
    obtain ⟨rfl, rfl⟩ := consumes_lit.mp (consumes_all_singleton.mp hclose)
    exact ⟨x, b :: t, v, y, rfl, ⟨hx, ⟨b, t, rfl, hb, ht⟩, hy⟩,
      fun z hz hmem => of_decide_eq_true (hvtext z hmem) hz, rfl⟩
  · intro h
    obtain ⟨x, _, v, y, rfl, ⟨hx, ⟨b, t, rfl, hb, ht⟩, hy⟩, hv, rfl⟩ := h
    have hname : Consumes (all [set letter, many (set isIalName)]) (b :: t) [] :=
      (consumes_all_cons_of_plain consumes_set).mpr ⟨[b], t, ⟨b, hb, rfl⟩,
        consumes_all_singleton.mpr (consumes_many_set.mpr ⟨ht, rfl⟩), rfl⟩
    have hvalue : Consumes (many (noneOf (utf8 "&\x7b\x7d"))) v [] := consumes_many_set.mpr
      ⟨fun z hz => decide_eq_true fun hmem => hv z hmem hz, rfl⟩
    refine (consumes_all_cons_of_plain consumes_lit).mpr ⟨_, _, rfl, ?_, rfl⟩
    refine (consumes_all_cons_of_plain consumes_many_set).mpr ⟨x, _, hx, ?_, rfl⟩
    refine consumes_all_cons.mpr ⟨b :: t, _, [(1, b :: t)], [(2, v)],
      consumes_group.mpr ⟨[], hname, rfl⟩, ?_, rfl, rfl⟩
    refine (consumes_all_cons_of_plain consumes_lit).mpr ⟨_, _, rfl, ?_, rfl⟩
    refine consumes_all_cons.mpr ⟨v, _, [(2, v)], [],
      consumes_group.mpr ⟨[], hvalue, rfl⟩, ?_, rfl, rfl⟩
    refine (consumes_all_cons_of_plain consumes_lit).mpr ⟨_, _, rfl, ?_, rfl⟩
    refine (consumes_all_cons_of_plain consumes_many_set).mpr ⟨y, _, hy, ?_, rfl⟩
    exact consumes_all_singleton.mpr (consumes_lit.mpr ⟨rfl, rfl⟩)

theorem group_ialAttrRe {m : Match} (h : Consumes ialAttrRe m.text m.caps) :
    m.group 1 ≠ [] ∧ ∀ b ∈ m.group 1, isNameByte b = true := by
  obtain ⟨_, _, _, _, -, ⟨-, ⟨b, t, rfl, hb, ht⟩, -⟩, -, hcaps⟩ := consumes_ialAttrRe.mp h
  have hgroup : m.group 1 = b :: t := by
    rw [Match.group, hcaps]
    rfl
  rw [hgroup, List.forall_mem_cons]
  refine ⟨List.cons_ne_nil b t, isNameByte_of_isIalName ?_, fun x hx =>
    isNameByte_of_isIalName (ht x hx)⟩
  rw [isIalName, hb]
  rfl

theorem rendererTag_add {t : Tag} {name v : GoString} (h : RendererTag t)
    (hname : writesAttr t.name name = true) : RendererTag (t.add ⟨name, v, some 0x22⟩) := by
  refine ⟨h.1, fun a ha => ?_⟩
  rcases List.mem_append.mp ha with ha | ha
  · exact h.2 a ha
  · rw [List.mem_singleton.mp ha]
    exact ⟨rfl, hname⟩

/-- An inert name stays one in lower case. -/
theorem writesAttr_ial {name : GoString}
    (h : ¬ (name ≠ utf8 "id" && name ≠ utf8 "class" && !hasPrefix name (utf8 "data-")) = true) :
    writesAttr (utf8 "a") (name.map lower) = true := by
  rw [writesAttr, if_pos rfl]
  by_cases hid : name = utf8 "id"
  · rw [hid]
    decide
  by_cases hclass : name = utf8 "class"
  · rw [hclass]
    decide
  have hdata : hasPrefix name (utf8 "data-") = true := by simpa [hid, hclass] using h
  obtain ⟨r, rfl⟩ := List.isPrefixOf_iff_prefix.mp hdata
  rw [List.map_append, show (utf8 "data-").map lower = utf8 "data-" by decide, Bool.or_eq_true]
  exact .inr (List.isPrefixOf_iff_prefix.mpr (List.prefix_append _ _))

/-- Attribute lists are read as attributes of the tag they stand in. -/
theorem read_ialAttrs {ials : GoString} (hquot : 0x22 ∉ ials) {t : Tag} (ht : RendererTag t)
    (hname : t.name = utf8 "a") : ∃ t', RendererTag t' ∧
      read (.afterAttrValue t) (ialAttrs ials) = (.afterAttrValue t', []) := by
  have hall : ∀ m ∈ findAll ialAttrRe ials, Consumes ialAttrRe m.text m.caps ∧ 0x22 ∉ m.text :=
    fun m hm => ⟨(mem_findAll hm).1, fun hmem => hquot ((mem_findAll hm).2.subset hmem)⟩
  rw [ialAttrs]
  generalize findAll ialAttrRe ials = ms at hall
  induction ms generalizing t with
  | nil => exact ⟨t, ht, rfl⟩
  | cons m ms ih =>
    obtain ⟨⟨hm, hmquot⟩, hms⟩ := List.forall_mem_cons.mp hall
    rw [List.flatMap_cons]
    dsimp only
    split_ifs with hdrop
    · exact ih ht hname hms
    · obtain ⟨hne, hbytes⟩ := group_ialAttrRe hm
      have hvalue : 0x22 ∉ m.group 2 := fun hmem => hmquot ((group_isInfix hm 2).subset hmem)
      have hadd : RendererTag (t.add ⟨(m.group 1).map lower, m.group 2, some 0x22⟩) :=
        rendererTag_add ht (by rw [hname]; exact writesAttr_ial hdrop)
      obtain ⟨t', ht', hread⟩ := ih hadd hname hms
      exact ⟨t', ht', read_append (read_attr hne hbytes hvalue) hread⟩

theorem sound_linkHtml {m : Match} (htext : Marked spanTags (m.group 1))
    (htarget : 0x22 ∉ m.group 2) (hials : 0x22 ∉ m.group 3) :
    Sound RendererTag (linkHtml m) := by
  have hopen : read .data (utf8 "<a href=\"") =
      (.attrValue ⟨false, utf8 "a", []⟩ (utf8 "href") 0x22 [], []) := by decide
  have hhref := read_append hopen (read_attrValue htarget)
  have ht : RendererTag (Tag.add ⟨false, utf8 "a", []⟩ ⟨utf8 "href", m.group 2, some 0x22⟩) :=
    rendererTag_add (by decide) (by decide)
  obtain ⟨t, ht, hlist⟩ := read_ialAttrs hials ht rfl
  have hclose : read (.afterAttrValue t) (utf8 ">") = (.data, [t]) := rfl
  have hstart : Sound RendererTag
      (utf8 "<a href=\"" ++ (m.group 2 ++ [0x22]) ++ ialAttrs (m.group 3) ++ utf8 ">") :=
    sound_of_tag (read_append (read_append hhref hlist) hclose) ht
  have hend : Sound RendererTag (utf8 "</a>") :=
    sound_of_tag (t := ⟨true, utf8 "a", []⟩) (by decide) (by decide)
  have hlink := (hstart.append (htext.sound sound_spanTags)).append hend
  rw [linkHtml, show utf8 "\"" = [0x22] by decide]
  simpa only [List.append_assoc] using hlink

theorem sound_linkPass {s : GoString} (h : Marked spanTags s) :
    Sound RendererTag (replaceAll linkRe linkHtml s) := by
  refine replaceAll_of_matches (fun s h => h.sound sound_spanTags) (fun s t => Sound.append)
    (fun m u v hm h => ?_) h
  have hsplit : ∀ b ∈ utf8 "[]()\x7d", ∀ t ∈ spanTags, b ∉ t := by
    decide +kernel
  have hquot : ∀ t ∈ spanTags, 0x22 ∉ t := by decide
  obtain ⟨htext, hials⟩ := group_linkRe hm
  rw [htext] at h
  simp only [List.append_assoc, List.cons_append] at h
  obtain ⟨hu, h⟩ := h.split (hsplit 0x5B (by decide))
  obtain ⟨hg, h⟩ := h.split (hsplit 0x5D (by decide))
  obtain ⟨-, h⟩ := h.split (u := []) (hsplit 0x28 (by decide))
  obtain ⟨htarget, h⟩ := h.split (hsplit 0x29 (by decide))
  have hlist : 0x22 ∉ m.group 3 := fun hmem =>
    h.quote_not_mem hquot (List.mem_append_left v hmem)
  have hv : Marked spanTags v := by
    rcases hials with hnil | ⟨w, hw⟩
    · rwa [hnil] at h
    · rw [hw, List.append_assoc] at h
      exact (h.split (hsplit 0x7D (by decide))).2
  exact ⟨hu, sound_linkHtml hg (htarget.quote_not_mem hquot) hlist, hv⟩

theorem sound_inline (s : GoString) : Sound RendererTag (inline (escapeString s)) := by
  rw [inline_eq]
  exact sound_linkPass (marked_boldPass
    (marked_codePass (lt_not_mem_escapeString s) (quote_not_mem_escapeString s)))

/-! ## Lines -/

theorem length_group_headingRe {l : GoString} {m : Match} (h : find headingRe l = some m) :
    (m.group 1).length ∈ [1, 2, 3, 4] := by
  have hc : Consumes (all [group 1 (upTo (byte 0x23) 3), many1 blankRe, group 2 (many lineDot)]) l
      m.caps := consumes_of_find_anchored h
  obtain ⟨v, w, c, e, hv, hw, rfl, hcaps⟩ := consumes_all_cons.mp hc
  obtain ⟨d, hup, rfl⟩ := consumes_group.mp hv
  obtain ⟨⟨hne, hlen⟩, -, rfl⟩ := consumes_upTo_set.mp hup
  obtain ⟨_, w, -, hrest, rfl⟩ := (consumes_all_cons_of_plain
    (P := fun u => u ≠ [] ∧ ∀ b ∈ u, isBlank b = true)
    (by simp only [blankRe, consumes_many1_set, and_assoc, implies_true])).mp hw
  obtain ⟨d, hset, rfl⟩ := consumes_group.mp (consumes_all_singleton.mp hrest)
  obtain ⟨-, rfl⟩ := consumes_many_set.mp hset
  have hgroup : m.group 1 = v := by
    rw [Match.group, hcaps]
    rfl
  have hpos := List.length_pos_iff.mpr hne
  rw [hgroup]
  simp only [List.mem_cons, List.not_mem_nil, or_false]
  omega

/-- A tag of the renderer without attributes. -/
theorem sound_element (word : GoString) {o c s : GoString}
    (ho : read .data o = (.data, [⟨false, word, []⟩]))
    (hc : read .data c = (.data, [⟨true, word, []⟩])) (hword : word ∈ tagWords)
    (hs : Sound RendererTag s) : Sound RendererTag (o ++ s ++ c) :=
  ((sound_of_tag ho ⟨hword, nofun⟩).append hs).append (sound_of_tag hc ⟨hword, nofun⟩)

theorem sound_heading {l : GoString} {m : Match} (h : find headingRe l = some m) :
    Sound RendererTag (heading m) := by
  have htags : ∀ n ∈ [1, 2, 3, 4],
      read .data (utf8 "<h" ++ itoa (n : Nat) ++ utf8 ">") =
          (.data, [⟨false, utf8 "h" ++ itoa (n : Nat), []⟩]) ∧
        read .data (utf8 "</h" ++ itoa (n : Nat) ++ utf8 ">") =
          (.data, [⟨true, utf8 "h" ++ itoa (n : Nat), []⟩]) ∧
        utf8 "h" ++ itoa (n : Nat) ∈ tagWords := by decide
  obtain ⟨hopen, hclose, hword⟩ := htags _ (length_group_headingRe h)
  have hheading := sound_element _ hopen hclose hword (sound_inline (m.group 2))
  rw [heading]
  simpa only [List.append_assoc] using hheading

theorem sound_listItem (l : GoString) : Sound RendererTag (listItem l) :=
  sound_element (utf8 "li") (by decide) (by decide) (by decide) (sound_inline _)

theorem sound_list (items : List GoString) :
    Sound RendererTag (utf8 "<ul>" ++ (items.map listItem).flatten ++ utf8 "</ul>") := by
  refine sound_element (utf8 "ul") (by decide) (by decide) (by decide) ?_
  refine sound_flatten fun s hs => ?_
  obtain ⟨l, -, rfl⟩ := List.mem_map.mp hs
  exact sound_listItem l

theorem sound_paragraph (l : GoString) :
    Sound RendererTag (utf8 "<p>" ++ inline (escapeString l) ++ utf8 "</p>") :=
  sound_element (utf8 "p") (by decide) (by decide) (by decide) (sound_inline l)

theorem sound_codeBlock (info : GoString) {code : GoString} (hcode : 0x3C ∉ code) :
    Sound RendererTag (codeBlock info code) := by
  have hend : Sound RendererTag (utf8 "</code></pre>") :=
    ⟨[⟨true, utf8 "code", []⟩, ⟨true, utf8 "pre", []⟩], by decide, by decide⟩
  rw [codeBlock]
  split
  · rename_i m hm
    obtain ⟨b, hb, hgroup⟩ := group_termInfoRe hm
    have hquot : 0x22 ∉ m.group 1 := by
      rw [hgroup, List.mem_singleton]
      intro hq
      rw [← hq] at hb
      exact absurd hb (by decide)
    have hopen : read .data (utf8 "<pre class=\"term-code\" data-term=\"") =
        (.attrValue ⟨false, utf8 "pre", [⟨utf8 "class", utf8 "term-code", some 0x22⟩]⟩
          (utf8 "data-term") 0x22 [], []) := by decide
    have hterm := read_append hopen (read_attrValue hquot)
    have htitle : 0x22 ∉ utf8 "click to run in terminal " ++ m.group 1 := by
      rw [List.mem_append, not_or]
      exact ⟨by decide, hquot⟩
    have hattrs := read_append hterm
      (read_attr (v := utf8 "title") (by decide) (by decide +kernel) htitle)
    have hclose := read_append hattrs (rfl : read _ (utf8 "><code>") = _)
    have ht : RendererTag (Tag.add (Tag.add
        ⟨false, utf8 "pre", [⟨utf8 "class", utf8 "term-code", some 0x22⟩]⟩
        ⟨utf8 "data-term", [] ++ m.group 1, some 0x22⟩) ⟨(utf8 "title").map lower,
          utf8 "click to run in terminal " ++ m.group 1, some 0x22⟩) :=
      rendererTag_add (rendererTag_add (by decide) (by decide))
        (show writesAttr (utf8 "pre") ((utf8 "title").map lower) = true by decide)
    have hstart : Sound RendererTag _ := ⟨_, hclose, List.forall_mem_cons.mpr ⟨ht,
      List.forall_mem_singleton.mpr (by decide)⟩⟩
    have hblock := (hstart.append (sound_of_not_mem hcode)).append hend
    rw [show utf8 "\" title=\"click to run in terminal " = [0x22] ++ (utf8 " " ++ utf8 "title" ++
        utf8 "=\"" ++ utf8 "click to run in terminal ") by decide,
      show utf8 "\"><code>" = utf8 "\"" ++ utf8 "><code>" by decide]
    simpa only [List.append_assoc] using hblock
  · have hstart : Sound RendererTag (utf8 "<pre><code>") :=
      ⟨[⟨false, utf8 "pre", []⟩, ⟨false, utf8 "code", []⟩], by decide, by decide⟩
    exact (hstart.append (sound_of_not_mem hcode)).append hend

theorem sound_renderLines (n : Nat) (ls : List GoString) (h : rawLines n ls = []) :
    ∀ o ∈ renderLines n ls, Sound RendererTag o := by
  induction n generalizing ls with
  | zero => exact nofun
  | succ n ih =>
    cases ls with
    | nil => exact nofun
    | cons l ls =>
      rw [rawLines] at h
      rw [renderLines]
      by_cases hfence : hasPrefix l fence = true
      · rw [if_pos hfence] at h ⊢
        exact List.forall_mem_cons.mpr ⟨sound_codeBlock _ (isCode_join _).1, ih _ h⟩
      rw [if_neg hfence] at h ⊢
      cases hheading : find headingRe l with
      | some m =>
        rw [hheading] at h
        exact List.forall_mem_cons.mpr ⟨sound_heading hheading, ih ls h⟩
      | none =>
        rw [hheading] at h
        simp only [Option.isSome_none, Bool.false_eq_true, if_false] at h ⊢
        split_ifs at h ⊢ with hlist hblank hraw
        · exact List.forall_mem_cons.mpr ⟨sound_list _, ih _ h⟩
        · exact ih ls h
        · exact List.forall_mem_cons.mpr ⟨sound_paragraph l, ih ls h⟩

/-- A line that is passed through stands outside the fences and starts with `<`. -/
theorem rawLines_subset (n : Nat) (ls : List GoString) : ∀ l ∈ rawLines n ls,
    l ∈ outsideFences false ls ∧ hasPrefix (trimSpace l) (utf8 "<") = true := by
  induction n generalizing ls with
  | zero => exact nofun
  | succ n ih =>
    cases ls with
    | nil => exact nofun
    | cons k ls =>
      rw [rawLines]
      by_cases hfence : hasPrefix k fence = true
      · rw [if_pos hfence, outsideFences, if_pos hfence, outsideFences_true]
        exact ih _
      have hout : outsideFences false (k :: ls) = k :: outsideFences false ls := by
        rw [outsideFences, if_neg hfence]
      have hrest : ∀ l ∈ rawLines n ls, l ∈ outsideFences false (k :: ls) ∧
          hasPrefix (trimSpace l) (utf8 "<") = true := fun l hl => by
        rw [hout]
        exact ⟨List.mem_cons_of_mem k (ih ls l hl).1, (ih ls l hl).2⟩
      rw [if_neg hfence]
      split_ifs with hheading hlist hblank hraw
      · exact hrest
      · intro l hl
        have hsplit := takeWhile_append_drop (isMatch listRe) (k :: ls)
        have hitems : ∀ l ∈ (k :: ls).takeWhile (isMatch listRe), hasPrefix l fence = false :=
          fun l hl => not_fence_of_listRe (List.mem_takeWhile_imp hl)
        rw [← hsplit, outsideFences_append hitems]
        exact ⟨List.mem_append_right _ (ih _ l hl).1, (ih _ l hl).2⟩
      · exact hrest
      · refine List.forall_mem_cons.mpr ⟨⟨?_, hraw⟩, hrest⟩
        rw [hout]
        exact List.mem_cons_self
      · exact hrest

/-- No line of the text outside the fences starts with `<`. -/
def NoRawLine (src : GoString) : Prop :=
  ∀ l ∈ outsideFences false (segments src), hasPrefix (trimSpace l) (utf8 "<") = false

instance instDecidableNoRawLine (src : GoString) : Decidable (NoRawLine src) :=
  inferInstanceAs (Decidable (∀ _ ∈ _, _))

/-- A text without such a line is rendered with tags of the renderer only. -/
theorem sound_renderMarkdown {src : GoString} (h : NoRawLine src) :
    Sound RendererTag (renderMarkdown src) := by
  have hraw : rawLines (segments src).length (segments src) = [] := by
    rw [List.eq_nil_iff_forall_not_mem]
    intro l hl
    obtain ⟨hout, hopen⟩ := rawLines_subset _ _ l hl
    rw [h l hout] at hopen
    contradiction
  exact sound_join (by decide) (sound_renderLines _ _ hraw)

/-- A link with an event handler, and a tag in a fence. -/
def handlerText : GoString :=
  utf8 "- [x](/)\x7b:onclick=\"a\"\x7d\n```\n<b>\n```"

theorem sound_renderMarkdown_handlerText :
    NoRawLine handlerText ∧ Sound RendererTag (renderMarkdown handlerText) :=
  ⟨by decide +kernel, sound_renderMarkdown (by decide +kernel)⟩

end TrainingPlatform.Content
