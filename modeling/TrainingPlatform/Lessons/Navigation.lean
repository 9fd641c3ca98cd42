import TrainingPlatform.Content.BlockHtml
import TrainingPlatform.Content.Site
import TrainingPlatform.Go.Reference
import TrainingPlatform.Html.Tags
import TrainingPlatform.Lessons.Handler

/-!
# From the index to the lessons

A browser reads the links of the index a build has written and follows them, and the
server answers from the same directory.  The index writes a slug into a link as it stands,
so a name decides whether its link leads to the page.
-/

namespace TrainingPlatform.Lessons.Navigation

open Go Html Content

/-- A browser on the index: the host it asks, and what it reads in the value of an attribute,
where a character reference stands for another text and bytes that are no UTF-8 are replaced.
A reference is longer than the ASCII it stands for, and no other byte becomes a slash. -/
structure Visitor where
  host : GoString
  isHost : HostName host
  decode : GoString → GoString
  rooted : ∀ s, decode (slash :: s) = slash :: decode s
  fewer : ∀ s, (letters (decode s)).length ≤ (letters s).length
  slashes : ∀ s, slash ∉ s → slash ∈ decode s → (letters (decode s)).length < (letters s).length

section

variable (v : Visitor) (dirList : OutDir → GoString → GoString) (env : BuildEnv) (salt : GoString)
  (resolver : Resolver)

/-- Following the link asks for the page of a slug. -/
def AsksFor (href slug : GoString) : Prop :=
  followedPath v.host (v.decode href) = some (slash :: pageOf slug)

/-- Following the link opens what `Render` makes of the lesson. -/
def Opens (o : OutDir) (href : GoString) (e : Entry) : Prop :=
  AsksFor v href (slugOf e.name) ∧ ∃ src l, e.content = .ok src ∧
    render env.toEnv (slugOf e.name) src salt resolver = .ok l ∧
      Handler dirList o.path (some o) (slash :: pageOf (slugOf e.name)) = content l.html

/-- As many pages as lessons, each with its own lesson, and the index links to them: behind
that of the scoreboard its links open the lessons one by one. -/
structure HoldsPages (dir : SourceDir) (b : Built) : Prop where
  count : b.count = (lessonFiles dir.entries).length
  distinct : ((slugs dir.entries).map pageOf).Nodup
  pages : ∀ e ∈ lessonFiles dir.entries, HasPage env salt resolver b.out e
  linked : ∃ index lessons, b.out.readFile indexFile = .ok index ∧
    links index = utf8 "/scoreboard" :: lessons ∧
    List.Forall₂ (Opens v dirList env salt resolver b.out) lessons (lessonFiles dir.entries)

end

/-- A slug that means itself in an attribute and in an address. -/
def LinkSafe (v : Visitor) (slug : GoString) : Prop :=
  (∀ b ∈ slug, b ≠ 0x22 ∧ isPlain b = true) ∧ v.decode (pageOf slug) = pageOf slug

instance (v : Visitor) (slug : GoString) : Decidable (LinkSafe v slug) :=
  inferInstanceAs (Decidable (_ ∧ _))

/-! ## Pages are served -/

variable {dirList : OutDir → GoString → GoString} {o : OutDir} {slug html : GoString}

theorem slash_not_mem_pageOf (hslash : slash ∉ slug) : slash ∉ pageOf slug := by
  rw [pageOf, List.mem_append, not_or]
  exact ⟨hslash, by decide⟩

theorem hasPrefix_slash (path : GoString) : hasPrefix (slash :: path) [slash] = true :=
  List.isPrefixOf_iff_prefix.mpr (List.prefix_append [slash] path)

/-- A page that is there is served at its path. -/
theorem handler_page (hslash : slash ∉ slug) (hindex : slug ≠ utf8 "index")
    (hfile : o.readFile (pageOf slug) = .ok html) :
    Handler dirList o.path (some o) (slash :: pageOf slug) = content html := by
  rw [readFile_eq_ok_iff] at hfile
  have hpage := slash_not_mem_pageOf hslash
  have hne : pageOf slug ≠ [] := List.append_ne_nil_of_right_ne_nil _ (by decide)
  have hclean : cleanRooted (slash :: pageOf slug) = pageOf slug := by
    rw [cleanRooted_slash]
    exact cleanRooted_elem hne hpage (pageOf_ne (by decide) slug) (pageOf_ne (by decide) slug)
  have hnot : hasSuffix (slash :: pageOf slug) indexPage = false := by
    rw [Bool.eq_false_iff]
    intro hsuffix
    obtain ⟨t, ht⟩ := List.isSuffixOf_iff_suffix.mp hsuffix
    have hpages : indexPage = slash :: pageOf (utf8 "index") := by decide
    cases t with
    | nil =>
      rw [List.nil_append, hpages, List.cons.injEq] at ht
      exact hindex (pageOf_injective ht.2.symm)
    | cons b t =>
      rw [List.cons_append, List.cons.injEq] at ht
      refine hpage (ht.2 ▸ List.mem_append_right t ?_)
      decide
  have hend : hasSuffix (slash :: pageOf slug) [slash] = false :=
    hasSuffix_slash (u := [slash]) hne hpage
  have hsome : (o.files (cleanRooted (slash :: pageOf slug))).isSome := by
    rw [hclean, hfile]
    rfl
  rw [Handler, if_neg o.named, if_pos hsome, fileServer, if_pos (hasPrefix_slash _), serveFile,
    hnot, hclean, hfile, hend]
  rfl

/-! ## The links of an index -/

/-- The references of what is read of a text. -/
def linksOf (text : GoString) : List GoString := (read .data text).2.filterMap Tag.link

/-- The tag of a link up to the closing bracket. -/
def linkTag (href : GoString) : Tag := ⟨false, utf8 "a", [⟨utf8 "href", href, some 0x22⟩]⟩

def itemOpen : GoString := utf8 "<li><a href=\"/"

theorem linksOf_append {text rest : GoString} {ts : List Tag} (h : read .data text = (.data, ts)) :
    linksOf (text ++ rest) = ts.filterMap Tag.link ++ linksOf rest := by
  rw [linksOf, read_append h rfl, List.filterMap_append]
  rfl

/-- The reference goes up to the first quote. -/
theorem read_itemOpen {href : GoString} (hquote : 0x22 ∉ href) :
    read .data (itemOpen ++ (href ++ [0x22])) =
      (.afterAttrValue (linkTag (slash :: href)), [⟨false, utf8 "li", []⟩]) := by
  have hopen : read .data itemOpen =
      (.attrValue ⟨false, utf8 "a", []⟩ (utf8 "href") 0x22 [slash], [⟨false, utf8 "li", []⟩]) := by
    decide +kernel
  exact read_append hopen (read_attrValue hquote)

set_option maxRecDepth 8000 in
/-- The head of an index behind its doctype. -/
theorem exists_indexHead : ∃ head, indexHead = utf8 "<!doctype html>" ++ head ∧
    (read .data head).1 = .data ∧ linksOf head = [utf8 "/scoreboard"] := by
  have hchars : ∃ cs, indexHead = utf8 (String.ofList cs) ∧
      hasPrefix (cs.flatMap String.utf8EncodeChar) (utf8 "<!doctype html>") = true ∧
      (read .data ((cs.flatMap String.utf8EncodeChar).drop 15)).1 = .data ∧
      linksOf ((cs.flatMap String.utf8EncodeChar).drop 15) = [utf8 "/scoreboard"] :=
    ⟨_, rfl, by decide +kernel⟩
  obtain ⟨cs, hcs, hpre, hread⟩ := hchars
  rw [← utf8_ofList, ← hcs] at hpre hread
  obtain ⟨head, hhead⟩ := List.isPrefixOf_iff_prefix.mp hpre
  have hlength : (utf8 "<!doctype html>").length = 15 := by decide
  rw [← hhead, ← hlength, List.drop_left] at hread
  exact ⟨head, hhead.symm, hread⟩

theorem linksOf_index (entries : List IndexEntry) :
    links (renderIndex entries) = utf8 "/scoreboard" ::
      linksOf (entries.flatMap indexItem ++ utf8 "</ul></main></body></html>") := by
  obtain ⟨head, hhead, hread, hlinks⟩ := exists_indexHead
  have hindex : renderIndex entries = utf8 "<!doctype html>" ++
      (head ++ (entries.flatMap indexItem ++ utf8 "</ul></main></body></html>")) := by
    rw [renderIndex, hhead]
    simp only [List.append_assoc]
  have hpre : hasPrefix (renderIndex entries) (utf8 "<!doctype html>") = true :=
    List.isPrefixOf_iff_prefix.mpr ⟨_, hindex.symm⟩
  have hhtml : read .data head = (.data, (read .data head).2) := Prod.ext hread rfl
  rw [links, trimPrefix, if_pos hpre, hindex, List.drop_left]
  show linksOf _ = _
  rw [linksOf_append hhtml, ← linksOf, hlinks]
  rfl

/-- An item behind the quote that closes its reference. -/
def itemText (e : IndexEntry) : GoString :=
  utf8 ">" ++ (htmlEscape e.title ++ (utf8 "</a> <span class=\"pill\">" ++
    (itoa e.challenges ++ utf8 " challenge(s)</span></li>")))

theorem indexItem_eq (e : IndexEntry) :
    indexItem e = itemOpen ++ (pageOf e.slug ++ [0x22]) ++ itemText e := by
  have hclose : utf8 ".html\">" = utf8 ".html" ++ ([0x22] ++ utf8 ">") := by decide
  rw [indexItem, hclose, itemOpen, itemText, pageOf]
  simp only [List.append_assoc]

/-- Neither the title nor the number of challenges adds a link. -/
theorem read_itemText (t : Tag) (e : IndexEntry) : ∃ ts,
    read (.afterAttrValue t) (itemText e) = (.data, t :: ts) ∧ ts.filterMap Tag.link = [] := by
  have hdigits : 0x3C ∉ itoa e.challenges := fun hmem =>
    absurd (isDecimal_of_mem_itoa hmem) (by decide)
  have hspan : ∃ ts, read .data (utf8 "</a> <span class=\"pill\">") = (.data, ts) ∧
      ts.filterMap Tag.link = [] := ⟨_, rfl, by decide⟩
  have hend : ∃ ts, read .data (utf8 " challenge(s)</span></li>") = (.data, ts) ∧
      ts.filterMap Tag.link = [] := ⟨_, rfl, by decide⟩
  obtain ⟨ts, hts, hlinks⟩ := hspan
  obtain ⟨ts', hts', hlinks'⟩ := hend
  have hclose : read (.afterAttrValue t) (utf8 ">") = (.data, [t]) := rfl
  refine ⟨[] ++ (ts ++ ([] ++ ts')), read_append hclose (read_append (read_data
    (lt_not_mem_htmlEscape e.title)) (read_append hts (read_append (read_data hdigits) hts'))), ?_⟩
  rw [List.nil_append, List.nil_append, List.filterMap_append, hlinks, hlinks']
  rfl

variable {e : IndexEntry}

theorem linksOf_item (hquote : 0x22 ∉ e.slug) (rest : GoString) :
    linksOf (indexItem e ++ rest) = (slash :: pageOf e.slug) :: linksOf rest := by
  have hpage : 0x22 ∉ pageOf e.slug := by
    rw [pageOf, List.mem_append, not_or]
    exact ⟨hquote, by decide⟩
  obtain ⟨ts, hts, hlinks⟩ := read_itemText (linkTag (slash :: pageOf e.slug)) e
  have hitem := read_append (read_itemOpen hpage) hts
  rw [← indexItem_eq] at hitem
  have hlink : (linkTag (slash :: pageOf e.slug)).link = some (slash :: pageOf e.slug) := by
    simp [Tag.link, Tag.value, linkTag]
  have hli : Tag.link ⟨false, utf8 "li", []⟩ = none := by decide
  rw [linksOf_append hitem, List.singleton_append, List.filterMap_cons_none hli,
    List.filterMap_cons_some hlink, hlinks]
  rfl

/-- A quote in a slug ends the reference, and whatever is behind it makes no link before. -/
theorem linksOf_item_quote {p q : GoString} (hslug : e.slug = p ++ 0x22 :: q) (hp : 0x22 ∉ p)
    (rest : GoString) {href : GoString} (h : (linksOf (indexItem e ++ rest)).head? = some href) :
    href = slash :: p := by
  obtain ⟨behind, hitem⟩ : ∃ behind, indexItem e ++ rest = itemOpen ++ (p ++ [0x22]) ++ behind := by
    refine ⟨q ++ utf8 ".html" ++ [0x22] ++ itemText e ++ rest, ?_⟩
    rw [indexItem_eq, pageOf, hslug]
    simp
  have hread := read_append (read_itemOpen hp) (rfl : read (.afterAttrValue (linkTag (slash :: p)))
    behind = (_, _))
  have hli : Tag.link ⟨false, utf8 "li", []⟩ = none := by decide
  have hlink : (linkTag (slash :: p)).link = some (slash :: p) := by
    simp [Tag.link, Tag.value, linkTag]
  rw [linksOf, hitem, hread, List.singleton_append, List.filterMap_cons_none hli] at h
  cases hts : (read (.afterAttrValue (linkTag (slash :: p))) behind).2 with
  | nil =>
    rw [hts] at h
    cases h
  | cons u ts =>
    have hext : u.Extends (linkTag (slash :: p)) :=
      extends_of_read (m := .afterAttrValue (linkTag (slash :: p))) rfl
        ⟨rfl, rfl, List.prefix_rfl⟩ (by rw [hts]; rfl)
    rw [hts, List.filterMap_cons_some (hext.link hlink)] at h
    exact (Option.some.inj h).symm

/-! ## Where the links lead -/

variable {v : Visitor}

theorem slash_not_mem_slugOf {e : Entry} (hname : slash ∉ e.name) (hlesson : e.isLesson = true) :
    slash ∉ slugOf e.name := by
  rw [Entry.isLesson, Bool.and_eq_true] at hlesson
  obtain ⟨ext, hext, -⟩ := exists_extension hlesson.2
  exact fun hmem => hname (hext ▸ List.mem_append_left ext hmem)

/-- A text with the letters of a page is no dots. -/
theorem contains_lower_of_letters {s : GoString} {names : List GoString}
    (hs : letters s = letters (pageOf slug))
    (hnames : ∀ name ∈ names, ¬ (utf8 ".html").Sublist name) :
    names.contains (asciiLower s) = false := by
  have hext : (utf8 ".html").Sublist s := by
    have hletters : letters (utf8 ".html") = utf8 ".html" := by decide
    rw [pageOf, letters_append, hletters] at hs
    have hfrom : (letters slug ++ utf8 ".html").Sublist s := by
      rw [← hs]
      exact List.filter_sublist
    exact (List.sublist_append_right _ _).trans hfrom
  have hlower : (utf8 ".html").Sublist (asciiLower s) := by
    have hsame : asciiLower (utf8 ".html") = utf8 ".html" := by decide
    have hmap := hext.map fun b => if 0x41 ≤ b && b ≤ 0x5A then b + 0x20 else b
    rwa [← asciiLower, hsame] at hmap
  rw [Bool.eq_false_iff]
  exact fun hmem => hnames _ (List.contains_iff_mem.mp hmem) hlower

/-- It ends as a page, or in bytes that are no ASCII. -/
theorem exists_last_of_letters {s : GoString} (hs : letters s = letters (pageOf slug))
    (hslash : slash ∉ s) : ∃ last, s.getLast? = some last ∧ 0x20 < last := by
  rcases List.eq_nil_or_concat' s with rfl | ⟨init, b, rfl⟩
  · rw [pageOf, letters_append] at hs
    exact absurd (List.append_eq_nil_iff.mp hs.symm).2 (by decide)
  · refine ⟨b, List.getLast?_concat, ?_⟩
    by_cases hlt : b < 0x80
    · have hb : letters [b] = [b] := by
        have hne : b ≠ slash := fun heq => hslash (heq ▸ List.mem_append_right _ List.mem_cons_self)
        exact letters_cons ⟨hlt, hne⟩ []
      have hext : letters (utf8 ".html") = utf8 ".htm" ++ [0x6C] := by decide
      rw [pageOf, letters_append, letters_append, hb, hext, ← List.append_assoc] at hs
      have hlast := (List.append_inj' hs rfl).2
      rw [List.singleton_inj.mp hlast]
      decide
    · exact UInt8.lt_of_lt_of_le (by decide : (0x20 : UInt8) < 0x80) (UInt8.not_lt.mp hlt)

/-- A text with the letters of a page that are all plain is asked for as it stands. -/
theorem followedPath_of_letters {s : GoString} (hs : letters s = letters (pageOf slug))
    (hslash : slash ∉ s) (hplain : ∀ b ∈ s, isPlain b = true) :
    followedPath v.host (slash :: s) = some (slash :: s) := by
  obtain ⟨last, hlast, hspace⟩ := exists_last_of_letters hs hslash
  exact followedPath_segment v.isHost hplain hlast hspace
    (contains_lower_of_letters hs (by decide)) (contains_lower_of_letters hs (by decide))

theorem asksFor_iff (hslash : slash ∉ slug) : AsksFor v (slash :: pageOf slug) slug ↔
    (∀ b ∈ slug, isPlain b = true) ∧ v.decode (pageOf slug) = pageOf slug := by
  have hpage := slash_not_mem_pageOf hslash
  rw [AsksFor, v.rooted]
  constructor
  · intro h
    obtain ⟨hle, hsame⟩ := letters_followedPath v.isHost (hasPrefix_slash _) h
    rw [letters_slash, letters_slash] at hle hsame
    have hlength := le_antisymm hle (v.fewer (pageOf slug))
    obtain ⟨hletters, hplain⟩ := hsame hlength
    have hnone : slash ∉ v.decode (pageOf slug) := fun hmem =>
      absurd (v.slashes _ hpage hmem) (hlength ▸ lt_irrefl _)
    have hall := isPlain_of_letters hnone hplain
    rw [followedPath_of_letters hletters.symm hnone hall, Option.some.injEq, List.cons.injEq] at h
    refine ⟨fun b hb => hall b ?_, h.2⟩
    rw [h.2]
    exact List.mem_append_left _ hb
  · rintro ⟨hplain, hdecode⟩
    have hext : ∀ b ∈ utf8 ".html", isPlain b = true := by decide +kernel
    rw [hdecode]
    exact followedPath_of_letters rfl hpage (List.forall_mem_append.mpr ⟨hplain, hext⟩)

/-- A link that is cut off before a quote asks for too short a path. -/
theorem not_asksFor {p q : GoString} (hslug : slug = p ++ 0x22 :: q) :
    ¬ AsksFor v (slash :: p) slug := by
  rw [AsksFor, v.rooted]
  intro h
  have hle := (letters_followedPath v.isHost (hasPrefix_slash _) h).1
  have hfewer := v.fewer p
  have hquote : (0x22 : UInt8) < 0x80 ∧ (0x22 : UInt8) ≠ slash := by decide
  rw [letters_slash, letters_slash, pageOf, hslug, letters_append, letters_append,
    letters_cons hquote] at hle
  simp only [List.length_append, List.length_cons] at hle
  omega

/-- The links of an index ask for the pages one by one exactly when each slug is safe. -/
theorem forall₂_asksFor_iff {entries : List IndexEntry} {tail : GoString}
    (hnames : ∀ e ∈ entries, slash ∉ e.slug) (htail : linksOf tail = []) :
    List.Forall₂ (AsksFor v) (linksOf (entries.flatMap indexItem ++ tail))
        (entries.map IndexEntry.slug) ↔
      ∀ e ∈ entries, LinkSafe v e.slug := by
  induction entries with
  | nil => simp [htail]
  | cons e entries ih =>
    obtain ⟨hslash, hrest⟩ := List.forall_mem_cons.mp hnames
    rw [List.flatMap_cons, List.append_assoc, List.map_cons, List.forall_mem_cons, ← ih hrest]
    by_cases hquote : 0x22 ∈ e.slug
    · obtain ⟨p, q, hslug, hp⟩ := List.eq_append_cons_of_mem hquote
      constructor
      · intro h
        obtain ⟨href, hrefs, hasks, -, hlinks⟩ := List.forall₂_cons_right_iff.mp h
        have hhref := linksOf_item_quote hslug hp _ (congrArg List.head? hlinks)
        exact absurd (hhref ▸ hasks) (not_asksFor hslug)
      · intro h
        exact absurd rfl (h.1.1 0x22 hquote).1
    · rw [linksOf_item hquote, List.forall₂_cons, asksFor_iff hslash]
      refine and_congr_left fun _ => and_congr_left fun _ =>
        ⟨fun h b hb => ⟨?_, h b hb⟩, fun h b hb => (h b hb).2⟩
      rintro rfl
      exact hquote hb

/-! ## The site -/

/-- After a build that succeeds, each lesson's page holds the lesson and the index leads to it,
exactly when the slugs of the lesson files differ from each other and from that of the index,
and none has a byte that its link or an address reads in another way. -/
theorem holdsPages_iff (v : Visitor) (dirList : OutDir → GoString → GoString) (env : BuildEnv)
    (salt : GoString) (resolver : Resolver) (dir : SourceDir) (out : OutDir) (b : Built)
    (htail : utf8 "\n</html>" <:+ env.pageTmpl.tail)
    (hnames : ∀ e ∈ dir.entries, slash ∉ e.name)
    (h : buildDir env salt resolver dir out = .ok b) :
    HoldsPages v dirList env salt resolver dir b ↔
      DistinctSlugs dir ∧ ∀ slug ∈ slugs dir.entries, LinkSafe v slug := by
  obtain ⟨hcount, ⟨entries, hindex, hslugs⟩, hpages⟩ := site_of_build h
  have hsafe : (∀ e ∈ entries, LinkSafe v e.slug) ↔
      ∀ slug ∈ slugs dir.entries, LinkSafe v slug := by
    rw [← hslugs, List.forall_mem_map]
  have hslash : ∀ e ∈ lessonFiles dir.entries, slash ∉ slugOf e.name := fun e he =>
    slash_not_mem_slugOf (hnames e (List.mem_of_mem_filter he)) (List.of_mem_filter he)
  have hentries : ∀ e ∈ entries, slash ∉ e.slug := by
    intro e he
    have hmem : e.slug ∈ slugs dir.entries := hslugs ▸ List.mem_map_of_mem he
    obtain ⟨d, hd, hdslug⟩ := List.mem_map.mp hmem
    exact hdslug ▸ hslash d hd
  have htags : linksOf (utf8 "</ul></main></body></html>") = [] := by decide
  have hlinks := forall₂_asksFor_iff (v := v) hentries htags
  rw [hslugs, hsafe, slugs, List.forall₂_map_right_iff, ← slugs] at hlinks
  rw [← hlinks]
  constructor
  · intro hholds
    refine ⟨⟨hholds.distinct.of_map _, index_not_mem_slugs htail hindex hholds.pages⟩, ?_⟩
    obtain ⟨index, lessons, hread, hrefs, hopens⟩ := hholds.linked
    rw [hindex, Except.ok.injEq] at hread
    rw [← hread, linksOf_index, List.cons.injEq] at hrefs
    rw [hrefs.2]
    exact hopens.imp fun href e hopen => hopen.1
  · rintro ⟨hdistinct, hasks⟩
    refine ⟨hcount, hdistinct.1.map pageOf_injective, hpages hdistinct, ?_⟩
    have hserved : ∀ e ∈ lessonFiles dir.entries, ∃ src l, e.content = .ok src ∧
        render env.toEnv (slugOf e.name) src salt resolver = .ok l ∧
          Handler dirList b.out.path (some b.out) (slash :: pageOf (slugOf e.name)) =
            content l.html := by
      intro e he
      obtain ⟨src, l, hsrc, hl, hfile⟩ := hpages hdistinct e he
      have hindexSlug : slugOf e.name ≠ utf8 "index" := fun heq =>
        hdistinct.2 (heq ▸ List.mem_map_of_mem he)
      exact ⟨src, l, hsrc, hl, handler_page (hslash e he) hindexSlug hfile⟩
    have hboth := (List.forall₂_and_left _ _).mpr ⟨hserved, List.Forall₂.flip hasks⟩
    exact ⟨_, _, hindex, linksOf_index entries, (List.Forall₂.flip hboth).imp fun _ _ h => h.symm⟩

/-! ## Names of files -/

/-- The pages of lessons without challenges, with the end of the template. -/
def linuxEnv : BuildEnv where
  toEnv := { dockerEnv with
    pageTmpl := { dockerEnv.pageTmpl with tail := utf8 ";\n</script>\n</body>\n</html>" } }
  asset name := name
  verifyJs := utf8 "(function()\x7b\x7d)();"
  marshal _ := utf8 "null"
  unmarshal _ := .ok []

/-- A lesson beside a file with the name of its page. -/
def linuxDir : SourceDir where
  entries := [⟨utf8 "linux.html", false, .ok (utf8 "<p>old</p>")⟩,
    ⟨utf8 "linux.md", false, .ok (utf8 "Files\n")⟩]
  sorted := by
    have hlt : utf8 "linux.html" < utf8 "linux.md" := by decide
    simp [hlt]

/-- Two lessons that differ in the extension. -/
def twoLinuxDir : SourceDir where
  entries := [⟨utf8 "linux.markdown", false, .ok (utf8 "Files\n")⟩,
    ⟨utf8 "linux.md", false, .ok (utf8 "Processes\n")⟩]
  sorted := by
    have hlt : utf8 "linux.markdown" < utf8 "linux.md" := by decide
    simp [hlt]

def linuxOut : OutDir := .empty (utf8 "site") (by decide)

/-- A browser, on values without character references. -/
def localVisitor : Visitor where
  host := utf8 "localhost:8080"
  isHost := ⟨by decide, by decide +kernel⟩
  decode s := s
  rooted _ := rfl
  fewer _ := le_rfl
  slashes _ hnone hmem := absurd hmem hnone

/-- The link of `c#` asks for `/c`. -/
def sharpDir : SourceDir where
  entries := [⟨utf8 "c#.md", false, .ok (utf8 "Types\n")⟩]
  sorted := List.pairwise_singleton _ _

theorem holdsPages_linuxDir :
    (∃ b, buildDir linuxEnv (utf8 "demo-salt") none linuxDir linuxOut = .ok b ∧
      HoldsPages localVisitor (fun _ _ => []) linuxEnv (utf8 "demo-salt") none linuxDir b) ∧
    ∃ b, buildDir linuxEnv (utf8 "demo-salt") none sharpDir linuxOut = .ok b ∧
      DistinctSlugs sharpDir ∧
      ¬ HoldsPages localVisitor (fun _ _ => []) linuxEnv (utf8 "demo-salt") none sharpDir b := by
  have hlinux : ∃ b, buildDir linuxEnv (utf8 "demo-salt") none linuxDir linuxOut = .ok b ∧
      b.count = 1 := ok_of_toOption (by decide +kernel)
  have hsharp : ∃ b, buildDir linuxEnv (utf8 "demo-salt") none sharpDir linuxOut = .ok b ∧
      b.count = 1 := ok_of_toOption (by decide +kernel)
  have htail : utf8 "\n</html>" <:+ linuxEnv.pageTmpl.tail := by decide +kernel
  obtain ⟨b, hb, -⟩ := hlinux
  obtain ⟨b', hb', -⟩ := hsharp
  refine ⟨⟨b, hb, ?_⟩, b', hb', by decide +kernel, ?_⟩
  · exact (holdsPages_iff localVisitor _ linuxEnv _ none linuxDir linuxOut b htail
      (by decide +kernel) hb).mpr (by decide +kernel)
  · rw [holdsPages_iff localVisitor _ linuxEnv _ none sharpDir linuxOut b' htail
      (by decide +kernel) hb']
    decide +kernel

/-- The second lesson replaces the page of the first. -/
theorem not_holdsPages_twoLinuxDir : ∃ b,
    buildDir linuxEnv (utf8 "demo-salt") none twoLinuxDir linuxOut = .ok b ∧ b.count = 2 ∧
      ¬ HoldsPages localVisitor (fun _ _ => []) linuxEnv (utf8 "demo-salt") none twoLinuxDir b := by
  have hbuild : ∃ b, buildDir linuxEnv (utf8 "demo-salt") none twoLinuxDir linuxOut = .ok b ∧
      b.count = 2 := ok_of_toOption (by decide +kernel)
  obtain ⟨b, hb, hcount⟩ := hbuild
  refine ⟨b, hb, hcount, fun hholds => ?_⟩
  exact absurd hholds.distinct (by decide +kernel)

end TrainingPlatform.Lessons.Navigation
