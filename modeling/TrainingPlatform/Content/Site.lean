import TrainingPlatform.Content.Build
import TrainingPlatform.Content.Page
import TrainingPlatform.Content.SamePage

/-!
# The pages of a site

Lesson pages, copied files, the index, the front-end assets and the challenges file share
one output directory.  A page is written to the slug of its file, and two files may have
one slug.  A file that would be copied over a page comes before the page's lesson in the
directory, so the page is written last.
-/

namespace TrainingPlatform.Content

open Go Scoring

def Entry.isLesson (e : Entry) : Bool := !e.isDir && Content.isLesson e.name

def lessonFiles (es : List Entry) : List Entry := es.filter Entry.isLesson

def slugs (es : List Entry) : List GoString := (lessonFiles es).map fun e => slugOf e.name

/-- The page of a lesson file holds what `Render` makes of the file. -/
def HasPage (env : BuildEnv) (salt : GoString) (resolver : Resolver) (o : OutDir) (e : Entry) :
    Prop :=
  ∃ src l, e.content = .ok src ∧ render env.toEnv (slugOf e.name) src salt resolver = .ok l ∧
    o.readFile (pageOf (slugOf e.name)) = .ok l.html

/-- No two lesson files have one slug, and none has the slug of the index. -/
def DistinctSlugs (dir : SourceDir) : Prop :=
  (slugs dir.entries).Nodup ∧ utf8 "index" ∉ slugs dir.entries

instance (dir : SourceDir) : Decidable (DistinctSlugs dir) :=
  inferInstanceAs (Decidable (_ ∧ _))

/-! ## Slugs -/

theorem trimSuffix_append (s suf : GoString) : trimSuffix (s ++ suf) suf = s := by
  have hsuf : hasSuffix (s ++ suf) suf = true :=
    List.isSuffixOf_iff_suffix.mpr (List.suffix_append s suf)
  rw [trimSuffix, if_pos hsuf, List.length_append, Nat.add_sub_cancel, List.take_left]

theorem trimSuffix_of_not {s suf : GoString} (h : ¬ suf <:+ s) : trimSuffix s suf = s :=
  if_neg fun hsuf => h (List.isSuffixOf_iff_suffix.mp hsuf)

/-- What is behind the slug of a lesson file sorts behind the extension of a page. -/
theorem exists_extension {name : GoString} (h : isLesson name = true) :
    ∃ ext, name = slugOf name ++ ext ∧ utf8 ".html" < ext := by
  rw [isLesson, Bool.or_eq_true, hasSuffix, hasSuffix, List.isSuffixOf_iff_suffix,
    List.isSuffixOf_iff_suffix] at h
  by_cases hlong : utf8 ".markdown" <:+ name
  · obtain ⟨s, rfl⟩ := hlong
    rw [slugOf, trimSuffix_append]
    by_cases hshort : utf8 ".md" <:+ s
    · obtain ⟨t, rfl⟩ := hshort
      rw [trimSuffix_append]
      exact ⟨utf8 ".md" ++ utf8 ".markdown", List.append_assoc _ _ _, by decide⟩
    · rw [trimSuffix_of_not hshort]
      exact ⟨utf8 ".markdown", rfl, by decide⟩
  · obtain ⟨s, rfl⟩ := h.resolve_right hlong
    rw [slugOf, trimSuffix_of_not hlong, trimSuffix_append]
    exact ⟨utf8 ".md", rfl, by decide⟩

/-- A page sorts before its lesson file. -/
theorem pageOf_lt {name : GoString} (h : isLesson name = true) : pageOf (slugOf name) < name := by
  obtain ⟨ext, hname, hlt⟩ := exists_extension h
  calc pageOf (slugOf name) < slugOf name ++ ext := List.append_left_lt hlt
    _ = name := hname.symm

theorem pageOf_injective : Function.Injective pageOf := fun _ _ h => List.append_cancel_right h

theorem pageOf_ne {path : GoString} (h : hasSuffix path (utf8 ".html") = false) (slug : GoString) :
    pageOf slug ≠ path := by
  intro heq
  have hpage : hasSuffix (pageOf slug) (utf8 ".html") = true :=
    List.isSuffixOf_iff_suffix.mpr (List.suffix_append slug _)
  rw [heq, h] at hpage
  cases hpage

/-! ## Writing -/

variable {env : BuildEnv} {salt : GoString} {resolver : Resolver} {o o' : OutDir} {p p' : Progress}
  {e : Entry} {path bytes : GoString}

theorem files_writeFile_of_ne (h : o.writeFile path bytes = .ok o') {q : GoString} (hq : q ≠ path) :
    o'.files q = o.files q := by
  rw [(writeFile_ok h).2.1, Function.update_of_ne hq]

theorem files_writeFile (h : o.writeFile path bytes = .ok o') : o'.files path = some bytes := by
  rw [(writeFile_ok h).2.1, Function.update_self]

theorem files_mkdirAll (h : o.mkdirAll path = .ok o') : o'.files = o.files := by
  unfold OutDir.mkdirAll at h
  split_ifs at h
  rw [← Except.ok.inj h]

theorem files_writeFiles {dir : GoString} {content : GoString → GoString} {names : List GoString}
    (h : writeFiles dir content names o = .ok o') {q : GoString}
    (hq : ∀ name ∈ names, q ≠ dir ++ utf8 "/" ++ name) : o'.files q = o.files q := by
  induction names generalizing o with
  | nil => rw [← Except.ok.inj h]
  | cons name names ih =>
    obtain ⟨hne, hq⟩ := List.forall_mem_cons.mp hq
    obtain ⟨o₁, hwrite, h⟩ := bind_eq_ok.mp h
    rw [ih h hq, files_writeFile_of_ne hwrite hne]

/-- The front-end assets have no page's name. -/
theorem files_writeAssets (h : writeAssets env o = .ok o') (slug : GoString) :
    o'.files (pageOf slug) = o.files (pageOf slug) := by
  have hassets : ∀ name ∈ assetNames,
      hasSuffix (utf8 "assets" ++ utf8 "/" ++ name) (utf8 ".html") = false := by decide
  obtain ⟨o₁, hdir, h⟩ := bind_eq_ok.mp h
  obtain ⟨o₂, hfiles, h⟩ := bind_eq_ok.mp h
  obtain ⟨o₃, hjs, h⟩ := bind_eq_ok.mp h
  rw [files_writeFile_of_ne h (pageOf_ne (by decide) slug), files_mkdirAll hjs,
    files_writeFiles hfiles fun name hname => pageOf_ne (hassets name hname) slug,
    files_mkdirAll hdir]

theorem indexFile_eq : indexFile = pageOf (utf8 "index") := by decide

/-- Behind the lessons only the index can be written over a page. -/
theorem finishSite_files {b : Built} (h : finishSite env p = .ok b) :
    b.count = p.index.length ∧ b.out.files indexFile = some (renderIndex p.index) ∧
      ∀ slug, slug ≠ utf8 "index" → b.out.files (pageOf slug) = p.out.files (pageOf slug) := by
  obtain ⟨o₁, hindex, h⟩ := bind_eq_ok.mp h
  obtain ⟨o₂, hassets, h⟩ := bind_eq_ok.mp h
  obtain ⟨o₃, hchallenges, h⟩ := bind_eq_ok.mp h
  cases Except.ok.inj h
  have hlater : ∀ slug, o₃.files (pageOf slug) = o₁.files (pageOf slug) := by
    intro slug
    rw [files_writeFile_of_ne hchallenges (pageOf_ne (by decide) slug),
      files_writeAssets (wrapError_eq_ok.mp hassets)]
  refine ⟨rfl, ?_, fun slug hslug => ?_⟩
  · rw [indexFile_eq, hlater, ← indexFile_eq, files_writeFile hindex]
  · rw [hlater, files_writeFile_of_ne hindex]
    exact indexFile_eq ▸ pageOf_injective.ne hslug

/-! ## The loop over the entries -/

/-- The three things the loop does with an entry. -/
theorem buildEntry_cases (h : buildEntry env salt resolver p e = .ok p') :
    (e.isLesson = false ∧ p'.index = p.index ∧ (p'.out = p.out ∨
        ∃ b, p.out.writeFile e.name b = .ok p'.out)) ∨
      e.isLesson = true ∧ ∃ src l, e.content = .ok src ∧
        render env.toEnv (slugOf e.name) src salt resolver = .ok l ∧
        p.out.writeFile (pageOf (slugOf e.name)) l.html = .ok p'.out ∧
        p'.index.map IndexEntry.slug = p.index.map IndexEntry.slug ++ [slugOf e.name] := by
  rw [buildEntry] at h
  by_cases hdir : e.isDir = true
  · rw [if_pos hdir] at h
    cases Except.ok.inj h
    exact .inl ⟨by simp [Entry.isLesson, hdir], rfl, .inl rfl⟩
  · rw [if_neg hdir] at h
    by_cases hlesson : isLesson e.name = true
    · rw [if_neg (by simp [hlesson])] at h
      obtain ⟨src, hsrc, h⟩ := bind_eq_ok.mp h
      obtain ⟨l, hl, h⟩ := bind_eq_ok.mp h
      obtain ⟨out, hwrite, h⟩ := bind_eq_ok.mp h
      cases Except.ok.inj h
      refine .inr ⟨by simp [Entry.isLesson, hdir, hlesson], src, l, hsrc, wrapError_eq_ok.mp hl,
        hwrite, ?_⟩
      rw [List.map_append]
      rfl
    · rw [if_pos (by simpa using hlesson)] at h
      cases Except.ok.inj h
      refine .inl ⟨by simp [Entry.isLesson, hlesson], ?_, ?_⟩
      · unfold Progress.copy
        split
        · rfl
        · split <;> rfl
      · unfold Progress.copy
        split
        · exact .inl rfl
        · rename_i b _
          split
          · exact .inl rfl
          · exact .inr ⟨b, ‹_›⟩

theorem lessonFiles_concat (es : List Entry) (e : Entry) :
    lessonFiles (es ++ [e]) = lessonFiles es ++ if e.isLesson then [e] else [] := by
  rw [lessonFiles, List.filter_append, List.filter_cons]
  rfl

theorem index_buildEntries {es : List Entry} (h : buildEntries env salt resolver p es = .ok p') :
    p'.index.map IndexEntry.slug = p.index.map IndexEntry.slug ++ slugs es := by
  induction es generalizing p with
  | nil =>
    cases Except.ok.inj h
    exact (List.append_nil _).symm
  | cons e es ih =>
    obtain ⟨q, he, h⟩ := bind_eq_ok.mp h
    rw [ih h, slugs, slugs, lessonFiles, lessonFiles, List.filter_cons]
    rcases buildEntry_cases he with ⟨hno, hindex, -⟩ | ⟨hyes, -, -, -, -, -, hindex⟩
    · rw [hindex, hno]
      rfl
    · rw [hindex, hyes, List.append_assoc]
      rfl

theorem HasPage.keep {d : Entry} (h : HasPage env salt resolver o d)
    (hkeep : o'.files (pageOf (slugOf d.name)) = o.files (pageOf (slugOf d.name))) :
    HasPage env salt resolver o' d := by
  obtain ⟨src, l, hsrc, hl, hfile⟩ := h
  refine ⟨src, l, hsrc, hl, ?_⟩
  rw [readFile_eq_ok_iff] at hfile ⊢
  rw [hkeep, hfile]

/-- A copied file is behind the lessons whose pages it could replace, and a lesson with
another slug has another page. -/
theorem pages_buildEntry {done : List Entry} (h : buildEntry env salt resolver p e = .ok p')
    (hbefore : ∀ d ∈ done, d.name < e.name)
    (hslug : e.isLesson = true → slugOf e.name ∉ slugs done)
    (hp : ∀ d ∈ lessonFiles done, HasPage env salt resolver p.out d) :
    ∀ d ∈ lessonFiles (done ++ [e]), HasPage env salt resolver p'.out d := by
  intro d hd
  rw [lessonFiles_concat, List.mem_append] at hd
  rcases buildEntry_cases h with ⟨hno, -, hout⟩ | ⟨hyes, src, l, hsrc, hl, hwrite, -⟩
  · rw [hno] at hd
    have hdone : d ∈ lessonFiles done := hd.resolve_right List.not_mem_nil
    rcases hout with hsame | ⟨b, hcopy⟩
    · exact (hp d hdone).keep (by rw [hsame])
    · obtain ⟨hmem, hlesson⟩ := List.mem_filter.mp hdone
      rw [Entry.isLesson, Bool.and_eq_true] at hlesson
      have hlt : pageOf (slugOf d.name) < e.name :=
        List.lt_trans (pageOf_lt hlesson.2) (hbefore d hmem)
      refine (hp d hdone).keep (files_writeFile_of_ne hcopy fun heq => ?_)
      exact List.lt_irrefl _ (heq ▸ hlt)
  · rw [hyes, if_pos rfl, List.mem_singleton] at hd
    rcases hd with hdone | rfl
    · refine (hp d hdone).keep (files_writeFile_of_ne hwrite fun heq => ?_)
      exact hslug hyes (pageOf_injective heq ▸ List.mem_map_of_mem hdone)
    · exact ⟨src, l, hsrc, hl, readFile_writeFile hwrite⟩

theorem pages_buildEntries (done : List Entry) {es : List Entry}
    (h : buildEntries env salt resolver p es = .ok p')
    (hsorted : (done ++ es).Pairwise fun a b => a.name < b.name)
    (hslugs : (slugs (done ++ es)).Nodup)
    (hp : ∀ d ∈ lessonFiles done, HasPage env salt resolver p.out d) :
    ∀ d ∈ lessonFiles (done ++ es), HasPage env salt resolver p'.out d := by
  induction es generalizing p done with
  | nil =>
    cases Except.ok.inj h
    rwa [List.append_nil]
  | cons e es ih =>
    obtain ⟨q, he, h⟩ := bind_eq_ok.mp h
    rw [← List.singleton_append, ← List.append_assoc] at hsorted hslugs ⊢
    refine ih _ h hsorted hslugs (pages_buildEntry he ?_ ?_ hp)
    · intro d hd
      have hpair := (List.pairwise_append.mp (List.pairwise_append.mp hsorted).1).2.2
      exact hpair d hd e (List.mem_singleton_self e)
    · intro hlesson hmem
      rw [slugs, lessonFiles, List.filter_append, List.map_append] at hslugs
      have hnodup := (List.nodup_append.mp hslugs).1
      rw [← lessonFiles, lessonFiles_concat, hlesson, if_pos rfl, List.map_append] at hnodup
      exact (List.nodup_append.mp hnodup).2.2 _ hmem _ (List.mem_singleton_self _) rfl

/-! ## The index -/

/-- The index does not end as a lesson page does. -/
theorem renderIndex_ne {tail : GoString} (htail : utf8 "\n</html>" <:+ tail) (page : GoString)
    (entries : List IndexEntry) : page ++ tail ≠ renderIndex entries := by
  intro heq
  have hpage : utf8 "\n</html>" <:+ renderIndex entries :=
    heq ▸ htail.trans (List.suffix_append page tail)
  have hindex : utf8 "</ul></main></body></html>" <:+ renderIndex entries := by
    rw [renderIndex]
    exact List.suffix_append _ _
  exact absurd (List.suffix_of_suffix_length_le hpage hindex (by decide)) (by decide)

theorem html_eq_of_render {env : Env} {slug src : GoString} {l : Lesson}
    (h : render env slug src salt resolver = .ok l) :
    ∃ page, l.html = page ++ env.pageTmpl.tail := by
  have hpage := render_page h
  cases ha : l.frontMatter.asserts with
  | false =>
    rw [(hpage.plain ha).1]
    exact ⟨_, rfl⟩
  | true =>
    obtain ⟨r, -, hhtml, -⟩ := hpage.asserting ha
    rw [hhtml]
    exact ⟨_, rfl⟩

/-- No lesson has the slug of the index when all have their pages. -/
theorem index_not_mem_slugs {entries : List IndexEntry} {es : List Entry}
    (htail : utf8 "\n</html>" <:+ env.pageTmpl.tail)
    (hindex : o.readFile indexFile = .ok (renderIndex entries))
    (hpages : ∀ e ∈ lessonFiles es, HasPage env salt resolver o e) :
    utf8 "index" ∉ slugs es := by
  intro hmem
  obtain ⟨e, he, hslug⟩ := List.mem_map.mp hmem
  obtain ⟨src, l, -, hl, hfile⟩ := hpages e he
  obtain ⟨page, hhtml⟩ := html_eq_of_render hl
  rw [hslug, ← indexFile_eq, hindex, Except.ok.injEq, hhtml] at hfile
  exact renderIndex_ne htail page entries hfile.symm

/-- A build leaves an index of the slugs in their order and, when these are distinct, the page
of each lesson. -/
theorem site_of_build {dir : SourceDir} {out : OutDir} {b : Built}
    (h : buildDir env salt resolver dir out = .ok b) :
    b.count = (lessonFiles dir.entries).length ∧
      (∃ entries, b.out.readFile indexFile = .ok (renderIndex entries) ∧
        entries.map IndexEntry.slug = slugs dir.entries) ∧
      (DistinctSlugs dir → ∀ e ∈ lessonFiles dir.entries, HasPage env salt resolver b.out e) := by
  obtain ⟨p, hentries, hfinish⟩ := bind_eq_ok.mp h
  obtain ⟨hcount, hindex, hkeep⟩ := finishSite_files hfinish
  have hslugs : p.index.map IndexEntry.slug = slugs dir.entries := index_buildEntries hentries
  refine ⟨?_, ⟨p.index, readFile_eq_ok_iff.mpr hindex, hslugs⟩, fun hdistinct e he => ?_⟩
  · have hlength := congrArg List.length hslugs
    rw [List.length_map, slugs, List.length_map] at hlength
    rw [hcount, hlength]
  · have hpage := pages_buildEntries [] hentries dir.sorted hdistinct.1
      (fun _ hd => absurd hd List.not_mem_nil) e he
    exact hpage.keep (hkeep _ fun heq => hdistinct.2 (heq ▸ List.mem_map_of_mem he))

end TrainingPlatform.Content
