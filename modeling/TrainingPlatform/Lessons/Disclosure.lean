import TrainingPlatform.Content.Grading
import TrainingPlatform.Lessons.Handler
import TrainingPlatform.Scoring.Http

/-!
# What GET requests disclose

Two lesson directories that differ in the marks of quiz choices are built with the
same salt and resolver into one output directory, which is served and whose
challenges file seeds the store.
-/

namespace TrainingPlatform.Lessons

open Go Scoring Content

/-! ## Sites that differ in marks -/

structure RemarkedEntry (e e' : Entry) : Prop where
  name : e.name = e'.name
  isDir : e.isDir = e'.isDir
  content : SameOutcome (fun b b' => if isLesson e.name then Remarked b b' else b = b')
    e.content e'.content

/-- The same files, but for marks of quiz choices in lessons. -/
def RemarkedDir (D D' : SourceDir) : Prop := List.Forall₂ RemarkedEntry D.entries D'.entries

inductive RemarkedLessonBlock : LessonBlock → LessonBlock → Prop
  | quiz (slug : GoString) {q q' : Quiz} : SameQuiz q q' →
      RemarkedLessonBlock (.quiz slug q) (.quiz slug q')
  | exercise (slug text : GoString) (flags : List GoString) :
      RemarkedLessonBlock (.exercise slug text flags) (.exercise slug text flags)

theorem replaceBlocks_remarked {bs bs' : List Block} (h : List.Forall₂ RemarkedBlock bs bs')
    (rest : GoString) (i : Nat) : replaceBlocks rest i bs = replaceBlocks rest i bs' := by
  induction h generalizing i with
  | nil => rfl
  | cons hb _ ih => rw [replaceBlocks, replaceBlocks, hb.before, ih]

theorem lessonBlocks_remarked (env : Env) (resolver : Resolver) (slug : GoString)
    {src src' : GoString} (h : Remarked src src') :
    List.Forall₂ RemarkedLessonBlock (lessonBlocks env resolver slug src)
      (lessonBlocks env resolver slug src') := by
  obtain ⟨hblocks, hrest⟩ := blocks_remarked (bodyOf_remarked h)
  have hquizzes : List.Forall₂ SameQuiz (quizzesOf src) (quizzesOf src') :=
    List.forall₂_map_left_iff.mpr (List.forall₂_map_right_iff.mpr
      (hblocks.imp fun _ _ hb => sameQuiz_of_remarkedInner hb.inner))
  have hexercises : exercisesOf src = exercisesOf src' := by
    rw [exercisesOf, exercisesOf, hrest, replaceBlocks_remarked hblocks]
  have hflags : exerciseFlagsOf env resolver src = exerciseFlagsOf env resolver src' := by
    have hsplit := splitFrontMatter_remarked env.yaml h
    unfold exerciseFlagsOf
    generalize splitFrontMatter env.yaml src = r at hsplit ⊢
    generalize splitFrontMatter env.yaml src' = r' at hsplit ⊢
    cases hsplit with
    | error e => rfl
    | ok hr =>
      dsimp only
      rw [hr.1]
  rw [lessonBlocks, lessonBlocks, hexercises, hflags]
  refine List.rel_append ?_ (List.forall₂_same.mpr fun L hL => ?_)
  · exact List.forall₂_map_left_iff.mpr (List.forall₂_map_right_iff.mpr
      (hquizzes.imp fun _ _ hq => .quiz slug hq))
  · obtain ⟨text, -, rfl⟩ := List.mem_map.mp hL
    exact .exercise slug text _

theorem entryBlocks_remarked (env : Env) (resolver : Resolver) {e e' : Entry}
    (h : RemarkedEntry e e') :
    List.Forall₂ RemarkedLessonBlock (entryBlocks env resolver e) (entryBlocks env resolver e') := by
  obtain ⟨name, isDir, content⟩ := e
  obtain ⟨name', isDir', content'⟩ := e'
  obtain ⟨hname, hdir, hcontent⟩ := h
  dsimp only at hname hdir hcontent
  subst hname hdir
  unfold entryBlocks
  dsimp only
  by_cases hskip : (isDir || !isLesson name) = true
  · rw [if_pos hskip, if_pos hskip]
    exact .nil
  · rw [if_neg hskip, if_neg hskip]
    cases hcontent with
    | error e => exact .nil
    | ok hr =>
      have hlesson : isLesson name = true := by
        rw [Bool.or_eq_true, not_or] at hskip
        simpa using hskip.2
      rw [if_pos hlesson] at hr
      exact lessonBlocks_remarked env resolver (slugOf name) hr

theorem siteBlocks_remarked (env : Env) (resolver : Resolver) {D D' : SourceDir}
    (h : RemarkedDir D D') :
    List.Forall₂ RemarkedLessonBlock (siteBlocks env resolver D) (siteBlocks env resolver D') :=
  List.rel_flatMap h fun _ _ he => entryBlocks_remarked env resolver he

/-! ## Their builds -/

structure SameProgress (p p' : Progress) : Prop where
  out : p.out = p'.out
  index : p.index = p'.index
  all : List.Forall₂ SameButFlags p.all p'.all

theorem addLesson_related {p p' : Progress} {l l' : Lesson} (hp : SameProgress p p')
    (hl : SameLesson l l') (slug : GoString) :
    SameOutcome SameProgress (p.addLesson slug l) (p'.addLesson slug l') := by
  unfold Progress.addLesson
  rw [hp.out, hl.html]
  refine .bind_left _ fun out => .ok ⟨rfl, ?_, List.rel_append hp.all hl.challenges⟩
  rw [hp.index, hl.frontMatter, hl.challenges.length_eq]

theorem copy_related {p p' : Progress} (hp : SameProgress p p') (e : Entry) :
    SameProgress (p.copy e) (p'.copy e) := by
  unfold Progress.copy
  cases e.content with
  | error _ => exact hp
  | ok b =>
    dsimp only
    rw [hp.out]
    cases p'.out.writeFile e.name b with
    | error _ => exact hp
    | ok out => exact ⟨rfl, hp.index, hp.all⟩

theorem buildEntry_related (env : BuildEnv) (salt : GoString) (resolver : Resolver)
    {p p' : Progress} {e e' : Entry} (hp : SameProgress p p') (he : RemarkedEntry e e') :
    SameOutcome SameProgress (buildEntry env salt resolver p e) (buildEntry env salt resolver p' e') := by
  obtain ⟨name, isDir, content⟩ := e
  obtain ⟨name', isDir', content'⟩ := e'
  obtain ⟨hname, hdir, hcontent⟩ := he
  dsimp only at hname hdir hcontent
  subst hname hdir
  unfold buildEntry
  dsimp only
  by_cases hd : isDir = true
  · rw [if_pos hd, if_pos hd]
    exact .ok hp
  · rw [if_neg hd, if_neg hd]
    by_cases hl : isLesson name = true
    · rw [if_neg (by simp [hl]), if_neg (by simp [hl])]
      refine hcontent.bind fun src src' hr => ?_
      rw [if_pos hl] at hr
      have hrender := render_related env.toEnv (slugOf name) salt resolver hr
      exact (hrender.wrapError _).bind fun l l' hlesson => addLesson_related hp hlesson _
    · rw [if_pos (by simp [hl]), if_pos (by simp [hl])]
      cases hcontent with
      | error err => exact .ok (copy_related hp _)
      | ok hr =>
        rw [if_neg hl] at hr
        rw [hr]
        exact .ok (copy_related hp _)

theorem buildEntries_related (env : BuildEnv) (salt : GoString) (resolver : Resolver)
    {p p' : Progress} {es es' : List Entry} (hp : SameProgress p p')
    (h : List.Forall₂ RemarkedEntry es es') :
    SameOutcome SameProgress (buildEntries env salt resolver p es)
      (buildEntries env salt resolver p' es') := by
  induction h generalizing p p' with
  | nil => exact .ok hp
  | @cons e e' es es' he _ ih =>
    rw [buildEntries, buildEntries]
    exact (buildEntry_related env salt resolver hp he).bind fun q q' hq => ih hq

/-- Directories that agree but for one file. -/
def SameBut (path : GoString) (o o' : OutDir) : Prop :=
  o.path = o'.path ∧ o.dirs = o'.dirs ∧ ∀ p, p ≠ path → o.files p = o'.files p

theorem writeFile_related (o : OutDir) (path bytes bytes' : GoString) :
    SameOutcome (SameBut path) (o.writeFile path bytes) (o.writeFile path bytes') := by
  unfold OutDir.writeFile
  by_cases h : o.dirs path = true
  · rw [dif_pos h, dif_pos h]
    exact .error _
  · rw [dif_neg h, dif_neg h]
    refine .ok ⟨rfl, rfl, fun p hp => ?_⟩
    dsimp only
    rw [Function.update_of_ne hp, Function.update_of_ne hp]

/-- The same site but for the challenges file. -/
structure SameSite (b b' : Built) : Prop where
  count : b.count = b'.count
  all : List.Forall₂ SameButFlags b.all b'.all
  out : SameBut challengesFile b.out b'.out

theorem finishSite_related (env : BuildEnv) {p p' : Progress} (hp : SameProgress p p') :
    SameOutcome SameSite (finishSite env p) (finishSite env p') := by
  unfold finishSite
  rw [hp.out, hp.index]
  refine .bind_left _ fun o => .bind_left _ fun o => ?_
  have hwrite := writeFile_related o challengesFile (env.marshal p.all) (env.marshal p'.all)
  exact hwrite.bind fun o o' hsame => .ok ⟨rfl, hp.all, hsame⟩

theorem buildDir_related (env : BuildEnv) (salt : GoString) (resolver : Resolver) {D D' : SourceDir}
    (h : RemarkedDir D D') (out : OutDir) :
    SameOutcome SameSite (buildDir env salt resolver D out) (buildDir env salt resolver D' out) := by
  have hstart : SameProgress ⟨out, [], []⟩ ⟨out, [], []⟩ := ⟨rfl, rfl, .nil⟩
  exact (buildEntries_related env salt resolver hstart h).bind fun p p' hp =>
    finishSite_related env hp

/-! ## What is served -/

/-- The store a server with this challenges file starts with. -/
def Boots (env : BuildEnv) (g : PhashGrader) (b : Built) (s : Store) : Prop :=
  ∃ n, (Store.newStore g).loadFile env.unmarshal (b.out.readFile challengesFile) = .ok (n, s)

/-- What `List` may return: `sort.Slice` leaves challenges of one name in any order. -/
def IsListing (s : Store) (cs : List Challenge) : Prop :=
  cs.Perm (s.byHash.entries.map Sigma.snd) ∧ cs.Pairwise fun a b => ¬ b.name < a.name

/-- The bodies of GET requests to the lessons handler and to the two challenge
endpoints are the same for both sites. -/
structure SameBodies (dirList : OutDir → GoString → GoString) (b b' : Built) (s s' : Store) :
    Prop where
  lessons : ∀ path, (Handler dirList b.out.path (some b.out) path).body =
    (Handler dirList b'.out.path (some b'.out) path).body
  list : ∀ body, (∃ cs, IsListing s cs ∧ body = (handleList cs).body) ↔
    ∃ cs, IsListing s' cs ∧ body = (handleList cs).body
  hash : ∀ path, (handleHash s path).body = (handleHash s' path).body

theorem handler_some (dirList : OutDir → GoString → GoString) (o : OutDir) (path : GoString) :
    Handler dirList o.path (some o) path =
      if (o.files (cleanRooted path)).isSome then fileServer dirList o path
      else if (o.files indexFile).isSome || o.dirs indexFile then
        if containsDotDot path then httpError 400 "invalid URL path"
        else serveFile dirList o path indexFile false
      else fileServer dirList o path := by
  rw [Handler, if_neg o.named]

/-- The challenges file is one of the files of the site. -/
theorem body_challengesFile (dirList : OutDir → GoString → GoString) {o : OutDir}
    {bytes : GoString} (h : o.readFile challengesFile = .ok bytes) :
    (Handler dirList o.path (some o) (utf8 "/challenges.json")).body = bytes := by
  have hfile := readFile_eq_ok_iff.mp h
  have hclean : cleanRooted (utf8 "/challenges.json") = challengesFile := by decide
  have hrooted : hasPrefix (utf8 "/challenges.json") [slash] = true := by decide
  have hindex : ¬ hasSuffix (utf8 "/challenges.json") indexPage = true := by decide
  have hslash : hasSuffix (utf8 "/challenges.json") [slash] = false := by decide
  rw [handler_some, hclean, hfile, if_pos Option.isSome_some, fileServer, if_pos hrooted, hclean,
    serveFile, if_neg hindex, hfile, hslash]
  rfl

/-! ## What stays the same -/

/-- A write removes no file. -/
theorem isSome_writeFile {o o' : OutDir} {path bytes p : GoString}
    (h : o.writeFile path bytes = .ok o') (hp : (o.files p).isSome = true) :
    (o'.files p).isSome = true := by
  rw [(writeFile_ok h).2.1]
  by_cases he : p = path
  · rw [he, Function.update_self]
    rfl
  · rwa [Function.update_of_ne he]

theorem isSome_writeFiles {dir : GoString} {content : GoString → GoString} {names : List GoString}
    {o o' : OutDir} {p : GoString} (h : writeFiles dir content names o = .ok o')
    (hp : (o.files p).isSome = true) : (o'.files p).isSome = true := by
  induction names generalizing o with
  | nil =>
    rw [writeFiles, Except.ok.injEq] at h
    rwa [← h]
  | cons name names ih =>
    rw [writeFiles] at h
    obtain ⟨o₁, hw, h⟩ := bind_eq_ok.mp h
    exact ih h (isSome_writeFile hw hp)

theorem files_mkdirAll {o o' : OutDir} {path : GoString} (h : o.mkdirAll path = .ok o') :
    o'.files = o.files := by
  unfold OutDir.mkdirAll at h
  split_ifs at h
  rw [Except.ok.injEq] at h
  rw [← h]

theorem isSome_writeAssets {env : BuildEnv} {o o' : OutDir} {p : GoString}
    (h : writeAssets env o = .ok o') (hp : (o.files p).isSome = true) :
    (o'.files p).isSome = true := by
  obtain ⟨o₁, h₁, h⟩ := bind_eq_ok.mp h
  obtain ⟨o₂, h₂, h⟩ := bind_eq_ok.mp h
  obtain ⟨o₃, h₃, h⟩ := bind_eq_ok.mp h
  refine isSome_writeFile h ?_
  rw [files_mkdirAll h₃]
  refine isSome_writeFiles h₂ ?_
  rwa [files_mkdirAll h₁]

/-- A built site has an index. -/
theorem isSome_index {env : BuildEnv} {salt : GoString} {resolver : Resolver} {D : SourceDir}
    {out : OutDir} {b : Built} (h : buildDir env salt resolver D out = .ok b) :
    (b.out.files indexFile).isSome = true := by
  obtain ⟨p, -, h⟩ := bind_eq_ok.mp h
  obtain ⟨o₁, h₁, h⟩ := bind_eq_ok.mp h
  obtain ⟨o₂, h₂, h⟩ := bind_eq_ok.mp h
  obtain ⟨o₃, h₃, h⟩ := bind_eq_ok.mp h
  rw [Except.ok.injEq] at h
  rw [← h]
  refine isSome_writeFile h₃ (isSome_writeAssets (wrapError_eq_ok.mp h₂) ?_)
  rw [(writeFile_ok h₁).2.1, Function.update_self]
  rfl

theorem serveFile_congr (dirList : OutDir → GoString → GoString) {o o' : OutDir} {name : GoString}
    (hfiles : o.files name = o'.files name) (hsome : (o.files name).isSome = true) (url : GoString)
    (redirect : Bool) :
    serveFile dirList o url name redirect = serveFile dirList o' url name redirect := by
  obtain ⟨bytes, hbytes⟩ := Option.isSome_iff_exists.mp hsome
  rw [serveFile, serveFile, ← hfiles, hbytes]

/-- A request for any other file than the challenges file gets the same response. -/
theorem handler_eq_of_ne (dirList : OutDir → GoString → GoString) {o o' : OutDir}
    (h : SameBut challengesFile o o') (hindex : (o.files indexFile).isSome = true)
    {path : GoString} (hpath : cleanRooted path ≠ challengesFile) :
    Handler dirList o.path (some o) path = Handler dirList o'.path (some o') path := by
  obtain ⟨hname, -, hfiles⟩ := h
  have hsame := hfiles _ hpath
  have hsameIndex : o.files indexFile = o'.files indexFile := hfiles _ (by decide)
  rw [handler_some, handler_some, ← hsame, ← hsameIndex, hindex]
  by_cases hsome : (o.files (cleanRooted path)).isSome = true
  · rw [if_pos hsome, if_pos hsome, fileServer, fileServer]
    refine serveFile_congr dirList ?_ ?_ _ _
    · split_ifs
      · exact hsame
      · rw [cleanRooted_slash]
        exact hsame
    · split_ifs
      · exact hsome
      · rwa [cleanRooted_slash]
  · rw [if_neg hsome, if_neg hsome, Bool.true_or, Bool.true_or, if_pos rfl, if_pos rfl]
    split_ifs
    · rfl
    · exact serveFile_congr dirList hsameIndex hindex _ _

/-- Entries of two stores under one hash. -/
def SameKeyed (e e' : Sigma fun _ : GoString => Challenge) : Prop :=
  e.1 = e'.1 ∧ SameButFlags e.2 e'.2

def SameStore (s s' : Store) : Prop :=
  List.Forall₂ SameKeyed s.byHash.entries s'.byHash.entries

theorem kerase_related {l l' : List (Sigma fun _ : GoString => Challenge)}
    (h : List.Forall₂ SameKeyed l l') (k : GoString) :
    List.Forall₂ SameKeyed (l.kerase k) (l'.kerase k) := by
  induction h with
  | nil => exact .nil
  | @cons e e' l l' he h ih =>
    by_cases hk : k = e.1
    · rw [List.kerase_cons_eq hk, List.kerase_cons_eq (hk.trans he.1)]
      exact h
    · rw [List.kerase_cons_ne hk, List.kerase_cons_ne (he.1 ▸ hk)]
      exact .cons he ih

theorem foldl_put_related {cs cs' : List Challenge} (h : List.Forall₂ SameButFlags cs cs')
    {s s' : Store} (hs : SameStore s s') :
    SameStore (cs.foldl Store.put s) (cs'.foldl Store.put s') := by
  induction h generalizing s s' with
  | nil => exact hs
  | @cons c c' cs cs' hc _ ih =>
    refine ih ?_
    show List.Forall₂ SameKeyed (s.byHash.insert c.hash c).entries
      (s'.byHash.insert c'.hash c').entries
    rw [AList.entries_insert, AList.entries_insert, ← hc.hash]
    exact .cons ⟨rfl, hc⟩ (kerase_related hs c.hash)

theorem pub_eq {c c' : Challenge} (h : SameButFlags c c') : pub c = pub c' := by
  rw [pub, pub, h.hash, h.name, h.value]

/-- The list of challenges shows no flag. -/
theorem listing_related {s s' : Store} (hs : SameStore s s') {cs : List Challenge}
    (h : IsListing s cs) : ∃ cs', IsListing s' cs' ∧ handleList cs = handleList cs' := by
  obtain ⟨hperm, hsorted⟩ := h
  have hentries : List.Forall₂ SameButFlags (s.byHash.entries.map Sigma.snd)
      (s'.byHash.entries.map Sigma.snd) :=
    List.forall₂_map_left_iff.mpr (List.forall₂_map_right_iff.mpr (hs.imp fun _ _ he => he.2))
  obtain ⟨cs', hcs, hperm'⟩ := List.perm_comp_forall₂ hperm hentries
  refine ⟨cs', ⟨hperm', ?_⟩, ?_⟩
  · have hnames : cs.map Challenge.name = cs'.map Challenge.name :=
      (map_of_forall₂ (fun _ _ hc => hc.name.symm) hcs).symm
    have hpairs : (cs.map Challenge.name).Pairwise fun a b => ¬ b < a := List.pairwise_map.mpr hsorted
    rw [hnames] at hpairs
    exact List.pairwise_map.mp hpairs
  · rw [handleList, handleList, map_of_forall₂ (f := pub) (g := pub) (fun _ _ hc => (pub_eq hc).symm) hcs]

theorem dlookup_related {l l' : List (Sigma fun _ : GoString => Challenge)}
    (h : List.Forall₂ SameKeyed l l') (k : GoString) :
    Option.Rel SameButFlags (l.dlookup k) (l'.dlookup k) := by
  induction h with
  | nil => exact .none
  | @cons e e' l l' he h ih =>
    obtain ⟨a, c⟩ := e
    obtain ⟨a', c'⟩ := e'
    obtain ⟨rfl, hc⟩ : a = a' ∧ SameButFlags c c' := he
    by_cases hk : a = k
    · subst hk
      rw [List.dlookup_cons_eq, List.dlookup_cons_eq]
      exact .some hc
    · rwa [List.dlookup_cons_ne l (s := ⟨a, c⟩) (Ne.symm hk),
        List.dlookup_cons_ne l' (s := ⟨a, c'⟩) (Ne.symm hk)]

/-- Nor does the lookup of one challenge. -/
theorem handleHash_related {s s' : Store} (hs : SameStore s s') (path : GoString) :
    handleHash s path = handleHash s' path := by
  unfold handleHash
  cases hashOfPath path with
  | none => rfl
  | some h =>
    have hget : Option.Rel SameButFlags (s.get h) (s'.get h) := dlookup_related hs h
    dsimp only
    generalize s.get h = o at hget ⊢
    generalize s'.get h = o' at hget ⊢
    cases hget with
    | none => rfl
    | some hc => simp only [pub_eq hc]

/-! ## What the challenges file discloses -/

/-- The texts a quiz marks as correct. -/
def marked : LessonBlock → List GoString
  | .quiz _ q => q.marked
  | .exercise _ _ _ => []

theorem eq_of_map_eq {α β : Type} {f : α → β} {l l' : List α}
    (hf : ∀ a ∈ l, ∀ b ∈ l', f a = f b → a = b) (h : l.map f = l'.map f) : l = l' := by
  induction l generalizing l' with
  | nil => exact (List.map_eq_nil_iff.mp h.symm).symm
  | cons a l ih =>
    cases l' with
    | nil => contradiction
    | cons b l' =>
      rw [List.map_cons, List.map_cons, List.cons.injEq] at h
      have hab := hf a List.mem_cons_self b List.mem_cons_self h.1
      have hl := ih (fun x hx y hy => hf x (List.mem_cons_of_mem a hx) y (List.mem_cons_of_mem b hy)) h.2
      rw [hab, hl]

theorem map_eq_iff_of_forall₂ {α β γ : Type} {R : α → α → Prop} {f : α → β} {g : α → γ}
    {l l' : List α} (h : List.Forall₂ R l l')
    (hfg : ∀ a ∈ l, ∀ b, R a b → (f a = f b ↔ g a = g b)) :
    l.map f = l'.map f ↔ l.map g = l'.map g := by
  induction h with
  | nil => simp
  | @cons a b l l' hab _ ih =>
    rw [List.map_cons, List.map_cons, List.map_cons, List.map_cons, List.cons.injEq, List.cons.injEq,
      hfg a List.mem_cons_self b hab, ih fun x hx => hfg x (List.mem_cons_of_mem a hx)]

/-- Flags agree when marks do. -/
theorem flags_eq_iff {sha : Sha256} {salt : GoString} {bs : List LessonBlock}
    (hsha : Set.InjOn sha.hex {s | s ∈ hashedStrings salt bs}) {L L' : LessonBlock} (hL : L ∈ bs)
    (h : RemarkedLessonBlock L L') :
    (L.challenge sha salt).flags = (L'.challenge sha salt).flags ↔ marked L = marked L' := by
  cases h with
  | exercise slug text flags => exact iff_of_true rfl rfl
  | @quiz slug q q' hq =>
    show q.marked.map (fun t => flagHash sha t salt) = q'.marked.map (fun t => flagHash sha t salt) ↔
      q.marked = q'.marked
    refine ⟨eq_of_map_eq fun t ht t' ht' heq => ?_, fun h => by rw [h]⟩
    have htext' : t' ∈ (LessonBlock.quiz slug q).texts := by
      have hmem : t' ∈ (LessonBlock.quiz slug q').texts := mem_texts_of_marked ht'
      rw [LessonBlock.texts] at hmem ⊢
      rwa [hq.choices]
    exact text_eq_of_flagHash_eq hsha hL hL (mem_texts_of_marked ht) htext' heq

theorem challenge_eq_of_flags {c c' : Challenge} (h : SameButFlags c c') (hf : c.flags = c'.flags) :
    c = c' := by
  cases c
  cases c'
  obtain ⟨rfl, rfl, rfl, rfl⟩ := h
  cases hf
  rfl

theorem challenges_eq_iff {cs cs' : List Challenge} (h : List.Forall₂ SameButFlags cs cs') :
    cs = cs' ↔ cs.map Challenge.flags = cs'.map Challenge.flags := by
  have hiff := map_eq_iff_of_forall₂ (f := id) (g := Challenge.flags) h
    fun c _ c' hc => ⟨fun he => congrArg _ he, challenge_eq_of_flags hc⟩
  rwa [List.map_id, List.map_id] at hiff

section

variable {env : BuildEnv} {salt : GoString} {resolver : Resolver} {D D' : SourceDir} {out : OutDir}
  {b b' : Built}

theorem flags_built (hb : buildDir env salt resolver D out = .ok b) :
    b.all.map Challenge.flags = (siteBlocks env.toEnv resolver D).map
      fun L => (L.challenge env.sha salt).flags := by
  have hall := congrArg (List.map Challenge.flags) (buildDir_ok hb).1
  rw [List.map_map, List.map_map] at hall
  exact hall

theorem sameSite_of_remarked (hD : RemarkedDir D D') (hb : buildDir env salt resolver D out = .ok b)
    (hb' : buildDir env salt resolver D' out = .ok b') : SameSite b b' := by
  have hsame := buildDir_related env salt resolver hD out
  rw [hb, hb'] at hsame
  cases hsame with
  | ok h => exact h

/-- The emitted challenges are the same when the marks are. -/
theorem all_eq_iff (hD : RemarkedDir D D') (hb : buildDir env salt resolver D out = .ok b)
    (hb' : buildDir env salt resolver D' out = .ok b')
    (hsha : Set.InjOn env.sha.hex {s | s ∈ hashedStrings salt (siteBlocks env.toEnv resolver D)}) :
    b.all = b'.all ↔ (siteBlocks env.toEnv resolver D).map marked =
      (siteBlocks env.toEnv resolver D').map marked := by
  rw [challenges_eq_iff (sameSite_of_remarked hD hb hb').all, flags_built hb, flags_built hb']
  exact map_eq_iff_of_forall₂ (siteBlocks_remarked env.toEnv resolver hD)
    fun L hL L' h => flags_eq_iff hsha hL h

theorem store_of_boots {g : PhashGrader} {s : Store}
    (hb : buildDir env salt resolver D out = .ok b)
    (hjson : env.unmarshal (env.marshal b.all) = .ok b.all) (hs : Boots env g b s) :
    s = b.all.foldl Store.put (Store.newStore g) := by
  obtain ⟨n, hn⟩ := hs
  rw [loadFile_built hb hjson, Except.ok.injEq, Prod.mk.injEq] at hn
  exact hn.2.symm

/-- Apart from the challenges file no GET depends on the marks. -/
theorem same_elsewhere (dirList : OutDir → GoString → GoString) (g : PhashGrader)
    (hD : RemarkedDir D D') (hb : buildDir env salt resolver D out = .ok b)
    (hb' : buildDir env salt resolver D' out = .ok b')
    (hjson : env.unmarshal (env.marshal b.all) = .ok b.all)
    (hjson' : env.unmarshal (env.marshal b'.all) = .ok b'.all)
    {s s' : Store} (hs : Boots env g b s) (hs' : Boots env g b' s') :
    (∀ path, cleanRooted path ≠ challengesFile →
      Handler dirList b.out.path (some b.out) path = Handler dirList b'.out.path (some b'.out) path) ∧
    (∀ cs, IsListing s cs → ∃ cs', IsListing s' cs' ∧ handleList cs = handleList cs') ∧
    ∀ path, handleHash s path = handleHash s' path := by
  have hsite := sameSite_of_remarked hD hb hb'
  have hstore : SameStore s s' := by
    rw [store_of_boots hb hjson hs, store_of_boots hb' hjson' hs']
    exact foldl_put_related hsite.all .nil
  refine ⟨fun path hpath => ?_, fun cs hcs => listing_related hstore hcs, handleHash_related hstore⟩
  exact handler_eq_of_ne dirList hsite.out (isSome_index hb) hpath

/-- For two directories that differ in the marks of quiz choices, every body is the
same exactly when in every quiz block the marked texts are the same: the challenges
file, which holds the flags, is served with the pages. -/
theorem same_bodies_iff (dirList : OutDir → GoString → GoString) (g : PhashGrader)
    (hD : RemarkedDir D D') (hb : buildDir env salt resolver D out = .ok b)
    (hb' : buildDir env salt resolver D' out = .ok b')
    (hjson : env.marshal b.all = env.marshal b'.all → b.all = b'.all)
    (hsha : Set.InjOn env.sha.hex {s | s ∈ hashedStrings salt (siteBlocks env.toEnv resolver D)})
    {s s' : Store} (hs : Boots env g b s) (hs' : Boots env g b' s') :
    SameBodies dirList b b' s s' ↔ (siteBlocks env.toEnv resolver D).map marked =
      (siteBlocks env.toEnv resolver D').map marked := by
  rw [← all_eq_iff hD hb hb' hsha]
  have hfile := (buildDir_ok hb).2
  have hfile' := (buildDir_ok hb').2
  constructor
  · intro hsame
    have hbody := hsame.lessons (utf8 "/challenges.json")
    rw [body_challengesFile dirList hfile, body_challengesFile dirList hfile'] at hbody
    exact hjson hbody
  · intro hall
    obtain ⟨hpath, hdirs, hfiles⟩ := (sameSite_of_remarked hD hb hb').out
    have hout : b.out = b'.out := by
      refine OutDir.ext hpath (funext fun p => ?_) hdirs
      by_cases hp : p = challengesFile
      · rw [hp, readFile_eq_ok_iff.mp hfile, readFile_eq_ok_iff.mp hfile', hall]
      · exact hfiles p hp
    have hstore : s = s' := by
      obtain ⟨n, hn⟩ := hs
      obtain ⟨n', hn'⟩ := hs'
      rw [hout, hn', Except.ok.injEq, Prod.mk.injEq] at hn
      exact hn.2.symm
    subst hstore
    exact ⟨fun path => by rw [hout], fun body => Iff.rfl, fun path => rfl⟩

end

/-! A directory of one lesson and a file, with the mark on either choice. -/

def dockerDir (m m' : UInt8) : SourceDir where
  entries := [⟨utf8 "docker.md", false, .ok (dockerLesson m m')⟩,
    ⟨utf8 "result.html", false, .ok (utf8 "<p>running</p>")⟩]
  sorted := by
    have hlt : utf8 "docker.md" < utf8 "result.html" := by decide
    simp [hlt]

def dockerChallenges (m m' : UInt8) : List Challenge :=
  [quizChallenge dockerSha (utf8 "docker") (utf8 "demo-salt") (dockerQuiz m m')]

def dockerSiteEnv : BuildEnv :=
  dockerBuildEnv [dockerChallenges 0x78 0x20, dockerChallenges 0x20 0x58]

theorem remarked_dockerDir {m m' n n' : UInt8} (hm : m ∈ utf8 " xX") (hm' : m' ∈ utf8 " xX")
    (hn : n ∈ utf8 " xX") (hn' : n' ∈ utf8 " xX") :
    RemarkedDir (dockerDir m m') (dockerDir n n') := by
  have hlesson : isLesson (utf8 "docker.md") = true := by decide
  have hfile : ¬ isLesson (utf8 "result.html") = true := by decide
  refine .cons ⟨rfl, rfl, .ok ?_⟩ (.cons ⟨rfl, rfl, .ok ?_⟩ .nil)
  · dsimp only
    rw [if_pos hlesson]
    exact remarked_dockerLesson hm hm' hn hn'
  · dsimp only
    rw [if_neg hfile]

theorem buildDir_dockerDir :
    (∃ b, buildDir dockerSiteEnv (utf8 "demo-salt") none (dockerDir 0x78 0x20) siteOut = .ok b ∧
      b.all = dockerChallenges 0x78 0x20) ∧
    (∃ b, buildDir dockerSiteEnv (utf8 "demo-salt") none (dockerDir 0x58 0x20) siteOut = .ok b ∧
      b.all = dockerChallenges 0x78 0x20) ∧
    ∃ b, buildDir dockerSiteEnv (utf8 "demo-salt") none (dockerDir 0x20 0x58) siteOut = .ok b ∧
      b.all = dockerChallenges 0x20 0x58 :=
  ⟨ok_of_toOption (by decide +kernel), ok_of_toOption (by decide +kernel),
    ok_of_toOption (by decide +kernel)⟩

theorem roundTrip_docker {b : Built}
    (h : b.all = dockerChallenges 0x78 0x20 ∨ b.all = dockerChallenges 0x20 0x58) :
    dockerSiteEnv.unmarshal (dockerSiteEnv.marshal b.all) = .ok b.all := by
  unfold dockerSiteEnv
  rcases h with h | h
  · rw [h]
    refine roundTrip_known List.mem_cons_self ?_
    decide +kernel
  · rw [h]
    refine roundTrip_known (List.mem_cons_of_mem _ List.mem_cons_self) ?_
    decide +kernel

theorem injOn_docker : Set.InjOn dockerSha.hex
    {s | s ∈ hashedStrings (utf8 "demo-salt") (siteBlocks dockerEnv none (dockerDir 0x78 0x20))} := by
  have hlist : ∀ s ∈ hashedStrings (utf8 "demo-salt") (siteBlocks dockerEnv none (dockerDir 0x78 0x20)),
      ∀ t ∈ hashedStrings (utf8 "demo-salt") (siteBlocks dockerEnv none (dockerDir 0x78 0x20)),
        dockerSha.hex s = dockerSha.hex t → s = t := by decide +kernel
  exact fun s hs t ht => hlist s hs t ht

def noListing (_ : OutDir) (_ : GoString) : GoString := utf8 "<pre>\n</pre>\n"

/-- Spelling the mark in another way shows in no body, moving it shows in some. -/
theorem same_bodies_docker :
    (∃ b b' s s',
      buildDir dockerSiteEnv (utf8 "demo-salt") none (dockerDir 0x78 0x20) siteOut = .ok b ∧
      buildDir dockerSiteEnv (utf8 "demo-salt") none (dockerDir 0x58 0x20) siteOut = .ok b' ∧
      Boots dockerSiteEnv none b s ∧ Boots dockerSiteEnv none b' s' ∧
      SameBodies noListing b b' s s') ∧
    ∃ b b' s s',
      buildDir dockerSiteEnv (utf8 "demo-salt") none (dockerDir 0x78 0x20) siteOut = .ok b ∧
      buildDir dockerSiteEnv (utf8 "demo-salt") none (dockerDir 0x20 0x58) siteOut = .ok b' ∧
      Boots dockerSiteEnv none b s ∧ Boots dockerSiteEnv none b' s' ∧
      ¬ SameBodies noListing b b' s s' := by
  obtain ⟨⟨b, hb, hall⟩, ⟨b₁, hb₁, hall₁⟩, b₂, hb₂, hall₂⟩ := buildDir_dockerDir
  have hjson := roundTrip_docker (.inl hall)
  have hjson₁ := roundTrip_docker (.inl hall₁)
  have hjson₂ := roundTrip_docker (.inr hall₂)
  have hinj : ∀ {b' : Built}, dockerSiteEnv.unmarshal (dockerSiteEnv.marshal b'.all) = .ok b'.all →
      dockerSiteEnv.marshal b.all = dockerSiteEnv.marshal b'.all → b.all = b'.all := by
    intro b' hjson' heq
    rw [heq, hjson', Except.ok.injEq] at hjson
    exact hjson.symm
  have hs : Boots dockerSiteEnv none b _ := ⟨_, loadFile_built hb hjson _⟩
  have hs₁ : Boots dockerSiteEnv none b₁ _ := ⟨_, loadFile_built hb₁ hjson₁ _⟩
  have hs₂ : Boots dockerSiteEnv none b₂ _ := ⟨_, loadFile_built hb₂ hjson₂ _⟩
  refine ⟨⟨b, b₁, _, _, hb, hb₁, hs, hs₁, ?_⟩, b, b₂, _, _, hb, hb₂, hs, hs₂, ?_⟩
  · exact (same_bodies_iff noListing none (remarked_dockerDir (by decide) (by decide) (by decide)
      (by decide)) hb hb₁ (hinj hjson₁) injOn_docker hs hs₁).mpr (by decide +kernel)
  · rw [same_bodies_iff noListing none (remarked_dockerDir (by decide) (by decide) (by decide)
      (by decide)) hb hb₂ (hinj hjson₂) injOn_docker hs hs₂]
    decide +kernel

/-- The bodies differ when the mark is moved. -/
theorem not_same_bodies_docker : ∃ b b' s s',
    RemarkedDir (dockerDir 0x78 0x20) (dockerDir 0x20 0x58) ∧
    buildDir dockerSiteEnv (utf8 "demo-salt") none (dockerDir 0x78 0x20) siteOut = .ok b ∧
    buildDir dockerSiteEnv (utf8 "demo-salt") none (dockerDir 0x20 0x58) siteOut = .ok b' ∧
    dockerSiteEnv.unmarshal (dockerSiteEnv.marshal b.all) = .ok b.all ∧
    dockerSiteEnv.unmarshal (dockerSiteEnv.marshal b'.all) = .ok b'.all ∧
    Boots dockerSiteEnv none b s ∧ Boots dockerSiteEnv none b' s' ∧
    ¬ SameBodies noListing b b' s s' := by
  obtain ⟨⟨b, hb, hall⟩, -, ⟨b', hb', hall'⟩⟩ := buildDir_dockerDir
  have hjson := roundTrip_docker (.inl hall)
  have hjson' := roundTrip_docker (.inr hall')
  refine ⟨b, b', _, _, remarked_dockerDir (by decide) (by decide) (by decide) (by decide), hb, hb',
    hjson, hjson',
    ⟨_, loadFile_built hb hjson _⟩, ⟨_, loadFile_built hb' hjson' _⟩, ?_⟩
  intro hsame
  have hbody := hsame.lessons (utf8 "/challenges.json")
  rw [body_challengesFile noListing (buildDir_ok hb).2,
    body_challengesFile noListing (buildDir_ok hb').2, hall, hall'] at hbody
  have hne : marshalQuizzes (dockerChallenges 0x78 0x20) ≠
      marshalQuizzes (dockerChallenges 0x20 0x58) := by decide +kernel
  exact hne hbody

end TrainingPlatform.Lessons
