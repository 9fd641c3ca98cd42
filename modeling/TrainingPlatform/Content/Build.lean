import TrainingPlatform.Content.Registered
import TrainingPlatform.Scoring.Load
import Mathlib.Logic.Function.Basic

/-!
# Building a site

`buildDir` renders every lesson of a directory into an output directory and writes
the index, the front-end assets and the challenges file.  The bytes of the embedded
assets and the encoding of the challenges are arguments.  Of the ways a write can
fail only the one the directory itself decides is modelled: a directory in the way
of a file, or a file in the way of a directory.
-/

namespace TrainingPlatform.Content

open Go Scoring

/-! ## Directories -/

/-- An entry of the lessons directory, and what `os.ReadFile` returns for it. -/
structure Entry where
  name : GoString
  isDir : Bool
  content : Except GoString GoString

/-- What `os.ReadDir` returns. -/
structure SourceDir where
  entries : List Entry
  sorted : entries.Pairwise fun a b => a.name < b.name

/-- An output directory: its path, the files below it by relative path, and the
directories. -/
@[ext] structure OutDir where
  path : GoString
  named : path ≠ []
  files : GoString → Option GoString
  dirs : GoString → Bool
  disjoint : ∀ p, dirs p = true → files p = none

namespace OutDir

/-- `os.WriteFile`. -/
def writeFile (o : OutDir) (path bytes : GoString) : Except GoString OutDir :=
  if h : o.dirs path = true then .error (utf8 "open " ++ path ++ utf8 ": is a directory")
  else .ok { o with
    files := Function.update o.files path (some bytes)
    disjoint := by
      intro p hp
      have hne : p ≠ path := fun he => h (he ▸ hp)
      rw [Function.update_of_ne hne]
      exact o.disjoint p hp }

/-- `os.MkdirAll` below the output directory. -/
def mkdirAll (o : OutDir) (path : GoString) : Except GoString OutDir :=
  if h : o.files path = none then .ok { o with
    dirs := Function.update o.dirs path true
    disjoint := by
      intro p hp
      by_cases he : p = path
      · rw [he, h]
      · rw [Function.update_of_ne he] at hp
        exact o.disjoint p hp }
  else .error (utf8 "mkdir " ++ path ++ utf8 ": not a directory")

/-- `os.ReadFile`. -/
def readFile (o : OutDir) (path : GoString) : Except GoString GoString :=
  match o.files path with
  | some bytes => .ok bytes
  | none => .error (utf8 "open " ++ path ++ utf8 ": no such file or directory")

def empty (path : GoString) (h : path ≠ []) : OutDir :=
  ⟨path, h, fun _ => none, fun _ => false, fun _ _ => rfl⟩

end OutDir

/-! ## The build -/

/-- What building uses besides rendering. -/
structure BuildEnv extends Env where
  asset : GoString → GoString
  verifyJs : GoString
  marshal : List Challenge → GoString
  unmarshal : GoString → Except GoString (List Challenge)

structure IndexEntry where
  slug : GoString
  title : GoString
  challenges : Nat

def indexHead : GoString := utf8
  "<!doctype html><html lang=\"en\"><head><meta charset=\"utf-8\"><meta name=\"viewport\" content=\"width=device-width, initial-scale=1\"><title>training-platform — lessons</title><style>body\x7bmargin:0;font:15px/1.6 -apple-system,Segoe UI,Roboto,sans-serif;background:#0f1117;color:#e6e8ee\x7dheader\x7bpadding:16px 24px;border-bottom:1px solid #262b38\x7dmain\x7bmax-width:760px;margin:0 auto;padding:24px\x7da\x7bcolor:#4f8cff;text-decoration:none\x7dli\x7bmargin:8px 0\x7d.pill\x7bcolor:#9aa3b2;font-size:12px\x7dheader a\x7bfont-size:13px;margin-left:12px\x7d</style></head><body><header><strong>training-platform</strong><a href=\"/scoreboard\">scoreboard</a></header><main><h1>Lessons</h1><ul>"

def indexItem (e : IndexEntry) : GoString :=
  utf8 "<li><a href=\"/" ++ e.slug ++ utf8 ".html\">" ++ htmlEscape e.title ++
    utf8 "</a> <span class=\"pill\">" ++ itoa e.challenges ++ utf8 " challenge(s)</span></li>"

def renderIndex (entries : List IndexEntry) : GoString :=
  indexHead ++ entries.flatMap indexItem ++ utf8 "</ul></main></body></html>"

def assetNames : List GoString :=
  [utf8 "html2canvas.min.js", utf8 "xterm-addon-fit.js", utf8 "xterm.css", utf8 "xterm.js"]

def writeFiles (dir : GoString) (content : GoString → GoString) :
    List GoString → OutDir → Except GoString OutDir
  | [], o => .ok o
  | name :: names, o => do
    let o ← o.writeFile (dir ++ utf8 "/" ++ name) (content name)
    writeFiles dir content names o

def writeAssets (env : BuildEnv) (o : OutDir) : Except GoString OutDir := do
  let o ← o.mkdirAll (utf8 "assets")
  let o ← writeFiles (utf8 "assets") env.asset assetNames o
  let o ← o.mkdirAll (utf8 "js")
  o.writeFile (utf8 "js/exercise-verify.js") env.verifyJs

def isLesson (name : GoString) : Bool :=
  hasSuffix name (utf8 ".md") || hasSuffix name (utf8 ".markdown")

def slugOf (name : GoString) : GoString :=
  trimSuffix (trimSuffix name (utf8 ".markdown")) (utf8 ".md")

def pageOf (slug : GoString) : GoString := slug ++ utf8 ".html"

/-- What the loop over the entries has written and collected. -/
structure Progress where
  out : OutDir
  all : List Challenge
  index : List IndexEntry

def Progress.addLesson (p : Progress) (slug : GoString) (l : Lesson) : Except GoString Progress := do
  let out ← p.out.writeFile (pageOf slug) l.html
  let title := if l.frontMatter.title = [] then slug else l.frontMatter.title
  .ok ⟨out, p.all ++ l.challenges, p.index ++ [⟨slug, title, l.challenges.length⟩]⟩

/-- A file that is no lesson is copied; a failure to read or write it is ignored. -/
def Progress.copy (p : Progress) (e : Entry) : Progress :=
  match e.content with
  | .error _ => p
  | .ok b =>
    match p.out.writeFile e.name b with
    | .error _ => p
    | .ok out => { p with out := out }

def buildEntry (env : BuildEnv) (salt : GoString) (resolver : Resolver) (p : Progress) (e : Entry) :
    Except GoString Progress :=
  if e.isDir then .ok p
  else if !isLesson e.name then .ok (p.copy e)
  else do
    let src ← e.content
    let l ← wrapError (e.name ++ utf8 ": ") (render env.toEnv (slugOf e.name) src salt resolver)
    p.addLesson (slugOf e.name) l

def buildEntries (env : BuildEnv) (salt : GoString) (resolver : Resolver) :
    Progress → List Entry → Except GoString Progress
  | p, [] => .ok p
  | p, e :: es => do
    let p ← buildEntry env salt resolver p e
    buildEntries env salt resolver p es

/-- The output directory, the number of lessons and the challenges. -/
structure Built where
  out : OutDir
  count : Nat
  all : List Challenge

def challengesFile : GoString := utf8 "challenges.json"
def indexFile : GoString := utf8 "index.html"

/-- What `BuildDirWithResolver` writes behind the lessons. -/
def finishSite (env : BuildEnv) (p : Progress) : Except GoString Built := do
  let out ← p.out.writeFile indexFile (renderIndex p.index)
  let out ← wrapError (utf8 "copying front-end assets: ") (writeAssets env out)
  let out ← out.writeFile challengesFile (env.marshal p.all)
  .ok ⟨out, p.index.length, p.all⟩

/-- `BuildDirWithResolver` into a directory that may hold files already. -/
def buildDir (env : BuildEnv) (salt : GoString) (resolver : Resolver) (dir : SourceDir)
    (out : OutDir) : Except GoString Built := do
  let p ← buildEntries env salt resolver ⟨out, [], []⟩ dir.entries
  finishSite env p

/-! ## What a build leaves -/

theorem writeFile_ok {o o' : OutDir} {path bytes : GoString} (h : o.writeFile path bytes = .ok o') :
    o'.path = o.path ∧ o'.files = Function.update o.files path (some bytes) ∧ o'.dirs = o.dirs := by
  unfold OutDir.writeFile at h
  split_ifs at h
  rw [Except.ok.injEq] at h
  rw [← h]
  exact ⟨rfl, rfl, rfl⟩

theorem readFile_eq_ok_iff {o : OutDir} {path bytes : GoString} :
    o.readFile path = .ok bytes ↔ o.files path = some bytes := by
  unfold OutDir.readFile
  cases o.files path <;> simp

theorem readFile_writeFile {o o' : OutDir} {path bytes : GoString}
    (h : o.writeFile path bytes = .ok o') : o'.readFile path = .ok bytes := by
  rw [OutDir.readFile, (writeFile_ok h).2.1, Function.update_self]

def entryBlocks (env : Env) (resolver : Resolver) (e : Entry) : List LessonBlock :=
  if e.isDir || !isLesson e.name then []
  else
    match e.content with
    | .error _ => []
    | .ok src => lessonBlocks env resolver (slugOf e.name) src

/-- The blocks of all lessons in the order in which they are registered. -/
def siteBlocks (env : Env) (resolver : Resolver) (dir : SourceDir) : List LessonBlock :=
  dir.entries.flatMap (entryBlocks env resolver)

theorem all_copy (p : Progress) (e : Entry) : (p.copy e).all = p.all := by
  unfold Progress.copy
  cases e.content with
  | error _ => rfl
  | ok b => cases hw : p.out.writeFile e.name b <;> simp [hw]

theorem buildEntry_ok {env : BuildEnv} {salt : GoString} {resolver : Resolver} {p p' : Progress}
    {e : Entry} (h : buildEntry env salt resolver p e = .ok p') :
    p'.all.map clearVerify = p.all.map clearVerify ++
      (entryBlocks env.toEnv resolver e).map (LessonBlock.challenge env.sha salt) := by
  unfold buildEntry at h
  unfold entryBlocks
  by_cases hdir : e.isDir = true
  · rw [if_pos hdir, Except.ok.injEq] at h
    simp [← h, hdir]
  · rw [if_neg hdir] at h
    by_cases hlesson : isLesson e.name = true
    · rw [if_neg (by simp [hlesson])] at h
      rw [if_neg (by simp [hdir, hlesson])]
      obtain ⟨src, hc, h⟩ := bind_eq_ok.mp h
      obtain ⟨l, hr, h⟩ := bind_eq_ok.mp h
      obtain ⟨out, -, h⟩ := bind_eq_ok.mp h
      rw [Except.ok.injEq] at h
      rw [← h, List.map_append, render_ok (wrapError_eq_ok.mp hr), hc]
    · rw [if_pos (by simp [hlesson]), Except.ok.injEq] at h
      rw [if_pos (by simp [hlesson]), ← h, all_copy]
      simp

theorem buildEntries_ok {env : BuildEnv} {salt : GoString} {resolver : Resolver}
    {p p' : Progress} {es : List Entry} (h : buildEntries env salt resolver p es = .ok p') :
    p'.all.map clearVerify = p.all.map clearVerify ++
      (es.flatMap (entryBlocks env.toEnv resolver)).map (LessonBlock.challenge env.sha salt) := by
  induction es generalizing p with
  | nil =>
    rw [buildEntries, Except.ok.injEq] at h
    simp [h]
  | cons e es ih =>
    rw [buildEntries] at h
    obtain ⟨q, he, h⟩ := bind_eq_ok.mp h
    rw [ih h, buildEntry_ok he, List.flatMap_cons, List.map_append, List.append_assoc]

theorem finishSite_ok {env : BuildEnv} {p : Progress} {b : Built} (h : finishSite env p = .ok b) :
    b.all = p.all ∧ b.out.readFile challengesFile = .ok (env.marshal b.all) := by
  obtain ⟨o₁, -, h⟩ := bind_eq_ok.mp h
  obtain ⟨o₂, -, h⟩ := bind_eq_ok.mp h
  obtain ⟨o₃, hfile, h⟩ := bind_eq_ok.mp h
  rw [Except.ok.injEq] at h
  rw [← h]
  exact ⟨rfl, readFile_writeFile hfile⟩

/-- A build emits the challenges of all blocks, in the order of the blocks. -/
theorem buildDir_ok {env : BuildEnv} {salt : GoString} {resolver : Resolver} {dir : SourceDir}
    {out : OutDir} {b : Built} (h : buildDir env salt resolver dir out = .ok b) :
    b.all.map clearVerify =
        (siteBlocks env.toEnv resolver dir).map (LessonBlock.challenge env.sha salt) ∧
      b.out.readFile challengesFile = .ok (env.marshal b.all) := by
  obtain ⟨p, hentries, h⟩ := bind_eq_ok.mp h
  obtain ⟨hall, hfile⟩ := finishSite_ok h
  refine ⟨?_, hfile⟩
  rw [hall, buildEntries_ok hentries]
  rfl

end TrainingPlatform.Content
