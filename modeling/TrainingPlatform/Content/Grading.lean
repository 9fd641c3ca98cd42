import TrainingPlatform.Content.Build
import TrainingPlatform.Content.SamePage
import TrainingPlatform.Scoring.Phash
import Mathlib.Data.Set.Function

/-!
# Pages against the store

A learner who picks a choice submits the two digests of its label.  Against the
challenges the build emits, that is graded by the block the store keeps for the
question: the last one registered under the same question and slug.
-/

namespace TrainingPlatform.Content

open Go Scoring

/-- The texts whose digests a block puts on the page or into the store. -/
def LessonBlock.texts : LessonBlock → List GoString
  | .quiz _ q => q.choices.map Choice.text
  | .exercise _ _ _ => []

/-- The strings a site hashes. -/
def hashedStrings (salt : GoString) (bs : List LessonBlock) : List GoString :=
  bs.flatMap fun b => b.key :: b.texts.map (· ++ salt)

/-- The block of a question that is registered last. -/
def keptBlock (bs : List LessonBlock) (key : GoString) : Option LessonBlock :=
  (bs.filter fun b => b.key = key).getLast?

/-- The block takes a choice with this text for correct. -/
def LessonBlock.Accepts (sha : Sha256) (salt : GoString) (g : PhashGrader) (text : GoString) :
    LessonBlock → Prop
  | .quiz _ q => text ∈ q.marked
  | .exercise _ _ flags => ∃ flag ∈ flags, Store.FlagAccepts g flag (flagHash sha text salt)

/-- With the emitted challenges loaded into an empty store, the flag is graded correct
for every user. -/
def Graded (env : BuildEnv) (g : PhashGrader) (b : Built) (h f : GoString) : Prop :=
  ∃ n s, (Store.newStore g).loadFile env.unmarshal (b.out.readFile challengesFile) = .ok (n, s) ∧
    ∀ u, (s.grade h f u).correct = true

theorem mem_texts_of_marked {slug : GoString} {q : Quiz} {t : GoString} (h : t ∈ q.marked) :
    t ∈ (LessonBlock.quiz slug q).texts := by
  obtain ⟨c, hc, rfl⟩ := List.mem_map.mp h
  exact List.mem_map_of_mem (List.mem_of_mem_filter hc)

section

variable {sha : Sha256} {salt : GoString} {bs : List LessonBlock}

theorem key_mem_hashedStrings {L : LessonBlock} (h : L ∈ bs) : L.key ∈ hashedStrings salt bs :=
  List.mem_flatMap.mpr ⟨L, h, List.mem_cons_self⟩

theorem text_mem_hashedStrings {L : LessonBlock} (h : L ∈ bs) {t : GoString} (ht : t ∈ L.texts) :
    t ++ salt ∈ hashedStrings salt bs :=
  List.mem_flatMap.mpr ⟨L, h, List.mem_cons_of_mem _ (List.mem_map_of_mem ht)⟩

/-- Different texts of a site have different flags. -/
theorem text_eq_of_flagHash_eq (hsha : Set.InjOn sha.hex {s | s ∈ hashedStrings salt bs})
    {L L' : LessonBlock} (hL : L ∈ bs) (hL' : L' ∈ bs) {t t' : GoString} (ht : t ∈ L.texts)
    (ht' : t' ∈ L'.texts) (h : flagHash sha t salt = flagHash sha t' salt) : t = t' :=
  List.append_cancel_right
    (hsha (text_mem_hashedStrings hL ht) (text_mem_hashedStrings hL' ht') h)

/-- The flags of a block accept the flag of a choice when the block accepts its text. -/
theorem flags_accept_iff (hsha : Set.InjOn sha.hex {s | s ∈ hashedStrings salt bs})
    (g : PhashGrader) {L L' : LessonBlock} (hL : L ∈ bs) (hL' : L' ∈ bs) {t : GoString}
    (ht : t ∈ L'.texts) :
    (∃ flag ∈ (L.challenge sha salt).flags, Store.FlagAccepts g flag (flagHash sha t salt)) ↔
      L.Accepts sha salt g t := by
  cases L with
  | exercise slug text flags => rfl
  | quiz slug q =>
    show (∃ flag ∈ q.marked.map fun t => flagHash sha t salt, _) ↔ t ∈ q.marked
    have hplain : ∀ t' : GoString, Store.FlagAccepts g (flagHash sha t' salt) (flagHash sha t salt) ↔
        flagHash sha t' salt = flagHash sha t salt := by
      intro t'
      rw [Store.FlagAccepts, flagHash, isPhashFlag_hex, if_neg Bool.false_ne_true]
    constructor
    · intro haccepted
      obtain ⟨flag, hflag, haccepts⟩ := haccepted
      obtain ⟨t', ht', rfl⟩ := List.mem_map.mp hflag
      have heq := (hplain t').mp haccepts
      rwa [← text_eq_of_flagHash_eq hsha hL hL' (mem_texts_of_marked ht') ht heq]
    · intro hmarked
      exact ⟨_, List.mem_map_of_mem hmarked, (hplain t).mpr rfl⟩

/-- Looking a block's digest up among the challenges finds the kept block. -/
theorem getLast?_challenges (hsha : Set.InjOn sha.hex {s | s ∈ hashedStrings salt bs})
    {L : LessonBlock} (hL : L ∈ bs) {cs : List Challenge}
    (hcs : cs.map clearVerify = bs.map (LessonBlock.challenge sha salt)) :
    ((cs.filter fun c => c.hash = sha.hex L.key).getLast?).map Challenge.flags =
      (keptBlock bs L.key).map fun L => (L.challenge sha salt).flags := by
  have hkey : ∀ L' ∈ bs, (decide ((L'.challenge sha salt).hash = sha.hex L.key)) =
      decide (L'.key = L.key) := by
    intro L' hL'
    rw [LessonBlock.hash_challenge, decide_eq_decide]
    exact ⟨fun h => hsha (key_mem_hashedStrings hL') (key_mem_hashedStrings hL) h,
      fun h => congrArg _ h⟩
  calc ((cs.filter fun c => c.hash = sha.hex L.key).getLast?).map Challenge.flags
      = (((cs.map clearVerify).filter fun c => c.hash = sha.hex L.key).getLast?).map
          Challenge.flags := by
        rw [List.filter_map, List.getLast?_map, Option.map_map]
        rfl
    _ = (((bs.filter fun L' => (L'.challenge sha salt).hash = sha.hex L.key).map
          (LessonBlock.challenge sha salt)).getLast?).map Challenge.flags := by
        rw [hcs, List.filter_map]
        rfl
    _ = (keptBlock bs L.key).map fun L => (L.challenge sha salt).flags := by
        rw [List.getLast?_map, Option.map_map, List.filter_congr hkey]
        rfl

end

section

variable {env : BuildEnv} {salt : GoString} {resolver : Resolver} {dir : SourceDir} {out : OutDir}
  {b : Built}

/-- The emitted file loads, since no digest is empty. -/
theorem loadFile_built (hbuild : buildDir env salt resolver dir out = .ok b)
    (hjson : env.unmarshal (env.marshal b.all) = .ok b.all) (s : Store) :
    s.loadFile env.unmarshal (b.out.readFile challengesFile) =
      .ok (b.all.length, b.all.foldl Store.put s) := by
  obtain ⟨hall, hfile⟩ := buildDir_ok hbuild
  have hhash : ∀ c ∈ b.all, c.hash ≠ [] := by
    intro c hc
    have hmem : clearVerify c ∈ b.all.map clearVerify := List.mem_map_of_mem hc
    rw [hall] at hmem
    obtain ⟨L, -, hL⟩ := List.mem_map.mp hmem
    have heq : c.hash = (L.challenge env.sha salt).hash := by rw [hL]; rfl
    rw [heq, LessonBlock.hash_challenge]
    exact env.sha.hex_ne_nil _
  rw [hfile]
  exact Store.loadFile_ok hjson hhash s

/-- A choice is graded by the block that is kept for its question. -/
theorem graded_iff_kept (hbuild : buildDir env salt resolver dir out = .ok b)
    (hjson : env.unmarshal (env.marshal b.all) = .ok b.all)
    (hsha : Set.InjOn env.sha.hex {s | s ∈ hashedStrings salt (siteBlocks env.toEnv resolver dir)})
    (g : PhashGrader) {L : LessonBlock} (hL : L ∈ siteBlocks env.toEnv resolver dir) {t : GoString}
    (ht : t ∈ L.texts) :
    Graded env g b (env.sha.hex L.key) (flagHash env.sha t salt) ↔
      ∃ K, keptBlock (siteBlocks env.toEnv resolver dir) L.key = some K ∧
        K.Accepts env.sha salt g t := by
  have hget : ((b.all.foldl Store.put (Store.newStore g)).get (env.sha.hex L.key)).map
      Challenge.flags = (keptBlock (siteBlocks env.toEnv resolver dir) L.key).map
        fun L => (L.challenge env.sha salt).flags := by
    rw [Store.get_foldl_put, ← getLast?_challenges hsha hL (buildDir_ok hbuild).1]
    cases (b.all.filter fun c => c.hash = env.sha.hex L.key).getLast? <;> rfl
  have hgraded : Graded env g b (env.sha.hex L.key) (flagHash env.sha t salt) ↔
      ∃ c, (b.all.foldl Store.put (Store.newStore g)).get (env.sha.hex L.key) = some c ∧
        ∃ flag ∈ c.flags, Store.FlagAccepts g flag (flagHash env.sha t salt) := by
    rw [Graded, loadFile_built hbuild hjson]
    constructor
    · intro hcredited
      obtain ⟨n, s, hs, hcorrect⟩ := hcredited
      simp only [Except.ok.injEq, Prod.mk.injEq] at hs
      obtain ⟨-, rfl⟩ := hs
      have hgrade := Store.correct_grade_iff.mp (hcorrect [])
      rwa [Store.phashGrade_foldl_put] at hgrade
    · intro h
      refine ⟨_, _, rfl, fun u => Store.correct_grade_iff.mpr ?_⟩
      rwa [Store.phashGrade_foldl_put]
  rw [hgraded]
  have hmem : ∀ K, keptBlock (siteBlocks env.toEnv resolver dir) L.key = some K →
      K ∈ siteBlocks env.toEnv resolver dir :=
    fun K hK => List.mem_of_mem_filter (List.mem_of_getLast? hK)
  constructor
  · intro hkept
    obtain ⟨c, hc, hflags⟩ := hkept
    rw [hc, Option.map_some] at hget
    obtain ⟨K, hK, hflagsK⟩ := Option.map_eq_some_iff.mp hget.symm
    exact ⟨K, hK, (flags_accept_iff hsha g (hmem K hK) hL ht).mp (hflagsK ▸ hflags)⟩
  · intro hmarked
    obtain ⟨K, hK, haccepts⟩ := hmarked
    rw [hK, Option.map_some] at hget
    obtain ⟨c, hc, hflags⟩ := Option.map_eq_some_iff.mp hget
    exact ⟨c, hc, hflags ▸ (flags_accept_iff hsha g (hmem K hK) hL ht).mpr haccepts⟩

theorem keptBlock_of_mem {bs : List LessonBlock} {L : LessonBlock} (h : L ∈ bs) :
    ∃ K, keptBlock bs L.key = some K := by
  cases hK : keptBlock bs L.key with
  | some K => exact ⟨K, rfl⟩
  | none =>
    rw [keptBlock, List.getLast?_eq_none_iff, List.filter_eq_nil_iff] at hK
    exact absurd (decide_eq_true rfl) (hK L h)

end

/-! A lesson that asks one question twice, with different marks. -/

def askedTwice : GoString :=
  dockerHeader ++ assemble [dockerBlock 0x78 0x20, dockerBlock 0x20 0x78] (utf8 "\n")

def askedTwiceDir : SourceDir where
  entries := [⟨utf8 "docker.md", false, .ok askedTwice⟩]
  sorted := List.pairwise_singleton _ _

def siteOut : OutDir := .empty (utf8 "/lessons") (by decide)

def askedTwiceChallenges : List Challenge :=
  [quizChallenge dockerSha (utf8 "docker") (utf8 "demo-salt") (dockerQuiz 0x78 0x20),
    quizChallenge dockerSha (utf8 "docker") (utf8 "demo-salt") (dockerQuiz 0x20 0x78)]

/-- `json.MarshalIndent(c, "  ", "  ")` of a quiz challenge. -/
def marshalQuiz (c : Challenge) : GoString :=
  let field := fun name value => utf8 "    " ++ Json.quote (utf8 name) ++ utf8 ": " ++ value
  utf8 "  \x7b\n" ++ join
    [field "hash" (Json.quote c.hash), field "name" (Json.quote c.name), field "value" (itoa c.value),
      field "flags" (if c.flags = [] then utf8 "null" else utf8 "[\n      " ++
        join (c.flags.map Json.quote) (utf8 ",\n      ") ++ utf8 "\n    ]")] (utf8 ",\n") ++
    utf8 "\n  \x7d"

def marshalQuizzes (cs : List Challenge) : GoString :=
  if cs = [] then utf8 "null"
  else utf8 "[\n" ++ join (cs.map marshalQuiz) (utf8 ",\n") ++ utf8 "\n]"

/-- An environment that decodes the challenges files of these lists. -/
def dockerBuildEnv (known : List (List Challenge)) : BuildEnv where
  toEnv := dockerEnv
  asset _ := []
  verifyJs := []
  marshal := marshalQuizzes
  unmarshal s :=
    match known.find? fun cs => marshalQuizzes cs = s with
    | some cs => .ok cs
    | none => .error (utf8 "unexpected end of JSON input")

theorem siteBlocks_askedTwice : siteBlocks dockerEnv none askedTwiceDir =
    [.quiz (utf8 "docker") (dockerQuiz 0x78 0x20), .quiz (utf8 "docker") (dockerQuiz 0x20 0x78)] := by
  decide +kernel

theorem injOn_askedTwice : Set.InjOn dockerSha.hex
    {s | s ∈ hashedStrings (utf8 "demo-salt") (siteBlocks dockerEnv none askedTwiceDir)} := by
  have hlist : ∀ s ∈ hashedStrings (utf8 "demo-salt") (siteBlocks dockerEnv none askedTwiceDir),
      ∀ t ∈ hashedStrings (utf8 "demo-salt") (siteBlocks dockerEnv none askedTwiceDir),
        dockerSha.hex s = dockerSha.hex t → s = t := by
    rw [siteBlocks_askedTwice]
    decide +kernel
  exact fun s hs t ht => hlist s hs t ht

theorem roundTrip_known {known : List (List Challenge)} {cs : List Challenge} (hcs : cs ∈ known)
    (hinj : ∀ ds ∈ known, marshalQuizzes ds = marshalQuizzes cs → ds = cs) :
    (dockerBuildEnv known).unmarshal ((dockerBuildEnv known).marshal cs) = .ok cs := by
  show (match known.find? fun ds => marshalQuizzes ds = marshalQuizzes cs with
    | some ds => Except.ok ds
    | none => _) = _
  cases hfind : known.find? fun ds => marshalQuizzes ds = marshalQuizzes cs with
  | some ds =>
    have hds := List.find?_some hfind
    rw [hinj ds (List.mem_of_find?_eq_some hfind) (of_decide_eq_true hds)]
  | none =>
    rw [List.find?_eq_none] at hfind
    exact absurd (decide_eq_true rfl) (hfind cs hcs)

theorem buildDir_askedTwice : ∃ b,
    buildDir (dockerBuildEnv [askedTwiceChallenges]) (utf8 "demo-salt") none askedTwiceDir siteOut =
      .ok b ∧ b.all = askedTwiceChallenges := ok_of_toOption (by decide +kernel)

theorem roundTrip_askedTwice {b : Built} (h : b.all = askedTwiceChallenges) :
    (dockerBuildEnv [askedTwiceChallenges]).unmarshal
      ((dockerBuildEnv [askedTwiceChallenges]).marshal b.all) = .ok b.all := by
  rw [h]
  refine roundTrip_known List.mem_cons_self fun ds hds _ => ?_
  exact List.mem_singleton.mp hds

theorem keptBlock_askedTwice : keptBlock (siteBlocks dockerEnv none askedTwiceDir)
    (LessonBlock.quiz (utf8 "docker") (dockerQuiz 0x20 0x78)).key =
      some (.quiz (utf8 "docker") (dockerQuiz 0x20 0x78)) := by
  rw [siteBlocks_askedTwice]
  decide +kernel

end TrainingPlatform.Content
