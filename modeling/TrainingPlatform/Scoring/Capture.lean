import TrainingPlatform.Go.Base64
import TrainingPlatform.Scoring.Dhash
import TrainingPlatform.Scoring.Load
import TrainingPlatform.Scoring.Phash

/-!
# Grading a capture

The grader behind a perceptual-hash flag.  `image.Decode` is an argument.
-/

namespace TrainingPlatform.Scoring

open Go

/-- What `strings.Cut(s, ",")` leaves behind the comma, or `s` where there is none. -/
def afterComma (s : GoString) : GoString :=
  if s.contains 0x2C then (s.dropWhile (· ≠ 0x2C)).drop 1 else s

/-- The image of a submission, a data URL or raw base64. -/
def decodeCapture (decode : List UInt8 → Option Image) (s : GoString) : Option Image :=
  let s := trimSpace s
  let s := if hasPrefix s (utf8 "data:") then afterComma s else s
  (Base64.stdDecodeString (trimSpace s)).bind decode

/-- The function `PhashGrader` returns. -/
def phashGrader (decode : List UInt8 → Option Image) (defaultThreshold : Int)
    (flag submitted : GoString) : Bool :=
  match parsePhashFlag flag defaultThreshold with
  | none => false
  | some (ref, thr) =>
    match decodeCapture decode submitted with
    | none => false
    | some img => (hamming ref (dHash img) : Int) ≤ thr

/-- A submission shows a page whose hash is `hash` up to `t` bits. -/
def Within (decode : List UInt8 → Option Image) (hash : Nat) (t : Int) (submitted : GoString) :
    Prop :=
  ∃ img, decodeCapture decode submitted = some img ∧ (hamming hash (dHash img) : Int) ≤ t

theorem phashGrader_iff {decode : List UInt8 → Option Image} {flag : GoString} {d t : Int}
    {hash : Nat} (hflag : parsePhashFlag flag d = some (hash, t)) (submitted : GoString) :
    phashGrader decode d flag submitted = true ↔ Within decode hash t submitted := by
  rw [phashGrader, hflag, Within]
  cases decodeCapture decode submitted with
  | none => simp
  | some img => simp

theorem isPhashFlag_phashFlag (hash : Nat) (t : Int) : isPhashFlag (phashFlag hash t) = true := by
  have hmark : phashMark.length = 6 := by decide
  have htake : (phashFlag hash t).take 6 = utf8 "phash$" := List.take_left' hmark
  rw [isPhashFlag, htake, beq_self_eq_true, Bool.and_true, decide_eq_true_eq, phashFlag,
    List.length_append, List.length_append, hmark, length_hexDigits]
  omega

section

variable (h : UInt64) (t : Int64)

theorem parsePhashFlag_of_fixed (d : Int) :
    parsePhashFlag (phashFlag h.toNat t.toInt) d = some (h.toNat, t.toInt) :=
  parsePhashFlag_phashFlag h.toNat_lt t.le_toInt t.toInt_lt d

theorem phashFlag_injective {h' : UInt64} {t' : Int64}
    (heq : phashFlag h'.toNat t'.toInt = phashFlag h.toNat t.toInt) : h' = h ∧ t' = t := by
  have hread := parsePhashFlag_of_fixed h' t' 0
  rw [heq, parsePhashFlag_of_fixed, Option.some.injEq, Prod.mk.injEq] at hread
  exact ⟨UInt64.toNat_inj.mp hread.1.symm, Int64.toInt_inj.mp hread.2.symm⟩

/-- A flag is graded by its hash and threshold alone. -/
theorem flagAccepts_phashFlag (decode : List UInt8 → Option Image) (d : Int)
    (submitted : GoString) :
    Store.FlagAccepts (some (phashGrader decode d)) (phashFlag h.toNat t.toInt) submitted ↔
      Within decode h.toNat t.toInt submitted := by
  rw [Store.FlagAccepts, if_pos (isPhashFlag_phashFlag h.toNat t.toInt)]
  simp only [Option.some.injEq, exists_eq_left']
  exact phashGrader_iff (parsePhashFlag_of_fixed h t d) submitted

/-- Writing, recognising and reading a flag agree, so that the store grades through it by
distance. -/
theorem phashFlag_graded (decode : List UInt8 → Option Image) (d : Int) :
    isPhashFlag (phashFlag h.toNat t.toInt) = true ∧
      parsePhashFlag (phashFlag h.toNat t.toInt) d = some (h.toNat, t.toInt) ∧
      (∀ (h' : UInt64) (t' : Int64),
        phashFlag h'.toNat t'.toInt = phashFlag h.toNat t.toInt → h' = h ∧ t' = t) ∧
      ∀ (s : Store) (ch submitted u : GoString) (c : Challenge),
        s.phashGrade = some (phashGrader decode d) → s.get ch = some c →
        phashFlag h.toNat t.toInt ∈ c.flags →
          ((s.grade ch submitted u).correct = true ↔
            Within decode h.toNat t.toInt submitted ∨
              ∃ flag ∈ c.flags, flag ≠ phashFlag h.toNat t.toInt ∧
                Store.FlagAccepts s.phashGrade flag submitted) := by
  refine ⟨isPhashFlag_phashFlag h.toNat t.toInt, parsePhashFlag_of_fixed h t d,
    fun _ _ => phashFlag_injective h t, ?_⟩
  intro s ch submitted u c hgrade hc hflag
  rw [Store.correct_grade_iff_of_mem hc hflag]
  have haccepts := flagAccepts_phashFlag h t decode d submitted
  rw [← hgrade] at haccepts
  rw [haccepts]

end

/-! ## A black page -/

/-- A PNG of one black pixel. -/
def blackCapture : GoString :=
  utf8 ("data:image/png;base64,iVBORw0KGgoAAAANSUhEUgAAAAEAAAABCAAAAAA6fptVAAAACklEQVR4nGNgAAAA" ++
    "AgABSK+kcQAAAABJRU5ErkJggg==")

def decodeBlack : List UInt8 → Option Image := fun _ => some (grayImage ⟨0, 0, 1, 1⟩ fun _ _ => 0)

/-- An exercise whose result page is black. -/
def blackExercise : Challenge := ⟨utf8 "ex", utf8 "exercise-black", 20, [phashFlag 0 12], none⟩

theorem phashFlag_graded_black :
    (((Store.newStore (some (phashGrader decodeBlack 12))).put blackExercise).grade (utf8 "ex")
      blackCapture (utf8 "u1")).correct = true := by
  have hbase64 : (Base64.stdDecodeString (trimSpace (afterComma (trimSpace blackCapture)))).isSome =
      true := by
    decide +kernel
  have hdata : hasPrefix (trimSpace blackCapture) (utf8 "data:") = true := by decide +kernel
  have hblack : Within decodeBlack 0 12 blackCapture := by
    obtain ⟨bytes, hbytes⟩ := Option.isSome_iff_exists.mp hbase64
    refine ⟨grayImage ⟨0, 0, 1, 1⟩ fun _ _ => 0, ?_, by decide +kernel⟩
    rw [decodeCapture, if_pos hdata, hbytes]
    rfl
  exact ((phashFlag_graded 0 12 decodeBlack 12).2.2.2 _ _ _ _ blackExercise rfl rfl
    List.mem_cons_self).mpr (.inl hblack)

end TrainingPlatform.Scoring
