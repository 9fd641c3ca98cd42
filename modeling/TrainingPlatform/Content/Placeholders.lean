import TrainingPlatform.Content.Page
import TrainingPlatform.Content.Patterns
import TrainingPlatform.Content.Tags

/-!
# Placeholders

Every block leaves a placeholder in the body and comes back in its place once the body is
rendered.  Whether each placeholder is found again decides whether the page shows the
blocks its challenges were registered for.
-/

namespace TrainingPlatform.Content

open Go Go.Re Scoring

/-! ## Challenges and placeholders of a page -/

/-- A byte of a `data-challenge` value that needs no escape. -/
def isValueByte (b : UInt8) : Bool := !(utf8 "\"<>\n").contains b

def divOpen (word : GoString) : GoString :=
  utf8 "<div class=\"" ++ word ++ utf8 "\" data-challenge=\""

/-- The `data-challenge` of the div of a kind of block a text starts with. -/
def readDiv (word : GoString) : GoString → Option GoString :=
  readBetween (divOpen word) isValueByte (utf8 "\">")

/-- The `data-challenge` values of the quiz divs and of the exercise divs of a page. -/
def divChallenges (page : GoString) : List GoString :=
  scan (readDiv quizWord) page ++ scan (readDiv exerciseWord) page

/-- The number of the placeholder a text starts with. -/
def readToken : GoString → Option GoString :=
  readBetween (utf8 "<!--BLOCK:") isDecimal (utf8 "-->")

/-- The page shows the blocks of the challenges and no placeholder.  An escaped one may
stand in it where the author wrote it. -/
structure PageAgrees (src page : GoString) (hashes : List GoString) : Prop where
  challenges : (divChallenges page).Perm hashes
  raw : ∀ i < hashes.length, ¬ placeholderToken i <:+: page
  escaped : ∀ i < hashes.length, escapeString (placeholderToken i) <:+: page →
    escapeString (placeholderToken i) <:+: src

/-- The author wrote neither a block's attribute nor a placeholder. -/
structure OwnText (src : GoString) : Prop where
  challenge : ¬ utf8 "data-challenge=" <:+: src
  block : ¬ utf8 "<!--BLOCK:" <:+: src

/-- The lines outside fenced code, without the fences. -/
def outsideFences : Bool → List GoString → List GoString
  | _, [] => []
  | false, l :: ls =>
    if hasPrefix l fence then outsideFences true ls else l :: outsideFences false ls
  | true, l :: ls => outsideFences (!hasPrefix l fence) ls

/-- No block stands in fenced code, and no quiz inside an exercise: the placeholder of each
is a line of the body outside the fences. -/
def Placed (src : GoString) : Prop :=
  ∀ i < (quizzesOf src).length + (exercisesOf src).length,
    placeholderToken i ∈ outsideFences false (segments (placeholderBody src))

/-! ## The marks -/

theorem reads_div (word : GoString) :
    Reads (readDiv word) (Between (divOpen word) isValueByte (utf8 "\">")) := by
  refine reads_between (List.append_ne_nil_of_right_ne_nil _ (by decide)) (by decide)

theorem reads_token : Reads readToken (Between (utf8 "<!--BLOCK:") isDecimal (utf8 "-->")) :=
  reads_between (by decide) (by decide)

theorem placeholderToken_between (i : Nat) :
    Between (utf8 "<!--BLOCK:") isDecimal (utf8 "-->") (placeholderToken i) (itoa i) :=
  ⟨List.append_assoc _ _ _, fun _ => isDecimal_of_mem_itoa⟩

theorem placeholderToken_infix_iff {i : Nat} {s : GoString} :
    placeholderToken i <:+: s ↔ itoa i ∈ scan readToken s := by
  rw [mem_scan reads_token]
  constructor
  · exact fun h => ⟨_, placeholderToken_between i, h⟩
  · rintro ⟨t, ⟨rfl, -⟩, h⟩
    rwa [placeholderToken, List.append_assoc]

/-- Marks that are tags with the byte `c` behind their `<`. -/
structure PageMark (c : UInt8) (mark : GoString → GoString → Prop) : Prop where
  start : ∀ {t a}, mark t a → ∃ Q, t = 0x3C :: c :: Q
  tail : ∀ {t a}, mark t a → 0x3C ∉ t.tail
  init : ∀ {t a}, mark t a → 0x3E ∉ t.dropLast
  line : ∀ {t a}, mark t a → newline ∉ t

theorem pageMark_between {c : UInt8} {p q : GoString} {f : UInt8 → Bool}
    (hp : 0x3C ∉ c :: p ∧ 0x3E ∉ 0x3C :: c :: p ∧ newline ∉ 0x3C :: c :: p)
    (hf : f 0x3C = false ∧ f 0x3E = false ∧ f newline = false)
    (hq : 0x3C ∉ q ++ [0x3E] ∧ 0x3E ∉ q ∧ newline ∉ q ++ [0x3E]) :
    PageMark c (Between (0x3C :: c :: p) f (q ++ [0x3E])) where
  start := by
    rintro t a ⟨rfl, -⟩
    exact ⟨p ++ (a ++ (q ++ [0x3E])), rfl⟩
  tail := by
    rintro t a ⟨rfl, ha⟩
    exact not_mem_between hp.1 hf.1 hq.1 ⟨rfl, ha⟩
  init := by
    rintro t a ⟨rfl, ha⟩
    have hlast : 0x3C :: c :: p ++ (a ++ (q ++ [0x3E])) =
        (0x3C :: c :: p ++ (a ++ q)) ++ [0x3E] := by simp
    rw [hlast, List.dropLast_concat]
    exact not_mem_between hp.2.1 hf.2.1 hq.2.1 ⟨rfl, ha⟩
  line := not_mem_between hp.2.2 hf.2.2 hq.2.2

theorem pageMark_token : PageMark 0x21 (Between (utf8 "<!--BLOCK:") isDecimal (utf8 "-->")) :=
  pageMark_between (p := utf8 "--BLOCK:") (q := utf8 "--") (by decide) (by decide) (by decide)

theorem pageMark_div {word : GoString} (hw : word = quizWord ∨ word = exerciseWord) :
    PageMark 0x64 (Between (divOpen word) isValueByte (utf8 "\">")) := by
  rcases hw with rfl | rfl
  · exact pageMark_between (p := utf8 "iv class=\"quiz\" data-challenge=\"") (q := utf8 "\"")
      (by decide) (by decide) (by decide)
  · exact pageMark_between (p := utf8 "iv class=\"exercise\" data-challenge=\"") (q := utf8 "\"")
      (by decide) (by decide) (by decide)

section PageMark

variable {c : UInt8} {read : GoString → Option GoString} {mark : GoString → GoString → Prop}
  (hread : Reads read mark) (hmark : PageMark c mark)
include hread hmark

theorem scan_append_open {u v : GoString} (hv : v.head? = some 0x3C) :
    scan read (u ++ v) = scan read u ++ scan read v := by
  obtain ⟨w, rfl⟩ := List.head?_eq_some_iff.mp hv
  exact scan_append_cons hread (fun _ _ ht => hmark.tail ht) u w

theorem scan_append_close {u v : GoString} (hu : u.getLast? = some 0x3E) :
    scan read (u ++ v) = scan read u ++ scan read v := by
  obtain ⟨w, rfl⟩ := List.getLast?_eq_some_iff.mp hu
  exact scan_concat_append hread (fun _ _ ht => hmark.init ht) w v

theorem scan_of_no_open {u : GoString} (hu : 0x3C ∉ u) : scan read u = [] := by
  refine scan_eq_nil hread fun t a ht hin => ?_
  obtain ⟨Q, rfl⟩ := hmark.start ht
  exact hu (hin.subset List.mem_cons_self)

theorem scan_no_open_append {u : GoString} (hu : 0x3C ∉ u) (v : GoString) :
    scan read (u ++ v) = scan read v := by
  refine scan_append_of_not_mem hread (b := 0x3C) (fun t a ht => ?_) hu v
  obtain ⟨Q, rfl⟩ := hmark.start ht
  rfl

/-- A tag that starts with another byte is no mark. -/
theorem scan_other_tag {d : UInt8} (hd : d ≠ c) (v : GoString) :
    scan read (0x3C :: d :: v) = scan read (d :: v) := by
  have hnone : read (0x3C :: d :: v) = none := by
    rw [Option.eq_none_iff_forall_ne_some]
    intro a ha
    obtain ⟨t, r, ht, heq⟩ := hread.read_eq_some.mp ha
    obtain ⟨Q, rfl⟩ := hmark.start ht
    exact hd (List.cons.inj (List.cons.inj heq).2).1
  rw [scan, hnone]
  rfl

end PageMark

/-! ## Substitution -/

theorem tagged_placeholderToken (i : Nat) : Tagged (placeholderToken i) :=
  tagged_append (by decide) (by decide) (itoa i)

theorem not_infix_token {P : GoString} {b : UInt8} (hb : b ∈ P)
    (hnone : b ∉ utf8 "<!--BLOCK:" ∧ isDecimal b = false ∧ b ∉ utf8 "-->") (i : Nat) :
    ¬ P <:+: placeholderToken i := fun h =>
  not_mem_between hnone.1 hnone.2.1 hnone.2.2 (placeholderToken_between i) (h.subset hb)

theorem scan_placeholderToken (i : Nat) : scan readToken (placeholderToken i) = [itoa i] := by
  refine scan_eq_singleton reads_token (placeholderToken_between i) fun t a ht hin => ?_
  obtain ⟨Q, rfl⟩ := pageMark_token.start ht
  exact pageMark_token.tail (placeholderToken_between i) (hin.subset List.mem_cons_self)

theorem placeholderToken_ne_nil (i : Nat) : placeholderToken i ≠ [] :=
  reads_token.ne_nil (placeholderToken_between i)

/-- A placeholder that is found is replaced. -/
theorem replace_token {i : Nat} {h s : GoString} (hin : placeholderToken i <:+: s) :
    ∃ u v, s = u ++ (placeholderToken i ++ v) ∧
      replaceFirst (placeholderToken i) h s = u ++ (h ++ v) :=
  replaceFirst_of_infix h (placeholderToken_ne_nil i) hin

theorem scan_tagged {c : UInt8} {read : GoString → Option GoString}
    {mark : GoString → GoString → Prop} (hread : Reads read mark) (hmark : PageMark c mark)
    {t : GoString} (ht : Tagged t) (u v : GoString) :
    scan read (u ++ (t ++ v)) = scan read u ++ (scan read t ++ scan read v) := by
  have hhead : (t ++ v).head? = some 0x3C := by
    rw [List.head?_append, ht.1]
    rfl
  rw [scan_append_open hread hmark hhead, scan_append_close hread hmark ht.2]

/-- The blocks whose placeholder is found when their turn comes. -/
def found : Nat → List GoString → GoString → List GoString
  | _, [], _ => []
  | i, h :: hs, s =>
    if placeholderToken i <:+: s then
      h :: found (i + 1) hs (replaceFirst (placeholderToken i) h s)
    else found (i + 1) hs s

theorem found_sublist (i : Nat) (hs : List GoString) (s : GoString) :
    (found i hs s).Sublist hs := by
  induction hs generalizing i s with
  | nil => exact .slnil
  | cons h hs ih =>
    rw [found]
    split_ifs
    · exact (ih _ _).cons_cons h
    · exact (ih _ _).cons h

/-- When every placeholder is found, none but those of the body are needed. -/
theorem tokens_of_found {i : Nat} {hs : List GoString} {s : GoString} (hfound : found i hs s = hs)
    (htag : ∀ h ∈ hs, Tagged h)
    (hlater : ∀ t h, hs[t]? = some h → ∀ j, i + t < j → itoa j ∉ scan readToken h) :
    ∀ t < hs.length, placeholderToken (i + t) <:+: s := by
  induction hs generalizing i s with
  | nil => exact nofun
  | cons h hs ih =>
    rw [found] at hfound
    obtain ⟨hth, hths⟩ := List.forall_mem_cons.mp htag
    split_ifs at hfound with hin
    · obtain ⟨u, v, hs', hr⟩ := replace_token (h := h) hin
      rw [List.cons.injEq, hr] at hfound
      intro t ht
      cases t with
      | zero => exact hin
      | succ t =>
        have hrest := ih hfound.2 hths
          (fun t h' ht' j hj => hlater (t + 1) h' ht' j (by omega)) t (Nat.lt_of_succ_lt_succ ht)
        have hindex : i + 1 + t = i + (t + 1) := by omega
        rw [hindex, placeholderToken_infix_iff, scan_tagged reads_token pageMark_token hth,
          List.mem_append, List.mem_append] at hrest
        rw [placeholderToken_infix_iff, hs']
        rcases hrest with h | h | h
        · exact scan_subset reads_token List.infix_append_left h
        · exact absurd h (hlater 0 _ rfl _ (by omega))
        · exact scan_subset reads_token (List.infix_append_right.trans List.infix_append_right) h
    · have hlen := (found_sublist (i + 1) hs s).length_le
      rw [hfound, List.length_cons] at hlen
      omega

/-- Placeholders that stand in a body once each are all found, and none is left. -/
theorem found_of_tokens {i : Nat} {hs : List GoString} {s : GoString}
    (htag : ∀ h ∈ hs, Tagged h) (hnone : ∀ h ∈ hs, scan readToken h = [])
    (hperm : (scan readToken s).Perm ((List.range' i hs.length).map fun j : Nat => itoa j)) :
    found i hs s = hs ∧ scan readToken (substitute i hs s) = [] := by
  induction hs generalizing i s with
  | nil => exact ⟨rfl, List.Perm.eq_nil hperm⟩
  | cons h hs ih =>
    obtain ⟨hth, hths⟩ := List.forall_mem_cons.mp htag
    obtain ⟨hnh, hnhs⟩ := List.forall_mem_cons.mp hnone
    rw [List.length_cons, List.range'_succ, List.map_cons] at hperm
    have hin : placeholderToken i <:+: s :=
      placeholderToken_infix_iff.mpr (hperm.symm.subset List.mem_cons_self)
    obtain ⟨u, v, hs', hr⟩ := replace_token (h := h) hin
    have hscan : scan readToken s = scan readToken u ++ ([itoa i] ++ scan readToken v) := by
      rw [hs', scan_tagged reads_token pageMark_token (tagged_placeholderToken i),
        scan_placeholderToken]
    have hscan' : scan readToken (u ++ (h ++ v)) = scan readToken u ++ scan readToken v := by
      rw [scan_tagged reads_token pageMark_token hth, hnh, List.nil_append]
    rw [hscan, List.singleton_append] at hperm
    have hrest := (List.perm_middle.symm.trans hperm).cons_inv
    rw [← hscan'] at hrest
    obtain ⟨hfound, hleft⟩ := ih hths hnhs hrest
    rw [found, if_pos hin, substitute, hr, hfound]
    exact ⟨rfl, hleft⟩

/-! ## Challenges shown -/

theorem divChallenges_tagged {t : GoString} (ht : Tagged t) (u v : GoString) :
    (divChallenges (u ++ (t ++ v))).Perm
      (divChallenges t ++ (divChallenges u ++ divChallenges v)) := by
  have hquiz := scan_tagged (reads_div quizWord) (pageMark_div (.inl rfl)) ht u v
  have hexercise := scan_tagged (reads_div exerciseWord) (pageMark_div (.inr rfl)) ht u v
  simp only [divChallenges, hquiz, hexercise, List.perm_iff_count, List.count_append]
  intro a
  omega

theorem divChallenges_eq_nil {s : GoString} (h : ¬ utf8 "data-challenge=" <:+: s) :
    divChallenges s = [] := by
  have hdiv : ∀ word, scan (readDiv word) s = [] := by
    intro word
    refine scan_eq_nil (reads_div word) fun t a ht hin => h ?_
    obtain ⟨rfl, -⟩ := ht
    refine List.IsInfix.trans ⟨utf8 "<div class=\"" ++ word ++ utf8 "\" ",
      utf8 "\"" ++ (a ++ utf8 "\">"), ?_⟩ hin
    have hsplit : utf8 "\" data-challenge=\"" = utf8 "\" " ++ (utf8 "data-challenge=" ++ utf8 "\"") := by
      decide
    rw [divOpen, hsplit]
    simp only [List.append_assoc]
  rw [divChallenges, hdiv, hdiv, List.append_nil]

theorem divChallenges_token (i : Nat) : divChallenges (placeholderToken i) = [] := by
  refine divChallenges_eq_nil fun h => ?_
  have hd : (0x64 : UInt8) ∈ placeholderToken i := h.subset (by decide)
  exact not_mem_between (by decide) (by decide) (by decide) (placeholderToken_between i) hd

/-- The page shows the challenges of the blocks that are put back. -/
theorem divChallenges_substitute {i : Nat} {hs : List GoString} (htag : ∀ h ∈ hs, Tagged h)
    (s : GoString) : (divChallenges (substitute i hs s)).Perm
      ((found i hs s).flatMap divChallenges ++ divChallenges s) := by
  induction hs generalizing i s with
  | nil => exact .refl _
  | cons h hs ih =>
    obtain ⟨hth, hths⟩ := List.forall_mem_cons.mp htag
    rw [substitute, found]
    split_ifs with hin
    · obtain ⟨u, v, hs', hr⟩ := replace_token (h := h) hin
      have hrest := ih hths (i := i + 1) (u ++ (h ++ v))
      have hnew := divChallenges_tagged hth u v
      have hold := divChallenges_tagged (tagged_placeholderToken i) u v
      rw [divChallenges_token, List.nil_append, ← hs'] at hold
      rw [hr, List.flatMap_cons]
      rw [List.perm_iff_count] at hrest hnew hold ⊢
      intro a
      have h₁ := hrest a
      have h₂ := hnew a
      have h₃ := hold a
      simp only [List.count_append] at h₁ h₂ h₃ ⊢
      omega
    · rw [replaceFirst_of_not_isInfix h hin]
      exact ih hths s

end TrainingPlatform.Content
