import TrainingPlatform.Content.BlockHtml
import Mathlib.Data.List.Flatten

/-!
# Where the placeholders stand

The placeholders of a body and of the exercises in it, which lines they are, and which of
these lines the renderer passes through.
-/

namespace TrainingPlatform.Content

open Go Go.Re Scoring

/-- The numbers of some placeholders, as they are written. -/
def tokenNumbers (i n : Nat) : List GoString := (List.range' i n).map fun j : Nat => itoa j

theorem tokenNumbers_succ (i n : Nat) :
    tokenNumbers i (n + 1) = itoa i :: tokenNumbers (i + 1) n := by
  rw [tokenNumbers, List.range'_succ, List.map_cons, tokenNumbers]

theorem tokenNumbers_append (i m n : Nat) :
    tokenNumbers i m ++ tokenNumbers (i + m) n = tokenNumbers i (m + n) := by
  rw [tokenNumbers, tokenNumbers, tokenNumbers, ← List.map_append, List.range'_append_1]

theorem nodup_tokenNumbers (i n : Nat) : (tokenNumbers i n).Nodup :=
  List.Nodup.map (fun _ _ h => itoa_injective h) List.nodup_range'

theorem mem_tokenNumbers {i j n : Nat} : itoa j ∈ tokenNumbers i n ↔ i ≤ j ∧ j < i + n := by
  rw [tokenNumbers, List.mem_map]
  constructor
  · rintro ⟨k, hk, heq⟩
    rw [itoa_injective heq] at hk
    exact List.mem_range'_1.mp hk
  · exact fun h => ⟨j, List.mem_range'_1.mpr h, rfl⟩

/-! ## Placeholders of a body -/

/-- A placeholder is a line of its own. -/
theorem replaceBlocks_cons (rest : GoString) (i : Nat) (b : Block) (bs : List Block) :
    replaceBlocks rest i (b :: bs) = b.before ++
      newline :: (placeholderToken i ++ newline :: replaceBlocks rest (i + 1) bs) := by
  rw [replaceBlocks, show utf8 "\n" = [newline] by decide]
  simp only [List.append_assoc, List.cons_append, List.nil_append]

section Blocks

variable {word : GoString} (hw : isTagWord word = true)
include hw

/-- A tag ends and starts text for placeholders. -/
theorem scan_token_append {t : GoString} (ht : IsTag word t) (u v : GoString) :
    scan readToken (u ++ (t ++ v)) = scan readToken u ++ scan readToken v := by
  obtain ⟨x, rfl, -, hlt, -⟩ := ht.shape hw
  have hbrace : ∀ t a, Between (utf8 "<!--BLOCK:") isDecimal (utf8 "-->") t a → 0x7B ∉ t.tail :=
    fun t a h => not_mem_tail (not_mem_between (by decide) (by decide) (by decide) h)
  have hopen : 0x3C ∉ 0x7B :: x := by
    rw [List.mem_cons, not_or]
    exact ⟨by decide, hlt⟩
  rw [List.cons_append, scan_append_cons reads_token hbrace, ← List.cons_append,
    scan_no_open_append reads_token pageMark_token hopen]

/-- A placeholder stands for each block, and with those inside the blocks there are those
of the text. -/
theorem scan_token_replaceBlocks {bs : List Block}
    (hbs : ∀ b ∈ bs, IsTag word b.opening ∧ IsTag (utf8 "end" ++ word) b.closing) (i : Nat)
    (rest : GoString) :
    (scan readToken (replaceBlocks rest i bs) ++ bs.flatMap fun b => scan readToken b.inner).Perm
      (tokenNumbers i bs.length ++ scan readToken (assemble bs rest)) := by
  induction bs generalizing i with
  | nil => exact .of_eq (List.append_nil _)
  | cons b bs ih =>
    obtain ⟨⟨hopening, hclosing⟩, hrest⟩ := List.forall_mem_cons.mp hbs
    have hnl : ∀ t a, Between (utf8 "<!--BLOCK:") isDecimal (utf8 "-->") t a → newline ∉ t :=
      fun t a h => pageMark_token.line h
    have hnew : scan readToken (replaceBlocks rest i (b :: bs)) =
        scan readToken b.before ++ ([itoa i] ++ scan readToken (replaceBlocks rest (i + 1) bs)) := by
      rw [replaceBlocks_cons, scan_sep reads_token hnl, scan_sep reads_token hnl,
        scan_placeholderToken]
    have hold : scan readToken (assemble (b :: bs) rest) = scan readToken b.before ++
        (scan readToken b.inner ++ scan readToken (assemble bs rest)) := by
      rw [assemble_cons, scan_token_append hw hopening,
        scan_token_append (isTagWord_end hw) hclosing]
    have hperm := ih hrest (i + 1)
    rw [hnew, hold, List.flatMap_cons, List.length_cons, tokenNumbers_succ]
    rw [List.perm_iff_count] at hperm ⊢
    intro a
    have ha := hperm a
    simp only [List.count_append, List.count_cons, List.count_nil] at ha ⊢
    omega

end Blocks

theorem assemble_blocks (word s : GoString) : assemble (blocks word s).1 (blocks word s).2 = s :=
  (blocksN_eq word s.length s).symm

theorem inner_infix_assemble {b : Block} {bs : List Block} (h : b ∈ bs) (rest : GoString) :
    b.inner <:+: assemble bs rest := by
  induction bs with
  | nil => cases h
  | cons c bs ih =>
    rw [assemble_cons]
    rcases List.mem_cons.mp h with rfl | h
    · exact List.infix_append_left.trans
        (List.infix_append_right.trans List.infix_append_right)
    · exact (ih h).trans (List.infix_append_right.trans (List.infix_append_right.trans
        (List.infix_append_right.trans List.infix_append_right)))

theorem inner_isInfix {word s : GoString} {b : Block} (h : b ∈ (blocks word s).1) :
    b.inner <:+: s := by
  have hin := inner_infix_assemble h (blocks word s).2
  rwa [assemble_blocks] at hin

/-- A pattern with no placeholder in it stands in the blocks of a text with placeholders
where the text has it. -/
theorem infix_of_replaceBlocks {P : GoString} (hP : P ≠ []) (hnl : newline ∉ P)
    (htoken : ∀ i, ¬ P <:+: placeholderToken i) {rest : GoString} {i : Nat} {bs : List Block}
    (h : P <:+: replaceBlocks rest i bs) : P <:+: assemble bs rest := by
  induction bs generalizing i with
  | nil => exact h
  | cons b bs ih =>
    rw [replaceBlocks_cons, infix_sep_iff hP hnl, infix_sep_iff hP hnl] at h
    rw [assemble_cons]
    rcases h with h | h | h
    · exact h.trans List.infix_append_left
    · exact absurd h (htoken i)
    · exact (ih h).trans (List.infix_append_right.trans (List.infix_append_right.trans
        (List.infix_append_right.trans List.infix_append_right)))

/-! ## Text of a source -/

theorem choiceText_isInfix (s : GoString) : choiceText s <:+: s := by
  unfold choiceText
  split
  · exact (List.drop_suffix _ s).isInfix
  · rename_i b t h
    have htail : b :: t <:+ s := h ▸ List.dropWhile_suffix isBlank
    refine List.IsInfix.trans (List.IsPrefix.isInfix ?_) htail.isInfix
    rw [← List.reverse_suffix, List.reverse_reverse]
    exact List.dropWhile_suffix _

theorem answer_isInfix {line text : GoString} {m : UInt8} (h : answer line = some (m, text)) :
    text <:+: line := by
  unfold answer at h
  split at h
  · rename_i s hs
    split at h
    · rename_i m' b rest ht
      split_ifs at h
      rw [Option.some.injEq, Prod.mk.injEq] at h
      rw [← h.2]
      have hline : 0x2D :: s <:+ line := hs ▸ List.dropWhile_suffix isBlank
      have hbox : 0x5B :: m' :: 0x5D :: b :: rest <:+ s := ht ▸ List.dropWhile_suffix isBlank
      have hrest : b :: rest <:+ 0x5B :: m' :: 0x5D :: b :: rest := ⟨[0x5B, m', 0x5D], rfl⟩
      exact (choiceText_isInfix _).trans
        (hrest.trans (hbox.trans ((List.suffix_cons _ s).trans hline))).isInfix
    · cases h
  · cases h

theorem trimSpace_isInfix (s : GoString) : trimSpace s <:+: s :=
  (trimRightSpace_isPrefix _).isInfix.trans (trimLeftSpace_suffix s).isInfix

/-- The lines of a question and the choices are text of the block. -/
def Quiz.From (q : Quiz) (inner : GoString) : Prop :=
  (∀ l ∈ q.question, l <:+: inner) ∧ ∀ c ∈ q.choices, c.text <:+: inner

theorem Quiz.From.readLine {q : Quiz} {inner line : GoString} (h : q.From inner)
    (hline : line <:+: inner) : (Content.readLine q line).From inner := by
  obtain ⟨hquestion, hchoices⟩ := h
  unfold Content.readLine
  split
  · rename_i m text hanswer
    refine ⟨hquestion, fun c hc => ?_⟩
    rcases List.mem_append.mp hc with hc | hc
    · exact hchoices c hc
    · rw [List.mem_singleton.mp hc]
      exact (answer_isInfix hanswer).trans hline
  · split_ifs
    · refine ⟨fun l hl => ?_, hchoices⟩
      rcases List.mem_append.mp hl with hl | hl
      · exact hquestion l hl
      · rw [List.mem_singleton.mp hl]
        exact (trimSpace_isInfix line).trans hline
    · exact ⟨hquestion, hchoices⟩

theorem from_readQuiz (inner : GoString) : (readQuiz inner).From inner := by
  have hlines : ∀ l ∈ segments (trimSpace inner), l <:+: inner := fun l hl =>
    (infix_of_mem_segments hl).trans (trimSpace_isInfix inner)
  have hfold : ∀ (ls : List GoString) (q : Quiz), (∀ l ∈ ls, l <:+: inner) → q.From inner →
      (ls.foldl Content.readLine q).From inner := by
    intro ls
    induction ls with
    | nil => exact fun _ _ hq => hq
    | cons l ls ih =>
      intro q hls hq
      obtain ⟨hl, hls⟩ := List.forall_mem_cons.mp hls
      exact ih _ hls (hq.readLine hl)
  exact hfold _ ⟨[], []⟩ hlines ⟨fun l hl => (List.not_mem_nil hl).elim,
    fun c hc => (List.not_mem_nil hc).elim⟩

/-- A pattern that no placeholder holds or cuts. -/
structure OwnPattern (P : GoString) : Prop where
  ne_nil : P ≠ []
  line : newline ∉ P
  blank : 0x20 ∉ P

section Source

variable {src P : GoString} (hP : OwnPattern P)
include hP

theorem OwnPattern.of_quiz {q : Quiz} (hq : q ∈ quizzesOf src)
    (h : P <:+: q.text ∨ ∃ c ∈ q.choices, P <:+: c.text) : P <:+: src := by
  obtain ⟨b, hb, rfl⟩ := List.mem_map.mp hq
  obtain ⟨hquestion, hchoices⟩ := from_readQuiz b.inner
  have hinner : b.inner <:+: src := (inner_isInfix hb).trans (bodyOf_suffix src).isInfix
  rcases h with h | ⟨c, hc, h⟩
  · rw [Quiz.text, show utf8 " " = [0x20] by decide] at h
    obtain ⟨l, hl, hPl⟩ := infix_of_infix_join hP.ne_nil hP.blank h
    exact hPl.trans ((hquestion l hl).trans hinner)
  · exact h.trans ((hchoices c hc).trans hinner)

variable (htoken : ∀ i, ¬ P <:+: placeholderToken i)
include htoken

theorem OwnPattern.of_aroundQuizzes (h : P <:+: aroundQuizzes (bodyOf src)) : P <:+: src := by
  have hbody := infix_of_replaceBlocks hP.ne_nil hP.line htoken h
  rw [assemble_blocks] at hbody
  exact hbody.trans (bodyOf_suffix src).isInfix

theorem OwnPattern.of_placeholderBody (h : P <:+: placeholderBody src) : P <:+: src := by
  have hbody := infix_of_replaceBlocks hP.ne_nil hP.line htoken h
  rw [assemble_blocks] at hbody
  exact hP.of_aroundQuizzes htoken hbody

theorem OwnPattern.of_exercise {text : GoString} (htext : text ∈ exercisesOf src)
    (h : P <:+: text) : P <:+: src := by
  obtain ⟨b, hb, rfl⟩ := List.mem_map.mp htext
  exact hP.of_aroundQuizzes htoken (h.trans ((trimSpace_isInfix b.inner).trans (inner_isInfix hb)))

end Source

/-! ## Placeholders of a source -/

theorem scan_token_of_not_infix {s : GoString} (h : ¬ utf8 "<!--BLOCK:" <:+: s) :
    scan readToken s = [] := by
  refine scan_eq_nil reads_token fun t a ht hin => h ?_
  obtain ⟨rfl, -⟩ := ht
  exact List.infix_append_left.trans hin

theorem tokens_replaceBlocks {word : GoString} (hw : isTagWord word = true) (i : Nat)
    (s : GoString) :
    (scan readToken (replaceBlocks (blocks word s).2 i (blocks word s).1) ++
        (blocks word s).1.flatMap fun b => scan readToken b.inner).Perm
      (tokenNumbers i (blocks word s).1.length ++ scan readToken s) := by
  have hperm := scan_token_replaceBlocks hw (isTag_of_mem_blocksN hw s.length s) i
    (blocksN word s.length s).2
  rwa [← blocksN_eq] at hperm

theorem tokens_aroundQuizzes {src : GoString} (h : OwnText src) :
    (scan readToken (aroundQuizzes (bodyOf src))).Perm
      (tokenNumbers 0 (quizzesOf src).length) := by
  have hword : isTagWord quizWord = true := by decide
  have hperm := tokens_replaceBlocks hword 0 (bodyOf src)
  have hbody : scan readToken (bodyOf src) = [] :=
    scan_token_of_not_infix fun hin => h.block (hin.trans (bodyOf_suffix src).isInfix)
  have hinner : ((blocks quizWord (bodyOf src)).1.flatMap fun b => scan readToken b.inner) = [] := by
    rw [List.flatMap_eq_nil_iff]
    intro b hb
    rw [← List.subset_nil, ← hbody]
    exact scan_subset reads_token (inner_isInfix hb)
  rw [hbody, hinner, List.append_nil, List.append_nil] at hperm
  rw [quizzesOf, List.length_map]
  exact hperm

/-- The placeholders of a body, with those that have gone into an exercise. -/
theorem tokens_placeholderBody {src : GoString} (h : OwnText src) :
    (scan readToken (placeholderBody src) ++
        (blocks exerciseWord (aroundQuizzes (bodyOf src))).1.flatMap fun b =>
          scan readToken b.inner).Perm
      (tokenNumbers 0 ((quizzesOf src).length + (exercisesOf src).length)) := by
  have hword : isTagWord exerciseWord = true := by decide
  have hperm := tokens_replaceBlocks hword (quizzesOf src).length
    (aroundQuizzes (bodyOf src))
  have hlen : (exercisesOf src).length =
      (blocks exerciseWord (aroundQuizzes (bodyOf src))).1.length := List.length_map _
  have hbody : placeholderBody src =
      replaceBlocks (blocks exerciseWord (aroundQuizzes (bodyOf src))).2 (quizzesOf src).length
        (blocks exerciseWord (aroundQuizzes (bodyOf src))).1 := by
    rw [quizzesOf, List.length_map]
    rfl
  rw [← hbody, ← hlen] at hperm
  refine hperm.trans ((List.Perm.append_left _ (tokens_aroundQuizzes h)).trans ?_)
  have happend := tokenNumbers_append 0 (quizzesOf src).length (exercisesOf src).length
  rw [Nat.zero_add] at happend
  rw [← happend]
  exact List.perm_append_comm

/-- The placeholders in an exercise are those of quizzes. -/
theorem tokens_exercise {src text : GoString} (h : OwnText src) (htext : text ∈ exercisesOf src) :
    scan readToken text ⊆ tokenNumbers 0 (quizzesOf src).length := by
  obtain ⟨b, hb, rfl⟩ := List.mem_map.mp htext
  exact List.Subset.trans (scan_subset reads_token ((trimSpace_isInfix b.inner).trans (inner_isInfix hb)))
    (tokens_aroundQuizzes h).subset

/-! ## Lines -/

/-- A line with a placeholder in it is the placeholder. -/
def TokenLines (s : GoString) : Prop :=
  ∀ l ∈ segments s, ∀ i : Nat, placeholderToken i <:+: l → l = placeholderToken i

theorem TokenLines.isInfix {s p : GoString} (h : TokenLines s) (hp : p <:+: s) : TokenLines p := by
  intro l hl i hin
  have hne : l ≠ [] := by
    rintro rfl
    exact placeholderToken_ne_nil i (List.infix_nil.mp hin)
  have hs : l <:+: join (segments s) [newline] := by
    rw [join_segments]
    exact (infix_of_mem_segments hl).trans hp
  obtain ⟨k, hk, hlk⟩ := infix_of_infix_join hne (newline_not_mem_of_mem_segments hl) hs
  have hktoken := h k hk i (hin.trans hlk)
  rw [hktoken] at hlk
  exact hlk.eq_of_length_le hin.length_le

theorem placeholderToken_isInfix {i j : Nat} (h : placeholderToken i <:+: placeholderToken j) :
    i = j := by
  rw [placeholderToken_infix_iff, scan_placeholderToken, List.mem_singleton] at h
  exact itoa_injective h

theorem tokenLines_replaceBlocks {rest : GoString} {bs : List Block} (i : Nat)
    (h : TokenLines (assemble bs rest)) : TokenLines (replaceBlocks rest i bs) := by
  induction bs generalizing i with
  | nil => exact h
  | cons b bs ih =>
    rw [assemble_cons] at h
    have hbefore := h.isInfix List.infix_append_left
    have hrest := ih (i + 1) (h.isInfix (List.infix_append_right.trans
      (List.infix_append_right.trans (List.infix_append_right.trans List.infix_append_right))))
    have hline : newline ∉ placeholderToken i := pageMark_token.line (placeholderToken_between i)
    rw [replaceBlocks_cons]
    intro l hl j hin
    rw [segments_append_newline, segments_append_newline, segments_of_not_mem hline] at hl
    rcases List.mem_append.mp hl with hl | hl
    · exact hbefore l hl j hin
    rcases List.mem_append.mp hl with hl | hl
    · rw [List.mem_singleton.mp hl] at hin ⊢
      rw [placeholderToken_isInfix hin]
    · exact hrest l hl j hin

theorem tokenLines_placeholderBody {src : GoString} (h : OwnText src) :
    TokenLines (placeholderBody src) := by
  have hbody : TokenLines (bodyOf src) := by
    intro l hl i hin
    have hblock : utf8 "<!--BLOCK:" <:+: placeholderToken i := by
      rw [placeholderToken, List.append_assoc]
      exact List.infix_append_left
    exact absurd (hblock.trans (hin.trans ((infix_of_mem_segments hl).trans
      (bodyOf_suffix src).isInfix))) h.block
  have haround : TokenLines (aroundQuizzes (bodyOf src)) :=
    tokenLines_replaceBlocks 0 (by rwa [assemble_blocks])
  exact tokenLines_replaceBlocks _ (by rwa [assemble_blocks])

/-! ## Lines outside the fences -/

theorem outsideFences_append {ls : List GoString} (h : ∀ l ∈ ls, hasPrefix l fence = false)
    (ks : List GoString) : outsideFences false (ls ++ ks) = ls ++ outsideFences false ks := by
  induction ls with
  | nil => rfl
  | cons l ls ih =>
    obtain ⟨hl, hls⟩ := List.forall_mem_cons.mp h
    rw [List.cons_append, outsideFences, hl, ih hls]
    rfl

theorem outsideFences_true (ls : List GoString) : outsideFences true ls =
    outsideFences false (ls.drop ((ls.takeWhile fun l => !hasPrefix l fence).length + 1)) := by
  induction ls with
  | nil => rfl
  | cons l ls ih =>
    rw [outsideFences]
    cases hfence : hasPrefix l fence with
    | true => simp [hfence]
    | false => simpa [hfence] using ih

theorem head_of_listRe {l : GoString} (h : isMatch listRe l = true) :
    ∃ b s, l = b :: s ∧ (b = 0x2D ∨ b = 0x2A) := by
  obtain ⟨m, hm⟩ := Option.isSome_iff_exists.mp h
  have hc : Consumes (all [set (· ∈ utf8 "-*"), many1 blankRe, group 1 (many lineDot)]) l m.caps :=
    consumes_of_find_anchored hm
  obtain ⟨_, w, ⟨b, hb, rfl⟩, -, rfl⟩ := (consumes_all_cons_of_plain consumes_set).mp hc
  have hmem : b ∈ utf8 "-*" := of_decide_eq_true hb
  rw [show utf8 "-*" = [0x2D, 0x2A] by decide, List.mem_cons, List.mem_singleton] at hmem
  exact ⟨b, w, rfl, hmem⟩

theorem head_of_headingRe {l : GoString} (h : (find headingRe l).isSome = true) :
    ∃ s, l = 0x23 :: s := by
  obtain ⟨m, hm⟩ := Option.isSome_iff_exists.mp h
  have hc : Consumes (all [group 1 (upTo (byte 0x23) 3), many1 blankRe, group 2 (many lineDot)]) l
      m.caps := consumes_of_find_anchored hm
  obtain ⟨v, w, c, e, hv, -, rfl, -⟩ := consumes_all_cons.mp hc
  obtain ⟨d, hup, -⟩ := consumes_group.mp hv
  obtain ⟨⟨hne, -⟩, hall, -⟩ := consumes_upTo_set.mp hup
  obtain ⟨b, v, rfl⟩ := List.exists_cons_of_ne_nil hne
  have hb := of_decide_eq_true (hall b List.mem_cons_self)
  exact ⟨v ++ w, by rw [hb]; rfl⟩

/-- A line that starts with `<` is passed through where it is no fenced code. -/
theorem rawLines_cons_of_open (n : Nat) (s : GoString) (ls : List GoString) :
    rawLines (n + 1) ((0x3C :: s) :: ls) = (0x3C :: s) :: rawLines n ls := by
  have htrim : trimSpace (0x3C :: s) = 0x3C :: trimRightSpace s := trimSpace_cons (by decide) s
  have hfence : hasPrefix (0x3C :: s) fence = false := by
    rw [← Bool.not_eq_true, hasPrefix, List.isPrefixOf_iff_prefix]
    exact fun h => absurd (List.cons_prefix_cons.mp h).1 (by decide)
  have hheading : (find headingRe (0x3C :: s)).isSome = false := by
    rw [← Bool.not_eq_true]
    intro h
    obtain ⟨t, ht⟩ := head_of_headingRe h
    exact absurd (List.cons.inj ht).1 (by decide)
  have hlist : isMatch listRe (0x3C :: s) = false := by
    rw [← Bool.not_eq_true]
    intro h
    obtain ⟨b, t, ht, hb⟩ := head_of_listRe h
    rw [← (List.cons.inj ht).1] at hb
    exact absurd hb (by decide)
  have hraw : hasPrefix (0x3C :: trimRightSpace s) (utf8 "<") = true :=
    List.isPrefixOf_iff_prefix.mpr ⟨trimRightSpace s, rfl⟩
  rw [rawLines, hfence, hheading, hlist, htrim, hraw]
  simp

/-- The placeholders that are passed through are the lines outside the fences. -/
theorem token_mem_rawLines {n : Nat} {ls : List GoString} (hn : ls.length ≤ n) (i : Nat) :
    placeholderToken i ∈ rawLines n ls ↔ placeholderToken i ∈ outsideFences false ls := by
  obtain ⟨Q, hQ⟩ := pageMark_token.start (placeholderToken_between i)
  induction n generalizing ls with
  | zero =>
    have hls : ls = [] := List.length_eq_zero_iff.mp (by omega)
    subst hls
    rfl
  | succ n ih =>
    cases ls with
    | nil => rfl
    | cons l ls =>
      rw [List.length_cons] at hn
      have hrest := @ih ls (by omega)
      by_cases hopen : ∃ s, l = 0x3C :: s
      · obtain ⟨s, rfl⟩ := hopen
        have hfence : hasPrefix (0x3C :: s) fence = false := by
          rw [← Bool.not_eq_true, hasPrefix, List.isPrefixOf_iff_prefix]
          exact fun h => absurd (List.cons_prefix_cons.mp h).1 (by decide)
        rw [rawLines_cons_of_open, outsideFences, hfence]
        simp only [Bool.false_eq_true, if_false, List.mem_cons, hrest]
      have hne : placeholderToken i ≠ l := fun h => hopen ⟨_, h.symm.trans hQ⟩
      by_cases hfence : hasPrefix l fence = true
      · rw [rawLines, if_pos hfence, outsideFences, if_pos hfence, outsideFences_true]
        exact ih (by rw [List.length_drop]; omega)
      have hskip : placeholderToken i ∈ outsideFences false (l :: ls) ↔
          placeholderToken i ∈ outsideFences false ls := by
        rw [outsideFences, if_neg hfence, List.mem_cons, or_iff_right hne]
      rw [rawLines, if_neg hfence]
      split_ifs with hheading hlist hblank hraw
      · exact hrest.trans hskip.symm
      · have hsplit := takeWhile_append_drop (isMatch listRe) (l :: ls)
        have hitems : ∀ k ∈ (l :: ls).takeWhile (isMatch listRe),
            hasPrefix k fence = false ∧ placeholderToken i ≠ k := by
          intro k hk
          obtain ⟨b, s, rfl, hb⟩ := head_of_listRe (List.mem_takeWhile_imp hk)
          constructor
          · rw [← Bool.not_eq_true, hasPrefix, List.isPrefixOf_iff_prefix]
            intro hpre
            rw [← (List.cons_prefix_cons.mp hpre).1] at hb
            exact absurd hb (by decide)
          · rw [hQ]
            intro heq
            rw [← (List.cons.inj heq).1] at hb
            exact absurd hb (by decide)
        have hlen : ((l :: ls).takeWhile (isMatch listRe)).length ≠ 0 := by
          rw [List.takeWhile_cons_of_pos hlist]
          exact Nat.succ_ne_zero _
        generalize (l :: ls).takeWhile (isMatch listRe) = items at hsplit hitems hlen ⊢
        have hbehind := @ih ((l :: ls).drop items.length) (by
          rw [List.length_drop, List.length_cons]
          omega)
        rw [hbehind, ← hsplit, List.drop_left, outsideFences_append fun k hk => (hitems k hk).1,
          List.mem_append]
        exact (or_iff_right fun hk => (hitems _ hk).2 rfl).symm
      · exact hrest.trans hskip.symm
      · rw [List.mem_cons, or_iff_right hne]
        exact hrest.trans hskip.symm
      · exact hrest.trans hskip.symm

/-! ## Placeholders of a rendered body -/

theorem scan_token_segments (s : GoString) :
    (segments s).flatMap (scan readToken) = scan readToken s := by
  have hjoin := scan_join reads_token (b := newline) (fun t a h => pageMark_token.line h)
    (segments s)
  rw [join_segments] at hjoin
  exact hjoin.symm

theorem nodup_scan_placeholderBody {src : GoString} (h : OwnText src) :
    (scan readToken (placeholderBody src)).Nodup :=
  ((tokens_placeholderBody h).nodup_iff.mpr (nodup_tokenNumbers _ _)).of_append_left

/-- A placeholder comes out of the renderer when it stands outside the fences. -/
theorem token_mem_scan_render {src : GoString} (h : OwnText src) (i : Nat) :
    itoa i ∈ scan readToken (renderMarkdown (placeholderBody src)) ↔
      placeholderToken i ∈ outsideFences false (segments (placeholderBody src)) := by
  rw [← token_mem_rawLines (Nat.le_refl _), scan_token_renderMarkdown, List.mem_flatMap]
  constructor
  · rintro ⟨l, hl, hi⟩
    have hin := placeholderToken_infix_iff.mpr hi
    rwa [← tokenLines_placeholderBody h l ((rawLines_sublist _).subset hl) i hin]
  · exact fun hi => ⟨_, hi, by rw [scan_placeholderToken]; exact List.mem_singleton_self _⟩

theorem placed_iff {src : GoString} (h : OwnText src) :
    Placed src ↔ ∀ i < (quizzesOf src).length + (exercisesOf src).length,
      placeholderToken i <:+: renderMarkdown (placeholderBody src) := by
  refine forall_congr' fun i => forall_congr' fun _ => ?_
  rw [placeholderToken_infix_iff, token_mem_scan_render h]

/-- The renderer keeps the placeholders apart. -/
theorem scan_render_subperm {src : GoString} {ls : List GoString}
    (hls : ls.Subperm (segments (placeholderBody src))) :
    (ls.flatMap (scan readToken)).Subperm (scan readToken (placeholderBody src)) := by
  obtain ⟨ks, hperm, hsub⟩ := hls
  rw [← scan_token_segments]
  exact ⟨_, hperm.flatMap_right _, hsub.flatMap _⟩

/-- When every block is placed, each placeholder comes out of the renderer once, no
exercise has one, and a line that is marked up has none. -/
structure TokensRendered (src : GoString) : Prop where
  rendered : (scan readToken (renderMarkdown (placeholderBody src))).Perm
    (tokenNumbers 0 ((quizzesOf src).length + (exercisesOf src).length))
  exercises : ∀ text ∈ exercisesOf src, scan readToken text = []
  escaped : ∀ i < (quizzesOf src).length + (exercisesOf src).length,
    escapeString (placeholderToken i) <:+: renderMarkdown (placeholderBody src) →
      escapeString (placeholderToken i) <:+: placeholderBody src

theorem tokensRendered_of_placed {src : GoString} (h : OwnText src) (hplaced : Placed src) :
    TokensRendered src := by
  have htokens := tokens_placeholderBody h
  have hnodup := htokens.nodup_iff.mpr (nodup_tokenNumbers _ _)
  have hlines : (scan readToken (renderMarkdown (placeholderBody src))).Sublist
      (scan readToken (placeholderBody src)) := by
    rw [scan_token_renderMarkdown, ← scan_token_segments]
    exact (rawLines_sublist _).flatMap _
  have hmem : ∀ i < (quizzesOf src).length + (exercisesOf src).length,
      itoa i ∈ scan readToken (renderMarkdown (placeholderBody src)) :=
    fun i hi => (token_mem_scan_render h i).mpr (hplaced i hi)
  refine ⟨?_, fun text htext => ?_, fun i hi hin => ?_⟩
  · rw [List.perm_ext_iff_of_nodup (hlines.nodup (nodup_scan_placeholderBody h))
      (nodup_tokenNumbers _ _)]
    intro a
    constructor
    · exact fun ha => htokens.subset (List.mem_append_left _ (hlines.subset ha))
    · intro ha
      obtain ⟨i, hi, rfl⟩ := List.mem_map.mp ha
      exact hmem i (by simpa using List.mem_range'_1.mp hi)
  · obtain ⟨b, hb, rfl⟩ := List.mem_map.mp htext
    have hinner : scan readToken b.inner = [] := by
      rw [List.eq_nil_iff_forall_not_mem]
      intro a ha
      have hin : a ∈ (blocks exerciseWord (aroundQuizzes (bodyOf src))).1.flatMap
          fun b => scan readToken b.inner := List.mem_flatMap.mpr ⟨b, hb, ha⟩
      obtain ⟨i, hi, rfl⟩ := List.mem_map.mp (htokens.subset (List.mem_append_right _ hin))
      have hbody := hlines.subset (hmem i (by simpa using List.mem_range'_1.mp hi))
      exact (List.disjoint_of_nodup_append hnodup) hbody hin
    rw [← List.subset_nil, ← hinner]
    exact scan_subset reads_token (trimSpace_isInfix b.inner)
  · have hforeign : Foreign tagStarts (escapeString (placeholderToken i)) :=
      (foreign_escaped i).mono (by decide)
    rcases hforeign.of_renderMarkdown hin with ⟨l, hl, hin⟩ | ⟨l, hl, hin⟩
    · exact hin.trans (infix_of_mem_segments ((rawLines_sublist _).subset hl))
    · -- The line would be another one with the placeholder in it.
      exfalso
      have hnodup' : ((l :: rawLines (segments (placeholderBody src)).length
          (segments (placeholderBody src))).flatMap (scan readToken)).Nodup := by
        obtain ⟨ks, hperm, hsub⟩ := scan_render_subperm hl
        exact hperm.nodup_iff.mp (hsub.nodup (nodup_scan_placeholderBody h))
      rw [List.flatMap_cons, ← scan_token_renderMarkdown] at hnodup'
      exact List.disjoint_of_nodup_append hnodup'
        (placeholderToken_infix_iff.mp (token_of_escaped.1 hin)) (hmem i hi)

end TrainingPlatform.Content
