import TrainingPlatform.Content.DemoLinks
import TrainingPlatform.Content.Solvable
import TrainingPlatform.Content.TermRefs

/-!
# Click-to-run fences

A fence whose info string names a terminal is rendered as a block that runs its code in
that terminal, and the build checks the number.  The expression that recognises the fence
takes one digit from 1 to 6, and what it does not take is an ordinary fence that nothing
checks.
-/

namespace TrainingPlatform.Content

open Go Go.Re Scoring

/-- A code fence: its info string, and its lines escaped. -/
structure Fence where
  info : GoString
  code : GoString

/-- The fences of some lines, of which the first is not closed yet. -/
def fencesIn : Option (GoString × List GoString) → List GoString → List Fence
  | none, [] => []
  | some (info, buf), [] => [⟨info, join (buf.map escapeString) (utf8 "\n")⟩]
  | none, l :: ls =>
    if hasPrefix l fence then fencesIn (some (trimSpace (trimPrefix l fence), [])) ls
    else fencesIn none ls
  | some (info, buf), l :: ls =>
    if hasPrefix l fence then ⟨info, join (buf.map escapeString) (utf8 "\n")⟩ :: fencesIn none ls
    else fencesIn (some (info, buf ++ [l])) ls

def fencesOf (text : GoString) : List Fence := fencesIn none (segments text)

/-- What the renderer makes of a fence. -/
def Fence.html (f : Fence) : GoString := codeBlock f.info f.code

/-- The info string is `.termN`, with the number in these digits. -/
def Fence.Names (f : Fence) (digits : GoString) : Prop :=
  f.info = utf8 ".term" ++ digits ∧ digits ≠ [] ∧ ∀ b ∈ digits, isDecimal b = true

/-- A block that runs its code in a terminal. -/
def clickToRun (n : Int) (code : GoString) : GoString :=
  utf8 "<pre class=\"term-code\" data-term=\"" ++ itoa n ++
    utf8 "\" title=\"click to run in terminal " ++ itoa n ++ utf8 "\"><code>" ++ code ++
    utf8 "</code></pre>"

/-- The fence is a block for one of the lesson's terminals in the HTML. -/
structure Fence.Runs (terms : Int) (html : GoString) (f : Fence) (digits : GoString) : Prop where
  one_le : 1 ≤ decimalValue digits
  le_terms : decimalValue digits ≤ terms
  html_eq : f.html = clickToRun (decimalValue digits) f.code
  infix_html : f.html <:+: html

/-- The placeholder of an exercise is a line of the body outside the fences. -/
def Outside (src : GoString) (k : Nat) : Prop :=
  placeholderToken ((quizzesOf src).length + k) ∈
    outsideFences false (segments (placeholderBody src))

/-- Every fence that names a terminal is a block for it: on the page, and in an exercise in
the exercise's HTML, which is on the page where the exercise stands outside the fences. -/
structure FencesRun (env : Env) (slug src : GoString) (l : Lesson) : Prop where
  body : ∀ f ∈ fencesOf (placeholderBody src), ∀ digits, f.Names digits →
    f.Runs l.frontMatter.terminals l.html digits
  exercises : ∀ k text, (exercisesOf src)[k]? = some text → ∀ f ∈ fencesOf text, ∀ digits,
    f.Names digits →
      f.Runs l.frontMatter.terminals (exerciseHtml (challengeHash env.sha text slug) text) digits ∧
        (Outside src k → f.html <:+: l.html)

def termDigits : GoString := utf8 "123456"

/-- One digit that the build knows. -/
def IsTermDigit (digits : GoString) : Prop := ∃ b ∈ termDigits, digits = [b]

/-- Terminals are named by one digit from 1 to 6, and by one the lesson has in an exercise
that stands in a fence itself. -/
structure TermsNamed (env : Env) (src : GoString) : Prop where
  body : ∀ f ∈ fencesOf (placeholderBody src), ∀ digits, f.Names digits → IsTermDigit digits
  exercises : ∀ k text, (exercisesOf src)[k]? = some text → ∀ f ∈ fencesOf text, ∀ digits,
    f.Names digits → IsTermDigit digits ∧
      (¬ Outside src k → decimalValue digits ≤ (frontMatterOf env src).terminals)

/-! ## Fences the renderer meets -/

theorem fencesIn_some (info : GoString) (buf ls : List GoString) :
    fencesIn (some (info, buf)) ls =
      ⟨info, join ((buf ++ ls.takeWhile fun l => !hasPrefix l fence).map escapeString)
        (utf8 "\n")⟩ ::
        fencesIn none (ls.drop ((ls.takeWhile fun l => !hasPrefix l fence).length + 1)) := by
  induction ls generalizing buf with
  | nil => simp [fencesIn]
  | cons l ls ih =>
    rw [fencesIn]
    cases hfence : hasPrefix l fence with
    | true => simp [hfence]
    | false => simp [hfence, ih]

theorem fencesIn_append {ls : List GoString} (h : ∀ l ∈ ls, hasPrefix l fence = false)
    (ks : List GoString) : fencesIn none (ls ++ ks) = fencesIn none ks := by
  induction ls with
  | nil => rfl
  | cons l ls ih =>
    obtain ⟨hl, hls⟩ := List.forall_mem_cons.mp h
    rw [List.cons_append, fencesIn, hl, ih hls]
    rfl

theorem not_fence_of_listRe {l : GoString} (h : isMatch listRe l = true) :
    hasPrefix l fence = false := by
  obtain ⟨b, s, rfl, hb⟩ := head_of_listRe h
  rw [← Bool.not_eq_true, hasPrefix, List.isPrefixOf_iff_prefix]
  intro hpre
  rw [← (List.cons_prefix_cons.mp hpre).1] at hb
  exact absurd hb (by decide)

/-- Every fence comes out of the renderer, in order. -/
theorem fences_sublist {n : Nat} {ls : List GoString} (hn : ls.length ≤ n) :
    ((fencesIn none ls).map Fence.html).Sublist (renderLines n ls) := by
  induction n generalizing ls with
  | zero =>
    obtain rfl := List.length_eq_zero_iff.mp (Nat.le_zero.mp hn)
    exact .slnil
  | succ n ih =>
    cases ls with
    | nil => exact .slnil
    | cons l ls =>
      rw [List.length_cons] at hn
      rw [renderLines]
      by_cases hfence : hasPrefix l fence = true
      · rw [if_pos hfence, fencesIn, if_pos hfence, fencesIn_some, List.map_cons, List.nil_append]
        exact (ih (by rw [List.length_drop]; omega)).cons_cons _
      have hskip : fencesIn none (l :: ls) = fencesIn none ls := by rw [fencesIn, if_neg hfence]
      have hrest : ((fencesIn none ls).map Fence.html).Sublist (renderLines n ls) :=
        ih (by omega)
      rw [if_neg hfence, hskip]
      cases hheading : find headingRe l with
      | some m => exact hrest.cons _
      | none =>
        dsimp only
        split_ifs with hlist hblank hraw
        · have hsplit := takeWhile_append_drop (isMatch listRe) (l :: ls)
          have hitems : ∀ k ∈ (l :: ls).takeWhile (isMatch listRe), hasPrefix k fence = false :=
            fun k hk => not_fence_of_listRe (List.mem_takeWhile_imp hk)
          have hlen : ((l :: ls).takeWhile (isMatch listRe)).length ≠ 0 := by
            rw [List.takeWhile_cons_of_pos hlist]
            exact Nat.succ_ne_zero _
          rw [← hskip]
          nth_rewrite 1 [← hsplit]
          rw [fencesIn_append hitems]
          refine (ih ?_).cons _
          rw [List.length_drop, List.length_cons]
          omega
        · exact hrest
        · exact hrest.cons _
        · exact hrest.cons _

/-! ## The block of a fence -/

variable {f : Fence} {digits code text : GoString} {b : UInt8}

theorem quote_not_mem_escapeString (s : GoString) : 0x22 ∉ escapeString s := by
  rw [escapeString, List.mem_flatMap]
  intro h
  obtain ⟨b, -, hb⟩ := h
  split_ifs at hb with h₁ h₂ h₃ h₄ h₅ <;> try exact absurd hb (by decide)
  exact h₅ (List.mem_singleton.mp hb).symm

/-- Escaped lines hold neither a tag nor a quote. -/
def IsCode (code : GoString) : Prop := 0x3C ∉ code ∧ 0x22 ∉ code

theorem isCode_join (buf : List GoString) : IsCode (join (buf.map escapeString) (utf8 "\n")) := by
  have hline : ∀ c : UInt8, newline ∉ [c] → c ∈ join (buf.map escapeString) (utf8 "\n") →
      ∃ l ∈ buf, c ∈ escapeString l := by
    intro c hc hmem
    obtain ⟨_, hl, hin⟩ := infix_of_infix_join (List.cons_ne_nil c []) hc
      ((List.singleton_infix_iff c _).mpr hmem)
    obtain ⟨l, hbuf, rfl⟩ := List.mem_map.mp hl
    exact ⟨l, hbuf, (List.singleton_infix_iff c _).mp hin⟩
  constructor
  · intro hmem
    obtain ⟨l, -, hl⟩ := hline _ (by decide) hmem
    exact lt_not_mem_escapeString l hl
  · intro hmem
    obtain ⟨l, -, hl⟩ := hline _ (by decide) hmem
    exact quote_not_mem_escapeString l hl

theorem isCode_of_mem_fencesIn {o : Option (GoString × List GoString)} {ls : List GoString}
    (h : f ∈ fencesIn o ls) : IsCode f.code := by
  induction ls generalizing o with
  | nil =>
    cases o with
    | none => cases h
    | some r =>
      rw [fencesIn, List.mem_singleton] at h
      rw [h]
      exact isCode_join _
  | cons l ls ih =>
    cases o with
    | none =>
      rw [fencesIn] at h
      split_ifs at h
      · exact ih h
      · exact ih h
    | some r =>
      rw [fencesIn] at h
      split_ifs at h
      · rcases List.mem_cons.mp h with rfl | h
        · exact isCode_join _
        · exact ih h
      · exact ih h

theorem mem_termDigits (h : 0x31 ≤ b ∧ b ≤ 0x36) : b ∈ termDigits := by
  have hall : ∀ n < 256, 0x31 ≤ n → n ≤ 0x36 → UInt8.ofNat n ∈ termDigits := by decide +kernel
  rw [UInt8.le_iff_toNat_le, UInt8.le_iff_toNat_le] at h
  have hmem := hall b.toNat b.toNat_lt h.1 h.2
  rwa [UInt8.ofNat_toNat] at hmem

/-- The expression takes one digit. -/
theorem find_termInfoRe {info : GoString} {m : Match} (h : find termInfoRe info = some m) :
    ∃ b ∈ termDigits, info = utf8 ".term" ++ [b] := by
  have hc : Consumes (all [lit (utf8 ".term"), group 1 (set fun b => 0x31 ≤ b && b ≤ 0x36)]) info
      m.caps := consumes_of_find_anchored h
  obtain ⟨_, _, rfl, h₁, rfl⟩ := (consumes_all_cons_of_plain consumes_lit).mp hc
  obtain ⟨_, hset, -⟩ := consumes_group.mp (consumes_all_singleton.mp h₁)
  obtain ⟨⟨b, hb, rfl⟩, -⟩ := consumes_set.mp hset
  simp only [Bool.and_eq_true, decide_eq_true_eq] at hb
  exact ⟨b, mem_termDigits hb, rfl⟩

theorem codeBlock_of_digit (hb : b ∈ termDigits) (code : GoString) :
    codeBlock (utf8 ".term" ++ [b]) code = clickToRun (decimalValue [b]) code := by
  have hall : ∀ b ∈ termDigits, (find termInfoRe (utf8 ".term" ++ [b])).map (Match.group · 1) =
      some (itoa (decimalValue [b])) := by decide +kernel
  obtain ⟨m, hm, hgroup⟩ := Option.map_eq_some_iff.mp (hall b hb)
  rw [codeBlock, hm]
  dsimp only
  rw [hgroup, clickToRun]

/-- A fence that names a terminal becomes a block for it exactly when the build knows the
digits. -/
theorem Fence.html_eq_iff (h : f.Names digits) :
    f.html = clickToRun (decimalValue digits) f.code ↔ IsTermDigit digits := by
  constructor
  · intro heq
    rw [Fence.html, codeBlock] at heq
    cases hfind : find termInfoRe f.info with
    | none =>
      rw [hfind] at heq
      have hsplit : utf8 "<pre class=\"term-code\" data-term=\"" =
          utf8 "<pre " ++ utf8 "class=\"term-code\" data-term=\"" := by decide
      have hplain : utf8 "<pre><code>" = utf8 "<pre>" ++ utf8 "<code>" := by decide
      rw [clickToRun, hsplit, hplain] at heq
      simp only [List.append_assoc] at heq
      exact absurd (List.append_inj heq (by decide)).1 (by decide)
    | some m =>
      obtain ⟨b, hb, hinfo⟩ := find_termInfoRe hfind
      exact ⟨b, hb, List.append_cancel_left (h.1.symm.trans hinfo)⟩
  · intro hdigit
    obtain ⟨b, hb, rfl⟩ := hdigit
    rw [Fence.html, h.1, codeBlock_of_digit hb]

/-! ## What outlives the stages of a page -/

/-- A pattern with its tag ends alone at the ends and another that starts and ends with a
tag, with neither in the other. -/
theorem apart_of_mark {P B : GoString} (hB : Tagged B) (htail : 0x3C ∉ P.tail)
    (hinit : 0x3E ∉ P.dropLast) (hPB : ¬ P <:+: B) (hBP : ¬ B <:+: P) : Apart P B where
  inside := hPB
  around := hBP
  ends w hne hsuf hpre := by
    obtain ⟨c, w, rfl⟩ := List.exists_cons_of_ne_nil hne
    have hc : c = 0x3C := by
      obtain ⟨r, rfl⟩ := hpre
      exact Option.some.inj hB.1
    obtain ⟨u, rfl⟩ := hsuf
    cases u with
    | nil => exact hPB hpre.isInfix
    | cons d u =>
      rw [List.cons_append, List.tail_cons, hc] at htail
      exact htail (List.mem_append_right u List.mem_cons_self)
  starts w hne hpre hsuf := by
    have hlast : 0x3E ∈ w := by
      obtain ⟨u, rfl⟩ := hsuf
      have hget := hB.2
      rw [List.getLast?_append_of_ne_nil _ hne] at hget
      exact List.mem_of_getLast? hget
    obtain ⟨r, rfl⟩ := hpre
    by_cases hr : r = []
    · subst hr
      rw [List.append_nil] at hPB
      exact hPB hsuf.isInfix
    · rw [List.dropLast_append_of_ne_nil hr] at hinit
      exact hinit (List.mem_append_left _ hlast)

/-- What ends a tag and starts another one has two bytes. -/
theorem two_le_length {u v w : GoString} (hu : u.getLast? = some 0x3E) (hv : v.head? = some 0x3C)
    (hne : w ≠ []) (hsuf : w <:+ u) (hpre : w <+: v) : 2 ≤ w.length := by
  obtain ⟨c, w, rfl⟩ := List.exists_cons_of_ne_nil hne
  cases w with
  | cons => exact Nat.le_add_left 2 _
  | nil =>
    obtain ⟨x, rfl⟩ := hsuf
    obtain ⟨y, rfl⟩ := hpre
    rw [List.getLast?_concat] at hu
    have hboth : (0x3E : UInt8) = 0x3C := (Option.some.inj hu).symm.trans (Option.some.inj hv)
    exact absurd hboth (by decide)

/-- Two elements with different starts that neither has inside. -/
theorem apart_of_starts {P B : GoString} {c d : UInt8} (hP : Tagged P) (hB : Tagged B)
    (hPc : [0x3C, c] <+: P) (hBd : [0x3C, d] <+: B) (hcB : ¬ [0x3C, c] <:+: B)
    (hdP : ¬ [0x3C, d] <:+: P) : Apart P B where
  inside h := hcB (hPc.isInfix.trans h)
  around h := hdP (hBd.isInfix.trans h)
  ends w hne hsuf hpre := by
    have hlen := two_le_length hP.2 hB.1 hne hsuf hpre
    exact hdP ((List.prefix_of_prefix_length_le hBd hpre hlen).isInfix.trans hsuf.isInfix)
  starts w hne hpre hsuf := by
    have hlen := two_le_length hB.2 hP.1 hne hsuf hpre
    exact hcB ((List.prefix_of_prefix_length_le hPc hpre hlen).isInfix.trans hsuf.isInfix)

/-- A pattern without a tag's ends and an element without the pattern. -/
theorem apart_of_text {P B : GoString} (hB : Tagged B) (hopen : 0x3C ∉ P) (hclose : 0x3E ∉ P)
    (hPB : ¬ P <:+: B) : Apart P B where
  inside := hPB
  around h := hopen (h.subset (List.mem_of_head? hB.1))
  ends w hne hsuf hpre := by
    obtain ⟨c, w, rfl⟩ := List.exists_cons_of_ne_nil hne
    obtain ⟨r, rfl⟩ := hpre
    rw [← Option.some.inj hB.1] at hopen
    exact hopen (hsuf.subset List.mem_cons_self)
  starts w hne hpre hsuf := by
    obtain ⟨u, rfl⟩ := hsuf
    have hget := hB.2
    rw [List.getLast?_append_of_ne_nil _ hne] at hget
    exact hclose (hpre.subset (List.mem_of_getLast? hget))

/-! ## The block on the page -/

/-- The tags before the code of a block. -/
def termOpen (b : UInt8) : GoString :=
  utf8 "<pre class=\"term-code\" data-term=\"" ++ itoa (decimalValue [b]) ++
    utf8 "\" title=\"click to run in terminal " ++ itoa (decimalValue [b]) ++ utf8 "\"><code>"

/-- What follows `<` in the tags of a block. -/
def blockStarts : GoString := utf8 "/cp"

theorem clickToRun_eq (b : UInt8) (code : GoString) :
    clickToRun (decimalValue [b]) code = termOpen b ++ (code ++ utf8 "</code></pre>") :=
  List.append_assoc _ _ _

theorem tagged_clickToRun (n : Int) (code : GoString) : Tagged (clickToRun n code) :=
  ⟨rfl, getLast?_append_close _ (by decide)⟩

/-- The number is where the build looks for it. -/
theorem termAttr_infix_clickToRun (n : Int) (code : GoString) :
    termAttr (itoa n) <:+: clickToRun n code := by
  have hopen : utf8 "<pre class=\"term-code\" data-term=\"" =
      utf8 "<pre class=\"term-code\" " ++ utf8 "data-term=\"" := by decide
  have hclose : utf8 "\" title=\"click to run in terminal " =
      utf8 "\"" ++ utf8 " title=\"click to run in terminal " := by decide
  refine ⟨utf8 "<pre class=\"term-code\" ", utf8 " title=\"click to run in terminal " ++ (itoa n ++
    (utf8 "\"><code>" ++ (code ++ utf8 "</code></pre>"))), ?_⟩
  rw [clickToRun, termAttr, hopen, hclose]
  simp only [List.append_assoc]

section Block

variable {sha : Sha256} {key : GoString} (hb : b ∈ termDigits) (hcode : IsCode code)
include hb hcode

/-- No other tag starts in a block. -/
theorem not_infix_clickToRun {P : GoString} (hP : Foreign blockStarts P) (hopen : 0x3C ∈ P) :
    ¬ P <:+: clickToRun (decimalValue [b]) code := by
  have htags : ∀ b ∈ termDigits, isMarkup blockStarts (termOpen b) = true ∧
      (termOpen b).getLast? = some 0x3E := by decide +kernel
  rw [clickToRun_eq]
  intro h
  exact hcode.1 ((hP.of_element (htags b hb) (by decide) h).subset hopen)

theorem apart_token (i : Nat) :
    Apart (placeholderToken i) (clickToRun (decimalValue [b]) code) := by
  have hforeign : Foreign blockStarts (placeholderToken i) :=
    (foreign_token (placeholderToken_between i)).mono (by decide)
  obtain ⟨Q, hQ⟩ := pageMark_token.start (placeholderToken_between i)
  have hopen : 0x3C ∈ placeholderToken i := by
    rw [hQ]
    exact List.mem_cons_self
  refine apart_of_mark (tagged_clickToRun _ code) hforeign.tail hforeign.init
    (not_infix_clickToRun hb hcode hforeign hopen) fun h => ?_
  have hpair : [0x3C, 0x70] <:+: placeholderToken i := List.IsInfix.trans ⟨[], _, rfl⟩ h
  have htail := hforeign.tail
  rw [hQ] at hpair htail
  rcases List.infix_cons_iff.mp hpair with hpre | hin
  · exact absurd (List.cons_prefix_cons.mp (List.cons_prefix_cons.mp hpre).2).1 (by decide)
  · exact htail (hin.subset List.mem_cons_self)

theorem apart_demo : Apart (autoDemoAnchor (sha.hex key)) (clickToRun (decimalValue [b]) code) := by
  refine apart_of_starts (c := 0x61) (d := 0x70) (tagged_demoButton _ _) (tagged_clickToRun _ code)
    ⟨_, rfl⟩ ⟨_, rfl⟩ ?_ (not_infix_autoDemoAnchor (by decide) (by decide) sha key)
  exact not_infix_clickToRun hb hcode (foreign_pair (by decide) (by decide)) List.mem_cons_self

/-- The attribute of a button stands in no block: its quote would be in the tags. -/
theorem apart_verify : Apart (verifyMark (sha.hex key)) (clickToRun (decimalValue [b]) code) := by
  refine apart_of_text (tagged_clickToRun _ code) (not_mem_verifyMark (by decide) sha key)
    (not_mem_verifyMark (by decide) sha key) fun h => ?_
  have hattr : utf8 "data-hash-code=\"" <:+: clickToRun (decimalValue [b]) code := by
    refine List.IsInfix.trans ?_ h
    rw [verifyMark, List.append_assoc]
    exact List.infix_append_left
  have hopen : ∀ b ∈ termDigits, ¬ utf8 "data-hash-code=\"" <:+: termOpen b := by decide +kernel
  have hquote : 0x22 ∉ code ++ utf8 "</code></pre>" := by
    rw [List.mem_append, not_or]
    exact ⟨hcode.2, by decide⟩
  have hlast : utf8 "data-hash-code=\"" = utf8 "data-hash-code=" ++ [0x22] := by decide
  rw [clickToRun_eq, infix_append_iff_of_not_splits] at hattr
  · rcases hattr with hin | hin
    · exact hopen b hb hin
    · exact hquote (hin.subset (by decide))
  · intro hsplits
    obtain ⟨p, q, -, hq, heq, -, hpre⟩ := hsplits
    have hget : q.getLast? = some 0x22 := by
      have hwhole := congrArg List.getLast? heq
      rw [hlast, List.getLast?_concat, List.getLast?_append_of_ne_nil _ hq] at hwhole
      exact hwhole.symm
    exact hquote (hpre.subset (List.mem_of_getLast? hget))

end Block

/-! ## The stages -/

theorem apart_tokens {i j : Nat} (h : j ≠ i) : Apart (placeholderToken j) (placeholderToken i) := by
  have hforeign := foreign_token (placeholderToken_between j)
  exact apart_of_mark (tagged_placeholderToken i) hforeign.tail hforeign.init
    (fun hin => h (placeholderToken_isInfix hin)) fun hin => h (placeholderToken_isInfix hin).symm

/-- What no placeholder overlaps stays when the blocks are put back. -/
theorem infix_substitute {B : GoString} (hB : ∀ j, Apart (placeholderToken j) B) {i : Nat}
    {hs : List GoString} {s : GoString} (h : B <:+: s) : B <:+: substitute i hs s := by
  induction hs generalizing i s with
  | nil => exact h
  | cons ph hs ih => exact ih ((hB i).infix_replaceFirst ph h)

/-- A block whose placeholder stands in the body comes back with all it holds. -/
theorem infix_substitute_of_token {B ph : GoString} (hB : ∀ j, Apart (placeholderToken j) B)
    (hph : B <:+: ph) {i k : Nat} {hs : List GoString} {s : GoString} (hk : hs[k]? = some ph)
    (h : placeholderToken (i + k) <:+: s) : B <:+: substitute i hs s := by
  induction hs generalizing i k s with
  | nil => cases hk
  | cons ph' hs ih =>
    rw [substitute]
    cases k with
    | zero =>
      rw [List.getElem?_cons_zero, Option.some.injEq] at hk
      subst hk
      obtain ⟨u, v, -, hr⟩ := replace_token (i := i) (h := ph') h
      rw [hr]
      exact infix_substitute hB
        (hph.trans (List.infix_append_left.trans List.infix_append_right))
    | succ k =>
      refine ih (k := k) hk ?_
      have hindex : i + 1 + k = i + (k + 1) := by omega
      rw [hindex]
      exact (apart_tokens (by omega)).infix_replaceFirst ph' h

section Page

variable {env : Env} {resolver : Resolver} {slug src salt : GoString} {l : Lesson}

theorem infix_layout (env : Env) (fm : FrontMatter) (body : GoString) :
    body <:+: layout env fm body := by
  rw [layout]
  iterate 9 refine List.IsInfix.trans ?_ List.infix_append_left
  exact List.infix_append_right

/-- What neither the buttons nor their marks overlap stays on the page. -/
theorem infix_page {B : GoString} (hpage : Rendered env resolver slug src salt l)
    (hdemo : ∀ key, Apart (autoDemoAnchor (env.sha.hex key)) B)
    (hverify : ∀ key, Apart (verifyMark (env.sha.hex key)) B)
    (h : B <:+: blockPage env slug src salt) :
    B <:+: (demoPage env slug src salt).1 ∧ B <:+: l.html := by
  have hhashes : ∀ h ∈ exerciseHashesOf env.sha slug src, ∃ key, h = env.sha.hex key := by
    intro h hh
    obtain ⟨text, -, rfl⟩ := List.mem_map.mp hh
    exact ⟨_, rfl⟩
  have hpaired : B <:+: (demoPage env slug src salt).1 := by
    refine pairTags_induction (I := fun s => B <:+: s) (fun tag _ h hh s hs => ?_) h
    obtain ⟨key, rfl⟩ := hhashes h hh
    exact (hdemo key).infix_replaceFirst _ hs
  refine ⟨hpaired, ?_⟩
  cases ha : l.frontMatter.asserts with
  | false =>
    rw [(hpage.plain ha).1]
    exact hpaired.trans (infix_layout env _ _)
  | true =>
    obtain ⟨r, hr, hhtml, -⟩ := hpage.asserting ha
    rw [hhtml]
    refine List.IsInfix.trans ?_ (infix_layout env _ _)
    refine assertContent_induction (I := fun s => B <:+: s) (fun t ht s hs => ?_) hpaired hr
    have hmem : t.1 ∈ (demoTargets env slug src salt).map Prod.fst := List.mem_map_of_mem ht
    rw [map_fst_demoTargets] at hmem
    obtain ⟨key, hkey⟩ := hhashes _ hmem
    rw [hkey]
    exact (hverify key).infix_replaceFirst _ hs

/-- A block for a terminal stays, and its number is in range. -/
theorem runs_of_infix {f : Fence} {b : UInt8} (hpage : Rendered env resolver slug src salt l)
    (hf : f.Names [b]) (hb : b ∈ termDigits) (hcode : IsCode f.code)
    (h : f.html <:+: blockPage env slug src salt) :
    decimalValue [b] ≤ l.frontMatter.terminals ∧ f.html <:+: l.html := by
  have heq : f.html = clickToRun (decimalValue [b]) f.code :=
    (Fence.html_eq_iff hf).mpr ⟨b, hb, rfl⟩
  rw [heq] at h ⊢
  obtain ⟨hchecked, hhtml⟩ := infix_page hpage (fun _ => apart_demo hb hcode)
    (fun _ => apart_verify hb hcode) h
  refine ⟨?_, hhtml⟩
  have hdigit : ∀ b ∈ termDigits, itoa (decimalValue [b]) = [b] ∧ isTermRef [b] = true ∧
      refNumber [b] = decimalValue [b] := by decide +kernel
  obtain ⟨hitoa, href, hnumber⟩ := hdigit b hb
  have hattr := termAttr_infix_clickToRun (decimalValue [b]) f.code
  rw [hitoa] at hattr
  rw [← hnumber]
  exact refNumber_le_of_checked (terminals_le hpage.terminals) hpage.refs
    ⟨href, hattr.trans hchecked⟩

theorem infix_renderMarkdown {f : Fence} {text : GoString} (h : f ∈ fencesOf text) :
    f.html <:+: renderMarkdown text :=
  infix_join_of_mem _ ((fences_sublist le_rfl).subset (List.mem_map_of_mem h))

theorem infix_exerciseHtml (chHash text : GoString) :
    renderMarkdown text <:+: exerciseHtml chHash text := by
  rw [exerciseHtml]
  iterate 3 refine List.IsInfix.trans ?_ List.infix_append_left
  exact List.infix_append_right

/-- The HTML of an exercise whose placeholder stands outside the fences is put back. -/
theorem infix_blockPage_of_outside {B : GoString} (hB : ∀ j, Apart (placeholderToken j) B) {k : Nat}
    {text : GoString} (hk : (exercisesOf src)[k]? = some text) (hout : Outside src k)
    (h : B <:+: exerciseHtml (challengeHash env.sha text slug) text) :
    B <:+: blockPage env slug src salt := by
  have hhtml : (blockHtml env slug src salt)[(quizzesOf src).length + k]? =
      some (exerciseHtml (challengeHash env.sha text slug) text) := by
    rw [blockHtml, List.getElem?_append_right (by simp), List.length_map, Nat.add_sub_cancel_left,
      List.getElem?_map, hk]
    rfl
  refine infix_substitute_of_token hB h hhtml ?_
  rw [Nat.zero_add, placeholderToken_infix_iff, scan_token_renderMarkdown, List.mem_flatMap]
  refine ⟨_, (token_mem_rawLines le_rfl _).mpr hout, ?_⟩
  rw [scan_placeholderToken]
  exact List.mem_singleton_self _

/-- In a lesson that renders, every fence that names a terminal is a block for one of the
lesson's terminals exactly when the terminals are named by digits the build knows. -/
theorem fencesRun_iff (env : Env) (resolver : Resolver) (slug src salt : GoString) (l : Lesson)
    (h : render env slug src salt resolver = .ok l) :
    FencesRun env slug src l ↔ TermsNamed env src := by
  have hpage := render_page h
  constructor
  · intro hrun
    refine ⟨fun f hf digits hdigits => ?_, fun k text hk f hf digits hdigits => ⟨?_, fun _ => ?_⟩⟩
    · exact (Fence.html_eq_iff hdigits).mp (hrun.body f hf digits hdigits).html_eq
    · exact (Fence.html_eq_iff hdigits).mp (hrun.exercises k text hk f hf digits hdigits).1.html_eq
    · rw [← hpage.frontMatter_eq]
      exact (hrun.exercises k text hk f hf digits hdigits).1.le_terms
  · intro hnamed
    have hone : ∀ b ∈ termDigits, 1 ≤ decimalValue [b] := by decide +kernel
    constructor
    · intro f hf digits hdigits
      obtain ⟨b, hb, rfl⟩ := hnamed.body f hf digits hdigits
      have hcode := isCode_of_mem_fencesIn hf
      have heq := (Fence.html_eq_iff hdigits).mpr ⟨b, hb, rfl⟩
      have hin : f.html <:+: blockPage env slug src salt := by
        have hmarkdown := infix_renderMarkdown hf
        rw [heq] at hmarkdown ⊢
        exact infix_substitute (apart_token hb hcode) hmarkdown
      obtain ⟨hle, hhtml⟩ := runs_of_infix hpage hdigits hb hcode hin
      exact ⟨hone b hb, hle, heq, hhtml⟩
    · intro k text hk f hf digits hdigits
      obtain ⟨⟨b, hb, rfl⟩, hrange⟩ := hnamed.exercises k text hk f hf digits hdigits
      have hcode := isCode_of_mem_fencesIn hf
      have heq := (Fence.html_eq_iff hdigits).mpr ⟨b, hb, rfl⟩
      have hin := (infix_renderMarkdown hf).trans
        (infix_exerciseHtml (challengeHash env.sha text slug) text)
      have hout : Outside src k → decimalValue [b] ≤ l.frontMatter.terminals ∧
          f.html <:+: l.html := by
        intro hout
        refine runs_of_infix hpage hdigits hb hcode ?_
        rw [heq] at hin ⊢
        exact infix_blockPage_of_outside (apart_token hb hcode) hk hout hin
      refine ⟨⟨hone b hb, ?_, heq, hin⟩, fun houtside => (hout houtside).2⟩
      by_cases houtside : Outside src k
      · exact (hout houtside).1
      · rw [hpage.frontMatter_eq]
        exact hrange houtside

end Page

/-- A lesson of one terminal and one fence. -/
def fenceLesson (info : String) : GoString :=
  utf8 "```" ++ utf8 info ++ utf8 "\nls\n```\n"

theorem fencesRun_term1 : ∃ l,
    render dockerEnv (utf8 "fence") (fenceLesson ".term1") (utf8 "demo-salt") none = .ok l ∧
      clickToRun 1 (utf8 "ls") <:+: l.html ∧
      FencesRun dockerEnv (utf8 "fence") (fenceLesson ".term1") l := by
  have hrender : ∃ l, render dockerEnv (utf8 "fence") (fenceLesson ".term1") (utf8 "demo-salt")
      none = .ok l ∧ decide (clickToRun 1 (utf8 "ls") <:+: l.html) = true :=
    ok_of_toOption (by decide +kernel)
  obtain ⟨l, hl, hin⟩ := hrender
  refine ⟨l, hl, of_decide_eq_true hin, (fencesRun_iff dockerEnv none _ _ _ l hl).mpr ⟨?_, ?_⟩⟩
  · have hinfo : ∀ f ∈ fencesOf (placeholderBody (fenceLesson ".term1")),
        f.info = utf8 ".term" ++ utf8 "1" := by decide +kernel
    intro f hf digits hdigits
    have hone := List.append_cancel_left (hdigits.1.symm.trans (hinfo f hf))
    exact ⟨0x31, by decide, hone.trans (by decide)⟩
  · have hnone : exercisesOf (fenceLesson ".term1") = [] := by decide +kernel
    intro k text htext
    rw [hnone] at htext
    cases htext

/-- A fence for the seventh terminal renders, in a lesson of one terminal. -/
theorem not_fencesRun_term7 : ∃ l,
    render dockerEnv (utf8 "fence") (fenceLesson ".term7") (utf8 "demo-salt") none = .ok l ∧
      ¬ FencesRun dockerEnv (utf8 "fence") (fenceLesson ".term7") l := by
  have hrender : ∃ l, render dockerEnv (utf8 "fence") (fenceLesson ".term7") (utf8 "demo-salt")
      none = .ok l ∧ l.frontMatter.terminals = 1 := ok_of_toOption (by decide +kernel)
  obtain ⟨l, hl, hterminals⟩ := hrender
  have hfence : Fence.mk (utf8 ".term7") (utf8 "ls") ∈
      fencesOf (placeholderBody (fenceLesson ".term7")) := by
    have hfences : (fencesOf (placeholderBody (fenceLesson ".term7"))).map
        (fun f => (f.info, f.code)) = [(utf8 ".term7", utf8 "ls")] := by decide +kernel
    obtain ⟨f, hf, heq⟩ := List.mem_map.mp (hfences ▸ List.mem_singleton_self _)
    obtain ⟨hinfo, hcode⟩ := Prod.mk.inj heq
    rwa [← hinfo, ← hcode]
  have hnames : (Fence.mk (utf8 ".term7") (utf8 "ls")).Names (utf8 "7") :=
    ⟨rfl, by decide +kernel, by decide +kernel⟩
  refine ⟨l, hl, fun hrun => ?_⟩
  have hle := (hrun.body _ hfence _ hnames).le_terms
  rw [hterminals] at hle
  exact absurd hle (by decide)

end TrainingPlatform.Content
