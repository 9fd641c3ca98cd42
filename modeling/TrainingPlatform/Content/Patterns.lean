import TrainingPlatform.Content.Markdown
import TrainingPlatform.Go.Matching
import TrainingPlatform.Go.Scan
import TrainingPlatform.Go.Decimal
import Mathlib.Data.List.Perm.Subperm

/-!
# Patterns in a rendered page

A pattern the renderer's own tags cannot make, complete or cut stands in rendered
Markdown only where the source has it: in a line that is passed through as it is, or,
escaped, in another one.
-/

namespace TrainingPlatform.Content

open Go Go.Re

/-! ## Foreign patterns -/

/-- What follows `<` in the tags of the renderer. -/
def tagStarts : GoString := utf8 "/achlpsu"

/-- Markup without a reference and with tags of some starts only. -/
def isMarkup (starts : GoString) : GoString → Bool
  | [] => true
  | b :: s => b != 0x26 && (b != 0x3C || s.head?.any starts.contains) && isMarkup starts s

variable {starts : GoString}

theorem isMarkup_append {s t : GoString} (hs : isMarkup starts s = true)
    (ht : isMarkup starts t = true) : isMarkup starts (s ++ t) = true := by
  induction s with
  | nil => exact ht
  | cons b s ih =>
    rw [isMarkup, Bool.and_eq_true, Bool.and_eq_true] at hs
    obtain ⟨⟨hamp, hlt⟩, hs⟩ := hs
    rw [List.cons_append, isMarkup, Bool.and_eq_true, Bool.and_eq_true]
    refine ⟨⟨hamp, ?_⟩, ih hs⟩
    cases s with
    | nil =>
      rw [List.head?_nil, Option.any_none, Bool.or_false] at hlt
      rw [hlt, Bool.true_or]
    | cons c s => exact hlt

theorem isMarkup_of_not_mem {s : GoString} (hamp : 0x26 ∉ s) (hlt : 0x3C ∉ s) :
    isMarkup starts s = true := by
  induction s with
  | nil => rfl
  | cons b s ih =>
    rw [List.mem_cons, not_or] at hamp hlt
    rw [isMarkup, ih hamp.2 hlt.2, Bool.and_true, Bool.and_eq_true, Bool.or_eq_true, bne_iff_ne,
      bne_iff_ne]
    exact ⟨Ne.symm hamp.1, .inl (Ne.symm hlt.1)⟩

/-- A pattern that starts with a reference or with a tag of another start, and that cannot
go on over the border of a tag or of an attribute. -/
structure Foreign (starts P : GoString) : Prop where
  head : (∃ Q, P = 0x26 :: Q) ∨ ∃ c Q, P = 0x3C :: c :: Q ∧ starts.contains c = false
  plain : ∀ b ∈ utf8 " =\"\n", b ∉ P
  tail : 0x3C ∉ P.tail
  init : 0x3E ∉ P.dropLast

/-- Starts with `<` and ends with `>`. -/
def Tagged (t : GoString) : Prop := t.head? = some 0x3C ∧ t.getLast? = some 0x3E

theorem Tagged.ne_nil {t : GoString} (h : Tagged t) : t ≠ [] :=
  List.ne_nil_of_mem (List.mem_of_head? h.1)

theorem tagged_append {o c : GoString} (ho : o.head? = some 0x3C) (hc : c.getLast? = some 0x3E)
    (g : GoString) : Tagged (o ++ g ++ c) := by
  rw [Tagged, List.append_assoc, List.head?_append, ho, List.getLast?_append,
    List.getLast?_append, hc]
  exact ⟨rfl, rfl⟩

section Foreign

variable {P : GoString} (hP : Foreign starts P)
include hP

theorem Foreign.ne_nil : P ≠ [] := by
  rcases hP.head with ⟨Q, rfl⟩ | ⟨c, Q, rfl, -⟩ <;> exact List.cons_ne_nil _ _

theorem Foreign.not_infix_markup {s : GoString} (hs : isMarkup starts s = true) : ¬ P <:+: s := by
  induction s with
  | nil => exact fun h => hP.ne_nil (List.infix_nil.mp h)
  | cons b s ih =>
    rw [isMarkup, Bool.and_eq_true, Bool.and_eq_true] at hs
    obtain ⟨⟨hamp, hlt⟩, hs⟩ := hs
    rw [List.infix_cons_iff, not_or]
    refine ⟨fun hpre => ?_, ih hs⟩
    rcases hP.head with ⟨Q, rfl⟩ | ⟨c, Q, rfl, hc⟩
    · rw [← (List.cons_prefix_cons.mp hpre).1] at hamp
      exact absurd hamp (by decide)
    · obtain ⟨rfl, r, rfl⟩ := List.cons_prefix_cons.mp hpre
      rw [List.cons_append, List.head?_cons, Option.any_some, hc] at hlt
      exact absurd hlt (by decide)

theorem Foreign.sep_iff {b : UInt8} (hb : b ∈ utf8 " =\"\n") {u v : GoString} :
    P <:+: u ++ b :: v ↔ P <:+: u ∨ P <:+: v :=
  infix_sep_iff hP.ne_nil (hP.plain b hb)

theorem Foreign.sep_cons_iff {b : UInt8} (hb : b ∈ utf8 " =\"\n") {v : GoString} :
    P <:+: b :: v ↔ P <:+: v := by
  have h := hP.sep_iff hb (u := []) (v := v)
  rw [List.nil_append] at h
  exact h.trans (or_iff_right fun h => hP.ne_nil (List.infix_nil.mp h))

theorem Foreign.append_of_open {u v : GoString} (hv : v.head? = some 0x3C) :
    P <:+: u ++ v ↔ P <:+: u ∨ P <:+: v := by
  obtain ⟨w, rfl⟩ := List.head?_eq_some_iff.mp hv
  exact infix_append_cons_iff hP.tail

theorem Foreign.append_of_close {u v : GoString} (hu : u.getLast? = some 0x3E) :
    P <:+: u ++ v ↔ P <:+: u ∨ P <:+: v := by
  obtain ⟨w, rfl⟩ := List.getLast?_eq_some_iff.mp hu
  exact infix_append_iff_of_not_splits (not_splits_of_last hP.init w v)

/-- No pattern goes on over the borders of a text that starts and ends with a tag. -/
theorem Foreign.append_tagged_iff {t u v : GoString} (ht : Tagged t) :
    P <:+: u ++ (t ++ v) ↔ P <:+: u ∨ P <:+: t ∨ P <:+: v := by
  have hhead : (t ++ v).head? = some 0x3C := by
    rw [List.head?_append, ht.1]
    rfl
  rw [hP.append_of_open hhead, hP.append_of_close ht.2]

/-- What stands between two tags. -/
theorem Foreign.of_element {o c g : GoString}
    (ho : isMarkup starts o = true ∧ o.getLast? = some 0x3E)
    (hc : isMarkup starts c = true ∧ c.head? = some 0x3C) (h : P <:+: o ++ (g ++ c)) : P <:+: g := by
  rcases (hP.append_of_close ho.2).mp h with h | h
  · exact absurd h (hP.not_infix_markup ho.1)
  · exact ((hP.append_of_open hc.2).mp h).resolve_right (hP.not_infix_markup hc.1)

/-- A replacement that is a tag or starts and ends with one leaves a pattern alone. -/
theorem Foreign.of_replaceAll {re : Re} {f : Match → GoString} {s : GoString}
    (hf : ∀ m, Consumes re m.text m.caps →
      Tagged (f m) ∧ (P <:+: f m → P <:+: m.text))
    (h : P <:+: replaceAll re f s) : P <:+: s := by
  obtain ⟨hall, hs⟩ := findAllN_spec re s.length ⟨none, s⟩
  have hs : s = _ := hs
  rw [hs]
  rw [replaceAll] at h
  generalize (findAllN re s.length ⟨none, s⟩).1 = ms at h hall ⊢
  generalize (findAllN re s.length ⟨none, s⟩).2 = rest at h ⊢
  clear hs
  induction ms with
  | nil => exact h
  | cons m ms ih =>
    obtain ⟨hm, hms⟩ := List.forall_mem_cons.mp hall
    obtain ⟨htag, hmatch⟩ := hf m.2 hm
    rw [List.flatMap_cons, List.append_assoc, List.append_assoc] at h ⊢
    rcases (hP.append_tagged_iff htag).mp h with h | h | h
    · exact h.trans List.infix_append_left
    · exact (hmatch h).trans (List.infix_append' _ _ _)
    · exact (ih hms h).trans (List.infix_append_right.trans List.infix_append_right)

end Foreign

theorem Foreign.mono {starts' P : GoString} (hP : Foreign starts' P) (h : starts ⊆ starts') :
    Foreign starts P where
  head := hP.head.imp_right fun ⟨c, Q, hPQ, hc⟩ => ⟨c, Q, hPQ, by
    rw [← Bool.not_eq_true, List.contains_iff_mem] at hc ⊢
    exact fun hmem => hc (h hmem)⟩
  plain := hP.plain
  tail := hP.tail
  init := hP.init

/-! ## Inline markup -/

section Inline

variable {P : GoString} (hP : Foreign tagStarts P)
include hP

theorem Foreign.of_codeSpan {m : Match} (hm : Consumes codeRe m.text m.caps)
    (h : P <:+: utf8 "<code>" ++ m.group 1 ++ utf8 "</code>") : P <:+: m.text := by
  rw [List.append_assoc] at h
  exact (hP.of_element (by decide) (by decide) h).trans (group_isInfix hm 1)

theorem Foreign.of_boldSpan {m : Match} (hm : Consumes boldRe m.text m.caps)
    (h : P <:+: utf8 "<strong>" ++ m.group 1 ++ utf8 "</strong>") : P <:+: m.text := by
  rw [List.append_assoc] at h
  exact (hP.of_element (by decide) (by decide) h).trans (group_isInfix hm 1)

theorem Foreign.of_ialAttrs {ials : GoString} (h : P <:+: ialAttrs ials ++ [0x3E]) :
    P <:+: ials := by
  obtain ⟨hall, hs⟩ := findAllN_spec ialAttrRe ials.length ⟨none, ials⟩
  have hs : ials = _ := hs
  rw [hs]
  rw [ialAttrs, findAll, List.flatMap_map] at h
  generalize (findAllN ialAttrRe ials.length ⟨none, ials⟩).1 = ms at h hall ⊢
  generalize (findAllN ialAttrRe ials.length ⟨none, ials⟩).2 = rest at h ⊢
  clear hs
  induction ms with
  | nil => exact absurd h (hP.not_infix_markup (by decide))
  | cons m ms ih =>
    obtain ⟨hm, hms⟩ := List.forall_mem_cons.mp hall
    rw [List.flatMap_cons, List.append_assoc] at h ⊢
    have htail : P <:+: (ms.flatMap fun m => m.1 ++ m.2.text) ++ rest → P <:+: (m.1 ++ m.2.text) ++
        ((ms.flatMap fun m => m.1 ++ m.2.text) ++ rest) := fun h => h.trans List.infix_append_right
    have hmatch : ∀ n, P <:+: m.2.group n → P <:+: (m.1 ++ m.2.text) ++
        ((ms.flatMap fun m => m.1 ++ m.2.text) ++ rest) := fun n h =>
      h.trans ((group_isInfix hm n).trans (List.infix_append_right.trans List.infix_append_left))
    -- The attributes of the later matches.
    generalize (ms.flatMap _ ++ [(0x3E : UInt8)]) = attrs at h ih
    dsimp only at h
    split_ifs at h with hname
    · exact htail (ih h hms)
    · rw [show utf8 " " = [0x20] by decide, show utf8 "=\"" = [0x3D, 0x22] by decide,
        show utf8 "\"" = [0x22] by decide] at h
      simp only [List.append_assoc, List.cons_append, List.nil_append] at h
      rw [hP.sep_cons_iff (by decide), hP.sep_iff (by decide), hP.sep_cons_iff (by decide),
        hP.sep_iff (by decide)] at h
      rcases h with h | h | h
      · exact hmatch 1 h
      · exact hmatch 2 h
      · exact htail (ih h hms)

theorem Foreign.of_link {m : Match} (hm : Consumes linkRe m.text m.caps)
    (h : P <:+: utf8 "<a href=\"" ++ m.group 2 ++ utf8 "\"" ++ ialAttrs (m.group 3) ++
      utf8 ">" ++ m.group 1 ++ utf8 "</a>") : P <:+: m.text := by
  rw [show utf8 "<a href=\"" = utf8 "<a href=" ++ [0x22] by decide,
    show utf8 "\"" = [0x22] by decide, show utf8 ">" = [0x3E] by decide,
    show utf8 "</a>" = 0x3C :: utf8 "/a>" by decide] at h
  simp only [List.append_assoc, List.cons_append, List.nil_append] at h
  rw [hP.sep_iff (by decide), hP.sep_iff (by decide), List.append_cons,
    hP.append_of_close (List.getLast?_concat), hP.append_of_open (List.head?_cons)] at h
  rcases h with h | h | h | h | h
  · exact absurd h (hP.not_infix_markup (by decide))
  · exact h.trans (group_isInfix hm 2)
  · exact (hP.of_ialAttrs h).trans (group_isInfix hm 3)
  · exact h.trans (group_isInfix hm 1)
  · exact absurd h (hP.not_infix_markup (by decide))

/-- Inline markup adds no pattern. -/
theorem Foreign.of_inline {s : GoString} (h : P <:+: inline s) : P <:+: s := by
  rw [inline] at h
  have hlink := hP.of_replaceAll (fun m hm => ⟨?_, hP.of_link hm⟩) h
  · have hbold := hP.of_replaceAll (fun m hm => ⟨?_, hP.of_boldSpan hm⟩) hlink
    · refine hP.of_replaceAll (fun m hm => ⟨?_, hP.of_codeSpan hm⟩) hbold
      exact tagged_append (by decide) (by decide) _
    · exact tagged_append (by decide) (by decide) _
  · simp only [List.append_assoc (utf8 "<a href=\"")]
    exact tagged_append (o := utf8 "<a href=\"") (c := utf8 "</a>") (by decide) (by decide) _

/-! ## Lines -/

/-- Every pattern in a piece of a page is, escaped, in one of some lines. -/
def MarksUp (ls : List GoString) (o : GoString) : Prop :=
  ∀ P, Foreign tagStarts P → P <:+: o → ∃ l ∈ ls, P <:+: escapeString l

omit hP in
theorem escapeString_isInfix {s t : GoString} (h : s <:+: t) : escapeString s <:+: escapeString t := by
  obtain ⟨u, v, rfl⟩ := h
  exact ⟨escapeString u, escapeString v, by simp [escapeString]⟩

theorem Foreign.of_inline_escape {g l : GoString} (hg : g <:+: l)
    (h : P <:+: inline (escapeString g)) : P <:+: escapeString l :=
  (hP.of_inline h).trans (escapeString_isInfix hg)

end Inline

theorem isMarkup_itoa (n : Nat) : isMarkup starts (itoa n) = true := by
  have hdigit : ∀ b, isDecimal b = false → b ∉ itoa n := fun b hb hmem => by
    rw [isDecimal_of_mem_itoa hmem] at hb
    contradiction
  exact isMarkup_of_not_mem (hdigit _ (by decide)) (hdigit _ (by decide))

theorem marksUp_heading {ls : List GoString} {l : GoString} {m : Match} (hl : l ∈ ls)
    (hm : find headingRe l = some m) : MarksUp ls (heading m) := by
  intro P hP h
  obtain ⟨hc, htext⟩ := find_spec hm
  rw [heading, List.append_assoc, List.append_assoc, List.append_assoc] at h
  have hn : isMarkup tagStarts (itoa (m.group 1).length) = true := isMarkup_itoa _
  have hopen : isMarkup tagStarts (utf8 "<h" ++ itoa (m.group 1).length ++ utf8 ">") = true :=
    isMarkup_append (isMarkup_append (by decide) hn) (by decide)
  have hclose : isMarkup tagStarts (utf8 "</h" ++ itoa (m.group 1).length ++ utf8 ">") = true :=
    isMarkup_append (isMarkup_append (by decide) hn) (by decide)
  rw [← List.append_assoc (utf8 "</h")] at h
  have hinline := hP.of_element ⟨hopen, by rw [List.getLast?_append]; rfl⟩
    ⟨hclose, by rw [List.append_assoc]; rfl⟩ h
  exact ⟨l, hl, hP.of_inline_escape ((group_isInfix hc 2).trans htext) hinline⟩

theorem marksUp_paragraph {ls : List GoString} {l : GoString} (hl : l ∈ ls) :
    MarksUp ls (utf8 "<p>" ++ inline (escapeString l) ++ utf8 "</p>") := by
  intro P hP h
  rw [List.append_assoc] at h
  exact ⟨l, hl, hP.of_inline (hP.of_element (by decide) (by decide) h)⟩

theorem marksUp_list {ls items : List GoString} (hitems : items ⊆ ls) :
    MarksUp ls (utf8 "<ul>" ++ (items.map listItem).flatten ++ utf8 "</ul>") := by
  intro P hP h
  rw [List.append_assoc] at h
  have hin := hP.of_element (by decide) (by decide) h
  clear h
  induction items with
  | nil => exact absurd (List.infix_nil.mp hin) hP.ne_nil
  | cons l items ih =>
    obtain ⟨hl, hrest⟩ := List.cons_subset.mp hitems
    have htag : Tagged (listItem l) := tagged_append (by decide) (by decide) _
    rw [List.map_cons, List.flatten_cons, ← List.nil_append (listItem l ++ _),
      hP.append_tagged_iff htag] at hin
    rcases hin with h | h | h
    · exact absurd (List.infix_nil.mp h) hP.ne_nil
    · rw [listItem, List.append_assoc] at h
      refine ⟨l, hl, hP.of_inline_escape ?_ (hP.of_element (by decide) (by decide) h)⟩
      cases hm : find listRe l with
      | none => exact List.nil_infix
      | some m =>
        obtain ⟨hc, htext⟩ := find_spec hm
        exact (group_isInfix hc 1).trans htext
    · exact ih hrest h

theorem group_termInfoRe {info : GoString} {m : Match} (h : find termInfoRe info = some m) :
    ∃ b, (0x31 ≤ b && b ≤ 0x36) = true ∧ m.group 1 = [b] := by
  have hc : Consumes (all [lit (utf8 ".term"), group 1 (set fun b => 0x31 ≤ b && b ≤ 0x36)]) info
      m.caps := consumes_of_find_anchored h
  obtain ⟨_, w, _, hw, rfl⟩ := (consumes_all_cons_of_plain consumes_lit).mp hc
  obtain ⟨d, hset, hcaps⟩ := consumes_group.mp (consumes_all_singleton.mp hw)
  obtain ⟨⟨b, hb, rfl⟩, -⟩ := consumes_set.mp hset
  exact ⟨b, hb, by rw [Match.group, hcaps]; rfl⟩

theorem marksUp_codeBlock {ls buf : List GoString} (info : GoString) (hbuf : buf ⊆ ls) :
    MarksUp ls (codeBlock info (join (buf.map escapeString) (utf8 "\n"))) := by
  intro P hP h
  have hcode : P <:+: join (buf.map escapeString) (utf8 "\n") := by
    rw [codeBlock] at h
    split at h
    · rename_i m hm
      obtain ⟨b, hb, hgroup⟩ := group_termInfoRe hm
      have hg : isMarkup tagStarts (m.group 1) = true := by
        rw [hgroup]
        refine isMarkup_of_not_mem (fun hmem => ?_) fun hmem => ?_
        · rw [← List.mem_singleton.mp hmem] at hb
          exact absurd hb (by decide)
        · rw [← List.mem_singleton.mp hmem] at hb
          exact absurd hb (by decide)
      rw [List.append_assoc] at h
      refine hP.of_element ⟨?_, by rw [List.getLast?_append]; rfl⟩ (by decide) h
      exact isMarkup_append (isMarkup_append (isMarkup_append (isMarkup_append (by decide) hg)
        (by decide)) hg) (by decide)
    · rw [List.append_assoc] at h
      exact hP.of_element (by decide) (by decide) h
  have hnl : utf8 "\n" = [0x0A] := by decide
  rw [hnl] at hcode
  obtain ⟨_, hmem, hPl⟩ := infix_of_infix_join hP.ne_nil (hP.plain 0x0A (by decide)) hcode
  obtain ⟨l, hl, rfl⟩ := List.mem_map.mp hmem
  exact ⟨l, hbuf hl, hPl⟩

/-- The lines `renderLines` passes through as they are. -/
def rawLines : Nat → List GoString → List GoString
  | 0, _ => []
  | _, [] => []
  | n + 1, l :: ls =>
    if hasPrefix l fence then
      rawLines n (ls.drop ((ls.takeWhile fun l => !hasPrefix l fence).length + 1))
    else if (find headingRe l).isSome then rawLines n ls
    else if isMatch listRe l then
      rawLines n ((l :: ls).drop ((l :: ls).takeWhile (isMatch listRe)).length)
    else if trimSpace l = [] then rawLines n ls
    else if hasPrefix (trimSpace l) (utf8 "<") then l :: rawLines n ls
    else rawLines n ls

/-- How the pieces of a page come from lines: some lines are marked up, a line is passed
through or left out.  The lines passed through are kept apart. -/
inductive Renders : List GoString → List GoString → List GoString → Prop
  | nil : Renders [] [] []
  | raw {l : GoString} {ks os rs : List GoString} (h : Renders ks os rs) :
      Renders (l :: ks) (l :: os) (l :: rs)
  | markup (ls : List GoString) {ks os rs : List GoString} {o : GoString} (ho : MarksUp ls o)
      (h : Renders ks os rs) : Renders (ls ++ ks) (o :: os) rs
  | skip (ls : List GoString) {ks os rs : List GoString} (h : Renders ks os rs) :
      Renders (ls ++ ks) os rs

theorem takeWhile_append_drop (p : GoString → Bool) (ls : List GoString) :
    ls.takeWhile p ++ ls.drop (ls.takeWhile p).length = ls :=
  List.prefix_iff_eq_append.mp (List.takeWhile_prefix p)

theorem renders_renderLines (n : Nat) (ks : List GoString) (hn : ks.length ≤ n) :
    Renders ks (renderLines n ks) (rawLines n ks) := by
  induction n generalizing ks with
  | zero =>
    have hks : ks = [] := List.length_eq_zero_iff.mp (by omega)
    subst hks
    exact .nil
  | succ n ih =>
    cases ks with
    | nil => exact .nil
    | cons l ks =>
      rw [List.length_cons] at hn
      have hrest := ih ks (by omega)
      rw [renderLines, rawLines]
      by_cases hfence : hasPrefix l fence = true
      · rw [if_pos hfence, if_pos hfence]
        dsimp only
        have hsplit := takeWhile_append_drop (fun l => !hasPrefix l fence) ks
        generalize ks.takeWhile (fun l => !hasPrefix l fence) = buf at hsplit ⊢
        have hclose : (ks.drop buf.length).take 1 ++ ks.drop (buf.length + 1) =
            ks.drop buf.length := by
          rw [← List.drop_drop, List.take_append_drop]
        have hbehind := ih (ks.drop (buf.length + 1)) (by rw [List.length_drop]; omega)
        have hblock := Renders.skip [l] (.markup buf
          (marksUp_codeBlock (trimSpace (trimPrefix l fence)) (List.Subset.refl buf))
          (.skip ((ks.drop buf.length).take 1) hbehind))
        rwa [hclose, hsplit] at hblock
      rw [if_neg hfence, if_neg hfence]
      cases hheading : find headingRe l with
      | some m =>
        exact .markup [l] (marksUp_heading List.mem_cons_self hheading) hrest
      | none =>
        simp only [Option.isSome_none, Bool.false_eq_true, if_false]
        by_cases hlist : isMatch listRe l = true
        · rw [if_pos hlist, if_pos hlist]
          have hsplit := takeWhile_append_drop (isMatch listRe) (l :: ks)
          have hlen : ((l :: ks).takeWhile (isMatch listRe)).length ≠ 0 := by
            rw [List.takeWhile_cons_of_pos hlist]
            exact Nat.succ_ne_zero _
          generalize (l :: ks).takeWhile (isMatch listRe) = items at hsplit hlen ⊢
          have hbehind := ih ((l :: ks).drop items.length) (by
            rw [List.length_drop, List.length_cons]
            omega)
          have hitems := Renders.markup items (marksUp_list (List.Subset.refl items)) hbehind
          rwa [hsplit] at hitems
        rw [if_neg hlist, if_neg hlist]
        split_ifs with hblank hraw
        · exact .skip [l] hrest
        · exact .raw hrest
        · exact .markup [l] (marksUp_paragraph List.mem_cons_self) hrest

theorem Renders.sublist {ks os rs : List GoString} (h : Renders ks os rs) : rs.Sublist ks := by
  induction h with
  | nil => exact .slnil
  | raw _ ih => exact ih.cons_cons _
  | markup _ _ _ ih => exact ih.trans (List.sublist_append_right _ _)
  | skip _ _ ih => exact ih.trans (List.sublist_append_right _ _)

theorem rawLines_sublist (ks : List GoString) : (rawLines ks.length ks).Sublist ks :=
  (renders_renderLines ks.length ks (Nat.le_refl _)).sublist

theorem Foreign.of_renders {P : GoString} (hP : Foreign tagStarts P) {ks os rs : List GoString}
    (h : Renders ks os rs) {o : GoString} (ho : o ∈ os) (hPo : P <:+: o) :
    (∃ l ∈ rs, P <:+: l) ∨ ∃ l, (l :: rs).Subperm ks ∧ P <:+: escapeString l := by
  induction h with
  | nil => cases ho
  | @raw l ks os rs _ ih =>
    rcases List.mem_cons.mp ho with rfl | ho
    · exact .inl ⟨o, List.mem_cons_self, hPo⟩
    rcases ih ho with ⟨k, hk, hPk⟩ | ⟨k, hk, hPk⟩
    · exact .inl ⟨k, List.mem_cons_of_mem l hk, hPk⟩
    · exact .inr ⟨k, (List.Perm.swap l k rs).subperm.trans ((List.subperm_cons l).mpr hk), hPk⟩
  | @markup ls ks os rs o' hm hrest ih =>
    rcases List.mem_cons.mp ho with rfl | ho
    · obtain ⟨k, hk, hPk⟩ := hm P hP hPo
      have hsub : (k :: rs).Sublist (ls ++ ks) :=
        (List.singleton_sublist.mpr hk).append hrest.sublist
      exact .inr ⟨k, hsub.subperm, hPk⟩
    · exact (ih ho).imp_right fun ⟨k, hk, hPk⟩ =>
        ⟨k, hk.trans (List.sublist_append_right ls ks).subperm, hPk⟩
  | @skip ls ks os rs _ ih =>
    exact (ih ho).imp_right fun ⟨k, hk, hPk⟩ =>
      ⟨k, hk.trans (List.sublist_append_right ls ks).subperm, hPk⟩

/-- A foreign pattern of a rendered text is in a line passed through, or escaped in
another line. -/
theorem Foreign.of_renderMarkdown {P : GoString} (hP : Foreign tagStarts P) {s : GoString}
    (h : P <:+: renderMarkdown s) :
    (∃ l ∈ rawLines (segments s).length (segments s), P <:+: l) ∨
      ∃ l, (l :: rawLines (segments s).length (segments s)).Subperm (segments s) ∧
        P <:+: escapeString l := by
  rw [renderMarkdown, show utf8 "\n" = [0x0A] by decide] at h
  obtain ⟨o, ho, hPo⟩ := infix_of_infix_join hP.ne_nil (hP.plain 0x0A (by decide)) h
  exact hP.of_renders (renders_renderLines _ _ (Nat.le_refl _)) ho hPo

/-! ## Marks -/

theorem foreign_pair {c : UInt8} (hstart : starts.contains c = false)
    (hplain : c ∉ utf8 "<> =\"\n") : Foreign starts [0x3C, c] := by
  have hne : ∀ b ∈ utf8 "<> =\"\n", b ≠ c := fun b hb h => hplain (h ▸ hb)
  refine ⟨.inr ⟨c, [], rfl, hstart⟩, fun b hb hmem => ?_, ?_, ?_⟩
  · rcases List.mem_cons.mp hmem with rfl | hmem
    · exact absurd hb (by decide)
    · exact hne b (List.mem_cons_of_mem _ (List.mem_cons_of_mem _ hb))
        (List.mem_singleton.mp hmem)
  · exact fun h => hne 0x3C (by decide) (List.mem_singleton.mp h)
  · exact fun h => absurd (List.mem_singleton.mp h) (by decide)

theorem lt_not_mem_escapeString (s : GoString) : 0x3C ∉ escapeString s := by
  rw [escapeString, List.mem_flatMap]
  rintro ⟨b, -, hb⟩
  split_ifs at hb with h₁ h₂ h₃ h₄ h₅ <;> try exact absurd hb (by decide)
  exact h₃ (List.mem_singleton.mp hb).symm

/-- Marks that the renderer's own markup cannot start stand in a rendered text where the
lines that are passed through have them. -/
theorem scan_renderMarkdown {α : Type*} {read : GoString → Option α} {mark : GoString → α → Prop}
    (hread : Reads read mark)
    (hstart : ∀ t a, mark t a → ∃ c Q, t = 0x3C :: c :: Q ∧ Foreign tagStarts [0x3C, c])
    (hnl : ∀ t a, mark t a → newline ∉ t) (s : GoString) :
    scan read (renderMarkdown s) =
      (rawLines (segments s).length (segments s)).flatMap (scan read) := by
  rw [renderMarkdown, show utf8 "\n" = [newline] by decide, scan_join hread hnl]
  have hrenders := renders_renderLines (segments s).length (segments s) (Nat.le_refl _)
  generalize renderLines (segments s).length (segments s) = os at hrenders ⊢
  generalize rawLines (segments s).length (segments s) = rs at hrenders ⊢
  generalize segments s = ks at hrenders
  induction hrenders with
  | nil => rfl
  | raw _ ih => rw [List.flatMap_cons, List.flatMap_cons, ih]
  | markup _ hm _ ih =>
    have hnone := scan_eq_nil hread fun t a ht hin => by
      obtain ⟨c, Q, rfl, hforeign⟩ := hstart t a ht
      have hpair : [0x3C, c] <:+: 0x3C :: c :: Q := ⟨[], Q, rfl⟩
      obtain ⟨l, -, hl⟩ := hm _ hforeign (hpair.trans hin)
      exact lt_not_mem_escapeString l (hl.subset List.mem_cons_self)
    rw [List.flatMap_cons, hnone, List.nil_append, ih]
  | skip _ _ ih => exact ih

end TrainingPlatform.Content
