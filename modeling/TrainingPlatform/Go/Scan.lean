import TrainingPlatform.Go.Text

/-!
# Patterns and marks in a text

Where a pattern can stand in a text put together from parts, and the marks a reader
finds at the places of a text.  A pattern straddles the border of two parts unless a
byte at the border may not stand at that place of the pattern.
-/

namespace Go

variable {α : Type*}

/-! ## Patterns -/

/-- A pattern starts in one text and ends in the text behind it. -/
def Splits (P u v : List α) : Prop :=
  ∃ p q, p ≠ [] ∧ q ≠ [] ∧ P = p ++ q ∧ p <:+ u ∧ q <+: v

theorem not_splits_of_head {P : List α} {b : α} (hb : b ∉ P.tail) (u v : List α) :
    ¬ Splits P u (b :: v) := by
  rintro ⟨p, q, hp, hq, rfl, -, hv⟩
  obtain ⟨c, q, rfl⟩ := List.exists_cons_of_ne_nil hq
  have hcb := (List.cons_prefix_cons.mp hv).1
  subst hcb
  rw [List.tail_append_of_ne_nil hp] at hb
  exact hb (List.mem_append_right _ List.mem_cons_self)

theorem not_splits_of_last {P : List α} {b : α} (hb : b ∉ P.dropLast) (u v : List α) :
    ¬ Splits P (u ++ [b]) v := by
  rintro ⟨p, q, hp, hq, rfl, hu, -⟩
  rw [List.dropLast_append_of_ne_nil hq] at hb
  have hlast : b ∈ p := by
    obtain ⟨w, hw⟩ := hu
    have hget := congrArg List.getLast? hw
    rw [List.getLast?_append_of_ne_nil _ hp, List.getLast?_concat] at hget
    exact List.mem_of_getLast? hget
  exact hb (List.mem_append_left _ hlast)

theorem infix_append_iff_of_not_splits {P u v : List α} (h : ¬ Splits P u v) :
    P <:+: u ++ v ↔ P <:+: u ∨ P <:+: v := by
  rw [List.infix_append_iff_ne_nil]
  constructor
  · rintro (hu | hv | hs)
    · exact .inl hu
    · exact .inr hv
    · exact absurd hs h
  · exact Or.imp_right Or.inl

theorem infix_append_cons_iff {P u v : List α} {b : α} (hb : b ∉ P.tail) :
    P <:+: u ++ b :: v ↔ P <:+: u ∨ P <:+: b :: v :=
  infix_append_iff_of_not_splits (not_splits_of_head hb u v)

theorem infix_concat_append_iff {P u v : List α} {b : α} (hb : b ∉ P.dropLast) :
    P <:+: u ++ b :: v ↔ P <:+: u ++ [b] ∨ P <:+: v := by
  rw [List.append_cons]
  exact infix_append_iff_of_not_splits (not_splits_of_last hb u v)

theorem not_mem_dropLast {P : List α} {b : α} (hb : b ∉ P) : b ∉ P.dropLast :=
  fun h => hb (List.mem_of_mem_dropLast h)

theorem not_mem_tail {P : List α} {b : α} (hb : b ∉ P) : b ∉ P.tail :=
  fun h => hb (List.mem_of_mem_tail h)

/-- A pattern lies on one side of a byte it does not hold. -/
theorem infix_sep_iff {P u v : List α} {b : α} (hP : P ≠ []) (hb : b ∉ P) :
    P <:+: u ++ b :: v ↔ P <:+: u ∨ P <:+: v := by
  rw [infix_append_cons_iff (not_mem_tail hb), ← List.nil_append (b :: v),
    infix_concat_append_iff (not_mem_dropLast hb)]
  refine or_congr_right (or_iff_right fun h => ?_)
  have hsub := h.subset
  obtain ⟨c, P, rfl⟩ := List.exists_cons_of_ne_nil hP
  have hc := List.mem_singleton.mp (hsub List.mem_cons_self)
  exact hb (hc ▸ List.mem_cons_self)

theorem infix_append_of_head_not_mem {P u v : List α} {a : α} (ha : a ∉ u)
    (h : a :: P <:+: u ++ v) : a :: P <:+: v := by
  induction u with
  | nil => exact h
  | cons b u ih =>
    rw [List.mem_cons, not_or] at ha
    rcases List.infix_cons_iff.mp h with h | h
    · exact absurd (List.cons_prefix_cons.mp h).1 ha.1
    · exact ih ha.2 h

/-- Texts are cut alike at the first place of a byte. -/
theorem eq_of_append_cons_eq {u p v w : List α} {b : α} (hu : b ∉ u) (hp : b ∉ p)
    (h : u ++ b :: v = p ++ b :: w) : u = p ∧ v = w := by
  induction u generalizing p with
  | nil =>
    cases p with
    | nil => exact ⟨rfl, (List.cons.inj h).2⟩
    | cons y p => exact absurd (List.mem_cons.mpr (.inl (List.cons.inj h).1)) hp
  | cons x u ih =>
    cases p with
    | nil => exact absurd (List.mem_cons.mpr (.inl (List.cons.inj h).1.symm)) hu
    | cons y p =>
      rw [List.mem_cons, not_or] at hu hp
      obtain ⟨hxy, hrest⟩ := List.cons.inj h
      obtain ⟨hup, hvw⟩ := ih hu.2 hp.2 hrest
      exact ⟨by rw [hxy, hup], hvw⟩

/-- A pattern holds a byte behind `p` that the text has first behind `u`.  Unless `p` ends `u`
and both go on alike, the pattern lies behind that byte. -/
theorem infix_of_not_aligned {p r u v : List α} {b : α} (hp : b ∉ p) (hu : b ∉ u)
    (hne : ¬ (p <:+ u ∧ r <+: v)) (h : p ++ b :: r <:+: u ++ b :: v) : p ++ b :: r <:+: v := by
  obtain ⟨s, t, hst⟩ := h
  have heq : u ++ b :: v = s ++ (p ++ b :: (r ++ t)) := by
    rw [← hst]
    simp only [List.append_assoc, List.cons_append]
  rcases List.append_eq_append_iff.mp heq with ⟨w, hs, hv⟩ | ⟨w, hus, hv⟩
  · cases w with
    | nil =>
      obtain ⟨rfl, hcut⟩ := eq_of_append_cons_eq List.not_mem_nil hp hv
      exact absurd ⟨List.nil_suffix, ⟨t, hcut.symm⟩⟩ hne
    | cons y w =>
      rw [List.cons_append, List.cons.injEq] at hv
      exact ⟨w, t, by rw [hv.2]; simp only [List.append_assoc, List.cons_append]⟩
  · have hw : b ∉ w := fun h => hu (hus ▸ List.mem_append_right s h)
    obtain ⟨rfl, hcut⟩ := eq_of_append_cons_eq hp hw hv
    exact absurd ⟨hus ▸ List.suffix_append s p, ⟨t, hcut⟩⟩ hne

/-- So it does when the text goes on with another byte, or `p` does not fit in. -/
theorem infix_of_infix_append_cons {p r u v : List α} {b c x : α} (hp : b ∉ p) (hu : b ∉ u)
    (hne : x ≠ c ∨ ¬ p <:+ u) (h : p ++ b :: c :: r <:+: u ++ b :: x :: v) :
    p ++ b :: c :: r <:+: x :: v := by
  refine infix_of_not_aligned hp hu (fun halign => ?_) h
  rcases hne with hne | hne
  · exact hne (List.cons_prefix_cons.mp halign.2).1.symm
  · exact hne halign.1

/-- A pattern in texts joined by a byte it does not hold lies in one of them. -/
theorem infix_of_infix_join {P : GoString} {b : UInt8} (hP : P ≠ []) (hb : b ∉ P)
    {ls : List GoString} (h : P <:+: join ls [b]) : ∃ l ∈ ls, P <:+: l := by
  induction ls with
  | nil => exact absurd (List.infix_nil.mp h) hP
  | cons l ls ih =>
    cases ls with
    | nil =>
      rw [join, List.intercalate_singleton] at h
      exact ⟨l, List.mem_cons_self, h⟩
    | cons l' ls =>
      rw [join, List.intercalate_cons_of_ne_nil (List.cons_ne_nil l' ls), List.append_assoc,
        List.singleton_append, infix_sep_iff hP hb] at h
      rcases h with h | h
      · exact ⟨l, List.mem_cons_self, h⟩
      · obtain ⟨m, hm, hPm⟩ := ih h
        exact ⟨m, List.mem_cons_of_mem l hm, hPm⟩

theorem infix_join_of_mem {l : GoString} {ls : List GoString} (sep : GoString) (h : l ∈ ls) :
    l <:+: join ls sep := by
  induction ls with
  | nil => cases h
  | cons k ls ih =>
    cases ls with
    | nil =>
      rw [List.mem_singleton.mp h, join, List.intercalate_singleton]
    | cons k' ls =>
      rw [join, List.intercalate_cons_of_ne_nil (List.cons_ne_nil k' ls), List.append_assoc]
      rcases List.mem_cons.mp h with rfl | h
      · exact List.infix_append_left
      · exact (ih h).trans (List.infix_append_right.trans List.infix_append_right)

theorem infix_of_mem_segments {l s : GoString} (h : l ∈ segments s) : l <:+: s := by
  have hin := infix_join_of_mem [newline] h
  rwa [join_segments] at hin

/-! ## Replacing the first occurrence -/

theorem replaceFirst_of_not_isInfix {old s : GoString} (new : GoString) (h : ¬ old <:+: s) :
    replaceFirst old new s = s := by
  have hne : old ≠ [] := by
    rintro rfl
    exact h List.nil_infix
  induction s with
  | nil => rw [replaceFirst, if_neg hne]
  | cons b s ih =>
    rw [List.infix_cons_iff, not_or, ← List.isPrefixOf_iff_prefix] at h
    rw [replaceFirst, if_neg h.1, ih h.2]

theorem replaceFirst_of_infix {old s : GoString} (new : GoString) (hne : old ≠ [])
    (h : old <:+: s) :
    ∃ u v, s = u ++ (old ++ v) ∧ replaceFirst old new s = u ++ (new ++ v) := by
  induction s with
  | nil => exact absurd (List.infix_nil.mp h) hne
  | cons b s ih =>
    rw [replaceFirst]
    split_ifs with hpre
    · obtain ⟨v, hv⟩ := List.isPrefixOf_iff_prefix.mp hpre
      refine ⟨[], v, hv.symm, ?_⟩
      rw [← hv, List.drop_left, List.nil_append]
    · rw [List.infix_cons_iff, ← List.isPrefixOf_iff_prefix] at h
      obtain ⟨u, v, rfl, hr⟩ := ih (h.resolve_left hpre)
      exact ⟨b :: u, v, rfl, by rw [hr, List.cons_append]⟩

/-! ## Patterns apart -/

/-- No place of a text can belong to both patterns. -/
structure Apart (P B : List α) : Prop where
  ends : ∀ w, w ≠ [] → w <:+ P → ¬ w <+: B
  starts : ∀ w, w ≠ [] → w <+: P → ¬ w <:+ B
  inside : ¬ P <:+: B
  around : ¬ B <:+: P

/-- One of them stands before or behind the other. -/
theorem Apart.infix_beside {P B u v : List α} (h : Apart P B) (hin : B <:+: u ++ (P ++ v)) :
    B <:+: u ∨ B <:+: v := by
  obtain ⟨x, y, hxy⟩ := hin
  rw [List.append_assoc] at hxy
  rcases List.append_eq_append_iff.mp hxy with ⟨w, rfl, hw⟩ | ⟨w, rfl, hw⟩
  · -- `B` starts before `P`.
    rcases List.append_eq_append_iff.mp hw with ⟨r, rfl, -⟩ | ⟨r, rfl, hr⟩
    · exact .inl (List.infix_append' _ _ _)
    · rcases List.append_eq_append_iff.mp hr.symm with ⟨q, rfl, -⟩ | ⟨q, rfl, -⟩
      · by_cases hr₀ : r = []
        · subst hr₀
          rw [List.append_nil]
          exact .inl List.infix_append_right
        · exact absurd (List.suffix_append w r) (h.starts r hr₀ (List.prefix_append r q))
      · exact absurd (List.infix_append' _ _ _) h.inside
  · rcases List.append_eq_append_iff.mp hw with ⟨r, rfl, hr⟩ | ⟨r, rfl, hr⟩
    · exact .inr ⟨r, y, by rw [hr, List.append_assoc]⟩
    · rcases List.append_eq_append_iff.mp hr with ⟨q, rfl, -⟩ | ⟨q, rfl, hq⟩
      · exact absurd (List.infix_append' _ _ _) h.around
      · by_cases hr₀ : r = []
        · subst hr₀
          exact .inr ⟨[], y, hq.symm⟩
        · exact absurd (List.prefix_append r q) (h.ends r hr₀ (List.suffix_append w r))

/-- A pattern outlives the replacement of the other. -/
theorem Apart.infix_replaceFirst {old B s : GoString} (h : Apart old B) (new : GoString)
    (hin : B <:+: s) : B <:+: replaceFirst old new s := by
  have hne : old ≠ [] := fun hnil => h.inside (hnil ▸ List.nil_infix)
  by_cases hold : old <:+: s
  · obtain ⟨u, v, rfl, hr⟩ := replaceFirst_of_infix new hne hold
    rw [hr]
    rcases h.infix_beside hin with hu | hv
    · exact hu.trans List.infix_append_left
    · exact hv.trans (List.infix_append_right.trans List.infix_append_right)
  · rwa [replaceFirst_of_not_isInfix new hold]

/-! ## Marks -/

/-- What a reader finds at the places of a text. -/
def scan (read : GoString → Option α) : GoString → List α
  | [] => []
  | b :: s => (read (b :: s)).toList ++ scan read s

/-- A reader finds the marks a text starts with. -/
structure Reads (read : GoString → Option α) (mark : GoString → α → Prop) : Prop where
  read_eq_some : ∀ {s a}, read s = some a ↔ ∃ t r, mark t a ∧ s = t ++ r
  ne_nil : ∀ {t a}, mark t a → t ≠ []

section Marks

variable {read : GoString → Option α} {mark : GoString → α → Prop} (hread : Reads read mark)
include hread

theorem mem_scan {s : GoString} {a : α} : a ∈ scan read s ↔ ∃ t, mark t a ∧ t <:+: s := by
  induction s with
  | nil =>
    rw [scan]
    constructor
    · exact nofun
    · rintro ⟨t, ht, hts⟩
      exact absurd (List.infix_nil.mp hts) (hread.ne_nil ht)
  | cons b s ih =>
    rw [scan, List.mem_append, ih, Option.mem_toList, hread.read_eq_some]
    constructor
    · rintro (⟨t, r, ht, heq⟩ | ⟨t, ht, hts⟩)
      · exact ⟨t, ht, heq ▸ (List.prefix_append t r).isInfix⟩
      · exact ⟨t, ht, hts.trans (List.suffix_cons b s).isInfix⟩
    · rintro ⟨t, ht, hts⟩
      rcases List.infix_cons_iff.mp hts with ⟨r, hr⟩ | hts
      · exact .inl ⟨t, r, ht, hr.symm⟩
      · exact .inr ⟨t, ht, hts⟩

theorem scan_subset {s t : GoString} (h : s <:+: t) : scan read s ⊆ scan read t := by
  intro a ha
  obtain ⟨m, hm, hms⟩ := (mem_scan hread).mp ha
  exact (mem_scan hread).mpr ⟨m, hm, hms.trans h⟩

theorem scan_eq_nil {s : GoString} (h : ∀ t a, mark t a → ¬ t <:+: s) : scan read s = [] := by
  rw [List.eq_nil_iff_forall_not_mem]
  intro a ha
  obtain ⟨t, ht, hts⟩ := (mem_scan hread).mp ha
  exact h t a ht hts

/-- The marks of two parts no mark straddles. -/
theorem scan_append {u v : GoString} (h : ∀ t a, mark t a → ¬ Splits t u v) :
    scan read (u ++ v) = scan read u ++ scan read v := by
  induction u with
  | nil => rfl
  | cons b u ih =>
    have hhead : read (b :: (u ++ v)) = read (b :: u) := by
      refine Option.ext fun a => ?_
      rw [hread.read_eq_some, hread.read_eq_some]
      constructor
      · rintro ⟨t, r, ht, heq⟩
        have heq' : (b :: u) ++ v = t ++ r := heq
        rcases List.append_eq_append_iff.mp heq' with ⟨w, hw, hv⟩ | ⟨w, hw, -⟩
        · cases w with
          | nil => exact ⟨t, [], ht, by rw [hw, List.append_nil, List.append_nil]⟩
          | cons c w =>
            -- The mark goes on into the second part.
            refine absurd ⟨b :: u, c :: w, List.cons_ne_nil b u, List.cons_ne_nil c w, hw,
              List.suffix_rfl, ?_⟩ (h t a ht)
            rw [hv]
            exact List.prefix_append _ _
        · exact ⟨t, w, ht, hw⟩
      · rintro ⟨t, r, ht, heq⟩
        exact ⟨t, r ++ v, ht, by rw [← List.append_assoc, ← heq, List.cons_append]⟩
    rw [List.cons_append, scan, hhead, scan, List.append_assoc, ih]
    rintro t a ht ⟨p, q, hp, hq, heq, hpu, hqv⟩
    exact h t a ht ⟨p, q, hp, hq, heq, hpu.trans (List.suffix_cons b u), hqv⟩

theorem scan_append_cons {b : UInt8} (hb : ∀ t a, mark t a → b ∉ t.tail) (u v : GoString) :
    scan read (u ++ b :: v) = scan read u ++ scan read (b :: v) :=
  scan_append hread fun t a ht => not_splits_of_head (hb t a ht) u v

theorem scan_concat_append {b : UInt8} (hb : ∀ t a, mark t a → b ∉ t.dropLast) (u v : GoString) :
    scan read (u ++ [b] ++ v) = scan read (u ++ [b]) ++ scan read v :=
  scan_append hread fun t a ht => not_splits_of_last (hb t a ht) u v

/-- A text without the byte every mark starts with. -/
theorem scan_append_of_not_mem {b : UInt8} (hb : ∀ t a, mark t a → t.head? = some b)
    {u : GoString} (hu : b ∉ u) (v : GoString) : scan read (u ++ v) = scan read v := by
  induction u with
  | nil => rfl
  | cons c u ih =>
    rw [List.mem_cons, not_or] at hu
    have hnone : read (c :: (u ++ v)) = none := by
      rw [Option.eq_none_iff_forall_ne_some]
      intro a ha
      obtain ⟨t, r, ht, heq⟩ := hread.read_eq_some.mp ha
      obtain ⟨d, t, rfl⟩ := List.exists_cons_of_ne_nil (hread.ne_nil ht)
      have hd : d = b := Option.some.inj (hb _ _ ht)
      exact hu.1 (hd.symm.trans (List.cons.inj heq).1.symm)
    rw [List.cons_append, scan, hnone, ih hu.2]
    rfl

theorem scan_eq_singleton {t : GoString} {a : α} (ht : mark t a)
    (htail : ∀ t' a', mark t' a' → ¬ t' <:+: t.tail) : scan read t = [a] := by
  obtain ⟨b, s, rfl⟩ := List.exists_cons_of_ne_nil (hread.ne_nil ht)
  have hhead : read (b :: s) = some a := hread.read_eq_some.mpr ⟨b :: s, [], ht, by simp⟩
  have hrest : scan read s = [] := scan_eq_nil hread htail
  rw [scan, hhead, hrest]
  rfl

/-- The marks of a text lie on the two sides of a byte no mark holds. -/
theorem scan_sep {b : UInt8} (hb : ∀ t a, mark t a → b ∉ t) (u v : GoString) :
    scan read (u ++ b :: v) = scan read u ++ scan read v := by
  have hone : scan read [b] = [] := by
    refine scan_eq_nil hread fun t a ht hin => ?_
    obtain ⟨c, t, rfl⟩ := List.exists_cons_of_ne_nil (hread.ne_nil ht)
    have hc := List.mem_singleton.mp (hin.subset List.mem_cons_self)
    exact hb _ _ ht (hc ▸ List.mem_cons_self)
  have hcons := scan_concat_append hread (fun t a ht => not_mem_dropLast (hb t a ht)) [] v
  rw [List.nil_append, List.singleton_append] at hcons
  rw [scan_append_cons hread fun t a ht => not_mem_tail (hb t a ht), hcons, hone, List.nil_append]

/-- The marks of texts joined by a byte no mark holds. -/
theorem scan_join {b : UInt8} (hb : ∀ t a, mark t a → b ∉ t) (ls : List GoString) :
    scan read (join ls [b]) = ls.flatMap (scan read) := by
  induction ls with
  | nil => rfl
  | cons l ls ih =>
    cases ls with
    | nil => simp [join]
    | cons l' ls =>
      rw [join, List.intercalate_cons_of_ne_nil (List.cons_ne_nil l' ls), List.append_assoc,
        List.singleton_append, scan_sep hread hb, List.flatMap_cons]
      exact congrArg (scan read l ++ ·) ih

end Marks

/-! ## Values between two texts -/

/-- The bytes of a kind between a text and another one, at the start of a text. -/
def readBetween (p : GoString) (f : UInt8 → Bool) (q : GoString) (s : GoString) :
    Option GoString :=
  (cutPrefix s p).bind fun r =>
    if hasPrefix (r.dropWhile f) q then some (r.takeWhile f) else none

def Between (p : GoString) (f : UInt8 → Bool) (q : GoString) (t a : GoString) : Prop :=
  t = p ++ (a ++ q) ∧ ∀ b ∈ a, f b = true

theorem reads_between {p q : GoString} {f : UInt8 → Bool} (hp : p ≠ [])
    (hq : q.head?.any (fun b => !f b) = true) : Reads (readBetween p f q) (Between p f q) where
  read_eq_some := by
    intro s a
    rw [readBetween, Option.bind_eq_some_iff]
    constructor
    · rintro ⟨r, hr, h⟩
      split_ifs at h with hpre
      rw [Option.some.injEq] at h
      subst h
      obtain ⟨w, hw⟩ := List.isPrefixOf_iff_prefix.mp hpre
      refine ⟨_, w, ⟨rfl, fun b hb => List.mem_takeWhile_imp hb⟩, ?_⟩
      rw [cutPrefix_eq_some.mp hr, List.append_assoc, List.append_assoc, hw,
        List.takeWhile_append_dropWhile]
    · rintro ⟨_, w, ⟨rfl, ha⟩, rfl⟩
      have hne : q ≠ [] := by
        rintro rfl
        cases hq
      obtain ⟨b, q, rfl⟩ := List.exists_cons_of_ne_nil hne
      rw [List.head?_cons, Option.any_some, Bool.not_eq_true'] at hq
      have hneg : ¬ f b = true := by simp [hq]
      refine ⟨a ++ (b :: q ++ w), ?_, ?_⟩
      · rw [List.append_assoc, List.append_assoc]
        exact cutPrefix_append _ _
      · rw [List.dropWhile_append_of_pos ha, List.takeWhile_append_of_pos ha, List.cons_append,
          List.dropWhile_cons_of_neg hneg, List.takeWhile_cons_of_neg hneg, List.append_nil]
        exact if_pos (List.isPrefixOf_iff_prefix.mpr ⟨w, rfl⟩)
  ne_nil := by
    rintro t a ⟨rfl, -⟩
    exact List.append_ne_nil_of_left_ne_nil hp _

theorem not_mem_between {p q : GoString} {f : UInt8 → Bool} {b : UInt8} (hp : b ∉ p)
    (hf : f b = false) (hq : b ∉ q) {t a : GoString} (h : Between p f q t a) : b ∉ t := by
  obtain ⟨rfl, ha⟩ := h
  rw [List.mem_append, List.mem_append]
  rintro (h | h | h)
  · exact hp h
  · rw [ha b h] at hf
    contradiction
  · exact hq h

end Go
