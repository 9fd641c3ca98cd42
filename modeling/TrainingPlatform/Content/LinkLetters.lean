import TrainingPlatform.Content.CodeSpans

/-!
# Links in letters

The third rewrite finds a link, its text, its target and its attribute lists in the same
letters, whether their marks are read as tags or as what the tags replaced.
-/

namespace TrainingPlatform.Content

open Go Go.Re Letter

/-- A reading none of whose marks has a byte at which a link is cut, or starts with one
of an attribute's name. -/
structure Clean (ρ : Mark → GoString) : Prop where
  head : ∀ a, ∃ b ∈ utf8 "`*<>\"", (ρ a).head? = some b
  free : ∀ a, ∀ b ∈ utf8 "[]()\x7b\x7d&", b ∉ ρ a

theorem clean_rendered : Clean Mark.rendered := by
  constructor <;> intro a <;> cases a <;> simp only [Mark.rendered] <;> decide +kernel

theorem clean_written : Clean Mark.written := by
  constructor <;> intro a <;> cases a <;> simp only [Mark.written, Mark.rendered] <;>
    decide +kernel

section Clean

variable {ρ : Mark → GoString} (hρ : Clean ρ)
include hρ

theorem Clean.ne_nil (a : Mark) : ρ a ≠ [] := by
  obtain ⟨b, -, hb⟩ := hρ.head a
  intro h
  rw [h] at hb
  cases hb

theorem Clean.head_ne {b : UInt8} (hb : b ∉ utf8 "`*<>\"") (a : Mark) : (ρ a).head? ≠ some b := by
  obtain ⟨c, hc, hac⟩ := hρ.head a
  intro h
  obtain rfl := Option.some.inj (hac.symm.trans h)
  exact hb hc

theorem Clean.eq_bytes_append {L : List (Letter Mark)} {u v : GoString}
    (hu : ∀ b ∈ u, b ∉ utf8 "`*<>\"") (h : text ρ L = u ++ v) :
    ∃ L', L = bytes u ++ L' ∧ text ρ L' = v :=
  Letter.eq_bytes_append hρ.ne_nil (fun b hb => hρ.head_ne (hu b hb)) h

theorem Clean.eq_append_byte_cons {L : List (Letter Mark)} {b : UInt8} {u v : GoString}
    (hb : b ∈ utf8 "[]()\x7b\x7d&") (h : text ρ L = u ++ b :: v) :
    ∃ U V, L = U ++ .byte b :: V ∧ text ρ U = u ∧ text ρ V = v :=
  Letter.eq_append_byte_cons (fun a => hρ.free a b hb) h

end Clean

/-! ## Attributes -/

theorem not_mem_of_isBlank {x : GoString} (hx : ∀ b ∈ x, isBlank b = true) {b : UInt8}
    (hb : isBlank b = false) : b ∉ x := by
  intro h
  rw [hx b h] at hb
  cases hb

theorem not_mem_of_isIalName {n : GoString} (hn : IsIalName n) {b : UInt8}
    (hb : isIalName b = false) : b ∉ n := by
  obtain ⟨c, v, rfl, hc, hv⟩ := hn
  intro h
  rcases List.mem_cons.mp h with rfl | h
  · rw [isIalName, hc] at hb
    cases hb
  · rw [hv b h] at hb
    cases hb

theorem takeWhile_isBlank {x n : GoString} (hx : ∀ b ∈ x, isBlank b = true) (hn : IsIalName n) :
    (x ++ n).takeWhile isBlank = x := by
  obtain ⟨c, v, rfl, hc, -⟩ := hn
  have hname : isIalName c = true := by
    rw [isIalName, hc]
    rfl
  have hblank : isBlank c = false :=
    (Html.isNameByte_iff.mp (isNameByte_of_isIalName hname)).1
  rw [List.takeWhile_append_of_pos hx, List.takeWhile_cons_of_neg (by rw [hblank]; decide),
    List.append_nil]

/-- No mark starts with a byte around the value. -/
theorem not_mem_attr {x n y : GoString} (h : AttrParts x n y) {b : UInt8}
    (hb : b ∈ utf8 "`*<>\"") : b ∉ attrOpening x n ∧ b ∉ attrClosing y := by
  have hword : ∀ b ∈ utf8 "`*<>\"", b ∉ utf8 "\x7b:" ∧ b ∉ utf8 "=&#34;" ∧ b ∉ utf8 "&#34;" ∧
      b ∉ [0x7D] ∧ isBlank b = false ∧ isIalName b = false := by decide +kernel
  obtain ⟨hstart, hequals, hquote, hend, hblank, hname⟩ := hword b hb
  rw [attrOpening, attrClosing]
  simp only [List.mem_append, not_or]
  exact ⟨⟨hstart, not_mem_of_isBlank h.before hblank, not_mem_of_isIalName h.name hname, hequals⟩,
    hquote, not_mem_of_isBlank h.behind hblank, hend⟩

theorem plain_ialAttrRe : Plain ialAttrRe := by
  simp [ialAttrRe, all, Plain, plain_lit, many, blankRe, noneOf]

/-- A text starts with an attribute in one way. -/
theorem attr_unique {x n y x' n' y' v v' r r' : GoString} (h : AttrParts x n y)
    (h' : AttrParts x' n' y') (hv : 0x26 ∉ v) (hv' : 0x26 ∉ v')
    (heq : attrOpening x n ++ (v ++ attrClosing y) ++ r =
      attrOpening x' n' ++ (v' ++ attrClosing y') ++ r') :
    x = x' ∧ n = n' ∧ v = v' ∧ y = y' ∧ r = r' := by
  have hcut : ∀ {x n y}, AttrParts x n y → 0x3D ∉ x ++ n ∧ 0x7D ∉ y := fun h =>
    ⟨fun hmem => (List.mem_append.mp hmem).elim (not_mem_of_isBlank h.before (by decide))
      (not_mem_of_isIalName h.name (by decide)), not_mem_of_isBlank h.behind (by decide)⟩
  have hlist : ∀ x n y v r : GoString, attrOpening x n ++ (v ++ attrClosing y) ++ r =
      utf8 "\x7b:" ++ ((x ++ n) ++ 0x3D :: (0x26 :: utf8 "#34;" ++ (v ++ 0x26 :: (utf8 "#34;" ++
        (y ++ 0x7D :: r))))) := by
    intro x n y v r
    rw [attrOpening, attrClosing, show utf8 "=&#34;" = 0x3D :: 0x26 :: utf8 "#34;" by decide,
      show utf8 "&#34;" = 0x26 :: utf8 "#34;" by decide]
    simp
  rw [hlist, hlist] at heq
  obtain ⟨hname, heq⟩ := eq_of_append_cons_eq (hcut h).1 (hcut h').1 (List.append_cancel_left heq)
  obtain ⟨rfl, hquote⟩ := eq_of_append_cons_eq hv hv' (List.append_cancel_left heq)
  obtain ⟨rfl, rfl⟩ := eq_of_append_cons_eq (hcut h).2 (hcut h').2 (List.append_cancel_left hquote)
  have hx : x = x' := by
    rw [← takeWhile_isBlank h.before h.name, hname, takeWhile_isBlank h'.before h'.name]
  subst hx
  exact ⟨rfl, List.append_cancel_left hname, rfl, rfl, rfl⟩

def foundAttr (x n : GoString) (v : List (Letter Mark)) (y : GoString) : Found Mark :=
  ⟨bytes (attrOpening x n) ++ (v ++ bytes (attrClosing y)), [(2, v), (1, bytes n)]⟩

/-- An attribute in letters: only its value can have marks. -/
def IsAttr (G : Found Mark) : Prop :=
  ∃ x n v y, G = foundAttr x n v y ∧ AttrParts x n y ∧ ∀ b ∈ utf8 "&\x7b\x7d", .byte b ∉ v

theorem text_foundAttr {ρ : Mark → GoString} {x n y : GoString} {v : List (Letter Mark)} :
    text ρ (foundAttr x n v y).text = attrOpening x n ++ (text ρ v ++ attrClosing y) := by
  rw [foundAttr, text_append, text_append, text_bytes, text_bytes]

theorem aligned_ialAttrRe (L : List (Letter Mark)) : Aligned ialAttrRe Clean IsAttr L := by
  have hsub : ∀ b ∈ utf8 "&\x7b\x7d", b ∈ utf8 "[]()\x7b\x7d&" := by decide +kernel
  refine aligned_of_shape (fun G _ => IsAttr G) (fun ρ hρ L b m hm => ?_)
    (fun ρ hρ G R hG b => ?_) (fun G R hG => ?_) L
  · obtain ⟨hm, hrest⟩ := matchAt_spec hm
    obtain ⟨x, n, v, y, htext, hparts, hv, -⟩ := consumes_ialAttrRe.mp hm
    rw [htext, List.append_assoc, List.append_assoc] at hrest
    obtain ⟨L, rfl, hL⟩ := hρ.eq_bytes_append
      (fun b hb hhead => (not_mem_attr hparts hhead).1 hb) hrest
    have hclose : attrClosing y ++ m.after.rest =
        0x26 :: (utf8 "#34;" ++ (y ++ [0x7D]) ++ m.after.rest) := rfl
    rw [hclose] at hL
    obtain ⟨V, W, rfl, rfl, hW⟩ := hρ.eq_append_byte_cons (by decide +kernel) hL
    obtain ⟨R, rfl, -⟩ := hρ.eq_bytes_append
      (fun b hb hhead => (not_mem_attr hparts hhead).2 (List.mem_cons_of_mem _ hb)) hW
    refine ⟨foundAttr x n V y, R, ?_, x, n, V, y, rfl, hparts, fun b hb => ?_⟩
    · rw [foundAttr, List.append_assoc, List.append_assoc]
      rfl
    · exact byte_not_mem (hv b hb)
  · obtain ⟨x, n, v, y, rfl, hparts, hv⟩ := hG
    have hvtext : ∀ b ∈ utf8 "&\x7b\x7d", b ∉ text ρ v := fun b hb =>
      not_mem_text (fun a => hρ.free a b (hsub b hb)) (hv b hb)
    have hconsumes : Consumes ialAttrRe (attrOpening x n ++ (text ρ v ++ attrClosing y))
        [(2, text ρ v), (1, n)] := consumes_ialAttrRe.mpr ⟨x, n, _, y, rfl, hparts, hvtext, rfl⟩
    obtain ⟨m, hm⟩ := Option.isSome_iff_exists.mp
      (isSome_matchAt plain_ialAttrRe hconsumes (r := text ρ R) b)
    rw [text_append, text_foundAttr]
    obtain ⟨hmatch, hrest⟩ := matchAt_spec hm
    obtain ⟨x', n', v', y', hm', hparts', hv', hcaps⟩ := consumes_ialAttrRe.mp hmatch
    rw [hm'] at hrest
    obtain ⟨rfl, rfl, rfl, rfl, hr⟩ := attr_unique hparts hparts'
      (hvtext 0x26 (by decide)) (hv' 0x26 (by decide)) hrest
    refine ⟨m, hm, ⟨?_, ?_⟩, hr.symm⟩
    · rw [hm', text_foundAttr]
    · rw [hcaps]
      simp [foundAttr]
  · refine ⟨?_, hG⟩
    obtain ⟨x, n, v, y, rfl, -⟩ := hG
    exact List.cons_ne_nil _ _

/-! ## Attribute lists -/

/-- The attribute lists behind a link, in letters. -/
inductive Ials : List (Letter Mark) → Prop
  | nil : Ials []
  | cons {x I : List (Letter Mark)} (hx : ∀ b ∈ utf8 "\x7b\x7d", .byte b ∉ x) (h : Ials I) :
      Ials (bytes (utf8 "\x7b:") ++ (x ++ .byte 0x7D :: I))

/-- No attribute list stands in front. -/
def NoIal (R : List (Letter Mark)) : Prop :=
  ∀ x I, (∀ b ∈ utf8 "\x7b\x7d", .byte b ∉ x) → R ≠ bytes (utf8 "\x7b:") ++ (x ++ .byte 0x7D :: I)

theorem ials_unique {u u' v v' : GoString} {d d' : Caps} (hu : Consumes (many ialRe) u d)
    (hu' : Consumes (many ialRe) u' d') (hv : ∀ w e, Consumes ialRe w e → ¬ w <+: v)
    (hv' : ∀ w e, Consumes ialRe w e → ¬ w <+: v') (h : u ++ v = u' ++ v') : u = u' ∧ v = v' := by
  generalize hs : many ialRe = s at hu
  induction hu generalizing u' d' with
  | starNil =>
    cases hu' with
    | starNil => exact ⟨rfl, h⟩
    | starCons hr =>
      rw [List.nil_append, List.append_assoc] at h
      exact absurd (h ▸ List.prefix_append _ _) (hv _ _ hr)
  | @starCons _ _ w z _ _ hr _ _ _ ih =>
    cases hs
    rw [List.append_assoc] at h
    cases hu' with
    | starNil => exact absurd ⟨_, h⟩ (hv' _ _ hr)
    | @starCons _ _ w' z' _ _ hr' _ hs' =>
      obtain ⟨x, rfl, hx, -⟩ := consumes_ialRe.mp hr
      obtain ⟨x', rfl, hx', -⟩ := consumes_ialRe.mp hr'
      simp only [List.append_assoc, List.append_cancel_left_eq, List.singleton_append] at h
      obtain ⟨rfl, hrest⟩ := eq_of_append_cons_eq (hx 0x7D (by decide)) (hx' 0x7D (by decide)) h
      obtain ⟨rfl, rfl⟩ := ih hs' hrest rfl
      exact ⟨rfl, rfl⟩
  | _ => cases hs

section Ials

variable {ρ : Mark → GoString} (hρ : Clean ρ)
include hρ

theorem Clean.eq_ial_append {L : List (Letter Mark)} {x v : GoString}
    (hx : ∀ b ∈ utf8 "\x7b\x7d", b ∉ x) (h : text ρ L = utf8 "\x7b:" ++ (x ++ 0x7D :: v)) :
    ∃ X I, L = bytes (utf8 "\x7b:") ++ (X ++ .byte 0x7D :: I) ∧
      (∀ b ∈ utf8 "\x7b\x7d", .byte b ∉ X) ∧ text ρ X = x ∧ text ρ I = v := by
  obtain ⟨L', rfl, hL'⟩ := hρ.eq_bytes_append (by decide +kernel) h
  obtain ⟨X, I, rfl, rfl, hI⟩ := hρ.eq_append_byte_cons (by decide +kernel) hL'
  exact ⟨X, I, rfl, fun b hb => byte_not_mem (hx b hb), rfl, hI⟩

theorem Clean.ials_of_consumes {u : GoString} {d : Caps} (hu : Consumes (many ialRe) u d)
    {L : List (Letter Mark)} {v : GoString} (h : text ρ L = u ++ v) :
    ∃ I R, L = I ++ R ∧ Ials I ∧ text ρ I = u ∧ text ρ R = v := by
  generalize hs : many ialRe = s at hu
  induction hu generalizing L with
  | starNil => exact ⟨[], L, rfl, .nil, rfl, h⟩
  | starCons hr _ _ _ ih =>
    cases hs
    obtain ⟨x, rfl, hx, -⟩ := consumes_ialRe.mp hr
    simp only [List.append_assoc, List.singleton_append] at h
    obtain ⟨X, L, rfl, hX, rfl, hL⟩ := hρ.eq_ial_append hx h
    obtain ⟨I, R, rfl, hI, rfl, hR⟩ := ih hL rfl
    exact ⟨_, R, by simp, .cons hX hI, by simp, hR⟩
  | _ => cases hs

theorem Clean.consumes_ial {x : List (Letter Mark)}
    (hx : ∀ b ∈ utf8 "\x7b\x7d", .byte b ∉ x) :
    Consumes ialRe (utf8 "\x7b:" ++ (text ρ x ++ [0x7D])) [] := by
  have hsub : ∀ b ∈ utf8 "\x7b\x7d", b ∈ utf8 "[]()\x7b\x7d&" := by decide +kernel
  exact consumes_ialRe.mpr
    ⟨text ρ x, rfl, fun b hb => not_mem_text (fun a => hρ.free a b (hsub b hb)) (hx b hb), rfl⟩

theorem Clean.consumes_ials {I : List (Letter Mark)} (h : Ials I) :
    Consumes (many ialRe) (text ρ I) [] := by
  induction h with
  | nil => exact .starNil
  | @cons x I hx _ ih =>
    have hall : Consumes (many ialRe) _ [] :=
      .starCons (hρ.consumes_ial hx) (List.cons_ne_nil _ _) ih
    simpa only [text_append, text_bytes, text_byte, List.append_assoc, List.singleton_append]
      using hall

theorem Clean.noIal_iff {R : List (Letter Mark)} :
    (∀ w e, Consumes ialRe w e → ¬ w <+: text ρ R) ↔ NoIal R := by
  constructor
  · intro h x I hx hR
    refine h _ _ (hρ.consumes_ial hx) ⟨text ρ I, ?_⟩
    rw [hR]
    simp
  · intro h w e hw hpre
    obtain ⟨x, rfl, hx, -⟩ := consumes_ialRe.mp hw
    obtain ⟨v, hv⟩ := hpre
    have hR : text ρ R = utf8 "\x7b:" ++ (x ++ 0x7D :: v) := by
      rw [← hv]
      simp
    obtain ⟨X, I, rfl, hX, -⟩ := hρ.eq_ial_append hx hR
    exact h X I hX rfl

end Ials

/-! ## Links -/

def foundLink (t q i : List (Letter Mark)) : Found Mark :=
  ⟨.byte 0x5B :: (t ++ .byte 0x5D :: .byte 0x28 :: (q ++ .byte 0x29 :: i)),
    [(3, i), (2, q), (1, t)]⟩

/-- A link in letters with what follows it. -/
def IsLink (G : Found Mark) (R : List (Letter Mark)) : Prop :=
  ∃ t q i, G = foundLink t q i ∧ (t ≠ [] ∧ .byte 0x5D ∉ t) ∧ (q ≠ [] ∧ .byte 0x29 ∉ q) ∧
    Ials i ∧ NoIal R

theorem text_foundLink {ρ : Mark → GoString} {t q i : List (Letter Mark)} :
    text ρ (foundLink t q i).text =
      0x5B :: (text ρ t ++ 0x5D :: 0x28 :: (text ρ q ++ 0x29 :: text ρ i)) := by
  simp [foundLink]

theorem plain_ialRe : Plain ialRe := ⟨plain_lit _, trivial, plain_lit _, trivial⟩

theorem plain_linkRe : Plain linkRe :=
  ⟨plain_lit _, ⟨trivial, trivial⟩, plain_lit _, ⟨trivial, trivial⟩, plain_lit _, plain_ialRe,
    trivial⟩

/-- Behind a link there is no attribute list more. -/
theorem not_prefix_after_link {p : Pos} {m : Match} (h : matchAt linkRe p = some m) {w : GoString}
    {e : Caps} (hw : Consumes ialRe w e) : ¬ w <+: m.after.rest := by
  refine not_prefix_after [lit (utf8 "["), group 1 (many1 (noneOf (utf8 "]"))),
    lit (utf8 "]("), group 2 (many1 (noneOf (utf8 ")"))), lit (utf8 ")")] plain_ialRe h hw ?_
  obtain ⟨x, rfl, -⟩ := consumes_ialRe.mp hw
  exact List.cons_ne_nil _ _

theorem aligned_linkRe (L : List (Letter Mark)) :
    Aligned linkRe Clean (fun G => ∃ t q i, G = foundLink t q i) L := by
  refine aligned_of_shape IsLink (fun ρ hρ L b m hm => ?_) (fun ρ hρ G R hG b => ?_)
    (fun G R hG => ?_) L
  · have hlast := fun w e hw => not_prefix_after_link hm (w := w) (e := e) hw
    obtain ⟨hm, hrest⟩ := matchAt_spec hm
    obtain ⟨t, q, i, htext, ⟨ht, htb⟩, ⟨hq, hqb⟩, hi, -⟩ := consumes_linkRe.mp hm
    rw [htext] at hrest
    simp only [List.cons_append, List.append_assoc] at hrest
    obtain ⟨L, rfl, hopen⟩ := eq_byte_cons (b := 0x5B) hρ.ne_nil (hρ.head_ne (by decide)) hrest
    obtain ⟨T, L, rfl, rfl, hmid⟩ := hρ.eq_append_byte_cons (by decide +kernel) hopen
    obtain ⟨L, rfl, htarget⟩ := eq_byte_cons (b := 0x28) hρ.ne_nil (hρ.head_ne (by decide)) hmid
    obtain ⟨Q, L, rfl, rfl, hclose⟩ := hρ.eq_append_byte_cons (by decide +kernel) htarget
    obtain ⟨I, R, rfl, hI, rfl, hR⟩ := hρ.ials_of_consumes hi hclose
    rw [← hR] at hlast
    refine ⟨foundLink T Q I, R, ?_, T, Q, I, rfl, ⟨?_, byte_not_mem htb⟩,
      ⟨?_, byte_not_mem hqb⟩, hI, hρ.noIal_iff.mp hlast⟩
    · simp [foundLink]
    · rintro rfl
      exact ht rfl
    · rintro rfl
      exact hq rfl
  · obtain ⟨t, q, i, rfl, ⟨ht, htb⟩, ⟨hq, hqb⟩, hi, hR⟩ := hG
    have htext : 0x5D ∉ text ρ t := not_mem_text (fun a => hρ.free a _ (by decide +kernel)) htb
    have hqtext : 0x29 ∉ text ρ q := not_mem_text (fun a => hρ.free a _ (by decide +kernel)) hqb
    have hconsumes : Consumes linkRe (text ρ (foundLink t q i).text)
        [(3, text ρ i), (2, text ρ q), (1, text ρ t)] := consumes_linkRe.mpr
      ⟨_, _, _, text_foundLink, ⟨text_ne_nil hρ.ne_nil ht, htext⟩,
        ⟨text_ne_nil hρ.ne_nil hq, hqtext⟩, hρ.consumes_ials hi, rfl⟩
    obtain ⟨m, hm⟩ := Option.isSome_iff_exists.mp
      (isSome_matchAt plain_linkRe hconsumes (r := text ρ R) b)
    have hlast := fun w e hw => not_prefix_after_link hm (w := w) (e := e) hw
    rw [text_append]
    obtain ⟨hmatch, hrest⟩ := matchAt_spec hm
    obtain ⟨t', q', i', hm', ⟨-, htb'⟩, ⟨-, hqb'⟩, hi', hcaps⟩ := consumes_linkRe.mp hmatch
    rw [hm', text_foundLink] at hrest
    simp only [List.cons_append, List.append_assoc] at hrest
    obtain ⟨rfl, hmid⟩ := eq_of_append_cons_eq htext htb' (List.cons.inj hrest).2
    obtain ⟨rfl, hclose⟩ := eq_of_append_cons_eq hqtext hqb' (List.cons.inj hmid).2
    obtain ⟨rfl, hafter⟩ := ials_unique (hρ.consumes_ials hi) hi' (hρ.noIal_iff.mpr hR) hlast hclose
    refine ⟨m, hm, ⟨?_, ?_⟩, hafter.symm⟩
    · rw [hm', text_foundLink]
    · rw [hcaps]
      simp [foundLink]
  · obtain ⟨t, q, i, rfl, -⟩ := hG
    exact ⟨List.cons_ne_nil _ _, t, q, i, rfl⟩

/-! ## What the third rewrite makes of the letters -/

/-- An attribute of a match and its letters. -/
def attributeLetters (m : Match) (G : List (Letter Mark)) : List (Letter Mark) :=
  if isSkipped (m.group 1) then []
  else bytes (utf8 " " ++ m.group 1 ++ utf8 "=") ++ .mark .quote ::
    (slice Mark.rendered (attrStart m).length (m.group 2).length G ++ [.mark .quote])

def attrLetters (I : List (Letter Mark)) : List (Letter Mark) :=
  (findLetters Mark.rendered ialAttrRe I).1.flatMap fun p => attributeLetters p.found p.text

/-- A link of a match and its letters. -/
def anchorLetters (m : Match) (G : List (Letter Mark)) : List (Letter Mark) :=
  let t := (m.group 1).length
  let q := (m.group 2).length
  .mark .linkOpen :: (slice Mark.rendered (t + 3) q G ++ .mark .quote ::
    (attrLetters (slice Mark.rendered (t + q + 4) (m.group 3).length G) ++ .mark .tagEnd ::
      (slice Mark.rendered 1 t G ++ [.mark .linkClose])))

/-- The third rewrite. -/
def linkLetters (L : List (Letter Mark)) : List (Letter Mark) :=
  let r := findLetters Mark.rendered linkRe L
  r.1.flatMap (fun p => p.before ++ anchorLetters p.found p.text) ++ r.2

/-- A match with the text before it becomes the letters `O`, and its text is the parts `K`:
a code span in what is written comes from a part that is kept. -/
structure Rewrites (f : GoString × Match → GoString) (cut : GoString × Match → Parts UInt8)
    (F : Place Mark → List (Letter Mark)) (r : List (Letter Mark) × Found Mark)
    (O : List (Letter Mark)) (K : Parts (Letter Mark)) : Prop where
  flat : K.flatMap (fun p => p.1 ++ p.2) = r.1 ++ r.2.text
  parts : ∀ ρ, Clean ρ → ∀ m, m.1 = text ρ r.1 → r.2.Read ρ m.2 → cut m = textParts ρ K
  html : ∀ m, m.1 = text Mark.rendered r.1 → r.2.Read Mark.rendered m.2 →
    f m = text Mark.rendered O
  letters : ∀ m, r.2.Read Mark.rendered m → F ⟨r.1, m, r.2.text⟩ = O
  code : ∀ n c Z, code n c <:+: O ++ Z ↔ (∃ p ∈ K, code n c <:+: p.1) ∨ code n c <:+: Z

theorem exists_rewrites {re : Re} {Q : Found Mark → Prop} {f : GoString × Match → GoString}
    {cut : GoString × Match → Parts UInt8} {F : Place Mark → List (Letter Mark)}
    {L R : List (Letter Mark)} {M : List (List (Letter Mark) × Found Mark)}
    (h : Divides re Clean Q L M R)
    (hone : ∀ r : List (Letter Mark) × Found Mark, Q r.2 → ∃ O K, Rewrites f cut F r O K) :
    ∃ K : Parts (Letter Mark), L = whole K R ∧
      (∀ ρ, Clean ρ → Go.parts re cut (text ρ L) = textParts ρ K) ∧
      (findAllN re (text Mark.rendered L).length ⟨none, text Mark.rendered L⟩).1.flatMap f =
        text Mark.rendered ((findLetters Mark.rendered re L).1.flatMap F) ∧
      ∀ n c Z, code n c <:+: (findLetters Mark.rendered re L).1.flatMap F ++ Z ↔
        (∃ p ∈ K, code n c <:+: p.1) ∨ code n c <:+: Z := by
  choose! O K hOK using hone
  have hletters := (h.findLetters_eq clean_rendered.ne_nil clean_rendered
    fun r m hQ hm => (hOK r hQ).letters m hm).1
  rw [hletters]
  refine ⟨M.flatMap K, ?_, fun ρ hρ => ?_, ?_, fun n c Z => ?_⟩
  · rw [whole, List.flatMap_assoc, h.flat]
    refine congrArg (· ++ R) (List.flatMap_congr fun r hr => ?_)
    exact (hOK r (h.found r hr)).flat.symm
  · exact h.parts_eq hρ fun r m hQ hpre hread => (hOK r hQ).parts ρ hρ m hpre hread
  · have htext : text Mark.rendered (M.flatMap O) = M.flatMap fun r => text Mark.rendered (O r) :=
      List.flatMap_assoc
    rw [htext]
    exact h.flatMap_eq clean_rendered fun r m hQ hpre hread => (hOK r hQ).html m hpre hread
  · have hfound := h.found
    clear h hletters
    induction M with
    | nil => simp
    | cons r M ih =>
      obtain ⟨hr, hM⟩ := List.forall_mem_cons.mp hfound
      rw [List.flatMap_cons, List.append_assoc, (hOK r hr).code, List.flatMap_cons]
      simp only [List.mem_append, or_and_right, exists_or, or_assoc]
      exact or_congr_right (ih hM)

/-- A mark that is not of a code span parts the letters. -/
theorem infix_code_sep_iff {n : Nat} {c : GoString} {a : Mark} {U V : List (Letter Mark)}
    (ho : a ≠ .codeOpen n) (hc : a ≠ .codeClose n) :
    code n c <:+: U ++ .mark a :: V ↔ code n c <:+: U ∨ code n c <:+: V :=
  infix_sep_iff code_ne_nil (mark_not_mem_code ho hc)

theorem not_infix_bytes {n : Nat} {c s : GoString} : ¬ code n c <:+: bytes s := fun h =>
  mark_not_mem_bytes (h.subset List.mem_cons_self)

/-- What an attribute of a list becomes. -/
def attrHtml (m : Match) : GoString :=
  if isSkipped (m.group 1) then []
  else utf8 " " ++ m.group 1 ++ utf8 "=\"" ++ m.group 2 ++ utf8 "\""

theorem ialAttrs_eq (s : GoString) :
    ialAttrs s = (findAllN ialAttrRe s.length ⟨none, s⟩).1.flatMap fun r => attrHtml r.2 := by
  rw [ialAttrs, findAll, List.flatMap_map]
  rfl

theorem attrStart_eq {m : Match} {x n v y : GoString} (h : AttrParts x n y)
    (htext : m.text = attrOpening x n ++ (v ++ attrClosing y)) : attrStart m = attrOpening x n := by
  have hname : ∀ b ∈ utf8 "\x7b:" ++ (x ++ (n ++ [0x3D])), decide (b ≠ 0x26) = true := by
    intro b hb
    refine decide_eq_true fun hamp => ?_
    rw [hamp] at hb
    simp only [List.mem_append] at hb
    rcases hb with hb | hb | hb | hb
    · exact absurd hb (by decide)
    · exact not_mem_of_isBlank h.before (by decide) hb
    · exact not_mem_of_isIalName h.name (by decide) hb
    · exact absurd hb (by decide)
  have hsplit : m.text = (utf8 "\x7b:" ++ (x ++ (n ++ [0x3D]))) ++
      0x26 :: (utf8 "#34;" ++ (v ++ attrClosing y)) := by
    rw [htext, attrOpening, show utf8 "=&#34;" = 0x3D :: 0x26 :: utf8 "#34;" by decide]
    simp
  rw [attrStart, hsplit, List.takeWhile_append_of_pos hname, List.takeWhile_cons_of_neg (by decide),
    List.append_nil, attrOpening, show utf8 "=&#34;" = [0x3D] ++ utf8 "&#34;" by decide]
  simp only [List.append_assoc]

theorem ialAttrCut_eq {r : GoString × Match} {x n v y : GoString} (h : AttrParts x n y)
    (hname : r.2.group 1 = n) (hvalue : r.2.group 2 = v)
    (htext : r.2.text = attrOpening x n ++ (v ++ attrClosing y)) :
    ialAttrCut r = if isSkipped n then [([], r.1 ++ r.2.text)]
      else [([], r.1 ++ attrOpening x n), (v, attrClosing y)] := by
  rw [ialAttrCut, hname, hvalue, attrStart_eq h htext]
  refine if_congr Iff.rfl rfl ?_
  rw [htext, ← List.append_assoc, ← List.length_append, List.drop_left]

theorem exists_rewrites_attr (r : List (Letter Mark) × Found Mark) (h : IsAttr r.2) :
    ∃ O K, Rewrites (fun m => attrHtml m.2) ialAttrCut
      (fun p => attributeLetters p.found p.text) r O K := by
  obtain ⟨P, G⟩ := r
  obtain ⟨x, n, v, y, rfl, hparts, -⟩ := h
  have hread : ∀ {ρ : Mark → GoString} {m : Match}, (foundAttr x n v y).Read ρ m →
      m.group 1 = n ∧ m.group 2 = text ρ v ∧
        m.text = attrOpening x n ++ (text ρ v ++ attrClosing y) := fun h =>
    ⟨(h.group 1).trans text_bytes, h.group 2, h.text.trans text_foundAttr⟩
  by_cases hskip : isSkipped n = true
  · refine ⟨[], [([], P ++ (foundAttr x n v y).text)], by simp, fun ρ hρ m hpre hm => ?_,
      fun m _ hm => ?_, fun m hm => ?_, fun n' c Z => ?_⟩
    · rw [ialAttrCut_eq hparts (hread hm).1 (hread hm).2.1 (hread hm).2.2, if_pos hskip, hpre,
        hm.text, ← text_append]
      rfl
    · rw [attrHtml, (hread hm).1, if_pos hskip]
      rfl
    · rw [attributeLetters, (hread hm).1, if_pos hskip]
    · simp [code_ne_nil]
  · refine ⟨bytes (utf8 " " ++ n ++ utf8 "=") ++ .mark .quote :: (v ++ [.mark .quote]),
      [([], P ++ bytes (attrOpening x n)), (v, bytes (attrClosing y))], by simp [foundAttr],
      fun ρ hρ m hpre hm => ?_, fun m _ hm => ?_, fun m hm => ?_, fun n' c Z => ?_⟩
    · rw [ialAttrCut_eq hparts (hread hm).1 (hread hm).2.1 (hread hm).2.2, if_neg hskip, hpre]
      simp [textParts]
    · rw [attrHtml, (hread hm).1, if_neg hskip, (hread hm).2.1]
      have hquote : utf8 "=\"" = utf8 "=" ++ utf8 "\"" := by decide
      simp [Mark.rendered, hquote]
    · have hslice := slice_append clean_rendered.ne_nil (bytes (attrOpening x n)) v
        (bytes (attrClosing y))
      rw [text_bytes] at hslice
      rw [attributeLetters, (hread hm).1, if_neg hskip, attrStart_eq hparts (hread hm).2.2,
        (hread hm).2.1, foundAttr, hslice]
    · have hO : bytes (utf8 " " ++ n ++ utf8 "=") ++ .mark .quote :: (v ++ [.mark .quote]) ++ Z =
          bytes (utf8 " " ++ n ++ utf8 "=") ++ .mark .quote :: (v ++ .mark .quote :: Z) := by simp
      rw [hO, infix_code_sep_iff Mark.noConfusion Mark.noConfusion,
        infix_code_sep_iff Mark.noConfusion Mark.noConfusion, or_iff_right not_infix_bytes]
      simp [code_ne_nil]

/-- No match of an expression for bytes a mark is without starts in a mark. -/
theorem matchAt_mark {re : Re} {ρ : Mark → GoString} (hρ : Clean ρ) {y : UInt8}
    (hhead : ∀ u d, Consumes re u d → u.head? = some y) (hy : y ∈ utf8 "[]()\x7b\x7d&") {a : Mark}
    {x : UInt8} (hx : x ∈ ρ a) {b : Option UInt8} {s : GoString} :
    matchAt re ⟨b, x :: s⟩ = none := by
  refine matchAt_eq_none_of_head hhead fun hxy => ?_
  rw [hxy] at hx
  exact hρ.free a y hy hx

theorem head_ialAttrRe (u : GoString) (d : Caps) (h : Consumes ialAttrRe u d) :
    u.head? = some 0x7B := by
  obtain ⟨x, n, v, y, rfl, -⟩ := consumes_ialAttrRe.mp h
  rfl

theorem head_linkRe (u : GoString) (d : Caps) (h : Consumes linkRe u d) : u.head? = some 0x5B := by
  obtain ⟨t, q, i, rfl, -⟩ := consumes_linkRe.mp h
  rfl

/-- The attribute lists behind a link, with what follows the last attribute. -/
theorem exists_ialParts (I : List (Letter Mark)) :
    ∃ K : Parts (Letter Mark), K.flatMap (fun p => p.1 ++ p.2) = I ∧
      (∀ ρ, Clean ρ → parts ialAttrRe ialAttrCut (text ρ I) ++
        [([], lastPart ialAttrRe (text ρ I))] = textParts ρ K) ∧
      ialAttrs (text Mark.rendered I) = text Mark.rendered (attrLetters I) ∧
      ∀ n c, code n c <:+: attrLetters I ↔ ∃ p ∈ K, code n c <:+: p.1 := by
  obtain ⟨M, R, hM⟩ := exists_divides (fun ρ hρ => Clean.ne_nil hρ)
    (fun ρ hρ a x hx b s => matchAt_mark hρ head_ialAttrRe (by decide +kernel) hx)
    aligned_ialAttrRe I
  obtain ⟨K, hflat, hparts, hhtml, hcode⟩ := exists_rewrites hM exists_rewrites_attr
  refine ⟨K ++ [([], R)], ?_, fun ρ hρ => ?_, ?_, fun n c => ?_⟩
  · conv_rhs => rw [hflat, whole]
    simp
  · rw [hparts ρ hρ, hM.lastPart_eq hρ]
    simp [textParts]
  · rw [ialAttrs_eq, hhtml]
    rfl
  · have hO := hcode n c []
    rw [List.append_nil] at hO
    rw [attrLetters, hO]
    simp [code_ne_nil, or_and_right, exists_or]

theorem anchorLetters_eq {t q i : List (Letter Mark)} {m : Match}
    (h : (foundLink t q i).Read Mark.rendered m) : anchorLetters m (foundLink t q i).text =
      .mark .linkOpen :: (q ++ .mark .quote :: (attrLetters i ++ .mark .tagEnd ::
        (t ++ [.mark .linkClose]))) := by
  have hne := clean_rendered.ne_nil
  have htext := slice_append hne [.byte 0x5B] t (.byte 0x5D :: .byte 0x28 :: (q ++ .byte 0x29 :: i))
  have htarget := slice_append hne (.byte 0x5B :: (t ++ [.byte 0x5D, .byte 0x28])) q
    (.byte 0x29 :: i)
  have hials := slice_append hne
    (.byte 0x5B :: (t ++ .byte 0x5D :: .byte 0x28 :: (q ++ [.byte 0x29]))) i []
  simp only [text_byte, text_append, text_nil, List.length_cons, List.length_append,
    List.length_nil, List.cons_append, List.append_assoc, List.nil_append, List.append_nil]
    at htext htarget hials
  have ht : m.group 1 = text Mark.rendered t := h.group 1
  have hq : m.group 2 = text Mark.rendered q := h.group 2
  have hi : m.group 3 = text Mark.rendered i := h.group 3
  have hstart : (text Mark.rendered t).length + (0 + 1 + 1) + 1 =
      (text Mark.rendered t).length + 3 := by omega
  have hbehind : (text Mark.rendered t).length + ((text Mark.rendered q).length + (0 + 1) + 1 + 1) +
      1 = (text Mark.rendered t).length + (text Mark.rendered q).length + 4 := by omega
  rw [hstart] at htarget
  rw [hbehind] at hials
  simp only [anchorLetters, ht, hq, hi, foundLink]
  rw [htarget, hials, htext]

theorem exists_rewrites_link (r : List (Letter Mark) × Found Mark)
    (h : ∃ t q i, r.2 = foundLink t q i) :
    ∃ O K, Rewrites (fun m => m.1 ++ linkHtml m.2) linkCut
      (fun p => p.before ++ anchorLetters p.found p.text) r O K := by
  obtain ⟨P, G⟩ := r
  obtain ⟨t, q, i, rfl⟩ := h
  obtain ⟨Ki, hflat, hparts, hhtml, hcode⟩ := exists_ialParts i
  have hread : ∀ {ρ : Mark → GoString} {m : Match}, (foundLink t q i).Read ρ m →
      m.group 1 = text ρ t ∧ m.group 2 = text ρ q ∧ m.group 3 = text ρ i := fun h =>
    ⟨h.group 1, h.group 2, h.group 3⟩
  refine ⟨P ++ .mark .linkOpen :: (q ++ .mark .quote :: (attrLetters i ++ .mark .tagEnd :: (t ++
      [.mark .linkClose]))), [(P, bytes (utf8 "[")), (t, bytes (utf8 "](")),
      (q, bytes (utf8 ")"))] ++ Ki, ?_, fun ρ hρ m hpre hm => ?_, fun m hpre hm => ?_,
    fun m hm => congrArg (P ++ ·) (anchorLetters_eq hm), fun n c Z => ?_⟩
  · have hbytes : ∀ {s : GoString}, (bytes s : List (Letter Mark)) = s.map .byte := rfl
    rw [List.flatMap_append, hflat, hbytes, hbytes, hbytes, show utf8 "[" = [0x5B] by decide,
      show utf8 "](" = [0x5D, 0x28] by decide, show utf8 ")" = [0x29] by decide]
    simp [foundLink]
  · obtain ⟨ht, hq, hi⟩ := hread hm
    rw [linkCut, ht, hq, hi, hparts ρ hρ, hpre]
    simp [textParts]
  · obtain ⟨ht, hq, hi⟩ := hread hm
    rw [linkHtml, ht, hq, hi, hhtml, hpre]
    simp [Mark.rendered]
  · have hO : P ++ .mark .linkOpen :: (q ++ .mark .quote :: (attrLetters i ++ .mark .tagEnd ::
        (t ++ [.mark .linkClose]))) ++ Z = P ++ .mark .linkOpen :: (q ++ .mark .quote ::
          (attrLetters i ++ .mark .tagEnd :: (t ++ .mark .linkClose :: Z))) := by simp
    rw [hO, infix_code_sep_iff Mark.noConfusion Mark.noConfusion,
      infix_code_sep_iff Mark.noConfusion Mark.noConfusion,
      infix_code_sep_iff Mark.noConfusion Mark.noConfusion,
      infix_code_sep_iff Mark.noConfusion Mark.noConfusion, hcode]
    simp only [List.mem_append, List.mem_cons, List.not_mem_nil, or_false, or_and_right, exists_or,
      exists_eq_left]
    -- The target stands in front of the link's text here, and behind it in the line.
    constructor
    · intro h
      rcases h with h | h | h | h | h
      · exact .inl (.inl (.inl h))
      · exact .inl (.inl (.inr (.inr h)))
      · exact .inl (.inr h)
      · exact .inl (.inl (.inr (.inl h)))
      · exact .inr h
    · intro h
      rcases h with ((h | h | h) | h) | h
      · exact .inl h
      · exact .inr (.inr (.inr (.inl h)))
      · exact .inr (.inl h)
      · exact .inr (.inr (.inl h))
      · exact .inr (.inr (.inr (.inr h)))

/-- A code span of the third rewrite is one of the letters that no delimiter of a link meets. -/
theorem linkLetters_spec (L : List (Letter Mark)) :
    text Mark.rendered (linkLetters L) = replaceAll linkRe linkHtml (text Mark.rendered L) ∧
      ∀ n c, code n c <:+: linkLetters L ↔ ∃ A, A ++ code n c <+: L ∧
        ∀ g ∈ gaps 0 (parts linkRe linkCut (text Mark.written L)),
          (text Mark.written A ++ codeText c).length ≤ g.1 ∨ g.2 ≤ (text Mark.written A).length := by
  obtain ⟨M, R, hM⟩ := exists_divides (fun ρ hρ => Clean.ne_nil hρ)
    (fun ρ hρ a x hx b s => matchAt_mark hρ head_linkRe (by decide +kernel) hx) aligned_linkRe L
  obtain ⟨K, hflat, hparts, hhtml, hcode⟩ := exists_rewrites hM exists_rewrites_link
  have hrest : (findLetters Mark.rendered linkRe L).2 = R :=
    (hM.findLetters_eq (f := fun _ => []) clean_rendered.ne_nil clean_rendered
      fun _ _ _ _ => rfl).2
  refine ⟨?_, fun n c => ?_⟩
  · rw [linkLetters, text_append, ← hhtml, hrest, ← hM.lastPart_eq clean_rendered]
    rfl
  · rw [linkLetters, hrest, hcode, ← exists_within_iff]
    refine exists_congr fun A => ?_
    rw [hparts _ clean_written, ← text_written_code n, ← text_append,
      within_iff clean_written.ne_nil, ← hflat]

end TrainingPlatform.Content
