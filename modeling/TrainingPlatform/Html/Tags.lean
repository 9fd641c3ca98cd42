import TrainingPlatform.Go.Text

/-!
# HTML tags

The tags of a text as an HTML tokenizer reads them, byte by byte.  A character reference
makes no tag and closes no quote, so none is decoded.  A comment or a declaration goes
on to the end of the text here, and the content of every element is read for tags.
-/

namespace Html

open Go

structure Attr where
  name : GoString
  value : GoString
  /-- The quote around the value; none of a value without quotes. -/
  quote : Option UInt8
  deriving DecidableEq

structure Tag where
  closing : Bool
  name : GoString
  attrs : List Attr
  deriving DecidableEq

def Tag.add (t : Tag) (a : Attr) : Tag := { t with attrs := t.attrs ++ [a] }

/-- What the tokenizer is reading, with the tag it has so far. -/
inductive Mode where
  | data
  | tagOpen
  | endTagOpen
  | tagName (t : Tag)
  | beforeAttrName (t : Tag)
  | attrName (t : Tag) (name : GoString)
  | afterAttrName (t : Tag) (name : GoString)
  | beforeAttrValue (t : Tag) (name : GoString)
  | attrValue (t : Tag) (name : GoString) (quote : UInt8) (value : GoString)
  | unquoted (t : Tag) (name value : GoString)
  | afterAttrValue (t : Tag)
  | selfClosing (t : Tag)
  | markup
  deriving DecidableEq

def isLetter (b : UInt8) : Bool := (0x41 ≤ b && b ≤ 0x5A) || (0x61 ≤ b && b ≤ 0x7A)

def lower (b : UInt8) : UInt8 := if 0x41 ≤ b && b ≤ 0x5A then b + 0x20 else b

/-- The byte behind an attribute, where the next one may start. -/
def nextAttr (t : Tag) (b : UInt8) : Mode × List Tag :=
  if isBlank b then (.beforeAttrName t, [])
  else if b = 0x2F then (.selfClosing t, [])
  else if b = 0x3E then (.data, [t])
  else (.attrName t [lower b], [])

/-- The next byte, and the tag it ends. -/
def step : Mode → UInt8 → Mode × List Tag
  | .data, b => (if b = 0x3C then .tagOpen else .data, [])
  | .tagOpen, b =>
    if isLetter b then (.tagName ⟨false, [lower b], []⟩, [])
    else if b = 0x2F then (.endTagOpen, [])
    else if b = 0x21 || b = 0x3F then (.markup, [])
    -- The `<` was text, and this byte is read as such.
    else (if b = 0x3C then .tagOpen else .data, [])
  | .endTagOpen, b =>
    if isLetter b then (.tagName ⟨true, [lower b], []⟩, [])
    else if b = 0x3E then (.data, [])
    else (.markup, [])
  | .tagName t, b =>
    if isBlank b || b = 0x2F || b = 0x3E then nextAttr t b
    else (.tagName { t with name := t.name ++ [lower b] }, [])
  | .beforeAttrName t, b => nextAttr t b
  | .attrName t name, b =>
    if b = 0x3D then (.beforeAttrValue t name, [])
    else if isBlank b then (.afterAttrName t name, [])
    else if b = 0x2F || b = 0x3E then nextAttr (t.add ⟨name, [], none⟩) b
    else (.attrName t (name ++ [lower b]), [])
  | .afterAttrName t name, b =>
    if b = 0x3D then (.beforeAttrValue t name, [])
    else if isBlank b then (.afterAttrName t name, [])
    else nextAttr (t.add ⟨name, [], none⟩) b
  | .beforeAttrValue t name, b =>
    if isBlank b then (.beforeAttrValue t name, [])
    else if b = 0x22 || b = 0x27 then (.attrValue t name b [], [])
    else if b = 0x3E then (.data, [t.add ⟨name, [], none⟩])
    else (.unquoted t name [b], [])
  | .attrValue t name quote value, b =>
    if b = quote then (.afterAttrValue (t.add ⟨name, value, some quote⟩), [])
    else (.attrValue t name quote (value ++ [b]), [])
  | .unquoted t name value, b =>
    if isBlank b then (.beforeAttrName (t.add ⟨name, value, none⟩), [])
    else if b = 0x3E then (.data, [t.add ⟨name, value, none⟩])
    else (.unquoted t name (value ++ [b]), [])
  | .afterAttrValue t, b => nextAttr t b
  | .selfClosing t, b => nextAttr t b
  | .markup, _ => (.markup, [])

/-- The tags of a text, and how it is read on behind it. -/
def read : Mode → GoString → Mode × List Tag
  | m, [] => (m, [])
  | m, b :: s => ((read (step m b).1 s).1, (step m b).2 ++ (read (step m b).1 s).2)

theorem read_append {m m' m'' : Mode} {s s' : GoString} {ts ts' : List Tag}
    (hs : read m s = (m', ts)) (hs' : read m' s' = (m'', ts')) :
    read m (s ++ s') = (m'', ts ++ ts') := by
  induction s generalizing m ts with
  | nil =>
    rw [read, Prod.mk.injEq] at hs
    obtain ⟨rfl, rfl⟩ := hs
    exact hs'
  | cons b s ih =>
    rw [read, Prod.mk.injEq] at hs
    obtain ⟨hm, rfl⟩ := hs
    have hrest := ih (Prod.ext hm rfl)
    rw [List.cons_append, read, hrest, List.append_assoc]

/-! ## Text -/

theorem read_data {s : GoString} (h : 0x3C ∉ s) : read .data s = (.data, []) := by
  induction s with
  | nil => rfl
  | cons b s ih =>
    rw [List.mem_cons, not_or] at h
    have hstep : step .data b = (.data, []) := by rw [step, if_neg (Ne.symm h.1)]
    rw [read, hstep, ih h.2]
    rfl

/-- Every tag of the text is one of some, and the text ends outside its tags. -/
def Sound (ok : Tag → Prop) (s : GoString) : Prop :=
  ∃ ts, read .data s = (.data, ts) ∧ ∀ t ∈ ts, ok t

section Sound

variable {ok : Tag → Prop} {s s' : GoString}

theorem sound_of_not_mem (h : 0x3C ∉ s) : Sound ok s := ⟨[], read_data h, nofun⟩

theorem sound_of_tag {t : Tag} (h : read .data s = (.data, [t])) (ht : ok t) : Sound ok s :=
  ⟨[t], h, List.forall_mem_singleton.mpr ht⟩

theorem Sound.append (h : Sound ok s) (h' : Sound ok s') : Sound ok (s ++ s') := by
  obtain ⟨ts, hts, hok⟩ := h
  obtain ⟨ts', hts', hok'⟩ := h'
  exact ⟨ts ++ ts', read_append hts hts', List.forall_mem_append.mpr ⟨hok, hok'⟩⟩

theorem sound_flatten {ss : List GoString} (h : ∀ s ∈ ss, Sound ok s) : Sound ok ss.flatten := by
  induction ss with
  | nil => exact sound_of_not_mem List.not_mem_nil
  | cons s ss ih =>
    obtain ⟨hs, hss⟩ := List.forall_mem_cons.mp h
    exact hs.append (ih hss)

theorem sound_join {ss : List GoString} {sep : GoString} (hsep : 0x3C ∉ sep)
    (h : ∀ s ∈ ss, Sound ok s) : Sound ok (join ss sep) := by
  induction ss with
  | nil => exact sound_of_not_mem List.not_mem_nil
  | cons s ss ih =>
    obtain ⟨hs, hss⟩ := List.forall_mem_cons.mp h
    cases ss with
    | nil =>
      rw [join, List.intercalate_singleton]
      exact hs
    | cons s' ss =>
      rw [join, List.intercalate_cons_cons]
      exact (hs.append (sound_of_not_mem hsep)).append (ih hss)

end Sound

/-! ## Attributes -/

/-- A byte that goes on with a name. -/
def isNameByte (b : UInt8) : Bool := !isBlank b && b ≠ 0x2F && b ≠ 0x3E && b ≠ 0x3D

theorem isNameByte_iff {b : UInt8} :
    isNameByte b = true ↔ isBlank b = false ∧ b ≠ 0x2F ∧ b ≠ 0x3E ∧ b ≠ 0x3D := by
  simp [isNameByte, and_assoc]

section Attr

variable {t : Tag} {name v w : GoString} {q : UInt8}

theorem read_attrName (h : ∀ b ∈ v, isNameByte b = true) :
    read (.attrName t name) v = (.attrName t (name ++ v.map lower), []) := by
  induction v generalizing name with
  | nil => rw [List.map_nil, List.append_nil, read]
  | cons b v ih =>
    obtain ⟨hb, hv⟩ := List.forall_mem_cons.mp h
    obtain ⟨hblank, hslash, hgt, heq⟩ := isNameByte_iff.mp hb
    have hstep : step (.attrName t name) b = (.attrName t (name ++ [lower b]), []) := by
      simp [step, hblank, hslash, hgt, heq]
    rw [read, hstep, ih hv, List.append_assoc]
    rfl

theorem read_attrValue (h : q ∉ v) :
    read (.attrValue t name q w) (v ++ [q]) =
      (.afterAttrValue (t.add ⟨name, w ++ v, some q⟩), []) := by
  induction v generalizing w with
  | nil =>
    rw [List.nil_append, List.append_nil, read, step, if_pos rfl]
    rfl
  | cons b v ih =>
    rw [List.mem_cons, not_or] at h
    have hstep : step (.attrValue t name q w) b = (.attrValue t name q (w ++ [b]), []) := by
      rw [step, if_neg (Ne.symm h.1)]
    rw [List.cons_append, read, hstep, ih h.2, List.append_assoc]
    rfl

/-- ` name="value"` behind another attribute. -/
theorem read_attr (hne : v ≠ []) (hv : ∀ b ∈ v, isNameByte b = true) (hw : 0x22 ∉ w) :
    read (.afterAttrValue t) (utf8 " " ++ v ++ utf8 "=\"" ++ w ++ utf8 "\"") =
      (.afterAttrValue (t.add ⟨v.map lower, w, some 0x22⟩), []) := by
  obtain ⟨b, v, rfl⟩ := List.exists_cons_of_ne_nil hne
  obtain ⟨hb, hv⟩ := List.forall_mem_cons.mp hv
  obtain ⟨hblank, hslash, hgt, -⟩ := isNameByte_iff.mp hb
  have hstart : read (.afterAttrValue t) (utf8 " " ++ [b]) = (.attrName t [lower b], []) := by
    have hspace : read (.afterAttrValue t) (utf8 " ") = (.beforeAttrName t, []) := rfl
    exact read_append hspace (by simp [read, step, nextAttr, hblank, hslash, hgt])
  have hname := read_append hstart (read_attrName hv)
  have hopen : read (.attrName t ([lower b] ++ v.map lower)) (utf8 "=\"") =
      (.attrValue t ([lower b] ++ v.map lower) 0x22 [], []) := rfl
  have hvalue := read_append (read_append hname hopen) (read_attrValue hw)
  rw [show utf8 "\"" = [0x22] by decide]
  simpa using hvalue

end Attr

/-! ## Text with tags in it -/

/-- Text without `<` and double quotes, and whole tags of a list between its bytes. -/
inductive Marked (tags : List GoString) : GoString → Prop
  | nil : Marked tags []
  | byte {b : UInt8} {s : GoString} (hlt : b ≠ 0x3C) (hquot : b ≠ 0x22) (h : Marked tags s) :
      Marked tags (b :: s)
  | tag {t s : GoString} (ht : t ∈ tags) (h : Marked tags s) : Marked tags (t ++ s)

section Marked

variable {tags : List GoString} {s u v : GoString} {b : UInt8}

theorem marked_of_not_mem (hlt : 0x3C ∉ s) (hquot : 0x22 ∉ s) : Marked tags s := by
  induction s with
  | nil => exact .nil
  | cons b s ih =>
    rw [List.mem_cons, not_or] at hlt hquot
    exact .byte (Ne.symm hlt.1) (Ne.symm hquot.1) (ih hlt.2 hquot.2)

theorem Marked.append (hu : Marked tags u) (hv : Marked tags v) : Marked tags (u ++ v) := by
  induction hu with
  | nil => exact hv
  | byte hlt hquot _ ih => exact .byte hlt hquot ih
  | tag ht _ ih =>
    rw [List.append_assoc]
    exact .tag ht ih

/-- A byte that stands in no tag divides the text. -/
theorem Marked.split (hb : ∀ t ∈ tags, b ∉ t) (h : Marked tags (u ++ b :: v)) :
    Marked tags u ∧ Marked tags v := by
  generalize hs : u ++ b :: v = s at h
  induction h generalizing u with
  | nil => exact absurd hs (List.append_ne_nil_of_right_ne_nil u (List.cons_ne_nil b v))
  | @byte c s hlt hquot h ih =>
    cases u with
    | nil =>
      obtain ⟨-, rfl⟩ := List.cons.inj hs
      exact ⟨.nil, h⟩
    | cons d u =>
      obtain ⟨rfl, rfl⟩ := List.cons.inj hs
      obtain ⟨hu, hv⟩ := ih rfl
      exact ⟨.byte hlt hquot hu, hv⟩
  | @tag t s ht h ih =>
    rcases List.append_eq_append_iff.mp hs with ⟨r, hr, hrest⟩ | ⟨r, rfl, hrest⟩
    · cases r with
      | nil =>
        rw [List.append_nil] at hr
        rw [List.nil_append] at hrest
        obtain ⟨hu, hv⟩ := ih (u := []) hrest
        have htag : Marked tags (t ++ []) := .tag ht hu
        rw [List.append_nil, hr] at htag
        exact ⟨htag, hv⟩
      | cons c r =>
        obtain ⟨rfl, -⟩ := List.cons.inj hrest
        refine absurd ?_ (hb t ht)
        rw [hr]
        exact List.mem_append_right u List.mem_cons_self
    · obtain ⟨hu, hv⟩ := ih hrest.symm
      exact ⟨.tag ht hu, hv⟩

theorem Marked.quote_not_mem (htags : ∀ t ∈ tags, 0x22 ∉ t) (h : Marked tags s) : 0x22 ∉ s := by
  induction h with
  | nil => exact List.not_mem_nil
  | byte _ hquot _ ih => exact fun hmem => (List.mem_cons.mp hmem).elim (Ne.symm hquot) ih
  | tag ht _ ih => exact fun hmem => (List.mem_append.mp hmem).elim (htags _ ht) ih

theorem Marked.sound {ok : Tag → Prop} (htags : ∀ t ∈ tags, Sound ok t) (h : Marked tags s) :
    Sound ok s := by
  induction h with
  | nil => exact sound_of_not_mem List.not_mem_nil
  | @byte b s hlt _ _ ih =>
    have hb : Sound ok [b] := sound_of_not_mem fun hmem => hlt (List.mem_singleton.mp hmem).symm
    exact hb.append ih
  | tag ht _ ih => exact (htags _ ht).append ih

end Marked

/-! ## Links -/

/-- The value of an attribute; the first of its name counts. -/
def Tag.value (t : Tag) (name : GoString) : Option GoString :=
  (t.attrs.find? fun a => a.name = name).map Attr.value

/-- The reference of a tag that starts a link. -/
def Tag.link (t : Tag) : Option GoString :=
  if !t.closing && t.name = utf8 "a" then t.value (utf8 "href") else none

/-- The references of a page's links, behind its doctype. -/
def links (page : GoString) : List GoString :=
  (read .data (trimPrefix page (utf8 "<!doctype html>"))).2.filterMap Tag.link

/-- A tag with attributes behind those of another. -/
structure Tag.Extends (t' t : Tag) : Prop where
  closing : t'.closing = t.closing
  name : t'.name = t.name
  attrs : t.attrs <+: t'.attrs

theorem Tag.Extends.add {t t' : Tag} (h : t'.Extends t) (a : Attr) : (t'.add a).Extends t :=
  ⟨h.closing, h.name, h.attrs.trans (List.prefix_append _ _)⟩

theorem Tag.Extends.link {t t' : Tag} {v : GoString} (h : t'.Extends t) (ht : t.link = some v) :
    t'.link = some v := by
  obtain ⟨as, has⟩ := h.attrs
  rw [Tag.link] at ht ⊢
  rw [h.closing, h.name]
  split_ifs at ht ⊢
  rw [Tag.value, Option.map_eq_some_iff] at ht ⊢
  obtain ⟨a, ha, hv⟩ := ht
  exact ⟨a, by rw [← has, List.find?_append, ha, Option.some_or], hv⟩

/-- The tag whose attributes are being read. -/
def Mode.open : Mode → Option Tag
  | .beforeAttrName t | .attrName t _ | .afterAttrName t _ | .beforeAttrValue t _
  | .attrValue t _ _ _ | .unquoted t _ _ | .afterAttrValue t | .selfClosing t => some t
  | .data | .tagOpen | .endTagOpen | .tagName _ | .markup => none

/-- What is read of a tag stays in it. -/
def Grown (t : Tag) (r : Mode × List Tag) : Prop :=
  (r.2 = [] ∧ ∃ t', r.1.open = some t' ∧ t'.Extends t) ∨ ∃ t', r.2 = [t'] ∧ t'.Extends t

theorem grown_nextAttr {t t' : Tag} (h : t'.Extends t) (b : UInt8) : Grown t (nextAttr t' b) := by
  rw [nextAttr]
  split_ifs
  · exact .inl ⟨rfl, t', rfl, h⟩
  · exact .inl ⟨rfl, t', rfl, h⟩
  · exact .inr ⟨t', rfl, h⟩
  · exact .inl ⟨rfl, t', rfl, h⟩

theorem grown_step {m : Mode} {t t' : Tag} (hm : m.open = some t') (h : t'.Extends t) (b : UInt8) :
    Grown t (step m b) := by
  have stays {m' : Mode} {t'' : Tag} (hm' : m'.open = some t'') (h' : t''.Extends t) :
      Grown t (m', []) := .inl ⟨rfl, t'', hm', h'⟩
  cases m with
  | data | tagOpen | endTagOpen | tagName | markup => cases hm
  | beforeAttrName u | afterAttrValue u | selfClosing u =>
    cases hm
    exact grown_nextAttr h b
  | attrName u name =>
    cases hm
    rw [step]
    split_ifs
    · exact stays rfl h
    · exact stays rfl h
    · exact grown_nextAttr (h.add _) b
    · exact stays rfl h
  | afterAttrName u name =>
    cases hm
    rw [step]
    split_ifs
    · exact stays rfl h
    · exact stays rfl h
    · exact grown_nextAttr (h.add _) b
  | beforeAttrValue u name =>
    cases hm
    rw [step]
    split_ifs
    · exact stays rfl h
    · exact stays rfl h
    · exact .inr ⟨_, rfl, h.add _⟩
    · exact stays rfl h
  | attrValue u name quote value =>
    cases hm
    rw [step]
    split_ifs
    · exact stays rfl (h.add _)
    · exact stays rfl h
  | unquoted u name value =>
    cases hm
    rw [step]
    split_ifs
    · exact stays rfl (h.add _)
    · exact .inr ⟨_, rfl, h.add _⟩
    · exact stays rfl h

/-- The first tag read from within a tag is that tag, whatever its other attributes are. -/
theorem extends_of_read {m : Mode} {t t' u : Tag} {s : GoString} (hm : m.open = some t')
    (h : t'.Extends t) (hu : (read m s).2.head? = some u) : u.Extends t := by
  induction s generalizing m t' with
  | nil => cases hu
  | cons b s ih =>
    rw [read] at hu
    rcases grown_step hm h b with ⟨hnil, t'', hopen, hext⟩ | ⟨t'', hone, hext⟩
    · rw [hnil] at hu
      exact ih hopen hext hu
    · rw [hone] at hu
      cases hu
      exact hext

end Html
