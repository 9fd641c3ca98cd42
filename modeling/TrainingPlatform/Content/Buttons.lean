import TrainingPlatform.Content.Fences
import TrainingPlatform.Go.Template

/-!
# The buttons on a page

A page with a hole for the button of each exercise.  Pairing the demo links and marking the
checked buttons look for the first button of a hash; they fill the holes in the order of the
exercises as long as no text of the page reads like a button and equal exercises stand in
order.
-/

namespace TrainingPlatform.Content

open Go Go.Re Scoring

/-! ## The page without its buttons -/

/-- The HTML of an exercise with a hole for its button. -/
def exerciseTemplate (chHash text : GoString) (k : Nat) : Template :=
  .hole (utf8 "<div class=\"exercise\" data-challenge=\"" ++ chHash ++
    utf8 "\"><div class=\"q\">" ++ renderMarkdown text ++ utf8 "</div>") k
    (.text (utf8 "<div class=\"verdict\"></div></div>"))

/-- The blocks in the order of their placeholders; the hole of an exercise has its number. -/
def blockTemplates (env : Env) (slug src salt : GoString) : List Template :=
  (quizzesOf src).map
      (fun q => .text (quizHtml env.sha salt (challengeHash env.sha q.text slug) q)) ++
    (exercisesOf src).mapIdx fun k text => exerciseTemplate (challengeHash env.sha text slug) text k

/-- `substitute`, for blocks with holes. -/
def putBlocks : Nat → List Template → Template → Template
  | _, [], F => F
  | i, G :: Gs, F => putBlocks (i + 1) Gs (F.put (placeholderToken i) G)

/-- The rendered body with every block put back, without the buttons. -/
def pageTemplate (env : Env) (slug src salt : GoString) : Template :=
  putBlocks 0 (blockTemplates env slug src salt) (.text (renderMarkdown (placeholderBody src)))

/-- The hash of an exercise. -/
def exerciseHash (env : Env) (slug src : GoString) (k : Nat) : GoString :=
  challengeHash env.sha ((exercisesOf src)[k]?.getD []) slug

theorem fill_putBlocks {β : Nat → GoString} (hβ : ∀ i j, Apart (placeholderToken i) (β j))
    (Gs : List Template) (i : Nat) (F : Template) : (putBlocks i Gs F).fill β =
      substitute i (Gs.map (Template.fill β)) (F.fill β) := by
  induction Gs generalizing i F with
  | nil => rfl
  | cons G Gs ih =>
    rw [putBlocks, ih, Template.fill_put fun j _ => hβ i j]
    rfl

theorem apart_autoDemoAnchor (sha : Sha256) (key : GoString) (i : Nat) :
    Apart (placeholderToken i) (autoDemoAnchor (sha.hex key)) := by
  refine apart_of_starts (c := 0x21) (d := 0x61) (tagged_placeholderToken i)
    (tagged_demoButton _ _) ⟨_, rfl⟩ ⟨_, rfl⟩
    (not_infix_autoDemoAnchor (by decide) (by decide) sha key) ?_
  exact not_infix_token (b := 0x61) (by decide) (by decide) i

/-- With the built-in buttons in its holes it is the page with the blocks. -/
theorem fill_pageTemplate (env : Env) (slug src salt : GoString) :
    (pageTemplate env slug src salt).fill (fun k => autoDemoAnchor (exerciseHash env slug src k)) =
      blockPage env slug src salt := by
  have hblocks : (blockTemplates env slug src salt).map
      (Template.fill fun k => autoDemoAnchor (exerciseHash env slug src k)) =
        blockHtml env slug src salt := by
    rw [blockTemplates, blockHtml, List.map_append, List.map_map]
    congr 1
    refine List.ext_getElem? fun k => ?_
    rw [List.getElem?_map, List.getElem?_mapIdx, List.getElem?_map, Option.map_map]
    cases htext : (exercisesOf src)[k]? with
    | none => rfl
    | some text =>
      rw [Option.map_some, Option.map_some, Function.comp_apply, exerciseTemplate, exerciseHtml,
        Template.fill, Template.fill, exerciseHash, htext, Option.getD_some]
      simp only [List.append_assoc]
  have hapart : ∀ i j, Apart (placeholderToken i) (autoDemoAnchor (exerciseHash env slug src j)) :=
    fun i _ => apart_autoDemoAnchor _ _ i
  rw [pageTemplate, fill_putBlocks hapart, hblocks]
  rfl

/-! ## Its holes -/

/-- A step puts the holes of a block between those there are. -/
theorem holes_putBlocks (Gs : List Template) (i : Nat) (F : Template)
    (hnodup : (F.holes ++ Gs.flatMap Template.holes).Nodup) :
    (putBlocks i Gs F).holes.Nodup ∧
      (putBlocks i Gs F).holes ⊆ F.holes ++ Gs.flatMap Template.holes := by
  induction Gs generalizing i F with
  | nil => exact ⟨(List.nodup_append.mp hnodup).1, List.subset_append_left _ _⟩
  | cons G Gs ih =>
    rw [putBlocks]
    rw [List.flatMap_cons] at hnodup ⊢
    rcases Template.holes_put F (placeholderToken i) G with heq | ⟨l₁, l₂, hF, hput⟩
    · have hsub : List.Sublist (F.holes ++ Gs.flatMap Template.holes)
          (F.holes ++ (G.holes ++ Gs.flatMap Template.holes)) :=
        List.Sublist.append_left (List.sublist_append_right _ _) _
      obtain ⟨hn, hs⟩ := ih (i + 1) (F.put (placeholderToken i) G) (heq ▸ hnodup.sublist hsub)
      exact ⟨hn, fun j hj => hsub.subset (heq ▸ hs hj)⟩
    · have hperm : ((F.put (placeholderToken i) G).holes ++ Gs.flatMap Template.holes).Perm
          (F.holes ++ (G.holes ++ Gs.flatMap Template.holes)) := by
        rw [hput, hF]
        simp only [List.append_assoc]
        exact (List.perm_append_comm_assoc _ _ _).append_left l₁
      obtain ⟨hn, hs⟩ := ih (i + 1) _ (hperm.nodup_iff.mpr hnodup)
      exact ⟨hn, fun j hj => hperm.subset (hs hj)⟩

theorem flatMap_holes_mapIdx {f : Nat → GoString → Template} {i : Nat}
    (hf : ∀ k text, (f k text).holes = [i + k]) (texts : List GoString) :
    (texts.mapIdx f).flatMap Template.holes = List.range' i texts.length := by
  induction texts generalizing f i with
  | nil => rfl
  | cons text texts ih =>
    have hshift : ∀ k text, (f (k + 1) text).holes = [i + 1 + k] := fun k text => by
      rw [hf, Nat.add_right_comm, Nat.add_assoc]
    rw [List.mapIdx_cons, List.flatMap_cons, hf, ih hshift, List.length_cons, List.range'_succ]
    rfl

/-- Each hole of the page is the one of an exercise. -/
theorem holes_pageTemplate (env : Env) (slug src salt : GoString) :
    (pageTemplate env slug src salt).holes.Nodup ∧
      ∀ k ∈ (pageTemplate env slug src salt).holes, k < (exercisesOf src).length := by
  have hholes : (blockTemplates env slug src salt).flatMap Template.holes =
      List.range' 0 (exercisesOf src).length := by
    have hquizzes : ((quizzesOf src).map fun q => Template.text
        (quizHtml env.sha salt (challengeHash env.sha q.text slug) q)).flatMap
          Template.holes = [] := by
      rw [List.flatMap_map, List.flatMap_eq_nil_iff]
      exact fun _ _ => rfl
    rw [blockTemplates, List.flatMap_append, hquizzes, List.nil_append]
    exact flatMap_holes_mapIdx (fun k text => by rw [Nat.zero_add]; rfl) _
  have hnil : (Template.text (renderMarkdown (placeholderBody src))).holes = [] := rfl
  have hnodup := holes_putBlocks (blockTemplates env slug src salt) 0
    (.text (renderMarkdown (placeholderBody src)))
  rw [hnil, hholes, List.nil_append] at hnodup
  obtain ⟨hn, hs⟩ := hnodup List.nodup_range'
  exact ⟨hn, fun k hk => by simpa using List.mem_range'_1.mp (hs hk)⟩

/-! ## Buttons -/

/-- The attributes of a button behind its class, with the mark of a checked one. -/
def buttonAttrs (checked : Bool) (chHash : GoString) (r : DemoRouting) :
    List (GoString × GoString) :=
  (utf8 "data-hash-code", chHash) ::
    ((if checked then [(utf8 "data-verify", utf8 "1")] else []) ++ (demoAttrs chHash r).tail)

/-- The button of an exercise, as it is with and without the server's check. -/
def exerciseButton (checked : Bool) (chHash : GoString) (r : DemoRouting) : GoString :=
  utf8 "<a class=\"exercise-demo\"" ++
    ((buttonAttrs checked chHash r).flatMap attrText ++ utf8 " href=\"#\">Test Exercise</a>")

def buttonAttrNames : List GoString := utf8 "data-verify" :: demoAttrNames

theorem exerciseButton_false (chHash : GoString) (r : DemoRouting) :
    exerciseButton false chHash r = demoButton chHash r := (demoButton_eq chHash r).symm

theorem mem_buttonAttrs {checked : Bool} {chHash : GoString} {r : DemoRouting}
    {a : GoString × GoString} (h : a ∈ (buttonAttrs checked chHash r).tail) :
    a.1 ∈ buttonAttrNames.erase (utf8 "data-hash-code") ∧ (a.2 = utf8 "1" ∨ a.2 ∈ r.values) := by
  have hattrs : (demoAttrs chHash r).tail = [(utf8 "data-port", r.port), (utf8 "data-path", r.path),
      (utf8 "data-term", r.term)] ++
        ((if r.hostPrefix ≠ [] then [(utf8 "data-host-prefix", r.hostPrefix)] else []) ++
          if r.proto ≠ [] then [(utf8 "data-protocol", r.proto)] else []) := by
    rw [demoAttrs, List.append_assoc]
    rfl
  rw [buttonAttrs, List.tail_cons, hattrs] at h
  simp only [List.mem_append, List.mem_ite_nil_right, List.mem_cons, List.not_mem_nil,
    or_false] at h
  rcases h with ⟨-, rfl⟩ | (rfl | rfl | rfl) | ⟨-, rfl⟩ | ⟨-, rfl⟩ <;>
    exact ⟨by dsimp only; decide, by simp [DemoRouting.values]⟩

/-- A value in quotes cannot go over into the next one. -/
theorem attrText_append_inj {n v v' s s' : GoString} (hv : 0x22 ∉ v) (hv' : 0x22 ∉ v')
    (h : attrText (n, v) ++ s = attrText (n, v') ++ s') : v = v' ∧ s = s' := by
  have htext : ∀ v s, attrText (n, v) ++ s = (0x20 :: n ++ [0x3D, 0x22]) ++ (v ++ 0x22 :: s) :=
    fun v s => by simp [attrText]
  rw [htext, htext] at h
  exact eq_of_append_cons_eq hv hv' (List.append_cancel_left h)

/-- The optional attributes of a button. -/
def extraAttrs (r : DemoRouting) : GoString :=
  ((if r.hostPrefix ≠ [] then [(utf8 "data-host-prefix", r.hostPrefix)] else []) ++
    if r.proto ≠ [] then [(utf8 "data-protocol", r.proto)] else []).flatMap attrText

theorem demoButton_attrs (chHash : GoString) (r : DemoRouting) :
    demoButton chHash r = utf8 "<a class=\"exercise-demo\"" ++
      (attrText (utf8 "data-hash-code", chHash) ++ (attrText (utf8 "data-port", r.port) ++
        (attrText (utf8 "data-path", r.path) ++ (attrText (utf8 "data-term", r.term) ++
          (extraAttrs r ++ utf8 " href=\"#\">Test Exercise</a>"))))) := by
  rw [demoButton_eq, demoAttrs, extraAttrs]
  simp only [List.append_assoc, List.cons_append, List.nil_append, List.flatMap_cons]

/-- The built-in button of a hash is read nowhere but where it is. -/
theorem eq_of_autoDemoAnchor_isPrefix {h h' t : GoString} {r : DemoRouting} (hh : 0x22 ∉ h)
    (hh' : 0x22 ∉ h') (hr : ∀ v ∈ r.values, 0x22 ∉ v)
    (hpre : autoDemoAnchor h <+: demoButton h' r ++ t) : h = h' ∧ r = defaultDemoRouting := by
  obtain ⟨y, hy⟩ := hpre
  have hextra : extraAttrs defaultDemoRouting = [] := rfl
  rw [autoDemoAnchor, demoButton_attrs, demoButton_attrs, hextra, List.nil_append] at hy
  simp only [List.append_assoc] at hy
  obtain ⟨hhash, hy⟩ := attrText_append_inj hh hh' (List.append_cancel_left hy)
  have hdefault : ∀ v ∈ defaultDemoRouting.values, 0x22 ∉ v := by decide
  simp only [DemoRouting.values, List.forall_mem_cons] at hr hdefault
  obtain ⟨hport, hy⟩ := attrText_append_inj hdefault.1 hr.1 hy
  obtain ⟨hpath, hy⟩ := attrText_append_inj hdefault.2.1 hr.2.1 hy
  obtain ⟨hterm, hy⟩ := attrText_append_inj hdefault.2.2.1 hr.2.2.1 hy
  have hdata : ∀ n v s, utf8 " href=\"#\">Test Exercise</a>" ++ y ≠
      attrText (0x64 :: n, v) ++ s := by
    intro n v s heq
    have hsecond := (List.cons.inj (List.cons.inj heq).2).1
    exact absurd hsecond (by decide)
  have hnone : r.hostPrefix = [] ∧ r.proto = [] := by
    by_cases hp : r.hostPrefix = []
    · by_cases hq : r.proto = []
      · exact ⟨hp, hq⟩
      · rw [extraAttrs, if_neg (not_not.mpr hp), if_pos hq, List.nil_append, List.flatMap_cons,
          List.append_assoc] at hy
        exact absurd hy (hdata (utf8 "ata-protocol") r.proto _)
    · rw [extraAttrs, if_pos hp, List.cons_append, List.flatMap_cons, List.append_assoc] at hy
      exact absurd hy (hdata (utf8 "ata-host-prefix") r.hostPrefix _)
  obtain ⟨port, path, term, hostPrefix, proto⟩ := r
  obtain ⟨rfl, rfl⟩ := hnone
  dsimp only at hport hpath hterm
  rw [← hport, ← hpath, ← hterm]
  exact ⟨hhash, rfl⟩

/-! ## Where the patterns start -/

/-- What opens a button, up to the first byte of its class. -/
def anchorOpen : GoString := utf8 "<a class=" ++ [0x22, 0x65]

theorem anchorOpen_eq : anchorOpen = 0x3C :: (utf8 "a class=" ++ [0x22, 0x65]) := rfl

/-- A pattern with a value in quotes that is not the value of the hash and no other attribute's
name is none of the attributes. -/
theorem buttonAttrs_apart {p d chHash : GoString} {r : DemoRouting} (hh : 0x22 ∉ chHash)
    (hr : ∀ v ∈ r.values, 0x22 ∉ v)
    (hnames : ∀ n ∈ buttonAttrNames.erase (utf8 "data-hash-code"), ¬ p <:+ 0x20 :: (n ++ [0x3D]))
    (hhash : ∀ s, ¬ (p <:+ utf8 " data-hash-code=" ∧ d <+: chHash ++ 0x22 :: s)) (checked : Bool) :
    ∀ a ∈ buttonAttrs checked chHash r, 0x22 ∉ a.1 ∧ 0x22 ∉ a.2 ∧
      ∀ s, ¬ (p <:+ 0x20 :: (a.1 ++ [0x3D]) ∧ d <+: a.2 ++ 0x22 :: s) := by
  have htail : ∀ a ∈ (buttonAttrs checked chHash r).tail, 0x22 ∉ a.1 ∧ 0x22 ∉ a.2 ∧
      ∀ s, ¬ (p <:+ 0x20 :: (a.1 ++ [0x3D]) ∧ d <+: a.2 ++ 0x22 :: s) := by
    intro a ha
    obtain ⟨hname, hvalue⟩ := mem_buttonAttrs ha
    have hquote : ∀ n ∈ buttonAttrNames.erase (utf8 "data-hash-code"), 0x22 ∉ n := by decide
    refine ⟨hquote _ hname, ?_, fun s h => hnames _ hname h.1⟩
    rcases hvalue with hvalue | hvalue
    · rw [hvalue]
      decide
    · exact hr _ hvalue
  exact List.forall_mem_cons.mpr ⟨⟨by dsimp only; decide, hh, hhash⟩, htail⟩

theorem skips_autoDemoAnchor {h h' : GoString} {r : DemoRouting} (hh : 0x22 ∉ h) (hh' : 0x22 ∉ h')
    (hr : ∀ v ∈ r.values, 0x22 ∉ v) (hne : ¬ (h = h' ∧ r = defaultDemoRouting)) (t : GoString) :
    Skips (autoDemoAnchor h) (demoButton h' r) t := by
  have hbutton : demoButton h' r = 0x3C :: (utf8 "a class=\"exercise-demo\"" ++
      ((demoAttrs h' r).flatMap attrText ++ 0x20 :: utf8 "href=\"#\">Test Exercise</a>")) :=
    demoButton_eq h' r
  have hhead := fun hpre => hne (eq_of_autoDemoAnchor_isPrefix (t := t) hh hh' hr hpre)
  rw [hbutton] at hhead ⊢
  refine skips_cons hhead (skips_of_last (o := anchorOpen) (b := 0x3E) ?_ (by decide) ?_ ?_ t)
  · have hopen : utf8 "<a class=\"exercise-demo\"" = anchorOpen ++ utf8 "xercise-demo\"" := by
      decide
    rw [autoDemoAnchor, demoButton_eq, hopen, List.append_assoc]
    exact List.prefix_append _ _
  · rw [← List.append_assoc]
    exact getLast?_append_close _ (by decide)
  · intro hin
    rw [anchorOpen_eq] at hin
    have hattrs := infix_append_of_head_not_mem (by decide) hin
    have hapart := buttonAttrs_apart (p := utf8 "<a class=") (d := [0x65]) hh' hr (by decide)
      (fun s h => absurd h.1 (by decide)) false
    have hrest := infix_of_attrs (p := utf8 "<a class=") (r := []) (by decide) (by decide) hapart
      hattrs
    exact absurd hrest (by decide)

/-- The hash of another button is not in it. -/
theorem not_infix_exerciseButton {sha : Sha256} {key key' : GoString} {r : DemoRouting}
    (hr : ∀ v ∈ r.values, 0x22 ∉ v) (hne : sha.hex key ≠ sha.hex key') (checked : Bool) :
    ¬ verifyMark (sha.hex key) <:+: exerciseButton checked (sha.hex key') r := by
  obtain ⟨c, d, hcd⟩ := List.exists_cons_of_ne_nil (sha.hex_ne_nil key)
  have hc : c ≠ 0x20 := by
    have hdigit := sha.digits key c (hcd ▸ List.mem_cons_self)
    intro heq
    rw [heq] at hdigit
    exact absurd hdigit (by decide)
  have hmark : verifyMark (sha.hex key) =
      utf8 "data-hash-code=" ++ 0x22 :: c :: (d ++ [0x22]) := by
    rw [verifyMark, hcd, show utf8 "data-hash-code=\"" = utf8 "data-hash-code=" ++ [0x22] by decide,
      show utf8 "\"" = [0x22] by decide]
    simp
  have hbutton : exerciseButton checked (sha.hex key') r = utf8 "<a class=" ++
      0x22 :: (utf8 "exercise-demo" ++ 0x22 ::
        ((buttonAttrs checked (sha.hex key') r).flatMap attrText ++
          0x20 :: utf8 "href=\"#\">Test Exercise</a>")) := rfl
  have hquote : 0x22 ∉ utf8 "data-hash-code=" := by decide
  intro h
  rw [hmark, hbutton] at h
  have hclass := infix_of_not_aligned hquote (by decide) (fun h => absurd h.1 (by decide)) h
  have hattrs := infix_of_not_aligned hquote (by decide) (fun h => absurd h.1 (by decide)) hclass
  have hhash : ∀ s, ¬ (utf8 "data-hash-code=" <:+ utf8 " data-hash-code=" ∧
      c :: (d ++ [0x22]) <+: sha.hex key' ++ 0x22 :: s) := by
    intro s hs
    obtain ⟨-, y, hy⟩ := hs
    rw [← List.cons_append, ← hcd, List.append_assoc] at hy
    exact hne (eq_of_append_cons_eq (quote_not_mem_hex sha key) (quote_not_mem_hex sha key') hy).1
  have hapart := buttonAttrs_apart (quote_not_mem_hex sha key') hr (by decide) hhash checked
  have hrest := infix_of_attrs hquote hc hapart hattrs
  have hname : utf8 "data-hash-code=" <:+: 0x20 :: utf8 "href=\"#\">Test Exercise</a>" :=
    List.infix_append_left.trans hrest
  exact absurd hname (by decide)

theorem skips_verifyMark {sha : Sha256} {key key' : GoString} {r : DemoRouting}
    (hr : ∀ v ∈ r.values, 0x22 ∉ v) (hne : sha.hex key ≠ sha.hex key') (checked : Bool)
    (t : GoString) :
    Skips (verifyMark (sha.hex key)) (exerciseButton checked (sha.hex key') r) t := by
  refine skips_of_last (b := 0x3E) List.prefix_rfl (not_mem_verifyMark (by decide) sha key) ?_
    (not_infix_exerciseButton hr hne checked) t
  rw [exerciseButton, ← List.append_assoc]
  exact getLast?_append_close _ (by decide)

/-- What stands in a button before and behind the mark with its hash. -/
def buttonOpen : GoString := utf8 "<a class=\"exercise-demo\" "
def buttonRest (r : DemoRouting) : GoString :=
  (demoAttrs [] r).tail.flatMap attrText ++ utf8 " href=\"#\">Test Exercise</a>"

theorem exerciseButton_eq (checked : Bool) (chHash : GoString) (r : DemoRouting) :
    exerciseButton checked chHash r = buttonOpen ++
      ((verifyMark chHash ++ if checked then verifyAttr else []) ++ buttonRest r) := by
  have hopen : buttonOpen = utf8 "<a class=\"exercise-demo\"" ++ [0x20] := by decide
  have hhash : attrText (utf8 "data-hash-code", chHash) = 0x20 :: verifyMark chHash := by
    rw [attrText, verifyMark, show utf8 "data-hash-code=\"" = utf8 "data-hash-code" ++ [0x3D, 0x22]
      by decide, show utf8 "\"" = [0x22] by decide]
    simp
  have hattr : (if checked then [(utf8 "data-verify", utf8 "1")] else []).flatMap attrText =
      if checked then verifyAttr else [] := by
    cases checked <;> decide
  have htail : (demoAttrs chHash r).tail = (demoAttrs [] r).tail := rfl
  rw [exerciseButton, buttonAttrs, List.flatMap_cons, List.flatMap_append, hhash, hattr, htail,
    hopen, buttonRest]
  simp only [List.append_assoc, List.cons_append, List.nil_append]

theorem skips_buttonOpen (sha : Sha256) (key t : GoString) :
    Skips (verifyMark (sha.hex key)) buttonOpen t := by
  refine skips_of_last (b := 0x20) List.prefix_rfl (not_mem_verifyMark (by decide) sha key)
    (by decide) (fun h => ?_) t
  have hname : utf8 "data-hash-code=\"" <:+: buttonOpen := by
    refine List.IsInfix.trans ?_ h
    rw [verifyMark, List.append_assoc]
    exact List.infix_append_left
  exact absurd hname (by decide)

/-- A built-in button that is not in a text does not start in it when a button follows. -/
theorem skips_text_autoDemoAnchor {sha : Sha256} {key s : GoString}
    (hs : ¬ autoDemoAnchor (sha.hex key) <:+: s) (chHash : GoString) (r : DemoRouting)
    (t : GoString) : Skips (autoDemoAnchor (sha.hex key)) s (demoButton chHash r ++ t) := by
  refine skips_of_not_infix hs fun w hne hsuf hpre => ?_
  have hanchor : [0x3C, 0x61] <+: demoButton chHash r ++ t := ⟨_, rfl⟩
  have hlen := two_le_length (tagged_demoButton (sha.hex key) defaultDemoRouting).2 rfl hne
    (hsuf.trans (List.tail_suffix _)) hpre
  have hopen : buttonOpen = 0x3C :: utf8 "a class=\"exercise-demo\" " := by decide
  have hrest : buttonRest defaultDemoRouting =
      utf8 " data-port=\"80\" data-path=\"/result.html\" data-term=\".term1\"" ++
        (utf8 " href=\"#\">Test Exercise" ++ utf8 "</a>") := by decide
  rw [autoDemoAnchor, ← exerciseButton_false, exerciseButton_eq, hopen, hrest, if_neg (by decide),
    List.append_nil, List.cons_append, List.tail_cons] at hsuf
  have hin := (List.prefix_of_prefix_length_le hanchor hpre hlen).isInfix.trans hsuf.isInfix
  have hopen := infix_append_of_head_not_mem (by decide) hin
  have hmark := infix_append_of_head_not_mem (not_mem_verifyMark (by decide) sha key) hopen
  have hattrs := infix_append_of_head_not_mem (by decide) hmark
  have hlast := infix_append_of_head_not_mem (by decide) hattrs
  exact absurd hlast (by decide)

theorem skips_text_verifyMark {sha : Sha256} {key s : GoString}
    (hs : ¬ verifyMark (sha.hex key) <:+: s) (checked : Bool) (chHash : GoString) (r : DemoRouting)
    (t : GoString) : Skips (verifyMark (sha.hex key)) s (exerciseButton checked chHash r ++ t) := by
  refine skips_of_not_infix hs fun w hne hsuf hpre => ?_
  obtain ⟨c, w, rfl⟩ := List.exists_cons_of_ne_nil hne
  have hc : c = 0x3C := (List.cons_prefix_cons.mp hpre).1
  have hmem : c ∈ verifyMark (sha.hex key) :=
    List.mem_of_mem_tail (hsuf.subset List.mem_cons_self)
  rw [hc] at hmem
  exact not_mem_verifyMark (by decide) sha key hmem

/-! ## The stages of the page -/

/-- The routing the button of an exercise adopts. -/
def adoptedRouting (env : Env) (slug src salt : GoString) (k : Nat) : DemoRouting :=
  ((demoLinks (blockPage env slug src salt))[k]?.map demoRoutingOf).getD defaultDemoRouting

/-- No text in front of a button reads like the button.  Exercises of one hash stand on the page
in order, those that adopt a routing first; where the lesson asserts content they are not on the
page and adopt one routing. -/
structure ButtonsApart (env : Env) (slug src salt : GoString) : Prop where
  own : ∀ k < (exercisesOf src).length, ∀ s ∈ ((pageTemplate env slug src salt).before k).texts,
    ((frontMatterOf env src).asserts = true → ¬ verifyMark (exerciseHash env slug src k) <:+: s) ∧
      (adoptedRouting env slug src salt k ≠ defaultDemoRouting →
        ¬ autoDemoAnchor (exerciseHash env slug src k) <:+: s)
  repeated : ∀ j k, j < k → k < (exercisesOf src).length →
    exerciseHash env slug src j = exerciseHash env slug src k →
      ((frontMatterOf env src).asserts = true →
        j ∉ (pageTemplate env slug src salt).holes ∧ k ∉ (pageTemplate env slug src salt).holes ∧
          adoptedRouting env slug src salt j = adoptedRouting env slug src salt k) ∧
      (adoptedRouting env slug src salt k ≠ defaultDemoRouting →
        j ∈ ((pageTemplate env slug src salt).before k).holes →
          adoptedRouting env slug src salt j ≠ defaultDemoRouting) ∧
      (adoptedRouting env slug src salt j ≠ defaultDemoRouting →
        k ∉ ((pageTemplate env slug src salt).before j).holes)

theorem replaceFirst_self (old s : GoString) : replaceFirst old old s = s := by
  by_cases hin : old <:+: s
  · by_cases hne : old = []
    · subst hne
      cases s <;> rfl
    · obtain ⟨u, v, hs, hr⟩ := replaceFirst_of_infix old hne hin
      rw [hr, ← hs]
  · exact replaceFirst_of_not_isInfix old hin

theorem quote_not_mem_adoptedRouting (env : Env) (slug src salt : GoString) (k : Nat) :
    ∀ v ∈ (adoptedRouting env slug src salt k).values, 0x22 ∉ v := by
  rw [adoptedRouting]
  cases (demoLinks (blockPage env slug src salt))[k]? with
  | none =>
    rw [Option.map_none, Option.getD_none]
    decide
  | some tag => exact fun v hv => (mem_values_demoRoutingOf hv).1

theorem drop_exerciseHashesOf (env : Env) (slug : GoString) {src : GoString} {k : Nat}
    (hk : k < (exercisesOf src).length) : (exerciseHashesOf env.sha slug src).drop k =
      exerciseHash env slug src k :: (exerciseHashesOf env.sha slug src).drop (k + 1) := by
  have hlen : k < (exerciseHashesOf env.sha slug src).length := by
    rwa [exerciseHashesOf, List.length_map]
  rw [List.drop_eq_getElem_cons hlen, exerciseHash, List.getElem?_eq_getElem hk, Option.getD_some]
  simp only [exerciseHashesOf, List.getElem_map]

theorem drop_exerciseHashesOf_of_le (env : Env) (slug : GoString) {src : GoString} {k : Nat}
    (hk : (exercisesOf src).length ≤ k) : (exerciseHashesOf env.sha slug src).drop k = [] := by
  rwa [List.drop_eq_nil_iff, exerciseHashesOf, List.length_map]

/-- The routings the buttons have adopted, one for each exercise. -/
theorem routings_pairTags {tags hashes : List GoString} {out : GoString} {R : Nat → DemoRouting}
    (hR : ∀ i, R i = ((tags.filter isDemoLink)[i]?.map demoRoutingOf).getD defaultDemoRouting) :
    (pairTags tags hashes out).2 = (List.range hashes.length).map R := by
  induction tags generalizing hashes out R with
  | nil =>
    have hnone : R = fun _ => defaultDemoRouting := funext hR
    rw [pairTags, hnone, List.map_const', List.map_const', List.length_range]
  | cons tag tags ih =>
    cases hashes with
    | nil => rfl
    | cons hash hashes =>
      rw [pairTags]
      split_ifs with hlink
      · rw [List.filter_cons_of_pos hlink] at hR
        rw [List.length_cons, List.range_succ_eq_map, List.map_cons, List.map_map, hR 0]
        dsimp only
        rw [ih fun i => hR (i + 1)]
        rfl
      · rw [List.filter_cons_of_neg hlink] at hR
        exact ih hR

theorem routings_demoPage (env : Env) (slug src salt : GoString) : (demoPage env slug src salt).2 =
    (List.range (exercisesOf src).length).map (adoptedRouting env slug src salt) := by
  have hlen : (exerciseHashesOf env.sha slug src).length = (exercisesOf src).length := by
    rw [exerciseHashesOf, List.length_map]
  rw [demoPage, pairDemoLinks, ← hlen]
  exact routings_pairTags fun i => rfl

section Stages

variable (env : Env) (slug src salt : GoString)

/-- The buttons when the first exercises have adopted their routings. -/
def pairedButton (k j : Nat) : GoString :=
  demoButton (exerciseHash env slug src j)
    (if j < k then adoptedRouting env slug src salt j else defaultDemoRouting)

/-- The buttons when the first exercises have been marked. -/
def checkedButton (k j : Nat) : GoString :=
  exerciseButton (decide (j < k)) (exerciseHash env slug src j) (adoptedRouting env slug src salt j)

theorem pairedButton_succ {j k : Nat}
    (hj : j ≠ k ∨ adoptedRouting env slug src salt k = defaultDemoRouting) :
    pairedButton env slug src salt (k + 1) j = pairedButton env slug src salt k j := by
  rw [pairedButton, pairedButton]
  rcases Nat.lt_trichotomy j k with hlt | rfl | hlt
  · rw [if_pos hlt, if_pos (Nat.lt_succ_of_lt hlt)]
  · rw [if_pos (Nat.lt_succ_self j), if_neg (Nat.lt_irrefl j), hj.resolve_left (not_not.mpr rfl)]
  · rw [if_neg (Nat.lt_asymm hlt), if_neg (Nat.not_lt.mpr hlt)]

variable {env slug src salt} (h : ButtonsApart env slug src salt)
include h

/-- The first built-in button of the hash is the one of the exercise. -/
theorem replaceFirst_pairedButton {k : Nat} (hk : k < (exercisesOf src).length) :
    replaceFirst (autoDemoAnchor (exerciseHash env slug src k))
        (demoButton (exerciseHash env slug src k) (adoptedRouting env slug src salt k))
        ((pageTemplate env slug src salt).fill (pairedButton env slug src salt k)) =
      (pageTemplate env slug src salt).fill (pairedButton env slug src salt (k + 1)) := by
  by_cases hdefault : adoptedRouting env slug src salt k = defaultDemoRouting
  · have hsame : pairedButton env slug src salt (k + 1) = pairedButton env slug src salt k :=
      funext fun j => pairedButton_succ env slug src salt (.inr hdefault)
    rw [hdefault, hsame]
    exact replaceFirst_self _ _
  obtain ⟨hnodup, hholes⟩ := holes_pageTemplate env slug src salt
  have hown : pairedButton env slug src salt k k =
      [] ++ (autoDemoAnchor (exerciseHash env slug src k) ++ []) := by
    rw [pairedButton, if_neg (Nat.lt_irrefl k), List.append_nil]
    rfl
  have hbefore : ∀ j ∈ ((pageTemplate env slug src salt).before k).holes, ∀ t,
      Skips (autoDemoAnchor (exerciseHash env slug src k))
        (pairedButton env slug src salt k j) t := by
    intro j hj t
    obtain ⟨hmem, hjk⟩ := Template.mem_holes_before hj
    rw [pairedButton]
    rcases Nat.lt_or_gt_of_ne hjk with hlt | hlt
    · rw [if_pos hlt]
      refine skips_autoDemoAnchor (quote_not_mem_hex _ _) (quote_not_mem_hex _ _)
        (quote_not_mem_adoptedRouting env slug src salt j) (fun heq => ?_) t
      exact (h.repeated j k hlt hk heq.1.symm).2.1 hdefault hj heq.2
    · rw [if_neg (Nat.lt_asymm hlt)]
      refine skips_autoDemoAnchor (quote_not_mem_hex _ _) (quote_not_mem_hex _ _) (by decide)
        (fun heq => ?_) t
      exact (h.repeated k j hlt (hholes j hmem) heq.1).2.2 hdefault hj
  have hopen : ∀ s t, ¬ autoDemoAnchor (exerciseHash env slug src k) <:+: s →
      ∀ j ∈ (pageTemplate env slug src salt).holes,
        Skips (autoDemoAnchor (exerciseHash env slug src k)) s
          (pairedButton env slug src salt k j ++ t) :=
    fun s t hs j _ => skips_text_autoDemoAnchor hs _ _ t
  rw [Template.replaceFirst_fill _ (autoDemoAnchor_ne_nil _) hnodup hopen
    (fun s hs => (h.own k hk s hs).2 hdefault) hbefore hown fun t => skips_nil _ _]
  refine congrArg (Template.fill · _) (funext fun j => ?_)
  by_cases hj : j = k
  · subst hj
    rw [Function.update_self, List.nil_append, List.append_nil, pairedButton,
      if_pos (Nat.lt_succ_self j)]
  · rw [Function.update_of_ne hj, pairedButton_succ env slug src salt (.inl hj)]

/-- Each checked exercise marks its own button. -/
theorem replaceFirst_checkedButton (ha : (frontMatterOf env src).asserts = true) {k : Nat}
    (hk : k < (exercisesOf src).length) :
    replaceFirst (verifyMark (exerciseHash env slug src k))
        (verifyMark (exerciseHash env slug src k) ++ verifyAttr)
        ((pageTemplate env slug src salt).fill (checkedButton env slug src salt k)) =
      (pageTemplate env slug src salt).fill (checkedButton env slug src salt (k + 1)) := by
  obtain ⟨hnodup, hholes⟩ := holes_pageTemplate env slug src salt
  have hown : checkedButton env slug src salt k k = buttonOpen ++
      (verifyMark (exerciseHash env slug src k) ++
        buttonRest (adoptedRouting env slug src salt k)) := by
    rw [checkedButton, exerciseButton_eq, decide_eq_false (Nat.lt_irrefl k), if_neg (by decide),
      List.append_nil]
  have hbefore : ∀ j ∈ ((pageTemplate env slug src salt).before k).holes, ∀ t,
      Skips (verifyMark (exerciseHash env slug src k)) (checkedButton env slug src salt k j) t := by
    intro j hj t
    obtain ⟨hmem, hjk⟩ := Template.mem_holes_before hj
    refine skips_verifyMark (quote_not_mem_adoptedRouting env slug src salt j) (fun heq => ?_) _ t
    rcases Nat.lt_or_gt_of_ne hjk with hlt | hlt
    · exact ((h.repeated j k hlt hk heq.symm).1 ha).1 hmem
    · exact ((h.repeated k j hlt (hholes j hmem) heq).1 ha).2.1 hmem
  have hopen : ∀ s t, ¬ verifyMark (exerciseHash env slug src k) <:+: s →
      ∀ j ∈ (pageTemplate env slug src salt).holes,
        Skips (verifyMark (exerciseHash env slug src k)) s
          (checkedButton env slug src salt k j ++ t) :=
    fun s t hs j _ => skips_text_verifyMark hs _ _ _ t
  rw [Template.replaceFirst_fill _ (verifyMark_ne_nil _) hnodup hopen
    (fun s hs => (h.own k hk s hs).1 ha) hbefore hown fun t => skips_buttonOpen _ _ _]
  refine congrArg (Template.fill · _) (funext fun j => ?_)
  by_cases hj : j = k
  · subst hj
    rw [Function.update_self, checkedButton, exerciseButton_eq, decide_eq_true (Nat.lt_succ_self j),
      if_pos rfl]
  · have hlt : (j < k + 1) = (j < k) := propext (by omega)
    rw [Function.update_of_ne hj, checkedButton, checkedButton]
    simp only [hlt]

/-- The links of a page are paired with the exercises that are left. -/
theorem pairTags_fill (tags : List GoString) {k : Nat}
    (htags : ∀ i, adoptedRouting env slug src salt (k + i) =
      ((tags.filter isDemoLink)[i]?.map demoRoutingOf).getD defaultDemoRouting) :
    (pairTags tags ((exerciseHashesOf env.sha slug src).drop k)
        ((pageTemplate env slug src salt).fill (pairedButton env slug src salt k))).1 =
      (pageTemplate env slug src salt).fill
        (pairedButton env slug src salt (exercisesOf src).length) := by
  have hholes := (holes_pageTemplate env slug src salt).2
  induction tags generalizing k with
  | nil =>
    refine Template.fill_congr fun j hj => ?_
    rw [pairedButton, pairedButton, if_pos (hholes j hj)]
    split_ifs with hlt
    · rfl
    · have hnone := htags (j - k)
      rw [Nat.add_sub_cancel' (Nat.not_lt.mp hlt)] at hnone
      rw [hnone]
      rfl
  | cons tag tags ih =>
    by_cases hk : k < (exercisesOf src).length
    · rw [drop_exerciseHashesOf env slug hk, pairTags]
      split_ifs with hlink
      · rw [List.filter_cons_of_pos hlink] at htags
        have hfirst : demoRoutingOf tag = adoptedRouting env slug src salt k := (htags 0).symm
        dsimp only
        rw [hfirst, replaceFirst_pairedButton h hk]
        refine ih fun i => ?_
        rw [Nat.add_assoc, Nat.add_comm 1 i]
        exact htags (i + 1)
      · rw [List.filter_cons_of_neg hlink] at htags
        rw [← drop_exerciseHashesOf env slug hk]
        exact ih htags
    · have hle := Nat.not_lt.mp hk
      rw [drop_exerciseHashesOf_of_le env slug hle]
      refine Template.fill_congr fun j hj => ?_
      rw [pairedButton, pairedButton, if_pos (hholes j hj),
        if_pos (Nat.lt_of_lt_of_le (hholes j hj) hle)]

/-- The exercises of a lesson that asserts content are marked one after the other. -/
theorem assertContent_fill (ha : (frontMatterOf env src).asserts = true)
    {quote : GoString → GoString} {fm : FrontMatter} {targets : List (GoString × DemoRouting)}
    {cs : List Challenge} {r : List Challenge × GoString} {k : Nat}
    (htargets : targets.map Prod.fst = (exerciseHashesOf env.sha slug src).drop k)
    (hr : assertContent quote fm targets cs
      ((pageTemplate env slug src salt).fill (checkedButton env slug src salt k)) = .ok r) :
    r.2 = (pageTemplate env slug src salt).fill
      (checkedButton env slug src salt (exercisesOf src).length) := by
  have hholes := (holes_pageTemplate env slug src salt).2
  induction targets generalizing cs k with
  | nil =>
    have hle := List.drop_eq_nil_iff.mp htargets.symm
    rw [exerciseHashesOf, List.length_map] at hle
    rw [assertContent, Except.ok.injEq] at hr
    rw [← hr]
    refine Template.fill_congr fun j hj => ?_
    rw [checkedButton, checkedButton, decide_eq_true (hholes j hj),
      decide_eq_true (Nat.lt_of_lt_of_le (hholes j hj) hle)]
  | cons target targets ih =>
    obtain ⟨hash, routing⟩ := target
    have hk : k < (exercisesOf src).length := by
      by_contra hle
      rw [drop_exerciseHashesOf_of_le env slug (Nat.not_lt.mp hle)] at htargets
      cases htargets
    rw [drop_exerciseHashesOf env slug hk, List.map_cons, List.cons.injEq] at htargets
    obtain ⟨rfl, htargets⟩ := htargets
    rw [assertContent] at hr
    dsimp only at hr
    split_ifs at hr
    have hstep := replaceFirst_checkedButton h ha hk
    rw [verifyMark, verifyAttr] at hstep
    rw [hstep] at hr
    exact ih htargets hr

/-- The page of a lesson has every button at its place. -/
theorem html_of_buttonsApart {resolver : Resolver} {l : Lesson}
    (hl : Rendered env resolver slug src salt l) :
    l.html = layout env l.frontMatter ((pageTemplate env slug src salt).fill fun k =>
      exerciseButton l.frontMatter.asserts (exerciseHash env slug src k)
        (adoptedRouting env slug src salt k)) := by
  have hholes := (holes_pageTemplate env slug src salt).2
  have hpage : (demoPage env slug src salt).1 = (pageTemplate env slug src salt).fill fun k =>
      demoButton (exerciseHash env slug src k) (adoptedRouting env slug src salt k) := by
    have hauto : (pageTemplate env slug src salt).fill (pairedButton env slug src salt 0) =
        blockPage env slug src salt := by
      rw [← fill_pageTemplate]
      rfl
    have hpaired := pairTags_fill h
      ((findAll anchorTagRe (blockPage env slug src salt)).map Match.text) (k := 0) fun i => by
        rw [Nat.zero_add]
        rfl
    rw [hauto, List.drop_zero] at hpaired
    rw [demoPage, pairDemoLinks, hpaired]
    refine Template.fill_congr fun j hj => ?_
    rw [pairedButton, if_pos (hholes j hj)]
  cases ha : l.frontMatter.asserts with
  | false =>
    rw [(hl.plain ha).1, hpage]
    simp only [exerciseButton_false]
  | true =>
    obtain ⟨r, hr, hhtml, -⟩ := hl.asserting ha
    have ha' : (frontMatterOf env src).asserts = true := hl.frontMatter_eq ▸ ha
    have hunmarked : (demoPage env slug src salt).1 =
        (pageTemplate env slug src salt).fill (checkedButton env slug src salt 0) := by
      rw [hpage]
      refine Template.fill_congr fun j _ => ?_
      rw [checkedButton, decide_eq_false (Nat.not_lt_zero j), exerciseButton_false]
    rw [hunmarked] at hr
    have htargets : (demoTargets env slug src salt).map Prod.fst =
        (exerciseHashesOf env.sha slug src).drop 0 := by
      rw [demoTargets, routings_demoPage, List.drop_zero]
      refine List.map_fst_zip ?_
      rw [List.length_map, List.length_range, exerciseHashesOf, List.length_map]
    rw [hhtml, assertContent_fill h ha' htargets hr]
    refine congrArg (layout env _) (Template.fill_congr fun j hj => ?_)
    rw [checkedButton, decide_eq_true (hholes j hj)]

end Stages

end TrainingPlatform.Content
