import TrainingPlatform.Go.Matching
import TrainingPlatform.Go.Scan

/-!
# Texts read from letters

A rewrite of a text is written down as letters: a byte that stays, or a mark, which reads
as what stood there or as what is put in its place.  An expression whose matches are cut at
bytes that no reading of a mark has finds the same matches in every reading.
-/

namespace Go

open Re

/-- A byte of a text, or a mark that reads as a text. -/
inductive Letter (μ : Type) where
  | byte (b : UInt8)
  | mark (a : μ)
  deriving DecidableEq

namespace Letter

variable {μ : Type}

def bytes (s : GoString) : List (Letter μ) := s.map byte

/-- What a letter reads as. -/
def read (ρ : μ → GoString) : Letter μ → GoString
  | byte b => [b]
  | mark a => ρ a

def text (ρ : μ → GoString) (L : List (Letter μ)) : GoString := L.flatMap (read ρ)

theorem eq_append_of_not_mem {α : Type} {b : α} {w z u v : List α} (hb : b ∉ w)
    (h : w ++ z = u ++ b :: v) : ∃ u', u = w ++ u' ∧ z = u' ++ b :: v := by
  rcases List.append_eq_append_iff.mp h with ⟨u', rfl, hz⟩ | ⟨w', rfl, hv⟩
  · exact ⟨u', rfl, hz⟩
  · cases w' with
    | nil => exact ⟨[], by rw [List.append_nil, List.append_nil], hv.symm⟩
    | cons c w' =>
      obtain ⟨rfl, -⟩ := List.cons.inj hv
      exact absurd (List.mem_append_right u List.mem_cons_self) hb

/-! ## Readings -/

section Text

variable {ρ : μ → GoString} {L : List (Letter μ)} {b : UInt8} {u v : GoString}

@[simp] theorem text_nil : text ρ [] = [] := rfl
@[simp] theorem text_byte : text ρ (byte b :: L) = b :: text ρ L := rfl
@[simp] theorem text_mark {a : μ} : text ρ (mark a :: L) = ρ a ++ text ρ L := rfl

@[simp] theorem text_append {L' : List (Letter μ)} : text ρ (L ++ L') = text ρ L ++ text ρ L' :=
  List.flatMap_append

@[simp] theorem text_bytes : text ρ (bytes u) = u := by
  induction u with
  | nil => rfl
  | cons b u ih => exact congrArg (b :: ·) ih

theorem mark_not_mem_bytes {a : μ} : mark a ∉ bytes u := by
  intro h
  obtain ⟨b, -, hb⟩ := List.mem_map.mp h
  cases hb

theorem text_congr {σ : μ → GoString} (h : ∀ a, mark a ∈ L → ρ a = σ a) : text ρ L = text σ L := by
  induction L with
  | nil => rfl
  | cons l L ih =>
    have htail := ih fun a ha => h a (List.mem_cons_of_mem l ha)
    cases l with
    | byte b => rw [text_byte, text_byte, htail]
    | mark a => rw [text_mark, text_mark, htail, h a List.mem_cons_self]

theorem byte_not_mem (h : b ∉ text ρ L) : byte b ∉ L := fun hb =>
  h (List.mem_flatMap.mpr ⟨byte b, hb, List.mem_singleton_self b⟩)

theorem not_mem_text (hb : ∀ a, b ∉ ρ a) (h : byte b ∉ L) : b ∉ text ρ L := by
  intro hmem
  obtain ⟨l, hl, hbl⟩ := List.mem_flatMap.mp hmem
  cases l with
  | byte c =>
    rw [read, List.mem_singleton] at hbl
    exact h (hbl ▸ hl)
  | mark a => exact hb a hbl

/-- A byte in front that no mark starts with. -/
theorem eq_byte_cons (hne : ∀ a, ρ a ≠ []) (hb : ∀ a, (ρ a).head? ≠ some b)
    (h : text ρ L = b :: v) : ∃ L', L = byte b :: L' ∧ text ρ L' = v := by
  cases L with
  | nil => cases h
  | cons l L =>
    cases l with
    | byte c =>
      rw [text_byte] at h
      obtain ⟨rfl, rfl⟩ := List.cons.inj h
      exact ⟨L, rfl, rfl⟩
    | mark a =>
      obtain ⟨c, s, hs⟩ := List.exists_cons_of_ne_nil (hne a)
      rw [text_mark, hs] at h
      obtain ⟨rfl, -⟩ := List.cons.inj h
      exact absurd (congrArg List.head? hs) (hb a)

theorem eq_bytes_append (hne : ∀ a, ρ a ≠ []) (hu : ∀ b ∈ u, ∀ a, (ρ a).head? ≠ some b)
    (h : text ρ L = u ++ v) : ∃ L', L = bytes u ++ L' ∧ text ρ L' = v := by
  induction u generalizing L with
  | nil => exact ⟨L, rfl, h⟩
  | cons b u ih =>
    obtain ⟨hb, hu⟩ := List.forall_mem_cons.mp hu
    obtain ⟨L', rfl, hL'⟩ := eq_byte_cons hne hb h
    obtain ⟨L'', rfl, hL''⟩ := ih hu hL'
    exact ⟨L'', rfl, hL''⟩

/-- A byte that no mark reads as divides the letters. -/
theorem eq_append_byte_cons (hb : ∀ a, b ∉ ρ a) (h : text ρ L = u ++ b :: v) :
    ∃ U V, L = U ++ byte b :: V ∧ text ρ U = u ∧ text ρ V = v := by
  induction L generalizing u with
  | nil => exact absurd h.symm (List.append_ne_nil_of_right_ne_nil u (List.cons_ne_nil b v))
  | cons l L ih =>
    cases l with
    | byte c =>
      rw [text_byte] at h
      cases u with
      | nil =>
        obtain ⟨rfl, rfl⟩ := List.cons.inj h
        exact ⟨[], L, rfl, rfl, rfl⟩
      | cons d u =>
        obtain ⟨rfl, htail⟩ := List.cons.inj h
        obtain ⟨U, V, rfl, rfl, rfl⟩ := ih htail
        exact ⟨byte c :: U, V, rfl, rfl, rfl⟩
    | mark a =>
      obtain ⟨w, rfl, hw⟩ := eq_append_of_not_mem (hb a) h
      obtain ⟨U, V, rfl, rfl, rfl⟩ := ih hw
      exact ⟨mark a :: U, V, rfl, text_mark, rfl⟩

theorem text_ne_nil (hne : ∀ a, ρ a ≠ []) (hL : L ≠ []) : text ρ L ≠ [] := by
  obtain ⟨l, L, rfl⟩ := List.exists_cons_of_ne_nil hL
  cases l with
  | byte b => exact List.cons_ne_nil b _
  | mark a => exact List.append_ne_nil_of_left_ne_nil (hne a) _

/-- Where letters are cut, the shorter reading belongs to the shorter cut. -/
theorem prefix_of_length_text_le {U V : List (Letter μ)} (hne : ∀ a, ρ a ≠ []) (hU : U <+: L)
    (hV : V <+: L) (hlen : (text ρ U).length ≤ (text ρ V).length) : U <+: V := by
  rcases List.prefix_or_prefix_of_prefix hU hV with h | h
  · exact h
  · obtain ⟨W, rfl⟩ := h
    rw [text_append, List.length_append] at hlen
    have hW : W = [] := by
      by_contra hW
      have hpos := List.length_pos_iff.mpr (text_ne_nil hne hW)
      omega
    rw [hW, List.append_nil]

end Text

/-! ## Matches -/

/-- A match in letters: its text and the letters of each group, the latest first. -/
structure Found (μ : Type) where
  text : List (Letter μ)
  caps : List (Nat × List (Letter μ))

def Found.group (G : Found μ) (n : Nat) : List (Letter μ) :=
  ((G.caps.find? fun c => c.1 = n).map Prod.snd).getD []

/-- A match in a reading is the reading of a match in letters. -/
structure Found.Read (ρ : μ → GoString) (G : Found μ) (m : Match) : Prop where
  text : m.text = Letter.text ρ G.text
  caps : m.caps = G.caps.map fun c => (c.1, Letter.text ρ c.2)

theorem Found.Read.group {ρ : μ → GoString} {G : Found μ} {m : Match} (h : G.Read ρ m) (n : Nat) :
    m.group n = Letter.text ρ (G.group n) := by
  rw [Match.group, Found.group, h.caps, List.find?_map]
  show _ = Letter.text ρ (((G.caps.find? fun c => c.1 = n).map Prod.snd).getD [])
  rw [show ((fun c : Nat × GoString => decide (c.1 = n)) ∘
    fun c : Nat × List (Letter μ) => (c.1, Letter.text ρ c.2)) = fun c => decide (c.1 = n) from rfl]
  cases G.caps.find? fun c => c.1 = n with
  | none => rfl
  | some c => rfl

/-- In the readings with `C` an expression matches at the front of letters in all or in
none, and what it matches are the readings of one match with `Q`. -/
def Aligned (re : Re) (C : (μ → GoString) → Prop) (Q : Found μ → Prop) (L : List (Letter μ)) :
    Prop :=
  (∀ ρ, C ρ → ∀ b, matchAt re ⟨b, text ρ L⟩ = none) ∨
    ∃ G R, L = G.text ++ R ∧ G.text ≠ [] ∧ Q G ∧ ∀ ρ, C ρ → ∀ b, ∃ m,
      matchAt re ⟨b, text ρ L⟩ = some m ∧ G.Read ρ m ∧ m.after.rest = text ρ R

/-- Letters as the matches of an expression divide them, in every reading with `C`. -/
structure Divides (re : Re) (C : (μ → GoString) → Prop) (Q : Found μ → Prop)
    (L : List (Letter μ)) (M : List (List (Letter μ) × Found μ)) (R : List (Letter μ)) : Prop where
  flat : L = M.flatMap (fun r => r.1 ++ r.2.text) ++ R
  found : ∀ r ∈ M, Q r.2
  read : ∀ ρ, C ρ → ∀ n b, (text ρ L).length ≤ n → ∃ ms,
    findAllN re n ⟨b, text ρ L⟩ = (ms, text ρ R) ∧
      List.Forall₂ (fun r m => m.1 = text ρ r.1 ∧ r.2.Read ρ m.2) M ms

theorem findFrom_cons_of_none {re : Re} {b : Option UInt8} {x : UInt8} {s : GoString}
    (h : matchAt re ⟨b, x :: s⟩ = none) :
    findFrom re b (x :: s) = (findFrom re (some x) s).map fun r => (x :: r.1, r.2) := by
  rw [findFrom, h]

theorem matchAt_eq_none_of_head {re : Re} {x y : UInt8}
    (hhead : ∀ u d, Consumes re u d → u.head? = some y) (hx : x ≠ y) {b : Option UInt8}
    {s : GoString} : matchAt re ⟨b, x :: s⟩ = none := by
  cases hm : matchAt re ⟨b, x :: s⟩ with
  | none => rfl
  | some m =>
    obtain ⟨hm, hrest⟩ := matchAt_spec hm
    obtain ⟨t, ht⟩ := List.head?_eq_some_iff.mp (hhead _ _ hm)
    rw [ht] at hrest
    exact absurd (List.cons.inj hrest).1 hx

section Matches

variable {re : Re} {C : (μ → GoString) → Prop} {Q : Found μ → Prop}

/-- No match starts in a mark. -/
theorem findFrom_letter (hmark : ∀ ρ, C ρ → ∀ a, ∀ x ∈ ρ a, ∀ b s, matchAt re ⟨b, x :: s⟩ = none)
    {l : Letter μ} {L : List (Letter μ)} {ρ : μ → GoString} (hρ : C ρ)
    (hnone : ∀ b, matchAt re ⟨b, text ρ (l :: L)⟩ = none) (b : Option UInt8) : ∃ b',
    findFrom re b (text ρ (l :: L)) =
      (findFrom re b' (text ρ L)).map fun r => (read ρ l ++ r.1, r.2) := by
  cases l with
  | byte x => exact ⟨some x, findFrom_cons_of_none (hnone b)⟩
  | mark a =>
    have hskip : ∀ (w : GoString) (b : Option UInt8), (∀ x ∈ w, x ∈ ρ a) → ∃ b',
        findFrom re b (w ++ text ρ L) =
          (findFrom re b' (text ρ L)).map fun r => (w ++ r.1, r.2) := by
      intro w
      induction w with
      | nil => exact fun b _ => ⟨b, by simp⟩
      | cons x w ih =>
        intro b hw
        obtain ⟨hx, hw⟩ := List.forall_mem_cons.mp hw
        obtain ⟨b', hb'⟩ := ih (some x) hw
        refine ⟨b', ?_⟩
        rw [List.cons_append, findFrom_cons_of_none (hmark ρ hρ a x hx b _), hb', Option.map_map]
        rfl
    exact hskip (ρ a) b fun x hx => hx

theorem findFrom_aligned
    (hmark : ∀ ρ, C ρ → ∀ a, ∀ x ∈ ρ a, ∀ b s, matchAt re ⟨b, x :: s⟩ = none)
    (hat : ∀ L, Aligned re C Q L) (L : List (Letter μ)) :
    (∀ ρ, C ρ → ∀ b, findFrom re b (text ρ L) = none) ∨
      ∃ P G R, L = P ++ (G.text ++ R) ∧ G.text ≠ [] ∧ Q G ∧ ∀ ρ, C ρ → ∀ b, ∃ m,
        findFrom re b (text ρ L) = some (text ρ P, m) ∧ G.Read ρ m ∧ m.after.rest = text ρ R := by
  induction L with
  | nil =>
    rcases hat [] with hnone | ⟨G, R, hL, hG, -⟩
    · refine .inl fun ρ hρ b => ?_
      rw [text_nil, findFrom, show matchAt re ⟨b, []⟩ = none from hnone ρ hρ b]
    · exact absurd (List.append_eq_nil_iff.mp hL.symm).1 hG
  | cons l L ih =>
    rcases hat (l :: L) with hnone | ⟨G, R, hL, hG, hQ, hread⟩
    · have hstep := fun ρ (hρ : C ρ) b => findFrom_letter hmark hρ (hnone ρ hρ) b
      rcases ih with htail | ⟨P, G, R, rfl, hG, hQ, hread⟩
      · refine .inl fun ρ hρ b => ?_
        obtain ⟨b', hb'⟩ := hstep ρ hρ b
        rw [hb', htail ρ hρ b', Option.map_none]
      · refine .inr ⟨l :: P, G, R, rfl, hG, hQ, fun ρ hρ b => ?_⟩
        obtain ⟨b', hb'⟩ := hstep ρ hρ b
        obtain ⟨m, hm, hrest⟩ := hread ρ hρ b'
        refine ⟨m, ?_, hrest⟩
        rw [hb', hm, Option.map_some]
        rfl
    · refine .inr ⟨[], G, R, hL, hG, hQ, fun ρ hρ b => ?_⟩
      obtain ⟨m, hm, hrest⟩ := hread ρ hρ b
      refine ⟨m, ?_, hrest⟩
      unfold findFrom
      rw [hm]
      rfl

theorem exists_divides (hne : ∀ ρ, C ρ → ∀ a, ρ a ≠ [])
    (hmark : ∀ ρ, C ρ → ∀ a, ∀ x ∈ ρ a, ∀ b s, matchAt re ⟨b, x :: s⟩ = none)
    (hat : ∀ L, Aligned re C Q L) (L : List (Letter μ)) : ∃ M R, Divides re C Q L M R := by
  induction hN : L.length using Nat.strong_induction_on generalizing L with
  | _ N ih =>
    rcases findFrom_aligned hmark hat L with hnone | ⟨P, G, R, hL, hG, hQ, hread⟩
    · refine ⟨[], L, rfl, nofun, fun ρ hρ n b _ => ⟨[], ?_, .nil⟩⟩
      cases n with
      | zero => rfl
      | succ n => rw [findAllN, hnone ρ hρ b]
    · have hpos := List.length_pos_iff.mpr hG
      have hlen : R.length < N := by
        rw [← hN, hL, List.length_append, List.length_append]
        omega
      obtain ⟨M, R', hM⟩ := ih R.length hlen R rfl
      refine ⟨(P, G) :: M, R', ?_, List.forall_mem_cons.mpr ⟨hQ, hM.found⟩, fun ρ hρ n b hn => ?_⟩
      · rw [hL, List.flatMap_cons, List.append_assoc, List.append_assoc, ← hM.flat]
      have htext := List.length_pos_iff.mpr (text_ne_nil (hne ρ hρ) hG)
      have hlong : (text ρ R).length < (text ρ L).length := by
        rw [hL, text_append, text_append, List.length_append, List.length_append]
        omega
      cases n with
      | zero => omega
      | succ n =>
        obtain ⟨m, hm, hG, hrest⟩ := hread ρ hρ b
        obtain ⟨ms, hms, hall⟩ := hM.read ρ hρ n m.after.before (by omega)
        refine ⟨(text ρ P, m) :: ms, ?_, .cons ⟨rfl, hG⟩ hall⟩
        rw [← hrest] at hms
        rw [findAllN, hm]
        show ((text ρ P, m) :: (findAllN re n m.after).1, (findAllN re n m.after).2) = _
        rw [hms]

theorem Divides.flatMap_eq {β : Type} {L R : List (Letter μ)} {M : List (List (Letter μ) × Found μ)}
    (h : Divides re C Q L M R) {ρ : μ → GoString} (hρ : C ρ) {f : GoString × Match → List β}
    {F : List (Letter μ) × Found μ → List β}
    (hf : ∀ r m, Q r.2 → m.1 = text ρ r.1 → r.2.Read ρ m.2 → f m = F r) :
    (findAllN re (text ρ L).length ⟨none, text ρ L⟩).1.flatMap f = M.flatMap F := by
  obtain ⟨ms, hms, hall⟩ := h.read ρ hρ _ none le_rfl
  have hfound := h.found
  rw [hms]
  clear hms h
  induction hall with
  | nil => rfl
  | cons hm _ ih =>
    obtain ⟨hQ, hfound⟩ := List.forall_mem_cons.mp hfound
    rw [List.flatMap_cons, List.flatMap_cons, hf _ _ hQ hm.1 hm.2, ih hfound]

end Matches

/-- Where the readings of a mark are cut at no match, letters have a match or none by
what they are: its text and groups are the letters that any reading shows. -/
theorem aligned_of_shape {re : Re} {C : (μ → GoString) → Prop} {Q : Found μ → Prop}
    (shape : Found μ → List (Letter μ) → Prop)
    (hparse : ∀ ρ, C ρ → ∀ L b m, matchAt re ⟨b, text ρ L⟩ = some m →
      ∃ G R, L = G.text ++ R ∧ shape G R)
    (hshow : ∀ ρ, C ρ → ∀ G R, shape G R → ∀ b, ∃ m,
      matchAt re ⟨b, text ρ (G.text ++ R)⟩ = some m ∧ G.Read ρ m ∧ m.after.rest = text ρ R)
    (hgood : ∀ G R, shape G R → G.text ≠ [] ∧ Q G) (L : List (Letter μ)) : Aligned re C Q L := by
  by_cases hL : ∃ G R, L = G.text ++ R ∧ shape G R
  · obtain ⟨G, R, rfl, hshape⟩ := hL
    exact .inr ⟨G, R, rfl, (hgood G R hshape).1, (hgood G R hshape).2,
      fun ρ hρ b => hshow ρ hρ G R hshape b⟩
  · refine .inl fun ρ hρ b => ?_
    cases hm : matchAt re ⟨b, text ρ L⟩ with
    | none => rfl
    | some m => exact absurd (hparse ρ hρ L b m hm) hL

section Between

variable (D : GoString)

/-- What stands between two delimiters, in letters. -/
def Found.between (g : List (Letter μ)) : Found μ := ⟨bytes D ++ (g ++ bytes D), [(1, g)]⟩

/-- An expression for what stands between two delimiters, each the repeated byte that
the text between them is without. -/
theorem aligned_between {C : (μ → GoString) → Prop} {x : UInt8} {n : Nat}
    (hD : D = x :: List.replicate n x) (hne : ∀ ρ, C ρ → ∀ a, ρ a ≠ [])
    (hx : ∀ ρ, C ρ → ∀ a, x ∉ ρ a) (L : List (Letter μ)) :
    Aligned (all [lit D, group 1 (many1 (noneOf [x])), lit D]) C
      (fun G => ∃ g, G = Found.between D g) L := by
  have hplain : Plain (all [lit D, group 1 (many1 (noneOf [x])), lit D]) :=
    ⟨plain_lit D, ⟨trivial, trivial⟩, plain_lit D, trivial⟩
  have hhead : ∀ ρ, C ρ → ∀ b ∈ D, ∀ a, (ρ a).head? ≠ some b := by
    intro ρ hρ b hb a ha
    rw [hD, ← List.replicate_succ] at hb
    rw [List.eq_of_mem_replicate hb] at ha
    exact hx ρ hρ a (List.mem_of_mem_head? ha)
  refine aligned_of_shape
    (fun G _ => ∃ g, g ≠ [] ∧ byte x ∉ g ∧ G = Found.between D g)
    (fun ρ hρ L b m hm => ?_) (fun ρ hρ G R hG b => ?_) (fun G R hG => ?_) L
  · obtain ⟨hm, hrest⟩ := matchAt_spec hm
    obtain ⟨g, htext, hg, hgx, -⟩ := consumes_between.mp hm
    rw [htext, List.append_assoc, List.append_assoc] at hrest
    obtain ⟨L, rfl, hL⟩ := eq_bytes_append (hne ρ hρ) (hhead ρ hρ) hrest
    have hclose : D ++ m.after.rest = x :: (List.replicate n x ++ m.after.rest) := by
      rw [hD, List.cons_append]
    rw [hclose] at hL
    obtain ⟨U, V, rfl, rfl, hV⟩ := eq_append_byte_cons (hx ρ hρ) hL
    obtain ⟨R, rfl, -⟩ := eq_bytes_append (hne ρ hρ) (fun b hb => hhead ρ hρ b (by
      rw [hD]
      exact List.mem_cons_of_mem x hb)) hV
    refine ⟨Found.between D U, R, ?_, U, ?_, ?_, rfl⟩
    · rw [Found.between, List.append_assoc, List.append_assoc, hD]
      rfl
    · rintro rfl
      exact hg rfl
    · exact byte_not_mem (hgx x List.mem_cons_self)
  · obtain ⟨g, hg, hgx, rfl⟩ := hG
    have hgtext : x ∉ text ρ g := not_mem_text (hx ρ hρ) hgx
    have hconsumes : Consumes (all [lit D, group 1 (many1 (noneOf [x])), lit D])
        (D ++ (text ρ g ++ D)) [(1, text ρ g)] := consumes_between.mpr
      ⟨text ρ g, rfl, text_ne_nil (hne ρ hρ) hg, List.forall_mem_singleton.mpr hgtext, rfl⟩
    obtain ⟨m, hm⟩ := Option.isSome_iff_exists.mp
      (isSome_matchAt hplain hconsumes (r := text ρ R) b)
    have htext : text ρ ((Found.between D g).text ++ R) = D ++ (text ρ g ++ D) ++ text ρ R := by
      rw [text_append, Found.between, text_append, text_append, text_bytes]
    rw [htext]
    obtain ⟨hmatch, hrest⟩ := matchAt_spec hm
    obtain ⟨g', hm', -, hgx', hcaps⟩ := consumes_between.mp hmatch
    have hrest : D ++ (text ρ g ++ D) ++ text ρ R = m.text ++ m.after.rest := hrest
    have heq : text ρ g ++ (D ++ text ρ R) = g' ++ (D ++ m.after.rest) := by
      rw [hm'] at hrest
      simpa only [List.append_assoc, List.append_cancel_left_eq] using hrest
    rw [hD, List.cons_append, List.cons_append] at heq
    obtain ⟨rfl, hrest⟩ := eq_of_append_cons_eq hgtext (hgx' x List.mem_cons_self) heq
    refine ⟨m, hm, ⟨?_, hcaps⟩, (List.append_cancel_left hrest).symm⟩
    rw [hm', Found.between, text_append, text_append, text_bytes]
  · obtain ⟨g, hg, -, rfl⟩ := hG
    refine ⟨?_, g, rfl⟩
    rw [Found.between, hD]
    exact List.cons_ne_nil _ _

end Between

end Letter

/-! ## Parts -/

/-- The parts of a text that a rewrite keeps, each with what is replaced behind it. -/
abbrev Parts (α : Type) := List (List α × List α)

def parts (re : Re) (cut : GoString × Match → Parts UInt8) (s : GoString) : Parts UInt8 :=
  (findAllN re s.length ⟨none, s⟩).1.flatMap cut

/-- What follows the last match. -/
def lastPart (re : Re) (s : GoString) : GoString := (findAllN re s.length ⟨none, s⟩).2

/-- `w` behind `x` stands in one of the parts that are kept. -/
def Within {α : Type} : Parts α → List α → List α → List α → Prop
  | [], last, x, w => x ++ w <+: last
  | p :: ps, last, x, w =>
    x ++ w <+: p.1 ∨ p.1 ++ p.2 <+: x ∧ Within ps last (x.drop (p.1 ++ p.2).length) w

/-- From where to where the replaced parts go, behind `n` letters. -/
def gaps {α : Type} : Nat → Parts α → List (Nat × Nat)
  | _, [] => []
  | n, p :: ps =>
    (n + p.1.length, n + (p.1 ++ p.2).length) :: gaps (n + (p.1 ++ p.2).length) ps

section Within

variable {α : Type} {p : List α × List α} {ps : Parts α} {last x w : List α}

def whole (ps : Parts α) (last : List α) : List α := ps.flatMap (fun p => p.1 ++ p.2) ++ last

theorem whole_cons : whole (p :: ps) last = p.1 ++ p.2 ++ whole ps last := by
  rw [whole, whole, List.flatMap_cons, List.append_assoc]

theorem within_cons : Within (p :: ps) last x w ↔
    x ++ w <+: p.1 ∨ ∃ y, x = p.1 ++ p.2 ++ y ∧ Within ps last y w := by
  refine or_congr_right ⟨fun h => ?_, fun h => ?_⟩
  · obtain ⟨⟨y, rfl⟩, hw⟩ := h
    rw [List.drop_left] at hw
    exact ⟨y, rfl, hw⟩
  · obtain ⟨y, rfl, hw⟩ := h
    rw [List.drop_left]
    exact ⟨List.prefix_append _ y, hw⟩

theorem Within.prefix_whole (h : Within ps last x w) : x ++ w <+: whole ps last := by
  induction ps generalizing x with
  | nil => exact h
  | cons p ps ih =>
    rw [whole_cons]
    rcases within_cons.mp h with hp | ⟨y, rfl, hy⟩
    · exact (hp.trans (List.prefix_append _ p.2)).trans (List.prefix_append _ _)
    · rw [List.append_assoc]
      exact (List.prefix_append_right_inj _).mpr (ih hy)

/-- What is in a part that is kept is there behind some text. -/
theorem exists_within_iff :
    (∃ x, Within ps last x w) ↔ (∃ p ∈ ps, w <:+: p.1) ∨ w <:+: last := by
  induction ps with
  | nil =>
    refine ⟨fun h => ?_, fun h => ?_⟩
    · obtain ⟨x, y, hy⟩ := h
      exact .inr ⟨x, y, hy⟩
    · obtain ⟨p, hp, -⟩ | ⟨x, y, hy⟩ := h
      · exact absurd hp List.not_mem_nil
      · exact ⟨x, y, hy⟩
  | cons p ps ih =>
    simp only [within_cons, exists_or, List.mem_cons, or_and_right, exists_eq_left, or_assoc]
    refine or_congr ⟨fun h => ?_, fun h => ?_⟩ ?_
    · obtain ⟨x, y, hy⟩ := h
      exact ⟨x, y, hy⟩
    · obtain ⟨x, y, hy⟩ := h
      exact ⟨x, y, hy⟩
    · rw [← ih]
      refine ⟨fun h => ?_, fun h => ?_⟩
      · obtain ⟨_, y, -, hy⟩ := h
        exact ⟨y, hy⟩
      · obtain ⟨y, hy⟩ := h
        exact ⟨_, y, rfl, hy⟩

theorem le_of_mem_gaps {n : Nat} {g : Nat × Nat} (h : g ∈ gaps n ps) : n ≤ g.1 := by
  induction ps generalizing n with
  | nil => cases h
  | cons p ps ih =>
    rw [gaps, List.mem_cons] at h
    rcases h with rfl | h
    · exact Nat.le_add_right _ _
    · exact (Nat.le_add_right _ _).trans (ih h)

end Within

namespace Letter

variable {μ : Type}

/-- The parts of a reading. -/
def textParts (ρ : μ → GoString) (ps : Parts (Letter μ)) : Parts UInt8 :=
  ps.map fun p => (text ρ p.1, text ρ p.2)

theorem textParts_flatMap {β : Type} {ρ : μ → GoString} {M : List β} {F : β → Parts (Letter μ)} :
    textParts ρ (M.flatMap F) = M.flatMap fun r => textParts ρ (F r) := List.map_flatMap

section Divides

variable {re : Re} {C : (μ → GoString) → Prop} {Q : Found μ → Prop} {L R : List (Letter μ)}
  {M : List (List (Letter μ) × Found μ)} (h : Divides re C Q L M R) {ρ : μ → GoString} (hρ : C ρ)
include h hρ

theorem Divides.lastPart_eq : lastPart re (text ρ L) = text ρ R := by
  obtain ⟨ms, hms, -⟩ := h.read ρ hρ _ none le_rfl
  exact congrArg Prod.snd hms

/-- The parts of a reading are the reading of parts in letters. -/
theorem Divides.parts_eq {cut : GoString × Match → Parts UInt8}
    {F : List (Letter μ) × Found μ → Parts (Letter μ)}
    (hcut : ∀ r m, Q r.2 → m.1 = text ρ r.1 → r.2.Read ρ m.2 → cut m = textParts ρ (F r)) :
    parts re cut (text ρ L) = textParts ρ (M.flatMap F) := by
  rw [textParts_flatMap]
  exact h.flatMap_eq hρ hcut

/-- What replaces the matches in a reading is read off letters. -/
theorem Divides.replaceAll_eq {f : Match → GoString}
    {F : List (Letter μ) × Found μ → List (Letter μ)}
    (hf : ∀ r m, Q r.2 → r.2.Read ρ m → text ρ (F r) = text ρ r.1 ++ f m) :
    replaceAll re f (text ρ L) = text ρ (M.flatMap F ++ R) := by
  have hlast : (findAllN re (text ρ L).length ⟨none, text ρ L⟩).2 = text ρ R := h.lastPart_eq hρ
  have hF : text ρ (M.flatMap F) = M.flatMap fun r => text ρ (F r) := List.flatMap_assoc
  rw [replaceAll, text_append, hF, ← hlast]
  refine congrArg (· ++ _) (h.flatMap_eq hρ fun r m hQ hpre hread => ?_)
  rw [hpre]
  exact (hf r m.2 hQ hread).symm

end Divides

/-! ## Rewrites in letters -/

/-- Letters cut behind the first that read as `n` bytes. -/
def cut (ρ : μ → GoString) : Nat → List (Letter μ) → List (Letter μ) × List (Letter μ)
  | 0, L => ([], L)
  | _ + 1, [] => ([], [])
  | n + 1, l :: L =>
    let r := cut ρ (n + 1 - (read ρ l).length) L
    (l :: r.1, r.2)

/-- The letters of `k` bytes behind the first `n`. -/
def slice (ρ : μ → GoString) (n k : Nat) (L : List (Letter μ)) : List (Letter μ) :=
  (cut ρ k (cut ρ n L).2).1

/-- A match with its letters and those in front of it. -/
structure Place (μ : Type) where
  before : List (Letter μ)
  found : Match
  text : List (Letter μ)

def locate (ρ : μ → GoString) :
    List (GoString × Match) → List (Letter μ) → List (Place μ) × List (Letter μ)
  | [], L => ([], L)
  | (pre, m) :: ms, L =>
    let before := cut ρ pre.length L
    let text := cut ρ m.text.length before.2
    let r := locate ρ ms text.2
    (⟨before.1, m, text.1⟩ :: r.1, r.2)

/-- What an expression finds in the reading of letters, and the letters behind. -/
def findLetters (ρ : μ → GoString) (re : Re) (L : List (Letter μ)) :
    List (Place μ) × List (Letter μ) :=
  locate ρ (findAllN re (text ρ L).length ⟨none, text ρ L⟩).1 L

section Rewrites

variable {ρ : μ → GoString} (hne : ∀ a, ρ a ≠ [])
include hne

theorem cut_append (U V : List (Letter μ)) : cut ρ (text ρ U).length (U ++ V) = (U, V) := by
  induction U with
  | nil => cases V <;> rfl
  | cons l U ih =>
    have hpos : 0 < (read ρ l).length := by
      cases l with
      | byte b => exact Nat.one_pos
      | mark a => exact List.length_pos_iff.mpr (hne a)
    have hlen : (text ρ (l :: U)).length = (read ρ l).length + (text ρ U).length := by
      show (read ρ l ++ text ρ U).length = _
      rw [List.length_append]
    obtain ⟨n, hn⟩ := Nat.exists_eq_add_one_of_ne_zero
      (show (text ρ (l :: U)).length ≠ 0 by omega)
    have hrest : n + 1 - (read ρ l).length = (text ρ U).length := by omega
    rw [hn, List.cons_append, cut, hrest, ih]

theorem slice_append (U V W : List (Letter μ)) :
    slice ρ (text ρ U).length (text ρ V).length (U ++ (V ++ W)) = V := by
  rw [slice, cut_append hne, cut_append hne]

/-- The matches that divide letters are found in them. -/
theorem Divides.findLetters_eq {re : Re} {C : (μ → GoString) → Prop} {Q : Found μ → Prop}
    {L R : List (Letter μ)} {M : List (List (Letter μ) × Found μ)} (h : Divides re C Q L M R)
    (hρ : C ρ) {f : Place μ → List (Letter μ)} {F : List (Letter μ) × Found μ → List (Letter μ)}
    (hf : ∀ r m, Q r.2 → r.2.Read ρ m → f ⟨r.1, m, r.2.text⟩ = F r) :
    (findLetters ρ re L).1.flatMap f = M.flatMap F ∧ (findLetters ρ re L).2 = R := by
  obtain ⟨ms, hms, hall⟩ := h.read ρ hρ _ none le_rfl
  have hfound := h.found
  rw [findLetters, hms, h.flat]
  clear hms h
  induction hall with
  | nil => exact ⟨rfl, rfl⟩
  | @cons r m M ms hm _ ih =>
    obtain ⟨pre, m⟩ := m
    obtain ⟨hpre, hread⟩ := hm
    obtain ⟨hQ, hfound⟩ := List.forall_mem_cons.mp hfound
    obtain ⟨hmatches, hrest⟩ := ih hfound
    have hpre : pre = text ρ r.1 := hpre
    have hread : r.2.Read ρ m := hread
    have hlocate : locate ρ ((pre, m) :: ms)
        ((r :: M).flatMap (fun r => r.1 ++ r.2.text) ++ R) =
          (⟨r.1, m, r.2.text⟩ :: (locate ρ ms (M.flatMap (fun r => r.1 ++ r.2.text) ++ R)).1,
            (locate ρ ms (M.flatMap (fun r => r.1 ++ r.2.text) ++ R)).2) := by
      rw [List.flatMap_cons, List.append_assoc, List.append_assoc, locate, hpre, cut_append hne,
        hread.text, cut_append hne]
    rw [hlocate]
    refine ⟨?_, hrest⟩
    rw [List.flatMap_cons, List.flatMap_cons, hf r m hQ hread, hmatches]

end Rewrites

/-- Letters stand in a part that is kept where their reading meets no part that is replaced. -/
theorem within_iff_gaps {ρ : μ → GoString} (hne : ∀ a, ρ a ≠ []) {ps : Parts (Letter μ)}
    {R A P : List (Letter μ)} (h : A ++ P <+: whole ps R) (n : Nat) :
    Within ps R A P ↔ ∀ g ∈ gaps n (textParts ρ ps),
      n + (text ρ (A ++ P)).length ≤ g.1 ∨ g.2 ≤ n + (text ρ A).length := by
  induction ps generalizing A n with
  | nil => exact ⟨fun _ g hg => absurd hg List.not_mem_nil, fun _ => h⟩
  | cons p ps ih =>
    have hgaps : gaps n (textParts ρ (p :: ps)) = (n + (text ρ p.1).length,
        n + (text ρ (p.1 ++ p.2)).length) ::
          gaps (n + (text ρ (p.1 ++ p.2)).length) (textParts ρ ps) := by
      rw [text_append]
      rfl
    have hfit : ∀ {U V : List (Letter μ)}, U <+: whole (p :: ps) R → V <+: whole (p :: ps) R →
        (U <+: V ↔ (text ρ U).length ≤ (text ρ V).length) := by
      intro U V hU hV
      refine ⟨fun hpre => ?_, prefix_of_length_text_le hne hU hV⟩
      obtain ⟨W, rfl⟩ := hpre
      rw [text_append, List.length_append]
      exact Nat.le_add_right _ _
    have hboth : p.1 ++ p.2 <+: whole (p :: ps) R := by
      rw [whole_cons]
      exact List.prefix_append _ _
    have hleft : p.1 <+: whole (p :: ps) R := (List.prefix_append _ _).trans hboth
    have hA : A <+: whole (p :: ps) R := (List.prefix_append A P).trans h
    rw [hgaps, List.forall_mem_cons]
    show A ++ P <+: p.1 ∨ p.1 ++ p.2 <+: A ∧ _ ↔ (_ ≤ _ ∨ _ ≤ _) ∧ _
    rw [Nat.add_le_add_iff_left, Nat.add_le_add_iff_left, hfit h hleft, hfit hboth hA]
    constructor
    · rintro (hin | ⟨hbehind, hwithin⟩)
      · refine ⟨.inl hin, fun g hg => .inl ?_⟩
        have hstart := le_of_mem_gaps hg
        rw [text_append] at hstart
        rw [List.length_append] at hstart
        omega
      · obtain ⟨B, rfl⟩ := (hfit hboth hA).mpr hbehind
        rw [List.drop_left] at hwithin
        rw [whole_cons, List.append_assoc, List.prefix_append_right_inj] at h
        refine ⟨.inr hbehind, fun g hg => ?_⟩
        have hg := (ih h (n + (text ρ (p.1 ++ p.2)).length)).mp hwithin g hg
        rwa [List.append_assoc, text_append (L := p.1 ++ p.2), text_append (L := p.1 ++ p.2),
          List.length_append, List.length_append, ← Nat.add_assoc, ← Nat.add_assoc]
    · rintro ⟨hin | hbehind, hlater⟩
      · exact .inl hin
      · obtain ⟨B, rfl⟩ := (hfit hboth hA).mpr hbehind
        rw [whole_cons, List.append_assoc, List.prefix_append_right_inj] at h
        refine .inr ⟨hbehind, ?_⟩
        rw [List.drop_left]
        refine (ih h (n + (text ρ (p.1 ++ p.2)).length)).mpr fun g hg => ?_
        have hg := hlater g hg
        rwa [List.append_assoc, text_append (L := p.1 ++ p.2), text_append (L := p.1 ++ p.2),
          List.length_append, List.length_append, ← Nat.add_assoc, ← Nat.add_assoc] at hg

/-- What stands in a part that is kept, by the reading. -/
theorem within_iff {ρ : μ → GoString} (hne : ∀ a, ρ a ≠ []) {ps : Parts (Letter μ)}
    {R A P : List (Letter μ)} : Within ps R A P ↔ A ++ P <+: whole ps R ∧
      ∀ g ∈ gaps 0 (textParts ρ ps),
        (text ρ (A ++ P)).length ≤ g.1 ∨ g.2 ≤ (text ρ A).length := by
  have hgaps := fun h : A ++ P <+: whole ps R => within_iff_gaps hne h 0
  simp only [Nat.zero_add] at hgaps
  exact ⟨fun h => ⟨h.prefix_whole, (hgaps h.prefix_whole).mp h⟩, fun h => (hgaps h.1).mpr h.2⟩

section Marked

variable (T : List (List (Letter μ) × μ × List (Letter μ))) (R : List (Letter μ))

/-- Letters with the replaced parts as they are, and with a mark for each. -/
def unmarked : Parts (Letter μ) := T.map fun t => (t.1, t.2.2)
def marked : List (Letter μ) := T.flatMap (fun t => t.1 ++ [mark t.2.1]) ++ R

variable {T R} {ρ σ : μ → GoString} {P : List (Letter μ)} {x : GoString}

theorem text_marked : text ρ (marked T R) =
    T.flatMap (fun t => text ρ t.1 ++ ρ t.2.1) ++ text ρ R := by
  rw [marked, text_append, text, List.flatMap_assoc]
  congr 2
  funext t
  show text ρ (t.1 ++ [mark t.2.1]) = _
  rw [text_append, text_mark, text_nil, List.append_nil]

theorem text_whole {ps : Parts (Letter μ)} : text ρ (whole ps R) =
    ps.flatMap (fun p => text ρ p.1 ++ text ρ p.2) ++ text ρ R := by
  rw [whole, text_append, text, List.flatMap_assoc]
  congr 2
  funext p
  exact text_append

theorem text_marked_eq (hT : ∀ t ∈ T, text σ t.2.2 = ρ t.2.1)
    (hread : ∀ a, mark a ∈ whole (unmarked T) R → ρ a = σ a) :
    text ρ (marked T R) = text σ (whole (unmarked T) R) := by
  rw [← text_congr hread, text_whole, text_marked, unmarked, List.flatMap_map]
  refine congrArg (· ++ _) (List.flatMap_congr fun t ht => ?_)
  have hpart : text ρ t.2.2 = text σ t.2.2 := text_congr fun a ha => hread a <| by
    refine List.mem_append_left _ (List.mem_flatMap.mpr ⟨_, List.mem_map_of_mem ht, ?_⟩)
    exact List.mem_append_right _ ha
  rw [← hT t ht, hpart]

/-- Letters without the new marks stand behind the same text before and behind the
marking, before it in a part that is kept. -/
theorem exists_prefix_marked_iff (hT : ∀ t ∈ T, mark t.2.1 ∉ P ∧ text σ t.2.2 = ρ t.2.1)
    (hread : ∀ a, mark a ∈ whole (unmarked T) R → ρ a = σ a) :
    (∃ A, text ρ A = x ∧ A ++ P <+: marked T R) ↔
      ∃ A, text σ A = x ∧ Within (unmarked T) R A P := by
  have hsame : ∀ {L A : List (Letter μ)}, (∀ a, mark a ∈ L → ρ a = σ a) → A ++ P <+: L →
      text ρ A = text σ A := fun hL hA => text_congr fun a ha =>
    hL a (hA.subset (List.mem_append_left P ha))
  induction T generalizing x with
  | nil =>
    refine exists_congr fun A => and_congr_left fun hA => ?_
    rw [hsame hread hA]
  | cons t T ih =>
    obtain ⟨⟨hmark, hmarked⟩, hT⟩ := List.forall_mem_cons.mp hT
    have hwhole : whole (unmarked (t :: T)) R = t.1 ++ t.2.2 ++ whole (unmarked T) R := whole_cons
    have hmarkedT : marked (t :: T) R = t.1 ++ mark t.2.1 :: marked T R := by
      rw [marked, marked, List.flatMap_cons, List.append_assoc, List.append_assoc]
      rfl
    rw [hwhole] at hread
    have hk : ∀ a, mark a ∈ t.1 → ρ a = σ a := fun a ha =>
      hread a (List.mem_append_left _ (List.mem_append_left _ ha))
    have ih := fun x => ih (x := x) hT fun a ha => hread a (List.mem_append_right _ ha)
    rw [hmarkedT]
    constructor
    · intro h
      obtain ⟨A, rfl, z, hz⟩ := h
      rw [List.append_assoc] at hz
      rcases List.append_eq_append_iff.mp hz with ⟨w, hw, hP⟩ | ⟨w, rfl, hw⟩
      · obtain ⟨w', rfl, -⟩ := eq_append_of_not_mem hmark hP
        have hpre : A ++ P <+: t.1 := ⟨w', by rw [hw, List.append_assoc]⟩
        exact ⟨A, (hsame hk hpre).symm, within_cons.mpr (.inl hpre)⟩
      · cases w with
        | nil =>
          obtain ⟨w', hw', -⟩ := eq_append_of_not_mem (u := []) hmark hw.symm
          rw [(List.append_eq_nil_iff.mp hw'.symm).1, List.append_nil]
          exact ⟨t.1, (text_congr hk).symm, within_cons.mpr (.inl (by rw [List.append_nil]))⟩
        | cons l w =>
          obtain ⟨rfl, hrest⟩ := List.cons.inj hw
          rw [List.append_eq, ← List.append_assoc] at hrest
          obtain ⟨B, hB, hin⟩ := (ih _).mp ⟨w, rfl, z, hrest.symm⟩
          refine ⟨t.1 ++ t.2.2 ++ B, ?_, within_cons.mpr (.inr ⟨B, rfl, hin⟩)⟩
          rw [text_append, text_append, text_append, text_mark, hB, hmarked, text_congr hk,
            List.append_assoc]
    · intro h
      obtain ⟨A, rfl, hA⟩ := h
      rcases within_cons.mp hA with hA | ⟨B, rfl, hB⟩
      · exact ⟨A, hsame hk hA, hA.trans (List.prefix_append _ _)⟩
      · obtain ⟨B', hB', hpre⟩ := (ih _).mpr ⟨B, rfl, hB⟩
        refine ⟨t.1 ++ mark t.2.1 :: B', ?_, ?_⟩
        · rw [text_append, text_append, text_append, text_mark, hB', hmarked, text_congr hk,
            List.append_assoc]
        · rw [List.append_assoc, List.cons_append, List.prefix_append_right_inj,
            List.cons_prefix_cons]
          exact ⟨rfl, hpre⟩

end Marked

end Letter

end Go
