import TrainingPlatform.Go.Scan
import Mathlib.Logic.Function.Basic

/-!
# Texts with holes

A text with numbered holes, and what replacing the first occurrence of a pattern does to it.
A pattern that can lie in the text alone is replaced there, whatever fills the holes; one
that can lie in a filling alone is replaced at the first hole whose filling has it.
-/

namespace Go

/-! ## The first occurrence -/

/-- What stands before and behind the first occurrence of a pattern. -/
def cutFirst (old : GoString) : GoString → Option (GoString × GoString)
  | [] => if old = [] then some ([], []) else none
  | b :: s =>
    if old.isPrefixOf (b :: s) then some ([], (b :: s).drop old.length)
    else (cutFirst old s).map fun r => (b :: r.1, r.2)

theorem not_infix_of_cutFirst {old s : GoString} (h : cutFirst old s = none) : ¬ old <:+: s := by
  induction s with
  | nil =>
    rw [cutFirst] at h
    split_ifs at h with hold
    exact fun hin => hold (List.infix_nil.mp hin)
  | cons b s ih =>
    rw [cutFirst] at h
    split_ifs at h with hpre
    rw [Option.map_eq_none_iff] at h
    rw [List.infix_cons_iff, not_or, ← List.isPrefixOf_iff_prefix]
    exact ⟨hpre, ih h⟩

theorem eq_of_cutFirst {old s u v : GoString} (h : cutFirst old s = some (u, v)) :
    s = u ++ (old ++ v) := by
  induction s generalizing u with
  | nil =>
    rw [cutFirst] at h
    split_ifs at h with hold
    cases h
    rw [hold]
    rfl
  | cons b s ih =>
    rw [cutFirst] at h
    split_ifs at h with hpre
    · cases h
      obtain ⟨v, hv⟩ := List.isPrefixOf_iff_prefix.mp hpre
      rw [← hv, List.drop_left]
      rfl
    · obtain ⟨⟨u', v'⟩, hcut, heq⟩ := Option.map_eq_some_iff.mp h
      cases heq
      rw [ih hcut]
      rfl

theorem replaceFirst_of_cutFirst {old s u v : GoString} (h : cutFirst old s = some (u, v))
    (new t : GoString) : replaceFirst old new (s ++ t) = u ++ (new ++ (v ++ t)) := by
  induction s generalizing u with
  | nil =>
    rw [cutFirst] at h
    split_ifs at h with hold
    cases h
    subst hold
    cases t with
    | nil => simp [replaceFirst]
    | cons b t => rfl
  | cons b s ih =>
    rw [cutFirst] at h
    rw [List.cons_append, replaceFirst]
    split_ifs at h with hpre
    · cases h
      have hle := List.isPrefixOf_iff_prefix.mp hpre
      have hlong := List.isPrefixOf_iff_prefix.mpr (hle.trans (List.prefix_append (b :: s) t))
      rw [List.cons_append] at hlong
      rw [if_pos hlong, ← List.cons_append, List.drop_append_of_le_length hle.length_le]
      rfl
    · obtain ⟨⟨u', v'⟩, hcut, heq⟩ := Option.map_eq_some_iff.mp h
      cases heq
      have hlong : old.length ≤ (b :: s).length := by
        rw [eq_of_cutFirst hcut]
        simp only [List.length_cons, List.length_append]
        omega
      have hnot : ¬ old.isPrefixOf (b :: (s ++ t)) = true := by
        intro hyes
        refine hpre (List.isPrefixOf_iff_prefix.mpr ?_)
        exact List.prefix_of_prefix_length_le (List.isPrefixOf_iff_prefix.mp hyes)
          (List.prefix_append (b :: s) t) hlong
      rw [if_neg hnot, ih hcut]
      rfl

/-! ## Texts a pattern does not start in -/

/-- The pattern starts nowhere in `w` when `t` stands behind it. -/
def Skips (P w t : GoString) : Prop := ∀ p q, w = p ++ q → q ≠ [] → ¬ P <+: q ++ t

theorem replaceFirst_of_skips {old w t : GoString} (h : Skips old w t) (new : GoString) :
    replaceFirst old new (w ++ t) = w ++ replaceFirst old new t := by
  induction w with
  | nil => rfl
  | cons b w ih =>
    have hhead := h [] (b :: w) rfl (List.cons_ne_nil b w)
    rw [← List.isPrefixOf_iff_prefix, List.cons_append] at hhead
    rw [List.cons_append, replaceFirst, if_neg hhead]
    rw [ih fun p q hw hq => h (b :: p) q (congrArg (b :: ·) hw) hq]
    rfl

theorem replaceFirst_append_self {old : GoString} (new : GoString) (hne : old ≠ [])
    (t : GoString) : replaceFirst old new (old ++ t) = new ++ t := by
  cases old with
  | nil => exact absurd rfl hne
  | cons b old =>
    have hpre : (b :: old).isPrefixOf (b :: (old ++ t)) = true :=
      List.isPrefixOf_iff_prefix.mpr (List.prefix_append (b :: old) t)
    rw [List.cons_append, replaceFirst, if_pos hpre, ← List.cons_append, List.drop_left]

/-- A pattern that is not in a text and has no end at the start of the next does not start
in the text. -/
theorem skips_of_not_infix {P s B : GoString} (hs : ¬ P <:+: s)
    (hB : ∀ r, r ≠ [] → r <:+ P.tail → ¬ r <+: B) : Skips P s B := by
  intro p q hpq hq hpre
  obtain ⟨y, hy⟩ := hpre
  subst hpq
  rcases List.append_eq_append_iff.mp hy with ⟨r, rfl, -⟩ | ⟨r, rfl, hr⟩
  · exact hs ⟨p, r, List.append_assoc _ _ _⟩
  · by_cases hr₀ : r = []
    · subst hr₀
      rw [List.append_nil] at hs
      exact hs List.infix_append_right
    · refine hB r hr₀ ?_ ⟨y, hr.symm⟩
      rw [List.tail_append_of_ne_nil hq]
      exact List.suffix_append _ r

/-- A pattern starts nowhere in a text that lacks the pattern's beginning and ends in a byte
the beginning has not. -/
theorem skips_of_last {P o w : GoString} {b : UInt8} (ho : o <+: P) (hb : b ∉ o)
    (hlast : w.getLast? = some b) (hw : ¬ o <:+: w) (t : GoString) : Skips P w t := by
  intro p q hpq hq hpre
  subst hpq
  rcases List.prefix_or_prefix_of_prefix (ho.trans hpre) (List.prefix_append q t) with h | h
  · exact hw (h.isInfix.trans List.infix_append_right)
  · rw [List.getLast?_append_of_ne_nil _ hq] at hlast
    exact hb (h.subset (List.mem_of_getLast? hlast))

theorem skips_nil (P t : GoString) : Skips P [] t := fun _ _ hpq hq =>
  absurd (List.append_eq_nil_iff.mp hpq.symm).2 hq

theorem skips_cons {P w t : GoString} {b : UInt8} (hb : ¬ P <+: b :: w ++ t) (hw : Skips P w t) :
    Skips P (b :: w) t := by
  intro p q hpq hq
  cases p with
  | nil =>
    rw [← hpq.trans (List.nil_append q)]
    exact hb
  | cons c p => exact hw p q (List.cons.inj hpq).2 hq

/-- A pattern starts neither in a text it is not in nor in what is apart from it. -/
theorem skips_of_apart {P s B : GoString} (hs : ¬ P <:+: s) (h : Apart P B) (t : GoString) :
    Skips P (s ++ B) t := by
  intro p q hpq hq hpre
  obtain ⟨y, hy⟩ := hpre
  -- `P` starts in `s` or in `B`.
  rcases List.append_eq_append_iff.mp hpq with ⟨w, -, rfl⟩ | ⟨w, rfl, rfl⟩
  · rcases List.append_eq_append_iff.mp hy with ⟨r, rfl, -⟩ | ⟨r, rfl, -⟩
    · exact h.inside (List.infix_append' _ _ _)
    · exact h.starts q hq (List.prefix_append q r) (List.suffix_append w q)
  · rw [List.append_assoc] at hy
    rcases List.append_eq_append_iff.mp hy with ⟨r, rfl, -⟩ | ⟨r, rfl, hr⟩
    · exact hs ⟨p, r, List.append_assoc _ _ _⟩
    · by_cases hr₀ : r = []
      · subst hr₀
        rw [List.append_nil] at hs
        exact hs List.infix_append_right
      · rcases List.append_eq_append_iff.mp hr with ⟨c, rfl, -⟩ | ⟨c, rfl, -⟩
        · exact h.around ⟨w, c, List.append_assoc _ _ _⟩
        · exact h.ends r hr₀ (List.suffix_append w r) (List.prefix_append r c)

/-! ## Templates -/

/-- A text, or a text in front of a numbered hole and what is behind the hole. -/
inductive Template where
  | text (s : GoString)
  | hole (s : GoString) (j : Nat) (rest : Template)

namespace Template

variable {F G : Template} {β β' : Nat → GoString} {t old : GoString}

/-- The text with its holes filled. -/
def fill (β : Nat → GoString) : Template → GoString
  | text s => s
  | hole s j F => s ++ (β j ++ fill β F)

def holes : Template → List Nat
  | text _ => []
  | hole _ j F => j :: holes F

def texts : Template → List GoString
  | text s => [s]
  | hole s _ F => s :: texts F

def prepend (u : GoString) : Template → Template
  | text s => text (u ++ s)
  | hole s j F => hole (u ++ s) j F

def append : Template → Template → Template
  | text s, G => G.prepend s
  | hole s j F, G => hole s j (append F G)

/-- What stands in front of a hole. -/
def before (i : Nat) : Template → Template
  | text s => text s
  | hole s j F => if j = i then text s else hole s j (before i F)

/-- The first occurrence of a pattern in the text makes room for another template. -/
def put : Template → GoString → Template → Template
  | text s, t, G =>
    match cutFirst t s with
    | none => text s
    | some (u, v) => (G.prepend u).append (text v)
  | hole s j F, t, G =>
    match cutFirst t s with
    | none => hole s j (put F t G)
    | some (u, v) => (G.prepend u).append (hole v j F)

theorem fill_congr (h : ∀ j ∈ F.holes, β j = β' j) : F.fill β = F.fill β' := by
  induction F with
  | text s => rfl
  | hole s j F ih =>
    obtain ⟨hj, hF⟩ := List.forall_mem_cons.mp h
    rw [fill, fill, hj, ih hF]

theorem fill_prepend (u : GoString) (F : Template) : (F.prepend u).fill β = u ++ F.fill β := by
  cases F with
  | text s => rfl
  | hole s j F => exact List.append_assoc _ _ _

theorem fill_append (F G : Template) : (F.append G).fill β = F.fill β ++ G.fill β := by
  induction F with
  | text s => exact fill_prepend s G
  | hole s j F ih => rw [append, fill, fill, ih, List.append_assoc, List.append_assoc]

theorem holes_prepend (u : GoString) (F : Template) : (F.prepend u).holes = F.holes := by
  cases F <;> rfl

theorem holes_append (F G : Template) : (F.append G).holes = F.holes ++ G.holes := by
  induction F with
  | text s => exact holes_prepend s G
  | hole s j F ih => exact congrArg (j :: ·) ih

/-- A pattern apart from the fillings is replaced in the text. -/
theorem fill_put (h : ∀ j ∈ F.holes, Apart t (β j)) :
    (F.put t G).fill β = replaceFirst t (G.fill β) (F.fill β) := by
  induction F with
  | text s =>
    rw [put]
    cases hcut : cutFirst t s with
    | none => exact (replaceFirst_of_not_isInfix _ (not_infix_of_cutFirst hcut)).symm
    | some r =>
      have hfirst := replaceFirst_of_cutFirst hcut (G.fill β) []
      rw [List.append_nil, List.append_nil] at hfirst
      dsimp only
      rw [fill_append, fill_prepend, List.append_assoc]
      exact hfirst.symm
  | hole s j F ih =>
    obtain ⟨hj, hF⟩ := List.forall_mem_cons.mp h
    rw [put]
    cases hcut : cutFirst t s with
    | none =>
      have hskip := skips_of_apart (not_infix_of_cutFirst hcut) hj (F.fill β)
      have hrest := replaceFirst_of_skips hskip (G.fill β)
      rw [List.append_assoc, List.append_assoc] at hrest
      dsimp only
      rw [fill, fill, ih hF, hrest]
    | some r =>
      dsimp only
      rw [fill_append, fill_prepend, fill, fill, replaceFirst_of_cutFirst hcut, List.append_assoc]

/-- The holes stay in order, with the new ones between them. -/
theorem holes_put (F : Template) (t : GoString) (G : Template) : (F.put t G).holes = F.holes ∨
    ∃ l₁ l₂, F.holes = l₁ ++ l₂ ∧ (F.put t G).holes = l₁ ++ (G.holes ++ l₂) := by
  induction F with
  | text s =>
    rw [put]
    cases cutFirst t s with
    | none => exact .inl rfl
    | some r =>
      refine .inr ⟨[], [], rfl, ?_⟩
      dsimp only
      rw [holes_append, holes_prepend]
      rfl
  | hole s j F ih =>
    rw [put]
    cases cutFirst t s with
    | none =>
      rcases ih with heq | ⟨l₁, l₂, hF, hput⟩
      · exact .inl (congrArg (j :: ·) heq)
      · refine .inr ⟨j :: l₁, l₂, ?_, ?_⟩
        · rw [holes, hF]
          rfl
        · dsimp only
          rw [holes, hput]
          rfl
    | some r =>
      refine .inr ⟨[], j :: F.holes, rfl, ?_⟩
      dsimp only
      rw [holes_append, holes_prepend]
      rfl

theorem mem_holes_before {i j : Nat} (h : j ∈ (F.before i).holes) : j ∈ F.holes ∧ j ≠ i := by
  induction F with
  | text s => cases h
  | hole s k F ih =>
    rw [before] at h
    split_ifs at h with hk
    · cases h
    · rcases List.mem_cons.mp h with rfl | h
      · exact ⟨List.mem_cons_self, hk⟩
      · exact ⟨List.mem_cons_of_mem k (ih h).1, (ih h).2⟩

/-! ## Patterns in the fillings -/

/-- A pattern that is in no text in front of a hole, starts in no filling there and is in the
filling of the hole is replaced in that filling. -/
theorem replaceFirst_fill {i : Nat} {x y : GoString} (new : GoString) (hne : old ≠ [])
    (hnodup : F.holes.Nodup)
    (hopen : ∀ s t, ¬ old <:+: s → ∀ j ∈ F.holes, Skips old s (β j ++ t))
    (htexts : ∀ s ∈ (F.before i).texts, ¬ old <:+: s)
    (hholes : ∀ j ∈ (F.before i).holes, ∀ t, Skips old (β j) t)
    (hi : β i = x ++ (old ++ y)) (hx : ∀ t, Skips old x (old ++ t)) :
    replaceFirst old new (F.fill β) = F.fill (Function.update β i (x ++ (new ++ y))) := by
  induction F with
  | text s => exact replaceFirst_of_not_isInfix new (htexts s (List.mem_singleton_self s))
  | hole s j F ih =>
    obtain ⟨hj, hF⟩ := List.nodup_cons.mp hnodup
    rw [before] at htexts hholes
    by_cases hji : j = i
    · subst hji
      rw [if_pos rfl] at htexts
      have hs := htexts s (List.mem_singleton_self s)
      have hrest : F.fill β = F.fill (Function.update β j (x ++ (new ++ y))) := by
        refine fill_congr fun k hk => (Function.update_of_ne (fun hkj => ?_) _ _).symm
        exact hj (hkj ▸ hk)
      rw [fill, fill, replaceFirst_of_skips (hopen s _ hs j List.mem_cons_self), ← hrest, hi,
        Function.update_self, List.append_assoc, List.append_assoc, replaceFirst_of_skips (hx _),
        replaceFirst_append_self new hne, List.append_assoc, List.append_assoc]
    · rw [if_neg hji] at htexts hholes
      obtain ⟨hs, htexts⟩ := List.forall_mem_cons.mp htexts
      obtain ⟨hskip, hholes⟩ := List.forall_mem_cons.mp hholes
      have hopen' : ∀ s t, ¬ old <:+: s → ∀ j ∈ F.holes, Skips old s (β j ++ t) :=
        fun s' t hs' k hk => hopen s' t hs' k (List.mem_cons_of_mem j hk)
      rw [fill, fill, replaceFirst_of_skips (hopen s _ hs j List.mem_cons_self),
        replaceFirst_of_skips (hskip _), Function.update_of_ne hji,
        ih hF hopen' htexts hholes]

end Template

end Go
