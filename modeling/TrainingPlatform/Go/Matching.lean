import TrainingPlatform.Go.Regexp
import TrainingPlatform.Go.Scan

/-!
# What an expression matches

The texts an expression consumes and the groups it captures on the way, without
the order in which the matcher tries them.  A match is one of these, and an
expression without anchors that consumes a prefix of a text is matched on it.
-/

namespace Go

namespace Re

/-- An expression consumes a text and prepends groups.  An iteration of a star that
consumes nothing is not repeated, and an anchor consumes nothing. -/
inductive Consumes : Re → GoString → Caps → Prop
  | eps : Consumes eps [] []
  | set {f : UInt8 → Bool} {b : UInt8} (h : f b = true) : Consumes (set f) [b] []
  | seq {a b : Re} {u v : GoString} {c d : Caps} (ha : Consumes a u c) (hb : Consumes b v d) :
      Consumes (seq a b) (u ++ v) (d ++ c)
  | altLeft {a b : Re} {u : GoString} {c : Caps} (h : Consumes a u c) : Consumes (alt a b) u c
  | altRight {a b : Re} {u : GoString} {c : Caps} (h : Consumes b u c) : Consumes (alt a b) u c
  | starNil {g : Bool} {r : Re} : Consumes (star g r) [] []
  | starCons {g : Bool} {r : Re} {u v : GoString} {c d : Caps} (hr : Consumes r u c) (hu : u ≠ [])
      (hs : Consumes (star g r) v d) : Consumes (star g r) (u ++ v) (d ++ c)
  | group {n : Nat} {r : Re} {u : GoString} {c : Caps} (h : Consumes r u c) :
      Consumes (group n r) u ((n, u) :: c)
  | bol : Consumes bol [] []
  | eol : Consumes eol [] []
  | wordBoundary : Consumes wordBoundary [] []

/-- No anchor in an expression. -/
def Plain : Re → Prop
  | eps | set _ => True
  | seq a b | alt a b => Plain a ∧ Plain b
  | star _ r | group _ r => Plain r
  | bol | eol | wordBoundary => False

theorem plain_lit (s : GoString) : Plain (lit s) := by
  induction s with
  | nil => exact trivial
  | cons b s ih => exact ⟨trivial, ih⟩

/-! ## The matcher -/

theorem take_length_sub {u w : GoString} : (u ++ w).take ((u ++ w).length - w.length) = u := by
  rw [List.length_append, Nat.add_sub_cancel, List.take_left]

theorem or_of_orElse_eq_some {α : Type} {a b : Option α} {x : α} (h : (a <|> b) = some x) :
    a = some x ∨ b = some x := by
  cases a with
  | none => exact .inr h
  | some y => exact .inl h

theorem isSome_orElse {α : Type} {a b : Option α} (h : a.isSome ∨ b.isSome) :
    (a <|> b).isSome := by
  cases a with
  | none => exact h.resolve_left (by simp)
  | some y => rfl

/-- What a run hands to its continuation lies behind a text the expression consumes. -/
theorem consumes_of_run {α : Type} (r : Re) {p : Pos} {c : Caps} {k : Pos → Caps → Option α}
    {x : α} (h : r.run p c k = some x) :
    ∃ u q d, Consumes r u d ∧ p.rest = u ++ q.rest ∧ k q (d ++ c) = some x := by
  induction r generalizing p c k with
  | eps => exact ⟨[], p, [], .eps, rfl, h⟩
  | set f =>
    rw [run] at h
    split at h
    · cases h
    · rename_i b s hrest
      split_ifs at h with hf
      exact ⟨[b], ⟨some b, s⟩, [], .set hf, hrest, h⟩
  | seq a b iha ihb =>
    obtain ⟨u, q, d, ha, hu, hk⟩ := iha h
    obtain ⟨v, q', e, hb, hv, hk'⟩ := ihb hk
    exact ⟨u ++ v, q', e ++ d, .seq ha hb, by rw [hu, hv, List.append_assoc],
      by rw [List.append_assoc]; exact hk'⟩
  | alt a b iha ihb =>
    rcases or_of_orElse_eq_some h with h | h
    · obtain ⟨u, q, d, ha, hu⟩ := iha h
      exact ⟨u, q, d, .altLeft ha, hu⟩
    · obtain ⟨u, q, d, hb, hu⟩ := ihb h
      exact ⟨u, q, d, .altRight hb, hu⟩
  | star greedy r ih =>
    rw [run] at h
    -- On the fuel of the loop; every iteration that is repeated shortens the text.
    generalize p.rest.length + 1 = n at h
    induction n generalizing p c with
    | zero => exact ⟨[], p, [], .starNil, rfl, h⟩
    | succ n ihn =>
      have hcases : k p c = some x ∨ r.run p c (fun p' c' =>
          if p'.rest.length < p.rest.length then starLoop r.run greedy k n p' c' else none)
            = some x := by
        cases greedy with
        | true => exact (or_of_orElse_eq_some h).symm
        | false => exact or_of_orElse_eq_some h
      rcases hcases with hk | hmore
      · exact ⟨[], p, [], .starNil, rfl, hk⟩
      · obtain ⟨u, q, d, hr, hu, hq⟩ := ih hmore
        split_ifs at hq with hlt
        obtain ⟨v, q', e, hs, hv, hk⟩ := ihn hq
        have hne : u ≠ [] := by
          rintro rfl
          rw [hu, List.nil_append] at hlt
          exact lt_irrefl _ hlt
        exact ⟨u ++ v, q', e ++ d, .starCons hr hne hs, by rw [hu, hv, List.append_assoc],
          by rw [List.append_assoc]; exact hk⟩
  | group n r ih =>
    obtain ⟨u, q, d, hr, hu, hk⟩ := ih h
    rw [hu, take_length_sub] at hk
    exact ⟨u, q, (n, u) :: d, .group hr, hu, hk⟩
  | bol =>
    rw [run] at h
    split_ifs at h
    exact ⟨[], p, [], .bol, rfl, h⟩
  | eol =>
    rw [run] at h
    split_ifs at h
    exact ⟨[], p, [], .eol, rfl, h⟩
  | wordBoundary =>
    rw [run] at h
    split_ifs at h
    exact ⟨[], p, [], .wordBoundary, rfl, h⟩

/-- A run of an expression without anchors succeeds when the expression consumes the
text in front of a place where the continuation does. -/
theorem isSome_run_of_consumes {α : Type} (r : Re) (hr : Plain r) {u : GoString} {d : Caps}
    (h : Consumes r u d) {w : GoString} {p : Pos} {c : Caps} {k : Pos → Caps → Option α}
    (hp : p.rest = u ++ w) (hk : ∀ q c', q.rest = w → (k q c').isSome) :
    (r.run p c k).isSome := by
  induction r generalizing u d w p c k with
  | eps =>
    cases h
    exact hk p c hp
  | set f =>
    cases h with
    | set hf =>
      rw [run, hp]
      simp only [List.singleton_append, if_pos hf]
      exact hk _ _ rfl
  | seq a b iha ihb =>
    cases h with
    | seq ha hb =>
      refine iha hr.1 ha (hp.trans (List.append_assoc _ _ _)) fun q c' hq => ?_
      exact ihb hr.2 hb hq hk
  | alt a b iha ihb =>
    cases h with
    | altLeft h => exact isSome_orElse (.inl (iha hr.1 h hp hk))
    | altRight h => exact isSome_orElse (.inr (ihb hr.2 h hp hk))
  | star greedy r ih =>
    rw [run]
    have hfuel : u.length ≤ p.rest.length + 1 := by
      rw [hp, List.length_append]
      omega
    generalize p.rest.length + 1 = n at hfuel
    -- On the iterations of the star, for any fuel that is no less than the text.
    generalize hs : star greedy r = s at h
    induction h generalizing n p c with
    | starNil =>
      cases n with
      | zero => exact hk p c hp
      | succ n =>
        rw [starLoop]
        split_ifs
        · exact isSome_orElse (.inr (hk p c hp))
        · exact isSome_orElse (.inl (hk p c hp))
    | @starCons _ _ u v _ _ hu hne _ _ ihs =>
      cases hs
      cases n with
      | zero =>
        rw [List.length_append] at hfuel
        have hpos := List.length_pos_iff.mpr hne
        omega
      | succ n =>
        have hpos := List.length_pos_iff.mpr hne
        rw [List.length_append] at hfuel
        have hmore := ih hr hu (hp.trans (List.append_assoc _ _ _)) (c := c)
          (k := fun p' c' =>
            if p'.rest.length < p.rest.length then starLoop r.run greedy k n p' c' else none)
          fun q c' hq => by
            have hlt : q.rest.length < p.rest.length := by
              rw [hq, hp, List.length_append, List.length_append, List.length_append]
              omega
            rw [if_pos hlt]
            exact ihs hq n (by omega) rfl
        rw [starLoop]
        split_ifs
        · exact isSome_orElse (.inl hmore)
        · exact isSome_orElse (.inr hmore)
    | _ => cases hs
  | group n r ih =>
    cases h with
    | group h => exact ih hr h hp fun q c' hq => hk q _ hq
  | bol => exact hr.elim
  | eol => exact hr.elim
  | wordBoundary => exact hr.elim

/-! ## The expressions -/

theorem consumes_eps {u : GoString} {d : Caps} : Consumes eps u d ↔ u = [] ∧ d = [] := by
  constructor
  · rintro ⟨⟩
    exact ⟨rfl, rfl⟩
  · rintro ⟨rfl, rfl⟩
    exact .eps

theorem consumes_wordBoundary {u : GoString} {d : Caps} :
    Consumes wordBoundary u d ↔ u = [] ∧ d = [] := by
  constructor
  · intro h
    cases h
    exact ⟨rfl, rfl⟩
  · rintro ⟨rfl, rfl⟩
    exact .wordBoundary

theorem consumes_set {f : UInt8 → Bool} {u : GoString} {d : Caps} :
    Consumes (set f) u d ↔ (∃ b, f b = true ∧ u = [b]) ∧ d = [] := by
  constructor
  · rintro ⟨⟩
    rename_i b h
    exact ⟨⟨b, h, rfl⟩, rfl⟩
  · rintro ⟨⟨b, h, rfl⟩, rfl⟩
    exact .set h

theorem consumes_seq {a b : Re} {u : GoString} {d : Caps} :
    Consumes (seq a b) u d ↔
      ∃ v w c e, Consumes a v c ∧ Consumes b w e ∧ u = v ++ w ∧ d = e ++ c := by
  constructor
  · rintro ⟨⟩
    rename_i v w c e ha hb
    exact ⟨v, w, c, e, ha, hb, rfl, rfl⟩
  · rintro ⟨v, w, c, e, ha, hb, rfl, rfl⟩
    exact .seq ha hb

theorem consumes_group {n : Nat} {r : Re} {u : GoString} {d : Caps} :
    Consumes (group n r) u d ↔ ∃ c, Consumes r u c ∧ d = (n, u) :: c := by
  constructor
  · rintro ⟨⟩
    rename_i c h
    exact ⟨c, h, rfl⟩
  · rintro ⟨c, h, rfl⟩
    exact .group h

theorem consumes_opt {r : Re} {u : GoString} {d : Caps} :
    Consumes (opt r) u d ↔ Consumes r u d ∨ u = [] ∧ d = [] := by
  constructor
  · rintro ⟨⟩
    · exact .inl ‹_›
    · exact .inr (consumes_eps.mp ‹_›)
  · rintro (h | h)
    · exact .altLeft h
    · exact .altRight (consumes_eps.mpr h)

theorem consumes_byte {b : UInt8} {u : GoString} {d : Caps} :
    Consumes (byte b) u d ↔ u = [b] ∧ d = [] := by
  simp [byte, consumes_set]

theorem consumes_lit {s u : GoString} {d : Caps} : Consumes (lit s) u d ↔ u = s ∧ d = [] := by
  induction s generalizing u d with
  | nil => exact consumes_eps
  | cons b s ih =>
    constructor
    · intro h
      obtain ⟨v, w, c, e, hb, hs, rfl, rfl⟩ := consumes_seq.mp h
      obtain ⟨rfl, rfl⟩ := consumes_byte.mp hb
      obtain ⟨rfl, rfl⟩ := ih.mp hs
      exact ⟨rfl, rfl⟩
    · rintro ⟨rfl, rfl⟩
      exact .seq (consumes_byte.mpr ⟨rfl, rfl⟩) (ih.mpr ⟨rfl, rfl⟩)

theorem consumes_many_set {f : UInt8 → Bool} {u : GoString} {d : Caps} :
    Consumes (many (set f)) u d ↔ (∀ b ∈ u, f b = true) ∧ d = [] := by
  constructor
  · intro h
    generalize hs : many (set f) = s at h
    induction h with
    | starNil => exact ⟨nofun, rfl⟩
    | starCons hr _ _ _ ih =>
      cases hs
      obtain ⟨⟨b, hb, rfl⟩, rfl⟩ := consumes_set.mp hr
      obtain ⟨hv, rfl⟩ := ih rfl
      exact ⟨List.forall_mem_cons.mpr ⟨hb, hv⟩, rfl⟩
    | _ => cases hs
  · rintro ⟨h, rfl⟩
    induction u with
    | nil => exact .starNil
    | cons b u ih =>
      rw [List.forall_mem_cons] at h
      exact .starCons (.set h.1) (List.cons_ne_nil b []) (ih h.2)

theorem consumes_many1_set {f : UInt8 → Bool} {u : GoString} {d : Caps} :
    Consumes (many1 (set f)) u d ↔ u ≠ [] ∧ (∀ b ∈ u, f b = true) ∧ d = [] := by
  constructor
  · intro h
    obtain ⟨v, w, c, e, hv, hs, rfl, rfl⟩ := consumes_seq.mp h
    obtain ⟨⟨b, hb, rfl⟩, rfl⟩ := consumes_set.mp hv
    obtain ⟨hw, rfl⟩ := consumes_many_set.mp hs
    exact ⟨List.cons_ne_nil b w, List.forall_mem_cons.mpr ⟨hb, hw⟩, rfl⟩
  · rintro ⟨hne, h, rfl⟩
    cases u with
    | nil => exact absurd rfl hne
    | cons b u =>
      rw [List.forall_mem_cons] at h
      exact .seq (.set h.1) (consumes_many_set.mpr ⟨h.2, rfl⟩)

theorem consumes_upTo_set {f : UInt8 → Bool} {n : Nat} {u : GoString} {d : Caps} :
    Consumes (upTo (set f) n) u d ↔
      (u ≠ [] ∧ u.length ≤ n + 1) ∧ (∀ b ∈ u, f b = true) ∧ d = [] := by
  induction n generalizing u d with
  | zero =>
    rw [upTo, consumes_set]
    constructor
    · rintro ⟨⟨b, hb, rfl⟩, rfl⟩
      exact ⟨⟨List.cons_ne_nil b [], le_rfl⟩, by simpa using hb, rfl⟩
    · rintro ⟨⟨hne, hlen⟩, h, rfl⟩
      have hone : u.length = 1 := le_antisymm hlen (List.length_pos_iff.mpr hne)
      obtain ⟨b, rfl⟩ := List.length_eq_one_iff.mp hone
      exact ⟨⟨b, h b (List.mem_singleton_self b), rfl⟩, rfl⟩
  | succ n ih =>
    constructor
    · intro h
      obtain ⟨v, w, c, e, hv, hs, rfl, rfl⟩ := consumes_seq.mp h
      obtain ⟨⟨b, hb, rfl⟩, rfl⟩ := consumes_set.mp hv
      rcases consumes_opt.mp hs with hs | ⟨rfl, rfl⟩
      · obtain ⟨⟨-, hlen⟩, hw, rfl⟩ := ih.mp hs
        exact ⟨⟨List.cons_ne_nil b w, Nat.succ_le_succ hlen⟩,
          List.forall_mem_cons.mpr ⟨hb, hw⟩, rfl⟩
      · exact ⟨⟨List.cons_ne_nil b [], Nat.succ_le_succ (Nat.zero_le _)⟩, by simpa using hb, rfl⟩
    · rintro ⟨⟨hne, hlen⟩, h, rfl⟩
      cases u with
      | nil => exact absurd rfl hne
      | cons b u =>
        rw [List.forall_mem_cons] at h
        refine consumes_seq.mpr ⟨[b], u, [], [], .set h.1, consumes_opt.mpr ?_, rfl, rfl⟩
        by_cases hu : u = []
        · exact .inr ⟨hu, rfl⟩
        · exact .inl (ih.mpr ⟨⟨hu, Nat.le_of_succ_le_succ hlen⟩, h.2, rfl⟩)

theorem consumes_all_cons {r : Re} {rs : List Re} {u : GoString} {d : Caps} :
    Consumes (all (r :: rs)) u d ↔
      ∃ v w c e, Consumes r v c ∧ Consumes (all rs) w e ∧ u = v ++ w ∧ d = e ++ c :=
  consumes_seq

theorem consumes_all_singleton {r : Re} {u : GoString} {d : Caps} :
    Consumes (all [r]) u d ↔ Consumes r u d := by
  constructor
  · intro h
    obtain ⟨v, w, c, e, hr, hw, rfl, rfl⟩ := consumes_all_cons.mp h
    obtain ⟨rfl, rfl⟩ := consumes_eps.mp hw
    rwa [List.append_nil, List.nil_append]
  · intro h
    exact consumes_all_cons.mpr ⟨u, [], d, [], h, .eps, (List.append_nil u).symm, rfl⟩

/-- A part that captures nothing, in front of others. -/
theorem consumes_all_cons_of_plain {r : Re} {P : GoString → Prop}
    (hr : ∀ {v c}, Consumes r v c ↔ P v ∧ c = []) {rs : List Re} {u : GoString} {d : Caps} :
    Consumes (all (r :: rs)) u d ↔ ∃ v w, P v ∧ Consumes (all rs) w d ∧ u = v ++ w := by
  rw [consumes_all_cons]
  constructor
  · rintro ⟨v, w, c, e, hv, hw, rfl, rfl⟩
    obtain ⟨hP, rfl⟩ := hr.mp hv
    exact ⟨v, w, hP, by rwa [List.append_nil], rfl⟩
  · rintro ⟨v, w, hv, hw, rfl⟩
    exact ⟨v, w, [], d, hr.mpr ⟨hv, rfl⟩, hw, rfl, (List.append_nil d).symm⟩

theorem consumes_all_byte_cons {b : UInt8} {rs : List Re} {u : GoString} {d : Caps} :
    Consumes (all (byte b :: rs)) u d ↔ ∃ w, Consumes (all rs) w d ∧ u = b :: w := by
  rw [consumes_all_cons_of_plain consumes_byte]
  constructor
  · rintro ⟨v, w, rfl, hw, rfl⟩
    exact ⟨w, hw, rfl⟩
  · rintro ⟨w, hw, rfl⟩
    exact ⟨[b], w, rfl, hw, rfl⟩

/-! ## Matches -/

theorem Consumes.isInfix {r : Re} {u : GoString} {d : Caps} (h : Consumes r u d) :
    ∀ c ∈ d, c.2 <:+: u := by
  induction h with
  | seq _ _ iha ihb | starCons _ _ _ iha ihb =>
    intro c hc
    rcases List.mem_append.mp hc with hc | hc
    · exact (ihb c hc).trans List.infix_append_right
    · exact (iha c hc).trans List.infix_append_left
  | altLeft _ ih | altRight _ ih => exact ih
  | group _ ih => exact List.forall_mem_cons.mpr ⟨List.infix_rfl, ih⟩
  | _ => exact nofun

/-- What a group of a match captured is part of the match. -/
theorem group_isInfix {re : Re} {m : Match} (h : Consumes re m.text m.caps) (n : Nat) :
    m.group n <:+: m.text := by
  rw [Match.group]
  cases hc : m.caps.find? fun c => c.1 = n with
  | none => exact List.nil_infix
  | some c => exact h.isInfix c (List.mem_of_find?_eq_some hc)

theorem matchAt_spec {re : Re} {p : Pos} {m : Match} (h : matchAt re p = some m) :
    Consumes re m.text m.caps ∧ p.rest = m.text ++ m.after.rest := by
  obtain ⟨u, q, d, hu, hrest, hk⟩ := consumes_of_run re h
  rw [hrest, take_length_sub, Option.some.injEq] at hk
  rw [← hk, List.append_nil]
  exact ⟨hu, hrest⟩

theorem findFrom_spec {re : Re} {before : Option UInt8} {s : GoString} {r : GoString × Match}
    (h : findFrom re before s = some r) :
    Consumes re r.2.text r.2.caps ∧ s = r.1 ++ (r.2.text ++ r.2.after.rest) := by
  induction s generalizing before r with
  | nil =>
    unfold findFrom at h
    split at h
    · rename_i m hm
      rw [Option.some.injEq] at h
      rw [← h]
      exact matchAt_spec hm
    · cases h
  | cons b s ih =>
    unfold findFrom at h
    split at h
    · rename_i m hm
      rw [Option.some.injEq] at h
      rw [← h]
      exact matchAt_spec hm
    · obtain ⟨r', hr', rfl⟩ := Option.map_eq_some_iff.mp h
      obtain ⟨hc, heq⟩ := ih hr'
      exact ⟨hc, by rw [List.cons_append, ← heq]⟩

theorem find_spec {re : Re} {s : GoString} {m : Match} (h : find re s = some m) :
    Consumes re m.text m.caps ∧ m.text <:+: s := by
  obtain ⟨⟨pre, m⟩, hr, rfl⟩ := Option.map_eq_some_iff.mp h
  obtain ⟨hm, heq⟩ := findFrom_spec hr
  exact ⟨hm, heq ▸ List.infix_append' pre m.text _⟩

/-- A text as the successive matches divide it. -/
theorem findAllN_spec (re : Re) (n : Nat) (p : Pos) :
    (∀ m ∈ (findAllN re n p).1, Consumes re m.2.text m.2.caps) ∧
      p.rest = (findAllN re n p).1.flatMap (fun m => m.1 ++ m.2.text) ++ (findAllN re n p).2 := by
  induction n generalizing p with
  | zero => exact ⟨nofun, rfl⟩
  | succ n ih =>
    rw [findAllN]
    split
    · exact ⟨nofun, rfl⟩
    · rename_i pre m hm
      obtain ⟨hc, heq⟩ := findFrom_spec hm
      obtain ⟨hall, hrest⟩ := ih m.after
      refine ⟨List.forall_mem_cons.mpr ⟨hc, hall⟩, ?_⟩
      rw [List.flatMap_cons, List.append_assoc, ← hrest, heq, List.append_assoc]

theorem mem_findAll {re : Re} {s : GoString} {m : Match} (h : m ∈ findAll re s) :
    Consumes re m.text m.caps ∧ m.text <:+: s := by
  obtain ⟨r, hr, rfl⟩ := List.mem_map.mp h
  obtain ⟨hall, hs⟩ := findAllN_spec re s.length ⟨none, s⟩
  have hs : s = _ := hs
  refine ⟨hall r hr, ?_⟩
  rw [hs]
  obtain ⟨u, v, huv⟩ := List.append_of_mem hr
  rw [huv, List.flatMap_append, List.flatMap_cons]
  simp only [List.append_assoc]
  exact List.infix_append_left.trans
    (List.infix_append_right.trans List.infix_append_right)

/-- What a replacement makes of a text with a property: the property passes to the parts
around a match, and what the parts and the replacements have holds of texts put together. -/
theorem replaceAll_of_matches {re : Re} {f : Match → GoString} {P Q : GoString → Prop}
    (hrest : ∀ s, P s → Q s) (happend : ∀ s t, Q s → Q t → Q (s ++ t))
    (hmatch : ∀ m u v, Consumes re m.text m.caps → P (u ++ (m.text ++ v)) → P u ∧ Q (f m) ∧ P v)
    {s : GoString} (h : P s) : Q (replaceAll re f s) := by
  obtain ⟨hall, hs⟩ := findAllN_spec re s.length ⟨none, s⟩
  have hs : s = _ := hs
  rw [hs] at h
  rw [replaceAll]
  generalize (findAllN re s.length ⟨none, s⟩).1 = ms at h hall ⊢
  generalize (findAllN re s.length ⟨none, s⟩).2 = rest at h ⊢
  clear hs
  induction ms with
  | nil => exact hrest rest h
  | cons m ms ih =>
    obtain ⟨hm, hms⟩ := List.forall_mem_cons.mp hall
    rw [List.flatMap_cons, List.append_assoc, List.append_assoc] at h
    obtain ⟨hpre, hf, hbehind⟩ := hmatch m.2 m.1 _ hm h
    rw [List.flatMap_cons, List.append_assoc, List.append_assoc]
    exact happend _ _ (hrest _ hpre) (happend _ _ hf (ih hms hbehind))

/-! ## Every match is found -/

/-- A text between two literals. -/
theorem consumes_between {p q bs u : GoString} {d : Caps} :
    Consumes (all [lit p, group 1 (many1 (noneOf bs)), lit q]) u d ↔
      ∃ g, u = p ++ (g ++ q) ∧ g ≠ [] ∧ (∀ b ∈ bs, b ∉ g) ∧ d = [(1, g)] := by
  constructor
  · intro h
    obtain ⟨_, w, rfl, hw, rfl⟩ := (consumes_all_cons_of_plain consumes_lit).mp h
    obtain ⟨g, z, c, e, hg, hz, rfl, rfl⟩ := consumes_all_cons.mp hw
    obtain ⟨d, hset, rfl⟩ := consumes_group.mp hg
    obtain ⟨hne, hall, rfl⟩ := consumes_many1_set.mp hset
    obtain ⟨rfl, rfl⟩ := consumes_lit.mp (consumes_all_singleton.mp hz)
    exact ⟨g, rfl, hne, fun b hb hmem => of_decide_eq_true (hall b hmem) hb, rfl⟩
  · intro h
    obtain ⟨g, rfl, hne, hg, rfl⟩ := h
    have hset : Consumes (many1 (noneOf bs)) g [] := consumes_many1_set.mpr
      ⟨hne, fun b hb => decide_eq_true fun hmem => hg b hmem hb, rfl⟩
    have hclose : Consumes (all [lit q]) q [] :=
      consumes_all_singleton.mpr (consumes_lit.mpr ⟨rfl, rfl⟩)
    exact (consumes_all_cons_of_plain consumes_lit).mpr ⟨p, g ++ q, rfl, consumes_all_cons.mpr
      ⟨g, q, [(1, g)], [], consumes_group.mpr ⟨[], hset, rfl⟩, hclose, rfl, rfl⟩, rfl⟩

theorem isSome_matchAt {re : Re} (hplain : Plain re) {t r : GoString} {d : Caps}
    (ht : Consumes re t d) (before : Option UInt8) :
    (matchAt re ⟨before, t ++ r⟩).isSome :=
  isSome_run_of_consumes re hplain ht rfl fun _ _ _ => rfl

section Complete

-- The matches start with a byte that stands nowhere else in them, so they cannot overlap.
variable {re : Re} {b : UInt8} (hplain : Plain re)
  (hhead : ∀ u d, Consumes re u d → u.head? = some b ∧ b ∉ u.tail)
include hplain hhead

theorem exists_findFrom_of_infix {t : GoString} {d : Caps} (ht : Consumes re t d)
    (before : Option UInt8) {s : GoString} (h : t <:+: s) :
    ∃ r, findFrom re before s = some r ∧
      (t <+: r.2.text ++ r.2.after.rest ∨ t <:+: r.2.after.rest) := by
  obtain ⟨t', rfl⟩ : ∃ t', t = b :: t' := by
    have hb := (hhead t d ht).1
    cases t with
    | nil => cases hb
    | cons c t' => exact ⟨t', by rw [Option.some.inj hb]⟩
  induction s generalizing before with
  | nil => exact absurd (List.infix_nil.mp h) (List.cons_ne_nil b t')
  | cons c s ih =>
    unfold findFrom
    cases hm : matchAt re ⟨before, c :: s⟩ with
    | some m =>
      obtain ⟨hc, hrest⟩ := matchAt_spec hm
      refine ⟨([], m), rfl, ?_⟩
      rw [← hrest]
      rcases List.infix_cons_iff.mp h with h | h
      · exact .inl h
      · right
        obtain ⟨hb, htail⟩ := hhead m.text m.caps hc
        cases htext : m.text with
        | nil =>
          rw [htext] at hb
          cases hb
        | cons x u =>
          rw [htext] at hrest htail
          have hs : s = u ++ m.after.rest := (List.cons.inj hrest).2
          rw [hs] at h
          exact infix_append_of_head_not_mem htail h
    | none =>
      rcases List.infix_cons_iff.mp h with ⟨r, hr⟩ | h
      · have hsome := isSome_matchAt hplain ht before (r := r)
        rw [hr, hm] at hsome
        cases hsome
      · obtain ⟨r, hr, hin⟩ := ih (some c) h
        refine ⟨(c :: r.1, r.2), ?_, hin⟩
        dsimp only
        rw [hr, Option.map_some]

theorem exists_findAllN_of_infix {t : GoString} {d : Caps} (ht : Consumes re t d) {n : Nat}
    {p : Pos} (hn : p.rest.length ≤ n) (h : t <:+: p.rest) :
    ∃ m ∈ (findAllN re n p).1, t <+: m.2.text ++ m.2.after.rest := by
  induction n generalizing p with
  | zero =>
    have hrest : p.rest = [] := List.length_eq_zero_iff.mp (Nat.le_zero.mp hn)
    rw [hrest] at h
    have hb := (hhead t d ht).1
    rw [List.infix_nil.mp h] at hb
    cases hb
  | succ n ih =>
    obtain ⟨⟨pre, m⟩, hr, hin⟩ := exists_findFrom_of_infix hplain hhead ht p.before h
    rw [findAllN, hr]
    rcases hin with hin | hin
    · exact ⟨(pre, m), List.mem_cons_self, hin⟩
    · obtain ⟨hc, heq⟩ := findFrom_spec hr
      have hpos : m.text ≠ [] := fun hnil => by
        have hb := (hhead _ _ hc).1
        rw [hnil] at hb
        cases hb
      have hlen := congrArg List.length heq
      simp only [List.length_append] at hlen
      have hlt := List.length_pos_iff.mpr hpos
      obtain ⟨m', hm', hpre⟩ := ih (p := m.after) (by omega) hin
      exact ⟨m', List.mem_cons_of_mem _ hm', hpre⟩

/-- At every place where the expression matches a text, a match is found. -/
theorem exists_mem_findAll_of_infix {t s : GoString} {d : Caps} (ht : Consumes re t d)
    (h : t <:+: s) : ∃ m ∈ findAll re s, t <+: m.text ++ m.after.rest := by
  obtain ⟨r, hr, hpre⟩ := exists_findAllN_of_infix hplain hhead ht (p := ⟨none, s⟩) le_rfl h
  exact ⟨r.2, List.mem_map_of_mem hr, hpre⟩

end Complete

/-! ## Anchored expressions -/

/-- `^...$`. -/
def anchored (rs : List Re) : Re := all (bol :: (rs ++ [eol]))

theorem run_all_append {α : Type} (rs ts : List Re) (p : Pos) (c : Caps)
    (k : Pos → Caps → Option α) :
    (all (rs ++ ts)).run p c k = (all rs).run p c fun q c' => (all ts).run q c' k := by
  induction rs generalizing p c with
  | nil => rfl
  | cons r rs ih =>
    show r.run p c _ = r.run p c _
    congr 1
    funext q c'
    exact ih q c'

/-- Behind the start of a text an anchored expression matches nothing. -/
theorem findFrom_anchored (rs : List Re) (b : UInt8) (s : GoString) :
    findFrom (anchored rs) (some b) s = none := by
  have hat : ∀ b s, matchAt (anchored rs) ⟨some b, s⟩ = none := fun b s => rfl
  induction s generalizing b with
  | nil =>
    unfold findFrom
    rw [hat]
  | cons b' s ih =>
    unfold findFrom
    rw [hat]
    simp only [ih, Option.map_none]

theorem find_anchored (rs : List Re) (s : GoString) :
    find (anchored rs) s = matchAt (anchored rs) ⟨none, s⟩ := by
  unfold find findFrom
  cases hm : matchAt (anchored rs) ⟨none, s⟩ with
  | some m => rfl
  | none =>
    cases s with
    | nil => rfl
    | cons b s =>
      simp only
      rw [findFrom_anchored]
      rfl

/-- The groups of a match of `^...$` are what the expression captures on the whole text. -/
theorem consumes_of_find_anchored {rs : List Re} {s : GoString} {m : Match}
    (h : find (anchored rs) s = some m) : Consumes (all rs) s m.caps := by
  have hrun : (all (rs ++ [eol])).run ⟨none, s⟩ [] (fun p' c => some
      ⟨s.take (s.length - p'.rest.length), c, p'⟩) = some m := (find_anchored rs s).symm.trans h
  rw [run_all_append] at hrun
  obtain ⟨u, q, d, hu, hrest, hk⟩ := consumes_of_run _ hrun
  have heol : q.rest = [] := by
    by_contra hne
    have hnone : q.rest.isEmpty = false := List.isEmpty_eq_false_iff.mpr hne
    simp [all, run, hnone] at hk
  simp only [all, List.foldr_cons, List.foldr_nil, run, heol, List.isEmpty_nil, if_pos,
    Option.some.injEq] at hk
  have hs : s = u := by
    have hsu : s = u ++ q.rest := hrest
    rw [hsu, heol, List.append_nil]
  rw [hs, ← hk, List.append_nil]
  exact hu

/-! ## Greedy iterations -/

/-- A greedy loop ends where the body consumes nothing more. -/
theorem greedy_starLoop {α : Type} {r : Re} (hr : Plain r) {k : Pos → Caps → Option α}
    (hk : ∀ p c, (k p c).isSome) {n : Nat} {p : Pos} {c : Caps} {x : α} (hn : p.rest.length < n)
    (h : starLoop r.run true k n p c = some x) :
    ∃ q c', k q c' = some x ∧ ∀ w e, Consumes r w e → w ≠ [] → ¬ w <+: q.rest := by
  have hloop : ∀ n p c, (starLoop r.run true k n p c).isSome := by
    intro n
    induction n with
    | zero => exact hk
    | succ n _ => exact fun p c => isSome_orElse (.inr (hk p c))
  induction n generalizing p c with
  | zero => omega
  | succ n ih =>
    rw [starLoop] at h
    cases hmore : r.run p c (fun p' c' =>
        if p'.rest.length < p.rest.length then starLoop r.run true k n p' c' else none) with
    | some y =>
      rw [hmore] at h
      obtain rfl : y = x := Option.some.inj h
      obtain ⟨u, q, d, -, -, hq⟩ := consumes_of_run r hmore
      split_ifs at hq with hlt
      exact ih (by omega) hq
    | none =>
      rw [hmore] at h
      refine ⟨p, c, h, fun w e hw hne hpre => ?_⟩
      obtain ⟨t, ht⟩ := hpre
      have hsome := isSome_run_of_consumes r hr hw ht.symm (c := c) (k := fun p' c' =>
        if p'.rest.length < p.rest.length then starLoop r.run true k n p' c' else none)
        fun q c' hq => by
          have hpos := List.length_pos_iff.mpr hne
          have hlt : q.rest.length < p.rest.length := by
            rw [hq, ← ht, List.length_append]
            omega
          rw [if_pos hlt]
          exact hloop n q c'
      rw [hmore] at hsome
      cases hsome

/-- Behind a match that ends in iterations there is none more. -/
theorem not_prefix_after (rs : List Re) {r : Re} (hr : Plain r) {i : Nat} {p : Pos} {m : Match}
    (h : matchAt (all (rs ++ [group i (many r)])) p = some m) {w : GoString} {e : Caps}
    (hw : Consumes r w e) (hne : w ≠ []) : ¬ w <+: m.after.rest := by
  rw [matchAt, run_all_append] at h
  obtain ⟨u, q, d, -, -, hq⟩ := consumes_of_run _ h
  have hq : starLoop r.run true _ (q.rest.length + 1) q (d ++ []) = some m := hq
  obtain ⟨q', c', hq', hlast⟩ := greedy_starLoop hr (fun _ _ => rfl) (Nat.lt_succ_self _) hq
  obtain rfl := Option.some.inj hq'
  exact hlast w e hw hne

theorem isSome_find_anchored {rs : List Re} (hplain : Plain (all rs)) {s : GoString} {d : Caps}
    (h : Consumes (all rs) s d) : (find (anchored rs) s).isSome := by
  rw [find_anchored]
  show ((all (rs ++ [eol])).run ⟨none, s⟩ [] _).isSome
  rw [run_all_append]
  refine isSome_run_of_consumes _ hplain h (List.append_nil s).symm fun q c' hq => ?_
  simp [all, run, hq]

end Re

end Go
