import TrainingPlatform.Scoring.Standings

/-!
# The order of the published lists

`List`, `Results` and `Standings` collect their rows by ranging over maps and then sort them.
`sort.Slice` may leave rows that compare equal in any order, so what a call returns is a relation
here: a sorted order of the rows one range finds.
-/

namespace TrainingPlatform.Scoring.Store

open Go

variable {s : Store}

def Solve.key (a : Solve) : Lex (GoString × GoString) := toLex (a.user, a.challengeName)

theorem Solve.less_iff (a b : Solve) : a.less b = true ↔ a.key < b.key := by
  rw [Solve.key, Solve.key, Prod.Lex.toLex_lt_toLex, Solve.less]
  by_cases huser : a.user = b.user
  · simp [huser]
  · simp [huser]

/-- What `List` may return. -/
def IsList (s : Store) (out : List Challenge) : Prop :=
  ∃ r : Ranges s, SortsTo (fun a b => a.name < b.name) (r.byHash.map Sigma.snd) out

/-- What `Results` may return. -/
def IsResults (s : Store) (out : List Solve) : Prop :=
  ∃ r : Ranges s, SortsTo Solve.less (solveRows r) out

/-- What `Standings` may return.  The map it collects the users in is ranged over too. -/
def IsStandings (s : Store) (view : View) : Prop :=
  ∃ r : Ranges s, ∃ users : List Standing,
    users.Perm ((byUser r).entries.map Sigma.snd) ∧ SortsTo Standing.less users view.ranking ∧
      SortsTo (fun a b => a.name < b.name) (r.byHash.map (statOf s)) view.challenges ∧
        view.totalPoints = r.byHash.foldl (fun total e => goInt (total + e.2.value)) 0

theorem isResults_results (r : Ranges s) : IsResults s (results r) :=
  ⟨r, sortsTo_sortSlice Solve.less_iff _⟩

theorem isStandings_standings (r : Ranges s) : IsStandings s (standings r) := by
  have hless : ∀ a b : ChallengeStat, decide (a.name < b.name) = true ↔ a.name < b.name :=
    fun _ _ => decide_eq_true_iff
  exact ⟨r, _, .rfl, sortsTo_sortSlice Standing.less_iff _, sortsTo_sortSlice hless _, rfl⟩

/-- Two calls on one state return the same. -/
structure Settled (s : Store) : Prop where
  list : ∀ out out', IsList s out → IsList s out' → out = out'
  results : ∀ out out', IsResults s out → IsResults s out' → out = out'
  standings : ∀ view view', IsStandings s view → IsStandings s view' → view = view'

/-- No two registered challenges have one name, nor do two that one user solved. -/
structure NamesApart (s : Store) : Prop where
  registered : ∀ h h' c c', s.get h = some c → s.get h' = some c' → c.name = c'.name → h = h'
  solved : ∀ u h h', s.solved h u = true → s.solved h' u = true →
    (s.nameValue h).1 = (s.nameValue h').1 → h = h'

/-! ## Challenges by name -/

theorem nodup_entries (s : Store) : s.byHash.entries.Nodup :=
  List.Nodup.of_map Sigma.fst s.byHash.nodupKeys

theorem mem_entries_iff {e : Sigma fun _ : GoString => Challenge} :
    e ∈ s.byHash.entries ↔ s.get e.1 = some e.2 := AList.mem_lookup_iff.symm

theorem mem_entries_of_get {h : GoString} {c : Challenge} (hc : s.get h = some c) :
    ⟨h, c⟩ ∈ s.byHash.entries := mem_entries_iff.mpr hc

/-- Rows of the registered challenges that keep their name sort in one way exactly when the names
are apart. -/
theorem names_unique_iff {β : Type} (row : (Sigma fun _ : GoString => Challenge) → β)
    (name : β → GoString) (hname : ∀ e, name (row e) = e.2.name)
    (hinj : ∀ e ∈ s.byHash.entries, ∀ e' ∈ s.byHash.entries, row e = row e' → e = e') :
    (∀ out out', (∃ r : Ranges s, SortsTo (fun a b => name a < name b) (r.byHash.map row) out) →
      (∃ r : Ranges s, SortsTo (fun a b => name a < name b) (r.byHash.map row) out') →
        out = out') ↔
      ∀ h h' c c', s.get h = some c → s.get h' = some c' → c.name = c'.name → h = h' := by
  have hless : ∀ a b : β, decide (name a < name b) = true ↔ name a < name b :=
    fun _ _ => decide_eq_true_iff
  have hperm : ∀ r r' : Ranges s, (r.byHash.map row).Perm (r'.byHash.map row) :=
    fun r r' => (r.byHash_perm.trans r'.byHash_perm.symm).map row
  have hnodup : (s.byHash.entries.map row).Nodup :=
    List.Nodup.map_on hinj (nodup_entries s)
  rw [sortsTo_unique_iff hless hperm (Ranges.sorted s) hnodup]
  constructor
  · intro hrows h h' c c' hc hc' hcc
    have he := mem_entries_of_get hc
    have he' := mem_entries_of_get hc'
    have hrow := hrows _ (List.mem_map_of_mem he) _ (List.mem_map_of_mem he')
      (by rw [hname, hname, hcc])
    exact congrArg Sigma.fst (hinj _ he _ he' hrow)
  · intro happart a ha b hb hab
    obtain ⟨⟨h, c⟩, he, rfl⟩ := List.mem_map.mp ha
    obtain ⟨⟨h', c'⟩, he', rfl⟩ := List.mem_map.mp hb
    rw [hname, hname] at hab
    have hc : s.get h = some c := mem_entries_iff.mp he
    have hc' : s.get h' = some c' := mem_entries_iff.mp he'
    obtain rfl := happart h h' c c' hc hc' hab
    obtain rfl : c = c' := Option.some.inj (hc.symm.trans hc')
    rfl

/-- A registered challenge says which hash it is registered under. -/
theorem snd_injOn (e : Sigma fun _ : GoString => Challenge) (he : e ∈ s.byHash.entries)
    (e' : Sigma fun _ : GoString => Challenge) (he' : e' ∈ s.byHash.entries)
    (h : e.2 = e'.2) : e = e' := by
  have hhash : e.1 = e'.1 := by
    rw [← s.keyed e.1 e.2 (mem_entries_iff.mp he), h, s.keyed e'.1 e'.2 (mem_entries_iff.mp he')]
  exact Sigma.ext hhash (heq_of_eq h)

theorem list_unique_iff :
    (∀ out out', IsList s out → IsList s out' → out = out') ↔
      ∀ h h' c c', s.get h = some c → s.get h' = some c' → c.name = c'.name → h = h' :=
  names_unique_iff Sigma.snd Challenge.name (fun _ => rfl) snd_injOn

theorem statOf_injOn (e : Sigma fun _ : GoString => Challenge) (he : e ∈ s.byHash.entries)
    (e' : Sigma fun _ : GoString => Challenge) (he' : e' ∈ s.byHash.entries)
    (h : statOf s e = statOf s e') : e = e' := by
  have hhash : e.1 = e'.1 := congrArg ChallengeStat.hash h
  have hc := mem_entries_iff.mp he
  rw [hhash, mem_entries_iff.mp he', Option.some.injEq] at hc
  exact Sigma.ext hhash (heq_of_eq hc.symm)

/-! ## Rows by user and name -/

theorem mem_solveRows_iff (r : Ranges s) {row : Solve} :
    row ∈ solveRows r ↔ ∃ h u, s.solved h u = true ∧ row = Solve.of s h u := by
  have hsolved : ∀ h u, s.solved h u = true ↔ ∃ us, (h, us) ∈ r.solves ∧ u ∈ us := by
    intro h u
    rw [Store.solved, users, decide_eq_true_iff]
    cases hh : s.solves.lookup h with
    | none =>
      refine iff_of_false (Finset.notMem_empty u) fun hus => ?_
      obtain ⟨us, hus, -⟩ := hus
      rw [(lookup_solves_iff r).mpr ⟨us, hus, rfl⟩] at hh
      cases hh
    | some users =>
      rw [Option.getD_some]
      constructor
      · intro hu
        obtain ⟨us, hus, rfl⟩ := (lookup_solves_iff r).mp hh
        exact ⟨us, hus, List.mem_toFinset.mp hu⟩
      · intro hus
        obtain ⟨us, hus, hu⟩ := hus
        rw [(lookup_solves_iff r).mpr ⟨us, hus, rfl⟩, Option.some.injEq] at hh
        rw [← hh]
        exact List.mem_toFinset.mpr hu
  rw [solveRows, List.mem_flatMap]
  constructor
  · intro hrow
    obtain ⟨p, hp, hrow⟩ := hrow
    obtain ⟨u, hu, rfl⟩ := List.mem_map.mp hrow
    exact ⟨p.1, u, (hsolved p.1 u).mpr ⟨p.2, hp, hu⟩, rfl⟩
  · intro hrow
    obtain ⟨h, u, hu, rfl⟩ := hrow
    obtain ⟨us, hp, hu⟩ := (hsolved h u).mp hu
    exact ⟨(h, us), hp, List.mem_map_of_mem hu⟩

theorem nodup_solveRows (r : Ranges s) : (solveRows r).Nodup := by
  rw [solveRows, List.nodup_flatMap]
  constructor
  · intro p hp
    exact (r.users_nodup p hp).map fun _ _ heq => congrArg Solve.user heq
  · refine (List.pairwise_map.mp (nodup_keys_solves r)).imp fun {p q} hpq row hp hq => ?_
    obtain ⟨u, -, rfl⟩ := List.mem_map.mp hp
    obtain ⟨v, -, heq⟩ := List.mem_map.mp hq
    exact hpq (congrArg Solve.challengeHash heq).symm

theorem perm_solveRows (r r' : Ranges s) : (solveRows r).Perm (solveRows r') := by
  refine Multiset.coe_eq_coe.mp ?_
  rw [coe_solveRows, coe_solveRows]

theorem results_unique_iff :
    (∀ out out', IsResults s out → IsResults s out' → out = out') ↔
      ∀ u h h', s.solved h u = true → s.solved h' u = true →
        (s.nameValue h).1 = (s.nameValue h').1 → h = h' := by
  have hunique := sortsTo_unique_iff Solve.less_iff perm_solveRows (Ranges.sorted s)
    (nodup_solveRows (Ranges.sorted s))
  refine hunique.trans ?_
  constructor
  · intro hrows u h h' hu hu' hname
    have hmem := (mem_solveRows_iff (Ranges.sorted s)).mpr ⟨h, u, hu, rfl⟩
    have hmem' := (mem_solveRows_iff (Ranges.sorted s)).mpr ⟨h', u, hu', rfl⟩
    exact congrArg Solve.challengeHash (hrows _ hmem _ hmem' (congrArg (toLex (u, ·)) hname))
  · intro happart a ha b hb hab
    obtain ⟨h, u, hu, rfl⟩ := (mem_solveRows_iff _).mp ha
    obtain ⟨h', u', hu', rfl⟩ := (mem_solveRows_iff _).mp hb
    have hpair : (u, (s.nameValue h).1) = (u', (s.nameValue h').1) := toLex.injective hab
    rw [Prod.mk.injEq] at hpair
    obtain ⟨rfl, hname⟩ := hpair
    rw [happart u h h' hu hu' hname]

/-! ## The standings -/

/-- The ranking and the total do not depend on the ranges: no two users tie in it. -/
theorem ranking_unique {view view' : View} (h : IsStandings s view) (h' : IsStandings s view') :
    view.ranking = view'.ranking := by
  obtain ⟨r, users, husers, hview, -⟩ := h
  obtain ⟨r', users', husers', hview', -⟩ := h'
  have hmem : ∀ (r : Ranges s) {x : Standing}, x ∈ (byUser r).entries.map Sigma.snd ↔
      (∃ row ∈ solveRows r, row.user = x.user) ∧ x = standingOf (solveRows r) x.user := by
    intro r x
    rw [← mem_ranking_iff, Store.standings, (perm_sortSlice _ _).mem_iff]
  have hnodup : ∀ r : Ranges s, ((byUser r).entries.map Sigma.snd).Nodup := by
    intro r
    refine List.Nodup.of_map Standing.user ?_
    exact ((perm_sortSlice Standing.less _).map Standing.user).nodup_iff.mp (nodup_users_ranking r)
  have hperm : ((byUser r').entries.map Sigma.snd).Perm ((byUser r).entries.map Sigma.snd) := by
    refine (List.perm_ext_iff_of_nodup (hnodup r') (hnodup r)).mpr fun x => ?_
    have hrows := perm_solveRows r' r
    rw [hmem, hmem, standingOf_congr hrows]
    simp only [hrows.mem_iff]
  refine hview.eq Standing.less_iff (fun a ha b hb hab => ?_)
    (husers'.trans (hperm.trans husers.symm)) hview'
  have ha' := ((hmem r).mp (husers.subset ha)).2
  have hb' := ((hmem r).mp (husers.subset hb)).2
  have huser : a.user = b.user := congrArg (fun k => (ofLex k).2) hab
  rw [ha', hb', huser]

theorem totalPoints_unique {view view' : View} (h : IsStandings s view)
    (h' : IsStandings s view') : view.totalPoints = view'.totalPoints := by
  obtain ⟨r, -, -, -, -, htotal⟩ := h
  obtain ⟨r', -, -, -, -, htotal'⟩ := h'
  have hsum : ∀ r : Ranges s, r.byHash.foldl (fun total e => goInt (total + e.2.value)) 0 =
      goInt (0 + (r.byHash.map fun e => e.2.value).sum) :=
    fun r => foldl_goInt (fun e : Sigma fun _ : GoString => Challenge => e.2.value) r.byHash 0
  have hperm := (r.byHash_perm.trans r'.byHash_perm.symm).map fun e => e.2.value
  rw [htotal, htotal', hsum, hsum, hperm.sum_eq]

/-- What is published depends on the state alone exactly when no two rows of a list have the same
name. -/
theorem settled_iff_namesApart (s : Store) : Settled s ↔ NamesApart s := by
  constructor
  · intro h
    exact ⟨list_unique_iff.mp h.list, results_unique_iff.mp h.results⟩
  · intro h
    refine ⟨list_unique_iff.mpr h.registered, results_unique_iff.mpr h.solved, ?_⟩
    intro view view' hview hview'
    have hranking := ranking_unique hview hview'
    have htotal := totalPoints_unique hview hview'
    have hstats := (names_unique_iff (statOf s) ChallengeStat.name (fun _ => rfl)
      statOf_injOn).mpr h.registered
    obtain ⟨r, -, -, -, hchallenges, -⟩ := hview
    obtain ⟨r', -, -, -, hchallenges', -⟩ := hview'
    have hchallenges := hstats _ _ ⟨r, hchallenges⟩ ⟨r', hchallenges'⟩
    cases view
    cases view'
    simp only at hranking htotal hchallenges
    rw [hranking, htotal, hchallenges]

/-! ## Two challenges of one name -/

/-- The challenge of a question two lessons ask: the hash tells the lessons apart, the name does
not. -/
def asked (hash : String) : Challenge := ⟨utf8 hash, utf8 "quiz-what-is-a-pod", 10, [], none⟩

def twinStore : Store := ((newStore none).put (asked "c1")).put (asked "c2")

/-- One poll lists the first lesson's challenge first, the next poll the second's. -/
theorem not_settled_twinStore : ¬ Settled twinStore := by
  intro h
  have hsorts : ∀ out : List Challenge, out.Perm [asked "c2", asked "c1"] →
      (out.Pairwise fun a b => ¬ decide (b.name < a.name) = true) → IsList twinStore out :=
    fun out hperm hordered => ⟨Ranges.sorted twinStore, hperm, hordered⟩
  have heq := h.list [asked "c1", asked "c2"] [asked "c2", asked "c1"]
    (hsorts _ (.swap _ _ _) (by decide +kernel)) (hsorts _ .rfl (by decide +kernel))
  exact absurd heq (by decide +kernel)

end TrainingPlatform.Scoring.Store
