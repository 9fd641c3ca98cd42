import TrainingPlatform.Go.Collections
import TrainingPlatform.Scoring.Store
import Mathlib.Algebra.Order.BigOperators.Group.Finset
import Mathlib.Data.Finset.Sort
import Mathlib.Data.Multiset.Bind
import Mathlib.Data.Prod.Lex

/-!
# The scoreboard

`Results` lists the solves by challenge, and `Standings` groups them anew by user.  A Go
map is ranged over in any order, which is an argument of both.
-/

namespace TrainingPlatform.Scoring.Store

open Go

/-- One (user, challenge) completion. -/
structure Solve where
  user : GoString
  challengeHash : GoString
  challengeName : GoString
  value : Int

structure Standing where
  user : GoString
  solved : Nat
  points : Int

structure ChallengeStat where
  hash : GoString
  name : GoString
  value : Int
  solved : Nat

/-- The orders in which one call ranges over the two maps and over the sets of users. -/
structure Ranges (s : Store) where
  byHash : List (Sigma fun _ : GoString => Challenge)
  solves : List (GoString × List GoString)
  byHash_perm : byHash.Perm s.byHash.entries
  solves_perm : (solves.map fun p => Sigma.mk p.1 p.2.toFinset).Perm s.solves.entries
  users_nodup : ∀ p ∈ solves, p.2.Nodup

def sortedUsers (users : Finset GoString) : List GoString := users.sort (· ≤ ·)

/-- One such order: that of the entries, with the users sorted. -/
def Ranges.sorted (s : Store) : Ranges s where
  byHash := s.byHash.entries
  solves := s.solves.entries.map fun e => (e.1, sortedUsers e.2)
  byHash_perm := .rfl
  solves_perm := by
    rw [List.map_map]
    refine .of_eq ((List.map_congr_left fun e _ => ?_).trans (List.map_id _))
    exact Sigma.ext rfl (heq_of_eq (Finset.sort_toFinset e.2 (· ≤ ·)))
  users_nodup p hp := by
    obtain ⟨e, -, rfl⟩ := List.mem_map.mp hp
    exact Finset.sort_nodup e.2 (· ≤ ·)

/-- The name and value a solve is listed with: the hash and 0 once no challenge has it. -/
def nameValue (s : Store) (hash : GoString) : GoString × Int :=
  match s.byHash.lookup hash with
  | some c => (c.name, c.value)
  | none => (hash, 0)

variable {s : Store}

def Solve.less (a b : Solve) : Bool :=
  if a.user ≠ b.user then a.user < b.user else a.challengeName < b.challengeName

/-- The row `Results` appends for a hash and a user. -/
def Solve.of (s : Store) (hash u : GoString) : Solve :=
  ⟨u, hash, (s.nameValue hash).1, (s.nameValue hash).2⟩

def solveRows (r : Ranges s) : List Solve := r.solves.flatMap fun p => p.2.map (Solve.of s p.1)

def results (r : Ranges s) : List Solve := sortSlice Solve.less (solveRows r)

/-- The body of the inner loop. -/
def addSolve (value : Int) (byUser : AList fun _ : GoString => Standing) (u : GoString) :
    AList fun _ : GoString => Standing :=
  let st := (byUser.lookup u).getD ⟨u, 0, 0⟩
  byUser.insert u { st with solved := st.solved + 1, points := goInt (st.points + value) }

def byUser (r : Ranges s) : AList fun _ : GoString => Standing :=
  r.solves.foldl (fun m p => p.2.foldl (addSolve (s.nameValue p.1).2) m) ∅

def Standing.less (a b : Standing) : Bool :=
  if a.points ≠ b.points then b.points < a.points else a.user < b.user

/-- What `Standings` returns. -/
structure View where
  ranking : List Standing
  challenges : List ChallengeStat
  totalPoints : Int

def standings (r : Ranges s) : View where
  ranking := sortSlice Standing.less ((byUser r).entries.map Sigma.snd)
  challenges := sortSlice (fun a b => a.name < b.name)
    (r.byHash.map fun e => ⟨e.1, e.2.name, e.2.value, (s.users e.1).card⟩)
  totalPoints := r.byHash.foldl (fun total e => goInt (total + e.2.value)) 0

/-! ## The rows of a store -/

/-- The rows do not depend on the order in which they are found. -/
theorem coe_solveRows (r : Ranges s) : (solveRows r : Multiset Solve) =
    (s.solves.entries : Multiset (Sigma fun _ : GoString => Finset GoString)).bind
      fun e => e.2.val.map (Solve.of s e.1) := by
  have hbind : (s.solves.entries : Multiset (Sigma fun _ : GoString => Finset GoString)) =
      (r.solves : Multiset (GoString × List GoString)).map
        fun p => Sigma.mk p.1 p.2.toFinset := by
    rw [Multiset.map_coe]
    exact Multiset.coe_eq_coe.mpr r.solves_perm.symm
  rw [hbind, Multiset.bind_map]
  change _ = (r.solves : Multiset (GoString × List GoString)).bind
    fun p => p.2.toFinset.val.map (Solve.of s p.1)
  rw [solveRows, ← Multiset.coe_bind]
  refine Multiset.bind_congr fun p hp => ?_
  rw [List.toFinset_val, (r.users_nodup p hp).dedup, Multiset.map_coe]

theorem perm_results (r r' : Ranges s) : (results r).Perm (solveRows r') := by
  refine (perm_sortSlice _ _).trans (Multiset.coe_eq_coe.mp ?_)
  rw [coe_solveRows, coe_solveRows]

/-! ## Rows by user -/

theorem addSolve_eq (m : AList fun _ : GoString => Standing) (hash u : GoString) :
    addSolve (s.nameValue hash).2 m u =
      tallyRow Solve.user (fun u => ⟨u, 0, 0⟩)
        (fun st row => { st with solved := st.solved + 1, points := goInt (st.points + row.value) })
        m (Solve.of s hash u) := rfl

theorem foldl_standing (rows : List Solve) (u : GoString) (n : Nat) (x : Int) :
    rows.foldl (fun (st : Standing) row =>
        { st with solved := st.solved + 1, points := goInt (st.points + row.value) }) ⟨u, n, goInt x⟩ =
      ⟨u, n + rows.length, goInt (x + (rows.map Solve.value).sum)⟩ := by
  induction rows generalizing n x with
  | nil => simp
  | cons row rows ih =>
    rw [List.foldl_cons]
    dsimp only
    rw [goInt_add, ih, List.length_cons, List.map_cons, List.sum_cons, add_assoc n,
      Nat.add_comm 1, add_assoc x]

/-- The standing of a user by the rows: their number, and the sum of their values. -/
def standingOf (rows : List Solve) (u : GoString) : Standing :=
  ⟨u, (rows.filter fun row => row.user = u).length,
    goInt ((rows.filter fun row => row.user = u).map Solve.value).sum⟩

theorem standingOf_congr {rows rows' : List Solve} (h : rows.Perm rows') (u : GoString) :
    standingOf rows u = standingOf rows' u := by
  have hfilter := h.filter fun row => row.user = u
  rw [standingOf, standingOf, hfilter.length_eq, (hfilter.map Solve.value).sum_eq]

/-- The entry of a user counts their rows and adds up their values. -/
theorem lookup_byUser (r : Ranges s) (u : GoString) :
    (byUser r).lookup u =
      if ∃ row ∈ solveRows r, row.user = u then some (standingOf (solveRows r) u) else none := by
  have htally : byUser r = tally Solve.user (fun u => ⟨u, 0, 0⟩)
      (fun st row => { st with solved := st.solved + 1, points := goInt (st.points + row.value) })
      (solveRows r) := by
    rw [tally, solveRows, List.foldl_flatMap]
    simp only [List.foldl_map, ← addSolve_eq]
    rfl
  rw [htally, lookup_tally]
  have hfold := foldl_standing ((solveRows r).filter fun row => row.user = u) u 0 0
  rw [Nat.zero_add, zero_add] at hfold
  split_ifs
  · exact congrArg some hfold
  · rfl

theorem mem_ranking_iff (r : Ranges s) {x : Standing} :
    x ∈ (standings r).ranking ↔
      (∃ row ∈ solveRows r, row.user = x.user) ∧ x = standingOf (solveRows r) x.user := by
  rw [standings, (perm_sortSlice _ _).mem_iff, List.mem_map]
  constructor
  · intro hx
    obtain ⟨⟨u, st⟩, he, rfl⟩ := hx
    have hlook : (byUser r).lookup u = some st := AList.mem_lookup_iff.mpr he
    rw [lookup_byUser] at hlook
    split_ifs at hlook with hrow
    cases hlook
    exact ⟨hrow, rfl⟩
  · intro hx
    refine ⟨⟨x.user, x⟩, AList.mem_lookup_iff.mp ?_, rfl⟩
    rw [lookup_byUser, if_pos hx.1, ← hx.2]
    rfl

theorem nodup_users_ranking (r : Ranges s) : ((standings r).ranking.map Standing.user).Nodup := by
  refine (((perm_sortSlice _ _).map Standing.user).nodup_iff).mpr ?_
  have hkeys : ((byUser r).entries.map Sigma.snd).map Standing.user =
      (byUser r).entries.map Sigma.fst := by
    rw [List.map_map]
    refine List.map_congr_left fun e he => ?_
    have hlook : (byUser r).lookup e.1 = some e.2 := AList.mem_lookup_iff.mpr he
    rw [lookup_byUser] at hlook
    split_ifs at hlook
    rw [Option.some.injEq] at hlook
    change e.2.user = e.1
    rw [← hlook]
    rfl
  rw [hkeys]
  exact (byUser r).nodupKeys

/-- The order of the ranking: points down, then users up. -/
def Standing.before (a b : Standing) : Prop :=
  b.points < a.points ∨ a.points = b.points ∧ a.user < b.user

def Standing.key (a : Standing) : Lex (Intᵒᵈ × GoString) := toLex (OrderDual.toDual a.points, a.user)

theorem Standing.less_iff (a b : Standing) : a.less b = true ↔ a.key < b.key := by
  rw [Standing.key, Standing.key, Prod.Lex.toLex_lt_toLex, Standing.less]
  by_cases hpoints : a.points = b.points
  · simp [hpoints]
  · simp [hpoints]

theorem pairwise_ranking (r : Ranges s) : (standings r).ranking.Pairwise Standing.before := by
  have hsorted := @pairwise_sortSlice Standing (Lex (Intᵒᵈ × GoString)) inferInstance Standing.less
    Standing.key Standing.less_iff ((byUser r).entries.map Sigma.snd)
  have hne : (standings r).ranking.Pairwise fun a b => a.user ≠ b.user :=
    List.pairwise_map.mp (nodup_users_ranking r)
  refine (hsorted.and hne).imp fun {a b} hab => ?_
  obtain ⟨hle, hne⟩ := hab
  rw [Standing.key, Standing.key, Prod.Lex.toLex_le_toLex] at hle
  rcases hle with hlt | ⟨heq, hle⟩
  · exact .inl hlt
  · exact .inr ⟨heq, lt_of_le_of_ne hle hne⟩

/-- A user occurs once at most under each hash. -/
theorem filter_user_map (hash u : GoString) {us : List GoString} (hus : us.Nodup) :
    ((us.map (Solve.of s hash)).filter fun row => row.user = u) =
      if u ∈ us then [Solve.of s hash u] else [] := by
  rw [List.filter_map]
  change (us.filter (· = u)).map (Solve.of s hash) = _
  rw [List.filter_eq]
  split_ifs with hu
  · rw [List.count_eq_one_of_mem hus hu]
    rfl
  · rw [List.count_eq_zero_of_not_mem hu]
    rfl

theorem filter_user_solveRows (r : Ranges s) (u : GoString) :
    ((solveRows r).filter fun row => row.user = u) =
      (r.solves.filter fun p => u ∈ p.2).map fun p => Solve.of s p.1 u := by
  have hrows := r.users_nodup
  rw [solveRows]
  generalize r.solves = solves at hrows
  induction solves with
  | nil => rfl
  | cons p solves ih =>
    rw [List.forall_mem_cons] at hrows
    rw [List.flatMap_cons, List.filter_append, filter_user_map p.1 u hrows.1, ih hrows.2,
      List.filter_cons]
    by_cases hu : u ∈ p.2
    · simp [hu]
    · simp [hu]

theorem nodup_keys_solves (r : Ranges s) : (r.solves.map Prod.fst).Nodup := by
  have hkeys := (r.solves_perm.map Sigma.fst).nodup_iff.mpr s.solves.nodupKeys
  rwa [List.map_map] at hkeys

/-! ## Rows by challenge -/

theorem lookup_solves_iff (r : Ranges s) {h : GoString} {users : Finset GoString} :
    s.solves.lookup h = some users ↔ ∃ us, (h, us) ∈ r.solves ∧ us.toFinset = users := by
  rw [← Option.mem_def, AList.mem_lookup_iff, ← r.solves_perm.mem_iff, List.mem_map]
  constructor
  · rintro ⟨⟨h', us⟩, hp, heq⟩
    cases heq
    exact ⟨us, hp, rfl⟩
  · intro hus
    obtain ⟨us, hp, rfl⟩ := hus
    exact ⟨(h, us), hp, rfl⟩

theorem filter_challengeHash_solveRows (r : Ranges s) (h : GoString) :
    ((solveRows r).filter fun row => row.challengeHash = h) =
      (r.solves.filter fun p => p.1 = h).flatMap fun p => p.2.map (Solve.of s p.1) := by
  rw [solveRows, List.filter_flatMap]
  generalize r.solves = solves
  induction solves with
  | nil => rfl
  | cons p solves ih =>
    rw [List.flatMap_cons, ih, List.filter_map]
    by_cases hp : p.1 = h
    · have hall : p.2.filter ((fun row => decide (row.challengeHash = h)) ∘ Solve.of s p.1) = p.2 :=
        List.filter_eq_self.mpr fun _ _ => decide_eq_true hp
      rw [hall, List.filter_cons, if_pos (decide_eq_true hp), List.flatMap_cons]
    · have hnone : p.2.filter ((fun row => decide (row.challengeHash = h)) ∘ Solve.of s p.1) = [] :=
        List.filter_eq_nil_iff.mpr fun _ _ heq => hp (of_decide_eq_true heq)
      rw [hnone, List.filter_cons, if_neg (by simpa using hp)]
      rfl

/-- A challenge has a row for each of its users. -/
theorem length_filter_challengeHash (r : Ranges s) (h : GoString) :
    ((solveRows r).filter fun row => row.challengeHash = h).length = (s.users h).card := by
  rw [filter_challengeHash_solveRows, users]
  cases hh : s.solves.lookup h with
  | none =>
    have hnone : (r.solves.filter fun p => p.1 = h) = [] := by
      rw [List.filter_eq_nil_iff]
      intro p hp heq
      obtain rfl := of_decide_eq_true heq
      rw [(lookup_solves_iff r).mpr ⟨p.2, hp, rfl⟩] at hh
      cases hh
    rw [hnone]
    rfl
  | some users =>
    obtain ⟨us, hmem, rfl⟩ := (lookup_solves_iff r).mp hh
    have hone := filter_eq_singleton (nodup_keys_solves r) hmem
    rw [hone, List.flatMap_singleton, List.length_map, Option.getD_some]
    exact (List.toFinset_card_of_nodup (r.users_nodup _ hmem)).symm

/-! ## The two views -/

/-- What the two views say of each other.  `out` are the rows of `Results`. -/
structure Agree (s : Store) (out : List Solve) (view : View) : Prop where
  users_nodup : (view.ranking.map Standing.user).Nodup
  mem_users : ∀ u, u ∈ view.ranking.map Standing.user ↔ u ∈ out.map Solve.user
  solved : ∀ x ∈ view.ranking, x.solved = (out.filter fun row => row.user = x.user).length
  points : ∀ x ∈ view.ranking,
    x.points = goInt ((out.filter fun row => row.user = x.user).map Solve.value).sum
  ordered : view.ranking.Pairwise Standing.before
  registered : (view.challenges.map ChallengeStat.hash).Perm (s.byHash.entries.map Sigma.fst)
  stat : ∀ x ∈ view.challenges, (∃ c, s.get x.hash = some c ∧ x.name = c.name ∧ x.value = c.value) ∧
    x.solved = (out.filter fun row => row.challengeHash = x.hash).length
  total : (view.challenges.map ChallengeStat.solved).sum +
    (out.filter fun row => (s.get row.challengeHash).isNone).length = out.length
  bounded : (∀ h c, s.get h = some c → 0 ≤ c.value) →
    (view.challenges.map ChallengeStat.value).sum < 2 ^ 63 →
      ∀ x ∈ view.ranking, x.points ≤ view.totalPoints

def statOf (s : Store) (e : Sigma fun _ : GoString => Challenge) : ChallengeStat :=
  ⟨e.1, e.2.name, e.2.value, (s.users e.1).card⟩

theorem perm_challenges (r : Ranges s) :
    (standings r).challenges.Perm (s.byHash.entries.map (statOf s)) :=
  (perm_sortSlice _ _).trans (r.byHash_perm.map _)

theorem perm_hashes (r : Ranges s) :
    ((standings r).challenges.map ChallengeStat.hash).Perm (s.byHash.entries.map Sigma.fst) := by
  have h := (perm_challenges r).map ChallengeStat.hash
  rwa [List.map_map] at h

theorem mem_hashes_iff {h : GoString} :
    h ∈ s.byHash.entries.map Sigma.fst ↔ (s.get h).isSome = true := by
  rw [get, AList.lookup_isSome]
  rfl

/-- The rows of registered hashes, counted by challenge. -/
theorem sum_solved (r : Ranges s) :
    ((standings r).challenges.map ChallengeStat.solved).sum =
      ((solveRows r).filter fun row => (s.get row.challengeHash).isSome).length := by
  have hcards : s.byHash.entries.map (ChallengeStat.solved ∘ statOf s) =
      (s.byHash.entries.map Sigma.fst).map fun k =>
        ((solveRows r).filter fun row => row.challengeHash = k).length := by
    rw [List.map_map]
    exact List.map_congr_left fun e _ => (length_filter_challengeHash r e.1).symm
  rw [((perm_challenges r).map ChallengeStat.solved).sum_eq, List.map_map, hcards]
  exact sum_length_filter Solve.challengeHash (solveRows r) s.byHash.nodupKeys
    fun row => mem_hashes_iff.symm

/-! ## Points and the total -/

/-- What a hash adds to the points. -/
def valueOf (s : Store) (h : GoString) : Int := (s.nameValue h).2

theorem valueOf_of_get {h : GoString} {c : Challenge} (hc : s.get h = some c) :
    s.valueOf h = c.value := by
  have hlook : s.byHash.lookup h = some c := hc
  rw [valueOf, nameValue, hlook]

theorem valueOf_of_get_none {h : GoString} (hc : s.get h = none) : s.valueOf h = 0 := by
  have hlook : s.byHash.lookup h = none := hc
  rw [valueOf, nameValue, hlook]

theorem valueOf_nonneg (hpos : ∀ h c, s.get h = some c → 0 ≤ c.value) (h : GoString) :
    0 ≤ s.valueOf h := by
  cases hc : s.get h with
  | none => exact (valueOf_of_get_none hc).ge
  | some c =>
    rw [valueOf_of_get hc]
    exact hpos h c hc

theorem sum_registered :
    (s.byHash.entries.map fun e => e.2.value).sum =
      ∑ h ∈ (s.byHash.entries.map Sigma.fst).toFinset, s.valueOf h := by
  have hnodup : (s.byHash.entries.map Sigma.fst).Nodup := s.byHash.nodupKeys
  rw [List.sum_toFinset _ hnodup, List.map_map]
  refine congrArg List.sum (List.map_congr_left fun e he => ?_)
  exact (valueOf_of_get (AList.mem_lookup_iff.mpr he)).symm

theorem sum_values_user (r : Ranges s) (u : GoString) :
    (((solveRows r).filter fun row => row.user = u).map Solve.value).sum =
      ∑ h ∈ ((r.solves.filter fun p => u ∈ p.2).map Prod.fst).toFinset, s.valueOf h := by
  have hnodup : ((r.solves.filter fun p => u ∈ p.2).map Prod.fst).Nodup :=
    (nodup_keys_solves r).sublist (List.filter_sublist.map Prod.fst)
  rw [List.sum_toFinset _ hnodup, filter_user_solveRows, List.map_map, List.map_map]
  rfl

/-- No challenge counts twice for a user, so their values add up to those of all challenges
at most. -/
theorem sum_values_le (r : Ranges s) (hpos : ∀ h c, s.get h = some c → 0 ≤ c.value)
    (u : GoString) :
    0 ≤ (((solveRows r).filter fun row => row.user = u).map Solve.value).sum ∧
      (((solveRows r).filter fun row => row.user = u).map Solve.value).sum ≤
        (s.byHash.entries.map fun e => e.2.value).sum := by
  rw [sum_values_user, sum_registered]
  refine ⟨Finset.sum_nonneg fun h _ => valueOf_nonneg hpos h, ?_⟩
  generalize ((r.solves.filter fun p => u ∈ p.2).map Prod.fst).toFinset = solvedHashes
  set registered := (s.byHash.entries.map Sigma.fst).toFinset with hreg
  -- A hash that is not registered adds nothing.
  have hzero : ∀ h ∈ solvedHashes, h ∉ solvedHashes ∩ registered → s.valueOf h = 0 := by
    intro h hh hnot
    rw [Finset.mem_inter, not_and] at hnot
    refine valueOf_of_get_none ?_
    rw [← Option.not_isSome_iff_eq_none, ← mem_hashes_iff, ← List.mem_toFinset]
    exact hnot hh
  calc ∑ h ∈ solvedHashes, s.valueOf h
      = ∑ h ∈ solvedHashes ∩ registered, s.valueOf h :=
        (Finset.sum_subset Finset.inter_subset_left hzero).symm
    _ ≤ ∑ h ∈ registered, s.valueOf h :=
        Finset.sum_le_sum_of_subset_of_nonneg Finset.inter_subset_right
          fun h _ _ => valueOf_nonneg hpos h

theorem totalPoints_eq (r : Ranges s) :
    (standings r).totalPoints = goInt (s.byHash.entries.map fun e => e.2.value).sum := by
  have hfold := foldl_goInt (fun e : Sigma fun _ : GoString => Challenge => e.2.value) r.byHash 0
  rw [zero_add, (r.byHash_perm.map _).sum_eq] at hfold
  exact hfold

/-! ## Agreement -/

/-- A statistic by the rows. -/
theorem stat_of_mem (r : Ranges s) {x : ChallengeStat} (hx : x ∈ (standings r).challenges) :
    (∃ c, s.get x.hash = some c ∧ x.name = c.name ∧ x.value = c.value) ∧
      x.solved = ((solveRows r).filter fun row => row.challengeHash = x.hash).length := by
  rw [(perm_challenges r).mem_iff, List.mem_map] at hx
  obtain ⟨e, he, rfl⟩ := hx
  exact ⟨⟨e.2, AList.mem_lookup_iff.mpr he, rfl, rfl⟩, (length_filter_challengeHash r e.1).symm⟩

/-- Without overflow the points are at most the total. -/
theorem points_le (r : Ranges s) (hpos : ∀ h c, s.get h = some c → 0 ≤ c.value)
    (hsmall : ((standings r).challenges.map ChallengeStat.value).sum < 2 ^ 63) {x : Standing}
    (hx : x ∈ (standings r).ranking) : x.points ≤ (standings r).totalPoints := by
  obtain ⟨hnonneg, hle⟩ := sum_values_le r hpos x.user
  have hstats : (standings r).challenges.map ChallengeStat.value |>.Perm
      (s.byHash.entries.map fun e => e.2.value) := by
    have h := (perm_challenges r).map ChallengeStat.value
    rwa [List.map_map] at h
  rw [hstats.sum_eq] at hsmall
  rw [totalPoints_eq, ((mem_ranking_iff r).mp hx).2]
  change goInt _ ≤ _
  rw [goInt_eq_self hnonneg (hle.trans_lt hsmall), goInt_eq_self (hnonneg.trans hle) hsmall]
  exact hle

/-- The views agree, whatever orders the two calls range over the maps in. -/
theorem standings_agree (s : Store) (r r' : Ranges s) : Agree s (results r) (standings r') := by
  have hperm : (results r).Perm (solveRows r') := perm_results r r'
  have hof : ∀ x ∈ (standings r').ranking, x = standingOf (results r) x.user := by
    intro x hx
    rw [standingOf_congr hperm]
    exact ((mem_ranking_iff r').mp hx).2
  refine ⟨nodup_users_ranking r', fun u => ?_, fun x hx => ?_, fun x hx => ?_, pairwise_ranking r',
    perm_hashes r', fun x hx => ?_, ?_, fun hpos hsmall x hx => points_le r' hpos hsmall hx⟩
  · rw [(hperm.map Solve.user).mem_iff, List.mem_map, List.mem_map]
    constructor
    · intro hu
      obtain ⟨x, hx, rfl⟩ := hu
      exact ((mem_ranking_iff r').mp hx).1
    · intro hu
      exact ⟨standingOf (solveRows r') u, (mem_ranking_iff r').mpr ⟨hu, rfl⟩, rfl⟩
  · exact congrArg Standing.solved (hof x hx)
  · exact congrArg Standing.points (hof x hx)
  · rw [(hperm.filter _).length_eq]
    exact stat_of_mem r' hx
  · rw [sum_solved, (hperm.filter _).length_eq, hperm.length_eq]
    have hnone : ∀ row : Solve, (s.get row.challengeHash).isNone =
        !(s.get row.challengeHash).isSome := fun row => by rw [Option.not_isSome]
    simp only [hnone]
    exact (List.length_eq_length_filter_add _).symm

/-! ## Points that wrap around -/

def worth (hash : String) (value : Int) : Challenge := ⟨utf8 hash, utf8 hash, value, [], none⟩

/-- Two challenges of 2⁶² points, of which alice has solved one. -/
def highStore : Store :=
  ((((newStore none).put (worth "c1" (2 ^ 62))).put (worth "c2" (2 ^ 62))).recordSolve
    (utf8 "c1") (utf8 "alice")).2

def highRanges : Ranges highStore where
  byHash := [⟨utf8 "c2", worth "c2" (2 ^ 62)⟩, ⟨utf8 "c1", worth "c1" (2 ^ 62)⟩]
  solves := [(utf8 "c1", [utf8 "alice"])]
  byHash_perm := .of_eq rfl
  solves_perm := .of_eq rfl
  users_nodup := by decide

/-- No registered value is negative, and alice has more points than there are. -/
theorem not_bounded_highStore :
    (∀ e ∈ highStore.byHash.entries, 0 ≤ e.2.value) ∧
      ∃ x ∈ (standings highRanges).ranking, (standings highRanges).totalPoints < x.points := by
  decide +kernel

end TrainingPlatform.Scoring.Store
