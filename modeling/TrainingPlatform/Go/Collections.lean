import Mathlib.Algebra.BigOperators.Group.List.Basic
import Mathlib.Algebra.GroupWithZero.Nat
import Mathlib.Algebra.Ring.Int.Defs
import Mathlib.Data.List.AList
import Mathlib.Data.List.Induction
import Mathlib.Data.List.Lex
import Mathlib.Data.List.Sort
import Mathlib.Logic.Equiv.Basic

/-!
# Sums, sorting and maps by key

An `int` wraps around at 64 bits.  `sort.Slice` leaves the order of equal elements open.
`tally` is a loop that keeps one entry for each key of its rows.
-/

namespace Go

/-! ## Sums of ints -/

/-- The value an `int` has after arithmetic. -/
def goInt (x : Int) : Int := x.bmod (2 ^ 64)

theorem goInt_add (x y : Int) : goInt (goInt x + y) = goInt (x + y) := Int.bmod_add_bmod

theorem goInt_eq_self {x : Int} (h₀ : 0 ≤ x) (h : x < 2 ^ 63) : goInt x = x := by
  refine Int.bmod_eq_of_le_mul_two ?_ ?_
  · omega
  · omega

/-- A loop that adds up ints. -/
theorem foldl_goInt {α : Type*} (f : α → Int) (l : List α) (x : Int) :
    l.foldl (fun total a => goInt (total + f a)) (goInt x) = goInt (x + (l.map f).sum) := by
  induction l generalizing x with
  | nil => simp
  | cons a l ih => rw [List.foldl_cons, goInt_add, ih, List.map_cons, List.sum_cons, add_assoc]

/-! ## Sorting -/

/-- Bytes by their value; strings compare byte by byte. -/
instance linearOrderUInt8 : LinearOrder UInt8 where
  le_refl := UInt8.le_refl
  le_trans _ _ _ := UInt8.le_trans
  le_antisymm _ _ := UInt8.le_antisymm
  le_total := UInt8.le_total
  lt_iff_le_not_ge _ _ := by
    rw [UInt8.not_le, iff_and_self]
    exact UInt8.le_of_lt
  toDecidableLE := inferInstance

/-- `sort.Slice` with its `less`; of the orders it may give equal elements, the one they
have. -/
def sortSlice {α : Type*} (less : α → α → Bool) (l : List α) : List α :=
  l.insertionSort fun a b => ¬ less b a

theorem perm_sortSlice {α : Type*} (less : α → α → Bool) (l : List α) :
    (sortSlice less l).Perm l := List.perm_insertionSort _ l

/-- A `less` that compares keys sorts by them. -/
theorem pairwise_sortSlice {α κ : Type*} [LinearOrder κ] {less : α → α → Bool} {key : α → κ}
    (h : ∀ a b, less a b = true ↔ key a < key b) (l : List α) :
    (sortSlice less l).Pairwise fun a b => key a ≤ key b := by
  have hle : ∀ a b, ¬ less b a = true ↔ key a ≤ key b := fun a b => by rw [h, not_lt]
  have htotal : Std.Total fun a b : α => ¬ less b a = true :=
    ⟨fun a b => by simpa only [hle] using le_total (key a) (key b)⟩
  have htrans : IsTrans α fun a b => ¬ less b a = true :=
    ⟨fun a b c => by simpa only [hle] using le_trans⟩
  exact (List.pairwise_insertionSort _ l).imp fun hab => (hle _ _).mp hab

/-- What `sort.Slice` may leave of a slice: it need not be stable. -/
structure SortsTo {α : Type*} (less : α → α → Bool) (l out : List α) : Prop where
  perm : out.Perm l
  ordered : out.Pairwise fun a b => ¬ less b a = true

section SortsTo

variable {α κ : Type*} [LinearOrder κ] {less : α → α → Bool} {key : α → κ} {l l' : List α}

theorem sortsTo_sortSlice (h : ∀ a b, less a b = true ↔ key a < key b) (l : List α) :
    SortsTo less l (sortSlice less l) := by
  refine ⟨perm_sortSlice less l, (pairwise_sortSlice h l).imp fun {a b} hab => ?_⟩
  rw [h, not_lt]
  exact hab

/-- Where no two elements have one key, the order is determined. -/
theorem SortsTo.eq {out out' : List α} (h : ∀ a b, less a b = true ↔ key a < key b)
    (hkey : ∀ a ∈ l, ∀ b ∈ l, key a = key b → a = b) (hl : l'.Perm l)
    (hout : SortsTo less l out) (hout' : SortsTo less l' out') : out = out' := by
  have hperm := hout'.perm.trans hl
  refine List.Perm.eq_of_pairwise (fun a b ha hb hab hba => ?_) hout.ordered hout'.ordered
    (hout.perm.trans hperm.symm)
  rw [h, not_lt] at hab hba
  exact hkey a (hout.perm.subset ha) b (hperm.subset hb) (le_antisymm hab hba)

/-- Two elements of one key may change places. -/
theorem SortsTo.map_swap [DecidableEq α] {out : List α}
    (h : ∀ a b, less a b = true ↔ key a < key b) (hl : l.Nodup) {a b : α} (ha : a ∈ l) (hb : b ∈ l)
    (hab : key a = key b) (hout : SortsTo less l out) :
    SortsTo less l (out.map (Equiv.swap a b)) := by
  have hkey : ∀ x, key (Equiv.swap a b x) = key x := by
    intro x
    rw [Equiv.swap_apply_def]
    split_ifs with hxa hxb
    · rw [hxa, hab]
    · rw [hxb, hab]
    · rfl
  constructor
  · have hmem : ∀ x, x ∈ l.map (Equiv.swap a b) ↔ x ∈ l := by
      intro x
      rw [List.mem_map_of_involutive (Equiv.swap_apply_self a b), Equiv.swap_apply_def]
      split_ifs with hxa hxb
      · rw [hxa]
        exact iff_of_true hb ha
      · rw [hxb]
        exact iff_of_true ha hb
      · rfl
    refine (hout.perm.map _).trans ?_
    exact (List.perm_ext_iff_of_nodup (hl.map (Equiv.injective _)) hl).mpr hmem
  · refine List.pairwise_map.mpr (hout.ordered.imp fun {x y} hxy => ?_)
    rw [h] at hxy ⊢
    rwa [hkey, hkey]

/-- Sorting slices of the same elements has one outcome exactly when no two of them have one
key. -/
theorem sortsTo_unique_iff {ι : Type*} {slice : ι → List α}
    (h : ∀ a b, less a b = true ↔ key a < key b) (hperm : ∀ i j, (slice i).Perm (slice j)) (i : ι)
    (hl : (slice i).Nodup) :
    (∀ out out', (∃ j, SortsTo less (slice j) out) → (∃ j, SortsTo less (slice j) out') →
      out = out') ↔ ∀ a ∈ slice i, ∀ b ∈ slice i, key a = key b → a = b := by
  constructor
  · intro hunique a ha b hb hab
    classical
    have hsorted := sortsTo_sortSlice h (slice i)
    have heq := hunique _ _ ⟨i, hsorted⟩ ⟨i, hsorted.map_swap h hl ha hb hab⟩
    have hfixed := List.map_eq_map_iff.mp ((List.map_id _).trans heq)
    have hb' := hfixed a (hsorted.perm.mem_iff.mpr ha)
    rwa [id_eq, Equiv.swap_apply_left] at hb'
  · intro hkey out out' hout hout'
    obtain ⟨j, hout⟩ := hout
    obtain ⟨j', hout'⟩ := hout'
    refine hout.eq h (fun a ha b hb => ?_) (hperm j' j) hout'
    exact hkey a ((hperm j i).subset ha) b ((hperm j i).subset hb)

end SortsTo

/-! ## Rows by key -/

/-- The rows of one key, where every key occurs once. -/
theorem filter_eq_singleton {ρ κ : Type*} [DecidableEq κ] {key : ρ → κ} {rows : List ρ} {r : ρ}
    (hnodup : (rows.map key).Nodup) (hr : r ∈ rows) :
    (rows.filter fun r' => key r' = key r) = [r] := by
  induction rows with
  | nil => cases hr
  | cons q rows ih =>
    rw [List.map_cons, List.nodup_cons] at hnodup
    rcases List.mem_cons.mp hr with rfl | hr
    · have hnone : (rows.filter fun r' => key r' = key r) = [] := by
        rw [List.filter_eq_nil_iff]
        intro r' hr' heq
        exact hnodup.1 (List.mem_map.mpr ⟨r', hr', of_decide_eq_true heq⟩)
      rw [List.filter_cons, if_pos (decide_eq_true rfl), hnone]
    · have hne : key q ≠ key r := fun heq => hnodup.1 (List.mem_map.mpr ⟨r, hr, heq.symm⟩)
      rw [List.filter_cons, if_neg (by simpa using hne), ih hnodup.2 hr]

theorem length_filter_cons {ρ κ : Type*} [DecidableEq κ] (key : ρ → κ) (rows : List ρ) {k : κ}
    {keys : List κ} (hk : k ∉ keys) :
    (rows.filter fun r => key r ∈ k :: keys).length =
      (rows.filter fun r => key r = k).length + (rows.filter fun r => key r ∈ keys).length := by
  simp only [← List.countP_eq_length_filter]
  induction rows with
  | nil => rfl
  | cons r rows ih =>
    rw [List.countP_cons, List.countP_cons, List.countP_cons, ih]
    by_cases hr : key r = k
    · subst hr
      simp [hk]
      omega
    · simp [hr]
      omega

/-- Counting the rows key by key counts the rows of all keys. -/
theorem sum_length_filter {ρ κ : Type*} [DecidableEq κ] (key : ρ → κ) (rows : List ρ)
    {keys : List κ} (hnodup : keys.Nodup) {p : ρ → Bool} (hp : ∀ r, p r = true ↔ key r ∈ keys) :
    (keys.map fun k => (rows.filter fun r => key r = k).length).sum = (rows.filter p).length := by
  have hfilter : rows.filter p = rows.filter fun r => key r ∈ keys :=
    List.filter_congr fun r _ => by rw [Bool.eq_iff_iff, hp, decide_eq_true_iff]
  rw [hfilter]
  clear hfilter hp
  induction keys with
  | nil => simp
  | cons k keys ih =>
    rw [List.nodup_cons] at hnodup
    rw [List.map_cons, List.sum_cons, ih hnodup.2, length_filter_cons key rows hnodup.1]

/-! ## Maps by key -/

section Tally

variable {ρ κ β : Type*} [DecidableEq κ]

/-- One round of the loop: the entry of the row's key, or a fresh one, takes the row in. -/
def tallyRow (key : ρ → κ) (init : κ → β) (add : β → ρ → β) (m : AList fun _ : κ => β) (r : ρ) :
    AList fun _ : κ => β :=
  m.insert (key r) (add ((m.lookup (key r)).getD (init (key r))) r)

def tally (key : ρ → κ) (init : κ → β) (add : β → ρ → β) (rows : List ρ) : AList fun _ : κ => β :=
  rows.foldl (tallyRow key init add) ∅

variable {key : ρ → κ} {init : κ → β} {add : β → ρ → β}

theorem tally_concat (rows : List ρ) (r : ρ) :
    tally key init add (rows ++ [r]) = tallyRow key init add (tally key init add rows) r := by
  rw [tally, List.foldl_append]
  rfl

/-- The entry of a key has taken in the rows of that key, in order. -/
theorem lookup_tally (rows : List ρ) (k : κ) :
    (tally key init add rows).lookup k =
      if ∃ r ∈ rows, key r = k then some ((rows.filter fun r => key r = k).foldl add (init k))
      else none := by
  induction rows using List.reverseRecOn with
  | nil => simp [tally]
  | append_singleton rows r ih =>
    rw [tally_concat, tallyRow]
    by_cases hk : key r = k
    · subst hk
      have hlast : ∃ r' ∈ rows ++ [r], key r' = key r := ⟨r, by simp, rfl⟩
      rw [if_pos hlast, AList.lookup_insert, ih, List.filter_append, List.foldl_append]
      split_ifs with hrow
      · simp
      · have hnone : (rows.filter fun r' => key r' = key r) = [] := by
          rw [List.filter_eq_nil_iff]
          intro r' hr' heq
          exact hrow ⟨r', hr', of_decide_eq_true heq⟩
        simp [hnone]
    · rw [AList.lookup_insert_ne (Ne.symm hk), ih]
      simp [hk, List.filter_append]

end Tally

end Go
