import Mathlib.Algebra.Group.Action.Defs
import Mathlib.Algebra.Order.BigOperators.Group.List
import Mathlib.Algebra.Order.Ring.Int
import Mathlib.Algebra.Order.Group.Nat
import Mathlib.Data.Nat.Bitwise

/-!
# The difference hash of an image

Coordinates are ints and the sums of a cell `uint64`s, neither of which the products and sums of
an image in memory leave.
-/

namespace TrainingPlatform.Scoring

/-- `image.Rectangle`. -/
structure Rect where
  minX : Int
  minY : Int
  maxX : Int
  maxY : Int

def Rect.dx (r : Rect) : Int := r.maxX - r.minX
def Rect.dy (r : Rect) : Int := r.maxY - r.minY

def Rect.empty (r : Rect) : Bool := r.maxX ≤ r.minX || r.maxY ≤ r.minY

def Rect.contains (r : Rect) (x y : Int) : Bool :=
  r.minX ≤ x && x < r.maxX && r.minY ≤ y && y < r.maxY

def Rect.add (r : Rect) (x y : Int) : Rect := ⟨r.minX + x, r.minY + y, r.maxX + x, r.maxY + y⟩

theorem Rect.dx_add (r : Rect) (x y : Int) : (r.add x y).dx = r.dx :=
  add_sub_add_right_eq_sub r.maxX r.minX x

theorem Rect.dy_add (r : Rect) (x y : Int) : (r.add x y).dy = r.dy :=
  add_sub_add_right_eq_sub r.maxY r.minY y

/-- An image by its bounds and what `color.GrayModel` makes of `At`. -/
structure Image where
  bounds : Rect
  gray : Int → Int → UInt8

/-- An `image.Gray` of some pixels: black outside its bounds. -/
def grayImage (bounds : Rect) (pix : Int → Int → UInt8) : Image where
  bounds := bounds
  gray x y := if bounds.contains x y then pix x y else 0

def max1 (n : Int) : Int := if n < 1 then 1 else n

/-- Where the `i`-th of `w` cells starts, along a side of length `d` from `min`. -/
def cellStart (min d : Int) (w i : Nat) : Int := min + i * max1 d / w

/-- Where it ends: no cell is without a pixel. -/
def cellEnd (min d : Int) (w i : Nat) : Int :=
  if cellStart min d w (i + 1) ≤ cellStart min d w i then cellStart min d w i + 1
  else cellStart min d w (i + 1)

/-- `for v := lo; v < hi; v++`. -/
def coords (lo hi : Int) : List Int := (List.range (hi - lo).toNat).map fun k : Nat => lo + k

/-- The values a cell adds up. -/
def cellValues (img : Image) (w h x y : Nat) : List Nat :=
  let b := img.bounds
  (coords (cellStart b.minY b.dy h y) (cellEnd b.minY b.dy h y)).flatMap fun yy =>
    (coords (cellStart b.minX b.dx w x) (cellEnd b.minX b.dx w x)).map fun xx =>
      (img.gray xx yy).toNat

/-- `resizeGray`, by the row and column of its result. -/
def resizeGray (img : Image) (w h y x : Nat) : UInt8 :=
  let sum := (cellValues img w h x y).sum
  let n := (cellValues img w h x y).length
  if 0 < n then UInt8.ofNat (sum / n) else 0

/-- The bits in the order they are set, each with its row and column. -/
def hashBits : List (Nat × Nat × Nat) := (List.range 64).map fun bit => (bit, bit / 8, bit % 8)

/-- `DHash`: a 9 × 8 image has eight comparisons in each of its eight rows. -/
def dHash (img : Image) : Nat :=
  let small := resizeGray img 9 8
  hashBits.foldl (fun hash b =>
    if small b.2.1 b.2.2 < small b.2.1 (b.2.2 + 1) then hash ||| 1 <<< b.1 else hash) 0

/-- `bits.OnesCount64(a ^ b)`. -/
def hamming (a b : Nat) : Nat := ((List.range 64).filter fun i => (a ^^^ b).testBit i).length

theorem lt_of_mem_hashBits {b : Nat × Nat × Nat} (h : b ∈ hashBits) :
    b.1 < 64 ∧ b.2.1 < 8 ∧ b.2.2 < 8 := by
  obtain ⟨bit, hbit, rfl⟩ := List.mem_map.mp h
  rw [List.mem_range] at hbit
  dsimp only
  omega

/-- Setting bits below `n` stays below `2 ^ n`. -/
theorem foldl_setBit_lt {n : Nat} (p : Nat × Nat × Nat → Prop) [DecidablePred p]
    {bits : List (Nat × Nat × Nat)} (hbits : ∀ b ∈ bits, b.1 < n) {hash : Nat}
    (hhash : hash < 2 ^ n) :
    bits.foldl (fun hash b => if p b then hash ||| 1 <<< b.1 else hash) hash < 2 ^ n := by
  induction bits generalizing hash with
  | nil => exact hhash
  | cons b bits ih =>
    rw [List.forall_mem_cons] at hbits
    rw [List.foldl_cons]
    refine ih hbits.2 ?_
    split_ifs
    · refine Nat.or_lt_two_pow hhash ?_
      rw [Nat.one_shiftLeft]
      exact Nat.pow_lt_pow_right Nat.one_lt_two hbits.1
    · exact hhash

/-- The hash is a `uint64`. -/
theorem dHash_lt (img : Image) : dHash img < 2 ^ 64 := by
  rw [dHash]
  exact foldl_setBit_lt (n := 64) _ (fun _ hb => (lt_of_mem_hashBits hb).1) (Nat.two_pow_pos 64)

/-! ## The cells -/

section Cells

variable {a d : Int} {w i : Nat}

theorem max1_of_pos (hd : 0 < d) : max1 d = d := if_neg (by omega)

/-- A cell of a side that is not empty starts on it. -/
theorem cellStart_mem (hd : 0 < d) (hi : i < w) :
    a ≤ cellStart a d w i ∧ cellStart a d w i < a + d := by
  have hw : (0 : Int) < w := by omega
  rw [cellStart, max1_of_pos hd]
  constructor
  · have hpos : 0 ≤ (i : Int) * d / w :=
      Int.ediv_nonneg (Int.mul_nonneg (Int.natCast_nonneg i) hd.le) hw.le
    omega
  · have hlt : (i : Int) * d / w < d := by
      rw [Int.ediv_lt_iff_lt_mul hw, mul_comm d]
      exact mul_lt_mul_of_pos_right (by exact_mod_cast hi) hd
    omega

theorem cellStart_lt_cellEnd : cellStart a d w i < cellEnd a d w i := by
  rw [cellEnd]
  split_ifs with h
  · exact Int.lt_succ _
  · exact not_le.mp h

theorem cellEnd_le (hd : 0 < d) (hi : i < w) : cellEnd a d w i ≤ a + d := by
  have hstart := (cellStart_mem (a := a) hd hi).2
  rw [cellEnd]
  split_ifs with h
  · omega
  · have hw : (0 : Int) < w := by omega
    rw [cellStart, max1_of_pos hd]
    have hle : ((i + 1 : Nat) : Int) * d / w ≤ d := by
      have hmul : ((i + 1 : Nat) : Int) * d ≤ w * d :=
        Int.mul_le_mul_of_nonneg_right (by exact_mod_cast hi) hd.le
      exact Int.ediv_le_of_le_mul hw (by rwa [mul_comm d])
    omega

theorem cellStart_add (e : Int) : cellStart (a + e) d w i = cellStart a d w i + e := by
  rw [cellStart, cellStart, add_right_comm]

theorem cellEnd_add (e : Int) : cellEnd (a + e) d w i = cellEnd a d w i + e := by
  simp only [cellEnd, cellStart_add, Int.add_le_add_iff_right]
  split_ifs
  · exact add_right_comm _ _ _
  · rfl

end Cells

theorem mem_coords_iff {lo hi v : Int} : v ∈ coords lo hi ↔ lo ≤ v ∧ v < hi := by
  rw [coords, List.mem_map]
  constructor
  · intro hv
    obtain ⟨k, hk, rfl⟩ := hv
    rw [List.mem_range] at hk
    omega
  · intro hv
    exact ⟨(v - lo).toNat, List.mem_range.mpr (by omega), by omega⟩

theorem coords_add (lo hi e : Int) : coords (lo + e) (hi + e) = (coords lo hi).map (· + e) := by
  have hlen : hi + e - (lo + e) = hi - lo := by omega
  rw [coords, coords, hlen, List.map_map]
  exact List.map_congr_left fun k _ => add_right_comm lo e k

theorem coords_ne_nil {lo hi : Int} (h : lo < hi) : coords lo hi ≠ [] :=
  List.ne_nil_of_mem (mem_coords_iff.mpr ⟨le_rfl, h⟩)

/-! ## Moving and brightening an image -/

/-- `b` shows what `a` does, moved by `x` and `y` and brighter by `c`. -/
structure Shifted (a b : Image) (x y c : Int) : Prop where
  bounds : b.bounds = a.bounds.add x y
  gray : ∀ xx yy, a.bounds.contains xx yy = true →
    ((b.gray (xx + x) (yy + y)).toNat : Int) = (a.gray xx yy).toNat + c

section Shifted

variable {a b : Image} {x y c : Int}

theorem pos_of_not_empty {r : Rect} (h : r.empty = false) : 0 < r.dx ∧ 0 < r.dy := by
  simp only [Rect.empty, Bool.or_eq_false_iff, decide_eq_false_iff_not, not_le] at h
  rw [Rect.dx, Rect.dy]
  omega

/-- The pixels of a cell are pixels of the image. -/
theorem contains_of_mem_cell {r : Rect} (hne : r.empty = false) {w h i j : Nat} (hi : i < w)
    (hj : j < h) {xx yy : Int}
    (hx : xx ∈ coords (cellStart r.minX r.dx w i) (cellEnd r.minX r.dx w i))
    (hy : yy ∈ coords (cellStart r.minY r.dy h j) (cellEnd r.minY r.dy h j)) :
    r.contains xx yy = true := by
  obtain ⟨hdx, hdy⟩ := pos_of_not_empty hne
  have hx₀ := (cellStart_mem (a := r.minX) hdx hi).1
  have hx₁ := cellEnd_le (a := r.minX) hdx hi
  have hy₀ := (cellStart_mem (a := r.minY) hdy hj).1
  have hy₁ := cellEnd_le (a := r.minY) hdy hj
  have hmaxX : r.minX + r.dx = r.maxX := by rw [Rect.dx]; omega
  have hmaxY : r.minY + r.dy = r.maxY := by rw [Rect.dy]; omega
  rw [mem_coords_iff] at hx hy
  simp only [Rect.contains, Bool.and_eq_true, decide_eq_true_eq]
  omega

/-- A cell adds up the same values, each raised by `c`. -/
theorem cellValues_shifted (hab : Shifted a b x y c) (hne : a.bounds.empty = false)
    {w h i j : Nat} (hi : i < w) (hj : j < h) :
    (cellValues b w h i j).map Nat.cast = (cellValues a w h i j).map fun v : Nat => (v : Int) + c := by
  rw [cellValues, cellValues, hab.bounds, Rect.dx_add, Rect.dy_add]
  simp only [Rect.add, cellStart_add, cellEnd_add, coords_add, List.flatMap_map, List.map_flatMap,
    List.map_map]
  refine List.flatMap_congr fun yy hyy => List.map_congr_left fun xx hxx => ?_
  exact hab.gray xx yy (contains_of_mem_cell hne hi hj hxx hyy)

theorem cellValues_ne_nil (img : Image) (w h i j : Nat) : cellValues img w h i j ≠ [] := by
  intro hnil
  rw [cellValues, List.flatMap_eq_nil_iff] at hnil
  obtain ⟨yy, hyy⟩ := List.exists_mem_of_ne_nil _ (coords_ne_nil cellStart_lt_cellEnd)
  exact coords_ne_nil cellStart_lt_cellEnd (List.map_eq_nil_iff.mp (hnil yy hyy))

theorem lt_of_mem_cellValues {img : Image} {w h i j v : Nat} (hv : v ∈ cellValues img w h i j) :
    v ≤ 255 := by
  obtain ⟨yy, -, hv⟩ := List.mem_flatMap.mp hv
  obtain ⟨xx, -, rfl⟩ := List.mem_map.mp hv
  exact Nat.le_of_lt_succ (img.gray xx yy).toNat_lt

/-- A `uint8` holds the average of a cell. -/
theorem toNat_resizeGray (img : Image) (w h i j : Nat) :
    (resizeGray img w h j i).toNat =
      (cellValues img w h i j).sum / (cellValues img w h i j).length := by
  have hpos := List.length_pos_iff.mpr (cellValues_ne_nil img w h i j)
  have hsum := List.sum_le_card_nsmul (cellValues img w h i j) 255 fun _ => lt_of_mem_cellValues
  rw [smul_eq_mul] at hsum
  have hle := Nat.div_le_of_le_mul hsum
  rw [resizeGray, if_pos hpos, UInt8.toNat_ofNat', Nat.mod_eq_of_lt (Nat.lt_succ_of_le hle)]

/-- The sum of values raised by `c`. -/
theorem sum_raised {vs us : List Nat} {c : Int}
    (h : us.map Nat.cast = vs.map fun v : Nat => (v : Int) + c) :
    us.length = vs.length ∧ ((us.sum : Nat) : Int) = vs.sum + vs.length * c := by
  induction vs generalizing us with
  | nil =>
    rw [List.map_nil, List.map_eq_nil_iff] at h
    simp [h]
  | cons v vs ih =>
    cases us with
    | nil => cases h
    | cons u us =>
      rw [List.map_cons, List.map_cons, List.cons.injEq] at h
      obtain ⟨hlen, hsum⟩ := ih h.2
      rw [List.length_cons, List.length_cons, hlen, List.sum_cons, List.sum_cons]
      refine ⟨rfl, ?_⟩
      rw [Nat.cast_add, Nat.cast_add, Nat.cast_add, Nat.cast_one, h.1, hsum, add_mul, one_mul]
      omega

/-- The average of a cell is raised by `c`. -/
theorem resizeGray_shifted (hab : Shifted a b x y c) (hne : a.bounds.empty = false) {w h i j : Nat}
    (hi : i < w) (hj : j < h) :
    ((resizeGray b w h j i).toNat : Int) = (resizeGray a w h j i).toNat + c := by
  obtain ⟨hlen, hsum⟩ := sum_raised (cellValues_shifted hab hne hi hj)
  have hpos := List.length_pos_iff.mpr (cellValues_ne_nil a w h i j)
  rw [toNat_resizeGray, toNat_resizeGray, hlen, Int.natCast_ediv, hsum, Int.natCast_ediv]
  exact Int.add_mul_ediv_left _ _ (by omega)

theorem dHash_shifted (hab : Shifted a b x y c) (hne : a.bounds.empty = false) :
    dHash b = dHash a := by
  rw [dHash, dHash]
  refine List.foldl_ext _ _ _ fun hash bit hbit => ?_
  obtain ⟨-, hrow, hcol⟩ := lt_of_mem_hashBits hbit
  have hleft := resizeGray_shifted hab hne (i := bit.2.2) (w := 9) (by omega) hrow
  have hright := resizeGray_shifted hab hne (i := bit.2.2 + 1) (w := 9) (by omega) hrow
  have hlt : resizeGray b 9 8 bit.2.1 bit.2.2 < resizeGray b 9 8 bit.2.1 (bit.2.2 + 1) ↔
      resizeGray a 9 8 bit.2.1 bit.2.2 < resizeGray a 9 8 bit.2.1 (bit.2.2 + 1) := by
    rw [UInt8.lt_iff_toNat_lt, UInt8.lt_iff_toNat_lt]
    omega
  simp only [hlt]

end Shifted

/-- Where an image lies and how bright it is does not change its hash. -/
theorem dHash_moved_brightened (r : Rect) (pix : Int → Int → UInt8) (hne : r.empty = false) :
    (∀ x y, dHash (grayImage (r.add x y) fun xx yy => pix (xx - x) (yy - y)) =
        dHash (grayImage r pix)) ∧
      ∀ (c : Int) (pix' : Int → Int → UInt8),
        (∀ x y, r.contains x y = true → ((pix' x y).toNat : Int) = (pix x y).toNat + c) →
          dHash (grayImage r pix') = dHash (grayImage r pix) := by
  constructor
  · intro x y
    refine dHash_shifted (x := x) (y := y) (c := 0) ⟨rfl, fun xx yy hin => ?_⟩ hne
    have hmoved : (r.add x y).contains (xx + x) (yy + y) = r.contains xx yy := by
      simp only [Rect.contains, Rect.add, Int.add_le_add_iff_right, Int.add_lt_add_iff_right]
    simp only [grayImage, hmoved, Int.add_sub_cancel, Int.add_zero]
  · intro c pix' hpix
    refine dHash_shifted (x := 0) (y := 0) (c := c) ⟨?_, fun xx yy hin => ?_⟩ hne
    · simp only [grayImage, Rect.add, Int.add_zero]
    · have hin' : r.contains xx yy = true := hin
      simp only [grayImage, Int.add_zero, hin', if_true]
      exact hpix xx yy hin'

/-- Three pixels a row, the first dark: far from the origin, and twenty brighter. -/
theorem dHash_moved_brightened_darkEdge :
    dHash (grayImage ((Rect.mk 0 0 3 2).add (-5) 7) fun x _ => if x - -5 = 0 then 10 else 200) =
        dHash (grayImage (Rect.mk 0 0 3 2) fun x _ => if x = 0 then 10 else 200) ∧
      dHash (grayImage (Rect.mk 0 0 3 2) fun x _ => if x = 0 then 30 else 220) =
        dHash (grayImage (Rect.mk 0 0 3 2) fun x _ => if x = 0 then 10 else 200) := by
  have hedge := dHash_moved_brightened (Rect.mk 0 0 3 2) (fun x _ => if x = 0 then 10 else 200) rfl
  refine ⟨hedge.1 (-5) 7, hedge.2 20 _ fun x y _ => ?_⟩
  split_ifs <;> rfl

end TrainingPlatform.Scoring
