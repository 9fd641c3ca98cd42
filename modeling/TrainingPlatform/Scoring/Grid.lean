import TrainingPlatform.Go.Collections
import TrainingPlatform.Scoring.Dhash
import Mathlib.Order.SuccPred.IntervalSucc
import Mathlib.Order.Interval.Set.Nat

/-!
# The cells of an image

The cells a hash averages cover the image, and share no pixel if it has one for each.  The
edges of the cells are a monotone function of their number.
-/

namespace TrainingPlatform.Scoring

open Go

/-- The pixels of a cell in the order they are read. -/
def cellPixels (r : Rect) (w h x y : Nat) : List (Int × Int) :=
  (coords (cellStart r.minY r.dy h y) (cellEnd r.minY r.dy h y)).flatMap fun yy =>
    (coords (cellStart r.minX r.dx w x) (cellEnd r.minX r.dx w x)).map fun xx => (xx, yy)

/-- What reading an image by cells should be: inside its bounds, without an empty cell, with
averages a `uint8` holds, and over every pixel, once if there are enough of them. -/
structure Tiles (r : Rect) (w h : Nat) : Prop where
  inside : ∀ x < w, ∀ y < h, ∀ p ∈ cellPixels r w h x y, r.contains p.1 p.2 = true
  averages : ∀ x < w, ∀ y < h, 0 < (cellPixels r w h x y).length
  holds : ∀ img : Image, img.bounds = r → ∀ x < w, ∀ y < h,
    (resizeGray img w h y x).toNat =
      ((cellPixels r w h x y).map fun p => (img.gray p.1 p.2).toNat).sum /
        (cellPixels r w h x y).length
  covers : ∀ xx yy, r.contains xx yy = true →
    ∃ x < w, ∃ y < h, (xx, yy) ∈ cellPixels r w h x y
  once : (w : Int) ≤ r.dx → (h : Int) ≤ r.dy → ∀ xx yy, r.contains xx yy = true →
    ∃! c : Nat × Nat, c.1 < w ∧ c.2 < h ∧ (xx, yy) ∈ cellPixels r w h c.1 c.2

/-! ## The computation in ints -/

/-- `cellStart` with the ints the program computes it in. -/
def intCellStart (min max : Int) (w i : Nat) : Int :=
  goInt (min + (goInt (i * max1 (goInt (max - min)))).tdiv w)

def intCellEnd (min max : Int) (w i : Nat) : Int :=
  if intCellStart min max w (i + 1) ≤ intCellStart min max w i then
    goInt (intCellStart min max w i + 1)
  else intCellStart min max w (i + 1)

/-- `resizeGray` with its ints and `uint64`s. -/
def intResizeGray (img : Image) (w h y x : Nat) : UInt8 :=
  let b := img.bounds
  let values :=
    (coords (intCellStart b.minY b.maxY h y) (intCellEnd b.minY b.maxY h y)).flatMap fun yy =>
      (coords (intCellStart b.minX b.maxX w x) (intCellEnd b.minX b.maxX w x)).map fun xx =>
        (img.gray xx yy).toNat
  let sum := values.foldl (fun sum v => (sum + v) % 2 ^ 64) 0
  let n := values.foldl (fun n _ => (n + 1) % 2 ^ 64) 0
  if 0 < n then UInt8.ofNat (sum / n) else 0

/-- Bounds whose products are ints, and whose pixels add up to a `uint64`. -/
structure FitsInts (r : Rect) (w h : Nat) : Prop where
  minX : -(2 ^ 63) ≤ r.minX
  minY : -(2 ^ 63) ≤ r.minY
  maxX : r.maxX < 2 ^ 63
  maxY : r.maxY < 2 ^ 63
  width : w * r.dx < 2 ^ 63
  height : h * r.dy < 2 ^ 63
  pixels : 255 * (r.dx * r.dy) < 2 ^ 64

/-! ## Edges -/

/-- A step function is constant between two of its steps or passes every value once. -/
theorem exists_step {f : Nat → Int} {v : Int} {n : Nat} (h₀ : f 0 ≤ v) (hn : v < f n) :
    ∃ i < n, f i ≤ v ∧ v < f (i + 1) := by
  induction n with
  | zero => omega
  | succ n ih =>
    by_cases hv : v < f n
    · obtain ⟨i, hi, hstep⟩ := ih hv
      exact ⟨i, Nat.lt_succ_of_lt hi, hstep⟩
    · exact ⟨n, Nat.lt_succ_self n, not_lt.mp hv, hn⟩

section Edges

variable {a d : Int} {w i j : Nat} {v : Int}

theorem cellStart_mono (hd : 0 < d) (hw : 0 < w) (hij : i ≤ j) :
    cellStart a d w i ≤ cellStart a d w j := by
  have hw' : (0 : Int) < w := by omega
  have hmul : (i : Int) * d ≤ j * d :=
    Int.mul_le_mul_of_nonneg_right (by exact_mod_cast hij) hd.le
  rw [cellStart, cellStart, max1_of_pos hd]
  exact Int.add_le_add_left (Int.ediv_le_ediv hw' hmul) a

theorem cellStart_zero (a d : Int) (w : Nat) : cellStart a d w 0 = a := by
  rw [cellStart, Nat.cast_zero, zero_mul, Int.zero_ediv, add_zero]

theorem cellStart_last (hd : 0 < d) (hw : 0 < w) : cellStart a d w w = a + d := by
  rw [cellStart, max1_of_pos hd, Int.mul_ediv_cancel_left _ (by omega)]

/-- Every value of the side lies in a cell. -/
theorem exists_cell (hd : 0 < d) (hw : 0 < w) (hlo : a ≤ v) (hhi : v < a + d) :
    ∃ i < w, cellStart a d w i ≤ v ∧ v < cellEnd a d w i := by
  obtain ⟨i, hi, hle, hlt⟩ := exists_step (f := cellStart a d w) (v := v) (n := w)
    (by rwa [cellStart_zero]) (by rwa [cellStart_last hd hw])
  refine ⟨i, hi, hle, ?_⟩
  rw [cellEnd, if_neg (by omega)]
  exact hlt

/-- A side with a value for each cell needs no cell widened. -/
theorem cellEnd_eq (hd : (w : Int) ≤ d) (hw : 0 < w) :
    cellEnd a d w i = cellStart a d w (i + 1) := by
  have hw' : (0 : Int) < w := by omega
  have hnext : (i : Int) * d / w + 1 ≤ ((i + 1 : Nat) : Int) * d / w := by
    rw [← Int.add_mul_ediv_right _ 1 (by omega), one_mul]
    refine Int.ediv_le_ediv hw' ?_
    rw [Nat.cast_add, add_mul, Nat.cast_one, one_mul]
    omega
  rw [cellEnd, if_neg]
  rw [cellStart, cellStart, max1_of_pos (by omega)]
  omega

/-- Such a side is cut up by its cells. -/
theorem cell_unique (hd : (w : Int) ≤ d) (hw : 0 < w)
    (hi : cellStart a d w i ≤ v ∧ v < cellEnd a d w i)
    (hj : cellStart a d w j ≤ v ∧ v < cellEnd a d w j) : i = j := by
  by_contra hne
  have hpos : 0 < d := by omega
  rw [cellEnd_eq hd hw] at hi hj
  have hmono : Monotone (cellStart a d w) := fun _ _ => cellStart_mono hpos hw
  have hdisjoint := hmono.pairwise_disjoint_on_Ico_succ hne
  exact Set.disjoint_left.mp hdisjoint (Set.mem_Ico.mpr hi) (Set.mem_Ico.mpr hj)

end Edges

theorem mem_cellPixels {r : Rect} {w h x y : Nat} {p : Int × Int} :
    p ∈ cellPixels r w h x y ↔
      (cellStart r.minX r.dx w x ≤ p.1 ∧ p.1 < cellEnd r.minX r.dx w x) ∧
        cellStart r.minY r.dy h y ≤ p.2 ∧ p.2 < cellEnd r.minY r.dy h y := by
  obtain ⟨xx, yy⟩ := p
  simp only [cellPixels, List.mem_flatMap, List.mem_map, mem_coords_iff, Prod.mk.injEq]
  constructor
  · rintro ⟨yy', hy, xx', hx, rfl, rfl⟩
    exact ⟨hx, hy⟩
  · intro hp
    exact ⟨yy, hp.2, xx, hp.1, rfl, rfl⟩

theorem cellValues_eq (img : Image) (w h x y : Nat) :
    cellValues img w h x y =
      (cellPixels img.bounds w h x y).map fun p => (img.gray p.1 p.2).toNat := by
  simp only [cellValues, cellPixels, List.map_flatMap, List.map_map]
  rfl

/-- Cells of any number tile an image that is not empty. -/
theorem tiles {r : Rect} (hdx : 1 ≤ r.dx) (hdy : 1 ≤ r.dy) {w h : Nat} (hw : 0 < w) (hh : 0 < h) :
    Tiles r w h := by
  have hin : ∀ {xx yy}, r.contains xx yy = true →
      (r.minX ≤ xx ∧ xx < r.minX + r.dx) ∧ r.minY ≤ yy ∧ yy < r.minY + r.dy := by
    intro xx yy hc
    simp only [Rect.contains, Bool.and_eq_true, decide_eq_true_eq] at hc
    rw [Rect.dx, Rect.dy]
    omega
  have hvalues : ∀ x y, cellPixels r w h x y ≠ [] := by
    intro x y hnil
    have hlength := congrArg List.length (cellValues_eq ⟨r, fun _ _ => 0⟩ w h x y)
    rw [List.length_map, hnil] at hlength
    exact cellValues_ne_nil _ w h x y (List.length_eq_zero_iff.mp hlength)
  constructor
  · intro x hx y hy p hp
    have hempty : r.empty = false := by
      rw [Rect.dx] at hdx
      rw [Rect.dy] at hdy
      simp only [Rect.empty, Bool.or_eq_false_iff, decide_eq_false_iff_not]
      omega
    obtain ⟨hpx, hpy⟩ := mem_cellPixels.mp hp
    exact contains_of_mem_cell hempty hx hy (mem_coords_iff.mpr hpx) (mem_coords_iff.mpr hpy)
  · exact fun x _ y _ => List.length_pos_iff.mpr (hvalues x y)
  · intro img hr x _ y _
    subst hr
    rw [toNat_resizeGray, cellValues_eq, List.length_map]
  · intro xx yy hc
    obtain ⟨hxx, hyy⟩ := hin hc
    obtain ⟨x, hx, hcell⟩ := exists_cell (by omega) hw hxx.1 hxx.2
    obtain ⟨y, hy, hrow⟩ := exists_cell (by omega) hh hyy.1 hyy.2
    exact ⟨x, hx, y, hy, mem_cellPixels.mpr ⟨hcell, hrow⟩⟩
  · intro hwide hhigh xx yy hc
    obtain ⟨hxx, hyy⟩ := hin hc
    obtain ⟨x, hx, hcell⟩ := exists_cell (by omega) hw hxx.1 hxx.2
    obtain ⟨y, hy, hrow⟩ := exists_cell (by omega) hh hyy.1 hyy.2
    refine ⟨(x, y), ⟨hx, hy, mem_cellPixels.mpr ⟨hcell, hrow⟩⟩, fun c hc' => ?_⟩
    obtain ⟨hcell', hrow'⟩ := mem_cellPixels.mp hc'.2.2
    exact Prod.ext (cell_unique hwide hw hcell' hcell) (cell_unique hhigh hh hrow' hrow)

/-! ## Ints are enough -/

section Ints

variable {min max : Int} {w i : Nat}

theorem goInt_of_bounds {x : Int} (hlo : -(2 ^ 63) ≤ x) (hhi : x < 2 ^ 63) : goInt x = x := by
  refine Int.bmod_eq_of_le_mul_two ?_ ?_
  · omega
  · omega

/-- No int of an edge wraps around. -/
theorem intCellStart_eq (hmin : -(2 ^ 63) ≤ min) (hmax : max < 2 ^ 63) (hd : 1 ≤ max - min)
    (hfits : w * (max - min) < 2 ^ 63) (hw : 0 < w) (hi : i ≤ w) :
    intCellStart min max w i = cellStart min (max - min) w i := by
  have hd' : 0 < max - min := by omega
  have hw' : (0 : Int) < w := by omega
  have hpos : 0 ≤ (i : Int) * (max - min) := Int.mul_nonneg (Int.natCast_nonneg i) hd'.le
  have hle : (i : Int) * (max - min) ≤ w * (max - min) :=
    Int.mul_le_mul_of_nonneg_right (by exact_mod_cast hi) hd'.le
  have hone : 1 * (max - min) ≤ w * (max - min) :=
    Int.mul_le_mul_of_nonneg_right (by omega) hd'.le
  have hquot : (i : Int) * (max - min) / w ≤ max - min := by
    refine Int.ediv_le_of_le_mul hw' ?_
    rwa [mul_comm (max - min)]
  have hquot₀ : 0 ≤ (i : Int) * (max - min) / w := Int.ediv_nonneg hpos hw'.le
  rw [intCellStart, goInt_of_bounds (x := max - min) (by omega) (by omega), max1_of_pos hd',
    goInt_of_bounds (x := i * (max - min)) (by omega) (by omega), Int.tdiv_eq_ediv_of_nonneg hpos,
    goInt_of_bounds (by omega) (by omega), cellStart, max1_of_pos hd']

theorem intCellEnd_eq (hmin : -(2 ^ 63) ≤ min) (hmax : max < 2 ^ 63) (hd : 1 ≤ max - min)
    (hfits : w * (max - min) < 2 ^ 63) (hw : 0 < w) (hi : i < w) :
    intCellEnd min max w i = cellEnd min (max - min) w i := by
  obtain ⟨hlo, hhi⟩ := cellStart_mem (a := min) (d := max - min) (by omega) hi
  rw [intCellEnd, cellEnd, intCellStart_eq hmin hmax hd hfits hw hi.le,
    intCellStart_eq hmin hmax hd hfits hw hi, goInt_of_bounds (by omega) (by omega)]

end Ints

/-- A loop that adds up naturals in a `uint64`. -/
theorem foldl_uint64 {α : Type*} (f : α → Nat) (l : List α) {n : Nat} (hn : n < 2 ^ 64) :
    l.foldl (fun total a => (total + f a) % 2 ^ 64) n = (n + (l.map f).sum) % 2 ^ 64 := by
  induction l generalizing n with
  | nil => rw [List.foldl_nil, List.map_nil, List.sum_nil, Nat.add_zero, Nat.mod_eq_of_lt hn]
  | cons a l ih =>
    rw [List.foldl_cons, ih (Nat.mod_lt _ (Nat.two_pow_pos 64)), List.map_cons, List.sum_cons,
      Nat.mod_add_mod, Nat.add_assoc]

theorem length_coords (lo hi : Int) : (coords lo hi).length = (hi - lo).toNat := by
  rw [coords, List.length_map, List.length_range]

section Machine

variable {r : Rect} {w h x y : Nat}

theorem length_cellPixels_le (hdx : 1 ≤ r.dx) (hdy : 1 ≤ r.dy) (hx : x < w) (hy : y < h) :
    ((cellPixels r w h x y).length : Int) ≤ r.dx * r.dy := by
  have hside : ∀ {a d : Int} {n i : Nat}, 1 ≤ d → i < n →
      ((coords (cellStart a d n i) (cellEnd a d n i)).length : Int) ≤ d := by
    intro a d n i hd hi
    have hstart := (cellStart_mem (a := a) (d := d) (by omega) hi).1
    have hend := cellEnd_le (a := a) (d := d) (by omega) hi
    rw [length_coords]
    omega
  have hlength : (cellPixels r w h x y).length =
      (coords (cellStart r.minY r.dy h y) (cellEnd r.minY r.dy h y)).length *
        (coords (cellStart r.minX r.dx w x) (cellEnd r.minX r.dx w x)).length := by
    simp [cellPixels, List.length_flatMap, List.map_const']
  rw [hlength, Nat.cast_mul, mul_comm]
  exact Int.mul_le_mul (hside hdx hx) (hside hdy hy) (Int.natCast_nonneg _) (by omega)

/-- While ints and sums do not wrap around, the program computes these averages. -/
theorem intResizeGray_eq {img : Image} (hdx : 1 ≤ img.bounds.dx) (hdy : 1 ≤ img.bounds.dy)
    (hfits : FitsInts img.bounds w h) (hx : x < w) (hy : y < h) :
    intResizeGray img w h y x = resizeGray img w h y x := by
  have hw : 0 < w := by omega
  have hh : 0 < h := by omega
  have hlength := length_cellPixels_le hdx hdy hx hy
  have hpixels := hfits.pixels
  have hcells : (cellPixels img.bounds w h x y).length = (cellValues img w h x y).length := by
    rw [cellValues_eq, List.length_map]
  have hsum := List.sum_le_card_nsmul (cellValues img w h x y) 255 fun _ => lt_of_mem_cellValues
  rw [smul_eq_mul] at hsum
  have hvalues : (coords (intCellStart img.bounds.minY img.bounds.maxY h y)
        (intCellEnd img.bounds.minY img.bounds.maxY h y)).flatMap (fun yy =>
      (coords (intCellStart img.bounds.minX img.bounds.maxX w x)
        (intCellEnd img.bounds.minX img.bounds.maxX w x)).map fun xx => (img.gray xx yy).toNat) =
      cellValues img w h x y := by
    rw [intCellStart_eq hfits.minY hfits.maxY hdy hfits.height hh hy.le,
      intCellEnd_eq hfits.minY hfits.maxY hdy hfits.height hh hy,
      intCellStart_eq hfits.minX hfits.maxX hdx hfits.width hw hx.le,
      intCellEnd_eq hfits.minX hfits.maxX hdx hfits.width hw hx]
    rfl
  unfold intResizeGray resizeGray
  dsimp only
  rw [hvalues, foldl_uint64 (fun v => v) _ (Nat.two_pow_pos 64),
    foldl_uint64 (fun _ => 1) _ (Nat.two_pow_pos 64), List.map_id', List.map_const',
    List.sum_replicate, smul_eq_mul, mul_one, Nat.zero_add, Nat.zero_add,
    Nat.mod_eq_of_lt (a := (cellValues img w h x y).sum) (by omega),
    Nat.mod_eq_of_lt (a := (cellValues img w h x y).length) (by omega)]

end Machine

/-- The nine columns and eight rows of a hash read every pixel of an image, and none outside;
the ints of the program compute just this for every image whose products and sums they hold. -/
theorem resizeGray_tiles (r : Rect) (hwidth : 1 ≤ r.dx) (hheight : 1 ≤ r.dy) :
    Tiles r 9 8 ∧ (FitsInts r 9 8 → ∀ img : Image, img.bounds = r → ∀ x < 9, ∀ y < 8,
      intResizeGray img 9 8 y x = resizeGray img 9 8 y x) := by
  refine ⟨tiles hwidth hheight (Nat.succ_pos 8) (Nat.succ_pos 7), fun hfits img hr x hx y hy => ?_⟩
  subst hr
  exact intResizeGray_eq hwidth hheight hfits hx hy

/-- Two pixels left of the origin. -/
def twoPixels : Image := grayImage ⟨-3, 5, -1, 6⟩ fun xx _ => if xx = -3 then 10 else 200

/-- Each of them lies in several cells. -/
theorem resizeGray_tiles_twoPixels :
    Tiles twoPixels.bounds 9 8 ∧ ∀ x < 9, ∀ y < 8,
      intResizeGray twoPixels 9 8 y x = resizeGray twoPixels 9 8 y x := by
  have h := resizeGray_tiles twoPixels.bounds (by decide) (by decide)
  exact ⟨h.1, h.2 (by constructor <;> decide) twoPixels rfl⟩

end TrainingPlatform.Scoring
