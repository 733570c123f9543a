/-
The rotation table against geometry: on shapes in the code's cell order it is a permutation of
the four orientations of each colour, it commutes with translation modulo 32, and inside the board
each shape is, as a set of cells with integer coordinates, the spawn shape turned by quarter turns.
-/
import FpgaTetris.Hdl.BlockLogic
import Mathlib.Data.Finset.Image
import Mathlib.Algebra.Group.Prod

namespace FpgaTetris

open BlockLogic

/-! ## Shapes in the code's cell order -/

/-- The index of the table entry for a colour. -/
def colorIdx : BlockColor → BitVec 3
  | .empty => 7
  | .cyan => 0
  | .blue => 1
  | .orange => 2
  | .yellow => 3
  | .green => 4
  | .magenta => 5
  | .red => 6

theorem idx_cases {idx : BitVec 3} (h : idx ≤ 6) :
    idx = 0 ∨ idx = 1 ∨ idx = 2 ∨ idx = 3 ∨ idx = 4 ∨ idx = 5 ∨ idx = 6 := by
  revert idx; decide

theorem colorIdx_choices (oor : OutOfRange) {idx : BitVec 3} (h : idx ≤ 6) :
    colorIdx (blockColorChoices oor idx) = idx := by
  rcases idx_cases h with rfl | rfl | rfl | rfl | rfl | rfl | rfl <;> rfl

/-- The spawn coordinates of a colour. -/
def spawn (oor : OutOfRange) (c : BlockColor) : Quad × Quad :=
  (xBlockChoices oor (colorIdx c), yBlockChoices oor (colorIdx c))

theorem spawn_choices (oor : OutOfRange) {idx : BitVec 3} (h : idx ≤ 6) :
    spawn oor (blockColorChoices oor idx) = (xBlockChoices oor idx, yBlockChoices oor idx) := by
  unfold spawn
  rw [colorIdx_choices oor h]

theorem inBoard_spawn (oor : OutOfRange) {idx : BitVec 3} (h : idx ≤ 6) :
    ∀ p ∈ cells (xBlockChoices oor idx) (yBlockChoices oor idx), InBoard p := by
  rcases idx_cases h with rfl | rfl | rfl | rfl | rfl | rfl | rfl <;>
    simp [cells, xBlockChoices, yBlockChoices, InBoard, xSize, ySize]

/-- The coordinates the rotation table gives a new piece turned left into an orientation. -/
def shape (oor : OutOfRange) (c : BlockColor) : Orientation → Quad × Quad
  | .normal => spawn oor c
  | .rotLeft => rotateBlocks c (spawn oor c).1 (spawn oor c).2 true .normal
  | .rot2 =>
    let s := rotateBlocks c (spawn oor c).1 (spawn oor c).2 true .normal
    rotateBlocks c s.1 s.2 true .rotLeft
  | .rotRight =>
    let s := rotateBlocks c (spawn oor c).1 (spawn oor c).2 true .normal
    let s := rotateBlocks c s.1 s.2 true .rotLeft
    rotateBlocks c s.1 s.2 true .rot2

/-- The orientation after a turn in either direction. -/
def turn (left : Bool) : Orientation → Orientation := if left then turnLeft else turnRight

/-- A turn of a shape is the shape in the next orientation, in the same cell order. -/
theorem rotate_shape (oor : OutOfRange) {c : BlockColor} (hc : c ≠ .empty) (left : Bool) (o : Orientation) :
    rotateBlocks c (shape oor c o).1 (shape oor c o).2 left o = shape oor c (turn left o) := by
  cases c
  case empty => exact absurd rfl hc
  all_goals cases left <;> cases o <;> with_unfolding_all rfl

/-- The table commutes with translation modulo 32. -/
theorem rotate_translate {c : BlockColor} (hc : c ≠ .empty) (x y : Quad) (a b : BitVec 5) (left : Bool)
    (o : Orientation) :
    rotateBlocks c (x.map (· + a)) (y.map (· + b)) left o =
      ((rotateBlocks c x y left o).1.map (· + a), (rotateBlocks c x y left o).2.map (· + b)) := by
  cases c
  case empty => exact absurd rfl hc
  all_goals
    cases left <;> cases o <;>
      simp [rotateBlocks, rotateCyan, rotateBlue, rotateOrange, rotateGreen, rotateRed, rotateMagenta,
        Quad.map, add_right_comm, add_sub_right_comm]

/-- The coordinates are the shape of colour `c` in orientation `o`, at some position. -/
def Formed (oor : OutOfRange) (c : BlockColor) (o : Orientation) (x y : Quad) : Prop :=
  ∃ a b : BitVec 5, x = (shape oor c o).1.map (· + a) ∧ y = (shape oor c o).2.map (· + b)

theorem formed_spawn (oor : OutOfRange) (c : BlockColor) :
    Formed oor c .normal (spawn oor c).1 (spawn oor c).2 :=
  ⟨0, 0, by simp [shape, Quad.map], by simp [shape, Quad.map]⟩

theorem Formed.translate {oor : OutOfRange} {c : BlockColor} {o : Orientation} {x y : Quad}
    (h : Formed oor c o x y) (a b : BitVec 5) : Formed oor c o (x.map (· + a)) (y.map (· + b)) := by
  obtain ⟨a', b', rfl, rfl⟩ := h
  exact ⟨a' + a, b' + b, by simp [Quad.map, add_assoc], by simp [Quad.map, add_assoc]⟩

theorem Formed.rotate {oor : OutOfRange} {c : BlockColor} {o : Orientation} {x y : Quad}
    (h : Formed oor c o x y) (hc : c ≠ .empty) (left : Bool) :
    Formed oor c (turn left o) (rotateBlocks c x y left o).1 (rotateBlocks c x y left o).2 := by
  obtain ⟨a, b, rfl, rfl⟩ := h
  rw [rotate_translate hc, rotate_shape oor hc]
  exact ⟨a, b, rfl, rfl⟩

/-! ## Tetrominoes as sets of cells -/

/-- A board position with integer coordinates. -/
def toInts (p : Pos) : ℤ × ℤ := (p.1.toNat, p.2.toNat)

/-- The cells of a pair of coordinate vectors. -/
def occupied (x y : Quad) : Finset (ℤ × ℤ) := ((cells x y).map toInts).toFinset

/-- A counter-clockwise quarter turn about the origin; rows grow downwards. -/
def quarterTurn (p : ℤ × ℤ) : ℤ × ℤ := (p.2, -p.1)

/-- The counter-clockwise quarter turns an orientation stands for. -/
def quarterTurns : Orientation → ℕ
  | .normal => 0
  | .rotLeft => 1
  | .rot2 => 2
  | .rotRight => 3

/-- The spawn shape of a colour, turned. -/
def tetromino (oor : OutOfRange) (c : BlockColor) (o : Orientation) : Finset (ℤ × ℤ) :=
  (occupied (spawn oor c).1 (spawn oor c).2).image quarterTurn^[quarterTurns o]

/-- The four cells form the spawn shape of `c`, turned as `o` says and moved somewhere. -/
def IsTetromino (oor : OutOfRange) (c : BlockColor) (o : Orientation) (x y : Quad) : Prop :=
  ∃ d : ℤ × ℤ, occupied x y = (tetromino oor c o).image (· + d)

theorem spawn_congr (oor oor' : OutOfRange) {c : BlockColor} (hc : c ≠ .empty) : spawn oor c = spawn oor' c := by
  cases c
  case empty => exact absurd rfl hc
  all_goals rfl

theorem shape_congr (oor oor' : OutOfRange) {c : BlockColor} (hc : c ≠ .empty) (o : Orientation) :
    shape oor c o = shape oor' c o := by
  cases o <;> simp only [shape, spawn_congr oor oor' hc]

/-- A reading of the tables, to compute with. -/
def someReads : OutOfRange :=
  ⟨fun _ _ => .empty, fun _ => ⟨0, 0, 0, 0⟩, fun _ => ⟨0, 0, 0, 0⟩, fun _ => .empty⟩

/-- How far the table's shape lies from the spawn shape turned about the origin. -/
def anchor (c : BlockColor) (o : Orientation) : ℤ × ℤ :=
  match o with
  | .normal => (0, 0)
  | .rotLeft => if c = .cyan ∨ c = .yellow then (4, 5) else (4, 6)
  | .rot2 => if c = .cyan ∨ c = .yellow then (9, 1) else (10, 2)
  | .rotRight => if c = .cyan ∨ c = .yellow then (5, -4) else (6, -4)

/-- The shapes of the table with signed coordinates: the turned spawn shapes, with four different
cells. -/
theorem shape_signed (oor : OutOfRange) {c : BlockColor} (hc : c ≠ .empty) (o : Orientation) :
    let s := cells (shape oor c o).1 (shape oor c o).2
    (s.map fun p => (p.1.toInt, p.2.toInt)).toFinset = (tetromino oor c o).image (· + anchor c o) ∧ s.Nodup := by
  unfold tetromino
  rw [shape_congr oor someReads hc, spawn_congr oor someReads hc]
  cases c
  case empty => exact absurd rfl hc
  all_goals cases o <;> decide +kernel

/-- The cells of a shape are at most three apart. -/
theorem shape_close (oor : OutOfRange) {c : BlockColor} (hc : c ≠ .empty) (o : Orientation) :
    let s := cells (shape oor c o).1 (shape oor c o).2
    ∀ p ∈ s, ∀ q ∈ s, (p.1.toInt - q.1.toInt).natAbs ≤ 3 ∧ (p.2.toInt - q.2.toInt).natAbs ≤ 3 := by
  rw [shape_congr oor someReads hc]
  simp only [cells, List.forall_mem_cons, List.not_mem_nil, false_imp_iff, implies_true, and_true]
  cases c
  case empty => exact absurd rfl hc
  all_goals cases o <;> decide +kernel

/-- Two in-range coordinates of one translated shape keep their signed distance. -/
theorem toNat_add_sub {k k' a : BitVec 5} (h : (k + a).toNat < 20) (h' : (k' + a).toNat < 20)
    (hk : (k.toInt - k'.toInt).natAbs ≤ 3) : ((k + a).toNat : ℤ) - k.toInt = (k' + a).toNat - k'.toInt := by
  simp only [BitVec.toInt_eq_toNat_cond, BitVec.toNat_add] at *
  omega

theorem cells_map (f g : BitVec 5 → BitVec 5) (x y : Quad) :
    cells (x.map f) (y.map g) = (cells x y).map (Prod.map f g) := rfl

theorem cells_ne_nil (x y : Quad) : cells x y ≠ [] := List.cons_ne_nil _ _

/-- Cells at most three apart that a translation leaves on the board are all moved by one vector. -/
theorem exists_toInts_add {s : List Pos} {a b : BitVec 5}
    (hclose : ∀ p ∈ s, ∀ q ∈ s, (p.1.toInt - q.1.toInt).natAbs ≤ 3 ∧ (p.2.toInt - q.2.toInt).natAbs ≤ 3)
    (hin : ∀ p ∈ s.map (Prod.map (· + a) (· + b)), InBoard p) (hne : s ≠ []) :
    ∃ d : ℤ × ℤ, ∀ p ∈ s, toInts (Prod.map (· + a) (· + b) p) = (p.1.toInt, p.2.toInt) + d := by
  obtain ⟨p₀, hp₀⟩ := List.exists_mem_of_ne_nil s hne
  refine ⟨toInts (Prod.map (· + a) (· + b) p₀) - (p₀.1.toInt, p₀.2.toInt), fun p hp => ?_⟩
  obtain ⟨hx, hy⟩ := hin _ (List.mem_map_of_mem hp)
  obtain ⟨hx₀, hy₀⟩ := hin _ (List.mem_map_of_mem hp₀)
  obtain ⟨h1, h2⟩ := hclose p hp p₀ hp₀
  have e1 := toNat_add_sub (lt_trans hx (by decide)) (lt_trans hx₀ (by decide)) h1
  have e2 := toNat_add_sub hy hy₀ h2
  refine Prod.ext ?_ ?_
  · show ((p.1 + a).toNat : ℤ) = p.1.toInt + ((p₀.1 + a).toNat - p₀.1.toInt)
    omega
  · show ((p.2 + b).toNat : ℤ) = p.2.toInt + ((p₀.2 + b).toNat - p₀.2.toInt)
    omega

/-- A formed piece inside the board is a tetromino of four different cells. -/
theorem Formed.isTetromino {oor : OutOfRange} {c : BlockColor} {o : Orientation} {x y : Quad}
    (h : Formed oor c o x y) (hc : c ≠ .empty) (hin : ∀ p ∈ cells x y, InBoard p) :
    IsTetromino oor c o x y ∧ (cells x y).Nodup := by
  obtain ⟨a, b, rfl, rfl⟩ := h
  obtain ⟨hset, hnodup⟩ := shape_signed oor hc o
  rw [cells_map] at hin ⊢
  constructor
  · -- inside the board the translation modulo 32 is one of integers
    obtain ⟨d, hmove⟩ := exists_toInts_add (shape_close oor hc o) hin (cells_ne_nil _ _)
    refine ⟨anchor c o + d, ?_⟩
    calc occupied _ _
        = ((cells (shape oor c o).1 (shape oor c o).2).map fun p => (p.1.toInt, p.2.toInt) + d).toFinset := by
          rw [occupied, cells_map, List.map_map]
          exact congrArg List.toFinset (List.map_congr_left hmove)
      _ = ((cells (shape oor c o).1 (shape oor c o).2).map fun p => (p.1.toInt, p.2.toInt)).toFinset.image
          (· + d) := by
          ext q
          simp only [List.mem_toFinset, List.mem_map, Finset.mem_image, exists_exists_and_eq_and]
      _ = (tetromino oor c o).image (· + (anchor c o + d)) := by
          rw [hset, Finset.image_image]
          exact Finset.image_congr fun q _ => add_assoc q _ _
  · refine hnodup.map fun p q hpq => ?_
    obtain ⟨h1, h2⟩ := Prod.mk.injEq .. ▸ hpq
    exact Prod.ext (by simpa using h1) (by simpa using h2)

end FpgaTetris
