/-
Turning as an action of the quarter turns: on the pieces of one colour at one position the two
directions of the table are inverse to each other and of order four, and for five of the colours a
turn is the quarter turn about the third cell.
-/
import FpgaTetris.Piece.Shape
import Mathlib.Logic.Function.Iterate

namespace FpgaTetris

open BlockLogic

variable {oor : OutOfRange} {c : BlockColor} {o : Orientation} {x y : Quad}

/-! ## Quarter turns -/

/-- The quarter turn about a cell `q`, counter-clockwise (`left`) or clockwise, with coordinates
modulo 32; rows grow downwards. -/
def turnAbout (left : Bool) (q p : Pos) : Pos :=
  if left then (q.1 + (p.2 - q.2), q.2 - (p.1 - q.1)) else (q.1 - (p.2 - q.2), q.2 + (p.1 - q.1))

theorem turnAbout_self (left : Bool) (q : Pos) : turnAbout left q q = q := by
  unfold turnAbout
  split_ifs <;> simp

theorem turnAbout_add (left : Bool) (q p d : Pos) : turnAbout left (q + d) (p + d) = turnAbout left q p + d := by
  unfold turnAbout
  rw [Prod.fst_add, Prod.snd_add, Prod.fst_add, Prod.snd_add, add_sub_add_right_eq_sub, add_sub_add_right_eq_sub]
  split_ifs
  · exact Prod.ext (add_right_comm ..) (add_sub_right_comm ..)
  · exact Prod.ext (add_sub_right_comm ..) (add_right_comm ..)

/-- The cells of a colour in an orientation, in the code's cell order. A bar lies or stands, its cells
from the left or from the top; a square is the same in every orientation; the other pieces are their
spawn cells turned about the third one. -/
def turnedCells (oor : OutOfRange) (c : BlockColor) (o : Orientation) : List Pos :=
  let s := spawn oor c
  match c, o with
  | .cyan, .normal | .cyan, .rot2 => [(0, 0), (1, 0), (2, 0), (3, 0)]
  | .cyan, .rotLeft | .cyan, .rotRight => [(0, 0), (0, 1), (0, 2), (0, 3)]
  | .yellow, _ => cells s.1 s.2
  | _, _ => (cells s.1 s.2).map (turnAbout true (s.1.c3, s.2.c3))^[quarterTurns o]

/-- The four cells are those of colour `c` in orientation `o`, in the code's cell order, moved
somewhere. -/
def InShape (oor : OutOfRange) (c : BlockColor) (o : Orientation) (x y : Quad) : Prop :=
  ∃ d : Pos, cells x y = (turnedCells oor c o).map (· + d)

/-! ## The table's shapes -/

theorem cells_injective {x y x' y' : Quad} (h : cells x y = cells x' y') : x = x' ∧ y = y' := by
  simp only [cells, List.cons.injEq, Prod.mk.injEq] at h
  exact ⟨Quad.ext h.1.1 h.2.1.1 h.2.2.1.1 h.2.2.2.1.1, Quad.ext h.1.2 h.2.1.2 h.2.2.1.2 h.2.2.2.1.2⟩

theorem cells_add (x y : Quad) (d : Pos) :
    cells (x.map (· + d.1)) (y.map (· + d.2)) = (cells x y).map (· + d) := rfl

theorem turnedCells_congr (oor oor' : OutOfRange) (hc : c ≠ .empty) (o : Orientation) :
    turnedCells oor c o = turnedCells oor' c o := by
  unfold turnedCells
  rw [spawn_congr oor oor' hc]

theorem cells_shape (oor : OutOfRange) (hc : c ≠ .empty) (o : Orientation) :
    ∃ d : Pos, cells (shape oor c o).1 (shape oor c o).2 = (turnedCells oor c o).map (· + d) := by
  rw [shape_congr oor someReads hc, turnedCells_congr oor someReads hc]
  refine ⟨(cells (shape someReads c o).1 (shape someReads c o).2).headI - (turnedCells someReads c o).headI, ?_⟩
  cases c
  case empty => exact absurd rfl hc
  all_goals cases o <;> decide +kernel

/-- The geometric shapes are those of the table. -/
theorem inShape_iff_formed (hc : c ≠ .empty) : InShape oor c o x y ↔ Formed oor c o x y := by
  obtain ⟨d₀, h₀⟩ := cells_shape oor hc o
  constructor
  · rintro ⟨d, h⟩
    have hcells : cells x y = (cells (shape oor c o).1 (shape oor c o).2).map (· + (d - d₀)) := by
      rw [h, h₀, List.map_map]
      refine List.map_congr_left fun p _ => ?_
      simp [add_assoc]
    rw [← cells_add] at hcells
    exact ⟨(d - d₀).1, (d - d₀).2, cells_injective hcells⟩
  · rintro ⟨a, b, rfl, rfl⟩
    refine ⟨d₀ + (a, b), ?_⟩
    rw [cells_add _ _ (a, b), h₀, List.map_map]
    refine List.map_congr_left fun p _ => ?_
    simp [add_assoc]

/-- A turn of the table's shape, for the colours that turn about their third cell. -/
theorem cells_shape_turn (oor : OutOfRange) (hc : c ≠ .empty) (hcyan : c ≠ .cyan) (hyellow : c ≠ .yellow)
    (left : Bool) (o : Orientation) :
    let s := shape oor c o
    cells (shape oor c (turn left o)).1 (shape oor c (turn left o)).2 =
      (cells s.1 s.2).map (turnAbout left (s.1.c3, s.2.c3)) := by
  rw [shape_congr oor someReads hc, shape_congr oor someReads hc]
  cases c
  case empty => exact absurd rfl hc
  case cyan => exact absurd rfl hcyan
  case yellow => exact absurd rfl hyellow
  all_goals cases left <;> cases o <;> decide +kernel

/-! ## Sequences of turns -/

/-- The coordinates and the orientation after a turn of a piece of colour `c`. -/
def turned (c : BlockColor) (left : Bool) (s : (Quad × Quad) × Orientation) : (Quad × Quad) × Orientation :=
  (rotateBlocks c s.1.1 s.1.2 left s.2, turn left s.2)

/-- A piece of the table's shape, moved by `d`. -/
def placed (oor : OutOfRange) (c : BlockColor) (d : Pos) (o : Orientation) : (Quad × Quad) × Orientation :=
  (((shape oor c o).1.map (· + d.1), (shape oor c o).2.map (· + d.2)), o)

theorem exists_placed (h : Formed oor c o x y) : ∃ d, placed oor c d o = ((x, y), o) := by
  obtain ⟨a, b, rfl, rfl⟩ := h
  exact ⟨(a, b), rfl⟩

theorem turned_placed (oor : OutOfRange) (hc : c ≠ .empty) (d : Pos) (left : Bool) :
    Function.Semiconj (placed oor c d) (turn left) (turned c left) := by
  intro o
  unfold placed turned
  rw [rotate_translate hc, rotate_shape oor hc]

theorem turn_not (left : Bool) (o : Orientation) : turn (!left) (turn left o) = o := by
  cases left <;> cases o <;> rfl

theorem turn_four (left : Bool) (o : Orientation) : (turn left)^[4] o = o := by
  cases left <;> cases o <;> rfl

/-- The counter-clockwise quarter turns of a sequence of turns. -/
def netTurns (ds : List Bool) : ℕ := (ds.map fun left => if left then 1 else 3).sum

theorem quarterTurns_turn (left : Bool) (o : Orientation) :
    quarterTurns (turn left o) = (quarterTurns o + if left then 1 else 3) % 4 := by
  cases left <;> cases o <;> rfl

theorem quarterTurns_injective : Function.Injective quarterTurns := by
  intro o o' h
  cases o <;> cases o' <;> first | rfl | cases h

theorem quarterTurns_foldl (ds : List Bool) (o : Orientation) :
    quarterTurns (ds.foldl (fun o left => turn left o) o) = (quarterTurns o + netTurns ds) % 4 := by
  induction ds generalizing o with
  | nil => cases o <;> rfl
  | cons left ds ih =>
    have hcons : netTurns (left :: ds) = (if left then 1 else 3) + netTurns ds := List.sum_cons
    rw [List.foldl_cons, ih, quarterTurns_turn, hcons]
    omega

/-- However the turns of a sequence are mixed, a whole number of full turns brings every cell back. -/
theorem turned_foldl_eq_self (hc : c ≠ .empty) (h : InShape oor c o x y) {ds : List Bool} (hds : netTurns ds % 4 = 0) :
    ds.foldl (fun s left => turned c left s) ((x, y), o) = ((x, y), o) := by
  obtain ⟨d, hd⟩ := exists_placed ((inShape_iff_formed hc).1 h)
  -- the offset stays, so only the orientation has to come back
  have hfold : ∀ (ds : List Bool) (o : Orientation), ds.foldl (fun s left => turned c left s) (placed oor c d o) =
      placed oor c d (ds.foldl (fun o left => turn left o) o) := by
    intro ds
    induction ds with
    | nil => exact fun o => rfl
    | cons left ds ih =>
      intro o
      rw [List.foldl_cons, ← turned_placed oor hc d left o, ih, List.foldl_cons]
  rw [← hd, hfold]
  congr 1
  apply quarterTurns_injective
  have hlt : quarterTurns o < 4 := by cases o <;> decide
  rw [quarterTurns_foldl]
  omega

variable (oor) in
/-- Rotation is an exact quarter turn. A turn gives the shape of the next orientation; for the pieces
other than the bar and the square it is the quarter turn about the third cell, which stays; a turn and
the turn back, and four turns in one direction, restore cells and orientation. -/
theorem rotation_exact (hc : c ≠ .empty) (h : InShape oor c o x y) :
    (∀ left, let p := rotateBlocks c x y left o; InShape oor c (turn left o) p.1 p.2) ∧
    (c ≠ .cyan → c ≠ .yellow → ∀ left, let p := rotateBlocks c x y left o
      cells p.1 p.2 = (cells x y).map (turnAbout left (x.c3, y.c3)) ∧ p.1.c3 = x.c3 ∧ p.2.c3 = y.c3) ∧
    (∀ left, turned c (!left) (turned c left ((x, y), o)) = ((x, y), o)) ∧
    (∀ left, (turned c left)^[4] ((x, y), o) = ((x, y), o)) := by
  have hformed := (inShape_iff_formed hc).1 h
  refine ⟨fun left => ?_, fun hcyan hyellow left => ?_, fun left => ?_, fun left => ?_⟩
  · exact (inShape_iff_formed hc).2 (hformed.rotate hc left)
  · obtain ⟨a, b, rfl, rfl⟩ := hformed
    intro p
    have hp : cells p.1 p.2 = (cells ((shape oor c o).1.map (· + a)) ((shape oor c o).2.map (· + b))).map
        (turnAbout left ((shape oor c o).1.c3 + a, (shape oor c o).2.c3 + b)) := by
      simp only [p]
      rw [rotate_translate hc, rotate_shape oor hc, cells_add _ _ (a, b), cells_add _ _ (a, b),
        cells_shape_turn oor hc hcyan hyellow, List.map_map, List.map_map]
      exact List.map_congr_left fun q _ => (turnAbout_add left _ q (a, b)).symm
    refine ⟨hp, ?_⟩
    -- the third cell is the centre of the turn
    have hthird := congrArg (fun l => l[2]?) hp
    simp only [cells, List.map_cons, List.getElem?_cons_succ, List.getElem?_cons_zero, Option.some.injEq] at hthird
    have hself := hthird.trans (turnAbout_self left _)
    exact ⟨congrArg Prod.fst hself, congrArg Prod.snd hself⟩
  · obtain ⟨d, hd⟩ := exists_placed hformed
    rw [← hd, ← turned_placed oor hc d left o, ← turned_placed oor hc d (!left) _, turn_not]
  · obtain ⟨d, hd⟩ := exists_placed hformed
    rw [← hd, ← (turned_placed oor hc d left).iterate_right 4 o, turn_four]

/-- A new T piece turned left: its three cells in a row come to stand in column 5. -/
theorem rotation_exact_spawn :
    let p := rotateBlocks .magenta ⟨4, 5, 5, 6⟩ ⟨1, 0, 1, 1⟩ true .normal
    cells p.1 p.2 = [(5, 2), (4, 1), (5, 1), (5, 0)] :=
  ((rotation_exact someReads (by decide) ⟨(0, 0), by decide⟩).2.1 (by decide) (by decide) true).1.trans
    (by decide)

end FpgaTetris
