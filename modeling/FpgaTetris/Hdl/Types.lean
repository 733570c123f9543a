/-
The data shared by the modules of the game: the enumerations of `types.sv`, packed coordinate
vectors, board positions, and what a read outside an array yields.
-/
import Mathlib.Data.BitVec
import Mathlib.Data.Fintype.Prod

namespace FpgaTetris

/-- `block_color`: an empty cell or the colour of one of the seven tetrominoes. -/
inductive BlockColor
  | empty
  | cyan
  | blue
  | orange
  | yellow
  | green
  | magenta
  | red
  deriving DecidableEq, Repr

inductive Orientation
  | rotLeft
  | rotRight
  | rot2
  | normal
  deriving DecidableEq, Repr

/-! ## Coordinates -/

/-- The packed `logic [19:0]` coordinates of four cells: `c1` is the slice `[19:15]`, `c2` is
`[14:10]`, `c3` is `[9:5]` and `c4` is `[4:0]`. -/
@[ext]
structure Quad where
  c1 : BitVec 5
  c2 : BitVec 5
  c3 : BitVec 5
  c4 : BitVec 5
  deriving DecidableEq, Repr

namespace Quad

/-- The same operation on every slice. -/
def map (f : BitVec 5 → BitVec 5) (q : Quad) : Quad := ⟨f q.c1, f q.c2, f q.c3, f q.c4⟩

end Quad

/-- A pair of 5-bit indices into the board: column and row. -/
abbrev Pos := BitVec 5 × BitVec 5

/-- The four cells named by an `x` and a `y` vector. -/
def cells (x y : Quad) : List Pos := [(x.c1, y.c1), (x.c2, y.c2), (x.c3, y.c3), (x.c4, y.c4)]

/-- `x_size`. -/
def xSize : ℕ := 10

/-- `y_size`. -/
def ySize : ℕ := 20

instance : NeZero xSize := ⟨by decide⟩

instance : NeZero ySize := ⟨by decide⟩

/-- `block_color board_arr[x_size][y_size]`, indexed by column and row. -/
abbrev BoardArr := Fin xSize × Fin ySize → BlockColor

/-- The index pair of a board cell. -/
def pos (c : Fin xSize × Fin ySize) : Pos := (BitVec.ofNat 5 c.1, BitVec.ofNat 5 c.2)

/-- A pair of indices inside the array. -/
def InBoard (p : Pos) : Prop := p.1.toNat < xSize ∧ p.2.toNat < ySize

instance (p : Pos) : Decidable (InBoard p) := inferInstanceAs (Decidable (_ ∧ _))

/-- What a read outside an array's range yields: `X` in simulation, and in hardware whatever the
synthesised selector gives for that index and those contents. -/
structure OutOfRange where
  boardArr : BoardArr → Pos → BlockColor
  xBlockChoices : BitVec 3 → Quad
  yBlockChoices : BitVec 3 → Quad
  blockColorChoices : BitVec 3 → BlockColor

end FpgaTetris
