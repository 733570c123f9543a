/-
`rotate_blocks.sv`: the cells of a piece after a quarter turn, as a table indexed by colour,
direction (`rotate_left` high or low) and present orientation. Coordinates wrap modulo 32.
-/
import FpgaTetris.Hdl.Types

namespace FpgaTetris

/-- The `CYAN` case. -/
def rotateCyan (x y : Quad) : Bool → Orientation → Quad × Quad
  | true, .normal => (⟨x.c2, x.c2, x.c2, x.c2⟩,
      ⟨y.c4 - 1, y.c4, y.c4 + 1, y.c4 + 2⟩)
  | true, .rotLeft => (⟨x.c3 - 1, x.c3, x.c3 + 1, x.c3 + 2⟩,
      ⟨y.c3, y.c3, y.c3, y.c3⟩)
  | true, .rot2 => (⟨x.c3, x.c3, x.c3, x.c3⟩,
      ⟨y.c3 - 2, y.c3 - 1, y.c3, y.c3 + 1⟩)
  | true, .rotRight => (⟨x.c3 - 2, x.c3 - 1, x.c3, x.c3 + 1⟩,
      ⟨y.c2, y.c2, y.c2, y.c2⟩)
  | false, .normal => (⟨x.c3, x.c3, x.c3, x.c3⟩,
      ⟨y.c4 - 1, y.c4, y.c4 + 1, y.c4 + 2⟩)
  | false, .rotRight => (⟨x.c3 - 2, x.c3 - 1, x.c3, x.c3 + 1⟩,
      ⟨y.c3, y.c3, y.c3, y.c3⟩)
  | false, .rot2 => (⟨x.c2, x.c2, x.c2, x.c2⟩,
      ⟨y.c3 - 2, y.c3 - 1, y.c3, y.c3 + 1⟩)
  | false, .rotLeft => (⟨x.c3 - 1, x.c3, x.c3 + 1, x.c3 + 2⟩,
      ⟨y.c2, y.c2, y.c2, y.c2⟩)

/-- The `BLUE` case. -/
def rotateBlue (x y : Quad) : Bool → Orientation → Quad × Quad
  | true, .normal => (⟨x.c1, x.c2 + 1, x.c3, x.c4 - 1⟩,
      ⟨y.c1 + 2, y.c2 + 1, y.c3, y.c4 - 1⟩)
  | true, .rotLeft => (⟨x.c1 + 2, x.c2 + 1, x.c3, x.c4 - 1⟩,
      ⟨y.c1, y.c2 - 1, y.c3, y.c4 + 1⟩)
  | true, .rot2 => (⟨x.c1, x.c2 - 1, x.c3, x.c4 + 1⟩,
      ⟨y.c1 - 2, y.c2 - 1, y.c3, y.c4 + 1⟩)
  | true, .rotRight => (⟨x.c1 - 2, x.c2 - 1, x.c3, x.c4 + 1⟩,
      ⟨y.c1, y.c2 + 1, y.c3, y.c4 - 1⟩)
  | false, .normal => (⟨x.c1 + 2, x.c2 + 1, x.c3, x.c4 - 1⟩,
      ⟨y.c1, y.c2 - 1, y.c3, y.c4 + 1⟩)
  | false, .rotRight => (⟨x.c1, x.c2 + 1, x.c3, x.c4 - 1⟩,
      ⟨y.c1 + 2, y.c2 + 1, y.c3, y.c4 - 1⟩)
  | false, .rot2 => (⟨x.c1 - 2, x.c2 - 1, x.c3, x.c4 + 1⟩,
      ⟨y.c1, y.c2 + 1, y.c3, y.c4 - 1⟩)
  | false, .rotLeft => (⟨x.c1, x.c2 - 1, x.c3, x.c4 + 1⟩,
      ⟨y.c1 - 2, y.c2 - 1, y.c3, y.c4 + 1⟩)

/-- The `ORANGE` case. -/
def rotateOrange (x y : Quad) : Bool → Orientation → Quad × Quad
  | true, .normal => (⟨x.c1 - 2, x.c2 - 1, x.c3, x.c4 + 1⟩,
      ⟨y.c1, y.c2 - 1, y.c3, y.c4 + 1⟩)
  | true, .rotLeft => (⟨x.c1, x.c2 - 1, x.c3, x.c4 + 1⟩,
      ⟨y.c1 + 2, y.c2 + 1, y.c3, y.c4 - 1⟩)
  | true, .rot2 => (⟨x.c1 + 2, x.c2 + 1, x.c3, x.c4 - 1⟩,
      ⟨y.c1, y.c2 + 1, y.c3, y.c4 - 1⟩)
  | true, .rotRight => (⟨x.c1, x.c2 + 1, x.c3, x.c4 - 1⟩,
      ⟨y.c1 - 2, y.c2 - 1, y.c3, y.c4 + 1⟩)
  | false, .normal => (⟨x.c1, x.c2 - 1, x.c3, x.c4 + 1⟩,
      ⟨y.c1 + 2, y.c2 + 1, y.c3, y.c4 - 1⟩)
  | false, .rotRight => (⟨x.c1 - 2, x.c2 - 1, x.c3, x.c4 + 1⟩,
      ⟨y.c1, y.c2 - 1, y.c3, y.c4 + 1⟩)
  | false, .rot2 => (⟨x.c1, x.c2 + 1, x.c3, x.c4 - 1⟩,
      ⟨y.c1 - 2, y.c2 - 1, y.c3, y.c4 + 1⟩)
  | false, .rotLeft => (⟨x.c1 + 2, x.c2 + 1, x.c3, x.c4 - 1⟩,
      ⟨y.c1, y.c2 + 1, y.c3, y.c4 - 1⟩)

/-- The `GREEN` case. -/
def rotateGreen (x y : Quad) : Bool → Orientation → Quad × Quad
  | true, .normal => (⟨x.c1 - 2, x.c2 - 1, x.c3, x.c4 + 1⟩,
      ⟨y.c1, y.c2 + 1, y.c3, y.c4 + 1⟩)
  | true, .rotLeft => (⟨x.c1, x.c2 + 1, x.c3, x.c4 + 1⟩,
      ⟨y.c1 + 2, y.c2 + 1, y.c3, y.c4 - 1⟩)
  | true, .rot2 => (⟨x.c1 + 2, x.c2 + 1, x.c3, x.c4 - 1⟩,
      ⟨y.c1, y.c2 - 1, y.c3, y.c4 - 1⟩)
  | true, .rotRight => (⟨x.c1, x.c2 - 1, x.c3, x.c4 - 1⟩,
      ⟨y.c1 - 2, y.c2 - 1, y.c3, y.c4 + 1⟩)
  | false, .normal => (⟨x.c1, x.c2 + 1, x.c3, x.c4 + 1⟩,
      ⟨y.c1 + 2, y.c2 + 1, y.c3, y.c4 - 1⟩)
  | false, .rotRight => (⟨x.c1 - 2, x.c2 - 1, x.c3, x.c4 + 1⟩,
      ⟨y.c1, y.c2 + 1, y.c3, y.c4 + 1⟩)
  | false, .rot2 => (⟨x.c1, x.c2 - 1, x.c3, x.c4 - 1⟩,
      ⟨y.c1 - 2, y.c2 - 1, y.c3, y.c4 + 1⟩)
  | false, .rotLeft => (⟨x.c1 + 2, x.c2 + 1, x.c3, x.c4 - 1⟩,
      ⟨y.c1, y.c2 - 1, y.c3, y.c4 - 1⟩)

/-- The `RED` case. -/
def rotateRed (x y : Quad) : Bool → Orientation → Quad × Quad
  | true, .normal => (⟨x.c1, x.c2 - 1, x.c3, x.c4 - 1⟩,
      ⟨y.c1 + 2, y.c2 + 1, y.c3, y.c4 - 1⟩)
  | true, .rotLeft => (⟨x.c1 + 2, x.c2 + 1, x.c3, x.c4 - 1⟩,
      ⟨y.c1, y.c2 + 1, y.c3, y.c4 + 1⟩)
  | true, .rot2 => (⟨x.c1, x.c2 + 1, x.c3, x.c4 + 1⟩,
      ⟨y.c1 - 2, y.c2 - 1, y.c3, y.c4 + 1⟩)
  | true, .rotRight => (⟨x.c1 - 2, x.c2 - 1, x.c3, x.c4 + 1⟩,
      ⟨y.c1, y.c2 - 1, y.c3, y.c4 - 1⟩)
  | false, .normal => (⟨x.c1 + 2, x.c2 + 1, x.c3, x.c4 - 1⟩,
      ⟨y.c1, y.c2 + 1, y.c3, y.c4 + 1⟩)
  | false, .rotRight => (⟨x.c1, x.c2 - 1, x.c3, x.c4 - 1⟩,
      ⟨y.c1 + 2, y.c2 + 1, y.c3, y.c4 - 1⟩)
  | false, .rot2 => (⟨x.c1 - 2, x.c2 - 1, x.c3, x.c4 + 1⟩,
      ⟨y.c1, y.c2 - 1, y.c3, y.c4 - 1⟩)
  | false, .rotLeft => (⟨x.c1, x.c2 + 1, x.c3, x.c4 + 1⟩,
      ⟨y.c1 - 2, y.c2 - 1, y.c3, y.c4 + 1⟩)

/-- The `MAGENTA` case. -/
def rotateMagenta (x y : Quad) : Bool → Orientation → Quad × Quad
  | true, .normal => (⟨x.c1 + 1, x.c2 - 1, x.c3, x.c4 - 1⟩,
      ⟨y.c1 + 1, y.c2 + 1, y.c3, y.c4 - 1⟩)
  | true, .rotLeft => (⟨x.c1 + 1, x.c2 + 1, x.c3, x.c4 - 1⟩,
      ⟨y.c1 - 1, y.c2 + 1, y.c3, y.c4 + 1⟩)
  | true, .rot2 => (⟨x.c1 - 1, x.c2 + 1, x.c3, x.c4 + 1⟩,
      ⟨y.c1 - 1, y.c2 - 1, y.c3, y.c4 + 1⟩)
  | true, .rotRight => (⟨x.c1 - 1, x.c2 - 1, x.c3, x.c4 + 1⟩,
      ⟨y.c1 + 1, y.c2 - 1, y.c3, y.c4 - 1⟩)
  | false, .normal => (⟨x.c1 + 1, x.c2 + 1, x.c3, x.c4 - 1⟩,
      ⟨y.c1 - 1, y.c2 + 1, y.c3, y.c4 + 1⟩)
  | false, .rotRight => (⟨x.c1 + 1, x.c2 - 1, x.c3, x.c4 - 1⟩,
      ⟨y.c1 + 1, y.c2 + 1, y.c3, y.c4 - 1⟩)
  | false, .rot2 => (⟨x.c1 - 1, x.c2 - 1, x.c3, x.c4 + 1⟩,
      ⟨y.c1 + 1, y.c2 - 1, y.c3, y.c4 - 1⟩)
  | false, .rotLeft => (⟨x.c1 - 1, x.c2 + 1, x.c3, x.c4 + 1⟩,
      ⟨y.c1 - 1, y.c2 - 1, y.c3, y.c4 + 1⟩)

/-- `rotate_blocks`: the turned `x` and `y` vectors. The square (`YELLOW`) stays where it is. -/
def rotateBlocks (block : BlockColor) (x y : Quad) (rotateLeft : Bool) (curOrientation : Orientation) :
    Quad × Quad :=
  match block with
  | .empty => (⟨0, 0, 0, 0⟩, ⟨0, 0, 0, 0⟩)
  | .cyan => rotateCyan x y rotateLeft curOrientation
  | .blue => rotateBlue x y rotateLeft curOrientation
  | .orange => rotateOrange x y rotateLeft curOrientation
  | .yellow => (x, y)
  | .green => rotateGreen x y rotateLeft curOrientation
  | .red => rotateRed x y rotateLeft curOrientation
  | .magenta => rotateMagenta x y rotateLeft curOrientation

end FpgaTetris
