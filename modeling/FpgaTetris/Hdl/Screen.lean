/-
The video half of `tetris.sv`: the beam, the draw counters of the two players, the bounds of their
regions on the screen, and the colour mapper.
-/
import FpgaTetris.Lib.Design
import FpgaTetris.Hdl.VgaController
import FpgaTetris.Hdl.BlockColorMapper

namespace FpgaTetris

/-- The registers clocked by `VGA_CLK`. -/
structure Screen where
  vga : VgaController
  counters1 : DrawCounters
  counters2 : DrawCounters
  deriving DecidableEq, Repr

namespace Screen

/-! ## Bounds -/

/-- The bounds of `game1`. -/
def bounds1 : DrawLogic.Bounds := ⟨⟨20, 219, 40, 439⟩, ⟨96, 143, 15, 30⟩⟩

/-- The bounds of `game2`. -/
def bounds2 : DrawLogic.Bounds := ⟨⟨340, 539, 40, 439⟩, ⟨416, 463, 15, 30⟩⟩

/-- `holdx_min1` to `holdy_max`. -/
def hold1 : Box := ⟨260, 291, 120, 135⟩

/-- `holdx_min2` to `holdy_max`. -/
def hold2 : Box := ⟨580, 611, 120, 135⟩

/-- `nextx_min1` to `nexty_max`. -/
def next1 : Box := ⟨260, 291, 40, 55⟩

/-- `nextx_min2` to `nexty_max`. -/
def next2 : Box := ⟨580, 611, 40, 55⟩

/-! ## Wiring -/

/-- What a player's board and game send to the colour mapper for a pixel. -/
structure Player where
  currentPixel : BlockColor
  scoreDigitsIn : BitVec 24
  blockIdx : BitVec 3
  heldBlock : BlockColor
  deriving DecidableEq, Repr

/-- The inputs of the colour mapper that belong to one player. -/
def mapperSide (b : DrawLogic.Bounds) (hold next : Box) (drawX drawY : BitVec 10) (c : DrawCounters) (p : Player) :
    BlockColorMapper.Side :=
  { playArea := DrawLogic.playArea b drawX drawY
    scoreArea := DrawLogic.scoreArea b drawX drawY
    blockType := p.currentPixel
    scoreDigitsIn := p.scoreDigitsIn
    scorexMin := b.score.xMin
    scorexMax := b.score.xMax
    counters := c
    hold := hold
    next := next
    blockIdx := p.blockIdx
    heldBlock := p.heldBlock }

/-- The inputs of the colour mapper at a pixel. -/
def mapperIn (drawX drawY : BitVec 10) (c1 c2 : DrawCounters) (p1 p2 : Player) : BlockColorMapper.In :=
  { one := mapperSide bounds1 hold1 next1 drawX drawY c1 p1
    two := mapperSide bounds2 hold2 next2 drawX drawY c2 p2
    drawX
    drawY }

variable (s : Screen)

/-- The clock edge of `VGA_CLK`. -/
def next (reset : Bool) : Screen :=
  { vga := s.vga.next reset
    counters1 := DrawLogic.next bounds1 s.counters1 s.vga.drawX s.vga.drawY reset
    counters2 := DrawLogic.next bounds2 s.counters2 s.vga.drawX s.vga.drawY reset }

def design : Sync.Design Screen Bool := ⟨next⟩

end Screen

end FpgaTetris
