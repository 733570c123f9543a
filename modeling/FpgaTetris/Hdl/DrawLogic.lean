/-
The drawing half of `block_logic.sv`: which pixels lie in a player's field and score, the board cell
of a pixel, and the two counters that step with the beam at the edges of `VGA_CLK`.
-/
import Mathlib.Data.BitVec

namespace FpgaTetris

/-- A rectangle of pixels, with its bounds inside it. -/
structure Box where
  xMin : BitVec 10
  xMax : BitVec 10
  yMin : BitVec 10
  yMax : BitVec 10
  deriving DecidableEq, Repr

def Box.Contains (b : Box) (x y : BitVec 10) : Prop := b.xMin ≤ x ∧ x ≤ b.xMax ∧ b.yMin ≤ y ∧ y ≤ b.yMax

instance (b : Box) (x y : BitVec 10) : Decidable (b.Contains x y) := inferInstanceAs (Decidable (_ ∧ _))

/-- The registers `xdraw_counter` and `ydraw_counter`. -/
structure DrawCounters where
  xdrawCounter : BitVec 10
  ydrawCounter : BitVec 10
  deriving DecidableEq, Repr

namespace DrawLogic

/-- The bounds given to an instance: `playx_min` to `playy_max` and `scorex_min` to `scorey_max`. -/
structure Bounds where
  play : Box
  score : Box
  deriving DecidableEq, Repr

variable (b : Bounds) (c : DrawCounters) (drawX drawY : BitVec 10)

/-- `play_area`. -/
def playArea : Bool := decide (b.play.Contains drawX drawY)

/-- `score_area`. -/
def scoreArea : Bool := !playArea b drawX drawY && decide (b.score.Contains drawX drawY)

/-- `x_coord`. -/
def xCoord : BitVec 5 := if playArea b drawX drawY then ((drawX - b.play.xMin) / 20).setWidth 5 else 0

/-- `y_coord`. -/
def yCoord : BitVec 5 := if playArea b drawX drawY then ((drawY - b.play.yMin) / 20).setWidth 5 else 0

/-- `HPLAY_TOTAL`. -/
def hplayTotal : BitVec 10 := 19

/-- `VPLAY_TOTAL`. -/
def vplayTotal : BitVec 10 := 19

/-- The band of the screen in which the counters step. -/
def InBand : Prop := 20 ≤ drawX ∧ drawX ≤ 639 ∧ b.play.yMin ≤ drawY ∧ drawY ≤ b.play.yMax

instance : Decidable (InBand b drawX drawY) := inferInstanceAs (Decidable (_ ∧ _))

/-- `xdraw_counter_in`. -/
def xdrawCounterIn : BitVec 10 :=
  if InBand b drawX drawY then
    -- the resynchronisation at the corner of the field comes last in the source
    if drawX = b.play.xMin ∧ drawY = b.play.yMin then 1
    else if drawX = 639 then 0
    else if hplayTotal ≤ c.xdrawCounter then 0
    else c.xdrawCounter + 1
  else c.xdrawCounter

/-- `ydraw_counter_in`. -/
def ydrawCounterIn : BitVec 10 :=
  if InBand b drawX drawY then
    if drawX = b.play.xMin ∧ drawY = b.play.yMin then 0
    else if drawX = 639 then
      if vplayTotal ≤ c.ydrawCounter then 0 else c.ydrawCounter + 1
    else c.ydrawCounter
  else c.ydrawCounter

/-- The clock edge. -/
def next (reset : Bool) : DrawCounters :=
  if reset then ⟨0, 0⟩ else ⟨xdrawCounterIn b c drawX drawY, ydrawCounterIn b c drawX drawY⟩

end DrawLogic

end FpgaTetris
