/-
`VGA_controller.sv`: the position of the beam and the sync signals. Its registers change at the edges
of `VGA_CLK`.
-/
import Mathlib.Data.BitVec

namespace FpgaTetris

/-- The registers of `VGA_controller`. -/
structure VgaController where
  vgaHs : Bool
  vgaVs : Bool
  vgaBlankN : Bool
  hCounter : BitVec 10
  vCounter : BitVec 10
  deriving DecidableEq, Repr

namespace VgaController

/-- `H_TOTAL`. -/
def hTotal : BitVec 10 := 800

/-- `V_TOTAL`. -/
def vTotal : BitVec 10 := 525

variable (s : VgaController)

/-- `DrawX`. -/
def drawX : BitVec 10 := s.hCounter

/-- `DrawY`. -/
def drawY : BitVec 10 := s.vCounter

/-- `h_counter_in`. -/
def hCounterIn : BitVec 10 := if s.hCounter + 1 = hTotal then 0 else s.hCounter + 1

/-- `v_counter_in`. -/
def vCounterIn : BitVec 10 :=
  if s.hCounter + 1 = hTotal then
    if s.vCounter + 1 = vTotal then 0 else s.vCounter + 1
  else s.vCounter

/-- `VGA_HS_in`. -/
def vgaHsIn : Bool := !(decide (656 ≤ s.hCounterIn) && decide (s.hCounterIn < 752))

/-- `VGA_VS_in`. -/
def vgaVsIn : Bool := !(decide (490 ≤ s.vCounterIn) && decide (s.vCounterIn < 492))

/-- `VGA_BLANK_N_in`. -/
def vgaBlankNIn : Bool := decide (s.hCounterIn < 640) && decide (s.vCounterIn < 480)

/-- The clock edge. -/
def next (reset : Bool) : VgaController :=
  if reset then ⟨false, false, false, 0, 0⟩
  else ⟨s.vgaHsIn, s.vgaVsIn, s.vgaBlankNIn, s.hCounterIn, s.vCounterIn⟩

end VgaController

end FpgaTetris
