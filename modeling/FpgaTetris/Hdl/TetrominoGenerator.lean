/-
`tetromino_generator.sv`: the pseudo-random index of the next piece.
-/
import Mathlib.Data.BitVec

namespace FpgaTetris

structure TetrominoGenerator where
  generatedBits : BitVec 10
  oldIdx : BitVec 3
  nextBlockIdx : BitVec 3
  fairCounter : BitVec 3
  deriving DecidableEq, Repr

namespace TetrominoGenerator

structure In where
  reset : Bool
  newBlock : Bool
  newMove : BitVec 3
  deriving DecidableEq, Repr

/-- `start`, a register nothing writes. -/
def start : BitVec 10 := 385

/-- `block_idx`. -/
def blockIdx (g : TetrominoGenerator) : BitVec 3 := g.nextBlockIdx

/-- `block_idx_in`: the low random bits, or the fair counter when they name no piece or repeat
`old_idx`. -/
def blockIdxIn (g : TetrominoGenerator) (i : In) : BitVec 3 :=
  if i.reset then g.generatedBits.extractLsb' 3 3
  else if i.newBlock then
    let low := g.generatedBits.extractLsb' 0 3
    if 6 < low ∨ low = g.oldIdx then
      if g.oldIdx = g.fairCounter then
        if g.fairCounter = 6 then 0 else g.fairCounter + 1
      else g.fairCounter
    else low
  else 0

/-- `fair_counter_in`. -/
def fairCounterIn (g : TetrominoGenerator) (i : In) : BitVec 3 :=
  if i.reset then g.fairCounter
  else if i.newBlock then
    if g.fairCounter = 6 then 0 else g.fairCounter + 1
  else g.fairCounter

/-- The `always_ff` block: its nonblocking assignments in order, a later one to a register
winning over an earlier one. -/
def next (g : TetrominoGenerator) (i : In) : TetrominoGenerator :=
  let g1 :=
    if i.reset then
      { g with nextBlockIdx := 0, generatedBits := g.generatedBits + start, fairCounter := 0 }
    else g
  let g2 :=
    { g1 with
      oldIdx := g.blockIdx
      fairCounter := g.fairCounterIn i
      generatedBits := g.generatedBits + i.newMove.setWidth 10 + g.blockIdx.setWidth 10 }
  if i.newBlock then { g2 with nextBlockIdx := g.blockIdxIn i } else g2

end TetrominoGenerator

end FpgaTetris
