/-
`score_keeper.sv`: five decimal digits of the score, `digit1` counting tens (the ones digit is
always 0).
-/
import FpgaTetris.Lib.Design
import Mathlib.Data.BitVec

namespace FpgaTetris

/-- The digit registers. -/
structure ScoreKeeper where
  digit1 : BitVec 4
  digit2 : BitVec 4
  digit3 : BitVec 4
  digit4 : BitVec 4
  digit5 : BitVec 4
  deriving DecidableEq, Repr

namespace ScoreKeeper

structure In where
  reset : Bool
  update : Bool
  numLines : BitVec 3
  deriving DecidableEq, Repr

/-- The `case (num_lines)` additions. -/
def addLines (s : ScoreKeeper) (numLines : BitVec 3) : ScoreKeeper :=
  match numLines.toNat with
  | 1 => { s with digit1 := s.digit1 + 4 }
  | 2 => { s with digit2 := s.digit2 + 1 }
  | 3 => { s with digit2 := s.digit2 + 3 }
  | 4 => { s with digit2 := s.digit2 + 2, digit3 := s.digit3 + 1 }
  | _ => s

/-- One carry: a digit of 10 or more hands one to the next digit. -/
def carry (d n : BitVec 4) : BitVec 4 × BitVec 4 := if 10 ≤ d then (d - 10, n + 1) else (d, n)

/-- The `next_digit` logic. -/
def nextDigits (s : ScoreKeeper) (update : Bool) (numLines : BitVec 3) : ScoreKeeper :=
  if update then
    let n := s.addLines numLines
    let c1 := carry n.digit1 n.digit2
    let c2 := carry c1.2 n.digit3
    let c3 := carry c2.2 n.digit4
    let c4 := carry c3.2 n.digit5
    -- the saturation branch assigns `next_digit1` five times and no other digit
    if 10 ≤ c4.2 then ⟨9, c2.1, c3.1, c4.1, c4.2⟩ else ⟨c1.1, c2.1, c3.1, c4.1, c4.2⟩
  else s

def next (s : ScoreKeeper) (i : In) : ScoreKeeper :=
  if i.reset then ⟨0, 0, 0, 0, 0⟩ else s.nextDigits i.update i.numLines

def design : Sync.Design ScoreKeeper In := ⟨next⟩

end ScoreKeeper

end FpgaTetris
