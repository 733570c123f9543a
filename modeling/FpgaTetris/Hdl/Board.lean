/-
`board.sv`: the 10×20 array, the test of candidate moves, and the state machine that clears full
rows, with its score keeper.
-/
import FpgaTetris.Lib.Addressed
import FpgaTetris.Hdl.BlockLogic
import FpgaTetris.Hdl.ScoreKeeper

namespace FpgaTetris

/-! ## The array -/

namespace BoardArr

/-- `board_arr[x][y]`. -/
def read (oor : OutOfRange) (b : BoardArr) (p : Pos) : BlockColor :=
  if h : InBoard p then b (⟨p.1.toNat, h.1⟩, ⟨p.2.toNat, h.2⟩) else oor.boardArr b p

/-- A sequence of assignments to `board_in[x][y]`; one outside the array has no effect. -/
def writeAll (b : BoardArr) (ws : List (Pos × BlockColor)) : BoardArr := Addressed.writeAll pos b ws

end BoardArr

/-- The states of the board's machine; `other` stands for the codes of the 3-bit register that
the enumeration does not name. -/
inductive BoardState
  | play
  | clear
  | drop
  | score
  | other
  deriving DecidableEq, Repr

/-- The registers of `board` and of its score keeper. -/
structure Board where
  boardArr : BoardArr
  state : BoardState
  clearCounter : BitVec 3
  numRowsReg : BitVec 5
  clearYReg : BitVec 5
  totalNumRows : BitVec 11
  levelSpeed : BitVec 6
  scoreKeeper : ScoreKeeper

namespace Board

structure In where
  reset : Bool
  xBlock : Quad
  yBlock : Quad
  saveXblock : Quad
  saveYblock : Quad
  getNewBlock : Bool
  frameClkRisingEdge : Bool
  block : BlockColor
  deriving DecidableEq, Repr

/-! ## The full-row scan -/

/-- The inner loop over the columns of row `j`, left at the first empty cell. -/
def canClearCurrent (b : BoardArr) (j : Fin ySize) : List (Fin xSize) → Bool
  | [] => true
  | i :: is => if b (i, j) = .empty then false else canClearCurrent b j is

/-- `clear_y`, `num_rows` and `can_clear_row`. -/
structure Scan where
  clearY : BitVec 5
  numRows : BitVec 5
  canClearRow : Bool
  deriving DecidableEq, Repr

/-- One round of the outer loop. -/
def scanRow (b : BoardArr) (acc : Scan) (j : Fin ySize) : Scan :=
  if canClearCurrent b j (List.finRange xSize) then ⟨BitVec.ofNat 5 j, acc.numRows + 1, true⟩ else acc

/-- The scan from the top row down, starting from `clear_y = 30`. -/
def scan (b : BoardArr) : Scan := (List.finRange ySize).foldl (scanRow b) ⟨30, 0, false⟩

/-! ## Candidate moves -/

section Moves

variable (oor : OutOfRange) (b : BoardArr) (x y : Quad)

/-- `checkBlockMatch`: an empty cell, or a cell of the piece itself. -/
def checkBlockMatch (p : Pos) : Bool :=
  b.read oor p == .empty || (p == (x.c1, y.c1) || p == (x.c2, y.c2) || p == (x.c3, y.c3) || p == (x.c4, y.c4))

def checkBoardSpaces (xparam yparam : Quad) : Bool :=
  checkBlockMatch oor b x y (xparam.c1, yparam.c1) && checkBlockMatch oor b x y (xparam.c2, yparam.c2) &&
    checkBlockMatch oor b x y (xparam.c3, yparam.c3) && checkBlockMatch oor b x y (xparam.c4, yparam.c4)

def inBounds (xparam yparam : Quad) : Bool :=
  decide (xparam.c1 < 10) && decide (xparam.c2 < 10) && decide (xparam.c3 < 10) && decide (xparam.c4 < 10) &&
    decide (yparam.c1 < 20) && decide (yparam.c2 < 20) && decide (yparam.c3 < 20) && decide (yparam.c4 < 20)

/-- One bit of `can_move`, for a move of the piece at `x`, `y` to `xparam`, `yparam`. -/
def canMoveTo (xparam yparam : Quad) : Bool :=
  inBounds xparam yparam && checkBoardSpaces oor b x y xparam yparam

end Moves

/-- `can_move`, from the candidate moves of `block_logic`. -/
def canMove (oor : OutOfRange) (b : BoardArr) (r : BlockLogic) : CanMove :=
  let ok := canMoveTo oor b r.xBlock r.yBlock
  { left := ok r.xMoveLeft r.yMoveLeft
    right := ok r.xMoveRight r.yMoveRight
    rotateRight := ok r.xRotateRight r.yRotateRight
    rotateLeft := ok r.xRotateLeft r.yRotateLeft
    down := ok r.xMoveDown r.yMoveDown }

/-! ## The state machine -/

variable (oor : OutOfRange) (s : Board) (i : In)

/-- `clear_frames`. -/
def clearFrames : BitVec 3 := 3

/-- `level_speed_in`. -/
def levelSpeedIn : BitVec 6 :=
  if s.totalNumRows < 4 then 60
  else if s.totalNumRows < 10 then 30
  else if s.totalNumRows < 20 then 25
  else if s.totalNumRows < 30 then 20
  else if s.totalNumRows < 40 then 15
  else if s.totalNumRows < 50 then 10
  else 5

/-- `save_clear_y`. -/
def saveClearY : Bool := s.state == .play && i.getNewBlock && (scan s.boardArr).canClearRow

/-- `next_state`. -/
def nextState : BoardState :=
  match s.state with
  | .play => if i.getNewBlock ∧ (scan s.boardArr).canClearRow then .clear else .play
  | .clear =>
    if i.frameClkRisingEdge ∧ s.clearCounter = clearFrames then
      if (scan s.boardArr).numRows = 1 ∧ s.clearYReg - s.numRowsReg ≠ 0 then .drop
      else if 1 < (scan s.boardArr).numRows then .clear
      else .score
    else .clear
  | .drop => if i.frameClkRisingEdge then .score else .drop
  | .score => .play
  | .other => .play

/-- `BOARD_BUSY`. -/
def boardBusy : Bool := s.state == .clear || s.state == .drop || s.state == .score

/-- `update_score`. -/
def updateScore : Bool := s.state == .score

/-- A frame edge that erases a row in `CLEAR`. -/
def erases : Prop :=
  i.frameClkRisingEdge ∧ s.clearCounter = clearFrames ∧ (scan s.boardArr).canClearRow

instance : Decidable (s.erases i) := inferInstanceAs (Decidable (_ ∧ _))

/-- `clear_counter_in`. -/
def clearCounterIn : BitVec 3 :=
  match s.state with
  | .clear =>
    if s.erases i then 0 else if i.frameClkRisingEdge then s.clearCounter + 1 else s.clearCounter
  | _ => 0

/-- The values of `col` in a loop over the columns. -/
def colIndices : List (BitVec 5) := (List.range xSize).map (BitVec.ofNat 5)

/-- The values of `row` in the `DROP` loop: from 19 down to 0, where the decrement wraps to 31
and ends the loop. -/
def rowIndicesDown : List (BitVec 5) := (List.range ySize).reverse.map (BitVec.ofNat 5)

/-- The cells erased in `PLAY`: those of the saved coordinates, unless the piece locks. -/
def eraseCells : List Pos := if i.getNewBlock then [] else cells i.saveXblock i.saveYblock

/-- The cells of row `clear_y`, erased in `CLEAR`. -/
def clearCells (clearY : BitVec 5) : List Pos := colIndices.map (·, clearY)

/-- The cells assigned by the `DROP` loop, in its order. -/
def dropCells : List Pos := rowIndicesDown.flatMap fun row => colIndices.map (·, row)

/-- The cell that the `DROP` loop copies to a cell: `board_arr[col][row]` below the saved row and
`board_arr[col][row-num_rows_reg]` elsewhere. -/
def dropSource (p : Pos) : Pos := (p.1, if s.clearYReg < p.2 then p.2 else p.2 - s.numRowsReg)

/-- `board_in`. -/
def boardIn : BoardArr :=
  match s.state with
  | .play =>
    (s.boardArr.writeAll ((eraseCells i).map (·, .empty))).writeAll
      ((cells i.xBlock i.yBlock).map (·, i.block))
  | .clear =>
    if s.erases i then s.boardArr.writeAll ((clearCells (scan s.boardArr).clearY).map (·, .empty))
    else s.boardArr
  | .drop =>
    if i.frameClkRisingEdge then
      s.boardArr.writeAll (dropCells.map fun p => (p, s.boardArr.read oor (s.dropSource p)))
    else s.boardArr
  | .score => s.boardArr
  | .other => s.boardArr

/-- The inputs of the score keeper; the 3-bit port takes the low bits of `num_rows_reg`. -/
def scoreIn : ScoreKeeper.In :=
  { reset := i.reset, update := s.updateScore, numLines := s.numRowsReg.setWidth 3 }

/-- The clock edge. Reset leaves the state register as it is. -/
def next : Board :=
  let scoreKeeper := s.scoreKeeper.next (s.scoreIn i)
  if i.reset then
    { s with
      boardArr := fun _ => .empty
      clearCounter := 0
      numRowsReg := 0
      clearYReg := 0
      totalNumRows := 0
      levelSpeed := 60
      scoreKeeper }
  else
    let sc := scan s.boardArr
    { boardArr := s.boardIn oor i
      state := s.nextState i
      clearCounter := s.clearCounterIn i
      numRowsReg := if s.saveClearY i then sc.numRows else s.numRowsReg
      clearYReg := if s.saveClearY i then sc.clearY else s.clearYReg
      totalNumRows := if s.saveClearY i then s.totalNumRows + sc.numRows.setWidth 11 else s.totalNumRows
      levelSpeed := s.levelSpeedIn
      scoreKeeper }

def design : Sync.Design Board In := ⟨next oor⟩

end Board

end FpgaTetris
