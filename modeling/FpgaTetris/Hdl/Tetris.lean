/-
One player's half of `tetris.sv`: `block_logic` and `board` connected to each other.
-/
import FpgaTetris.Hdl.Board

namespace FpgaTetris

/-- The registers of one player's game. -/
structure Tetris where
  logic : BlockLogic
  board : Board

namespace Tetris

structure In where
  reset : Bool
  frameClk : Bool
  keycode : BitVec 32
  deriving DecidableEq, Repr

variable (oor : OutOfRange) (playerNum : BitVec 2) (s : Tetris) (i : In)

/-- The inputs of `block_logic`, some of them driven by `board`. -/
def logicIn : BlockLogic.In :=
  { reset := i.reset
    frameClk := i.frameClk
    keycode := i.keycode
    canMove := Board.canMove oor s.board.boardArr s.logic
    boardBusy := s.board.boardBusy
    levelSpeed := s.board.levelSpeed }

/-- The branch of the move selection taken in a cycle. -/
def branch : BlockLogic.Branch := s.logic.branch playerNum (s.logicIn oor i)

/-- The signals of the move selection in a cycle. -/
def comb : BlockLogic.Comb := s.logic.comb oor playerNum (s.logicIn oor i)

/-- The inputs of `board`, driven by `block_logic`. -/
def boardIn : Board.In :=
  { reset := i.reset
    xBlock := s.logic.xBlock
    yBlock := s.logic.yBlock
    saveXblock := s.logic.saveXblock
    saveYblock := s.logic.saveYblock
    getNewBlock := (s.comb oor playerNum i).getNewBlock
    frameClkRisingEdge := s.logic.frameClkRisingEdge
    block := s.logic.block }

def next : Tetris :=
  { logic := s.logic.next oor playerNum (s.logicIn oor i)
    board := s.board.next oor (s.boardIn oor playerNum i) }

def design : Sync.Design Tetris In := ⟨next oor playerNum⟩

/-- Power-up: every register zero, or its declared initial value. -/
def powerUp : Tetris :=
  { logic :=
      { xBlock := ⟨4, 5, 5, 6⟩     -- x_block_choices[T_MAGENTA]
        yBlock := ⟨1, 0, 1, 1⟩     -- y_block_choices[T_MAGENTA]
        saveXblock := ⟨0, 0, 0, 0⟩
        saveYblock := ⟨0, 0, 0, 0⟩
        block := .empty
        curBlockIdx := 0
        curOrientation := .normal
        heldBlock := .empty
        switchBlockIdx := 0
        isBlockSwitched := false
        downCounter := 0
        speedCounter := 0
        frameClkDelayed := false
        frameClkRisingEdge := false
        oldMoveleft := false
        oldMoveright := false
        oldRotleft := false
        oldRotright := false
        blockGen := { generatedBits := 220, oldIdx := 0, nextBlockIdx := 0, fairCounter := 0 } }
    board :=
      { boardArr := fun _ => .empty
        state := .play
        clearCounter := 0
        numRowsReg := 0
        clearYReg := 0
        totalNumRows := 0
        levelSpeed := 0
        scoreKeeper := ⟨0, 0, 0, 0, 0⟩ } }

end Tetris

end FpgaTetris
