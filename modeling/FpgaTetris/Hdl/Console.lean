/-
`tetris.sv`: the USB side, the reset, the two games and the screen, connected to each other.
-/
import FpgaTetris.Hdl.Screen
import FpgaTetris.Hdl.Tetris
import FpgaTetris.Hdl.UsbHost
import FpgaTetris.Software.Keyboard

namespace FpgaTetris

/-- `score_digits`. -/
def Board.scoreDigits (s : Board) : BitVec 24 :=
  let k := s.scoreKeeper
  k.digit5 ++ k.digit4 ++ k.digit3 ++ k.digit2 ++ k.digit1 ++ (0 : BitVec 4)

/-- All registers of `tetris`. -/
structure Console (κ χ : Type) where
  usb : UsbHost κ χ
  resetH : Bool
  scoreDigitsIn1 : BitVec 24
  scoreDigitsIn2 : BitVec 24
  game1 : Tetris
  game2 : Tetris
  screen : Screen

namespace Console

/-- `KEY[0]`, whether the edge of `CLOCK_50` is one of `VGA_CLK`, whether the processor goes on, and the
bus when nothing drives it. -/
structure In where
  key0 : Bool
  vgaClk : Bool
  go : Bool
  idle : BitVec 16
  deriving DecidableEq, Repr

variable {κ χ : Type} (oor : OutOfRange) (latency : ℕ) (body : κ → Driver κ) (chip : OtgChip χ) (s : Console κ χ)
  (i : In)

/-! ## The clock edge -/

/-- `keycode`. -/
def keycode : BitVec 32 := s.usb.ports.keycode

/-- The inputs of both games. -/
def gameIn : Tetris.In := ⟨s.resetH, s.screen.vga.vgaVs, s.keycode⟩

/-- The inputs of `game_board2`, whose `frame_clk_rising_edge` comes from `game1`. -/
def boardIn2 : Board.In :=
  { s.game2.boardIn oor 2 s.gameIn with frameClkRisingEdge := s.game1.logic.frameClkRisingEdge }

def next : Console κ χ :=
  { usb := s.usb.next latency body chip ⟨s.resetH, i.go, i.idle⟩
    resetH := !i.key0 || spaceRst s.keycode
    scoreDigitsIn1 := s.game1.board.scoreDigits
    scoreDigitsIn2 := s.game2.board.scoreDigits
    game1 := s.game1.next oor 1 s.gameIn
    game2 :=
      { logic := s.game2.logic.next oor 2 (s.game2.logicIn oor s.gameIn)
        board := s.game2.board.next oor (s.boardIn2 oor) }
    screen := if i.vgaClk then s.screen.next s.resetH else s.screen }

def design : Sync.Design (Console κ χ) In := ⟨next oor latency body chip⟩

/-- Power-up: every register zero, or its declared initial value. -/
def powerUp (code : Driver κ) (c : χ) : Console κ χ :=
  { usb := .powerUp code c
    resetH := false
    scoreDigitsIn1 := 0
    scoreDigitsIn2 := 0
    game1 := .powerUp
    game2 := .powerUp
    screen := ⟨⟨false, false, false, 0, 0⟩, ⟨0, 0⟩, ⟨0, 0⟩⟩ }

/-! ## The picture -/

/-- What a player's board and game send to the colour mapper, for the pixel at the beam. -/
def player (b : DrawLogic.Bounds) (game : Tetris) (scoreDigitsIn : BitVec 24) : Screen.Player :=
  let vga := s.screen.vga
  { currentPixel :=
      game.board.boardArr.read oor (DrawLogic.xCoord b vga.drawX vga.drawY, DrawLogic.yCoord b vga.drawX vga.drawY)
    scoreDigitsIn
    blockIdx := game.logic.blockIdx
    heldBlock := game.logic.heldBlock }

/-- The inputs of the colour mapper. -/
def mapperIn : BlockColorMapper.In :=
  Screen.mapperIn s.screen.vga.drawX s.screen.vga.drawY s.screen.counters1 s.screen.counters2
    (s.player oor Screen.bounds1 s.game1 s.scoreDigitsIn1) (s.player oor Screen.bounds2 s.game2 s.scoreDigitsIn2)

/-- `VGA_R`, `VGA_G` and `VGA_B`. -/
def rgb (roms : BlockColorMapper.Roms) : BlockColorMapper.Rgb := BlockColorMapper.rgb roms (s.mapperIn oor)

end Console

end FpgaTetris
