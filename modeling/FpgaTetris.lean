import FpgaTetris.Lib.Design
import FpgaTetris.Lib.Addressed
import FpgaTetris.Lib.Ripple
import FpgaTetris.Lib.Compact
import FpgaTetris.Lib.Cyclic
import FpgaTetris.Lib.Lts
import FpgaTetris.Lib.Progress
import FpgaTetris.Lib.Mmio
import FpgaTetris.Hdl.Types
import FpgaTetris.Hdl.RotateBlocks
import FpgaTetris.Hdl.ScoreKeeper
import FpgaTetris.Hdl.TetrominoGenerator
import FpgaTetris.Hdl.BlockLogic
import FpgaTetris.Hdl.Board
import FpgaTetris.Hdl.Tetris
import FpgaTetris.Hdl.Hpi
import FpgaTetris.Hdl.UsbHost
import FpgaTetris.Score.Saturation
import FpgaTetris.Piece.Step
import FpgaTetris.Piece.Shape
import FpgaTetris.Piece.Invariant
import FpgaTetris.Piece.Hold
import FpgaTetris.Board.Scan
import FpgaTetris.Board.Clearing
import FpgaTetris.Board.LineClear
import FpgaTetris.Board.Occupied
import FpgaTetris.Game.Step
import FpgaTetris.Game.Invariant
import FpgaTetris.Game.Refine
import FpgaTetris.Game.Scoring
import FpgaTetris.Game.FullRows
import FpgaTetris.Game.Reset
import FpgaTetris.Game.Frame
import FpgaTetris.Game.Play
import FpgaTetris.Game.FirstClear
import FpgaTetris.Game.Access
import FpgaTetris.Game.TopOut
import FpgaTetris.Game.Arrival
import FpgaTetris.Game.Rules
import FpgaTetris.Game.Tally
import FpgaTetris.Game.Simulation
import FpgaTetris.Game.Gravity
import FpgaTetris.Game.FreeFall
import FpgaTetris.Software.Keyboard
import FpgaTetris.Software.IoHandler
import FpgaTetris.Software.Usb
import FpgaTetris.Software.Main
import FpgaTetris.Software.Labels
import FpgaTetris.Input.KeyCodes
import FpgaTetris.Input.Presses
import FpgaTetris.Piece.Generator
import FpgaTetris.Board.ClearPhase
import FpgaTetris.Piece.Rotation
import FpgaTetris.Board.Level
import FpgaTetris.Board.Guard
import FpgaTetris.Board.Flush
import FpgaTetris.Piece.CurIndex
import FpgaTetris.Piece.Rotators
import FpgaTetris.Piece.Supply
import FpgaTetris.Hdl.VgaController
import FpgaTetris.Hdl.DrawLogic
import FpgaTetris.Hdl.BlockColorMapper
import FpgaTetris.Hdl.Screen
import FpgaTetris.Hdl.Console
import FpgaTetris.Screen.Counters
import FpgaTetris.Screen.Half
import FpgaTetris.Screen.Shapes
import FpgaTetris.Screen.Mirror
import FpgaTetris.Screen.Previews
import FpgaTetris.Screen.Text
import FpgaTetris.Usb.Refine
import FpgaTetris.Usb.Run
import FpgaTetris.Usb.Memory
import FpgaTetris.Usb.Timing
import FpgaTetris.Usb.Polling
import FpgaTetris.Usb.Visits
import FpgaTetris.Console.Games
import FpgaTetris.Console.Frames
import FpgaTetris.Console.Picture
import FpgaTetris.Console.Space
import FpgaTetris.Console.Rules
import FpgaTetris.Console.Keys
import FpgaTetris.Console.Restart
