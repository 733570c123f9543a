/-
`block_logic.sv`: the piece in play, the held piece, key decoding and the selection of one move
per frame. The counters that draw sprites are not part of this file.
-/
import FpgaTetris.Lib.Design
import FpgaTetris.Hdl.RotateBlocks
import FpgaTetris.Hdl.TetrominoGenerator

namespace FpgaTetris

/-! ## Tables -/

/-- `x_block_choices`: the columns of a new piece. -/
def xBlockChoices (oor : OutOfRange) (idx : BitVec 3) : Quad :=
  match idx.toNat with
  | 0 => ⟨3, 4, 5, 6⟩
  | 1 => ⟨4, 4, 5, 6⟩
  | 2 => ⟨6, 6, 5, 4⟩
  | 3 => ⟨4, 5, 4, 5⟩
  | 4 => ⟨6, 5, 5, 4⟩
  | 5 => ⟨4, 5, 5, 6⟩
  | 6 => ⟨4, 5, 5, 6⟩
  | _ => oor.xBlockChoices idx

/-- `y_block_choices`: the rows of a new piece. -/
def yBlockChoices (oor : OutOfRange) (idx : BitVec 3) : Quad :=
  match idx.toNat with
  | 0 => ⟨0, 0, 0, 0⟩
  | 1 => ⟨0, 1, 1, 1⟩
  | 2 => ⟨0, 1, 1, 1⟩
  | 3 => ⟨0, 0, 1, 1⟩
  | 4 => ⟨0, 0, 1, 1⟩
  | 5 => ⟨1, 0, 1, 1⟩
  | 6 => ⟨0, 0, 1, 1⟩
  | _ => oor.yBlockChoices idx

/-- `block_color_choices`: the colour of a new piece. -/
def blockColorChoices (oor : OutOfRange) (idx : BitVec 3) : BlockColor :=
  match idx.toNat with
  | 0 => .cyan
  | 1 => .blue
  | 2 => .orange
  | 3 => .yellow
  | 4 => .green
  | 5 => .magenta
  | 6 => .red
  | _ => oor.blockColorChoices idx

/-! ## Keys -/

structure Keys where
  moveLeft : Bool
  moveRight : Bool
  speedDown : Bool
  rotateLeft : Bool
  rotateRight : Bool
  holdBlock : Bool
  deriving DecidableEq, Repr

/-- The commands of one player: each key is one bit of `keycode`. -/
def keys (playerNum : BitVec 2) (keycode : BitVec 32) : Keys :=
  let pick (one two : ℕ) : Bool := if playerNum = 1 then keycode.getLsbD one else keycode.getLsbD two
  { moveLeft := pick 0 6       -- A, COMMA_KEY
    moveRight := pick 2 8      -- D, BACKSLASH_KEY
    speedDown := pick 1 7      -- S, PERIOD_KEY
    rotateLeft := pick 3 9     -- F, ONE_KEY
    rotateRight := pick 4 11   -- G, THREE_KEY
    holdBlock := pick 5 10 }   -- H, TWO_KEY

/-! ## Registers and inputs -/

/-- `can_move`, bits 4 down to 0. -/
structure CanMove where
  left : Bool
  right : Bool
  rotateRight : Bool
  rotateLeft : Bool
  down : Bool
  deriving DecidableEq, Repr

/-- The registers of `block_logic` and of its generator. -/
structure BlockLogic where
  xBlock : Quad
  yBlock : Quad
  saveXblock : Quad
  saveYblock : Quad
  block : BlockColor
  curBlockIdx : BitVec 3
  curOrientation : Orientation
  heldBlock : BlockColor
  switchBlockIdx : BitVec 3
  isBlockSwitched : Bool
  downCounter : BitVec 6
  speedCounter : BitVec 4
  frameClkDelayed : Bool
  frameClkRisingEdge : Bool
  oldMoveleft : Bool
  oldMoveright : Bool
  oldRotleft : Bool
  oldRotright : Bool
  blockGen : TetrominoGenerator
  deriving DecidableEq, Repr

namespace BlockLogic

structure In where
  reset : Bool
  frameClk : Bool
  keycode : BitVec 32
  canMove : CanMove
  boardBusy : Bool
  levelSpeed : BitVec 6
  deriving DecidableEq, Repr

variable (oor : OutOfRange) (playerNum : BitVec 2) (r : BlockLogic) (i : In)

def blockIdx : BitVec 3 := r.blockGen.blockIdx

/-- `s_speed`. -/
def sSpeed : BitVec 4 := 1

/-! ## Candidate moves -/

def xMoveLeft : Quad := r.xBlock.map (· - 1)
def yMoveLeft : Quad := r.yBlock
def xMoveRight : Quad := r.xBlock.map (· + 1)
def yMoveRight : Quad := r.yBlock
def xMoveDown : Quad := r.xBlock
def yMoveDown : Quad := r.yBlock.map (· + 1)

/-- `rotater_left` and `rotater_right` are fed the saved coordinates. -/
def rotated (rotateLeft : Bool) : Quad × Quad :=
  rotateBlocks r.block r.saveXblock r.saveYblock rotateLeft r.curOrientation

def xRotateLeft : Quad := (r.rotated true).1
def yRotateLeft : Quad := (r.rotated true).2
def xRotateRight : Quad := (r.rotated false).1
def yRotateRight : Quad := (r.rotated false).2

/-! ## Move selection -/

/-- The leaves of the `if` chain of the move-selection `always_comb`. -/
inductive Branch
  /-- Reset, a busy board, or no frame edge. -/
  | idle
  | gravityDown
  | gravityLock
  | rotateLeft
  | rotateRight
  | moveRight
  | moveLeft
  /-- Soft drop, waiting for `speed_counter`. -/
  | speedCount
  | speedDown
  | speedLock
  /-- Soft drop due, but held back in the top row. -/
  | speedBlocked
  /-- Hold with a piece in the hold box. -/
  | holdSwap
  /-- Hold with an empty hold box. -/
  | holdFirst
  | fall
  deriving DecidableEq, Repr

/-- No cell of the piece is in the top row. -/
def belowTop : Prop := r.yBlock.c1 ≠ 0 ∧ r.yBlock.c2 ≠ 0 ∧ r.yBlock.c3 ≠ 0 ∧ r.yBlock.c4 ≠ 0

instance : Decidable r.belowTop := inferInstanceAs (Decidable (_ ∧ _))

/-- The branch taken in a cycle. -/
def branch : Branch :=
  let k := keys playerNum i.keycode
  if i.reset ∨ i.boardBusy then .idle
  else if r.frameClkRisingEdge ∧ i.levelSpeed ≤ r.downCounter then
    if i.canMove.down then .gravityDown else .gravityLock
  else if r.frameClkRisingEdge then
    -- a key acts only in the frame in which it changed (`*_held` low)
    if k.rotateLeft ∧ i.canMove.rotateLeft ∧ r.oldRotleft ≠ k.rotateLeft then .rotateLeft
    else if k.rotateRight ∧ i.canMove.rotateRight ∧ r.oldRotright ≠ k.rotateRight then .rotateRight
    else if k.moveRight ∧ i.canMove.right ∧ r.oldMoveright ≠ k.moveRight then .moveRight
    else if k.moveLeft ∧ i.canMove.left ∧ r.oldMoveleft ≠ k.moveLeft then .moveLeft
    else if k.speedDown then
      if sSpeed ≤ r.speedCounter then
        if i.canMove.down ∧ r.belowTop then .speedDown
        else if ¬ i.canMove.down then .speedLock
        else .speedBlocked
      else .speedCount
    else if k.holdBlock ∧ ¬ r.isBlockSwitched then
      if r.heldBlock ≠ .empty then .holdSwap else .holdFirst
    else .fall
  else .idle

/-- The orientation after a left turn. -/
def turnLeft : Orientation → Orientation
  | .normal => .rotLeft
  | .rotLeft => .rot2
  | .rot2 => .rotRight
  | .rotRight => .normal

/-- The orientation after a right turn. -/
def turnRight : Orientation → Orientation
  | .normal => .rotRight
  | .rotRight => .rot2
  | .rot2 => .rotLeft
  | .rotLeft => .normal

/-- The signals driven by the move-selection `always_comb`. -/
structure Comb where
  downCounterIn : BitVec 6
  speedCounterIn : BitVec 4
  moveX : Quad
  moveY : Quad
  saveXblockIn : Quad
  saveYblockIn : Quad
  blockIn : BlockColor
  newOrientation : Orientation
  getNewBlock : Bool
  playerMove : BitVec 3
  blockIdxIn : BitVec 3
  switchBlock : Bool
  replaceBlock : Bool

/-- The defaults at the head of the `always_comb`. -/
def defaults : Comb :=
  { downCounterIn := r.downCounter
    speedCounterIn := r.speedCounter
    moveX := r.xBlock
    moveY := r.yBlock
    saveXblockIn := r.xBlock
    saveYblockIn := r.yBlock
    blockIn := r.block
    newOrientation := r.curOrientation
    getNewBlock := false
    playerMove := 0
    blockIdxIn := r.curBlockIdx
    switchBlock := false
    replaceBlock := false }

/-- `setNewBlockInputs`. The recorded index is the generator's, whatever `idx` is. -/
def setNewBlockInputs (idx : BitVec 3) (c : Comb) : Comb :=
  { c with
    moveX := xBlockChoices oor idx
    moveY := yBlockChoices oor idx
    saveXblockIn := xBlockChoices oor idx
    saveYblockIn := yBlockChoices oor idx
    blockIn := blockColorChoices oor idx
    blockIdxIn := r.blockIdx
    newOrientation := .normal
    downCounterIn := 0
    speedCounterIn := 0 }

/-- The assignments of each branch. -/
def assign : Branch → Comb
  | .idle => r.defaults
  | .gravityDown => { r.defaults with playerMove := 2, moveY := r.yMoveDown, downCounterIn := 0 }
  | .gravityLock =>
    { setNewBlockInputs oor r r.blockIdx r.defaults with
      getNewBlock := true, playerMove := r.curBlockIdx + 1 }
  | .rotateLeft =>
    { r.defaults with
      moveX := r.xRotateLeft, moveY := r.yRotateLeft, playerMove := 6
      newOrientation := turnLeft r.curOrientation }
  | .rotateRight =>
    { r.defaults with
      moveX := r.xRotateRight, moveY := r.yRotateRight, playerMove := 5
      newOrientation := turnRight r.curOrientation }
  | .moveRight => { r.defaults with playerMove := 4, moveX := r.xMoveRight, moveY := r.yMoveRight }
  | .moveLeft => { r.defaults with playerMove := 3, moveX := r.xMoveLeft, moveY := r.yMoveLeft }
  | .speedCount =>
    { r.defaults with speedCounterIn := r.speedCounter + 1, downCounterIn := r.downCounter + 1 }
  | .speedDown => { r.defaults with speedCounterIn := 0, downCounterIn := 0, moveY := r.yMoveDown }
  | .speedLock =>
    { setNewBlockInputs oor r r.blockIdx r.defaults with
      getNewBlock := true, playerMove := r.curBlockIdx + 1 }
  | .speedBlocked => { r.defaults with speedCounterIn := 0, downCounterIn := r.downCounter + 1 }
  | .holdSwap =>
    -- the saved coordinates stay those of the outgoing piece, for the board to erase
    { setNewBlockInputs oor r r.switchBlockIdx r.defaults with
      switchBlock := true, saveXblockIn := r.xBlock, saveYblockIn := r.yBlock }
  | .holdFirst =>
    { setNewBlockInputs oor r r.blockIdx r.defaults with
      switchBlock := true, replaceBlock := true, saveXblockIn := r.xBlock, saveYblockIn := r.yBlock }
  | .fall => { r.defaults with downCounterIn := r.downCounter + 1 }

/-- The move-selection `always_comb`. -/
def comb : Comb := assign oor r (branch playerNum r i)

/-! ## The clock edge -/

/-- The inputs of `block_gen`. -/
def genIn : TetrominoGenerator.In :=
  let c := comb oor playerNum r i
  { reset := i.reset, newBlock := c.getNewBlock || c.replaceBlock, newMove := c.playerMove }

def next : BlockLogic :=
  let k := keys playerNum i.keycode
  let c := comb oor playerNum r i
  let piece : BlockLogic :=
    if i.reset then
      { r with
        downCounter := 0
        curOrientation := .normal
        speedCounter := 0
        xBlock := xBlockChoices oor r.blockIdx
        yBlock := yBlockChoices oor r.blockIdx
        block := blockColorChoices oor r.blockIdx
        saveXblock := xBlockChoices oor r.blockIdx
        saveYblock := yBlockChoices oor r.blockIdx
        curBlockIdx := r.blockIdx
        isBlockSwitched := false
        heldBlock := .empty }
    else
      { r with
        xBlock := c.moveX
        yBlock := c.moveY
        saveXblock := c.saveXblockIn
        saveYblock := c.saveYblockIn
        heldBlock := if c.switchBlock then r.block else r.heldBlock
        switchBlockIdx := if c.switchBlock then r.curBlockIdx else r.switchBlockIdx
        isBlockSwitched :=
          if c.switchBlock then true else if c.getNewBlock then false else r.isBlockSwitched
        block := c.blockIn
        curBlockIdx := c.blockIdxIn
        curOrientation := c.newOrientation
        downCounter := c.downCounterIn
        speedCounter := c.speedCounterIn }
  { piece with
    frameClkDelayed := i.frameClk
    frameClkRisingEdge := i.frameClk && !r.frameClkDelayed
    oldMoveleft := if r.frameClkRisingEdge then k.moveLeft else r.oldMoveleft
    oldMoveright := if r.frameClkRisingEdge then k.moveRight else r.oldMoveright
    oldRotleft := if r.frameClkRisingEdge then k.rotateLeft else r.oldRotleft
    oldRotright := if r.frameClkRisingEdge then k.rotateRight else r.oldRotright
    blockGen := r.blockGen.next (genIn oor playerNum r i) }

def design : Sync.Design BlockLogic In := ⟨next oor playerNum⟩

end BlockLogic

end FpgaTetris
