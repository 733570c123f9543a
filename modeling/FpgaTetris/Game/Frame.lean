/-
Frames of play, as the player sees them. A frame is three clock cycles: the frame clock rises, its
edge is acted on, and the board catches up. Between frames the registers show a position of the
abstract game, and a player can bring about any free move of it.
-/
import FpgaTetris.Game.Refine

namespace FpgaTetris

/-! ## Positions -/

/-- A position of the game: the settled cells and the piece in play. -/
structure Position where
  settled : BoardArr
  x : Quad
  y : Quad
  color : BlockColor
  orientation : Orientation

namespace Position

def cells (P : Position) : List Pos := FpgaTetris.cells P.x P.y

/-- The piece lies on free cells. -/
def Legal (P : Position) : Prop := ∀ p ∈ P.cells, P.settled.Free p

/-- The position after a move. -/
def move (P : Position) (m : Move) : Position :=
  let q := m.apply P.color P.orientation P.x P.y
  { P with x := q.1, y := q.2, orientation := m.turn P.orientation }

/-- The settled cells after the piece locks. -/
def locked (P : Position) : BoardArr := P.settled.paint P.cells P.color

theorem Legal.lift {P : Position} (h : P.Legal) : P.locked.paint P.cells .empty = P.settled := by
  unfold locked
  rw [BoardArr.paint_paint, BoardArr.paint_free h]

end Position

/-! ## Cycles without a draw -/

namespace TetrominoGenerator

/-- A cycle without a draw, with a move code. -/
def tick (g : TetrominoGenerator) (m : BitVec 3) : TetrominoGenerator :=
  { g with
    oldIdx := g.nextBlockIdx
    generatedBits := g.generatedBits + m.setWidth 10 + g.nextBlockIdx.setWidth 10 }

theorem next_tick (g : TetrominoGenerator) (m : BitVec 3) : g.next ⟨false, false, m⟩ = g.tick m := by
  simp [next, tick, fairCounterIn, blockIdx]

/-- From `g` to `g'` in cycles without a draw, with move codes that add up to `n`. While the generator
shows index 0, nothing else changes its bits. -/
structure Ticks (g : TetrominoGenerator) (n : BitVec 10) (g' : TetrominoGenerator) : Prop where
  nextBlockIdx : g'.nextBlockIdx = g.nextBlockIdx
  bits : g.nextBlockIdx = 0 → g'.generatedBits = g.generatedBits + n

namespace Ticks

variable {g g' g'' : TetrominoGenerator} {n n' : BitVec 10}

theorem refl (g : TetrominoGenerator) : Ticks g 0 g := ⟨rfl, fun _ => (add_zero _).symm⟩

theorem trans (h : Ticks g n g') (h' : Ticks g' n' g'') : Ticks g (n + n') g'' := by
  refine ⟨h'.nextBlockIdx.trans h.nextBlockIdx, fun h0 => ?_⟩
  rw [h'.bits (h.nextBlockIdx.trans h0), h.bits h0, add_assoc]

theorem tick (g : TetrominoGenerator) (m : BitVec 3) : Ticks g (m.setWidth 10) (g.tick m) := by
  refine ⟨rfl, fun h0 => ?_⟩
  unfold TetrominoGenerator.tick
  rw [h0]
  exact add_zero _

end Ticks

end TetrominoGenerator

namespace BlockLogic

variable {oor : OutOfRange} {playerNum : BitVec 2} {r : BlockLogic} {i : In} {br : Branch}

/-- The registers after a cycle that neither locks nor holds. -/
theorem next_eq (hi : i.reset = false) (hb : branch playerNum r i = br) (hl : br.effect ≠ .lock)
    (hh : br.effect ≠ .hold) :
    next oor playerNum r i =
      let k := keys playerNum i.keycode
      let c := assign oor r br
      { r with
        xBlock := c.moveX
        yBlock := c.moveY
        saveXblock := r.xBlock
        saveYblock := r.yBlock
        curOrientation := c.newOrientation
        downCounter := c.downCounterIn
        speedCounter := c.speedCounterIn
        frameClkDelayed := i.frameClk
        frameClkRisingEdge := i.frameClk && !r.frameClkDelayed
        oldMoveleft := if r.frameClkRisingEdge then k.moveLeft else r.oldMoveleft
        oldMoveright := if r.frameClkRisingEdge then k.moveRight else r.oldMoveright
        oldRotleft := if r.frameClkRisingEdge then k.rotateLeft else r.oldRotleft
        oldRotright := if r.frameClkRisingEdge then k.rotateRight else r.oldRotright
        blockGen := r.blockGen.tick c.playerMove } := by
  -- without a lock or a hold the generator is not asked for a piece
  have hgen : genIn oor playerNum r i = ⟨false, false, (assign oor r br).playerMove⟩ := by
    unfold genIn comb
    rw [hb, hi]
    cases br <;> first | rfl | exact absurd rfl hl | exact absurd rfl hh
  unfold next
  rw [hgen, TetrominoGenerator.next_tick, comb, hb, hi]
  cases br <;> first | rfl | exact absurd rfl hl | exact absurd rfl hh

/-! ## Keys -/

/-- No movement key was down at the last frame edge. -/
def Released (r : BlockLogic) : Prop :=
  r.oldMoveleft = false ∧ r.oldMoveright = false ∧ r.oldRotleft = false ∧ r.oldRotright = false

theorem released_next (he : r.frameClkRisingEdge = true) (hk : i.keycode = 0) :
    (next oor playerNum r i).Released := by
  simp [Released, next, he, hk, keys]

/-- The key code of a move. -/
def press (playerNum : BitVec 2) : Move → BitVec 32
  | .left => if playerNum = 1 then 1 else 64
  | .right => if playerNum = 1 then 4 else 256
  | .rotateRight => if playerNum = 1 then 16 else 2048
  | .rotateLeft => if playerNum = 1 then 8 else 512
  | .down => 0

/-- The branch that makes a move at a frame edge; without a key a piece moves down by gravity. -/
def moveBranch : Move → Branch
  | .left => .moveLeft
  | .right => .moveRight
  | .rotateRight => .rotateRight
  | .rotateLeft => .rotateLeft
  | .down => .gravityDown

theorem effect_moveBranch (m : Move) : (moveBranch m).effect = .move m := by
  cases m <;> rfl

/-- `down_counter` after a branch. -/
def Branch.count (c : BitVec 6) : Branch → BitVec 6
  | .idle | .rotateLeft | .rotateRight | .moveRight | .moveLeft => c
  | .speedCount | .speedBlocked | .fall => c + 1
  | .gravityDown | .gravityLock | .speedDown | .speedLock | .holdSwap | .holdFirst => 0

theorem assign_downCounterIn (br : Branch) : (assign oor r br).downCounterIn = br.count r.downCounter := by
  cases br <;> rfl

/-- `player_move` in a branch that does not lock. -/
def Branch.code : Branch → BitVec 3
  | .gravityDown => 2
  | .moveLeft => 3
  | .moveRight => 4
  | .rotateRight => 5
  | .rotateLeft => 6
  | _ => 0

theorem assign_playerMove (hl : br.effect ≠ .lock) : (assign oor r br).playerMove = br.code := by
  cases br <;> first | rfl | exact absurd rfl hl

section Edge

variable (hi : i.reset = false) (hb : i.boardBusy = false) (he : r.frameClkRisingEdge = true)

include hi hb he

/-- Without a key a piece waits for gravity, then moves down or locks. -/
theorem branch_noKey (hk : i.keycode = 0) :
    branch playerNum r i =
      if i.levelSpeed ≤ r.downCounter then if i.canMove.down then .gravityDown else .gravityLock else .fall := by
  have hkeys : keys playerNum i.keycode = ⟨false, false, false, false, false, false⟩ := by
    rw [hk]; simp [keys]
  unfold branch
  rw [hkeys]
  simp [hi, hb, he]

/-- A key just pressed makes its move, if gravity is not due. -/
theorem branch_press (hr : r.Released) (hlt : ¬ i.levelSpeed ≤ r.downCounter) {m : Move} (hm : m ≠ .down)
    (hk : i.keycode = press playerNum m) (hc : i.canMove.get m = true) :
    branch playerNum r i = moveBranch m := by
  obtain ⟨h1, h2, h3, h4⟩ := hr
  unfold branch
  rw [hk]
  cases m <;> by_cases hp : playerNum = 1 <;>
    simp_all [press, keys, CanMove.get, moveBranch]

end Edge

end BlockLogic

namespace Tetris

variable {oor : OutOfRange} {playerNum : BitVec 2} {s : Tetris} {P Q : Position} {k : BitVec 32}

/-! ## Registers that show a position -/

/-- Early in a game, in `PLAY`, the registers hold a position, and the board shows it. -/
structure Holds (oor : OutOfRange) (P : Position) (s : Tetris) : Prop where
  inv : Inv oor s
  play : s.board.state = .play
  total : s.board.totalNumRows = 0
  level : s.board.levelSpeed = 60
  saveX : s.logic.saveXblock = s.logic.xBlock
  saveY : s.logic.saveYblock = s.logic.yBlock
  x : s.logic.xBlock = P.x
  y : s.logic.yBlock = P.y
  color : s.logic.block = P.color
  orientation : s.logic.curOrientation = P.orientation
  board : s.board.boardArr = P.locked
  legal : P.Legal

/-- Between frames: the frame clock is low and no edge is waiting. -/
structure Shows (oor : OutOfRange) (P : Position) (s : Tetris) : Prop extends Holds oor P s where
  low : s.logic.frameClkDelayed = false
  noEdge : s.logic.frameClkRisingEdge = false

/-- In a cycle with a frame edge. -/
structure AtEdge (oor : OutOfRange) (P : Position) (s : Tetris) : Prop extends Holds oor P s where
  edge : s.logic.frameClkRisingEdge = true

theorem Holds.pieceCells (h : Holds oor P s) : s.logic.pieceCells = P.cells := by
  unfold BlockLogic.pieceCells Position.cells
  rw [h.x, h.y]

theorem Holds.lifted (h : Holds oor P s) : s.lifted = P.settled := by
  unfold Tetris.lifted
  rw [h.board, h.pieceCells, h.legal.lift]

theorem AtEdge.canMove_iff (h : AtEdge oor P s) (m : Move) :
    (Board.canMove oor s.board.boardArr s.logic).get m = true ↔ (P.move m).Legal := by
  rw [h.inv.canMove_iff h.edge, h.lifted, BlockLogic.targetCells, h.x, h.y, h.color, h.orientation]
  rfl

theorem next_slow {i : In} (hi : i.reset = false) (hs : s.board.saveClearY (s.boardIn oor playerNum i) = false)
    (ht : s.board.totalNumRows = 0) :
    (s.next oor playerNum i).board.totalNumRows = 0 ∧ (s.next oor playerNum i).board.levelSpeed = 60 := by
  rw [next_totalNumRows hi, next_levelSpeed hi, hs, Board.levelSpeedIn, ht]
  exact ⟨rfl, rfl⟩

theorem saveClearY_of_not_lock {i : In} (hs : s.board.state = .play)
    (hl : (s.branch oor playerNum i).effect ≠ .lock) :
    s.board.saveClearY (s.boardIn oor playerNum i) = false :=
  Bool.eq_false_iff.2 fun h => hl ((saveClearY_iff hs).1 h).1

/-! ## The cycles of a frame -/

/-- A cycle in `PLAY` in which the piece rests; the board catches up with the registers. -/
structure Rests (s n : Tetris) : Prop where
  x : n.logic.xBlock = s.logic.xBlock
  y : n.logic.yBlock = s.logic.yBlock
  color : n.logic.block = s.logic.block
  orientation : n.logic.curOrientation = s.logic.curOrientation
  saveX : n.logic.saveXblock = n.logic.xBlock
  saveY : n.logic.saveYblock = n.logic.yBlock
  play : n.board.state = .play
  board : n.board.boardArr =
    (s.board.boardArr.paint s.logic.savedCells .empty).paint s.logic.pieceCells s.logic.block
  total : n.board.totalNumRows = 0
  level : n.board.levelSpeed = 60

variable (oor) (playerNum) in
/-- Without a frame edge the piece rests. -/
theorem next_rests {i : In} (hi : i.reset = false) (he : s.logic.frameClkRisingEdge = false)
    (hs : s.board.state = .play) (ht : s.board.totalNumRows = 0) : Rests s (s.next oor playerNum i) := by
  have hb := stay_of_noEdge oor playerNum i he
  have hl : (s.branch oor playerNum i).effect ≠ .lock := by simp [hb]
  have hst := stepped oor playerNum s hi
  obtain ⟨hx, hy, ho⟩ := hst.stay (by rw [hb]; rfl)
  obtain ⟨hc, -⟩ := hst.keep hl (by simp [hb])
  obtain ⟨hsx, hsy⟩ := hst.save hl
  obtain ⟨ht', hlev⟩ := next_slow hi (saveClearY_of_not_lock hs hl) ht
  refine ⟨hx, hy, hc, ho, hsx.trans hx.symm, hsy.trans hy.symm, play_next oor playerNum hi hs hl, ?_, ht', hlev⟩
  rw [next_boardArr_play hi hs, if_neg hl]

theorem Holds.next_idle (h : Holds oor P s) (he : s.logic.frameClkRisingEdge = false) {i : In} (hi : i.reset = false) :
    Holds oor P (s.next oor playerNum i) := by
  have hr := next_rests oor playerNum hi he h.play h.total
  refine ⟨h.inv.next i, hr.play, hr.total, hr.level, hr.saveX, hr.saveY, hr.x.trans h.x, hr.y.trans h.y,
    hr.color.trans h.color, hr.orientation.trans h.orientation, ?_, h.legal⟩
  rw [hr.board, BlockLogic.savedCells_eq h.saveX h.saveY, h.pieceCells, h.board, h.legal.lift, h.color,
    Position.locked]

variable (playerNum) in
theorem Shows.rise (h : Shows oor P s) (k : BitVec 32) : AtEdge oor P (s.next oor playerNum ⟨false, true, k⟩) := by
  refine ⟨h.toHolds.next_idle h.noEdge rfl, ?_⟩
  show (true && !s.logic.frameClkDelayed) = true
  rw [h.low]; rfl

/-- The position a branch leads to. -/
inductive Leads (P : Position) : BlockLogic.Branch → Position → Prop
  | stay {br : BlockLogic.Branch} (h : br.effect = .stay) : Leads P br P
  | move {br : BlockLogic.Branch} {m : Move} (h : br.effect = .move m) : Leads P br (P.move m)

namespace Leads

variable {br : BlockLogic.Branch} (h : Leads P br Q)

include h

theorem ne_lock : br.effect ≠ .lock := by
  cases h with
  | stay h => rw [h]; exact Effect.noConfusion
  | move h => rw [h]; exact Effect.noConfusion

theorem ne_hold : br.effect ≠ .hold := by
  cases h with
  | stay h => rw [h]; exact Effect.noConfusion
  | move h => rw [h]; exact Effect.noConfusion

theorem settled : Q.settled = P.settled := by cases h <;> rfl

theorem color : Q.color = P.color := by cases h <;> rfl

end Leads

/-- After the edge the registers hold the new position, on a board that is one cycle behind. -/
theorem AtEdge.next_piece (h : AtEdge oor P s) {i : In} (hi : i.reset = false)
    (hQ : Leads P (s.branch oor playerNum i) Q) :
    let n := (s.next oor playerNum i).logic
    n.xBlock = Q.x ∧ n.yBlock = Q.y ∧ n.block = Q.color ∧ n.curOrientation = Q.orientation := by
  have hst := stepped oor playerNum s hi
  obtain ⟨hc, -⟩ := hst.keep hQ.ne_lock hQ.ne_hold
  generalize s.branch oor playerNum i = br at hst hQ
  refine ⟨?_, ?_, by rw [hc, h.color, hQ.color], ?_⟩ <;> cases hQ with
  | stay he =>
    obtain ⟨hx, hy, ho⟩ := hst.stay he
    first | exact hx.trans h.x | exact hy.trans h.y | exact ho.trans h.orientation
  | move he =>
    obtain ⟨hx, hy, ho⟩ := hst.move _ he
    rw [BlockLogic.target_eq h.saveX h.saveY, h.x, h.y, h.color, h.orientation] at hx hy
    rw [h.orientation] at ho
    first | exact hx | exact hy | exact ho

/-- The edge is acted on, and a cycle later the board shows where it leads. -/
theorem AtEdge.act (h : AtEdge oor P s) (hQ : Leads P (s.branch oor playerNum ⟨false, false, k⟩) Q) (hlegal : Q.Legal) :
    Shows oor Q ((s.next oor playerNum ⟨false, false, k⟩).next oor playerNum ⟨false, false, k⟩) := by
  obtain ⟨hx, hy, hc, ho⟩ := h.next_piece rfl hQ
  have hplay := play_next oor playerNum (i := ⟨false, false, k⟩) rfl h.play hQ.ne_lock
  obtain ⟨ht, -⟩ := next_slow rfl (saveClearY_of_not_lock h.play hQ.ne_lock) h.total
  have hr := next_rests oor playerNum (i := ⟨false, false, k⟩) rfl (h.inv.noEdge_next h.edge) hplay ht
  refine ⟨⟨(h.inv.next _).next _, hr.play, hr.total, hr.level, hr.saveX, hr.saveY, hr.x.trans hx, hr.y.trans hy,
    hr.color.trans hc, hr.orientation.trans ho, ?_, hlegal⟩, rfl, rfl⟩
  rw [h.inv.boardArr_next_next h.edge rfl rfl h.play hQ.ne_lock, h.lifted, BlockLogic.pieceCells, hx, hy, hc,
    Position.locked, hQ.settled, Position.cells]

/-! ## Frames -/

/-- A frame with keys `k`: the frame clock rises, the edge is acted on, the board catches up. -/
def frame (oor : OutOfRange) (playerNum : BitVec 2) (k : BitVec 32) (s : Tetris) : Tetris :=
  ((s.next oor playerNum ⟨false, true, k⟩).next oor playerNum ⟨false, false, k⟩).next oor playerNum ⟨false, false, k⟩

/-- The branch taken at the edge of a frame. -/
def frameBranch (oor : OutOfRange) (playerNum : BitVec 2) (k : BitVec 32) (s : Tetris) : BlockLogic.Branch :=
  (s.next oor playerNum ⟨false, true, k⟩).branch oor playerNum ⟨false, false, k⟩

theorem Shows.frame (h : Shows oor P s) (hQ : Leads P (s.frameBranch oor playerNum k) Q) (hlegal : Q.Legal) :
    Shows oor Q (s.frame oor playerNum k) :=
  (h.rise playerNum k).act hQ hlegal

section Counters

variable (oor) (playerNum)

/-- A cycle without a frame edge counts nothing and samples no key. -/
theorem next_logic_idle (he : s.logic.frameClkRisingEdge = false) {i : In} (hi : i.reset = false) :
    let n := (s.next oor playerNum i).logic
    n.downCounter = s.logic.downCounter ∧ s.logic.blockGen.Ticks 0 n.blockGen ∧
      n.blockGen.oldIdx = n.blockGen.nextBlockIdx ∧ (s.logic.Released → n.Released) := by
  have heq : (s.next oor playerNum i).logic = _ :=
    BlockLogic.next_eq hi (stay_of_noEdge oor playerNum i he) Effect.noConfusion Effect.noConfusion
  rw [heq, he]
  exact ⟨rfl, .tick _ 0, rfl, id⟩

/-- The cycle that acts on a frame edge. -/
theorem next_logic_edge (he : s.logic.frameClkRisingEdge = true)
    (hQ : Leads P (s.branch oor playerNum ⟨false, false, k⟩) Q) :
    let n := (s.next oor playerNum ⟨false, false, k⟩).logic
    let br := s.branch oor playerNum ⟨false, false, k⟩
    n.downCounter = br.count s.logic.downCounter ∧ s.logic.blockGen.Ticks (br.code.setWidth 10) n.blockGen ∧
      (k = 0 → n.Released) := by
  intro n br
  have heq : n = _ := BlockLogic.next_eq rfl rfl hQ.ne_lock hQ.ne_hold
  refine ⟨?_, ?_, ?_⟩
  · rw [heq]
    exact BlockLogic.assign_downCounterIn _
  · rw [heq, ← BlockLogic.assign_playerMove hQ.ne_lock]
    exact .tick _ _
  · rintro rfl
    exact BlockLogic.released_next he rfl

/-- What a frame does to the gravity counter, the generator and the sampled keys. -/
theorem Shows.frame_logic (h : Shows oor P s) (hQ : Leads P (s.frameBranch oor playerNum k) Q) :
    let n := (s.frame oor playerNum k).logic
    let br := s.frameBranch oor playerNum k
    n.downCounter = br.count s.logic.downCounter ∧ s.logic.blockGen.Ticks (br.code.setWidth 10) n.blockGen ∧
      (k = 0 → n.Released) := by
  have hedge := h.rise playerNum k
  obtain ⟨hd, hg, -, -⟩ := next_logic_idle oor playerNum h.noEdge (i := ⟨false, true, k⟩) rfl
  obtain ⟨hd', hg', hk⟩ := next_logic_edge oor playerNum hedge.edge hQ
  obtain ⟨hd'', hg'', -, hr⟩ :=
    next_logic_idle oor playerNum (hedge.inv.noEdge_next hedge.edge) (i := ⟨false, false, k⟩) rfl
  refine ⟨?_, ?_, fun h0 => hr (hk h0)⟩
  · exact hd''.trans (hd'.trans (congrArg (BlockLogic.Branch.count · _) hd))
  · have hticks := (hg.trans hg').trans hg''
    rwa [zero_add, add_zero] at hticks

end Counters

/-! ## The moves of a player -/

/-- Between frames, with no movement key down at the last one. -/
structure Ready (oor : OutOfRange) (P : Position) (s : Tetris) : Prop extends Shows oor P s where
  released : s.logic.Released

section Edge

variable (h : AtEdge oor P s)

include h

theorem AtEdge.boardBusy : s.board.boardBusy = false := by
  unfold Board.boardBusy
  rw [h.play]; rfl

/-- Without a key a piece waits for gravity, then moves down or locks. -/
theorem AtEdge.branch_noKey :
    s.branch oor playerNum ⟨false, false, 0⟩ =
      if 60 ≤ s.logic.downCounter then
        if (Board.canMove oor s.board.boardArr s.logic).down then .gravityDown else .gravityLock
      else .fall := by
  unfold branch
  rw [BlockLogic.branch_noKey rfl h.boardBusy h.edge rfl, ← h.level]
  rfl

/-- A key just pressed makes its move, if the move is legal and gravity is not due. -/
theorem AtEdge.branch_press (hr : s.logic.Released) (hc : ¬ 60 ≤ s.logic.downCounter) {m : Move} (hm : m ≠ .down)
    (hl : (P.move m).Legal) :
    s.branch oor playerNum ⟨false, false, BlockLogic.press playerNum m⟩ = BlockLogic.moveBranch m :=
  BlockLogic.branch_press rfl h.boardBusy h.edge hr (by rw [← h.level] at hc; exact hc) hm rfl
    ((h.canMove_iff m).2 hl)

end Edge

end Tetris

end FpgaTetris
