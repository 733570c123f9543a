/-
One cycle of `block_logic` and `board` together: what the bits of `can_move` mean, and what the
`PLAY` branch writes. Later proofs use these lemmas and never unfold the board's logic.
-/
import FpgaTetris.Board.Clearing
import FpgaTetris.Hdl.Tetris
import FpgaTetris.Piece.Invariant

namespace FpgaTetris

/-! ## Moves of a piece -/

/-- Where a move takes a piece of colour `c` in orientation `o`. -/
def Move.apply (m : Move) (c : BlockColor) (o : Orientation) (x y : Quad) : Quad × Quad :=
  match m with
  | .left => (x.map (· - 1), y)
  | .right => (x.map (· + 1), y)
  | .rotateRight => rotateBlocks c x y false o
  | .rotateLeft => rotateBlocks c x y true o
  | .down => (x, y.map (· + 1))

/-- A moved piece is still formed, in the orientation after the move. -/
theorem Formed.apply {oor : OutOfRange} {c : BlockColor} {o : Orientation} {x y : Quad} (h : Formed oor c o x y)
    (hc : c ≠ .empty) (m : Move) : Formed oor c (m.turn o) (m.apply c o x y).1 (m.apply c o x y).2 := by
  cases m with
  | left => simpa [Move.apply, Move.turn, Quad.map, sub_eq_add_neg] using h.translate (-1) 0
  | right => simpa [Move.apply, Move.turn, Quad.map] using h.translate 1 0
  | down => simpa [Move.apply, Move.turn, Quad.map] using h.translate 0 1
  | rotateRight => exact h.rotate hc false
  | rotateLeft => exact h.rotate hc true

namespace BlockLogic

/-- The cells of the piece in play. -/
def pieceCells (r : BlockLogic) : List Pos := cells r.xBlock r.yBlock

/-- The cells that the board erases in `PLAY`. -/
def savedCells (r : BlockLogic) : List Pos := cells r.saveXblock r.saveYblock

theorem savedCells_eq {r : BlockLogic} (hx : r.saveXblock = r.xBlock) (hy : r.saveYblock = r.yBlock) :
    r.savedCells = r.pieceCells := by
  unfold savedCells pieceCells
  rw [hx, hy]

/-- The cells a move of the piece in play leads to. -/
def targetCells (r : BlockLogic) (m : Move) : List Pos :=
  let q := m.apply r.block r.curOrientation r.xBlock r.yBlock
  cells q.1 q.2

/-- With the saved coordinates in step, the candidate moves are moves of the piece. -/
theorem target_eq {r : BlockLogic} (hx : r.saveXblock = r.xBlock) (hy : r.saveYblock = r.yBlock) (m : Move) :
    r.target m = m.apply r.block r.curOrientation r.xBlock r.yBlock := by
  cases m <;> simp [target, Move.apply, xMoveLeft, yMoveLeft, xMoveRight, yMoveRight, xMoveDown, yMoveDown,
    xRotateLeft, yRotateLeft, xRotateRight, yRotateRight, rotated, hx, hy]

end BlockLogic

/-! ## Painting -/

/-- The board with one colour written at some positions. -/
def BoardArr.paint (b : BoardArr) (ps : List Pos) (v : BlockColor) : BoardArr := b.writeAll (ps.map (·, v))

/-- A position on the board where it is empty. -/
def BoardArr.Free (b : BoardArr) (p : Pos) : Prop := ∃ c, pos c = p ∧ b c = .empty

theorem BoardArr.free_iff (oor : OutOfRange) {b : BoardArr} {p : Pos} :
    b.Free p ↔ InBoard p ∧ b.read oor p = .empty := by
  rw [inBoard_iff]
  constructor
  · rintro ⟨c, rfl, hc⟩; exact ⟨⟨c, rfl⟩, (BoardArr.read_pos ..).trans hc⟩
  · rintro ⟨⟨c, rfl⟩, hc⟩; exact ⟨c, rfl, (BoardArr.read_pos ..).symm.trans hc⟩

instance (b : BoardArr) (p : Pos) : Decidable (b.Free p) := decidable_of_iff' _ (BoardArr.free_iff someReads)

theorem BoardArr.Free.inBoard {b : BoardArr} {p : Pos} (h : b.Free p) : InBoard p :=
  inBoard_iff.2 (h.imp fun _ hc => hc.1)

theorem BoardArr.paint_apply (b : BoardArr) (ps : List Pos) (v : BlockColor) (c : Cell) :
    b.paint ps v c = if pos c ∈ ps then v else b c := b.writeAll_const ps v c

theorem BoardArr.paint_empty_iff {b : BoardArr} {ps : List Pos} {c : Cell} :
    b.paint ps .empty c = .empty ↔ b c = .empty ∨ pos c ∈ ps := by
  rw [BoardArr.paint_apply]
  split <;> simp [*]

theorem BoardArr.paint_paint (b : BoardArr) (ps : List Pos) (v w : BlockColor) :
    (b.paint ps v).paint ps w = b.paint ps w := by
  funext c
  simp only [BoardArr.paint_apply]
  split <;> rfl

/-- Erasing free cells changes nothing. -/
theorem BoardArr.paint_free {b : BoardArr} {ps : List Pos} (h : ∀ p ∈ ps, b.Free p) : b.paint ps .empty = b := by
  funext c
  rw [BoardArr.paint_apply]
  split
  · rename_i hc
    obtain ⟨c', hpos, hfree⟩ := h _ hc
    rw [← pos_injective hpos, hfree]
  · rfl

namespace Board

variable {oor : OutOfRange} {b : BoardArr} {x y x' y' : Quad}

/-! ## The test of candidate moves -/

theorem inBounds_iff : inBounds x' y' = true ↔ ∀ p ∈ cells x' y', InBoard p := by
  simp only [inBounds, cells, InBoard, Bool.and_eq_true, decide_eq_true_eq, List.mem_cons, List.not_mem_nil,
    or_false, forall_eq_or_imp, forall_eq, BitVec.lt_def]
  constructor
  · rintro ⟨⟨⟨⟨⟨⟨⟨a, b⟩, c⟩, d⟩, e⟩, f⟩, g⟩, h⟩
    exact ⟨⟨a, e⟩, ⟨b, f⟩, ⟨c, g⟩, d, h⟩
  · rintro ⟨⟨a, e⟩, ⟨b, f⟩, ⟨c, g⟩, d, h⟩
    exact ⟨⟨⟨⟨⟨⟨⟨a, b⟩, c⟩, d⟩, e⟩, f⟩, g⟩, h⟩

theorem checkBlockMatch_iff {p : Pos} :
    checkBlockMatch oor b x y p = true ↔ b.read oor p = .empty ∨ p ∈ cells x y := by
  simp [checkBlockMatch, cells, or_assoc]

theorem checkBoardSpaces_iff :
    checkBoardSpaces oor b x y x' y' = true ↔ ∀ p ∈ cells x' y', b.read oor p = .empty ∨ p ∈ cells x y := by
  simp only [checkBoardSpaces, Bool.and_eq_true, checkBlockMatch_iff, cells, List.mem_cons, List.not_mem_nil,
    or_false, forall_eq_or_imp, forall_eq, and_assoc]

/-- A move is allowed exactly when its cells are on the board and empty once the piece is lifted
off it. -/
theorem canMoveTo_iff :
    canMoveTo oor b x y x' y' = true ↔
      ∀ p ∈ cells x' y', (b.paint (cells x y) .empty).Free p := by
  unfold canMoveTo
  rw [Bool.and_eq_true, inBounds_iff, checkBoardSpaces_iff, ← forall₂_and]
  refine forall₂_congr fun p _ => ?_
  rw [inBoard_iff]
  constructor
  · rintro ⟨⟨c, rfl⟩, h⟩
    rw [BoardArr.read_pos] at h
    exact ⟨c, rfl, BoardArr.paint_empty_iff.2 h⟩
  · rintro ⟨c, rfl, h⟩
    rw [BoardArr.read_pos]
    exact ⟨⟨c, rfl⟩, BoardArr.paint_empty_iff.1 h⟩

theorem get_canMove (r : BlockLogic) (m : Move) :
    (canMove oor b r).get m = canMoveTo oor b r.xBlock r.yBlock (r.target m).1 (r.target m).2 := by
  cases m <;> rfl

end Board

namespace Tetris

variable {oor : OutOfRange} {playerNum : BitVec 2} {s : Tetris} {i : In}

/-! ## The cycle -/

/-- The board once the piece in play is lifted off it. -/
def lifted (s : Tetris) : BoardArr := s.board.boardArr.paint s.logic.pieceCells .empty

theorem getNewBlock_iff :
    (s.comb oor playerNum i).getNewBlock = true ↔ (s.branch oor playerNum i).effect = .lock :=
  BlockLogic.getNewBlock_iff _ _ _

theorem switchBlock_iff :
    (s.comb oor playerNum i).switchBlock = true ↔ (s.branch oor playerNum i).effect = .hold :=
  BlockLogic.switchBlock_iff _ _ _

theorem active_of_move {m : Move} (h : (s.branch oor playerNum i).effect = .move m) :
    i.reset = false ∧ s.board.boardBusy = false ∧ s.logic.frameClkRisingEdge = true :=
  BlockLogic.active_of_move h

theorem active_of_lock (h : (s.branch oor playerNum i).effect = .lock) :
    i.reset = false ∧ s.board.boardBusy = false ∧ s.logic.frameClkRisingEdge = true :=
  BlockLogic.active_of_lock h

theorem active_of_hold (h : (s.branch oor playerNum i).effect = .hold) :
    i.reset = false ∧ s.board.boardBusy = false ∧ s.logic.frameClkRisingEdge = true :=
  BlockLogic.active_of_hold h

theorem stay_of_busy (h : s.board.boardBusy = true) : s.branch oor playerNum i = .idle :=
  BlockLogic.branch_eq_idle (.inr (.inl h))

variable (oor playerNum i) in
theorem stay_of_noEdge (h : s.logic.frameClkRisingEdge = false) : s.branch oor playerNum i = .idle :=
  BlockLogic.branch_eq_idle (.inr (.inr h))

variable (oor playerNum s) in
theorem stepped (hi : i.reset = false) :
    BlockLogic.Stepped oor s.logic (s.branch oor playerNum i) (s.next oor playerNum i).logic :=
  BlockLogic.next_stepped _ _ _ _ hi

theorem savedCells_next (hi : i.reset = false) (hl : (s.branch oor playerNum i).effect ≠ .lock) :
    (s.next oor playerNum i).logic.savedCells = s.logic.pieceCells := by
  obtain ⟨hx, hy⟩ := (stepped oor playerNum s hi).save hl
  unfold BlockLogic.savedCells BlockLogic.pieceCells
  rw [hx, hy]

theorem next_board (s : Tetris) (i : In) :
    (s.next oor playerNum i).board = s.board.next oor (s.boardIn oor playerNum i) := rfl

section Board

variable (hi : i.reset = false)

include hi

theorem next_state :
    (s.next oor playerNum i).board.state = s.board.nextState (s.boardIn oor playerNum i) :=
  Board.next_state (i := s.boardIn oor playerNum i) hi

theorem next_boardArr :
    (s.next oor playerNum i).board.boardArr = s.board.boardIn oor (s.boardIn oor playerNum i) :=
  Board.next_boardArr (i := s.boardIn oor playerNum i) hi

theorem next_totalNumRows :
    (s.next oor playerNum i).board.totalNumRows =
      if s.board.saveClearY (s.boardIn oor playerNum i) then
        s.board.totalNumRows + (Board.scan s.board.boardArr).numRows.setWidth 11
      else s.board.totalNumRows :=
  Board.next_totalNumRows (i := s.boardIn oor playerNum i) hi

theorem next_levelSpeed : (s.next oor playerNum i).board.levelSpeed = s.board.levelSpeedIn :=
  Board.next_levelSpeed (i := s.boardIn oor playerNum i) hi

end Board

/-- `PLAY` lifts the saved cells off the board, unless the piece locks, and writes the piece. -/
theorem next_boardArr_play (hi : i.reset = false) (hs : s.board.state = .play) :
    (s.next oor playerNum i).board.boardArr =
      (if (s.branch oor playerNum i).effect = .lock then s.board.boardArr
        else s.board.boardArr.paint s.logic.savedCells .empty).paint s.logic.pieceCells s.logic.block := by
  rw [next_boardArr hi, Board.boardIn, hs]
  simp only [Board.eraseCells]
  by_cases hl : (s.branch oor playerNum i).effect = .lock
  · rw [if_pos hl, if_pos (show (s.boardIn oor playerNum i).getNewBlock = true from getNewBlock_iff.2 hl)]
    rfl
  · have hg : (s.boardIn oor playerNum i).getNewBlock ≠ true := fun h => hl (getNewBlock_iff.1 h)
    rw [if_neg hl, if_neg hg]
    rfl

variable (oor playerNum) in
theorem next_state_play (hi : i.reset = false) (hs : s.board.state = .play) :
    (s.next oor playerNum i).board.state =
      if (s.branch oor playerNum i).effect = .lock ∧ ∃ y, FullRow s.board.boardArr y then .clear else .play := by
  rw [next_state hi, Board.nextState, hs]
  exact if_congr (and_congr getNewBlock_iff (Board.canClearRow_iff _)) rfl rfl

variable (oor playerNum) in
theorem play_next (hi : i.reset = false) (hs : s.board.state = .play)
    (hl : (s.branch oor playerNum i).effect ≠ .lock) : (s.next oor playerNum i).board.state = .play := by
  rw [next_state_play oor playerNum hi hs, if_neg fun hc => hl hc.1]

/-- A cycle in `PLAY` saves counts when a piece locks over full rows. -/
theorem saveClearY_iff (hs : s.board.state = .play) :
    s.board.saveClearY (s.boardIn oor playerNum i) = true ↔
      (s.branch oor playerNum i).effect = .lock ∧ ∃ y, FullRow s.board.boardArr y := by
  unfold Board.saveClearY
  rw [hs]
  simp only [beq_self_eq_true, Bool.true_and, Bool.and_eq_true]
  exact and_congr getNewBlock_iff (Board.canClearRow_iff _)

variable (oor playerNum s) in
theorem next_numRowsReg (hi : i.reset = false) :
    (s.next oor playerNum i).board.numRowsReg =
      if s.board.saveClearY (s.boardIn oor playerNum i) then (Board.scan s.board.boardArr).numRows
      else s.board.numRowsReg :=
  Board.next_numRowsReg hi

variable (oor playerNum s) in
theorem next_board_reset (hi : i.reset = true) :
    let n := (s.next oor playerNum i).board
    n.boardArr = (fun _ => .empty) ∧ n.state = s.board.state ∧ n.clearCounter = 0 ∧ n.numRowsReg = 0 ∧
      n.clearYReg = 0 ∧ n.totalNumRows = 0 ∧ n.levelSpeed = 60 := by
  have hi' : (s.boardIn oor playerNum i).reset = true := hi
  simp [next_board, Board.next, hi']

end Tetris

end FpgaTetris
