/-
The game refines abstract moves. The board is one cycle behind the piece registers, and moves are
judged on a board that still shows the piece; seen through the board with the piece lifted off, each
move is legal exactly when its cells are free, and two cycles later the board is that board with the
piece painted where it went.
-/
import FpgaTetris.Game.Invariant

namespace FpgaTetris

namespace Tetris

variable {oor : OutOfRange} {playerNum : BitVec 2} {s : Tetris} {i j : In}

/-! ## One move -/

theorem Inv.noEdge_next (h : Inv oor s) (he : s.logic.frameClkRisingEdge = true) :
    (s.next oor playerNum i).logic.frameClkRisingEdge = false :=
  BlockLogic.next_edge_low (h.logic.edge he)

theorem Inv.next_ne_lock (h : Inv oor s) (he : s.logic.frameClkRisingEdge = true) :
    ((s.next oor playerNum i).branch oor playerNum j).effect ≠ .lock := by
  rw [stay_of_noEdge _ _ _ (h.noEdge_next he)]
  exact Effect.noConfusion

/-- A cycle in `PLAY` without a lock, seen on the board with the piece lifted off. -/
theorem Inv.boardArr_next (h : Inv oor s) (he : s.logic.frameClkRisingEdge = true) (hi : i.reset = false)
    (hs : s.board.state = .play) (hl : (s.branch oor playerNum i).effect ≠ .lock) :
    (s.next oor playerNum i).board.boardArr = s.lifted.paint s.logic.pieceCells s.logic.block := by
  obtain ⟨hx, hy⟩ := h.logic.sync he
  rw [next_boardArr_play hi hs, if_neg hl, BlockLogic.savedCells_eq hx hy, lifted]

/-- Whatever happens to the piece at a frame edge short of a lock, the board shows it two cycles
later. -/
theorem Inv.boardArr_next_next (h : Inv oor s) (he : s.logic.frameClkRisingEdge = true) (hi : i.reset = false)
    (hj : j.reset = false) (hs : s.board.state = .play) (hl : (s.branch oor playerNum i).effect ≠ .lock) :
    ((s.next oor playerNum i).next oor playerNum j).board.boardArr =
      s.lifted.paint (s.next oor playerNum i).logic.pieceCells (s.next oor playerNum i).logic.block := by
  have hs' := play_next oor playerNum hi hs hl
  -- the second cycle lifts the old cells off again
  rw [next_boardArr_play hj hs', if_neg (h.next_ne_lock he), savedCells_next hi hl,
    h.boardArr_next he hi hs hl, BoardArr.paint_paint, lifted, BoardArr.paint_paint]

/-- A move shows on the board two cycles later. -/
theorem Inv.boardArr_of_move (h : Inv oor s) (hi : i.reset = false) (hj : j.reset = false)
    (hs : s.board.state = .play) {m : Move} (hm : (s.branch oor playerNum i).effect = .move m) :
    ((s.next oor playerNum i).next oor playerNum j).board.boardArr =
      s.lifted.paint (s.logic.targetCells m) s.logic.block := by
  have he := (active_of_move hm).2.2
  have hl : (s.branch oor playerNum i).effect ≠ .lock := by simp [hm]
  have hst := stepped oor playerNum s hi
  obtain ⟨hx, hy, -⟩ := hst.move m hm
  obtain ⟨hb, -⟩ := hst.keep hl (by simp [hm])
  obtain ⟨sx, sy⟩ := h.logic.sync he
  rw [BlockLogic.target_eq sx sy] at hx hy
  rw [h.boardArr_next_next he hi hj hs hl, hb, BlockLogic.pieceCells, hx, hy, BlockLogic.targetCells]

/-! ## Whole runs -/

theorem inv_trace (oor : OutOfRange) (playerNum : BitVec 2) (s : Tetris) (inp : ℕ → In)
    (h0 : (inp 0).reset = true) (hg : s.logic.blockGen.InRange) (t : ℕ) (ht : 0 < t) :
    Inv oor ((design oor playerNum).trace s inp t) :=
  inv_keeps.trace ⟨h0, hg⟩ (fun _ _ => trivial) t ht

/-- Moves refine abstract moves. In every `PLAY` cycle with a frame edge: a bit of `can_move` is set
exactly when the cells of that move are free; a move taken shows on the board two cycles later; a
piece locks only when a cell below it is not free, and the lock leaves the board as it is. -/
theorem moves_refine (oor : OutOfRange) (playerNum : BitVec 2) (s : Tetris) (inp : ℕ → In)
    (h0 : (inp 0).reset = true) (hg : s.logic.blockGen.InRange) (t : ℕ) (ht : 0 < t) :
    let tr := (design oor playerNum).trace s inp
    (tr t).logic.frameClkRisingEdge = true → (inp t).reset = false → (inp (t + 1)).reset = false →
    (tr t).board.state = .play →
    (∀ m, (Board.canMove oor (tr t).board.boardArr (tr t).logic).get m = true ↔
      ∀ p ∈ (tr t).logic.targetCells m, (tr t).lifted.Free p) ∧
    (∀ m, ((tr t).branch oor playerNum (inp t)).effect = .move m →
      (tr (t + 2)).board.boardArr =
        (tr t).lifted.paint ((tr t).logic.targetCells m) (tr t).logic.block) ∧
    (((tr t).comb oor playerNum (inp t)).getNewBlock = true →
      (∃ p ∈ (tr t).logic.targetCells .down, ¬ (tr t).lifted.Free p) ∧
      (tr (t + 1)).board.boardArr = (tr t).board.boardArr) := by
  intro tr he hi hj hs
  have h := inv_trace oor playerNum s inp h0 hg t ht
  refine ⟨h.canMove_iff he, fun m hm => h.boardArr_of_move hi hj hs hm, fun hl => ?_⟩
  have hl := getNewBlock_iff.1 hl
  refine ⟨?_, h.boardArr_of_lock hl⟩
  -- with the cells below free the piece would move down
  by_contra hno
  push Not at hno
  have hdown : (Board.canMove oor (tr t).board.boardArr (tr t).logic).get .down = false :=
    ((BlockLogic.branch_guard _ _ _).lock hl).1
  rw [(h.canMove_iff he .down).2 hno] at hdown
  cases hdown

/-- The piece in play always is a tetromino inside the board, turned as its orientation says. -/
theorem piece_is_tetromino (oor : OutOfRange) (playerNum : BitVec 2) (s : Tetris) (inp : ℕ → In)
    (h0 : (inp 0).reset = true) (hg : s.logic.blockGen.InRange) (t : ℕ) (ht : 0 < t) :
    let r := ((design oor playerNum).trace s inp t).logic
    r.block ≠ .empty ∧ (∀ p ∈ r.pieceCells, InBoard p) ∧ r.pieceCells.Nodup ∧
      IsTetromino oor r.block r.curOrientation r.xBlock r.yBlock := by
  have h := inv_trace oor playerNum s inp h0 hg t ht
  obtain ⟨htet, hnodup⟩ := h.formed.isTetromino h.logic.color h.piece
  exact ⟨h.logic.color, h.piece, hnodup, htet⟩

/-- From power-up: a reset, then a frame in which player 1 presses A. -/
def pressLeft (t : ℕ) : In := ⟨t == 0, t != 0, 1⟩

/-- The first piece moves left. -/
theorem moves_refine_pressLeft :
    let tr := (design someReads 1).trace powerUp pressLeft
    (tr 4).board.boardArr = (tr 2).lifted.paint [(2, 0), (3, 0), (4, 0), (5, 0)] .cyan :=
  (moves_refine someReads 1 powerUp pressLeft rfl (by decide) 2 (by decide) rfl rfl rfl rfl).2.1 .left rfl

theorem piece_is_tetromino_pressLeft :
    let r := ((design someReads 1).trace powerUp pressLeft 3).logic
    IsTetromino someReads r.block r.curOrientation r.xBlock r.yBlock :=
  (piece_is_tetromino someReads 1 powerUp pressLeft rfl (by decide) 3 (by decide)).2.2.2

end Tetris

end FpgaTetris
