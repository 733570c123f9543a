/-
The invariant of the game: the piece in play is a shape of its colour inside the board, the piece
does not move while the board is busy, and at a frame edge it is on the board, unless it has just
come into play.
-/
import FpgaTetris.Game.Step

namespace FpgaTetris

namespace BlockLogic

variable {oor : OutOfRange} {idx : BitVec 3} {n : BlockLogic}

theorem Loaded.formed (h : Loaded oor idx n) (hi : idx ≤ 6) :
    Formed oor n.block n.curOrientation n.xBlock n.yBlock := by
  have hf := formed_spawn oor (blockColorChoices oor idx)
  rw [spawn_choices oor hi] at hf
  rwa [h.block, h.orientation, h.x, h.y]

theorem Loaded.inBoard (h : Loaded oor idx n) (hi : idx ≤ 6) : ∀ p ∈ n.pieceCells, InBoard p := by
  unfold pieceCells
  rw [h.x, h.y]
  exact inBoard_spawn oor hi

end BlockLogic

namespace Tetris

variable {oor : OutOfRange} {playerNum : BitVec 2} {s : Tetris} {i : In}

/-! ## The invariant -/

structure Inv (oor : OutOfRange) (s : Tetris) : Prop where
  logic : s.logic.Inv oor
  formed : Formed oor s.logic.block s.logic.curOrientation s.logic.xBlock s.logic.yBlock
  piece : ∀ p ∈ s.logic.pieceCells, InBoard p
  saved : ∀ p ∈ s.logic.savedCells, InBoard p
  level : 5 ≤ s.board.levelSpeed
  /-- Outside `PLAY` the piece has just come into play. -/
  frozen : s.board.state ≠ .play → s.logic.downCounter = 0 ∧ s.logic.speedCounter = 0
  written : s.board.state = .play → s.logic.frameClkRisingEdge = true →
    (∀ c, pos c ∈ s.logic.pieceCells → s.board.boardArr c = s.logic.block) ∨
      s.logic.downCounter = 0 ∧ s.logic.speedCounter = 0

theorem levelSpeedIn_ge (b : Board) : 5 ≤ b.levelSpeedIn := by
  unfold Board.levelSpeedIn
  split_ifs <;> decide

theorem inv_reset (hg : s.logic.blockGen.InRange) (hi : i.reset = true) : Inv oor (s.next oor playerNum i) := by
  obtain ⟨hl, hx, hy, -⟩ := BlockLogic.next_reset oor playerNum s.logic (s.logicIn oor i) hi
  obtain ⟨-, -, -, -, -, -, hlev⟩ := next_board_reset oor playerNum s hi
  have hpiece := hl.inBoard hg.1
  exact ⟨BlockLogic.inv_reset hg hi, hl.formed hg.1, hpiece, BlockLogic.savedCells_eq hx hy ▸ hpiece,
    by rw [hlev]; decide, fun _ => ⟨hl.down, hl.speed⟩, fun _ _ => .inr ⟨hl.down, hl.speed⟩⟩

/-! ## Consequences -/

namespace Inv

variable (h : Inv oor s)

include h

theorem canMove_iff (he : s.logic.frameClkRisingEdge = true) (m : Move) :
    (Board.canMove oor s.board.boardArr s.logic).get m = true ↔
      ∀ p ∈ s.logic.targetCells m, s.lifted.Free p := by
  obtain ⟨hx, hy⟩ := h.logic.sync he
  rw [Board.get_canMove, Board.canMoveTo_iff, BlockLogic.target_eq hx hy]
  rfl

/-- A move is taken only to cells on the board that are empty but for the piece itself. -/
theorem move_free {m : Move} (hm : (s.branch oor playerNum i).effect = .move m) :
    ∀ p ∈ s.logic.targetCells m, s.lifted.Free p := by
  have hact := active_of_move hm
  exact (h.canMove_iff hact.2.2 m).1 ((BlockLogic.branch_guard _ _ _).move m hm)

theorem not_zero_of_lock (hl : (s.branch oor playerNum i).effect = .lock) :
    ¬ (s.logic.downCounter = 0 ∧ s.logic.speedCounter = 0) := by
  rintro ⟨hd, hs⟩
  have hlev := h.level
  rcases ((BlockLogic.branch_guard _ _ _).lock hl).2 with h1 | h1
  · rw [hd] at h1
    exact absurd (BitVec.le_trans hlev h1) (by decide)
  · rw [hs] at h1
    exact absurd h1 (by decide)

theorem play_of_lock (hl : (s.branch oor playerNum i).effect = .lock) : s.board.state = .play := by
  by_contra hs
  exact h.not_zero_of_lock hl (h.frozen hs)

theorem written_of_lock (hl : (s.branch oor playerNum i).effect = .lock) :
    ∀ c, pos c ∈ s.logic.pieceCells → s.board.boardArr c = s.logic.block := by
  have hact := active_of_lock hl
  exact (h.written (h.play_of_lock hl) hact.2.2).resolve_right (h.not_zero_of_lock hl)

/-- A lock leaves the board as it is. -/
theorem boardArr_of_lock (hl : (s.branch oor playerNum i).effect = .lock) :
    (s.next oor playerNum i).board.boardArr = s.board.boardArr := by
  have hact := active_of_lock hl
  rw [next_boardArr_play hact.1 (h.play_of_lock hl), if_pos hl]
  funext c
  rw [BoardArr.paint_apply]
  split
  · rename_i hc; exact (h.written_of_lock hl c hc).symm
  · rfl

theorem clearing_of_lock (hl : (s.branch oor playerNum i).effect = .lock) (hfull : ∃ y, FullRow s.board.boardArr y) :
    Board.Clearing oor s.board.boardArr (s.next oor playerNum i).board :=
  Board.Clearing.start (i := s.boardIn oor playerNum i) (active_of_lock hl).1 (h.play_of_lock hl)
    (getNewBlock_iff.2 hl) hfull (h.written_of_lock hl)

end Inv

/-! ## Preservation -/

/-- The piece after a cycle is a shape of its colour inside the board. -/
theorem Inv.next_piece (h : Inv oor s) (hi : i.reset = false) :
    let n := (s.next oor playerNum i).logic
    Formed oor n.block n.curOrientation n.xBlock n.yBlock ∧ ∀ p ∈ n.pieceCells, InBoard p := by
  have hst := stepped oor playerNum s hi
  have hidx := h.logic.loadIdx_le playerNum (s.logicIn oor i)
  intro n
  rcases he : (s.branch oor playerNum i).effect with _ | m | _ | _
  · obtain ⟨hx, hy, ho⟩ := hst.stay he
    obtain ⟨hb, -⟩ := hst.keep (by rw [he]; simp) (by rw [he]; simp)
    show Formed oor n.block _ _ _ ∧ ∀ p ∈ cells _ _, _
    rw [hx, hy, ho, hb]
    exact ⟨h.formed, h.piece⟩
  · obtain ⟨hx, hy, ho⟩ := hst.move m he
    obtain ⟨hb, -⟩ := hst.keep (by rw [he]; simp) (by rw [he]; simp)
    obtain ⟨sx, sy⟩ := h.logic.sync (active_of_move he).2.2
    have hfree := h.move_free he
    rw [BlockLogic.target_eq sx sy] at hx hy
    show Formed oor n.block _ _ _ ∧ ∀ p ∈ cells _ _, _
    rw [hx, hy, ho, hb]
    exact ⟨h.formed.apply h.logic.color m, fun p hp => (hfree p hp).inBoard⟩
  · obtain ⟨hl, -⟩ := hst.load (.inl he)
    exact ⟨hl.formed hidx, hl.inBoard hidx⟩
  · obtain ⟨hl, -⟩ := hst.load (.inr he)
    exact ⟨hl.formed hidx, hl.inBoard hidx⟩

theorem Inv.next_saved (h : Inv oor s) (hi : i.reset = false) :
    ∀ p ∈ (s.next oor playerNum i).logic.savedCells, InBoard p := by
  have hst := stepped oor playerNum s hi
  by_cases hl : (s.branch oor playerNum i).effect = .lock
  · obtain ⟨hx, hy⟩ := hst.saveLock hl
    rw [BlockLogic.savedCells_eq hx hy]
    exact (h.next_piece hi).2
  · obtain ⟨hx, hy⟩ := hst.save hl
    show ∀ p ∈ cells _ _, _
    rw [hx, hy]
    exact h.piece

/-- The counters do not move while the board is busy, and a lock clears them. -/
theorem Inv.next_frozen (h : Inv oor s) (hi : i.reset = false)
    (hs : (s.next oor playerNum i).board.state ≠ .play) :
    (s.next oor playerNum i).logic.downCounter = 0 ∧ (s.next oor playerNum i).logic.speedCounter = 0 := by
  have hst := stepped oor playerNum s hi
  by_cases hp : s.board.state = .play
  · -- only a lock leaves `PLAY`, and it clears the counters
    have hl : (s.branch oor playerNum i).effect = .lock := by
      by_contra hl
      exact hs (play_next oor playerNum hi hp hl)
    obtain ⟨hld, -⟩ := hst.load (.inl hl)
    exact ⟨hld.down, hld.speed⟩
  · have hbusy : s.board.boardBusy = true := by
      by_contra hfree
      rcases Board.play_or_other (by simpa using hfree) with hplay | hother
      · exact hp hplay
      · rw [next_state hi, Board.nextState, hother] at hs
        exact hs rfl
    have hst := hst.counters
    rw [stay_of_busy hbusy] at hst
    exact ⟨hst.1.trans (h.frozen hp).1, hst.2.trans (h.frozen hp).2⟩

/-- The cycle before a frame edge writes the piece, if it was in `PLAY`. -/
theorem Inv.next_written (h : Inv oor s) (hi : i.reset = false)
    (he : (s.next oor playerNum i).logic.frameClkRisingEdge = true) :
    (∀ c, pos c ∈ (s.next oor playerNum i).logic.pieceCells →
        (s.next oor playerNum i).board.boardArr c = (s.next oor playerNum i).logic.block) ∨
      (s.next oor playerNum i).logic.downCounter = 0 ∧ (s.next oor playerNum i).logic.speedCounter = 0 := by
  -- frame edges are not adjacent, so nothing happens to the piece in this cycle
  have hno : s.logic.frameClkRisingEdge = false := h.logic.synced.edge_low he
  have hst := stepped oor playerNum s hi
  have hb := stay_of_noEdge oor playerNum i hno
  have hne : (s.branch oor playerNum i).effect ≠ .lock := by simp [hb]
  have hne' : (s.branch oor playerNum i).effect ≠ .hold := by simp [hb]
  by_cases hp : s.board.state = .play
  · left
    obtain ⟨hx, hy, -⟩ := hst.stay (by rw [hb]; rfl)
    obtain ⟨hblock, -⟩ := hst.keep hne hne'
    intro c hc
    have hc' : pos c ∈ s.logic.pieceCells := by
      unfold BlockLogic.pieceCells
      rw [← hx, ← hy]; exact hc
    rw [next_boardArr_play hi hp, BoardArr.paint_apply, if_pos hc', hblock]
  · right
    have hcnt := hst.counters
    rw [hb] at hcnt
    exact ⟨hcnt.1.trans (h.frozen hp).1, hcnt.2.trans (h.frozen hp).2⟩

theorem Inv.next (h : Inv oor s) (i : In) : Inv oor (s.next oor playerNum i) := by
  cases hi : i.reset with
  | true => exact inv_reset h.logic.gen hi
  | false =>
    obtain ⟨hformed, hpiece⟩ := h.next_piece hi
    refine ⟨h.logic.next _, hformed, hpiece, h.next_saved hi, ?_, h.next_frozen hi, fun _ => h.next_written hi⟩
    rw [next_levelSpeed hi]
    exact levelSpeedIn_ge _

/-- A reset cycle with generator indices in range sets the invariant up, every cycle keeps it. -/
theorem inv_keeps : (design oor playerNum).Keeps (fun s i => i.reset = true ∧ s.logic.blockGen.InRange)
    (fun _ => True) (Inv oor) :=
  ⟨fun _ _ h => inv_reset h.2 h.1, fun _ i _ h => h.next i⟩

end Tetris

end FpgaTetris
