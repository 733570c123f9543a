/-
The hardware plays the game of the rules, as long as each clear is one that the machine gets right
and each new piece finds its cells free: every cycle is one action of the game, or none, and the
registers show the game throughout.
-/
import FpgaTetris.Board.Flush
import FpgaTetris.Game.Arrival
import FpgaTetris.Game.Tally

namespace FpgaTetris

open Sync

namespace Tetris

variable {oor : OutOfRange} {playerNum : BitVec 2} {s : Tetris} {i : In} {g : GameState} {G : Game}

/-! ## Registers that show a game -/

/-- The registers of the piece and of the hold box. -/
structure Registers (s : Tetris) (g : GameState) : Prop where
  x : s.logic.xBlock = g.position.x
  y : s.logic.yBlock = g.position.y
  color : s.logic.block = g.position.color
  orientation : s.logic.curOrientation = g.position.orientation
  held : s.logic.heldBlock = g.held
  swapped : s.logic.isBlockSwitched = g.swapped

/-- The stack `b` on the board: in `PLAY` it is what is left once the saved cells are lifted off, during
a clear it is what the clear will leave, and after a reset in the middle of one there is none. -/
inductive Stacks (oor : OutOfRange) (b : BoardArr) (s : Tetris) : Prop
  | play (hs : s.board.state = .play) (h : s.board.boardArr.paint s.logic.savedCells .empty = b)
  | busy (b₀ : BoardArr) (hc : Board.Clearing oor b₀ s.board) (hn : (fullRows b₀).length ≤ 4)
      (hb : Board.cleared oor b₀ = b) (hsaved : s.logic.savedCells = s.logic.pieceCells)
  | flushed (n : ℕ) (hf : Board.Flushed n s.board) (hb : b = fun _ => .empty)
      (hsaved : s.logic.savedCells = s.logic.pieceCells)

structure Depicts (oor : OutOfRange) (s : Tetris) (g : GameState) : Prop where
  inv : Inv oor s
  registers : Registers s g
  stack : Stacks oor g.position.settled s
  tally : Tallies s g.lines g.score

/-- The action of a cycle, if it has one. -/
def action (oor : OutOfRange) (playerNum : BitVec 2) (s : Tetris) (i : In) : Option Action :=
  if i.reset then some .start
  else
    match (s.branch oor playerNum i).effect with
    | .stay => none
    | .move m => some (.move m)
    | .lock => some (.lock (fullRows s.board.boardArr).length)
    | .hold => some .hold

/-- A cycle in which the hardware keeps to the rules: a lock with full rows is on a board that the machine
clears as it should, and a new piece finds its cells free. -/
structure Fair (oor : OutOfRange) (playerNum : BitVec 2) (s : Tetris) (i : In) : Prop where
  clears : (s.branch oor playerNum i).effect = .lock → (∃ y, FullRow s.board.boardArr y) →
    Board.ClearsLines oor s.board.boardArr
  lock : (s.branch oor playerNum i).effect = .lock →
    ∀ p ∈ spawnCells oor s.logic.blockIdx, (afterLock oor s.board.boardArr).Free p
  hold : (s.branch oor playerNum i).effect = .hold → ∀ p ∈ spawnCells oor s.logic.holdIdx, s.lifted.Free p

theorem Fair.of_quiet (hl : (s.branch oor playerNum i).effect ≠ .lock)
    (hh : (s.branch oor playerNum i).effect ≠ .hold) : Fair oor playerNum s i :=
  ⟨fun h => absurd h hl, fun h => absurd h hl, fun h => absurd h hh⟩

theorem Fair.of_smooth (h : Smooth oor playerNum s i) : Fair oor playerNum s i := by
  refine ⟨fun hl hfull => absurd hfull (h.lock hl).1, fun hl => ?_, fun hh => absurd hh h.hold⟩
  unfold afterLock
  rw [if_neg (h.lock hl).1]
  exact (h.lock hl).2

/-- The first clear is fair, if the machine gets it right and leaves every piece its cells. -/
theorem ClearRun.fair {P : Position} {inp : ℕ → In} {a b : ℕ} (h : ClearRun oor playerNum P inp a b)
    (hclears : Board.ClearsLines oor P.locked)
    (hfree : ∀ idx : BitVec 3, idx ≤ 6 → ∀ p ∈ spawnCells oor idx, (afterLock oor P.locked).Free p) {u : ℕ}
    (hu : 0 < u) (hub : u ≤ b + 1) : Fair oor playerNum ((design oor playerNum).trace powerUp inp u) (inp u) := by
  rcases lt_trichotomy u a with hlt | rfl | hgt
  · exact .of_smooth (h.smooth.smooth u hu hlt)
  · refine ⟨fun _ _ => by rwa [h.edge.board], fun _ => ?_, fun hh => ?_⟩
    · rw [h.edge.board]
      exact hfree _ h.edge.inv.logic.gen.1
    · rw [h.lock] at hh
      cases hh
  · have hstay := h.stay hgt hub
    exact .of_quiet (by simp [hstay]) (by simp [hstay])

/-! ## Games and registers -/

theorem Registers.cells (h : Registers s g) : g.position.cells = s.logic.pieceCells := by
  unfold Position.cells BlockLogic.pieceCells
  rw [h.x, h.y]

/-- Registers within the invariant, with a legal position and no full row, show a game. -/
theorem Inv.exists_game (h : Inv oor s) (hr : Registers s g) (hlegal : g.position.Legal)
    (hfull : ∀ y, ¬ FullRow g.position.settled y) : ∃ G : Game, G.toGameState = g := by
  have hcells := hr.cells
  refine ⟨⟨g, hr.color ▸ h.logic.color, ?_, hlegal, hfull⟩, rfl⟩
  rw [hcells]
  exact (h.formed.isTetromino h.logic.color h.piece).2

/-- The registers of a piece that has just come into play. -/
theorem Registers.of_loaded {idx : BitVec 3} {c : BlockColor} (h : BlockLogic.Loaded oor idx s.logic) (hi : idx ≤ 6)
    (hc : blockColorChoices oor idx = c) (hp : g.position = .appear oor g.position.settled c)
    (hheld : s.logic.heldBlock = g.held) (hswap : s.logic.isBlockSwitched = g.swapped) : Registers s g := by
  have hspawn := spawn_choices oor hi
  rw [hc] at hspawn
  refine ⟨?_, ?_, ?_, ?_, hheld, hswap⟩
  · rw [h.x, hp, Position.appear, hspawn]
  · rw [h.y, hp, Position.appear, hspawn]
  · rw [h.block, hp, hc]; rfl
  · rw [h.orientation, hp]; rfl

theorem cells_appear {idx : BitVec 3} {c : BlockColor} {b : BoardArr} (hi : idx ≤ 6)
    (hc : blockColorChoices oor idx = c) : (Position.appear oor b c).cells = spawnCells oor idx := by
  have hspawn := spawn_choices oor hi
  rw [hc] at hspawn
  unfold Position.cells Position.appear spawnCells
  rw [hspawn]

namespace Depicts

variable (h : Depicts oor s G.toGameState)

include h

theorem ne_other : s.board.state ≠ .other := by
  intro ho
  have hbusy : s.board.boardBusy = false := by simp [Board.boardBusy, ho]
  rcases h.stack with ⟨hs, -⟩ | ⟨b₀, hc, -⟩ | ⟨n, hf, -⟩
  · rw [hs] at ho; cases ho
  · rw [hc.boardBusy] at hbusy; cases hbusy
  · rw [hf.boardBusy] at hbusy; cases hbusy

theorem stack_play (hs : s.board.state = .play) :
    s.board.boardArr.paint s.logic.savedCells .empty = G.position.settled := by
  rcases h.stack with ⟨-, hb⟩ | ⟨b₀, hc, -⟩ | ⟨n, hf, -⟩
  · exact hb
  · exact absurd hs hc.ne_play
  · exact absurd hs hf.ne_play

theorem free : ∀ p ∈ s.logic.pieceCells, G.position.settled.Free p := by
  rw [← h.registers.cells]
  exact G.legal

theorem lifted (hs : s.board.state = .play) (he : s.logic.frameClkRisingEdge = true) :
    s.lifted = G.position.settled := by
  obtain ⟨hx, hy⟩ := h.inv.logic.sync he
  rw [← h.stack_play hs, BlockLogic.savedCells_eq hx hy, Tetris.lifted]

theorem targetCells (m : Move) : s.logic.targetCells m = (G.position.move m).cells := by
  unfold BlockLogic.targetCells
  rw [h.registers.x, h.registers.y, h.registers.color, h.registers.orientation]
  rfl

end Depicts

/-! ## The stack in one cycle -/

/-- Without a lock the board keeps the stack, wherever the piece goes. -/
theorem Depicts.stack_of_play (h : Depicts oor s G.toGameState) (hi : i.reset = false) (hs : s.board.state = .play)
    (hl : (s.branch oor playerNum i).effect ≠ .lock) :
    Stacks oor G.position.settled (s.next oor playerNum i) := by
  refine .play (play_next oor playerNum hi hs hl) ?_
  rw [next_boardArr_play hi hs, if_neg hl, savedCells_next hi hl, BoardArr.paint_paint, h.stack_play hs,
    BoardArr.paint_free h.free]

/-- While the board is busy the piece waits for it. -/
theorem saved_of_busy (oor : OutOfRange) (playerNum : BitVec 2) (hi : i.reset = false) (hb : s.board.boardBusy = true) :
    (s.next oor playerNum i).logic.savedCells = s.logic.pieceCells ∧
      (s.next oor playerNum i).logic.pieceCells = s.logic.pieceCells := by
  have hst := stepped oor playerNum s hi
  rw [stay_of_busy hb] at hst
  obtain ⟨hx, hy, -⟩ := hst.stay rfl
  obtain ⟨hsx, hsy⟩ := hst.save Effect.noConfusion
  unfold BlockLogic.savedCells BlockLogic.pieceCells
  rw [hx, hy, hsx, hsy]
  exact ⟨rfl, rfl⟩

/-- While the board is busy the clear goes on, or ends with the stack on the board. -/
theorem Depicts.stack_of_busy (h : Depicts oor s G.toGameState) (hi : i.reset = false) (hs : s.board.state ≠ .play) :
    Stacks oor G.position.settled (s.next oor playerNum i) := by
  rcases h.stack with ⟨hp, -⟩ | ⟨b₀, hc, hn, hb, -⟩ | ⟨n, hf, hb, -⟩
  · exact absurd hp hs
  · obtain ⟨hsaved, hpiece⟩ := saved_of_busy oor playerNum hi hc.boardBusy
    rcases hc.step (i := s.boardIn oor playerNum i) hi with hc' | ⟨hp, harr⟩
    · exact .busy b₀ hc' hn hb (hsaved.trans hpiece.symm)
    · refine .play hp ?_
      rw [next_board, harr, hb, hsaved, BoardArr.paint_free h.free]
  · obtain ⟨hsaved, hpiece⟩ := saved_of_busy oor playerNum hi hf.boardBusy
    rcases hf.step (i := s.boardIn oor playerNum i) hi with hf' | ⟨hp, harr⟩
    · exact .flushed _ hf' hb (hsaved.trans hpiece.symm)
    · refine .play hp ?_
      rw [next_board, harr, hsaved, ← hb, BoardArr.paint_free h.free]

/-- A lock leaves the board of the locked piece, or starts to clear it. -/
theorem Depicts.stack_of_lock (h : Depicts oor s G.toGameState) (hl : (s.branch oor playerNum i).effect = .lock)
    (hfree : ∀ p ∈ spawnCells oor s.logic.blockIdx, (afterLock oor s.board.boardArr).Free p)
    (hlocked : s.board.boardArr = G.position.locked) :
    Stacks oor (afterLock oor s.board.boardArr) (s.next oor playerNum i) := by
  have hw := h.inv.waiting_of_lock hl
  rcases hw.board with hc | ⟨hp, harr⟩
  · refine .busy s.board.boardArr hc ?_ ?_ hw.saved
    · rw [hlocked]
      exact G.length_fullRows_locked
    · unfold afterLock
      rw [if_pos hc.full]
  · refine .play hp ?_
    rw [harr, hw.saved, hw.piece.pieceCells]
    exact BoardArr.paint_free hfree

/-! ## The tally in one cycle -/

theorem Depicts.tally_next (playerNum : BitVec 2) (h : Depicts oor s G.toGameState) (hi : i.reset = false) :
    let n := if (s.branch oor playerNum i).effect = .lock then (fullRows s.board.boardArr).length else 0
    Tallies (s.next oor playerNum i) (G.lines + n) (G.score + linePoints n) := by
  obtain ⟨hsum, hpoints⟩ := clearedRows_toList oor playerNum s i
  have htally := h.tally.next playerNum h.inv hi h.ne_other fun hu => ?_
  · rwa [hsum, hpoints] at htally
  · -- in `SCORE` the count is that of the board being cleared
    rcases h.stack with ⟨hs, -⟩ | ⟨b₀, hc, hn, -⟩ | ⟨n, hf, -⟩
    · rw [Board.updateScore, hs] at hu
      cases hu
    · rw [hc.numRows, Board.numRows_toNat]
      exact hn
    · rw [hf.numRows]
      exact Nat.zero_le 4

/-! ## One cycle -/

theorem free_empty {p : Pos} (hp : InBoard p) : BoardArr.Free (fun _ => .empty) p :=
  (inBoard_iff.1 hp).imp fun _ hc => ⟨hc, rfl⟩

/-- A cycle ends in a game when its registers, its stack and its tally are those of a legal state. -/
theorem exists_depicted {n : Tetris} (hinv : Inv oor n) (hr : Registers n g) (hlegal : g.position.Legal)
    (hfull : ∀ y, ¬ FullRow g.position.settled y) (hstack : Stacks oor g.position.settled n)
    (htally : Tallies n g.lines g.score) : ∃ G : Game, G.toGameState = g ∧ Depicts oor n G.toGameState := by
  obtain ⟨G, rfl⟩ := hinv.exists_game hr hlegal hfull
  exact ⟨G, rfl, hinv, hr, hstack, htally⟩

/-- A reset in the middle of a clear leaves a clear of nothing. -/
theorem flushed_of_reset (oor : OutOfRange) (playerNum : BitVec 2) (hi : i.reset = true) (hp : s.board.state ≠ .play)
    (ho : s.board.state ≠ .other) : Board.Flushed 0 (s.next oor playerNum i).board := by
  obtain ⟨harr, hstate, hcount, hnum, hclear, -⟩ := next_board_reset oor playerNum s hi
  refine ⟨harr, hnum, hclear, ?_⟩
  cases hs : s.board.state with
  | play => exact absurd hs hp
  | clear => exact .inl ⟨hstate.trans hs, congrArg BitVec.toNat hcount, Nat.zero_le 3⟩
  | drop => exact .inr (.inl ⟨hstate.trans hs, rfl⟩)
  | score => exact .inr (.inr ⟨hstate.trans hs, Nat.zero_le 4⟩)
  | other => exact absurd hs ho

/-- A reset leaves no stack. -/
theorem stacks_of_reset (oor : OutOfRange) (playerNum : BitVec 2) (hinv : Inv oor (s.next oor playerNum i))
    (hi : i.reset = true) (hs : s.board.state ≠ .other) : Stacks oor (fun _ => .empty) (s.next oor playerNum i) := by
  obtain ⟨-, hx, hy, -⟩ := BlockLogic.next_reset oor playerNum s.logic (s.logicIn oor i) hi
  obtain ⟨harr, hstate, -⟩ := next_board_reset oor playerNum s hi
  have hsaved : (s.next oor playerNum i).logic.savedCells = (s.next oor playerNum i).logic.pieceCells :=
    BlockLogic.savedCells_eq hx hy
  by_cases hp : s.board.state = .play
  · refine .play (hstate.trans hp) ?_
    rw [harr, hsaved]
    exact BoardArr.paint_free fun p hin => free_empty (hinv.piece p hin)
  · exact .flushed 0 (flushed_of_reset oor playerNum hi hp hs) rfl hsaved

/-- A reset starts a game, whatever it interrupts. -/
theorem start_of_reset (oor : OutOfRange) (playerNum : BitVec 2) (hg : s.logic.blockGen.InRange) (hi : i.reset = true)
    (hs : s.board.state ≠ .other) :
    ∃ G' : Game, (∀ G, Game.Step oor .start G G') ∧ Depicts oor (s.next oor playerNum i) G'.toGameState := by
  obtain ⟨hl, -, -, -, hheld, hswap⟩ := BlockLogic.next_reset oor playerNum s.logic (s.logicIn oor i) hi
  have hinv : Inv oor (s.next oor playerNum i) := inv_reset hg hi
  let c := blockColorChoices oor s.logic.blockIdx
  let g : GameState := ⟨.appear oor (fun _ => .empty) c, .empty, false, 0, 0⟩
  have hr : Registers (s.next oor playerNum i) g := .of_loaded hl hg.1 rfl rfl hheld hswap
  have hlegal : g.position.Legal := by
    unfold Position.Legal
    rw [hr.cells]
    exact fun p hp => free_empty (hinv.piece p hp)
  obtain ⟨G', hG', hdep⟩ := exists_depicted hinv hr hlegal (fun y => not_fullRow_empty y)
    (stacks_of_reset oor playerNum hinv hi hs) (.of_reset hi)
  exact ⟨G', fun _ => .start c hG', hdep⟩

namespace Depicts

variable (h : Depicts oor s G.toGameState) (hi : i.reset = false)

include h

theorem play (hb : s.board.boardBusy = false) : s.board.state = .play :=
  (Board.play_or_other hb).resolve_right h.ne_other

/-- A frame edge in `PLAY` finds the piece on the board. -/
theorem boardArr_of_lock (hl : (s.branch oor playerNum i).effect = .lock) :
    s.board.boardArr = G.position.locked := by
  have hact := active_of_lock hl
  rw [Position.locked, ← h.lifted (h.play hact.2.1) hact.2.2, h.registers.cells, Tetris.lifted, BoardArr.paint_paint]
  funext c
  rw [BoardArr.paint_apply]
  split
  · rename_i hc
    rw [h.inv.written_of_lock hl c hc, h.registers.color]
  · rfl

include hi

/-- A cycle without an action shows the same game. -/
theorem next_stay (he : (s.branch oor playerNum i).effect = .stay) :
    Depicts oor (s.next oor playerNum i) G.toGameState := by
  have hst := stepped oor playerNum s hi
  have hl : (s.branch oor playerNum i).effect ≠ .lock := by simp [he]
  have hh : (s.branch oor playerNum i).effect ≠ .hold := by simp [he]
  obtain ⟨hx, hy, ho⟩ := hst.stay he
  obtain ⟨hb, -⟩ := hst.keep hl hh
  have hr := h.registers
  refine ⟨h.inv.next i, ⟨hx.trans hr.x, hy.trans hr.y, hb.trans hr.color, ho.trans hr.orientation,
    (hst.heldKeep hh).1.trans hr.held, ?_⟩, ?_, ?_⟩
  · rw [hst.switched hh, if_neg hl]
    exact hr.swapped
  · by_cases hs : s.board.state = .play
    · exact h.stack_of_play hi hs hl
    · exact h.stack_of_busy hi hs
  · have htally := h.tally_next playerNum hi
    rwa [if_neg hl] at htally

theorem next_move {m : Move} (he : (s.branch oor playerNum i).effect = .move m) :
    ∃ G', Game.Step oor (.move m) G G' ∧ Depicts oor (s.next oor playerNum i) G'.toGameState := by
  have hst := stepped oor playerNum s hi
  have hact := active_of_move he
  have hs := h.play hact.2.1
  have hl : (s.branch oor playerNum i).effect ≠ .lock := by simp [he]
  have hh : (s.branch oor playerNum i).effect ≠ .hold := by simp [he]
  obtain ⟨hx, hy, ho⟩ := hst.move m he
  obtain ⟨hb, -⟩ := hst.keep hl hh
  obtain ⟨sx, sy⟩ := h.inv.logic.sync hact.2.2
  have hr := h.registers
  rw [BlockLogic.target_eq sx sy, hr.x, hr.y, hr.color, hr.orientation] at hx hy
  -- only the position changes
  have hr' : Registers (s.next oor playerNum i) { G.toGameState with position := G.position.move m } := by
    refine ⟨hx, hy, hb.trans hr.color, ho.trans (congrArg m.turn hr.orientation), (hst.heldKeep hh).1.trans hr.held, ?_⟩
    rw [hst.switched hh, if_neg hl]
    exact hr.swapped
  have htally := h.tally_next playerNum hi
  rw [if_neg hl] at htally
  have hex := exists_depicted (h.inv.next i) hr' ?_ G.noFull (h.stack_of_play hi hs hl) htally
  · obtain ⟨G', hG', hdep⟩ := hex
    exact ⟨G', .move m hG', hdep⟩
  · intro p hp
    have hfree := h.inv.move_free he
    rw [h.targetCells, h.lifted hs hact.2.2] at hfree
    exact hfree p hp

theorem next_lock (he : (s.branch oor playerNum i).effect = .lock) (hfair : Fair oor playerNum s i) :
    ∃ G', Game.Step oor (.lock (fullRows s.board.boardArr).length) G G' ∧
      Depicts oor (s.next oor playerNum i) G'.toGameState := by
  have hst := stepped oor playerNum s hi
  have hact := active_of_lock he
  have hs := h.play hact.2.1
  have hh : (s.branch oor playerNum i).effect ≠ .hold := by simp [he]
  have hlocked := h.boardArr_of_lock he
  have hw := h.inv.waiting_of_lock he
  let b := afterLock oor s.board.boardArr
  let c := blockColorChoices oor s.logic.blockIdx
  have hcleared : LinesCleared G.position.locked b := by
    rw [← hlocked]
    by_cases hfull : ∃ y, FullRow s.board.boardArr y
    · rw [show b = _ from if_pos hfull]
      exact (Board.linesCleared_cleared_iff hfull).2 (hfair.clears he hfull)
    · rw [show b = _ from if_neg hfull]
      exact linesCleared_self (not_exists.1 hfull)
  -- gravity was blocked, so the piece cannot be moved down on the stack either
  have hlanded : ¬ (G.position.move .down).Legal := by
    intro hlegal
    have hdown : (Board.canMove oor s.board.boardArr s.logic).get .down = false :=
      ((BlockLogic.branch_guard _ _ _).lock he).1
    have hfree : ∀ p ∈ s.logic.targetCells .down, s.lifted.Free p := by
      rw [h.targetCells, h.lifted hs hact.2.2]
      exact hlegal
    rw [(h.inv.canMove_iff hact.2.2 .down).2 hfree] at hdown
    cases hdown
  -- the stack of the next game is what the clear under way will leave
  let g : GameState :=
    ⟨.appear oor b c, G.held, false, G.lines + (fullRows s.board.boardArr).length,
      G.score + linePoints (fullRows s.board.boardArr).length⟩
  have hr' : Registers (s.next oor playerNum i) g := by
    refine .of_loaded hw.piece h.inv.logic.gen.1 rfl rfl ((hst.heldKeep hh).1.trans h.registers.held) ?_
    rw [hst.switched hh, if_pos he]
  have htally := h.tally_next playerNum hi
  rw [if_pos he] at htally
  have hex := exists_depicted (g := g) (h.inv.next i) hr' ?_ hcleared.not_fullRow
    (h.stack_of_lock he (hfair.lock he) hlocked) htally
  · obtain ⟨G', hG', hdep⟩ := hex
    exact ⟨G', .lock b c _ hlanded (by rw [hlocked]) hcleared hG', hdep⟩
  · have hcells : g.position.cells = spawnCells oor s.logic.blockIdx := cells_appear h.inv.logic.gen.1 rfl
    unfold Position.Legal
    rw [hcells]
    exact hfair.lock he

theorem next_hold (he : (s.branch oor playerNum i).effect = .hold) (hfair : Fair oor playerNum s i) :
    ∃ G', Game.Step oor .hold G G' ∧ Depicts oor (s.next oor playerNum i) G'.toGameState := by
  have hst := stepped oor playerNum s hi
  have hact := active_of_hold he
  have hs := h.play hact.2.1
  have hl : (s.branch oor playerNum i).effect ≠ .lock := by simp [he]
  obtain ⟨hload, -⟩ := hst.load (.inr he)
  have hidx := h.inv.logic.loadIdx_le playerNum (s.logicIn oor i)
  rw [BlockLogic.loadIdx_of_hold he] at hidx
  rw [show s.logic.loadIdx (s.branch oor playerNum i) = _ from BlockLogic.loadIdx_of_hold he] at hload
  obtain ⟨hheld, -, hswap⟩ := hst.held he
  let c := blockColorChoices oor s.logic.holdIdx
  let g : GameState :=
    { G.toGameState with position := .appear oor G.position.settled c, held := G.position.color, swapped := true }
  have hr' : Registers (s.next oor playerNum i) g :=
    .of_loaded hload hidx rfl rfl (hheld.trans h.registers.color) hswap
  -- a piece in the box comes back under the index kept for it
  have hbox : G.held ≠ .empty → c = G.held := by
    intro hne
    rw [← h.registers.held] at hne ⊢
    show blockColorChoices oor s.logic.holdIdx = s.logic.heldBlock
    rw [BlockLogic.holdIdx, if_neg hne]
    exact (h.inv.logic.held hne).2.symm
  have htally := h.tally_next playerNum hi
  rw [if_neg hl] at htally
  have hex := exists_depicted (g := g) (h.inv.next i) hr' ?_ G.noFull (h.stack_of_play hi hs hl) htally
  · obtain ⟨G', hG', hdep⟩ := hex
    refine ⟨G', .hold c ?_ hbox hG', hdep⟩
    rw [← h.registers.swapped]
    exact BlockLogic.not_switched_of_hold he
  · have hcells : g.position.cells = spawnCells oor s.logic.holdIdx := cells_appear hidx rfl
    have hfree := hfair.hold he
    rw [h.lifted hs hact.2.2] at hfree
    unfold Position.Legal
    rw [hcells]
    exact hfree

/-- After a cycle in `PLAY` the board holds the piece on its stack. -/
theorem next_boardArr (hs : s.board.state = .play) :
    (s.next oor playerNum i).board.boardArr = G.position.locked := by
  rw [next_boardArr_play hi hs, ← h.registers.cells, h.registers.color]
  by_cases hl : (s.branch oor playerNum i).effect = .lock
  · rw [if_pos hl, h.boardArr_of_lock hl]
    exact BoardArr.paint_paint ..
  · rw [if_neg hl, h.stack_play hs]
    rfl

omit hi in
theorem score_play (hs : s.board.state = .play) (hfit : G.score ≤ 999990) :
    s.board.scoreKeeper.Decimal ∧ s.board.scoreKeeper.value = G.score := by
  obtain ⟨hdec, hval⟩ := h.tally.score hfit
  have howed : s.owed = [] := by simp [owed, Board.boardBusy, hs]
  rw [howed] at hval
  exact ⟨hdec, hval⟩

end Depicts

/-! ## Whole runs -/

theorem simulates (oor : OutOfRange) (playerNum : BitVec 2) :
    Lts.Simulation (design oor playerNum) (Fair oor playerNum) (action oor playerNum) (Game.Step oor)
      (fun s G => Depicts oor s G.toGameState) := by
  refine ⟨fun s i G hfair h => ?_⟩
  unfold action
  cases hi : i.reset with
  | true =>
    obtain ⟨G', hstep, hdep⟩ := start_of_reset oor playerNum h.inv.logic.gen hi h.ne_other
    exact ⟨G', hstep G, hdep⟩
  | false =>
    rw [if_neg Bool.false_ne_true]
    rcases he : (s.branch oor playerNum i).effect with _ | m | _ | _
    · exact ⟨G, rfl, h.next_stay hi he⟩
    · exact h.next_move hi he
    · exact h.next_lock hi he hfair
    · exact h.next_hold hi he hfair

theorem exists_games (oor : OutOfRange) (playerNum : BitVec 2) (s : Tetris) (inp : ℕ → In)
    (h0 : (inp 0).reset = true) (hs : s.board.state ≠ .other) (hg : s.logic.blockGen.InRange) :
    let tr := (design oor playerNum).trace s inp
    ∃ G : ℕ → Game, ∀ t, (∀ u, 0 < u → u ≤ t → Fair oor playerNum (tr u) (inp u)) →
      Lts.Next (Game.Step oor) ((tr t).action oor playerNum (inp t)) (G t) (G (t + 1)) ∧
        Depicts oor (tr (t + 1)) (G (t + 1)).toGameState := by
  intro tr
  obtain ⟨G₁, hstep, hdep⟩ := start_of_reset oor playerNum hg h0 hs
  have hrel : Depicts oor ((design oor playerNum).trace s inp 1) G₁.toGameState := hdep
  obtain ⟨G, hG, hrun⟩ := (simulates oor playerNum).run hrel
  refine ⟨G, fun t hfair => ?_⟩
  cases t with
  | zero =>
    have haction : (tr 0).action oor playerNum (inp 0) = some .start := if_pos h0
    rw [haction, hG 0 (Nat.zero_le 1), hG 1 le_rfl]
    exact ⟨hstep G₁, hdep⟩
  | succ t => exact hrun (t + 1) (Nat.succ_pos t) fun u hu hut => hfair u hu hut

/-- The hardware refines the game. From a reset on, whatever it interrupts, as long as the cycles are fair, the
actions of the cycles so far are a play of the game, and the registers show the game that it leads to. -/
theorem plays_by_the_rules (oor : OutOfRange) (playerNum : BitVec 2) (s : Tetris) (inp : ℕ → In)
    (h0 : (inp 0).reset = true) (hs : s.board.state ≠ .other) (hg : s.logic.blockGen.InRange) :
    let tr := (design oor playerNum).trace s inp
    ∃ G : ℕ → Game, ∀ t, 0 < t → (∀ u, 0 < u → u < t → Fair oor playerNum (tr u) (inp u)) →
      Lts.Path (Game.Step oor) ((design oor playerNum).events s inp (action oor playerNum) t) (G 0) (G t) ∧
        Depicts oor (tr t) (G t).toGameState := by
  intro tr
  obtain ⟨G, hG⟩ := exists_games oor playerNum s inp h0 hs hg
  refine ⟨G, fun t ht hfair => ⟨Lts.path_events fun u hut => ?_, ?_⟩⟩
  · exact (hG u fun v hv hvu => hfair v hv (lt_of_le_of_lt hvu hut)).1
  · obtain ⟨u, rfl⟩ := Nat.exists_eq_succ_of_ne_zero (Nat.ne_of_gt ht)
    exact (hG u fun v hv hvu => hfair v hv (Nat.lt_succ_of_le hvu)).2

variable (oor playerNum) in
/-- The rows of the actions are the rows cleared. -/
theorem rows_actions (s : Tetris) (inp : ℕ → In) (t : ℕ) :
    (((design oor playerNum).events s inp (action oor playerNum) t).map Action.rows).sum =
      ((design oor playerNum).events s inp (clearedRows oor playerNum) t).sum := by
  induction t with
  | zero => rfl
  | succ t ih =>
    rw [Design.events_succ, Design.events_succ, List.map_append, List.sum_append, List.sum_append, ih]
    generalize (design oor playerNum).trace s inp t = n
    congr 1
    rw [(clearedRows_toList oor playerNum n (inp t)).1, action]
    by_cases hi : (inp t).reset = true
    · have hb : n.branch oor playerNum (inp t) = .idle := BlockLogic.branch_eq_idle (.inl hi)
      rw [if_pos hi, hb, if_neg Effect.noConfusion]
      rfl
    · rw [if_neg hi]
      split <;> simp_all [Action.rows]

/-- No cell is lost or made up: in every cycle in `PLAY` with a frame edge, the cells of the stack and
ten for every row cleared so far are four for every piece locked so far. -/
theorem stack_conserved (oor : OutOfRange) (playerNum : BitVec 2) (s : Tetris) (inp : ℕ → In)
    (h0 : (inp 0).reset = true) (hs : s.board.state ≠ .other) (hg : s.logic.blockGen.InRange) (t : ℕ) (ht : 0 < t)
    (hr : ∀ u, 0 < u → u < t → (inp u).reset = false) :
    let tr := (design oor playerNum).trace s inp
    let actions := (design oor playerNum).events s inp (action oor playerNum) t
    (∀ u, 0 < u → u < t → Fair oor playerNum (tr u) (inp u)) → (tr t).board.state = .play →
    (tr t).logic.frameClkRisingEdge = true →
    occupiedCells (tr t).lifted + xSize * (actions.map Action.rows).sum = 4 * (actions.map Action.pieces).sum := by
  intro tr actions hfair hplay he
  obtain ⟨G, hG⟩ := exists_games oor playerNum s inp h0 hs hg
  have hrun : ∀ u, 0 < u → u < t → Lts.Next (Game.Step oor) ((tr u).action oor playerNum (inp u)) (G u) (G (u + 1)) :=
    fun u hu hut => (hG u fun v hv hvu => hfair v hv (lt_of_le_of_lt hvu hut)).1
  -- the reset puts the first game on an empty board
  have haction : (tr 0).action oor playerNum (inp 0) = some .start := if_pos h0
  have hempty : occupiedCells (G 1).position.settled = 0 := by
    have hstart := (hG 0 fun u hu hu0 => absurd hu (Nat.not_lt.2 hu0)).1
    rw [haction] at hstart
    cases hstart with
    | start c h => rw [congrArg GameState.position h]; exact occupiedCells_empty
  have hbal := Lts.balance (fun G : Game => occupiedCells G.position.settled) ht hrun ?_
    (fun _ _ _ ha hstep => hstep.occupiedCells ha) (m := 0) ?_
  · have hdep := (hG (t - 1) fun u hu hut => hfair u hu (by omega)).2
    rw [Nat.sub_add_cancel ht] at hdep
    rw [List.sum_map_mul_left, List.sum_map_mul_left, zero_add] at hbal
    rw [hdep.lifted hplay he]
    exact hbal
  · intro u l hu hut hl hstart
    rw [hstart, action, hr u hu hut, if_neg Bool.false_ne_true] at hl
    split at hl <;> cases hl
  · rw [Design.events_succ, Design.events_zero, Design.trace_zero, hempty]
    rw [show s.action oor playerNum (inp 0) = some .start from haction]
    rfl

section First

variable {inp : ℕ → In} {a b : ℕ} (h : ClearRun someReads 1 thirdDown inp a b)

include h

theorem fair_third {u : ℕ} (hu : 0 < u) (hub : u < b + 2) :
    Fair someReads 1 ((design someReads 1).trace powerUp inp u) (inp u) := by
  refine h.fair ⟨fun hc => absurd hc (by decide +kernel), fun _ => by decide +kernel, fun _ => by decide +kernel⟩ ?_ hu
    (Nat.le_of_lt_succ hub)
  decide +kernel

theorem rows_third :
    (((design someReads 1).events powerUp inp (action someReads 1) (b + 2)).map Action.rows).sum = 1 := by
  rw [rows_actions, h.clears (Nat.lt_add_right 2 h.lt) le_rfl, length_fullRows_third]
  rfl

end First

/-- The play of the first clear has a lock that clears one row. -/
theorem plays_by_the_rules_third :
    let d := design someReads 1
    ∃ inp t, ∃ G G' : Game, Lts.Path (Game.Step someReads) (d.events powerUp inp (action someReads 1) t) G G' ∧
      Depicts someReads (d.trace powerUp inp t) G'.toGameState ∧
      ((d.events powerUp inp (action someReads 1) t).map Action.rows).sum = 1 := by
  intro d
  obtain ⟨inp, a, b, h⟩ := exists_thirdClear
  obtain ⟨G, hG⟩ := plays_by_the_rules someReads 1 powerUp inp h.smooth.reset (by decide) (by decide)
  obtain ⟨hpath, hdep⟩ := hG (b + 2) (Nat.succ_pos _) fun u hu hub => fair_third h hu hub
  exact ⟨inp, b + 2, G 0, G (b + 2), hpath, hdep, rows_third h⟩

/-- After the first clear the stack holds what is left of three pieces. -/
theorem stack_conserved_third :
    let d := design someReads 1
    ∃ inp t, let actions := d.events powerUp inp (action someReads 1) t
      (actions.map Action.rows).sum = 1 ∧ 3 ≤ (actions.map Action.pieces).sum ∧
        occupiedCells (d.trace powerUp inp t).lifted + 10 = 4 * (actions.map Action.pieces).sum := by
  intro d
  obtain ⟨inp, a, b, h⟩ := exists_thirdClear
  have hcells := stack_conserved someReads 1 powerUp inp h.smooth.reset (by decide) (by decide) (b + 2)
    (Nat.succ_pos _) (fun u hu _ => h.smooth.run u hu) (fun u hu hub => fair_third h hu hub) h.play h.edge_play
  rw [rows_third h] at hcells
  refine ⟨inp, b + 2, rows_third h, ?_, hcells⟩
  -- ten cells are gone
  have hten : 10 ≤ 4 * ((d.events powerUp inp (action someReads 1) (b + 2)).map Action.pieces).sum :=
    hcells ▸ Nat.le_add_left ..
  omega

end Tetris

end FpgaTetris
