/-
Reset from any moment. Two registers survive every pulse: the state of the board's machine, which
the reset branch does not assign, and the fair counter, whose assignment in the reset branch a later
one overrides. Everything else restarts as after power-up.
-/
import FpgaTetris.Game.Refine

namespace FpgaTetris

open Sync

namespace Tetris

/-- Agreement on the registers that a restart sets. -/
structure Agree (a b : Tetris) : Prop where
  boardArr : a.board.boardArr = b.board.boardArr
  state : a.board.state = b.board.state
  clearCounter : a.board.clearCounter = b.board.clearCounter
  numRowsReg : a.board.numRowsReg = b.board.numRowsReg
  clearYReg : a.board.clearYReg = b.board.clearYReg
  totalNumRows : a.board.totalNumRows = b.board.totalNumRows
  levelSpeed : a.board.levelSpeed = b.board.levelSpeed
  digits : a.board.scoreKeeper = b.board.scoreKeeper
  xBlock : a.logic.xBlock = b.logic.xBlock
  yBlock : a.logic.yBlock = b.logic.yBlock
  saveXblock : a.logic.saveXblock = b.logic.saveXblock
  saveYblock : a.logic.saveYblock = b.logic.saveYblock
  block : a.logic.block = b.logic.block
  curBlockIdx : a.logic.curBlockIdx = b.logic.curBlockIdx
  curOrientation : a.logic.curOrientation = b.logic.curOrientation
  heldBlock : a.logic.heldBlock = b.logic.heldBlock
  isBlockSwitched : a.logic.isBlockSwitched = b.logic.isBlockSwitched
  downCounter : a.logic.downCounter = b.logic.downCounter
  speedCounter : a.logic.speedCounter = b.logic.speedCounter
  blockIdx : a.logic.blockIdx = b.logic.blockIdx
  fairCounter : a.logic.blockGen.fairCounter = b.logic.blockGen.fairCounter

variable {oor : OutOfRange} {playerNum : BitVec 2} {s : Tetris} {i : In} {inp : ℕ → In} {n : ℕ}

/-! ## One cycle of reset -/

variable (oor playerNum s) in
/-- The generator hands out index 0 after a reset cycle, and its fair counter is what it was. -/
theorem next_gen_reset (hi : i.reset = true) :
    (s.next oor playerNum i).logic.blockIdx = 0 ∧
      (s.next oor playerNum i).logic.blockGen.fairCounter = s.logic.blockGen.fairCounter := by
  have hb : s.branch oor playerNum i = .idle := BlockLogic.branch_eq_idle (.inl hi)
  have hi' : (s.logicIn oor i).reset = true := hi
  have hgen : BlockLogic.genIn oor playerNum s.logic (s.logicIn oor i) = ⟨true, false, 0⟩ := by
    unfold BlockLogic.genIn BlockLogic.comb
    rw [show BlockLogic.branch playerNum s.logic (s.logicIn oor i) = _ from hb, hi']
    rfl
  have hnext : (s.next oor playerNum i).logic.blockGen = s.logic.blockGen.next ⟨true, false, 0⟩ := by
    rw [← hgen]; rfl
  unfold BlockLogic.blockIdx
  rw [hnext]
  exact ⟨rfl, rfl⟩

theorem next_digits_reset (hi : i.reset = true) :
    (s.next oor playerNum i).board.scoreKeeper = ⟨0, 0, 0, 0, 0⟩ := by
  have hi' : (s.boardIn oor playerNum i).reset = true := hi
  simp [next_board, Board.next, hi', ScoreKeeper.next, Board.scoreIn]

/-- A reset cycle makes two states agree that agree on the index handed out and on what it leaves
alone. -/
theorem agree_next {a b : Tetris} (hi : i.reset = true) (hidx : a.logic.blockIdx = b.logic.blockIdx)
    (hs : a.board.state = b.board.state) (hf : a.logic.blockGen.fairCounter = b.logic.blockGen.fairCounter) :
    Agree (a.next oor playerNum i) (b.next oor playerNum i) := by
  obtain ⟨la, xa, ya, ca, ha, sa⟩ := BlockLogic.next_reset oor playerNum a.logic (a.logicIn oor i) hi
  obtain ⟨lb, xb, yb, cb, hb, sb⟩ := BlockLogic.next_reset oor playerNum b.logic (b.logicIn oor i) hi
  obtain ⟨arra, sta, cnta, na, cya, tota, lva⟩ := next_board_reset oor playerNum a hi
  obtain ⟨arrb, stb, cntb, nb, cyb, totb, lvb⟩ := next_board_reset oor playerNum b hi
  -- the generator redraws from the random bits, but keeps its fair counter
  obtain ⟨ia, fa⟩ := next_gen_reset oor playerNum a hi
  obtain ⟨ib, fb⟩ := next_gen_reset oor playerNum b hi
  rw [hidx] at la ca
  have hx := la.x.trans lb.x.symm
  have hy := la.y.trans lb.y.symm
  exact
    { boardArr := arra.trans arrb.symm
      state := sta.trans (hs.trans stb.symm)
      clearCounter := cnta.trans cntb.symm
      numRowsReg := na.trans nb.symm
      clearYReg := cya.trans cyb.symm
      totalNumRows := tota.trans totb.symm
      levelSpeed := lva.trans lvb.symm
      digits := (next_digits_reset hi).trans (next_digits_reset hi).symm
      xBlock := hx
      yBlock := hy
      saveXblock := xa.trans (hx.trans xb.symm)
      saveYblock := ya.trans (hy.trans yb.symm)
      block := la.block.trans lb.block.symm
      curBlockIdx := ca.trans cb.symm
      curOrientation := la.orientation.trans lb.orientation.symm
      heldBlock := ha.trans hb.symm
      isBlockSwitched := sa.trans sb.symm
      downCounter := la.down.trans lb.down.symm
      speedCounter := la.speed.trans lb.speed.symm
      blockIdx := ia.trans ib.symm
      fairCounter := fa.trans (hf.trans fb.symm) }

/-! ## Whole pulses -/

variable (oor playerNum s) in
/-- A pulse leaves the machine's state and the fair counter as they were. -/
theorem survives_pulse (hr : ∀ t < n, (inp t).reset = true) :
    ((design oor playerNum).trace s inp n).board.state = s.board.state ∧
      ((design oor playerNum).trace s inp n).logic.blockGen.fairCounter = s.logic.blockGen.fairCounter := by
  induction n with
  | zero => exact ⟨rfl, rfl⟩
  | succ n ih =>
    obtain ⟨hs, hf⟩ := ih fun t ht => hr t (Nat.lt_succ_of_lt ht)
    have hi := hr n (Nat.lt_succ_self n)
    rw [Design.trace_succ]
    exact ⟨(next_board_reset oor playerNum _ hi).2.1.trans hs, (next_gen_reset oor playerNum _ hi).2.trans hf⟩

/-- A pulse of two or more cycles restarts the game as at power-up exactly when it starts in `PLAY`
and with a fair counter of zero. -/
theorem reset_restarts_iff (oor : OutOfRange) (playerNum : BitVec 2) (s : Tetris) (inp : ℕ → In) (n : ℕ)
    (hn : 2 ≤ n) (hr : ∀ t < n, (inp t).reset = true) :
    Agree ((design oor playerNum).trace s inp n) ((design oor playerNum).trace powerUp inp n) ↔
      s.board.state = .play ∧ s.logic.blockGen.fairCounter = 0 := by
  constructor
  · intro h
    obtain ⟨hs, hf⟩ := survives_pulse oor playerNum s hr
    obtain ⟨hs', hf'⟩ := survives_pulse oor playerNum powerUp hr
    exact ⟨hs.symm.trans (h.state.trans hs'), hf.symm.trans (h.fairCounter.trans hf')⟩
  · rintro ⟨hs, hf⟩
    obtain ⟨m, rfl⟩ := Nat.exists_eq_add_of_le' hn
    have hm : ∀ t < m + 1, (inp t).reset = true := fun t ht => hr t (Nat.lt_succ_of_lt ht)
    have hi := hr (m + 1) (Nat.lt_succ_self _)
    obtain ⟨hsa, hfa⟩ := survives_pulse oor playerNum s hm
    obtain ⟨hsb, hfb⟩ := survives_pulse oor playerNum powerUp hm
    -- the first cycle of the pulse makes the generator hand out index 0
    have hidx : ∀ a : Tetris, ((design oor playerNum).trace a inp (m + 1)).logic.blockIdx = 0 := fun a =>
      (next_gen_reset oor playerNum _ (hr m (by omega))).1
    rw [Design.trace_succ, Design.trace_succ]
    exact agree_next hi ((hidx s).trans (hidx powerUp).symm) (hsa.trans (hs.trans hsb.symm))
      (hfa.trans (hf.trans hfb.symm))

/-- From power-up: a reset, a frame in which player 1 presses H, then a pulse from cycle 3 on. -/
def resetAfterHold (t : ℕ) : In := ⟨t == 0 || decide (3 ≤ t), t != 0, 32⟩

/-- A pulse after a first move restarts the game. -/
theorem reset_restarts_pressLeft :
    let d := design someReads 1
    Agree (d.trace (d.trace powerUp pressLeft 4) (fun _ => ⟨true, false, 0⟩) 2)
      (d.trace powerUp (fun _ => ⟨true, false, 0⟩) 2) :=
  (reset_restarts_iff someReads 1 ((design someReads 1).trace powerUp pressLeft 4) _ 2 le_rfl
    fun _ _ => rfl).2 ⟨rfl, rfl⟩

/-- The hold draws a piece, and the pulse after it does not put the fair counter back. -/
theorem reset_keeps_fair_counter :
    let d := design someReads 1
    (∀ t < 2, (resetAfterHold (3 + t)).reset = true) ∧
      ¬ Agree (d.trace powerUp resetAfterHold (3 + 2))
        (d.trace powerUp (fun t => resetAfterHold (3 + t)) 2) := by
  refine ⟨by decide, fun h => ?_⟩
  have hf := h.fairCounter
  revert hf
  decide

end Tetris

end FpgaTetris
