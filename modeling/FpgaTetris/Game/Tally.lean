/-
The tally of a game: the rows that are counted and the points that are added over a whole run, from
the locks that clear rows to the digits of the score.
-/
import FpgaTetris.Game.FullRows
import FpgaTetris.Game.Rules
import FpgaTetris.Score.Saturation

namespace FpgaTetris

open Sync

namespace Tetris

variable {oor : OutOfRange} {playerNum : BitVec 2} {s : Tetris} {i : In}

/-! ## Points -/

theorem points_setWidth {n : BitVec 5} (h : n.toNat ≤ 4) : ScoreKeeper.points (n.setWidth 3) = linePoints n.toNat := by
  have hn : (n.setWidth 3).toNat = n.toNat := by
    rw [BitVec.toNat_setWidth]
    omega
  exact congrArg linePoints hn

variable (oor playerNum s) in
theorem next_scoreKeeper (hi : i.reset = false) :
    (s.next oor playerNum i).board.scoreKeeper =
      s.board.scoreKeeper.nextDigits s.board.updateScore (s.board.numRowsReg.setWidth 3) := by
  have hi' : (s.boardIn oor playerNum i).reset = false := hi
  have hkeeper := ScoreKeeper.next_run (i := s.board.scoreIn (s.boardIn oor playerNum i)) s.board.scoreKeeper hi
  rw [next_board, Board.next]
  simp only [hi', Bool.false_eq_true, if_false]
  exact hkeeper

/-- The points that a cycle adds to the score are those of its pulse. -/
theorem points_scorePulse (hn : s.board.updateScore = true → s.board.numRowsReg.toNat ≤ 4) :
    (if s.board.updateScore then ScoreKeeper.points (s.board.numRowsReg.setWidth 3) else 0) =
      ((s.scorePulse i).toList.map linePoints).sum := by
  unfold scorePulse
  by_cases hu : s.board.updateScore = true
  · rw [if_pos hu, if_pos hu, points_setWidth (hn hu)]
    simp
  · rw [if_neg hu, if_neg hu]
    rfl

/-! ## The tally -/

/-- The counters: the rows modulo 2048, and the score as long as it fits the digits, where the points
of a clear come in when it is over. -/
structure Tallies (s : Tetris) (lines score : ℕ) : Prop where
  lines : s.board.totalNumRows = BitVec.ofNat 11 lines
  score : score ≤ 999990 →
    s.board.scoreKeeper.Decimal ∧ s.board.scoreKeeper.value + (s.owed.map linePoints).sum = score

/-- Rows and points of a clear come in with its lock. -/
theorem Tallies.next (playerNum : BitVec 2) {lines score : ℕ} (h : Tallies s lines score) (hinv : Inv oor s)
    (hi : i.reset = false) (hs : s.board.state ≠ .other)
    (hn : s.board.updateScore = true → s.board.numRowsReg.toNat ≤ 4) :
    Tallies (s.next oor playerNum i) (lines + (s.clearedRows oor playerNum i).toList.sum)
      (score + ((s.clearedRows oor playerNum i).toList.map linePoints).sum) := by
  refine ⟨?_, fun hfit => ?_⟩
  · rw [totalNumRows_next hi hinv, h.lines, BitVec.ofNat_add]
  · obtain ⟨hdec, hval⟩ := h.score (by omega)
    -- what is owed after the cycle, by the balance of clears and pulses
    have hbalance : (s.scorePulse i).toList ++ (s.next oor playerNum i).owed =
        s.owed ++ (s.clearedRows oor playerNum i).toList := owed_next hi hs
    have howed := congrArg (fun l => (l.map linePoints).sum) hbalance
    simp only [List.map_append, List.sum_append] at howed
    rw [← points_scorePulse hn] at howed
    obtain ⟨hspec, -⟩ := ScoreKeeper.nextDigits_spec hdec s.board.updateScore (s.board.numRowsReg.setWidth 3)
    rw [next_scoreKeeper oor playerNum s hi]
    obtain ⟨hdec', hval'⟩ := hspec (by omega)
    exact ⟨hdec', by omega⟩

/-- A reset owes nothing, not even one in the middle of a clear. -/
theorem Tallies.of_reset (hi : i.reset = true) : Tallies (s.next oor playerNum i) 0 0 := by
  obtain ⟨-, -, -, hnum, -, htot, -⟩ := next_board_reset oor playerNum s hi
  have hi' : (s.boardIn oor playerNum i).reset = true := hi
  have hkeeper : (s.next oor playerNum i).board.scoreKeeper = ⟨0, 0, 0, 0, 0⟩ := by
    rw [next_board, Board.next]
    simp only [hi', if_true]
    exact ScoreKeeper.next_reset _ hi
  have howed : ((s.next oor playerNum i).owed.map linePoints).sum = 0 := by
    unfold owed
    rw [hnum]
    split <;> rfl
  refine ⟨htot, fun _ => ?_⟩
  rw [hkeeper, howed]
  simp [ScoreKeeper.decimal_iff, ScoreKeeper.value_eq]

variable (oor playerNum s) in
/-- The rows of a clear are those of the lock that starts it. -/
theorem clearedRows_toList (i : In) :
    let n := if (s.branch oor playerNum i).effect = .lock then (fullRows s.board.boardArr).length else 0
    (s.clearedRows oor playerNum i).toList.sum = n ∧
      ((s.clearedRows oor playerNum i).toList.map linePoints).sum = linePoints n := by
  intro n
  rw [clearedRows_eq]
  by_cases hl : (s.branch oor playerNum i).effect = .lock
  · have hn : n = (fullRows s.board.boardArr).length := if_pos hl
    by_cases hfull : ∃ y, FullRow s.board.boardArr y
    · rw [if_pos ⟨hl, hfull⟩, hn]
      exact ⟨rfl, rfl⟩
    · -- a lock without a full row is no event, and counts zero rows
      have hnil : fullRows s.board.boardArr = [] :=
        List.eq_nil_iff_forall_not_mem.2 fun y hy => hfull ⟨y, mem_fullRows.1 hy⟩
      rw [if_neg fun hc => hfull hc.2, hn, hnil]
      exact ⟨rfl, rfl⟩
  · have hn : n = 0 := if_neg hl
    rw [if_neg fun hc => hl hc.1, hn]
    exact ⟨rfl, rfl⟩

/-! ## Whole runs -/

/-- A reset leaves the machine in a state with a name, if it finds it in one. -/
theorem ne_other_of_reset {inp : ℕ → In} (h0 : (inp 0).reset = true) (hs : s.board.state ≠ .other) {t : ℕ}
    (ht : 0 < t) (hr : ∀ u, 0 < u → u < t → (inp u).reset = false) :
    ((design oor playerNum).trace s inp t).board.state ≠ .other := by
  obtain ⟨u, rfl⟩ := Nat.exists_eq_succ_of_ne_zero (Nat.ne_of_gt ht)
  rcases Nat.eq_zero_or_pos u with rfl | hu
  · rw [Design.trace_succ, Design.trace_zero]
    exact (next_board_reset oor playerNum s h0).2.1 ▸ hs
  · exact ne_other_next (hr u hu (Nat.lt_succ_self u))

/-- The score adds up. At any time after a reset, as long as the points of the clears so far fit the
digits, the digits are decimal and hold the points of these clears, but for one that is still going on;
and the rows are counted modulo 2^11. -/
theorem score_adds_up (oor : OutOfRange) (playerNum : BitVec 2) (s : Tetris) (inp : ℕ → In) (hoor : oor.ReadsEmpty)
    (h0 : (inp 0).reset = true) (hs : s.board.state ≠ .other) (hg : s.logic.blockGen.InRange) (t : ℕ) (ht : 0 < t)
    (hr : ∀ u, 0 < u → u < t → (inp u).reset = false) :
    let n := (design oor playerNum).trace s inp t
    let clears := (design oor playerNum).events s inp (clearedRows oor playerNum) t
    n.board.totalNumRows = BitVec.ofNat 11 clears.sum ∧
      ((clears.map linePoints).sum ≤ 999990 → n.board.scoreKeeper.Decimal ∧
        n.board.scoreKeeper.value + (n.owed.map linePoints).sum = (clears.map linePoints).sum) := by
  have hinv : ∀ t, 0 < t → Inv oor ((design oor playerNum).trace s inp t) ∧
      FullRowsInv ((design oor playerNum).trace s inp t) :=
    (fullRowsInv_keeps hoor).trace ⟨h0, hg⟩ fun _ _ => trivial
  -- by induction on the cycles since the reset
  have htally : Tallies ((design oor playerNum).trace s inp t)
      ((design oor playerNum).events s inp (clearedRows oor playerNum) t).sum
      (((design oor playerNum).events s inp (clearedRows oor playerNum) t).map linePoints).sum := by
    induction t, ht using Nat.le_induction with
    | base =>
      have hb : s.branch oor playerNum (inp 0) = .idle := BlockLogic.branch_eq_idle (.inl h0)
      have hnone : s.clearedRows oor playerNum (inp 0) = none := by
        rw [clearedRows_eq, hb]
        exact if_neg fun hc => Effect.noConfusion hc.1
      rw [Design.events_succ, Design.trace_zero, hnone]
      exact Tallies.of_reset h0
    | succ t ht ih =>
      obtain ⟨h, hf⟩ := hinv t ht
      have hr' : ∀ u, 0 < u → u < t → (inp u).reset = false := fun u hu hut => hr u hu (Nat.lt_succ_of_lt hut)
      have hnext := (ih hr').next playerNum h (hr t ht (Nat.lt_succ_self t)) (ne_other_of_reset h0 hs ht hr')
        fun _ => hf.count
      rw [Design.events_succ, List.map_append, List.sum_append, List.sum_append]
      exact hnext
  exact ⟨htally.lines, htally.score⟩

/-- The first clear brings in one row and 40 points. -/
theorem score_adds_up_third :
    let d := design someReads 1
    ∃ inp t, d.events powerUp inp (clearedRows someReads 1) t = [1] ∧ (d.trace powerUp inp t).board.totalNumRows = 1 ∧
      (d.trace powerUp inp t).board.scoreKeeper.Decimal ∧ (d.trace powerUp inp t).board.scoreKeeper.value = 40 := by
  intro d
  obtain ⟨inp, a, b, h⟩ := exists_thirdClear
  have hclears : d.events powerUp inp (clearedRows someReads 1) (b + 2) = [1] := by
    rw [h.clears (Nat.lt_add_right 2 h.lt) le_rfl, length_fullRows_third]
  obtain ⟨hrows, hscore⟩ := score_adds_up someReads 1 powerUp inp (fun _ _ _ => rfl) h.smooth.reset (by decide)
    (by decide) (b + 2) (Nat.succ_pos _) fun u hu _ => h.smooth.run u hu
  rw [hclears] at hrows hscore
  obtain ⟨hdec, hval⟩ := hscore (by decide)
  rw [h.owed_play] at hval
  exact ⟨inp, b + 2, hclears, hrows, hdec, hval⟩

end Tetris

end FpgaTetris
