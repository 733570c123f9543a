/-
Full rows hold the moving piece. In `PLAY` each full row contains a cell the board is about to
erase, so a lock never clears more than four rows, and a clear leaves no full row behind.
-/
import FpgaTetris.Board.Flush
import FpgaTetris.Game.Scoring

namespace FpgaTetris

/-- Reads outside the board yield `EMPTY`. -/
def OutOfRange.ReadsEmpty (oor : OutOfRange) : Prop := ∀ b p, ¬ InBoard p → oor.boardArr b p = .empty

/-! ## The shift makes no full row -/

theorem noFull_dropRows {oor : OutOfRange} {b : BoardArr} (hoor : oor.ReadsEmpty) (hb : ∀ y, ¬ FullRow b y)
    (n c : BitVec 5) (y : Fin ySize) : ¬ FullRow (Board.dropRows oor b n c) y := by
  intro hfull
  -- one row is read for the whole of row `y`, and it has an empty cell or lies outside the board
  let q : BitVec 5 := if c < BitVec.ofNat 5 y then BitVec.ofNat 5 y else BitVec.ofNat 5 y - n
  have hread : ∀ x : Fin xSize, b.read oor (BitVec.ofNat 5 x, q) ≠ .empty := hfull
  by_cases hq : q.toNat < ySize
  · refine hb ⟨q.toNat, hq⟩ fun x => ?_
    rw [← BoardArr.read_pos oor b (x, _)]
    have hpos : pos (x, ⟨q.toNat, hq⟩) = (BitVec.ofNat 5 x, q) := Prod.ext rfl (by simp [pos])
    rw [hpos]
    exact hread x
  · have hout : ¬ InBoard (BitVec.ofNat 5 (0 : Fin xSize), q) := fun h => hq h.2
    exact hread 0 (by rw [BoardArr.read_out hout, hoor _ _ hout])

namespace Tetris

variable {oor : OutOfRange} {playerNum : BitVec 2} {s : Tetris} {i : In}

/-! ## The invariant -/

/-- Where full rows can be, and how many rows a clear can count. -/
structure FullRowsInv (s : Tetris) : Prop where
  play : s.board.state = .play → ∀ y, FullRow s.board.boardArr y → ∃ x, pos (x, y) ∈ s.logic.savedCells
  quiet : s.board.state ≠ .play → s.board.state ≠ .clear → ∀ y, ¬ FullRow s.board.boardArr y
  count : s.board.numRowsReg.toNat ≤ 4

theorem FullRowsInv.of_reset (hi : i.reset = true) : FullRowsInv (s.next oor playerNum i) := by
  obtain ⟨harr, -, -, hn, -⟩ := next_board_reset oor playerNum s hi
  refine ⟨fun _ y hy => ?_, fun _ _ y hy => ?_, by rw [hn]; decide⟩ <;>
  · rw [harr] at hy
    exact absurd hy (not_fullRow_empty y)

/-- The saved cells lie in at most four rows. -/
theorem FullRowsInv.numRows_le (h : FullRowsInv s) (hs : s.board.state = .play) :
    (Board.scan s.board.boardArr).numRows.toNat ≤ 4 := by
  rw [Board.numRows_toNat]
  have hsub : (fullRows s.board.boardArr).map Fin.val ⊆ s.logic.savedCells.map (·.2.toNat) := by
    intro n hn
    obtain ⟨y, hy, rfl⟩ := List.mem_map.1 hn
    obtain ⟨x, hx⟩ := h.play hs y (mem_fullRows.1 hy)
    exact List.mem_map.2 ⟨_, hx, pos_snd (x, y)⟩
  have hlen := ((nodup_fullRows _).subperm hsub).length_le
  rwa [List.length_map, List.length_map] at hlen

/-! ## Preservation -/

/-- In `PLAY` without a lock: a row with no cell of the piece was full before, and had no saved cell. -/
theorem fullRow_next (hf : FullRowsInv s) (hi : i.reset = false) (hs : s.board.state = .play)
    (hl : (s.branch oor playerNum i).effect ≠ .lock) {y : Fin ySize}
    (hy : FullRow (s.next oor playerNum i).board.boardArr y) :
    ∃ x, pos (x, y) ∈ (s.next oor playerNum i).logic.savedCells := by
  rw [savedCells_next hi hl]
  by_contra hno
  push Not at hno
  -- a row without cells of the piece was full before, and one of its cells has just been erased
  have hlift : ∀ x, pos (x, y) ∉ s.logic.savedCells ∧ s.board.boardArr (x, y) ≠ .empty := by
    intro x
    have hxy := hy x
    rw [next_boardArr_play hi hs, if_neg hl, BoardArr.paint_apply, if_neg (hno x), Ne, BoardArr.paint_empty_iff,
      not_or] at hxy
    exact hxy.symm
  obtain ⟨x, hx⟩ := hf.play hs y fun x => (hlift x).2
  exact (hlift x).1 hx

theorem FullRowsInv.next_play (h : Inv oor s) (hf : FullRowsInv s) (hi : i.reset = false) (hs : s.board.state = .play) :
    FullRowsInv (s.next oor playerNum i) := by
  have hstate := next_state_play oor playerNum hi hs
  have hreg := next_numRowsReg oor playerNum s hi
  rw [if_congr (saveClearY_iff hs) rfl rfl] at hreg
  by_cases hc : (s.branch oor playerNum i).effect = .lock ∧ ∃ y, FullRow s.board.boardArr y
  · rw [if_pos hc] at hstate hreg
    refine ⟨fun hp => ?_, fun _ hne => absurd hstate hne, by rw [hreg]; exact hf.numRows_le hs⟩
    rw [hstate] at hp; cases hp
  · rw [if_neg hc] at hstate hreg
    refine ⟨fun _ y hy => ?_, fun hne => absurd hstate hne, by rw [hreg]; exact hf.count⟩
    by_cases hl : (s.branch oor playerNum i).effect = .lock
    · rw [h.boardArr_of_lock hl] at hy
      exact absurd ⟨hl, y, hy⟩ hc
    · exact fullRow_next hf hi hs hl hy

theorem FullRowsInv.next_run (hoor : oor.ReadsEmpty) (h : Inv oor s) (hf : FullRowsInv s) (hi : i.reset = false) :
    FullRowsInv (s.next oor playerNum i) := by
  by_cases hp : s.board.state = .play
  · exact hf.next_play h hi hp
  have hcount : (s.next oor playerNum i).board.numRowsReg.toNat ≤ 4 := by
    rw [next_numRowsReg oor playerNum s hi, Board.saveClearY_eq_false hp]; exact hf.count
  by_cases hc : s.board.state = .clear
  · have hend : (s.next oor playerNum i).board.state ≠ .clear →
        ∀ y, ¬ FullRow (s.next oor playerNum i).board.boardArr y := Board.Clearing.noFull_of_clear_end hi hc
    exact ⟨fun hp' y hy => absurd hy (hend (by simp [hp']) y), fun _ => hend, hcount⟩
  -- outside `PLAY` and `CLEAR` no row is full, and none gets full
  have hquiet := hf.quiet hp hc
  have hnone : ∀ y, ¬ FullRow (s.next oor playerNum i).board.boardArr y := by
    rw [next_boardArr hi]
    cases hstate : s.board.state with
    | play => exact absurd hstate hp
    | clear => exact absurd hstate hc
    | drop =>
      by_cases hedge : (s.boardIn oor playerNum i).frameClkRisingEdge = true
      · rw [Board.boardIn_drop hstate hedge]
        exact noFull_dropRows hoor hquiet _ _
      · unfold Board.boardIn
        rw [hstate]
        simp only
        rw [if_neg hedge]
        exact hquiet
    | score => rw [Board.boardIn, hstate]; exact hquiet
    | other => rw [Board.boardIn, hstate]; exact hquiet
  exact ⟨fun _ y hy => absurd hy (hnone y), fun _ _ => hnone, hcount⟩

/-! ## Whole runs -/

theorem fullRowsInv_keeps (hoor : oor.ReadsEmpty) :
    (design oor playerNum).Keeps (fun s i => i.reset = true ∧ s.logic.blockGen.InRange) (fun _ => True)
      (fun s => Inv oor s ∧ FullRowsInv s) := by
  refine ⟨fun s i h => ⟨inv_reset h.2 h.1, .of_reset h.1⟩, fun s i _ h => ⟨h.1.next i, ?_⟩⟩
  cases hi : i.reset with
  | true => exact .of_reset hi
  | false => exact h.2.next_run hoor h.1 hi

/-- No full row is left behind, and a lock clears at most four. In every reachable state: in `PLAY`
each full row holds a cell about to be erased; a lock counts at most four rows; the score keeper's
port loses nothing of the count; and after `SCORE` no row is full. -/
theorem full_rows_bounded (oor : OutOfRange) (playerNum : BitVec 2) (s : Tetris) (inp : ℕ → In)
    (hoor : oor.ReadsEmpty) (h0 : (inp 0).reset = true) (hg : s.logic.blockGen.InRange) (t : ℕ) (ht : 0 < t) :
    let tr := (design oor playerNum).trace s inp
    ((tr t).board.state = .play → ∀ y, FullRow (tr t).board.boardArr y →
      ∃ x, pos (x, y) ∈ (tr t).logic.savedCells) ∧
    (((tr t).comb oor playerNum (inp t)).getNewBlock = true →
      (Board.scan (tr t).board.boardArr).numRows.toNat ≤ 4) ∧
    ((tr t).board.scoreIn ((tr t).boardIn oor playerNum (inp t))).numLines.toNat =
      (tr t).board.numRowsReg.toNat ∧
    ((tr t).board.state = .score → ∀ y, ¬ FullRow (tr (t + 1)).board.boardArr y) := by
  intro tr
  have hinv : ∀ t, 0 < t → Inv oor (tr t) ∧ FullRowsInv (tr t) :=
    (fullRowsInv_keeps hoor).trace ⟨h0, hg⟩ fun _ _ => trivial
  obtain ⟨h, hf⟩ := hinv t ht
  refine ⟨hf.play, fun hl => hf.numRows_le (h.play_of_lock (getNewBlock_iff.1 hl)), ?_, fun hscore => ?_⟩
  · -- a count of at most four fits the 3-bit port
    have hcount := hf.count
    show ((tr t).board.numRowsReg.setWidth 3).toNat = _
    rw [BitVec.toNat_setWidth]
    omega
  · show ∀ y, ¬ FullRow ((tr t).next oor playerNum (inp t)).board.boardArr y
    cases hi : (inp t).reset with
    | true =>
      rw [(next_board_reset oor playerNum (tr t) hi).1]
      exact not_fullRow_empty
    | false =>
      rw [next_boardArr hi, Board.boardIn, hscore]
      exact hf.quiet (by simp [hscore]) (by simp [hscore])

/-- The bottom row of the first clear holds the square that fills it, and the score keeper gets its count. -/
theorem full_rows_bounded_third :
    ∃ inp t, let s := (design someReads 1).trace powerUp inp t
      (∃ y, FullRow s.board.boardArr y) ∧ (∀ y, FullRow s.board.boardArr y → ∃ x, pos (x, y) ∈ s.logic.savedCells) ∧
        (s.comb someReads 1 (inp t)).getNewBlock = true ∧ (Board.scan s.board.boardArr).numRows.toNat ≤ 4 := by
  obtain ⟨inp, a, b, h⟩ := exists_thirdClear
  have hlock : (((design someReads 1).trace powerUp inp a).comb someReads 1 (inp a)).getNewBlock = true := by
    rw [getNewBlock_iff, h.lock]
    rfl
  obtain ⟨hrows, hcount, -, -⟩ := full_rows_bounded someReads 1 powerUp inp (fun _ _ _ => rfl) h.smooth.reset
    (by decide) a h.smooth.pos
  exact ⟨inp, a, h.edge.board ▸ h.full, hrows h.edge.play, hlock, hcount hlock⟩

end Tetris

end FpgaTetris
