/-
The clearing machine after a reset that came in the middle of a clear. The reset empties the board and
the saved counts but leaves the state, so the machine goes through what is left of the clear with
nothing to clear.
-/
import FpgaTetris.Board.Clearing

namespace FpgaTetris

variable {oor : OutOfRange} {n : ℕ}

theorem not_fullRow_empty (y : Fin ySize) : ¬ FullRow (fun _ => .empty) y := fun h => h 0 rfl

namespace Board

variable {s : Board} {i : In}

/-- The rows of an empty board are taken from empty rows, whatever the rows moved. -/
theorem dropRows_empty : dropRows oor (fun _ => .empty) 0 0 = fun _ => .empty := by
  funext d
  have hrow : (if 0 < (pos d).2 then (pos d).2 else (pos d).2 - 0) = (pos d).2 := by
    rw [show (pos d).2 - 0 = (pos d).2 from BitVec.sub_zero _, ite_self]
  unfold dropRows
  rw [hrow]
  exact BoardArr.read_pos ..

/-- Where a clear of nothing can be, `n` frame edges after the reset. -/
def FlushStage (n : ℕ) (state : BoardState) (count : BitVec 3) : Prop :=
  state = .clear ∧ count.toNat = n ∧ n ≤ 3 ∨ state = .drop ∧ n = 0 ∨ state = .score ∧ n ≤ 4

/-- A clear of nothing. -/
structure Flushed (n : ℕ) (s : Board) : Prop where
  empty : s.boardArr = fun _ => .empty
  numRows : s.numRowsReg = 0
  clearY : s.clearYReg = 0
  stage : FlushStage n s.state s.clearCounter

namespace Flushed

variable (h : Flushed n s)

include h

theorem boardBusy : s.boardBusy = true := by
  rw [boardBusy_iff]
  rcases h.stage with ⟨hs, -⟩ | ⟨hs, -⟩ | ⟨hs, -⟩ <;> simp [hs]

theorem ne_play : s.state ≠ .play := by
  intro hp
  rcases h.stage with ⟨hs, -⟩ | ⟨hs, -⟩ | ⟨hs, -⟩ <;> rw [hs] at hp <;> cases hp

theorem score_of_four (hn : 4 ≤ n) : s.state = .score := by
  rcases h.stage with ⟨-, -, hn'⟩ | ⟨-, hn'⟩ | ⟨hs, -⟩
  · omega
  · omega
  · exact hs

theorem not_canClearRow : ¬ (scan s.boardArr).canClearRow = true := by
  rw [canClearRow_iff, h.empty]
  exact fun ⟨y, hy⟩ => not_fullRow_empty y hy

theorem numRows_scan : (scan s.boardArr).numRows = 0 := by
  refine BitVec.eq_of_toNat_eq ?_
  rw [numRows_toNat, h.empty]
  exact List.length_eq_zero_iff.2 (List.filter_eq_nil_iff.2 fun y _ => by simpa using not_fullRow_empty y)

/-- With nothing to erase the machine counts the edges of `CLEAR` and goes to `SCORE`. -/
theorem nextState_clear (hs : s.state = .clear) :
    s.nextState i = if i.frameClkRisingEdge ∧ s.clearCounter = clearFrames then .score else .clear := by
  unfold nextState
  rw [hs, h.numRows_scan]
  rfl

theorem clearCounterIn_clear (hs : s.state = .clear) :
    s.clearCounterIn i = if i.frameClkRisingEdge then s.clearCounter + 1 else s.clearCounter := by
  unfold clearCounterIn
  rw [hs]
  exact if_neg fun he => h.not_canClearRow he.2.2

/-- The board stays empty. -/
theorem boardIn_empty : s.boardIn oor i = fun _ => .empty := by
  rcases h.stage with ⟨hs, -⟩ | ⟨hs, -⟩ | ⟨hs, -⟩
  · rw [boardIn, hs]
    exact (if_neg fun he => h.not_canClearRow he.2.2).trans h.empty
  · by_cases hedge : i.frameClkRisingEdge = true
    · rw [boardIn_drop hs hedge, h.empty, h.numRows, h.clearY, dropRows_empty]
    · rw [boardIn, hs]
      exact (if_neg hedge).trans h.empty
  · rw [boardIn, hs]
    exact h.empty

/-- The clear goes on, or is over. -/
theorem stage_next :
    FlushStage (n + if i.frameClkRisingEdge then 1 else 0) (s.nextState i) (s.clearCounterIn i) ∨
      s.nextState i = .play := by
  rcases h.stage with ⟨hs, hcount, hn⟩ | ⟨hs, rfl⟩ | ⟨hs, -⟩
  · rw [h.nextState_clear hs, h.clearCounterIn_clear hs]
    left
    -- four edges in `CLEAR`, one in `DROP`, and `SCORE` lasts a cycle
    have hthree : s.clearCounter = clearFrames ↔ n = 3 := by
      rw [← BitVec.toNat_inj, hcount]
      rfl
    by_cases hedge : i.frameClkRisingEdge = true
    · rw [if_pos hedge, if_pos hedge]
      by_cases h3 : n = 3
      · rw [if_pos ⟨hedge, hthree.2 h3⟩]
        exact .inr (.inr ⟨rfl, by omega⟩)
      · have hcount' : (s.clearCounter + 1).toNat = s.clearCounter.toNat + 1 :=
          BitVec.toNat_add_of_lt (show _ + 1 < 8 by omega)
        rw [if_neg fun hc => h3 (hthree.1 hc.2)]
        exact .inl ⟨rfl, hcount'.trans (congrArg (· + 1) hcount), by omega⟩
    · rw [if_neg hedge, if_neg hedge, if_neg fun hc => hedge hc.1]
      exact .inl ⟨rfl, hcount, hn⟩
  · left
    unfold nextState
    rw [hs]
    by_cases hedge : i.frameClkRisingEdge = true
    · exact .inr (.inr ⟨if_pos hedge, by rw [if_pos hedge]; omega⟩)
    · exact .inr (.inl ⟨if_neg hedge, by rw [if_neg hedge]⟩)
  · right
    unfold nextState
    rw [hs]

/-- One cycle of a clear of nothing. -/
theorem step (hi : i.reset = false) :
    Flushed (n + if i.frameClkRisingEdge then 1 else 0) (s.next oor i) ∨
      (s.next oor i).state = .play ∧ (s.next oor i).boardArr = fun _ => .empty := by
  have hempty : (s.next oor i).boardArr = fun _ => .empty := (next_boardArr hi).trans h.boardIn_empty
  rcases h.stage_next (i := i) with hstage | hplay
  · left
    refine ⟨hempty, ?_, ?_, ?_⟩
    · rw [next_numRowsReg hi, saveClearY_eq_false h.ne_play]
      exact h.numRows
    · rw [next_clearYReg hi, saveClearY_eq_false h.ne_play]
      exact h.clearY
    · rw [next_state hi, next_clearCounter hi]
      exact hstage
  · exact .inr ⟨(next_state hi).trans hplay, hempty⟩

end Flushed

end Board

end FpgaTetris
