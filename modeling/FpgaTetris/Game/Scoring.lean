/-
Clears and their score pulses: each lock with full rows is followed by one pulse that carries its
count, in order, and the total counts the rows of every lock.
-/
import FpgaTetris.Game.FirstClear

namespace FpgaTetris

open Sync

namespace Tetris

variable {oor : OutOfRange} {playerNum : BitVec 2} {s : Tetris} {i : In}

/-! ## Clears, pulses, and clears whose pulse is to come -/

/-- The count of full rows of a lock that has any. -/
def clearedRows (oor : OutOfRange) (playerNum : BitVec 2) (s : Tetris) (i : In) : Option ℕ :=
  let k := (fullRows s.board.boardArr).length
  if (s.comb oor playerNum i).getNewBlock ∧ 1 ≤ k then some k else none

/-- The count delivered to the score keeper in a cycle with `update_score`. -/
def scorePulse (s : Tetris) (_ : In) : Option ℕ :=
  if s.board.updateScore then some s.board.numRowsReg.toNat else none

/-- The count whose pulse is still to come. -/
def pending (s : Tetris) : List ℕ :=
  if s.board.state = .clear ∨ s.board.state = .drop then [s.board.numRowsReg.toNat] else []

/-- The pending count, or the one delivered in this very cycle. -/
def owed (s : Tetris) : List ℕ := if s.board.boardBusy then [s.board.numRowsReg.toNat] else []

theorem owed_eq (s : Tetris) (i : In) : s.owed = (s.scorePulse i).toList ++ s.pending := by
  unfold owed scorePulse pending Board.boardBusy Board.updateScore
  cases s.board.state <;> simp

theorem clearedRows_eq (s : Tetris) (i : In) :
    s.clearedRows oor playerNum i =
      if (s.branch oor playerNum i).effect = .lock ∧ ∃ y, FullRow s.board.boardArr y then
        some (fullRows s.board.boardArr).length
      else none := by
  unfold clearedRows
  refine if_congr (and_congr getNewBlock_iff ?_) rfl rfl
  rw [Nat.succ_le_iff, List.length_pos_iff_exists_mem]
  exact exists_congr fun _ => mem_fullRows

theorem clearedRows_of_busy (h : s.board.boardBusy = true) : s.clearedRows oor playerNum i = none := by
  rw [clearedRows_eq, stay_of_busy h]
  exact if_neg fun hc => Effect.noConfusion hc.1

/-! ## One cycle -/

/-- Every cycle delivers what was owed and owes what was cleared. -/
theorem owed_next (hi : i.reset = false) (hs : s.board.state ≠ .other) :
    (s.scorePulse i).toList ++ (s.next oor playerNum i).owed =
      s.owed ++ (s.clearedRows oor playerNum i).toList := by
  by_cases hp : s.board.state = .play
  · -- nothing is owed yet, and a lock with full rows starts a debt
    have howed : s.owed = [] := by simp [owed, Board.boardBusy, hp]
    have hpulse : s.scorePulse i = none := by simp [scorePulse, Board.updateScore, hp]
    have hstate := next_state_play oor playerNum hi hp
    have hreg := next_numRowsReg oor playerNum s hi
    rw [if_congr (saveClearY_iff hp) rfl rfl] at hreg
    -- the count saved is the number of full rows
    rw [howed, hpulse, clearedRows_eq, owed, Board.boardBusy, hstate, hreg, ← Board.numRows_toNat]
    split <;> rfl
  have hreg : (s.next oor playerNum i).board.numRowsReg = s.board.numRowsReg := by
    rw [next_numRowsReg oor playerNum s hi, Board.saveClearY_eq_false hp]; rfl
  by_cases hsc : s.board.state = .score
  · -- the pulse pays it
    have hbusy : s.board.boardBusy = true := by simp [Board.boardBusy_iff, hsc]
    have hnext : (s.next oor playerNum i).owed = [] := by
      unfold owed Board.boardBusy
      rw [next_state hi, Board.nextState, hsc]; rfl
    rw [hnext, clearedRows_of_busy hbusy, owed_eq s i, pending, hsc]
    simp
  · -- in between it is carried on
    have hcd : s.board.state = .clear ∨ s.board.state = .drop := by
      cases hstate : s.board.state <;> simp_all
    have hbusy : s.board.boardBusy = true := by rcases hcd with h | h <;> simp [Board.boardBusy_iff, h]
    have hbusy' : (s.next oor playerNum i).board.boardBusy = true := Board.boardBusy_next hi hcd
    have hpulse : s.scorePulse i = none := by simp [scorePulse, Board.updateScore, hsc]
    rw [hpulse, clearedRows_of_busy hbusy, owed, owed, if_pos hbusy, if_pos hbusy', hreg]
    rfl

theorem ne_other_next (hi : i.reset = false) : (s.next oor playerNum i).board.state ≠ .other := by
  rw [next_state hi]
  exact Board.nextState_ne_other _ _

/-- The total counts the rows of the locks. -/
theorem totalNumRows_next (hi : i.reset = false) (h : Inv oor s) :
    (s.next oor playerNum i).board.totalNumRows =
      s.board.totalNumRows + BitVec.ofNat 11 (s.clearedRows oor playerNum i).toList.sum := by
  rw [next_totalNumRows hi, clearedRows_eq, ← Board.numRows_toNat]
  by_cases hp : s.board.state = .play
  · rw [if_congr (saveClearY_iff hp) rfl rfl]
    split <;> simp
  · have hl : ¬ ((s.branch oor playerNum i).effect = .lock ∧ ∃ y, FullRow s.board.boardArr y) :=
      fun hc => hp (h.play_of_lock hc.1)
    rw [Board.saveClearY_eq_false hp, if_neg hl]
    simp

/-! ## Whole runs -/

section Run

variable (oor) (playerNum) (s) (inp : ℕ → In) (h0 : (inp 0).reset = true) (hs : s.board.state = .play)
  (hg : s.logic.blockGen.InRange) (hr : ∀ t, 0 < t → (inp t).reset = false)

include h0 hs in
/-- The reset cycle leaves the machine in `PLAY`, clears nothing and delivers nothing. -/
theorem reset_cycle :
    (s.next oor playerNum (inp 0)).board.state = .play ∧ s.clearedRows oor playerNum (inp 0) = none ∧
      s.scorePulse (inp 0) = none := by
  obtain ⟨-, hstate, -⟩ := next_board_reset oor playerNum s h0
  have hb : s.branch oor playerNum (inp 0) = .idle := BlockLogic.branch_eq_idle (.inl h0)
  refine ⟨hstate.trans hs, ?_, by simp [scorePulse, Board.updateScore, hs]⟩
  rw [clearedRows_eq, hb]
  exact if_neg fun hc => Effect.noConfusion hc.1

include h0 hs hr in
theorem ne_other_trace (t : ℕ) : ((design oor playerNum).trace s inp t).board.state ≠ .other := by
  rcases t with _ | _ | t
  · rw [Design.trace_zero, hs]; exact BoardState.noConfusion
  · rw [Design.trace_succ, Design.trace_zero]
    exact (reset_cycle oor playerNum s inp h0 hs).1 ▸ BoardState.noConfusion
  · exact ne_other_next (hr (t + 1) (Nat.succ_pos t))

include h0 hs hr in
/-- What was cleared is what was delivered, in order, and what is owed. -/
theorem clears_balance (t : ℕ) :
    (design oor playerNum).events s inp (clearedRows oor playerNum) t =
      (design oor playerNum).events s inp scorePulse t ++ ((design oor playerNum).trace s inp t).owed := by
  refine Design.events_balance _ _ _ owed (by simp [owed, Board.boardBusy, hs]) (fun t => ?_) t
  cases t with
  | zero =>
    obtain ⟨hstate, hnone, hpulse⟩ := reset_cycle oor playerNum s inp h0 hs
    rw [Design.trace_succ, Design.trace_zero, hnone, hpulse]
    show [] ++ (s.next oor playerNum (inp 0)).owed = _
    simp [owed, Board.boardBusy, hstate, hs]
  | succ t => exact owed_next (hr (t + 1) (Nat.succ_pos t)) (ne_other_trace oor playerNum s inp h0 hs hr _)

include h0 hs hg hr in
theorem totalNumRows_trace (t : ℕ) (ht : 0 < t) :
    ((design oor playerNum).trace s inp t).board.totalNumRows =
      BitVec.ofNat 11 ((design oor playerNum).events s inp (clearedRows oor playerNum) t).sum := by
  induction t, ht using Nat.le_induction with
  | base =>
    obtain ⟨-, hnone, -⟩ := reset_cycle oor playerNum s inp h0 hs
    obtain ⟨-, -, -, -, -, htot, -⟩ := next_board_reset oor playerNum s h0
    rw [Design.events_succ, Design.trace_zero, hnone]
    exact htot
  | succ t ht ih =>
    have hinv := inv_trace oor playerNum s inp h0 hg t ht
    rw [Design.events_succ, List.sum_append, BitVec.ofNat_add, ← ih]
    exact totalNumRows_next (hr t ht) hinv

include h0 hs hr in
/-- The board stays busy from a clear to its pulse. -/
theorem boardBusy_until_pulse {t u : ℕ} (htu : t < u)
    (hc : ((design oor playerNum).trace s inp t).clearedRows oor playerNum (inp t) ≠ none)
    (hno : ∀ v, t < v → v < u → ((design oor playerNum).trace s inp v).board.updateScore = false) :
    ((design oor playerNum).trace s inp u).board.boardBusy = true := by
  refine Design.trace_phase (fun s : Tetris => s.board.boardBusy = true) htu ?_ fun v h1 h2 hv => ?_
  · -- the lock itself takes the machine out of `PLAY`
    have hother := ne_other_trace oor playerNum s inp h0 hs hr t
    rw [Nat.succ_eq_add_one, Design.trace_succ]
    generalize (design oor playerNum).trace s inp t = n at *
    rw [clearedRows_eq, Ne, ite_eq_right_iff, not_forall] at hc
    obtain ⟨hlock, -⟩ := hc
    have hact := active_of_lock hlock.1
    have hplay : n.board.state = .play := (Board.play_or_other hact.2.1).resolve_right hother
    show (n.next oor playerNum (inp t)).board.boardBusy = true
    rw [Board.boardBusy_iff, next_state_play oor playerNum hact.1 hplay, if_pos hlock]
    simp
  · -- without a pulse the machine is in `CLEAR` or `DROP`
    have hnop := hno v h1 h2
    refine Board.boardBusy_next (hr v (Nat.lt_of_lt_of_le (Nat.succ_pos t) h1)) ?_
    generalize (design oor playerNum).trace s inp v = n at *
    unfold Board.updateScore at hnop
    rcases Board.boardBusy_iff.1 hv with hs | hs | hs
    · exact .inl hs
    · exact .inr hs
    · simp [hs] at hnop

end Run

/-- Every clear is scored exactly once. The counts of the clears before a cycle are the counts
delivered up to that cycle, in order, and at most one more that is pending in `CLEAR` or `DROP`; a
pulse lasts one cycle; no piece locks between a clear and its pulse; and the total is the number of
rows cleared, modulo 2^11. -/
theorem clears_scored_once (oor : OutOfRange) (playerNum : BitVec 2) (s : Tetris) (inp : ℕ → In)
    (h0 : (inp 0).reset = true) (hs : s.board.state = .play) (hg : s.logic.blockGen.InRange)
    (hr : ∀ t, 0 < t → (inp t).reset = false) (t : ℕ) (ht : 0 < t) :
    let tr := (design oor playerNum).trace s inp
    let clears := (design oor playerNum).events s inp (clearedRows oor playerNum)
    let delivered := (design oor playerNum).events s inp scorePulse
    clears t = delivered (t + 1) ++ (tr t).pending ∧
      ((tr t).board.updateScore = true → (tr (t + 1)).board.updateScore = false) ∧
      (∀ u, t < u → (tr t).clearedRows oor playerNum (inp t) ≠ none →
        (∀ v, t < v → v < u → (tr v).board.updateScore = false) →
        ((tr u).comb oor playerNum (inp u)).getNewBlock = false) ∧
      (tr t).board.totalNumRows = BitVec.ofNat 11 (clears t).sum := by
  intro tr clears delivered
  refine ⟨?_, fun hpulse => ?_, fun u htu hc hno => ?_, totalNumRows_trace oor playerNum s inp h0 hs hg hr t ht⟩
  · -- pulses and clears balance, but for the clear that is still going on
    have hbal : clears t = delivered t ++ (tr t).owed := clears_balance oor playerNum s inp h0 hs hr t
    rw [hbal, owed_eq (tr t) (inp t), ← List.append_assoc]
    rfl
  · have hscore : (tr t).board.state = .score := by simpa [Board.updateScore] using hpulse
    have hnext : (tr (t + 1)).board.state = .play := by
      show ((tr t).next oor playerNum (inp t)).board.state = .play
      rw [next_state (hr t ht), Board.nextState, hscore]
    unfold Board.updateScore
    rw [hnext]; rfl
  · have hbusy := boardBusy_until_pulse oor playerNum s inp h0 hs hr htu hc hno
    refine Bool.eq_false_iff.2 fun hl => ?_
    rw [getNewBlock_iff, stay_of_busy hbusy] at hl
    cases hl

/-- In untroubled play nothing is cleared. -/
theorem SmoothRun.clears {inp : ℕ → In} {t : ℕ} (h : SmoothRun oor playerNum inp t) :
    (design oor playerNum).events powerUp inp (clearedRows oor playerNum) t = [] := by
  refine (design oor playerNum).events_of_none powerUp inp (Nat.zero_le t) fun u _ hut => ?_
  rcases Nat.eq_zero_or_pos u with rfl | hu
  · exact (reset_cycle oor playerNum powerUp inp h.reset rfl).2.1
  · have hlock := (h.smooth u hu hut).lock
    rw [clearedRows_eq]
    exact if_neg fun hc => (hlock hc.1).1 hc.2

/-- From its lock until the machine is back in `PLAY` the first clear is the only one. -/
theorem ClearRun.clears {P : Position} {inp : ℕ → In} {a b u : ℕ} (h : ClearRun oor playerNum P inp a b) (hau : a < u)
    (hub : u ≤ b + 2) :
    (design oor playerNum).events powerUp inp (clearedRows oor playerNum) u = [(fullRows P.locked).length] := by
  have hbusy : ∀ t, a + 1 ≤ t → t < u →
      ((design oor playerNum).trace powerUp inp t).clearedRows oor playerNum (inp t) = none := fun t h1 h2 =>
    clearedRows_of_busy (h.clearing t h1 (by omega)).boardBusy
  have hlock : ((design oor playerNum).trace powerUp inp a).clearedRows oor playerNum (inp a) =
      some (fullRows P.locked).length := by
    rw [clearedRows_eq, h.edge.board]
    exact if_pos ⟨by rw [h.lock]; rfl, h.full⟩
  rw [Design.events_of_none _ _ _ hau hbusy, Design.events_succ, h.smooth.clears, hlock]
  rfl

theorem ClearRun.owed_play {P : Position} {inp : ℕ → In} {a b : ℕ} (h : ClearRun oor playerNum P inp a b) :
    ((design oor playerNum).trace powerUp inp (b + 2)).owed = [] := by
  unfold owed Board.boardBusy
  rw [h.play]
  rfl

/-- One row is cleared in the first clear, and the pulse of its last cycle delivers the count. -/
theorem clears_scored_once_third :
    let d := design someReads 1
    ∃ inp t, (d.trace powerUp inp t).board.updateScore = true ∧
      d.events powerUp inp (clearedRows someReads 1) t = [1] ∧ d.events powerUp inp scorePulse (t + 1) = [1] ∧
      (d.trace powerUp inp (t + 1)).board.updateScore = false := by
  intro d
  obtain ⟨inp, a, b, h⟩ := exists_thirdClear
  have hpulse : (d.trace powerUp inp (b + 1)).board.updateScore = true := by
    unfold Board.updateScore
    rw [h.score]
    rfl
  have hclears : d.events powerUp inp (clearedRows someReads 1) (b + 1) = [1] := by
    rw [h.clears (Nat.lt_succ_of_lt h.lt) (Nat.le_succ _), length_fullRows_third]
  have hpending : (d.trace powerUp inp (b + 1)).pending = [] := by
    unfold pending
    rw [h.score]
    rfl
  obtain ⟨hscored, hend, -, -⟩ :=
    clears_scored_once someReads 1 powerUp inp h.smooth.reset rfl (by decide) h.smooth.run (b + 1) (Nat.succ_pos b)
  rw [hclears, hpending, List.append_nil] at hscored
  exact ⟨inp, b + 1, hpulse, hclears, hscored.symm, hend hpulse⟩

end Tetris

end FpgaTetris
