/-
Gravity. Whatever keys are pressed, a piece locks after a bounded number of frames, not counting those
in which it is moved sideways or turned: a measure of the frames left falls at every other frame edge.
-/
import FpgaTetris.Board.ClearPhase
import FpgaTetris.Game.Play
import FpgaTetris.Input.Presses
import FpgaTetris.Lib.Progress

namespace FpgaTetris

/-! ## Frames left to the board -/

namespace Board

variable {s : Board} {i : In}

/-- Frame edges until the machine is back in `PLAY`, at most, whatever state a reset left it in. -/
def framesBusy (s : Board) : ℕ :=
  match s.state with
  | .clear => 9 * (fullRows s.boardArr).length + (clearFrames - s.clearCounter).toNat + 3
  | .drop => 2
  | .score => 1
  | _ => 0

theorem framesBusy_clear (hs : s.state = .clear) :
    framesBusy s = 9 * (fullRows s.boardArr).length + (clearFrames - s.clearCounter).toNat + 3 := by
  rw [framesBusy, hs]

theorem framesBusy_drop (hs : s.state = .drop) : framesBusy s = 2 := by rw [framesBusy, hs]

theorem framesBusy_score (hs : s.state = .score) : framesBusy s = 1 := by rw [framesBusy, hs]

theorem framesBusy_play (hs : s.state = .play) : framesBusy s = 0 := by rw [framesBusy, hs]

theorem framesBusy_le (s : Board) : framesBusy s ≤ 190 := by
  unfold framesBusy
  have hrows := length_fullRows_le s.boardArr
  have hcount := (clearFrames - s.clearCounter).isLt
  have hsize : ySize = 20 := rfl
  split <;> omega

theorem framesBusy_lt (hs : s.state ≠ .clear) : framesBusy s < 3 := by
  unfold framesBusy
  cases h : s.state with
  | clear => exact absurd h hs
  | _ => simp

/-- An erase takes a full row away. -/
theorem length_fullRows_of_erase (oor : OutOfRange) (hi : i.reset = false) (hs : s.state = .clear) (he : s.erases i) :
    (fullRows (s.next oor i).boardArr).length < (fullRows s.boardArr).length := by
  obtain ⟨y, -, hy, -, -, harr⟩ := Clearing.erase_boardArr oor hi hs eraseFrom_ySize.symm he
  have hsplit := length_fullRows_eraseFrom (b := s.boardArr) (c := y)
  have hmem : y ∈ fullRowsFrom s.boardArr y := List.mem_filter.2 ⟨mem_fullRows.2 hy, by simp⟩
  have hpos := List.length_pos_of_mem hmem
  rw [harr]
  omega

/-- In `CLEAR` a frame edge brings the end nearer, with or without a row to erase. -/
theorem framesBusy_of_clear (oor : OutOfRange) (hi : i.reset = false) (hs : s.state = .clear) :
    framesBusy (s.next oor i) ≤ framesBusy s ∧
      (i.frameClkRisingEdge = true → framesBusy (s.next oor i) < framesBusy s) := by
  have hlt : (s.next oor i).state ≠ .clear → framesBusy (s.next oor i) < framesBusy s := fun hne => by
    have := framesBusy_lt hne
    rw [framesBusy_clear hs]
    omega
  -- an erase takes a row away, which outweighs the counter that starts again
  by_cases he : s.erases i
  · have hrows := length_fullRows_of_erase oor hi hs he
    have hfall : framesBusy (s.next oor i) < framesBusy s := by
      by_cases hs' : (s.next oor i).state = .clear
      · have hcount : (s.next oor i).clearCounter = 0 := by
          rw [next_clearCounter hi, clearCounterIn, hs]
          exact if_pos he
        rw [framesBusy_clear hs, framesBusy_clear hs', hcount]
        have : (clearFrames - 0).toNat = 3 := rfl
        omega
      · exact hlt hs'
    exact ⟨le_of_lt hfall, fun _ => hfall⟩
  have harr : (s.next oor i).boardArr = s.boardArr := by
    rw [next_boardArr hi, boardIn, hs]
    exact if_neg he
  have hcount : (s.next oor i).clearCounter = if i.frameClkRisingEdge then s.clearCounter + 1 else s.clearCounter := by
    rw [next_clearCounter hi, clearCounterIn, hs]
    exact if_neg he
  -- the machine may come here after a reset with no row to erase: it counts the same edges
  by_cases hedge : i.frameClkRisingEdge = true
  · suffices framesBusy (s.next oor i) < framesBusy s from ⟨le_of_lt this, fun _ => this⟩
    by_cases hthree : s.clearCounter = clearFrames
    · -- with no row to erase the machine leaves
      have hnone : (scan s.boardArr).canClearRow = false := Bool.eq_false_iff.2 fun hc => he ⟨hedge, hthree, hc⟩
      have hzero : (scan s.boardArr).numRows = 0 := by
        rw [← BitVec.toNat_inj, numRows_toNat]
        have hno := mt (canClearRow_iff s.boardArr).2 (by rw [hnone]; exact Bool.false_ne_true)
        exact List.length_eq_zero_iff.2 (List.eq_nil_iff_forall_not_mem.2 fun y hy => hno ⟨y, mem_fullRows.1 hy⟩)
      refine hlt ?_
      rw [next_state hi, nextState, hs]
      simp [hedge, hthree, hzero]
    · have hs' : (s.next oor i).state = .clear := by
        rw [next_state hi, nextState, hs]
        exact if_neg fun hc => hthree hc.2
      rw [framesBusy_clear hs, framesBusy_clear hs', harr, hcount, if_pos hedge]
      have hne : s.clearCounter.toNat ≠ 3 := fun h => hthree (BitVec.eq_of_toNat_eq h)
      have hsub : (clearFrames - (s.clearCounter + 1)).toNat < (clearFrames - s.clearCounter).toNat := by
        show ((3 : BitVec 3) - (s.clearCounter + 1)).toNat < ((3 : BitVec 3) - s.clearCounter).toNat
        bv_omega
      omega
  · refine ⟨?_, fun h => absurd h hedge⟩
    have hs' : (s.next oor i).state = .clear := by
      rw [next_state hi, nextState, hs]
      exact if_neg fun hc => hedge hc.1
    rw [framesBusy_clear hs, framesBusy_clear hs', harr, hcount, if_neg hedge]

/-- While the board is busy no cycle adds to the frames left, and a frame edge takes one away. -/
theorem framesBusy_next (oor : OutOfRange) (hi : i.reset = false) (hb : s.boardBusy = true) :
    framesBusy (s.next oor i) ≤ framesBusy s ∧
      (i.frameClkRisingEdge = true → framesBusy (s.next oor i) < framesBusy s) := by
  rcases boardBusy_iff.1 hb with hs | hs | hs
  · exact framesBusy_of_clear oor hi hs
  · have hnext : (s.next oor i).state = if i.frameClkRisingEdge then .score else .drop := by
      rw [next_state hi, nextState, hs]
    rw [framesBusy_drop hs]
    by_cases hedge : i.frameClkRisingEdge = true
    · rw [if_pos hedge] at hnext
      rw [framesBusy_score hnext]
      exact ⟨by decide, fun _ => by decide⟩
    · rw [if_neg hedge] at hnext
      rw [framesBusy_drop hnext]
      exact ⟨le_rfl, fun h => absurd h hedge⟩
  · have hnext : (s.next oor i).state = .play := by rw [next_state hi, nextState, hs]
    rw [framesBusy_score hs, framesBusy_play hnext]
    exact ⟨by decide, fun _ => by decide⟩

end Board

/-! ## How far a piece has come down -/

/-- The row of a piece, seen from that of its shape at the top. -/
def rowOf (oor : OutOfRange) (c : BlockColor) (o : Orientation) (y : Quad) : BitVec 5 := y.c1 - (shape oor c o).2.c1

theorem rowOf_shape (oor : OutOfRange) (c : BlockColor) (o : Orientation) (b : BitVec 5) :
    rowOf oor c o ((shape oor c o).2.map (· + b)) = b := add_sub_cancel_left ..

/-- Of all moves only the one down changes it. -/
theorem Formed.rowOf_apply {oor : OutOfRange} {c : BlockColor} {o : Orientation} {x y : Quad}
    (h : Formed oor c o x y) (hc : c ≠ .empty) (m : Move) :
    rowOf oor c (m.turn o) (m.apply c o x y).2 = rowOf oor c o y + if m = .down then 1 else 0 := by
  obtain ⟨a, b, rfl, rfl⟩ := h
  rw [rowOf_shape]
  unfold Move.apply
  cases m with
  | left => exact (rowOf_shape ..).trans (add_zero b).symm
  | right => exact (rowOf_shape ..).trans (add_zero b).symm
  | down =>
    show (shape oor c o).2.c1 + b + 1 - (shape oor c o).2.c1 = b + 1
    rw [add_assoc]
    exact add_sub_cancel_left ..
  | rotateLeft =>
    dsimp only
    rw [rotate_translate hc, rotate_shape oor hc]
    exact (rowOf_shape ..).trans (add_zero b).symm
  | rotateRight =>
    dsimp only
    rw [rotate_translate hc, rotate_shape oor hc]
    exact (rowOf_shape ..).trans (add_zero b).symm

theorem shape_row (oor : OutOfRange) {c : BlockColor} (hc : c ≠ .empty) (o : Orientation) :
    (shape oor c o).2.c1 = 31 ∨ (shape oor c o).2.c1 ≤ 2 := by
  rw [shape_congr oor someReads hc]
  cases c
  case empty => exact absurd rfl hc
  all_goals cases o <;> decide

/-- Inside the board a piece does not get to row 21. -/
theorem rowOf_ne {oor : OutOfRange} {c : BlockColor} {o : Orientation} {y : Quad} (hc : c ≠ .empty)
    (hin : y.c1.toNat < ySize) : rowOf oor c o y ≠ 21 := by
  intro hrow
  have hy : y.c1 = 21 + (shape oor c o).2.c1 := by
    rw [← hrow]
    exact (sub_add_cancel ..).symm
  have hsize : ySize = 20 := rfl
  rw [hy] at hin
  rcases shape_row oor hc o with hs | hs
  · rw [hs] at hin
    exact absurd hin (by decide)
  · bv_omega

namespace BlockLogic

variable {oor : OutOfRange} {r : BlockLogic} {i : In}

def depth (oor : OutOfRange) (r : BlockLogic) : BitVec 5 := rowOf oor r.block r.curOrientation r.yBlock

theorem Loaded.depth {idx : BitVec 3} (h : Loaded oor idx r) (hi : idx ≤ 6) : r.depth oor = 0 := by
  have hspawn : (shape oor r.block r.curOrientation).2 = r.yBlock := by
    rw [h.orientation, h.block, h.y]
    exact congrArg Prod.snd (spawn_choices oor hi)
  unfold BlockLogic.depth rowOf
  rw [hspawn]
  exact sub_self _

/-- Frames until the piece in play locks, at most, if it is neither moved sideways nor turned: a piece
waits less than 64 frames in every row, and the player can hold one piece. -/
def framesLeft (oor : OutOfRange) (r : BlockLogic) : ℕ :=
  (if r.isBlockSwitched then 0 else 1344) + 64 * (20 - (r.depth oor).toNat) + (63 - r.downCounter.toNat)

theorem framesLeft_le (r : BlockLogic) : r.framesLeft oor ≤ 2687 := by
  unfold framesLeft
  split <;> omega

/-- At a frame edge with a free board something happens: gravity is due, or the frame is counted. -/
theorem branch_of_edge (playerNum : BitVec 2) (hi : i.reset = false) (hb : i.boardBusy = false)
    (he : r.frameClkRisingEdge = true) :
    branch playerNum r i ≠ .idle ∧ ((branch playerNum r i).effect = .stay →
      r.downCounter < i.levelSpeed ∧ (branch playerNum r i).count r.downCounter = r.downCounter + 1) := by
  unfold branch
  generalize keys playerNum i.keycode = k
  dsimp only
  rw [if_neg (by simp [hi, hb])]
  by_cases hdue : i.levelSpeed ≤ r.downCounter
  · rw [if_pos ⟨he, hdue⟩]
    split_ifs <;> exact ⟨Branch.noConfusion, Effect.noConfusion⟩
  rw [if_neg fun h => hdue h.2, if_pos he]
  have hlt := BitVec.not_le.1 hdue
  split_ifs <;> first
    | exact ⟨Branch.noConfusion, fun _ => ⟨hlt, rfl⟩⟩
    | exact ⟨Branch.noConfusion, Effect.noConfusion⟩

/-- A move down starts the count of frames again, and the other moves leave it as it is. -/
theorem Branch.count_of_move {br : Branch} {m : Move} (c : BitVec 6) (h : br.effect = .move m) :
    br.count c = if m = .down then 0 else c := by
  cases br <;> simp only [effect, reduceCtorEq, Effect.move.injEq] at h <;> subst h <;> rfl

/-! ## Keys held over a frame -/

theorem sampled_press {playerNum : BitVec 2} {m : Move} (he : r.frameClkRisingEdge = true)
    (hk : i.keycode = press playerNum m) (m' : Move) (hm : m ≠ .down) :
    (next oor playerNum r i).sampled m' = decide (m' = m) := by
  rw [sampled_next, if_pos he, hk]
  cases m <;> cases m' <;> by_cases hp : playerNum = 1 <;> simp_all [Keys.of, press, keys]

theorem sampled_idle {playerNum : BitVec 2} (he : r.frameClkRisingEdge = false) (m : Move) :
    (next oor playerNum r i).sampled m = r.sampled m := by
  rw [sampled_next, he, if_neg Bool.false_ne_true]

/-- A key that was up at the last frame edge makes its move, if gravity is not due. -/
theorem branch_fresh {playerNum : BitVec 2} (hi : i.reset = false) (hb : i.boardBusy = false)
    (he : r.frameClkRisingEdge = true) (hlt : ¬ i.levelSpeed ≤ r.downCounter) {m : Move} (hm : m ≠ .down)
    (hr : r.sampled m = false) (hk : i.keycode = press playerNum m) (hc : i.canMove.get m = true) :
    branch playerNum r i = moveBranch m := by
  unfold branch
  rw [hk]
  cases m <;> by_cases hp : playerNum = 1 <;> simp_all [sampled, press, keys, CanMove.get, moveBranch]

end BlockLogic

namespace Tetris

variable {oor : OutOfRange} {playerNum : BitVec 2} {s : Tetris} {i : In}

/-! ## Frames left to the piece -/

/-- A frame edge at which the piece is neither moved sideways nor turned. -/
def unsteered (playerNum : BitVec 2) (oor : OutOfRange) (s : Tetris) (i : In) : Bool :=
  s.logic.frameClkRisingEdge &&
    match (s.branch oor playerNum i).effect with
    | .move m => m == .down
    | _ => true

/-- Frames until a piece locks, at most. -/
def framesLeft (oor : OutOfRange) (s : Tetris) : ℕ := s.board.framesBusy + s.logic.framesLeft oor

theorem framesLeft_le (s : Tetris) : s.framesLeft oor ≤ 2877 :=
  Nat.add_le_add s.board.framesBusy_le s.logic.framesLeft_le

/-- The invariant, and the piece not below the board. -/
structure Falling (oor : OutOfRange) (s : Tetris) : Prop where
  inv : Inv oor s
  low : s.logic.depth oor ≤ 20

theorem falling_reset (hg : s.logic.blockGen.InRange) (hi : i.reset = true) : Falling oor (s.next oor playerNum i) := by
  obtain ⟨hl, -⟩ := BlockLogic.next_reset oor playerNum s.logic (s.logicIn oor i) hi
  have hdepth : (s.next oor playerNum i).logic.depth oor = 0 := hl.depth hg.1
  exact ⟨inv_reset hg hi, by rw [hdepth]; decide⟩

/-- How far down the piece is after a cycle: new pieces start at the top, and of the moves only that
down takes it a row on. -/
theorem Inv.depth_next (playerNum : BitVec 2) (h : Inv oor s) (hi : i.reset = false) :
    (s.next oor playerNum i).logic.depth oor =
      if (s.branch oor playerNum i).effect = .lock ∨ (s.branch oor playerNum i).effect = .hold then 0
      else if (s.branch oor playerNum i).effect = .move .down then s.logic.depth oor + 1
      else s.logic.depth oor := by
  have hst := stepped oor playerNum s hi
  have hidx := h.logic.loadIdx_le playerNum (s.logicIn oor i)
  rcases he : (s.branch oor playerNum i).effect with _ | m | _ | _
  · obtain ⟨-, hy, ho⟩ := hst.stay he
    obtain ⟨hb, -⟩ := hst.keep (by simp [he]) (by simp [he])
    unfold BlockLogic.depth
    rw [hy, ho, hb]
    simp
  · obtain ⟨-, hy, ho⟩ := hst.move m he
    obtain ⟨hb, -⟩ := hst.keep (by simp [he]) (by simp [he])
    obtain ⟨sx, sy⟩ := h.logic.sync (active_of_move he).2.2
    rw [BlockLogic.target_eq sx sy] at hy
    unfold BlockLogic.depth
    rw [hy, ho, hb, h.formed.rowOf_apply h.logic.color m]
    by_cases hm : m = .down <;> simp [hm]
  · rw [(hst.load (.inl he)).1.depth hidx]
    simp
  · rw [(hst.load (.inr he)).1.depth hidx]
    simp

theorem Falling.next (playerNum : BitVec 2) (h : Falling oor s) (i : In) : Falling oor (s.next oor playerNum i) := by
  cases hi : i.reset with
  | true => exact falling_reset h.inv.logic.gen hi
  | false =>
    have hinv : Inv oor (s.next oor playerNum i) := h.inv.next i
    have hne : (s.next oor playerNum i).logic.depth oor ≠ 21 :=
      rowOf_ne hinv.logic.color (hinv.piece _ (List.mem_cons_self ..)).2
    have hlow := h.low
    refine ⟨hinv, ?_⟩
    rw [h.inv.depth_next playerNum hi] at hne ⊢
    split_ifs at hne ⊢ <;> bv_omega

theorem falling_keeps : (design oor playerNum).Keeps (fun s i => i.reset = true ∧ s.logic.blockGen.InRange)
    (fun _ => True) (Falling oor) :=
  ⟨fun _ _ h => falling_reset h.2 h.1, fun _ i _ h => h.next playerNum i⟩

variable (oor playerNum s) in
theorem downCounter_next (hi : i.reset = false) :
    (s.next oor playerNum i).logic.downCounter = (s.branch oor playerNum i).count s.logic.downCounter := by
  rw [(stepped oor playerNum s hi).counters.1, BlockLogic.assign_downCounterIn]

/-- While the board is free the piece's own frames are used up. -/
theorem Falling.framesLeft_logic (h : Falling oor s) (hi : i.reset = false) (hb : s.board.boardBusy = false)
    (hl : (s.branch oor playerNum i).effect ≠ .lock) :
    (s.next oor playerNum i).logic.framesLeft oor ≤ s.logic.framesLeft oor ∧
      (unsteered playerNum oor s i = true →
        (s.next oor playerNum i).logic.framesLeft oor < s.logic.framesLeft oor) := by
  have hst := stepped oor playerNum s hi
  have hdepth := h.inv.depth_next playerNum hi
  have hcount := downCounter_next oor playerNum s hi
  have hlow := (h.next playerNum i).low
  have hc := s.logic.downCounter.isLt
  unfold unsteered BlockLogic.framesLeft
  rcases he : (s.branch oor playerNum i).effect with _ | m | _ | _
  · -- nothing happens, and a frame is counted
    have hswitched := hst.switched (by simp [he])
    rw [if_neg hl] at hswitched
    rw [if_neg (by simp [he]), if_neg (by simp [he])] at hdepth
    rw [hswitched, hdepth, hcount]
    by_cases hedge : s.logic.frameClkRisingEdge = true
    · obtain ⟨-, hstay⟩ := BlockLogic.branch_of_edge playerNum (i := s.logicIn oor i) hi hb hedge
      obtain ⟨hlt, hinc⟩ := hstay he
      have hinc' : (s.branch oor playerNum i).count s.logic.downCounter = s.logic.downCounter + 1 := hinc
      -- the counter stays below the level speed, so it does not wrap
      have hup : (s.logic.downCounter + 1).toNat = s.logic.downCounter.toNat + 1 := by bv_omega
      rw [hinc', hup]
      have := (s.logic.downCounter + 1).isLt
      omega
    · rw [stay_of_noEdge oor playerNum i (Bool.eq_false_of_not_eq_true hedge)]
      exact ⟨le_rfl, fun hu => absurd (by simpa using hu) hedge⟩
  · have hswitched := hst.switched (by simp [he])
    rw [if_neg hl] at hswitched
    rw [if_neg (by simp [he]), he] at hdepth
    rw [hswitched, hcount, BlockLogic.Branch.count_of_move _ he]
    -- a row further down pays for the frames counted in the old one
    by_cases hm : m = .down
    · subst hm
      rw [if_pos rfl] at hdepth ⊢
      have hrow : (s.logic.depth oor + 1).toNat = (s.logic.depth oor).toNat + 1 := by
        have := h.low
        bv_omega
      have hle : (s.logic.depth oor).toNat + 1 ≤ 20 := by
        rw [hdepth] at hlow
        exact hrow ▸ hlow
      rw [hdepth, hrow]
      have : (0 : BitVec 6).toNat = 0 := rfl
      omega
    · rw [if_neg (by simpa using hm)] at hdepth
      rw [if_neg hm, hdepth]
      exact ⟨le_rfl, fun hu => absurd (Bool.and_eq_true_iff.1 hu).2 (by simpa using hm)⟩
  · exact absurd he hl
  · -- a hold is the only one for this piece
    obtain ⟨hload, -⟩ := hst.load (.inr he)
    have hfirst : s.logic.isBlockSwitched = false := BlockLogic.not_switched_of_hold he
    rw [if_pos (.inr he)] at hdepth
    rw [(hst.held he).2.2, hfirst, hload.down, hdepth]
    simp only [if_true, Bool.false_eq_true, if_false]
    omega

/-- In a cycle without a lock the frames left do not grow, and an unsteered frame takes one away. -/
theorem Falling.framesLeft_next (h : Falling oor s) (hi : i.reset = false)
    (hl : (s.branch oor playerNum i).effect ≠ .lock) :
    framesLeft oor (s.next oor playerNum i) ≤ framesLeft oor s ∧
      (unsteered playerNum oor s i = true → framesLeft oor (s.next oor playerNum i) < framesLeft oor s) := by
  unfold framesLeft
  by_cases hb : s.board.boardBusy = true
  · obtain ⟨hle, hlt⟩ := Board.framesBusy_next oor (i := s.boardIn oor playerNum i) hi hb
    -- the frames of the piece stand still, those of the machine run down
    have hlogic : (s.next oor playerNum i).logic.framesLeft oor = s.logic.framesLeft oor := by
      have hidle : s.branch oor playerNum i = .idle := stay_of_busy hb
      have hdepth := h.inv.depth_next playerNum hi
      have hcount := downCounter_next oor playerNum s hi
      have hswitched := (stepped oor playerNum s hi).switched (by simp [hidle])
      rw [hidle] at hdepth hcount hswitched
      unfold BlockLogic.framesLeft
      rw [hdepth, hcount, hswitched]
      simp [BlockLogic.Branch.count]
    rw [hlogic, next_board]
    refine ⟨Nat.add_le_add_right hle _, fun hu => Nat.add_lt_add_right (hlt ?_) _⟩
    exact (Bool.and_eq_true_iff.1 hu).1
  · -- without a lock the machine stays in `PLAY`, so it has no frames of its own
    have hfree := Bool.eq_false_of_not_eq_true hb
    obtain ⟨hle, hlt⟩ := h.framesLeft_logic hi hfree hl
    have hplay : (s.next oor playerNum i).board.state = .play := by
      rcases Board.play_or_other hfree with hs | hs
      · exact play_next oor playerNum hi hs hl
      · rw [next_state hi, Board.nextState, hs]
    rw [Board.framesBusy_play hplay]
    exact ⟨by omega, fun hu => by have := hlt hu; omega⟩

/-! ## Streams of frames -/

/-- Frame after frame, with keys `k n` in frame `n`. -/
def frames (k : ℕ → BitVec 32) (t : ℕ) : In := ⟨false, t % 3 = 0, k (t / 3)⟩

section Frames

variable (k : ℕ → BitVec 32) (n : ℕ)

theorem frames_rise : frames k (3 * n) = ⟨false, true, k n⟩ := by
  have hn : 3 * n / 3 = n := by omega
  simp [frames, hn]

theorem frames_act : frames k (3 * n + 1) = ⟨false, false, k n⟩ := by
  have hmod : (3 * n + 1) % 3 = 1 := by omega
  have hn : (3 * n + 1) / 3 = n := by omega
  simp [frames, hmod, hn]

theorem frames_rest : frames k (3 * n + 2) = ⟨false, false, k n⟩ := by
  have hmod : (3 * n + 2) % 3 = 2 := by omega
  have hn : (3 * n + 2) / 3 = n := by omega
  simp [frames, hmod, hn]

variable (oor playerNum s)

theorem trace_frames_act :
    (design oor playerNum).trace s (frames k) (3 * n + 1) =
      ((design oor playerNum).trace s (frames k) (3 * n)).next oor playerNum ⟨false, true, k n⟩ := by
  rw [Sync.Design.trace_succ, frames_rise]
  rfl

theorem trace_frames_rest :
    (design oor playerNum).trace s (frames k) (3 * n + 2) =
      ((design oor playerNum).trace s (frames k) (3 * n + 1)).next oor playerNum ⟨false, false, k n⟩ := by
  rw [Sync.Design.trace_succ, frames_act]
  rfl

theorem trace_frames :
    (design oor playerNum).trace s (frames k) (3 * (n + 1)) =
      ((design oor playerNum).trace s (frames k) (3 * n)).frame oor playerNum (k n) := by
  show (design oor playerNum).trace s (frames k) (3 * n + 2 + 1) = _
  rw [Sync.Design.trace_succ, frames_rest, trace_frames_rest, trace_frames_act]
  rfl

end Frames

/-! ### Frames without a key -/

/-- Without a key every frame is unsteered. -/
theorem unsteered_noKey (f : Bool) : unsteered playerNum oor s ⟨false, f, 0⟩ = s.logic.frameClkRisingEdge := by
  unfold unsteered branch
  cases he : s.logic.frameClkRisingEdge with
  | false => rfl
  | true =>
    by_cases hb : s.board.boardBusy = true
    · rw [BlockLogic.branch_eq_idle (.inr (.inl hb))]
      rfl
    · rw [BlockLogic.branch_noKey rfl (Bool.eq_false_of_not_eq_true hb) he rfl]
      split_ifs <;> rfl

/-- A frame each gives at least as many unsteered frames. -/
theorem le_ticks_frames (oor : OutOfRange) (playerNum : BitVec 2) (s : Tetris) (hlow : s.logic.frameClkDelayed = false)
    (n : ℕ) : n ≤ (design oor playerNum).ticks s (frames fun _ => 0) (unsteered playerNum oor) (3 * n) := by
  induction n with
  | zero => exact Nat.zero_le _
  | succ n ih =>
    have hdelayed : ((design oor playerNum).trace s (frames fun _ => 0) (3 * n)).logic.frameClkDelayed = false := by
      cases n with
      | zero => exact hlow
      | succ n => rw [trace_frames]; rfl
    -- the frame clock was low at the end of the frame before
    have hedge : ((design oor playerNum).trace s (frames fun _ => 0) (3 * n + 1)).logic.frameClkRisingEdge = true := by
      rw [trace_frames_act]
      show (true && !_) = true
      rw [hdelayed]
      rfl
    show n + 1 ≤ (design oor playerNum).ticks s _ _ (3 * n + 1 + 1 + 1)
    rw [Sync.Design.ticks_succ, Sync.Design.ticks_succ, Sync.Design.ticks_succ, frames_act, unsteered_noKey, hedge]
    simp only [if_true]
    omega

/-! ## Deadlines -/

/-- Whatever keys are pressed, among any 2878 frames in which the piece is neither moved sideways nor
turned there is one at which it locks. -/
theorem locks_in_time (oor : OutOfRange) (playerNum : BitVec 2) (s : Tetris) (inp : ℕ → In)
    (h0 : (inp 0).reset = true) (hg : s.logic.blockGen.InRange) {a b : ℕ} (ha : 0 < a) (hab : a ≤ b)
    (hr : ∀ t, a ≤ t → t < b → (inp t).reset = false)
    (hticks : (design oor playerNum).ticks s inp (unsteered playerNum oor) a + 2877 <
      (design oor playerNum).ticks s inp (unsteered playerNum oor) b) :
    ∃ t, a ≤ t ∧ t < b ∧
      (((design oor playerNum).trace s inp t).comb oor playerNum (inp t)).getNewBlock = true := by
  have hfall : ∀ t, 0 < t → Falling oor ((design oor playerNum).trace s inp t) :=
    falling_keeps.trace ⟨h0, hg⟩ fun _ _ => trivial
  refine Sync.Design.exists_event_of_ticks (fun s i => (s.comb oor playerNum i).getNewBlock = true)
    (framesLeft oor) hab ?_ (lt_of_le_of_lt ?_ hticks)
  · intro t hat htb hno
    exact (hfall t (lt_of_lt_of_le ha hat)).framesLeft_next (hr t hat htb) fun hl => hno (getNewBlock_iff.2 hl)
  · exact Nat.add_le_add_left (framesLeft_le _) _

/-- A reset, then frame after frame without a key. -/
def noKeys : ℕ → In := Sync.Design.cons ⟨true, false, 0⟩ (frames fun _ => 0)

theorem le_ticks_noKeys (n : ℕ) :
    n ≤ (design oor playerNum).ticks s noKeys (unsteered playerNum oor) (3 * n + 1) := by
  have hsum : (design oor playerNum).ticks s noKeys (unsteered playerNum oor) (3 * n + 1) = _ :=
    Sync.Design.ticks_cons (⟨true, false, 0⟩ : In) (3 * n)
  rw [hsum]
  exact le_trans (le_ticks_frames oor playerNum (s.next oor playerNum ⟨true, false, 0⟩) rfl n) (Nat.le_add_left _ _)

/-- After power-up, without a key, the first piece locks. -/
theorem locks_in_time_noKeys :
    ∃ t, 1 ≤ t ∧ t < 3 * 2878 + 1 ∧
      (((design someReads 1).trace powerUp noKeys t).comb someReads 1 (noKeys t)).getNewBlock = true := by
  refine locks_in_time someReads 1 powerUp noKeys rfl (by decide) Nat.one_pos (Nat.le_add_left _ _)
    (fun t ht _ => ?_) ?_
  · cases t with
    | zero => cases ht
    | succ t => rfl
  · have hfew : (design someReads 1).ticks powerUp noKeys (unsteered 1 someReads) 1 = 0 :=
      Sync.Design.ticks_cons (⟨true, false, 0⟩ : In) 0
    rw [hfew]
    exact lt_of_lt_of_le (by omega) (le_ticks_noKeys 2878)

/-! ## Steering for ever -/

section Steering

variable {P : Position} {m m' : Move}

/-- A frame with the key of a legal move, if it was up in the last one and gravity is not due, makes the
move, and gravity does not come nearer. -/
theorem Shows.steer (playerNum : BitVec 2) (h : Shows oor P s) (hm : m ≠ .down) (hc : ¬ 60 ≤ s.logic.downCounter)
    (hold : s.logic.sampled m = false) (hl : (P.move m).Legal) :
    let k := BlockLogic.press playerNum m
    let n := s.frame oor playerNum k
    s.frameBranch oor playerNum k = BlockLogic.moveBranch m ∧ Shows oor (P.move m) n ∧
      n.logic.downCounter = s.logic.downCounter ∧ ∀ m', n.logic.sampled m' = decide (m' = m) := by
  intro k n
  have hedge := h.rise playerNum k
  have hd := (next_logic_idle oor playerNum h.noEdge (i := ⟨false, true, k⟩) rfl).1
  have hold' : (s.next oor playerNum ⟨false, true, k⟩).logic.sampled m = false :=
    (BlockLogic.sampled_idle h.noEdge m).trans hold
  have hbr : s.frameBranch oor playerNum k = BlockLogic.moveBranch m := by
    refine BlockLogic.branch_fresh rfl hedge.boardBusy hedge.edge ?_ hm hold' rfl ((hedge.canMove_iff m).2 hl)
    show ¬ (s.next oor playerNum ⟨false, true, k⟩).board.levelSpeed ≤ _
    rw [hedge.level, hd]
    exact hc
  -- the move is made at the edge, and the board catches up in the third cycle
  have hQ : Leads P (s.frameBranch oor playerNum k) (P.move m) := by
    rw [hbr]
    exact .move (BlockLogic.effect_moveBranch m)
  obtain ⟨hcount, -, -⟩ := h.frame_logic oor playerNum hQ
  refine ⟨hbr, h.frame hQ hl, ?_, fun m' => ?_⟩
  · rw [hcount, hbr]
    cases m <;> first | rfl | exact absurd rfl hm
  · have hpress : ((s.next oor playerNum ⟨false, true, k⟩).logicIn oor ⟨false, false, k⟩).keycode =
        BlockLogic.press playerNum m := rfl
    refine (BlockLogic.sampled_idle (hedge.inv.noEdge_next hedge.edge) m').trans ?_
    exact BlockLogic.sampled_press hedge.edge hpress m' hm

section Float

variable {Q : ℕ → Position} {key : ℕ → Move} (playerNum : BitVec 2) (hs : Shows oor (Q 0) s)
  (hc : ¬ 60 ≤ s.logic.downCounter) (hold : s.logic.sampled (key 0) = false)
  (hQ : ∀ n, Q (n + 1) = (Q n).move (key n)) (hlegal : ∀ n, (Q n).Legal) (hkey : ∀ n, key n ≠ .down)
  (hne : ∀ n, key (n + 1) ≠ key n)

include hs hc hold hQ hlegal hkey hne

/-- Before each frame its key is up, since the one before was another. -/
theorem shows_frames (n : ℕ) :
    let tr := (design oor playerNum).trace s (frames fun n => BlockLogic.press playerNum (key n))
    Shows oor (Q n) (tr (3 * n)) ∧ ¬ 60 ≤ (tr (3 * n)).logic.downCounter ∧
      (tr (3 * n)).logic.sampled (key n) = false := by
  intro tr
  induction n with
  | zero => exact ⟨hs, hc, hold⟩
  | succ n ih =>
    obtain ⟨hshows, hcount, hfresh⟩ := ih
    obtain ⟨-, hshows', hcount', hold'⟩ := hshows.steer playerNum (hkey n) hcount hfresh (hQ n ▸ hlegal (n + 1))
    rw [show tr (3 * (n + 1)) = _ from trace_frames oor playerNum s _ n, hQ, hcount', hold']
    exact ⟨hshows', hcount, decide_eq_false (hne n)⟩

/-- The second cycle of a frame makes the move, and in the others there is no frame edge. -/
theorem branch_frames (t : ℕ) :
    let inp := frames fun n => BlockLogic.press playerNum (key n)
    let tr := (design oor playerNum).trace s inp
    (tr t).branch oor playerNum (inp t) = .idle ∨
      ∃ m, m ≠ .down ∧ (tr t).branch oor playerNum (inp t) = BlockLogic.moveBranch m := by
  intro inp tr
  obtain ⟨n, ht⟩ : ∃ n, t = 3 * n ∨ t = 3 * n + 1 ∨ t = 3 * n + 2 := ⟨t / 3, by omega⟩
  obtain ⟨hshows, hcount, hfresh⟩ := shows_frames playerNum hs hc hold hQ hlegal hkey hne n
  have hedge := hshows.rise playerNum (BlockLogic.press playerNum (key n))
  rcases ht with rfl | rfl | rfl
  · exact .inl (stay_of_noEdge oor playerNum _ hshows.noEdge)
  · obtain ⟨hbr, -⟩ := hshows.steer playerNum (hkey n) hcount hfresh (hQ n ▸ hlegal (n + 1))
    refine .inr ⟨key n, hkey n, ?_⟩
    rw [show tr (3 * n + 1) = _ from trace_frames_act oor playerNum s _ n,
      show inp (3 * n + 1) = _ from frames_act _ n]
    exact hbr
  · have hlow : (tr (3 * n + 2)).logic.frameClkRisingEdge = false := by
      rw [show tr (3 * n + 2) = _ from trace_frames_rest oor playerNum s _ n, trace_frames_act]
      exact hedge.inv.noEdge_next hedge.edge
    exact .inl (stay_of_noEdge oor playerNum _ hlow)

end Float

/-- A player can hold a piece up for ever. Along any endless path of legal sideways moves and turns that
never makes the same move twice running, one move each frame, the piece takes the path, no frame is counted
towards gravity, and the piece never locks. -/
theorem floats_forever (oor : OutOfRange) (playerNum : BitVec 2) (s : Tetris) (Q : ℕ → Position) (key : ℕ → Move)
    (hs : Shows oor (Q 0) s) (hc : ¬ 60 ≤ s.logic.downCounter) (hold : s.logic.sampled (key 0) = false)
    (hQ : ∀ n, Q (n + 1) = (Q n).move (key n)) (hlegal : ∀ n, (Q n).Legal) (hkey : ∀ n, key n ≠ .down)
    (hne : ∀ n, key (n + 1) ≠ key n) :
    let inp := frames fun n => BlockLogic.press playerNum (key n)
    let tr := (design oor playerNum).trace s inp
    (∀ n, Shows oor (Q n) (tr (3 * n)) ∧ (tr (3 * n + 1)).logic.frameClkRisingEdge = true) ∧
      (∀ t, (tr t).logic.downCounter = s.logic.downCounter) ∧
      ∀ t, ((tr t).comb oor playerNum (inp t)).getNewBlock = false := by
  intro inp tr
  have hrun := shows_frames playerNum hs hc hold hQ hlegal hkey hne
  have hbranch := branch_frames playerNum hs hc hold hQ hlegal hkey hne
  refine ⟨fun n => ⟨(hrun n).1, ?_⟩, fun t => ?_, fun t => ?_⟩
  · rw [show tr (3 * n + 1) = _ from trace_frames_act oor playerNum s _ n]
    exact ((hrun n).1.rise playerNum _).edge
  · induction t with
    | zero => rfl
    | succ t ih =>
      -- neither a cycle without an edge nor a move to the side or a turn counts
      have hstep := downCounter_next oor playerNum (tr t) (i := inp t) rfl
      refine hstep.trans (Eq.trans ?_ ih)
      rcases hbranch t with hb | ⟨m, hm, hb⟩
      · rw [show (tr t).branch oor playerNum (inp t) = _ from hb]
        rfl
      · rw [show (tr t).branch oor playerNum (inp t) = _ from hb,
          BlockLogic.Branch.count_of_move _ (BlockLogic.effect_moveBranch m), if_neg hm]
  · refine Bool.eq_false_iff.2 fun hget => ?_
    have hlock : ((tr t).branch oor playerNum (inp t)).effect = .lock := getNewBlock_iff.1 hget
    rcases hbranch t with hb | ⟨m, -, hb⟩
    · rw [show (tr t).branch oor playerNum (inp t) = _ from hb] at hlock
      cases hlock
    · rw [show (tr t).branch oor playerNum (inp t) = _ from hb, BlockLogic.effect_moveBranch] at hlock
      cases hlock

/-- To the right and back. -/
def shuffle (n : ℕ) : Move := if n % 2 = 0 then .right else .left

/-- Where the first piece is before frame `n`, if it is shuffled. -/
def shuffled (n : ℕ) : Position :=
  if n % 2 = 0 then .spawn someReads (fun _ => .empty) 0 else (Position.spawn someReads (fun _ => .empty) 0).move .right

theorem shuffled_succ (n : ℕ) : shuffled (n + 1) = (shuffled n).move (shuffle n) := by
  unfold shuffled shuffle
  rcases Nat.mod_two_eq_zero_or_one n with h | h
  · rw [if_neg (by omega), if_pos h, if_pos h]
  · rw [if_pos (by omega), if_neg (by omega), if_neg (by omega)]
    rfl

theorem shuffled_legal (n : ℕ) : (shuffled n).Legal := by
  unfold shuffled
  split <;> decide +kernel

/-- The first piece, shuffled, is still at the top after a million frames, none of them counted. -/
theorem floats_forever_shuffled :
    let s := (powerUp.next someReads 1 ⟨true, false, 0⟩).next someReads 1 ⟨false, false, 0⟩
    let inp := frames fun n => BlockLogic.press 1 (shuffle n)
    let tr := (design someReads 1).trace s inp
    Shows someReads (.spawn someReads (fun _ => .empty) 0) (tr (3 * 1000000)) ∧
      (tr (3 * 1000000)).logic.downCounter = 0 := by
  obtain ⟨hready, hd, -⟩ := (arrives_powerUp someReads 1).ready 1 (by decide +kernel)
  have hfloat := floats_forever someReads 1 _ shuffled shuffle hready.toShows (by rw [hd]; decide) hready.released.2.1
    shuffled_succ shuffled_legal (fun n => ?_) fun n => ?_
  · exact ⟨(hfloat.1 1000000).1, (hfloat.2.1 (3 * 1000000)).trans hd⟩
  all_goals unfold shuffle
  · split <;> exact Move.noConfusion
  · rcases Nat.mod_two_eq_zero_or_one n with h | h
    · rw [if_neg (by omega), if_pos h]
      exact Move.noConfusion
    · rw [if_pos (by omega), if_neg (by omega)]
      exact Move.noConfusion

end Steering

end Tetris

end FpgaTetris
