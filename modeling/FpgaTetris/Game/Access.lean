/-
Array accesses. Every element of the board that a cycle reads or writes is inside the array, but for
the row shift: for the top rows it reads `row-num_rows_reg`, which wraps.
-/
import FpgaTetris.Game.FirstClear

namespace FpgaTetris

open Sync

namespace Board

/-! ## What a cycle accesses -/

/-- The elements of `board_arr` and `board_in` that the branch of the state machine reads or
writes. -/
def accesses (s : Board) (i : In) : List Pos :=
  match s.state with
  | .play => eraseCells i ++ cells i.xBlock i.yBlock
  | .clear => if s.erases i then clearCells (scan s.boardArr).clearY else []
  | .drop => if i.frameClkRisingEdge then dropCells ++ dropCells.map s.dropSource else []
  | .score => []
  | .other => []

variable {s : Board} {i : In}

theorem inBoard_of_mem_clearCells {p : Pos} {y : BitVec 5} (hp : p ∈ clearCells y) (hy : y.toNat < ySize) :
    InBoard p := by
  simp only [clearCells, colIndices, List.mem_map, List.mem_range] at hp
  obtain ⟨_, ⟨x, hx, rfl⟩, rfl⟩ := hp
  exact ⟨by rw [BitVec.toNat_ofNat, Nat.mod_eq_of_lt (lt_trans hx (by decide))]; exact hx, hy⟩

theorem mem_dropCells_iff {p : Pos} : p ∈ dropCells ↔ InBoard p := by
  constructor
  · intro hp
    obtain ⟨y, hy, hp⟩ := List.mem_flatMap.1 hp
    simp only [rowIndicesDown, List.mem_map, List.mem_reverse, List.mem_range] at hy
    obtain ⟨y, hy, rfl⟩ := hy
    refine inBoard_of_mem_clearCells hp ?_
    rw [BitVec.toNat_ofNat, Nat.mod_eq_of_lt (lt_trans hy (by decide))]
    exact hy
  · intro hp
    obtain ⟨c, rfl⟩ := inBoard_iff.1 hp
    exact mem_dropCells c

/-! ## The saved row and count -/

/-- The rows counted lie on the board, down to the saved row. -/
structure SavedRows (s : Board) : Prop where
  count : s.numRowsReg.toNat ≤ s.clearYReg.toNat + 1
  row : s.clearYReg.toNat < ySize

theorem SavedRows.next {oor : OutOfRange} (h : SavedRows s) (hi : i.reset = false) : SavedRows (s.next oor i) := by
  by_cases hsave : s.saveClearY i = true
  · have hfull : ∃ y, FullRow s.boardArr y := by
      simp only [saveClearY, Bool.and_eq_true] at hsave
      exact (canClearRow_iff _).1 hsave.2
    obtain ⟨c, hc, -⟩ := clearY_spec hfull
    refine ⟨?_, ?_⟩
    · rw [next_numRowsReg hi, next_clearYReg hi, if_pos hsave, if_pos hsave]
      exact numRows_le hfull
    · rw [next_clearYReg hi, if_pos hsave, hc]
      exact c.isLt
  · refine ⟨?_, ?_⟩
    · rw [next_numRowsReg hi, next_clearYReg hi, if_neg hsave, if_neg hsave]
      exact h.count
    · rw [next_clearYReg hi, if_neg hsave]
      exact h.row

/-! ## The row shift -/

theorem dropSource_eq_self (h : s.numRowsReg = 0) (p : Pos) : s.dropSource p = p := by
  unfold dropSource
  rw [h, sub_zero, ite_self]

/-- With a count the shift reads row 31 for the last of the top rows. -/
theorem dropSource_out (h : SavedRows s) (hn : s.numRowsReg ≠ 0) :
    ∃ p ∈ dropCells, ¬ InBoard (s.dropSource p) := by
  have hpos : 0 < s.numRowsReg.toNat := Nat.pos_of_ne_zero fun h0 => hn (BitVec.eq_of_toNat_eq h0)
  have hlt : s.numRowsReg.toNat - 1 < ySize := by have := h.count; have := h.row; omega
  have hrow : (s.numRowsReg - 1).toNat = s.numRowsReg.toNat - 1 :=
    BitVec.toNat_sub_of_le (BitVec.le_def.2 hpos)
  refine ⟨(0, s.numRowsReg - 1), mem_dropCells_iff.2 ⟨(by decide : 0 < xSize), by rw [hrow]; exact hlt⟩, fun hin => ?_⟩
  have hle : ¬ s.clearYReg < s.numRowsReg - 1 := by
    rw [BitVec.lt_def, hrow]
    have := h.count
    omega
  -- the subtraction wraps
  have hwrap : s.numRowsReg - 1 - s.numRowsReg = 31 := by
    rw [sub_right_comm, sub_self]; rfl
  have hrow31 : (31 : BitVec 5).toNat < ySize := by
    have := hin.2
    rwa [dropSource, if_neg hle, hwrap] at this
  exact absurd hrow31 (by decide)

/-- A row shift stays inside the array exactly when the count is zero. -/
theorem inBoard_drop_iff (h : SavedRows s) :
    (∀ p ∈ dropCells ++ dropCells.map s.dropSource, InBoard p) ↔ s.numRowsReg = 0 := by
  constructor
  · intro hall
    by_contra hn
    obtain ⟨p, hp, hout⟩ := dropSource_out h hn
    exact hout (hall _ (List.mem_append_right _ (List.mem_map_of_mem hp)))
  · intro hn p hp
    rw [funext (dropSource_eq_self hn), List.map_id', List.mem_append, or_self] at hp
    exact mem_dropCells_iff.1 hp

/-- A cycle accesses the array inside its bounds, if the piece and its last place are on the board,
unless rows are shifted by a count. -/
theorem inBoard_accesses_iff (h : SavedRows s) (hsave : ∀ p ∈ cells i.saveXblock i.saveYblock, InBoard p)
    (hpiece : ∀ p ∈ cells i.xBlock i.yBlock, InBoard p) :
    (∀ p ∈ s.accesses i, InBoard p) ↔ ¬ (s.state = .drop ∧ i.frameClkRisingEdge = true ∧ s.numRowsReg ≠ 0) := by
  unfold accesses
  cases hstate : s.state with
  | play =>
    refine iff_of_true (fun p hp => ?_) (fun hd => BoardState.noConfusion hd.1)
    rcases List.mem_append.1 hp with hp | hp
    · refine hsave p ?_
      unfold eraseCells at hp
      split at hp
      · cases hp
      · exact hp
    · exact hpiece p hp
  | clear =>
    refine iff_of_true (fun p hp => ?_) (fun hd => BoardState.noConfusion hd.1)
    dsimp only at hp
    split at hp
    · rename_i he
      obtain ⟨y, hy, -⟩ := clearY_spec ((canClearRow_iff _).1 he.2.2)
      exact inBoard_of_mem_clearCells hp (hy ▸ y.isLt)
    · cases hp
  | drop =>
    dsimp only
    by_cases hedge : i.frameClkRisingEdge = true
    · rw [if_pos hedge, inBoard_drop_iff h]
      exact ⟨fun hn hd => hd.2.2 hn, fun hd => by_contra fun hn => hd ⟨rfl, hedge, hn⟩⟩
    · rw [if_neg hedge]
      exact iff_of_true (fun p hp => by cases hp) (fun hd => hedge hd.2.1)
  | score => exact iff_of_true (fun p hp => by cases hp) (fun hd => BoardState.noConfusion hd.1)
  | other => exact iff_of_true (fun p hp => by cases hp) (fun hd => BoardState.noConfusion hd.1)

end Board

namespace Tetris

variable {oor : OutOfRange} {playerNum : BitVec 2} {s : Tetris} {i : In}

/-- The cells examined for the candidate moves that `inBounds` accepts. -/
def testedCells (s : Tetris) : List Pos :=
  [Move.left, .right, .rotateRight, .rotateLeft, .down].flatMap fun m =>
    let q := s.logic.target m
    if Board.inBounds q.1 q.2 then cells q.1 q.2 else []

/-- The elements of the board accessed in a cycle. -/
def accesses (oor : OutOfRange) (playerNum : BitVec 2) (s : Tetris) (i : In) : List Pos :=
  s.board.accesses (s.boardIn oor playerNum i) ++ s.testedCells

theorem inBoard_of_mem_testedCells {p : Pos} (hp : p ∈ s.testedCells) : InBoard p := by
  obtain ⟨m, -, hp⟩ := List.mem_flatMap.1 hp
  dsimp only at hp
  split at hp
  · rename_i hin; exact Board.inBounds_iff.1 hin p hp
  · cases hp

/-- In one cycle every access is inside the array, unless rows are shifted by a count. -/
theorem Inv.inBoard_accesses_iff (h : Inv oor s) (hsaved : s.board.SavedRows) :
    (∀ p ∈ s.accesses oor playerNum i, InBoard p) ↔
      ¬ (s.board.state = .drop ∧ s.logic.frameClkRisingEdge = true ∧ s.board.numRowsReg ≠ 0) := by
  have hsplit : (∀ p ∈ s.accesses oor playerNum i, InBoard p) ↔
      ∀ p ∈ s.board.accesses (s.boardIn oor playerNum i), InBoard p := by
    unfold accesses
    constructor
    · exact fun hall p hp => hall p (List.mem_append_left _ hp)
    · intro hall p hp
      rcases List.mem_append.1 hp with hp | hp
      · exact hall p hp
      · exact inBoard_of_mem_testedCells hp
  exact hsplit.trans (Board.inBoard_accesses_iff hsaved h.saved h.piece)

/-! ## Whole runs -/

theorem savedRows_keeps : (design oor playerNum).Keeps (fun _ i => i.reset = true) (fun _ => True)
    (fun s => s.board.SavedRows) := by
  have hreset : ∀ (s : Tetris) (i : In), i.reset = true → (s.next oor playerNum i).board.SavedRows := fun s i hi => by
    obtain ⟨-, -, -, hn, hc, -⟩ := next_board_reset oor playerNum s hi
    exact ⟨by rw [hn, hc]; decide, by rw [hc]; decide⟩
  refine ⟨hreset, fun s i _ h => ?_⟩
  cases hi : i.reset with
  | true => exact hreset s i hi
  | false => exact h.next hi

/-- Every access is inside the array in every reachable state, except in the cycles that shift rows
after a clear. -/
theorem accesses_inBoard_iff (oor : OutOfRange) (playerNum : BitVec 2) (s : Tetris) (inp : ℕ → In)
    (h0 : (inp 0).reset = true) (hg : s.logic.blockGen.InRange) (t : ℕ) (ht : 0 < t) :
    let n := (design oor playerNum).trace s inp t
    (∀ p ∈ n.accesses oor playerNum (inp t), InBoard p) ↔
      ¬ (n.board.state = .drop ∧ n.logic.frameClkRisingEdge = true ∧ n.board.numRowsReg ≠ 0) :=
  (inv_trace oor playerNum s inp h0 hg t ht).inBoard_accesses_iff
    (savedRows_keeps.trace h0 (fun _ _ => trivial) t ht)

/-- A frame of play accesses nothing outside the array. -/
theorem accesses_inBoard_pressLeft :
    let n := (design someReads 1).trace powerUp pressLeft 2
    ∀ p ∈ n.accesses someReads 1 (pressLeft 2), InBoard p :=
  (accesses_inBoard_iff someReads 1 powerUp pressLeft rfl (by decide) 2 (by decide)).2 fun h =>
    BoardState.noConfusion h.1

/-- The shift after the third piece reads row 31. -/
theorem accesses_out_of_range :
    ∃ inp t, (inp 0).reset = true ∧ 0 < t ∧
      ¬ ∀ p ∈ ((design someReads 1).trace powerUp inp t).accesses someReads 1 (inp t), InBoard p := by
  obtain ⟨inp, a, b, h⟩ := exists_thirdClear
  have hb : 0 < b := lt_trans h.smooth.pos h.lt
  refine ⟨inp, b, h.smooth.reset, hb, fun hall => ?_⟩
  exact ((inv_trace someReads 1 powerUp inp h.smooth.reset (by decide) b hb).inBoard_accesses_iff
    (savedRows_keeps.trace h.smooth.reset (fun _ _ => trivial) b hb)).1 hall ⟨h.drop, h.shift, h.numRowsReg_ne_zero⟩

end Tetris

end FpgaTetris
