/-
The speed of the game. The rows cleared since a reset are counted modulo 2048, so the speed never
falls back to that of an easier level exactly as long as the count has not wrapped.
-/
import FpgaTetris.Board.LineClear
import Mathlib.Order.Monotone.Basic

namespace FpgaTetris

namespace Board

variable {oor : OutOfRange} {s s' : Board} {i : In} {inp : ℕ → In}

/-! ## The thresholds -/

theorem levelSpeedIn_antitone (h : s.totalNumRows ≤ s'.totalNumRows) : s'.levelSpeedIn ≤ s.levelSpeedIn := by
  unfold levelSpeedIn
  split_ifs <;> first | decide | (exfalso; bv_omega)

theorem levelSpeedIn_of_ge (h : 50 ≤ s.totalNumRows.toNat) : s.levelSpeedIn = 5 := by
  unfold levelSpeedIn
  split_ifs <;> first | rfl | (exfalso; bv_omega)

theorem levelSpeedIn_of_lt (h : s.totalNumRows.toNat < 20) : 25 ≤ s.levelSpeedIn := by
  unfold levelSpeedIn
  split_ifs <;> first | decide | (exfalso; bv_omega)

/-! ## The counter -/

/-- The rows that a cycle adds to the count. -/
def rowsSaved (s : Board) (i : In) : ℕ := if s.saveClearY i then (fullRows s.boardArr).length else 0

theorem rowsSaved_le (s : Board) (i : In) : s.rowsSaved i ≤ ySize := by
  unfold rowsSaved
  split_ifs
  · exact length_fullRows_le _
  · exact Nat.zero_le _

/-- The rows cleared before cycle `t`, since the last reset. -/
def rowsCleared (oor : OutOfRange) (s : Board) (inp : ℕ → In) : ℕ → ℕ
  | 0 => 0
  | t + 1 => if (inp t).reset then 0 else rowsCleared oor s inp t + ((design oor).trace s inp t).rowsSaved (inp t)

/-- The counter takes in the rows of a cycle modulo 2048. -/
theorem next_totalNumRows_ofNat (hi : i.reset = false) {n : ℕ} (hn : s.totalNumRows = BitVec.ofNat 11 n) :
    (s.next oor i).totalNumRows = BitVec.ofNat 11 (n + s.rowsSaved i) := by
  rw [next_totalNumRows hi, rowsSaved, hn]
  split_ifs
  · rw [BitVec.ofNat_add]
    congr 1
    refine BitVec.eq_of_toNat_eq ?_
    rw [BitVec.toNat_setWidth, numRows_toNat, BitVec.toNat_ofNat]
  · rfl

theorem next_of_reset (hi : i.reset = true) :
    (s.next oor i).totalNumRows = 0 ∧ (s.next oor i).levelSpeed = 60 := by
  simp [next, hi]

section Run

variable (h0 : (inp 0).reset = true) (hr : ∀ t, 0 < t → (inp t).reset = false)

variable (oor s) in
include hr in
theorem rowsCleared_succ {t : ℕ} (ht : 0 < t) :
    rowsCleared oor s inp (t + 1) = rowsCleared oor s inp t + ((design oor).trace s inp t).rowsSaved (inp t) := by
  rw [rowsCleared, hr t ht]
  rfl

include hr in
theorem rowsCleared_mono {t u : ℕ} (ht : 0 < t) (htu : t ≤ u) : rowsCleared oor s inp t ≤ rowsCleared oor s inp u := by
  induction u, htu using Nat.le_induction with
  | base => exact le_rfl
  | succ u htu ih =>
    rw [rowsCleared_succ oor s hr (lt_of_lt_of_le ht htu)]
    exact Nat.le_add_right_of_le ih

include h0 in
theorem rowsCleared_one : rowsCleared oor s inp 1 = 0 := if_pos h0

include h0 hr

variable (oor s) in
theorem totalNumRows_trace {t : ℕ} (ht : 0 < t) :
    ((design oor).trace s inp t).totalNumRows = BitVec.ofNat 11 (rowsCleared oor s inp t) := by
  induction t, ht using Nat.le_induction with
  | base =>
    rw [rowsCleared_one h0]
    exact (next_of_reset h0).1
  | succ t ht ih =>
    rw [rowsCleared_succ oor s hr ht]
    exact next_totalNumRows_ofNat (hr t ht) ih

/-- The level in a cycle is that of the count in the cycle before. -/
theorem levelSpeed_trace {t : ℕ} (ht : 0 < t) :
    ((design oor).trace s inp t).levelSpeed = ((design oor).trace s inp (max 1 (t - 1))).levelSpeedIn := by
  obtain ⟨t, rfl⟩ := Nat.exists_eq_succ_of_ne_zero (Nat.ne_of_gt ht)
  cases t with
  | zero =>
    have hzero := totalNumRows_trace oor s h0 hr (Nat.zero_lt_one)
    rw [rowsCleared_one h0] at hzero
    show ((design oor).trace s inp 1).levelSpeed = ((design oor).trace s inp 1).levelSpeedIn
    rw [levelSpeedIn, hzero]
    exact (next_of_reset h0).2
  | succ t => exact next_levelSpeed (hr (t + 1) (Nat.succ_pos t))

omit hr in
/-- The cycle in which the count reaches 2048 and the counter wraps. -/
theorem exists_wrap {T : ℕ} (hT : 2048 ≤ rowsCleared oor s inp T) :
    ∃ v, 0 < v ∧ v < T ∧ rowsCleared oor s inp v < 2048 ∧ 2048 ≤ rowsCleared oor s inp (v + 1) := by
  induction T with
  | zero => exact absurd hT (by rw [rowsCleared]; decide)
  | succ T ih =>
    by_cases hle : 2048 ≤ rowsCleared oor s inp T
    · obtain ⟨v, hv, hvT, hcross⟩ := ih hle
      exact ⟨v, hv, Nat.lt_succ_of_lt hvT, hcross⟩
    · refine ⟨T, Nat.pos_of_ne_zero fun h => ?_, Nat.lt_succ_self T, Nat.lt_of_not_le hle, hT⟩
      subst h
      exact absurd hT (by rw [rowsCleared_one h0]; decide)

/-- In the cycle in which the counter wraps the level goes from the last one back to an early one. -/
theorem level_falls_of_wrap {v : ℕ} (hv : 0 < v) (hlt : rowsCleared oor s inp v < 2048)
    (hwrap : 2048 ≤ rowsCleared oor s inp (v + 1)) :
    ((design oor).trace s inp v).levelSpeedIn < ((design oor).trace s inp (v + 1)).levelSpeedIn := by
  have hsum := rowsCleared_succ oor s hr hv
  have hsaved := rowsSaved_le ((design oor).trace s inp v) (inp v)
  have hsize : ySize = 20 := rfl
  -- the count is just below 2048 before the addition, and at most 19 after it
  have hfast : ((design oor).trace s inp v).levelSpeedIn = 5 := by
    apply levelSpeedIn_of_ge
    rw [totalNumRows_trace oor s h0 hr hv, BitVec.toNat_ofNat]
    omega
  have hslow : 25 ≤ ((design oor).trace s inp (v + 1)).levelSpeedIn := by
    apply levelSpeedIn_of_lt
    rw [totalNumRows_trace oor s h0 hr (show 0 < v + 1 from Nat.succ_pos v), BitVec.toNat_ofNat]
    omega
  rw [hfast]
  exact BitVec.not_le.1 fun hle => absurd (BitVec.le_trans hslow hle) (by decide)

/-- The game never gets slower up to a cycle exactly when fewer than 2048 rows have been cleared since
the reset. -/
theorem level_never_falls_iff {T : ℕ} (hT : 0 < T) :
    (∀ t u, 0 < t → t ≤ u → u ≤ T + 1 →
      ((design oor).trace s inp u).levelSpeed ≤ ((design oor).trace s inp t).levelSpeed) ↔
      rowsCleared oor s inp T < 2048 := by
  constructor
  · intro hmono
    by_contra hge
    obtain ⟨v, hv, hvT, hlt, hwrap⟩ := exists_wrap h0 (Nat.le_of_not_lt hge)
    have hfall := hmono (v + 1) (v + 2) (Nat.succ_pos v) (Nat.le_succ _) (Nat.add_le_add_right hvT 1)
    -- the register shows a level one cycle after the count
    have hnext : ∀ {w}, 0 < w → ((design oor).trace s inp (w + 1)).levelSpeed =
        ((design oor).trace s inp w).levelSpeedIn := fun hw => next_levelSpeed (hr _ hw)
    rw [hnext hv, hnext (Nat.succ_pos v)] at hfall
    exact BitVec.not_le.2 (level_falls_of_wrap h0 hr hv hlt hwrap) hfall
  · intro hlt t u ht htu huT
    rw [levelSpeed_trace h0 hr ht, levelSpeed_trace h0 hr (lt_of_lt_of_le ht htu)]
    apply levelSpeedIn_antitone
    have hcount : ∀ {v}, 0 < v → v ≤ T → ((design oor).trace s inp v).totalNumRows.toNat = rowsCleared oor s inp v :=
      fun {v} hv hvT => by
        rw [totalNumRows_trace oor s h0 hr hv, BitVec.toNat_ofNat]
        exact Nat.mod_eq_of_lt (lt_of_le_of_lt (rowsCleared_mono hr hv hvT) hlt)
    rw [BitVec.le_def, hcount (by omega) (by omega), hcount (by omega) (by omega)]
    exact rowsCleared_mono hr (by omega) (by omega)

end Run

/-! ## An endless game -/

/-- An empty board in `PLAY` with a count of `n` rows. -/
structure EmptyAt (n : BitVec 11) (s : Board) : Prop where
  state : s.state = .play
  board : s.boardArr = fun _ => .empty
  count : s.totalNumRows = n

/-- The lock of a piece in row 1, in a cycle with a frame edge. -/
def lockInRow (x : Quad) : In where
  reset := false
  xBlock := x
  yBlock := ⟨1, 1, 1, 1⟩
  saveXblock := x
  saveYblock := ⟨1, 1, 1, 1⟩
  getNewBlock := true
  frameClkRisingEdge := true
  block := .cyan

variable (oor) in
/-- A lock without a full row paints the piece. -/
theorem next_of_lock (hi : i.reset = false) (hs : s.state = .play) (hg : i.getNewBlock = true)
    (hno : ∀ y, ¬ FullRow s.boardArr y) :
    (s.next oor i).state = .play ∧ (s.next oor i).totalNumRows = s.totalNumRows ∧
      (s.next oor i).boardArr = fun c => if pos c ∈ cells i.xBlock i.yBlock then i.block else s.boardArr c := by
  have hcan : (scan s.boardArr).canClearRow = false := by
    rw [Bool.eq_false_iff, Ne, canClearRow_iff]
    exact not_exists.2 hno
  refine ⟨?_, ?_, ?_⟩
  · rw [next_state hi, nextState, hs]
    simp [hcan]
  · rw [next_totalNumRows hi, saveClearY, hcan, Bool.and_false]
    rfl
  · rw [next_boardArr hi, boardIn, hs]
    simp only [eraseCells, hg, if_true, List.map_nil]
    funext c
    exact BoardArr.writeAll_const ..

/-- Row 1 filled by bars. -/
def barRow : BoardArr := fun c => if c.2 = 1 then .cyan else .empty

variable (oor) in
/-- The clear of row 1: the board is empty again, with one row more. -/
theorem exists_emptyAt_of_barRow {n : BitVec 11} (hs : s.state = .play) (harr : s.boardArr = barRow)
    (hn : s.totalNumRows = n) :
    ∃ s', Relation.ReflTransGen ((design oor).Step fun _ i => i.reset = false) s s' ∧ EmptyAt (n + 1) s' := by
  let inp : ℕ → In := fun _ => lockInRow ⟨0, 1, 2, 3⟩
  have hr : ∀ t, (inp t).reset = false := fun _ => rfl
  have hfull : ∃ y, FullRow s.boardArr y := ⟨1, by rw [harr]; decide⟩
  have hpiece : ∀ c, pos c ∈ cells (inp 0).xBlock (inp 0).yBlock → s.boardArr c = (inp 0).block := by
    rw [harr]; decide +kernel
  obtain ⟨T, hT, hplay, hfirst⟩ := exists_return oor s inp hs rfl hr hfull hpiece fun n => ⟨n, le_rfl, rfl⟩
  have hcleared := cleared_at_return oor hs rfl hr hfull hpiece hT hplay hfirst
  refine ⟨(design oor).trace s inp T, Sync.Design.reflTransGen_trace _ _ inp hr T, hplay, ?_, ?_⟩
  · rw [hcleared, harr, cleared, if_pos (by decide)]
    funext c
    revert c
    decide +kernel
  -- the lock adds the row, and nothing is added until the machine is back in `PLAY`
  · refine Sync.Design.trace_phase (fun s : Board => s.totalNumRows = n + 1) (Nat.succ_le_of_lt hT) ?_
      fun t h1 h2 ht => ?_
    · have hsave : s.saveClearY (inp 0) = true := by
        simp [saveClearY, hs, (canClearRow_iff _).2 hfull, inp, lockInRow]
      have hone : (scan s.boardArr).numRows.setWidth 11 = 1 := by rw [harr]; decide
      refine ((next_totalNumRows (hr 0)).trans (if_pos hsave)).trans ?_
      rw [hn, hone]
    · have hsave := saveClearY_eq_false (i := inp t) (hfirst t h1 h2)
      exact ((next_totalNumRows (hr t)).trans (if_neg (by rw [hsave]; decide))).trans ht

variable (oor) in
/-- From an empty board one row can be cleared, and the first cycle of it shows the level. -/
theorem exists_row_cleared {n : BitVec 11} (h : EmptyAt n s) :
    ∃ s', (design oor).Step (fun _ i => i.reset = false) s s' ∧ s'.levelSpeed = s.levelSpeedIn ∧
      ∃ s'', Relation.ReflTransGen ((design oor).Step fun _ i => i.reset = false) s' s'' ∧ EmptyAt (n + 1) s'' := by
  have hno : ∀ {b : BoardArr}, (∀ y, b (9, y) = .empty) → ∀ y, ¬ FullRow b y := fun hb y hy => hy 9 (hb y)
  let s₁ := s.next oor (lockInRow ⟨0, 1, 2, 3⟩)
  let s₂ := s₁.next oor (lockInRow ⟨4, 5, 6, 7⟩)
  let s₃ := s₂.next oor (lockInRow ⟨6, 7, 8, 9⟩)
  -- column 9 stays empty until the third bar
  obtain ⟨hs₁, hn₁, hb₁⟩ := next_of_lock oor (i := lockInRow ⟨0, 1, 2, 3⟩) rfl h.state rfl
    (hno (by rw [h.board]; decide))
  rw [h.board] at hb₁
  obtain ⟨hs₂, hn₂, hb₂⟩ := next_of_lock oor (i := lockInRow ⟨4, 5, 6, 7⟩) rfl hs₁ rfl
    (hno (by rw [hb₁]; decide))
  rw [hb₁] at hb₂
  obtain ⟨hs₃, hn₃, hb₃⟩ := next_of_lock oor (i := lockInRow ⟨6, 7, 8, 9⟩) rfl hs₂ rfl
    (hno (by rw [hb₂]; decide))
  rw [hb₂] at hb₃
  have hrow : s₃.boardArr = barRow := by
    rw [show s₃.boardArr = _ from hb₃]
    funext c
    revert c
    decide +kernel
  have hcount : s₃.totalNumRows = n := hn₃.trans (hn₂.trans (hn₁.trans h.count))
  obtain ⟨s', hreach, hempty⟩ := exists_emptyAt_of_barRow oor hs₃ hrow hcount
  refine ⟨s₁, ⟨lockInRow ⟨0, 1, 2, 3⟩, rfl, rfl⟩, next_levelSpeed rfl, s', ?_, hempty⟩
  exact .head ⟨lockInRow ⟨4, 5, 6, 7⟩, rfl, rfl⟩ (.head ⟨lockInRow ⟨6, 7, 8, 9⟩, rfl, rfl⟩ hreach)

variable (oor) in
/-- Any number of rows can be cleared, one at a time. -/
theorem exists_rows_cleared {n : BitVec 11} (h : EmptyAt n s) (k : ℕ) :
    ∃ s', Relation.ReflTransGen ((design oor).Step fun _ i => i.reset = false) s s' ∧
      EmptyAt (n + BitVec.ofNat 11 k) s' := by
  induction k with
  | zero => exact ⟨s, .refl, by simpa using h⟩
  | succ k ih =>
    obtain ⟨s', hreach, h'⟩ := ih
    obtain ⟨s₁, hstep, -, s₂, hreach', h''⟩ := exists_row_cleared oor h'
    refine ⟨s₂, hreach.trans (.head hstep hreach'), ?_⟩
    rw [BitVec.ofNat_add, ← add_assoc]
    exact h''

/-- The reset of cycle 0. -/
def resetCycle : In := { lockInRow ⟨0, 1, 2, 3⟩ with reset := true }

/-- With 2048 rows cleared the game is back at the first level. -/
theorem level_falls_back :
    ∃ inp : ℕ → In, (inp 0).reset = true ∧ (∀ t, 0 < t → (inp t).reset = false) ∧ ∃ t u, 0 < t ∧ t ≤ u ∧
      ((design someReads).trace (playing fun _ => .empty) inp t).levelSpeed = 5 ∧
      ((design someReads).trace (playing fun _ => .empty) inp u).levelSpeed = 60 := by
  have hempty : EmptyAt 0 ((design someReads).next (playing fun _ => .empty) resetCycle) := ⟨rfl, rfl, rfl⟩
  -- the last level, and its first cycle
  obtain ⟨s₁, hreach₁, h₁⟩ := exists_rows_cleared someReads hempty 50
  obtain ⟨s₂, hstep₂, hspeed₂, s₃, hreach₃, h₃⟩ := exists_row_cleared someReads h₁
  -- 1997 rows later the count is 0
  obtain ⟨s₄, hreach₄, h₄⟩ := exists_rows_cleared someReads h₃ 1997
  obtain ⟨s₅, hstep₅, hspeed₅, -⟩ := exists_row_cleared someReads h₄
  let rest : ℕ → In := fun _ => lockInRow ⟨0, 1, 2, 3⟩
  have hreach₅ := (hreach₃.trans hreach₄).tail hstep₅
  obtain ⟨m, inp', hok', htrace', hrest'⟩ := Sync.Design.exists_trace _ _ hreach₅ rest
  obtain ⟨n, inp, hok, htrace, hrest⟩ := Sync.Design.exists_trace _ _ (hreach₁.tail hstep₂) inp'
  have hrun' : ∀ t, (inp' t).reset = false :=
    Sync.Design.forall_inputs (P := fun i : In => i.reset = false) hok' hrest' fun _ => rfl
  have hrun : ∀ t, (inp t).reset = false :=
    Sync.Design.forall_inputs (P := fun i : In => i.reset = false) hok hrest hrun'
  have hinp : (fun k => inp (n + k)) = inp' := funext hrest
  refine ⟨Sync.Design.cons resetCycle inp, rfl, fun t ht => ?_, n + 1, n + m + 1, Nat.succ_pos n, by omega, ?_, ?_⟩
  · obtain ⟨t, rfl⟩ := Nat.exists_eq_succ_of_ne_zero (Nat.ne_of_gt ht)
    exact hrun t
  · rw [Sync.Design.trace_cons, htrace, hspeed₂, levelSpeedIn, h₁.count]
    rfl
  · rw [Sync.Design.trace_cons, Sync.Design.trace_add, hinp, htrace, htrace', hspeed₅, levelSpeedIn, h₄.count]
    rfl

/-- After a reset, upright bars locked in one column after the other. -/
def uprightBars (t : ℕ) : In where
  reset := t == 0
  xBlock := let x := BitVec.ofNat 5 (t - 1); ⟨x, x, x, x⟩
  yBlock := ⟨16, 17, 18, 19⟩
  saveXblock := let x := BitVec.ofNat 5 (t - 1); ⟨x, x, x, x⟩
  saveYblock := ⟨16, 17, 18, 19⟩
  getNewBlock := true
  frameClkRisingEdge := true
  block := .cyan

/-- Ten upright bars fill four rows, and their clear leads to the next level. -/
theorem level_never_falls_bars :
    let tr := (design someReads).trace (playing flush) uprightBars
    (tr 1).levelSpeed = 60 ∧ (tr 13).levelSpeed = 30 ∧
      ∀ t u, 0 < t → t ≤ u → u ≤ 12 + 1 → (tr u).levelSpeed ≤ (tr t).levelSpeed := by
  refine ⟨by decide +kernel, by decide +kernel, ?_⟩
  refine (level_never_falls_iff (T := 12) rfl ?_ (by decide)).2 (by decide +kernel)
  intro t ht
  exact beq_false_of_ne (Nat.ne_of_gt ht)

end Board

end FpgaTetris
