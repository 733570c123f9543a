/-
The clearing machine of `board.sv`: what the board holds while the full rows are erased one by one
and the rows above are moved down, and that the machine gets back to `PLAY`.
-/
import FpgaTetris.Lib.Design
import FpgaTetris.Board.Scan

namespace FpgaTetris

variable {oor : OutOfRange} {b : BoardArr} {k : ℕ}

/-! ## Erased rows -/

/-- The board with its full rows from row `k` down emptied. -/
def eraseFrom (b : BoardArr) (k : ℕ) : BoardArr := fun c => if FullRow b c.2 ∧ k ≤ c.2 then .empty else b c

/-- The board with every full row emptied. -/
def eraseFull (b : BoardArr) : BoardArr := eraseFrom b 0

theorem fullRow_eraseFrom {y : Fin ySize} : FullRow (eraseFrom b k) y ↔ FullRow b y ∧ y.val < k := by
  constructor
  · intro h
    have hkeep : ¬ (FullRow b y ∧ k ≤ y) := fun hy => h ⟨0, by decide⟩ (if_pos hy)
    have hy : FullRow b y := fun x => by
      have := h x
      rwa [eraseFrom, if_neg hkeep] at this
    exact ⟨hy, Nat.lt_of_not_le fun hk => hkeep ⟨hy, hk⟩⟩
  · rintro ⟨hy, hlt⟩ x
    unfold eraseFrom
    rw [if_neg fun h => absurd h.2 (Nat.not_le_of_lt hlt)]
    exact hy x

theorem eraseFrom_ySize : eraseFrom b ySize = b :=
  funext fun c => if_neg fun h => absurd h.2 (Nat.not_le_of_lt c.2.isLt)

/-- A board with no full row above row `k` has all of them emptied by emptying those from `k` down. -/
theorem eraseFrom_eq_eraseFull (h : ∀ y : Fin ySize, FullRow b y → k ≤ y) : eraseFrom b k = eraseFull b := by
  funext c
  by_cases hc : FullRow b c.2
  · simp [eraseFull, eraseFrom, hc, h _ hc]
  · simp [eraseFull, eraseFrom, hc]

namespace Board

theorem mem_clearCells {y : BitVec 5} (c : Cell) : pos c ∈ clearCells y ↔ c.2.val = y.toNat := by
  simp only [clearCells, colIndices, List.mem_map, List.mem_range]
  constructor
  · rintro ⟨_, ⟨x, -, rfl⟩, h⟩
    rw [← pos_snd c, ← h]
  · intro h
    refine ⟨_, ⟨c.1, c.1.isLt, rfl⟩, Prod.ext rfl ?_⟩
    rw [← BitVec.toNat_inj, pos_snd, h]

/-- Erasing the lowest full row of a board erased from row `k` down. -/
theorem writeAll_clearCells (h : ∃ y, FullRow (eraseFrom b k) y) :
    ∃ y : Fin ySize, (scan (eraseFrom b k)).clearY.toNat = y ∧ FullRow b y ∧ y.val < k ∧
      (∀ y' : Fin ySize, FullRow b y' → y'.val < k → y' ≤ y) ∧
      (eraseFrom b k).writeAll ((clearCells (scan (eraseFrom b k)).clearY).map (·, .empty)) = eraseFrom b y := by
  obtain ⟨y, hy, hfull, hlow⟩ := clearY_spec h
  rw [fullRow_eraseFrom] at hfull
  refine ⟨y, hy, hfull.1, hfull.2, fun y' h1 h2 => hlow y' (fullRow_eraseFrom.2 ⟨h1, h2⟩), funext fun c => ?_⟩
  rw [BoardArr.writeAll_const, if_congr ((mem_clearCells c).trans (by rw [hy])) rfl rfl]
  by_cases hc : c.2.val = y
  · have hc : c.2 = y := Fin.ext hc
    simp [eraseFrom, hc, hfull.1]
  -- the full rows between `y` and `k` would be lower than the lowest one
  have hiff : FullRow b c.2 ∧ k ≤ c.2 ↔ FullRow b c.2 ∧ y.val ≤ c.2 := by
    constructor
    · exact fun ⟨h1, h2⟩ => ⟨h1, by omega⟩
    · rintro ⟨h1, h2⟩
      refine ⟨h1, Nat.le_of_not_lt fun h3 => ?_⟩
      have := Fin.le_def.1 (hlow c.2 (fullRow_eraseFrom.2 ⟨h1, h3⟩))
      omega
  rw [if_neg hc, eraseFrom, eraseFrom]
  exact if_congr hiff rfl rfl

/-! ## The bulk shift -/

/-- What the `DROP` loop makes of a board: the rows down to `c` are taken from `n` rows above. -/
def dropRows (oor : OutOfRange) (b : BoardArr) (n c : BitVec 5) : BoardArr :=
  fun d => b.read oor ((pos d).1, if c < (pos d).2 then (pos d).2 else (pos d).2 - n)

theorem mem_dropCells (c : Cell) : pos c ∈ dropCells := by
  simp only [dropCells, rowIndicesDown, colIndices, List.mem_flatMap, List.mem_map, List.mem_reverse,
    List.mem_range]
  exact ⟨_, ⟨c.2, c.2.isLt, rfl⟩, _, ⟨c.1, c.1.isLt, rfl⟩, rfl⟩

/-- The board when the machine is back in `PLAY`. -/
def cleared (oor : OutOfRange) (b : BoardArr) : BoardArr :=
  if (scan b).clearY = (scan b).numRows then eraseFull b
  else dropRows oor (eraseFull b) (scan b).numRows (scan b).clearY

/-- The `DROP` loop writes every cell. -/
theorem boardIn_drop {s : Board} {i : In} (hs : s.state = .drop) (hedge : i.frameClkRisingEdge = true) :
    s.boardIn oor i = dropRows oor s.boardArr s.numRowsReg s.clearYReg := by
  unfold boardIn
  rw [hs]
  simp only
  rw [if_pos hedge]
  funext c
  rw [BoardArr.writeAll_map, if_pos (mem_dropCells c)]
  rfl

/-! ## One clock edge -/

section Step

variable {s : Board} {i : In} (hi : i.reset = false)

include hi

theorem next_boardArr : (s.next oor i).boardArr = s.boardIn oor i := by simp [next, hi]

theorem next_state : (s.next oor i).state = s.nextState i := by simp [next, hi]

theorem next_clearCounter : (s.next oor i).clearCounter = s.clearCounterIn i := by simp [next, hi]

theorem next_numRowsReg :
    (s.next oor i).numRowsReg = if s.saveClearY i then (scan s.boardArr).numRows else s.numRowsReg := by
  simp [next, hi]

theorem next_clearYReg :
    (s.next oor i).clearYReg = if s.saveClearY i then (scan s.boardArr).clearY else s.clearYReg := by
  simp [next, hi]

theorem next_totalNumRows :
    (s.next oor i).totalNumRows =
      if s.saveClearY i then s.totalNumRows + (scan s.boardArr).numRows.setWidth 11 else s.totalNumRows := by
  simp [next, hi]

theorem next_levelSpeed : (s.next oor i).levelSpeed = s.levelSpeedIn := by simp [next, hi]

end Step

theorem nextState_ne_other (s : Board) (i : In) : s.nextState i ≠ .other := by
  unfold nextState
  split <;> [split_ifs; split_ifs; split_ifs; skip; skip] <;> exact BoardState.noConfusion

theorem boardBusy_iff {s : Board} : s.boardBusy = true ↔ s.state = .clear ∨ s.state = .drop ∨ s.state = .score := by
  unfold boardBusy
  cases s.state <;> simp

theorem play_or_other {s : Board} (h : s.boardBusy = false) : s.state = .play ∨ s.state = .other := by
  unfold boardBusy at h
  cases hs : s.state <;> simp [hs] at h ⊢

theorem boardBusy_next {s : Board} {i : In} (hi : i.reset = false) (hs : s.state = .clear ∨ s.state = .drop) :
    (s.next oor i).boardBusy = true := by
  rw [boardBusy_iff, next_state hi]
  unfold nextState
  rcases hs with hs | hs <;> simp only [hs] <;> split_ifs <;> simp

theorem saveClearY_eq_false {s : Board} {i : In} (hs : s.state ≠ .play) : s.saveClearY i = false := by
  simp [saveClearY, hs]

/-- The stages of a clear of `b`: full rows left to erase, all erased and a shift to come, done. -/
inductive Stage (oor : OutOfRange) (b : BoardArr) (s : Board) : Prop
  | clear (k : ℕ) (hs : s.state = .clear) (harr : s.boardArr = eraseFrom b k)
      (hfull : ∃ y, FullRow s.boardArr y) (hcount : s.clearCounter ≤ clearFrames)
  | drop (hs : s.state = .drop) (harr : s.boardArr = eraseFull b) (hne : (scan b).clearY ≠ (scan b).numRows)
  | score (hs : s.state = .score) (harr : s.boardArr = cleared oor b)

/-- What holds while the machine clears the full rows of `b`. -/
structure Clearing (oor : OutOfRange) (b : BoardArr) (s : Board) : Prop where
  full : ∃ y, FullRow b y
  numRows : s.numRowsReg = (scan b).numRows
  clearY : s.clearYReg = (scan b).clearY
  stage : Stage oor b s

namespace Clearing

variable {s : Board} {i : In}

theorem ne_play (h : Clearing oor b s) : s.state ≠ .play := by
  intro hp
  rcases h.stage with ⟨_, hs, _⟩ | ⟨hs, _⟩ | ⟨hs, _⟩ <;> rw [hs] at hp <;> cases hp

theorem boardBusy (h : Clearing oor b s) : s.boardBusy = true := by
  rw [boardBusy_iff]
  rcases h.stage with ⟨_, hs, _⟩ | ⟨hs, _⟩ | ⟨hs, _⟩ <;> simp [hs]

theorem next_of_stage (h : Clearing oor b s) (hi : i.reset = false) (hstage : Stage oor b (s.next oor i)) :
    Clearing oor b (s.next oor i) where
  full := h.full
  numRows := by rw [next_numRowsReg hi, saveClearY_eq_false h.ne_play]; exact h.numRows
  clearY := by rw [next_clearYReg hi, saveClearY_eq_false h.ne_play]; exact h.clearY
  stage := hstage

variable (oor) in
/-- An erase empties the lowest full row left. -/
theorem erase_boardArr (hi : i.reset = false) (hs : s.state = .clear) (harr : s.boardArr = eraseFrom b k)
    (he : s.erases i) :
    ∃ y : Fin ySize, (scan s.boardArr).clearY.toNat = y ∧ FullRow b y ∧ y.val < k ∧
      (∀ y' : Fin ySize, FullRow b y' → y'.val < k → y' ≤ y) ∧ (s.next oor i).boardArr = eraseFrom b y := by
  have hfull := (canClearRow_iff _).1 he.2.2
  rw [harr] at hfull
  obtain ⟨y, hy, hfully, hyk, hlow, hwrite⟩ := writeAll_clearCells hfull
  refine ⟨y, by rw [harr, hy], hfully, hyk, hlow, ?_⟩
  rw [next_boardArr hi, boardIn, hs]
  simp only
  rw [if_pos he, harr, hwrite]

variable (oor) in
/-- An erase with the count at one was that of the last full row. -/
theorem numRows_eq_one_iff_of_erase (hi : i.reset = false) (hs : s.state = .clear) (harr : s.boardArr = eraseFrom b k)
    (he : s.erases i) : (scan s.boardArr).numRows = 1 ↔ ∀ y, ¬ FullRow (s.next oor i).boardArr y := by
  obtain ⟨y, -, hy, hyk, hlow, harr'⟩ := erase_boardArr oor hi hs harr he
  rw [harr, harr', numRows_eq_one_iff (fullRow_eraseFrom.2 ⟨hy, hyk⟩)]
  simp only [fullRow_eraseFrom]
  constructor
  · rintro h y' ⟨hy', hlt⟩
    rw [h y' ⟨hy', lt_trans hlt hyk⟩] at hlt
    exact lt_irrefl _ hlt
  · rintro h y' ⟨hy', hk⟩
    exact le_antisymm (hlow y' hy' hk) (le_of_not_gt fun hlt => h y' ⟨hy', hlt⟩)

variable (oor) in
/-- The way out of `CLEAR`: only the erase of the last row takes it, by the comparison of the saved
row with the saved count. -/
theorem next_state_of_erase (hi : i.reset = false) (hs : s.state = .clear) (he : s.erases i) :
    (s.next oor i).state =
      if (scan s.boardArr).numRows ≠ 1 then .clear else if s.clearYReg = s.numRowsReg then .score else .drop := by
  have hpos := numRows_pos ((canClearRow_iff _).1 he.2.2)
  rw [next_state hi, nextState, hs]
  simp only
  rw [if_pos ⟨he.1, he.2.1⟩]
  by_cases hone : (scan s.boardArr).numRows = 1
  · rw [if_neg (not_not_intro hone)]
    by_cases hc : s.clearYReg = s.numRowsReg
    · simp [hone, hc]
    · rw [if_pos ⟨hone, fun h => hc (sub_eq_zero.1 h)⟩, if_neg hc]
  · have hne : (scan s.boardArr).numRows.toNat ≠ 1 := fun h => hone (BitVec.eq_of_toNat_eq h)
    have hmore : 1 < (scan s.boardArr).numRows := BitVec.lt_def.2 (show 1 < _ by omega)
    rw [if_neg fun h => hone h.1, if_pos hmore, if_pos hone]

/-- The end of an erase: with no full row left the machine moves on, with one left it stays. -/
theorem stage_of_erase (h : Clearing oor b s) (hi : i.reset = false) (hs : s.state = .clear)
    (harr : s.boardArr = eraseFrom b k) (he : s.erases i) : Stage oor b (s.next oor i) := by
  obtain ⟨y, -, -, -, -, harr'⟩ := erase_boardArr oor hi hs harr he
  have hstate := next_state_of_erase oor hi hs he
  have hlast := numRows_eq_one_iff_of_erase oor hi hs harr he
  by_cases hone : (scan s.boardArr).numRows = 1
  · rw [if_neg (not_not_intro hone), h.clearY, h.numRows] at hstate
    -- a full row left after the last erase would have counted
    have hall : eraseFrom b y = eraseFull b := eraseFrom_eq_eraseFull fun y' hy' => by
      by_contra hlt
      refine hlast.1 hone y' ?_
      rw [harr']
      exact fullRow_eraseFrom.2 ⟨hy', Nat.lt_of_not_le hlt⟩
    rw [hall] at harr'
    by_cases hc : (scan b).clearY = (scan b).numRows
    · rw [if_pos hc] at hstate
      exact .score hstate (by rw [harr', cleared, if_pos hc])
    · rw [if_neg hc] at hstate
      exact .drop hstate harr' hc
  · rw [if_pos hone] at hstate
    rw [hlast] at hone
    push Not at hone
    refine .clear y hstate harr' hone ?_
    rw [next_clearCounter hi, clearCounterIn, hs]
    simp only
    rw [if_pos he]
    exact BitVec.le_def.2 (Nat.zero_le _)

variable (oor) in
/-- Between two erases only the frame counter moves, and not past `clear_frames`. -/
theorem next_of_wait (hi : i.reset = false) (hs : s.state = .clear) (hfull : ∃ y, FullRow s.boardArr y)
    (hcount : s.clearCounter ≤ clearFrames) (he : ¬ s.erases i) :
    (s.next oor i).state = .clear ∧ (s.next oor i).boardArr = s.boardArr ∧
      (s.next oor i).clearCounter.toNat = s.clearCounter.toNat + (if i.frameClkRisingEdge then 1 else 0) ∧
      (s.next oor i).clearCounter ≤ clearFrames := by
  have hwait : ¬ (i.frameClkRisingEdge ∧ s.clearCounter = clearFrames) :=
    fun h => he ⟨h.1, h.2, (canClearRow_iff _).2 hfull⟩
  have hle : s.clearCounter.toNat ≤ 3 := BitVec.le_def.1 hcount
  have hnat : (s.next oor i).clearCounter.toNat = s.clearCounter.toNat + (if i.frameClkRisingEdge then 1 else 0) := by
    rw [next_clearCounter hi, clearCounterIn, hs]
    simp only
    rw [if_neg he]
    split
    · exact BitVec.toNat_add_of_lt (show _ + 1 < 8 by omega)
    · rfl
  refine ⟨?_, ?_, hnat, BitVec.le_def.2 ?_⟩
  · rw [next_state hi, nextState, hs]; exact if_neg hwait
  · rw [next_boardArr hi, boardIn, hs]; exact if_neg he
  · rw [hnat]
    show _ ≤ 3
    split
    · -- an edge at `clear_frames` would have erased a row
      rename_i hedge
      have hne : s.clearCounter.toNat ≠ 3 := fun h3 => hwait ⟨hedge, BitVec.eq_of_toNat_eq h3⟩
      omega
    · exact hle

/-- The machine leaves `CLEAR` with no full row left. -/
theorem noFull_of_clear_end (hi : i.reset = false) (hs : s.state = .clear) (hne : (s.next oor i).state ≠ .clear)
    (y : Fin ySize) : ¬ FullRow (s.next oor i).boardArr y := by
  by_cases hfull : ∃ y, FullRow s.boardArr y
  · have he : s.erases i := by
      by_contra he
      refine hne ?_
      rw [next_state hi, nextState, hs]
      exact if_neg fun h => he ⟨h.1, h.2, (canClearRow_iff _).2 hfull⟩
    have hone : (scan s.boardArr).numRows = 1 := by
      by_contra hone
      exact hne (by rw [next_state_of_erase oor hi hs he, if_pos hone])
    exact (numRows_eq_one_iff_of_erase oor hi hs eraseFrom_ySize.symm he).1 hone y
  · rw [next_boardArr hi, boardIn, hs]
    simp only
    rw [if_neg fun he => hfull ((canClearRow_iff _).1 he.2.2)]
    exact fun hy => hfull ⟨y, hy⟩

/-- A clear goes on, or ends in `PLAY` with the board cleared. -/
theorem step (h : Clearing oor b s) (hi : i.reset = false) :
    Clearing oor b (s.next oor i) ∨
      (s.next oor i).state = .play ∧ (s.next oor i).boardArr = cleared oor b := by
  rcases h.stage with ⟨k, hs, harr, hfull, hcount⟩ | ⟨hs, harr, hne⟩ | ⟨hs, harr⟩
  · by_cases he : s.erases i
    · -- the one step of `CLEAR` that moves on is an erase
      exact .inl (h.next_of_stage hi (h.stage_of_erase hi hs harr he))
    · obtain ⟨hs', harr', -, hcount'⟩ := next_of_wait oor hi hs hfull hcount he
      exact .inl (h.next_of_stage hi (.clear k hs' (harr'.trans harr) (by rwa [harr']) hcount'))
  · by_cases hedge : i.frameClkRisingEdge
    · refine .inl (h.next_of_stage hi (.score ?_ ?_))
      · rw [next_state hi, nextState, hs]; exact if_pos hedge
      · rw [next_boardArr hi, boardIn_drop hs hedge, cleared, if_neg hne, harr, h.numRows, h.clearY]
    · refine .inl (h.next_of_stage hi (.drop ?_ ?_ hne))
      · rw [next_state hi, nextState, hs]; exact if_neg hedge
      · rw [next_boardArr hi, boardIn, hs]
        simp only
        rw [if_neg hedge, harr]
  · refine .inr ⟨?_, ?_⟩
    · rw [next_state hi, nextState, hs]
    · rw [next_boardArr hi, boardIn, hs, ← harr]

variable (oor) in
/-- A lock leaves the board as it is when the locking piece is on it already. -/
theorem boardArr_of_lock (hi : i.reset = false) (hs : s.state = .play) (hg : i.getNewBlock = true)
    (hpiece : ∀ c, pos c ∈ cells i.xBlock i.yBlock → s.boardArr c = i.block) :
    (s.next oor i).boardArr = s.boardArr := by
  rw [next_boardArr hi, boardIn, hs]
  simp only [eraseCells, hg, if_true, List.map_nil]
  funext c
  rw [BoardArr.writeAll_const]
  split
  · rename_i hc; exact (hpiece c hc).symm
  · rfl

/-- A lock with a full row starts a clear; the locking piece is on the board already. -/
theorem start (hi : i.reset = false) (hs : s.state = .play) (hg : i.getNewBlock = true)
    (hfull : ∃ y, FullRow s.boardArr y) (hpiece : ∀ c, pos c ∈ cells i.xBlock i.yBlock → s.boardArr c = i.block) :
    Clearing oor s.boardArr (s.next oor i) := by
  have hcan := (canClearRow_iff _).2 hfull
  have hsave : s.saveClearY i = true := by simp [Board.saveClearY, hs, hg, hcan]
  have harr := boardArr_of_lock oor hi hs hg hpiece
  refine ⟨hfull, ?_, ?_, .clear ySize ?_ ?_ (by rwa [harr]) ?_⟩
  · rw [next_numRowsReg hi, if_pos hsave]
  · rw [next_clearYReg hi, if_pos hsave]
  · rw [next_state hi, nextState, hs]; exact if_pos ⟨hg, hcan⟩
  · rw [harr, eraseFrom_ySize]
  · rw [next_clearCounter hi, clearCounterIn, hs]; exact BitVec.le_def.2 (Nat.zero_le _)

theorem score_of_next_play (h : Clearing oor b s) (hi : i.reset = false) (hp : (s.next oor i).state = .play) :
    s.state = .score := by
  rw [next_state hi, nextState] at hp
  rcases h.stage with ⟨_, hs, _⟩ | ⟨hs, _⟩ | ⟨hs, _⟩
  · rw [hs] at hp; simp only at hp; split_ifs at hp
  · rw [hs] at hp; simp only at hp; split_ifs at hp
  · exact hs

/-- With a shift to come, `SCORE` is reached from `DROP` only, at a frame edge. -/
theorem drop_of_next_score (h : Clearing oor b s) (hi : i.reset = false) (hne : (scan b).clearY ≠ (scan b).numRows)
    (hn : (s.next oor i).state = .score) : s.state = .drop ∧ i.frameClkRisingEdge = true := by
  rcases h.stage with ⟨_, hs, _, hfull, hcount⟩ | ⟨hs, _⟩ | ⟨hs, _⟩
  · by_cases he : s.erases i
    · rw [next_state_of_erase oor hi hs he, h.clearY, h.numRows, if_neg hne] at hn
      split_ifs at hn
    · rw [(next_of_wait oor hi hs hfull hcount he).1] at hn
      cases hn
  · rw [next_state hi, nextState, hs] at hn
    simp only at hn
    split_ifs at hn with hedge
    exact ⟨hs, hedge⟩
  · rw [next_state hi, nextState, hs] at hn
    cases hn

/-! ## Progress -/

/-- Frame edges left before the machine reaches `SCORE`, at most. -/
def framesLeft (s : Board) : ℕ :=
  match s.state with
  | .clear => 4 * (scan s.boardArr).clearY.toNat + 6 - s.clearCounter.toNat
  | .drop => 1
  | _ => 0

theorem framesLeft_clear (hs : s.state = .clear) :
    framesLeft s = 4 * (scan s.boardArr).clearY.toNat + 6 - s.clearCounter.toNat := by
  rw [framesLeft, hs]

theorem framesLeft_drop (hs : s.state = .drop) : framesLeft s = 1 := by rw [framesLeft, hs]

theorem framesLeft_score (hs : s.state = .score) : framesLeft s = 0 := by rw [framesLeft, hs]

/-- An erase takes a frame edge away: the lowest full row is higher up after it. -/
theorem framesLeft_of_erase (hi : i.reset = false) (hs : s.state = .clear) (harr : s.boardArr = eraseFrom b k)
    (he : s.erases i) (h' : Clearing oor b (s.next oor i)) : framesLeft (s.next oor i) < framesLeft s := by
  obtain ⟨y, hy, -, -, -, hwrite⟩ := erase_boardArr oor hi hs harr he
  have hleft : framesLeft s = 4 * y + 3 := by
    rw [framesLeft_clear hs, he.2.1, hy]
    rfl
  rw [hleft]
  rcases h'.stage with ⟨_, hs', _, hfull', _⟩ | ⟨hs', _⟩ | ⟨hs', _⟩
  · obtain ⟨y', hy', hfully, -⟩ := clearY_spec hfull'
    rw [hwrite, fullRow_eraseFrom] at hfully
    rw [framesLeft_clear hs', hy']
    omega
  · rw [framesLeft_drop hs']
    omega
  · rw [framesLeft_score hs']
    omega

/-- While the machine is busy no cycle adds to the frame edges left, and a frame edge takes one
away. -/
theorem framesLeft_next (h : Clearing oor b s) (hi : i.reset = false) (h' : Clearing oor b (s.next oor i)) :
    framesLeft (s.next oor i) ≤ framesLeft s ∧
      (i.frameClkRisingEdge = true → framesLeft (s.next oor i) < framesLeft s) := by
  rcases h.stage with ⟨k, hs, harr, hfull, hcount⟩ | ⟨hs, harr, hne⟩ | ⟨hs, harr⟩
  · by_cases he : s.erases i
    · -- an erase moves the lowest full row up, so it pays for the counter that starts again
      have hlt := framesLeft_of_erase hi hs harr he h'
      exact ⟨le_of_lt hlt, fun _ => hlt⟩
    · obtain ⟨hs', harr', hnat, -⟩ := next_of_wait oor hi hs hfull hcount he
      have hle : s.clearCounter.toNat ≤ 3 := BitVec.le_def.1 hcount
      rw [framesLeft_clear hs', framesLeft_clear hs, harr', hnat]
      exact ⟨by omega, fun hedge => by rw [if_pos hedge]; omega⟩
  · rw [framesLeft_drop hs]
    by_cases hedge : i.frameClkRisingEdge
    · have hs' : (s.next oor i).state = .score := by
        rw [next_state hi, nextState, hs]; exact if_pos hedge
      rw [framesLeft_score hs']
      exact ⟨Nat.zero_le _, fun _ => Nat.zero_lt_one⟩
    · have hs' : (s.next oor i).state = .drop := by
        rw [next_state hi, nextState, hs]; exact if_neg hedge
      rw [framesLeft_drop hs']
      exact ⟨le_rfl, fun h => absurd h hedge⟩
  · have hplay : (s.next oor i).state = .play := by rw [next_state hi, nextState, hs]
    exact absurd hplay h'.ne_play

end Clearing

/-! ## Whole clears -/

section Run

variable {s : Board} {inp : ℕ → In} {a : ℕ} (hr : ∀ t, a ≤ t → (inp t).reset = false)
  (h : Clearing oor b ((design oor).trace s inp a))

include hr h

/-- The clear lasts until the first `PLAY` cycle, and that cycle has the cleared board. -/
theorem cleared_at_play {T : ℕ} (haT : a ≤ T) (hbusy : ∀ t, a ≤ t → t < T → ((design oor).trace s inp t).state ≠ .play)
    (hplay : ((design oor).trace s inp T).state = .play) : ((design oor).trace s inp T).boardArr = cleared oor b := by
  have hphase := Sync.Design.trace_phase
    (fun s => Clearing oor b s ∨ s.state = .play ∧ s.boardArr = cleared oor b) haT (.inl h) ?_
  · rcases hphase with hc | hp
    · exact absurd hplay hc.ne_play
    · exact hp.2
  · intro t hat htT hP
    rcases hP with hc | hp
    · exact hc.step (hr t hat)
    · exact absurd hp.1 (hbusy t hat htT)

/-- With frame edges for ever the clear ends. -/
theorem exists_play (hedges : ∀ n, ∃ t, n ≤ t ∧ (inp t).frameClkRisingEdge = true) :
    ∃ T, a < T ∧ ((design oor).trace s inp T).state = .play ∧
      ∀ t, a ≤ t → t < T → ((design oor).trace s inp t).state ≠ .play := by
  classical
  have hend := Sync.Design.exists_not_busy (d := design oor) (s := s) (Clearing oor b)
    (·.frameClkRisingEdge = true) (·.reset = false) Clearing.framesLeft
    (fun _ _ hi hc hc' => hc.framesLeft_next hi hc') hr hedges
  obtain ⟨hle, hno⟩ := Nat.find_spec hend
  have hbefore : ∀ t, a ≤ t → t < Nat.find hend → Clearing oor b ((design oor).trace s inp t) :=
    fun t hat ht => by
      by_contra hc
      exact Nat.find_min hend ht ⟨hat, hc⟩
  have hlt : a < Nat.find hend := lt_of_le_of_ne hle fun ha => hno (ha ▸ h)
  refine ⟨Nat.find hend, hlt, ?_, fun t hat ht => (hbefore t hat ht).ne_play⟩
  -- the last busy cycle hands over to `PLAY`
  obtain ⟨T, hT⟩ := Nat.exists_eq_succ_of_ne_zero (Nat.ne_of_gt (lt_of_le_of_lt (Nat.zero_le a) hlt))
  rw [hT] at hno hlt hbefore ⊢
  rcases (hbefore T (Nat.le_of_lt_succ hlt) (Nat.lt_succ_self T)).step (hr T (Nat.le_of_lt_succ hlt)) with hc | hp
  · exact absurd hc hno
  · exact hp.1

/-- With a shift to come and frame edges for ever, the machine shifts the rows, and the clear ends after that. -/
theorem exists_drop (hne : (scan b).clearY ≠ (scan b).numRows)
    (ha : ((design oor).trace s inp a).state = .clear) (hedges : ∀ n, ∃ t, n ≤ t ∧ (inp t).frameClkRisingEdge = true) :
    ∃ T, a ≤ T ∧ ((design oor).trace s inp T).state = .drop ∧ (inp T).frameClkRisingEdge = true ∧
      ∀ t, a ≤ t → t ≤ T + 1 → Clearing oor b ((design oor).trace s inp t) := by
  obtain ⟨T, haT, hplay, hbusy⟩ := exists_play hr h hedges
  have hclearing : ∀ t, a ≤ t → t < T → Clearing oor b ((design oor).trace s inp t) := fun t hat ht =>
    Sync.Design.trace_phase (Clearing oor b) hat h fun u h1 h2 hu =>
      (hu.step (hr u h1)).resolve_right fun hp => hbusy (u + 1) (Nat.le_succ_of_le h1) (lt_of_le_of_lt h2 ht) hp.1
  -- back from `PLAY`: the cycle before it is in `SCORE`, and the one before that in `DROP`
  obtain ⟨u, rfl⟩ := Nat.exists_eq_succ_of_ne_zero (Nat.ne_of_gt (lt_of_le_of_lt (Nat.zero_le a) haT))
  have hau : a ≤ u := Nat.le_of_lt_succ haT
  have hscore := (hclearing u hau (Nat.lt_succ_self u)).score_of_next_play (hr u hau) hplay
  have hau' : a < u := lt_of_le_of_ne hau fun h => by rw [← h, ha] at hscore; cases hscore
  obtain ⟨v, rfl⟩ := Nat.exists_eq_succ_of_ne_zero (Nat.ne_of_gt (lt_of_le_of_lt (Nat.zero_le a) hau'))
  have hav : a ≤ v := Nat.le_of_lt_succ hau'
  obtain ⟨hs, hedge⟩ := (hclearing v hav (by omega)).drop_of_next_score (hr v hav) hne hscore
  exact ⟨v, hav, hs, hedge, fun t hat ht => hclearing t hat (by omega)⟩

end Run

end Board

end FpgaTetris
