/-
The pace of the clearing machine: `CLEAR` lasts four frame edges for each full row, and every fourth
edge empties the lowest full row left.
-/
import FpgaTetris.Board.LineClear
import Mathlib.Data.Nat.Count
import Mathlib.Order.Bounds.Basic

namespace FpgaTetris

variable {oor : OutOfRange} {b : BoardArr} {c : ℕ}

/-! ## The rows erased and the rows left -/

/-- The full rows from row `c` down. -/
def fullRowsFrom (b : BoardArr) (c : ℕ) : List (Fin ySize) := (fullRows b).filter (c ≤ ·.val)

theorem fullRows_eraseFrom : fullRows (eraseFrom b c) = (fullRows b).filter (·.val < c) := by
  unfold fullRows
  rw [List.filter_filter]
  congr 1
  funext y
  simp only [fullRow_eraseFrom, Bool.decide_and, Bool.and_comm]

theorem length_fullRows_eraseFrom :
    (fullRows (eraseFrom b c)).length + (fullRowsFrom b c).length = (fullRows b).length := by
  have hsplit := List.length_eq_length_filter_add (l := fullRows b) (fun y => decide (y.val < c))
  rw [hsplit, fullRows_eraseFrom, fullRowsFrom]
  congr 2
  refine List.filter_congr fun y _ => ?_
  rw [← decide_not, decide_eq_decide, Nat.not_lt]

/-- Erasing the lowest full row above row `c` adds one to the rows erased. -/
theorem length_fullRowsFrom {y : Fin ySize} (hy : FullRow b y) (hyc : y.val < c)
    (hlow : ∀ y' : Fin ySize, FullRow b y' → y'.val < c → y' ≤ y) :
    (fullRowsFrom b y).length = (fullRowsFrom b c).length + 1 := by
  have hperm : (fullRowsFrom b y).Perm (y :: fullRowsFrom b c) := by
    have hnodup : (fullRows b).Nodup := (fullRows_sorted b).imp ne_of_lt
    -- the erased row is the only full one between the two bounds
    have hnot : y ∉ fullRowsFrom b c := fun h => by
      have := (List.mem_filter.1 h).2
      simp only [decide_eq_true_eq] at this
      omega
    have hcons : (y :: fullRowsFrom b c).Nodup := List.nodup_cons.2 ⟨hnot, hnodup.filter _⟩
    refine (List.perm_ext_iff_of_nodup (hnodup.filter _) hcons).2 fun z => ?_
    simp only [fullRowsFrom, List.mem_cons, List.mem_filter, mem_fullRows, decide_eq_true_eq]
    constructor
    · rintro ⟨hz, hyz⟩
      by_cases hzc : z.val < c
      · exact .inl (le_antisymm (hlow z hz hzc) hyz)
      · exact .inr ⟨hz, Nat.le_of_not_lt hzc⟩
    · rintro (rfl | ⟨hz, hcz⟩)
      · exact ⟨hy, le_rfl⟩
      · exact ⟨hz, by omega⟩
  rw [hperm.length_eq, List.length_cons]

theorem eraseFrom_of_length (h : (fullRowsFrom b c).length = (fullRows b).length) : eraseFrom b c = eraseFull b := by
  refine eraseFrom_eq_eraseFull fun y hy => ?_
  have hmem := List.length_filter_eq_length_iff.1 h y (mem_fullRows.2 hy)
  simpa using hmem

namespace Board

/-! ## One clock edge -/

/-- `CLEAR` after `n` frame edges of a clear of `b`: the `n / 4` lowest full rows are empty, and every
other cell is as in `b`. -/
structure Erasing (b : BoardArr) (n : ℕ) (s : Board) : Prop where
  state : s.state = .clear
  counter : s.clearCounter.toNat = n % 4
  board : ∃ c, s.boardArr = eraseFrom b c ∧ (fullRowsFrom b c).length = n / 4

namespace Erasing

variable {s : Board} {i : In} {n : ℕ}

/-- A lock with a full row starts the phase. -/
theorem start (hi : i.reset = false) (hs : s.state = .play) (hg : i.getNewBlock = true)
    (hfull : ∃ y, FullRow s.boardArr y) (hpiece : ∀ c, pos c ∈ cells i.xBlock i.yBlock → s.boardArr c = i.block) :
    Erasing s.boardArr 0 (s.next oor i) := by
  refine ⟨?_, ?_, ySize, (Clearing.boardArr_of_lock oor hi hs hg hpiece).trans eraseFrom_ySize.symm, ?_⟩
  · rw [next_state hi, nextState, hs]
    exact if_pos ⟨hg, (canClearRow_iff _).2 hfull⟩
  · rw [next_clearCounter hi, clearCounterIn, hs]
    rfl
  · rw [fullRowsFrom, List.length_eq_zero_iff, List.filter_eq_nil_iff]
    intro y _
    simp

theorem counter_le (h : Erasing b n s) : s.clearCounter ≤ clearFrames := by
  rw [BitVec.le_def, h.counter]
  exact Nat.le_of_lt_succ (Nat.mod_lt n (by decide))

theorem numRows (h : Erasing b n s) : (scan s.boardArr).numRows.toNat + n / 4 = (fullRows b).length := by
  obtain ⟨c, harr, hlen⟩ := h.board
  rw [numRows_toNat, harr, ← hlen]
  exact length_fullRows_eraseFrom

theorem exists_fullRow (h : Erasing b n s) (hn : n < 4 * (fullRows b).length) : ∃ y, FullRow s.boardArr y := by
  have hcount := h.numRows
  rw [numRows_toNat] at hcount
  obtain ⟨y, hy⟩ := List.exists_mem_of_length_pos (l := fullRows s.boardArr) (by omega)
  exact ⟨y, mem_fullRows.1 hy⟩

theorem erases_iff (h : Erasing b n s) (hn : n < 4 * (fullRows b).length) :
    s.erases i ↔ i.frameClkRisingEdge = true ∧ n % 4 = 3 := by
  have hthree : s.clearCounter = clearFrames ↔ n % 4 = 3 := by
    rw [← BitVec.toNat_inj, h.counter]
    rfl
  unfold erases
  rw [hthree, canClearRow_iff]
  exact ⟨fun he => ⟨he.1, he.2.1⟩, fun he => ⟨he.1, he.2, h.exists_fullRow hn⟩⟩

variable (oor) in
/-- Edges that are not a fourth one are counted. -/
theorem next_of_wait (h : Erasing b n s) (hn : n < 4 * (fullRows b).length) (hi : i.reset = false)
    (he : ¬ s.erases i) :
    Erasing b (n + if i.frameClkRisingEdge then 1 else 0) (s.next oor i) ∧ (s.next oor i).boardArr = s.boardArr := by
  obtain ⟨hs, harr, hcount, -⟩ := Clearing.next_of_wait oor hi h.state (h.exists_fullRow hn) h.counter_le he
  rw [h.erases_iff hn] at he
  rw [h.counter] at hcount
  refine ⟨⟨hs, ?_, ?_⟩, harr⟩
  · rw [hcount]
    split_ifs with hedge
    · have : n % 4 ≠ 3 := fun h3 => he ⟨hedge, h3⟩
      omega
    · omega
  · obtain ⟨c, hc, hlen⟩ := h.board
    refine ⟨c, harr.trans hc, hlen.trans ?_⟩
    split_ifs with hedge
    · have : n % 4 ≠ 3 := fun h3 => he ⟨hedge, h3⟩
      omega
    · rfl

variable (oor) in
/-- A fourth edge empties the lowest full row left. -/
theorem next_of_erase (h : Erasing b n s) (hi : i.reset = false) (he : s.erases i) :
    ∃ y, FullRow b y ∧ IsGreatest {y | FullRow s.boardArr y} y ∧
      ((s.next oor i).boardArr = fun d => if d.2 = y then .empty else s.boardArr d) ∧
      (s.next oor i).boardArr = eraseFrom b y ∧ (fullRowsFrom b y).length = n / 4 + 1 := by
  obtain ⟨c, harr, hlen⟩ := h.board
  obtain ⟨y, hclear, hy, hyc, hlow, hnext⟩ := Clearing.erase_boardArr oor hi h.state harr he
  refine ⟨y, hy, ?_, ?_, hnext, ?_⟩
  · rw [harr]
    refine ⟨fullRow_eraseFrom.2 ⟨hy, hyc⟩, fun y' hy' => ?_⟩
    have hy' := fullRow_eraseFrom.1 hy'
    exact hlow y' hy'.1 hy'.2
  · rw [next_boardArr hi, boardIn, h.state]
    simp only
    rw [if_pos he]
    funext d
    have hmem : pos d ∈ clearCells (scan s.boardArr).clearY ↔ d.2 = y := by
      rw [mem_clearCells, hclear, Fin.ext_iff]
    rw [BoardArr.writeAll_const, if_congr hmem rfl rfl]
  · rw [length_fullRowsFrom hy hyc hlow, hlen]

/-- The state after a fourth edge, by the rows left before it. -/
theorem next_state_of_erase (h : Erasing b n s) (hi : i.reset = false) (he : s.erases i) :
    (s.next oor i).state = .clear ↔ n / 4 + 1 < (fullRows b).length := by
  have hcount := h.numRows
  have hpos := numRows_pos ((canClearRow_iff _).1 he.2.2)
  rw [Clearing.next_state_of_erase oor hi h.state he]
  by_cases hone : (scan s.boardArr).numRows = 1
  · have hlast : (fullRows b).length = n / 4 + 1 := by rw [← hcount, hone, Nat.add_comm]; rfl
    rw [if_neg (not_not_intro hone), hlast]
    split_ifs <;> simp
  · have hne : (scan s.boardArr).numRows.toNat ≠ 1 := fun h => hone (BitVec.eq_of_toNat_eq h)
    rw [if_pos hone]
    exact iff_of_true rfl (by omega)

theorem next_clearCounter_of_erase (h : Erasing b n s) (hi : i.reset = false) (he : s.erases i) :
    (s.next oor i).clearCounter = 0 := by
  rw [next_clearCounter hi, clearCounterIn, h.state]
  exact if_pos he

/-- One cycle, by what is left to erase. -/
theorem step (h : Erasing b n s) (hn : n < 4 * (fullRows b).length) (hi : i.reset = false) :
    let m := n + if i.frameClkRisingEdge then 1 else 0
    (m < 4 * (fullRows b).length → Erasing b m (s.next oor i)) ∧
      (m = 4 * (fullRows b).length → (s.next oor i).state ≠ .clear ∧ (s.next oor i).boardArr = eraseFull b) := by
  intro m
  by_cases he : s.erases i
  · obtain ⟨hedge, hthree⟩ := (h.erases_iff hn).1 he
    have hm : m = n + 1 := by simp only [m]; rw [if_pos hedge]
    obtain ⟨y, -, -, -, harr, hlen⟩ := h.next_of_erase oor hi he
    rw [hm]
    constructor
    · intro hlt
      refine ⟨(h.next_state_of_erase hi he).2 (by omega), ?_, y, harr, by omega⟩
      rw [h.next_clearCounter_of_erase hi he]
      show 0 = _
      omega
    · intro hlast
      refine ⟨fun hs => ?_, harr.trans (eraseFrom_of_length (by omega))⟩
      have := (h.next_state_of_erase hi he).1 hs
      omega
  · have hstay := (h.next_of_wait oor hn hi he).1
    refine ⟨fun _ => hstay, fun hlast => ?_⟩
    -- the last edge is a fourth one
    rw [h.erases_iff hn] at he
    have : m ≤ n ∨ n % 4 ≠ 3 := by
      by_cases hedge : i.frameClkRisingEdge = true
      · exact .inr fun h3 => he ⟨hedge, h3⟩
      · left; simp only [m]; rw [if_neg hedge]; omega
    have hle : m ≤ n + 1 := by simp only [m]; split_ifs <;> omega
    omega

end Erasing

/-! ## The phase -/

/-- The frame edges in the cycles 1 to `n`. -/
def frameEdges (inp : ℕ → In) (n : ℕ) : ℕ := Nat.count (fun t => (inp (t + 1)).frameClkRisingEdge = true) n

theorem frameEdges_succ (inp : ℕ → In) (n : ℕ) :
    frameEdges inp (n + 1) = frameEdges inp n + if (inp (n + 1)).frameClkRisingEdge then 1 else 0 :=
  Nat.count_succ ..

/-- A `CLEAR` phase that erases the full rows of `b`, one at every fourth frame edge, for the cycles
`tr (n + 1)` that follow a lock by `edges n` frame edges. -/
structure ErasesFullRows (b : BoardArr) (tr : ℕ → Board) (edges : ℕ → ℕ) : Prop where
  clear : ∀ n, edges n < 4 * (fullRows b).length → Erasing b (edges n) (tr (n + 1))
  counter : ∀ n, edges n < 4 * (fullRows b).length → (tr (n + 1)).clearCounter ≤ 3
  erase : ∀ n, edges n < 4 * (fullRows b).length → edges n < edges (n + 1) → edges (n + 1) % 4 = 0 →
    ∃ y, FullRow b y ∧ IsGreatest {y | FullRow (tr (n + 1)).boardArr y} y ∧
      (tr (n + 2)).boardArr = fun d => if d.2 = y then .empty else (tr (n + 1)).boardArr d
  keep : ∀ n, edges n < 4 * (fullRows b).length → ¬ (edges n < edges (n + 1) ∧ edges (n + 1) % 4 = 0) →
    (tr (n + 2)).boardArr = (tr (n + 1)).boardArr
  leave : ∀ n, edges n < 4 * (fullRows b).length → edges (n + 1) = 4 * (fullRows b).length →
    (tr (n + 2)).state ≠ .clear ∧ (tr (n + 2)).boardArr = eraseFull b

section Run

variable {s : Board} {inp : ℕ → In} (hs : s.state = .play) (hg : (inp 0).getNewBlock = true)
  (hr : ∀ t, (inp t).reset = false) (hfull : ∃ y, FullRow s.boardArr y)
  (hpiece : ∀ c, pos c ∈ cells (inp 0).xBlock (inp 0).yBlock → s.boardArr c = (inp 0).block)

include hs hg hr hfull hpiece

variable (oor) in
/-- The induction over the phase: up to the last frame edge the machine is in `CLEAR`. -/
theorem erasing_of_lt (n : ℕ) (hn : frameEdges inp n < 4 * (fullRows s.boardArr).length) :
    Erasing s.boardArr (frameEdges inp n) ((design oor).trace s inp (n + 1)) := by
  induction n with
  | zero => exact Erasing.start (hr 0) hs hg hfull hpiece
  | succ n ih =>
    rw [frameEdges_succ] at hn ⊢
    have hlt : frameEdges inp n < 4 * (fullRows s.boardArr).length := lt_of_le_of_lt (Nat.le_add_right ..) hn
    exact ((ih hlt).step hlt (hr (n + 1))).1 hn

/-- The `CLEAR` phase erases exactly the rows that were full at the lock, and lasts four frame edges
for each of them. -/
theorem clear_phase : ErasesFullRows s.boardArr ((design oor).trace s inp) (frameEdges inp) where
  clear := erasing_of_lt oor hs hg hr hfull hpiece
  counter n hn := (erasing_of_lt oor hs hg hr hfull hpiece n hn).counter_le
  erase n hn hlt hfour := by
    have h := erasing_of_lt oor hs hg hr hfull hpiece n hn
    -- a fourth edge meets the counter at three
    have he : ((design oor).trace s inp (n + 1)).erases (inp (n + 1)) := by
      rw [frameEdges_succ] at hlt hfour
      rw [h.erases_iff hn]
      split_ifs at hlt hfour with hedge
      · exact ⟨hedge, by omega⟩
      · omega
    obtain ⟨y, hy, hlow, hnext, -⟩ := h.next_of_erase oor (hr (n + 1)) he
    exact ⟨y, hy, hlow, hnext⟩
  keep n hn hnot := by
    have h := erasing_of_lt oor hs hg hr hfull hpiece n hn
    refine (h.next_of_wait oor hn (hr (n + 1)) fun he => hnot ?_).2
    obtain ⟨hedge, hthree⟩ := (h.erases_iff hn).1 he
    rw [frameEdges_succ, if_pos hedge]
    omega
  leave n hn hlast := by
    rw [frameEdges_succ] at hlast
    exact ((erasing_of_lt oor hs hg hr hfull hpiece n hn).step hn (hr (n + 1))).2 hlast

end Run

/-- Two full rows at the lock of a square. -/
theorem clear_phase_flush :
    ErasesFullRows flush ((design someReads).trace (playing flush) fun _ => lockSquare 18)
      (frameEdges fun _ => lockSquare 18) :=
  clear_phase (s := playing flush) rfl rfl (fun _ => rfl) ⟨18, by decide⟩
    (by decide +kernel)

end Board

end FpgaTetris
