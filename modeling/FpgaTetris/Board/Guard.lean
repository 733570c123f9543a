/-
The way out of `CLEAR` in `board.sv`: the comparison of `clear_y_reg` with `num_rows_reg` against the
rows above the lowest full one that have to fall.
-/
import FpgaTetris.Board.LineClear
import Mathlib.Order.Interval.Finset.Fin

namespace FpgaTetris

variable {oor : OutOfRange} {b : BoardArr} {c : Fin ySize}

/-! ## Gaps -/

/-- The rows above row `c` that are not full. -/
def gaps (b : BoardArr) (c : Fin ySize) : Finset (Fin ySize) := (Finset.Iio c).filter (¬ FullRow b ·)

theorem mem_gaps {y : Fin ySize} : y ∈ gaps b c ↔ y < c ∧ ¬ FullRow b y := by simp [gaps]

theorem card_gaps_ne_zero_iff : (gaps b c).card ≠ 0 ↔ ∃ y < c, ¬ FullRow b y := by
  rw [Finset.card_ne_zero]
  exact exists_congr fun y => mem_gaps

section Lowest

variable (hc : IsGreatest {y | FullRow b y} c)

include hc

theorem card_gaps_eq_zero_iff : (gaps b c).card = 0 ↔ ∀ y ≤ c, FullRow b y := by
  rw [← not_iff_not, ← Ne, card_gaps_ne_zero_iff]
  push Not
  constructor
  · rintro ⟨y, hy, hnf⟩
    exact ⟨y, le_of_lt hy, hnf⟩
  · rintro ⟨y, hy, hnf⟩
    exact ⟨y, lt_of_le_of_ne hy fun h => hnf (h ▸ hc.1), hnf⟩

/-- The rows down to the lowest full one are the full rows and the gaps. -/
theorem card_gaps : (fullRows b).length + (gaps b c).card = c + 1 := by
  have hfull : (fullRows b).toFinset = (Finset.Iic c).filter (FullRow b ·) := by
    ext y
    rw [List.mem_toFinset, mem_fullRows, Finset.mem_filter, Finset.mem_Iic]
    exact ⟨fun hy => ⟨hc.2 hy, hy⟩, And.right⟩
  have hgaps : gaps b c = (Finset.Iic c).filter (¬ FullRow b ·) := by
    ext y
    rw [mem_gaps, Finset.mem_filter, Finset.mem_Iic]
    refine and_congr_left fun hnf => ⟨le_of_lt, fun hy => ?_⟩
    exact lt_of_le_of_ne hy fun h => hnf (h ▸ hc.1)
  have hsplit := Finset.card_filter_add_card_filter_not (s := Finset.Iic c) (p := (FullRow b ·))
  rwa [← hfull, ← hgaps, Fin.card_Iic, List.toFinset_card_of_nodup] at hsplit
  exact (fullRows_sorted b).imp ne_of_lt

theorem Board.clearY_toNat : (scan b).clearY.toNat = c := by
  obtain ⟨y, hy, hfull, hlow⟩ := clearY_spec ⟨c, hc.1⟩
  rw [hy, le_antisymm (hc.2 hfull) (hlow c hc.1)]

/-- The comparison of the two numbers tells one gap from any other number of them. -/
theorem Board.clearY_eq_numRows_iff : (scan b).clearY = (scan b).numRows ↔ (gaps b c).card = 1 := by
  have hcard := card_gaps hc
  rw [← BitVec.toNat_inj, clearY_toNat hc, numRows_toNat]
  omega

end Lowest

namespace Board

/-! ## The last erase -/

namespace Clearing

variable {s : Board} {i : In} (h : Clearing oor b s) (hi : i.reset = false) (hs : s.state = .clear)

include h hs

theorem of_clear :
    ∃ k, s.boardArr = eraseFrom b k ∧ (∃ y, FullRow s.boardArr y) ∧ s.clearCounter ≤ clearFrames := by
  rcases h.stage with ⟨k, -, harr, hfull, hcount⟩ | ⟨hd, _⟩ | ⟨hd, _⟩
  · exact ⟨k, harr, hfull, hcount⟩
  · rw [hs] at hd; cases hd
  · rw [hs] at hd; cases hd

include hi

/-- With a full row left the machine stays in `CLEAR`. -/
theorem next_of_fullRow (hfull : ∃ y, FullRow (s.next oor i).boardArr y) :
    Clearing oor b (s.next oor i) ∧ (s.next oor i).state = .clear := by
  constructor
  · refine (h.step hi).resolve_right fun hp => ?_
    have hscore := h.score_of_next_play hi hp.1
    rw [hs] at hscore
    cases hscore
  · by_contra hne
    obtain ⟨y, hy⟩ := hfull
    exact noFull_of_clear_end hi hs hne y hy

/-- With no full row left the machine leaves `CLEAR`. -/
theorem next_state_of_last (hlast : ∀ y, ¬ FullRow (s.next oor i).boardArr y) :
    (s.next oor i).state = if (scan b).clearY = (scan b).numRows then .score else .drop := by
  obtain ⟨k, harr, hrow, hcount⟩ := h.of_clear hs
  have he : s.erases i := by
    by_contra he
    obtain ⟨-, hsame, -⟩ := next_of_wait oor hi hs hrow hcount he
    obtain ⟨y, hy⟩ := hrow
    exact hlast y (by rwa [hsame])
  rw [next_state_of_erase oor hi hs he, if_neg, h.clearY, h.numRows]
  exact not_not_intro ((numRows_eq_one_iff_of_erase oor hi hs harr he).2 hlast)

end Clearing

/-- What the end of `CLEAR` should be for a board whose lowest full row is `c`: a shift exactly when
some row above has to fall. -/
structure DropsExactly (b : BoardArr) (c : Fin ySize) (s s' : Board) : Prop where
  clear : s.state = .clear
  clearY : s.clearYReg.toNat = c
  numRows : s.numRowsReg.toNat = (fullRows b).length
  guard : s'.state = .drop ↔ s.clearYReg - s.numRowsReg ≠ 0
  drop : s'.state = .drop ↔ ∃ y < c, ¬ FullRow b y
  score : s'.state = .score ↔ ∀ y ≤ c, FullRow b y

section Run

variable {s : Board} {inp : ℕ → In} {T : ℕ} (hs : s.state = .play) (hg : (inp 0).getNewBlock = true)
  (hr : ∀ t, t ≤ T → (inp t).reset = false) (hc : IsGreatest {y | FullRow s.boardArr y} c)
  (hpiece : ∀ c, pos c ∈ cells (inp 0).xBlock (inp 0).yBlock → s.boardArr c = (inp 0).block)
  (hleft : ∀ t, 0 < t → t ≤ T → ∃ y, FullRow ((design oor).trace s inp t).boardArr y)

include hs hg hr hc hpiece hleft

/-- As long as full rows are left the machine is in `CLEAR`. -/
theorem clear_of_fullRows (hT : 0 < T) :
    Clearing oor s.boardArr ((design oor).trace s inp T) ∧ ((design oor).trace s inp T).state = .clear := by
  refine Sync.Design.trace_phase (fun s' => Clearing oor s.boardArr s' ∧ s'.state = .clear) hT ?_ ?_
  · have hi := hr 0 (Nat.zero_le T)
    refine ⟨Clearing.start hi hs hg ⟨c, hc.1⟩ hpiece, ?_⟩
    rw [Sync.Design.trace_succ, Sync.Design.trace_zero]
    show (s.next oor (inp 0)).state = _
    rw [next_state hi, nextState, hs]
    exact if_pos ⟨hg, (canClearRow_iff _).2 ⟨c, hc.1⟩⟩
  · rintro t ht htT ⟨hcl, hstate⟩
    exact hcl.next_of_fullRow (hr t (le_of_lt htT)) hstate (hleft (t + 1) (Nat.succ_pos t) htT)

variable (hlast : ∀ y, ¬ FullRow ((design oor).trace s inp (T + 1)).boardArr y)

include hlast

theorem pos_of_last : 0 < T := by
  rcases Nat.eq_zero_or_pos T with rfl | hT
  · have hsame := Clearing.boardArr_of_lock oor (hr 0 le_rfl) hs hg hpiece
    refine absurd hc.1 ?_
    rw [Set.mem_ofPred_eq, ← hsame]
    exact hlast c
  · exact hT

/-- What the machine has saved, and where it goes, when the last full row is erased. -/
theorem last_erase :
    Clearing oor s.boardArr ((design oor).trace s inp T) ∧ ((design oor).trace s inp T).state = .clear ∧
      ((design oor).trace s inp (T + 1)).state = if (gaps s.boardArr c).card = 1 then .score else .drop := by
  have hT := pos_of_last hs hg hr hc hpiece hleft hlast
  obtain ⟨hcl, hstate⟩ := clear_of_fullRows hs hg hr hc hpiece hleft hT
  refine ⟨hcl, hstate, ?_⟩
  rw [← if_congr (clearY_eq_numRows_iff hc) rfl rfl]
  exact hcl.next_state_of_last (hr T le_rfl) hstate hlast

/-- `DROP` is entered exactly when something has to fall for the boards with at least two gaps. -/
theorem drops_exactly_iff :
    DropsExactly s.boardArr c ((design oor).trace s inp T) ((design oor).trace s inp (T + 1)) ↔
      1 < (gaps s.boardArr c).card := by
  obtain ⟨hcl, hclear, hstate⟩ := last_erase hs hg hr hc hpiece hleft hlast
  have hdrop : ((design oor).trace s inp (T + 1)).state = .drop ↔ (gaps s.boardArr c).card ≠ 1 := by
    rw [hstate]; split_ifs <;> simp [*]
  have hscore : ((design oor).trace s inp (T + 1)).state = .score ↔ (gaps s.boardArr c).card = 1 := by
    rw [hstate]; split_ifs <;> simp [*]
  constructor
  · -- the code drops unless there is one gap, and should unless there is none
    intro h
    have h1 := hdrop.symm.trans (h.drop.trans card_gaps_ne_zero_iff.symm)
    omega
  · intro hmore
    refine ⟨hclear, ?_, ?_, ?_, ?_, ?_⟩
    · rw [hcl.clearY, clearY_toNat hc]
    · rw [hcl.numRows, numRows_toNat]
    · rw [hdrop, Ne, ← clearY_eq_numRows_iff hc, hcl.clearY, hcl.numRows, Ne, sub_eq_zero]
    · rw [hdrop, ← card_gaps_ne_zero_iff]
      omega
    · rw [hscore, ← card_gaps_eq_zero_iff hc]
      omega

end Run

variable (oor) in
/-- With frame edges for ever the last full row gets erased. -/
theorem exists_last (s : Board) (inp : ℕ → In) (hs : s.state = .play) (hg : (inp 0).getNewBlock = true)
    (hr : ∀ t, (inp t).reset = false) (hc : IsGreatest {y | FullRow s.boardArr y} c)
    (hpiece : ∀ c, pos c ∈ cells (inp 0).xBlock (inp 0).yBlock → s.boardArr c = (inp 0).block)
    (hedges : ∀ n, ∃ t, n ≤ t ∧ (inp t).frameClkRisingEdge = true) :
    ∃ T, (∀ t, 0 < t → t ≤ T → ∃ y, FullRow ((design oor).trace s inp t).boardArr y) ∧
      ∀ y, ¬ FullRow ((design oor).trace s inp (T + 1)).boardArr y := by
  by_contra hno
  push Not at hno
  have hleft : ∀ T t, 0 < t → t ≤ T → ∃ y, FullRow ((design oor).trace s inp t).boardArr y := by
    intro T
    induction T with
    | zero => intro t ht htT; omega
    | succ T ih =>
      intro t ht htT
      rcases Nat.le_succ_iff.1 htT with h | rfl
      · exact ih t ht h
      · exact hno T ih
  -- but full rows for ever would keep the machine in `CLEAR`
  obtain ⟨T, hT, hplay, -⟩ := exists_return oor s inp hs hg hr ⟨c, hc.1⟩ hpiece hedges
  have hclear := (clear_of_fullRows hs hg (fun t _ => hr t) hc hpiece (hleft T) hT).2
  rw [hplay] at hclear
  cases hclear

theorem drops_exactly_flush :
    ∃ T, DropsExactly flush 19 ((design someReads).trace (playing flush) (fun _ => lockSquare 18) T)
      ((design someReads).trace (playing flush) (fun _ => lockSquare 18) (T + 1)) := by
  have hc : IsGreatest {y | FullRow flush y} 19 := ⟨by decide, fun y _ => Fin.le_last y⟩
  have hpiece : ∀ c, pos c ∈ cells (lockSquare 18).xBlock (lockSquare 18).yBlock → flush c = .yellow := by
    decide +kernel
  obtain ⟨T, hleft, hlast⟩ := exists_last someReads (playing flush) (fun _ => lockSquare 18) rfl rfl
    (fun _ => rfl) hc hpiece fun n => ⟨n, le_rfl, rfl⟩
  refine ⟨T, (drops_exactly_iff rfl rfl (fun _ _ => rfl) hc hpiece hleft hlast).2 ?_⟩
  decide

/-- A square locked in the two top rows, on a pile of one column; it fills row 1 only. -/
def topped : BoardArr := fun c =>
  if c.2 < 2 ∧ (c.1 = 4 ∨ c.1 = 5) then .yellow else if c.2 = 1 ∨ 1 < c.2 ∧ c.1 = 4 then .red else .empty

/-- The upper half of the square stays where it is: the machine goes to `SCORE`. -/
theorem skips_drop :
    IsGreatest {y | FullRow topped y} 1 ∧
      (∀ c, pos c ∈ cells (lockSquare 0).xBlock (lockSquare 0).yBlock → topped c = (lockSquare 0).block) ∧
      ∃ T, (∀ t, 0 < t → t ≤ T →
          ∃ y, FullRow ((design someReads).trace (playing topped) (fun _ => lockSquare 0) t).boardArr y) ∧
        (∀ y, ¬ FullRow ((design someReads).trace (playing topped) (fun _ => lockSquare 0) (T + 1)).boardArr y) ∧
        ¬ DropsExactly topped 1 ((design someReads).trace (playing topped) (fun _ => lockSquare 0) T)
          ((design someReads).trace (playing topped) (fun _ => lockSquare 0) (T + 1)) := by
  have hc : IsGreatest {y | FullRow topped y} 1 := by
    refine ⟨by decide, fun y hy => ?_⟩
    revert y
    decide
  have hpiece : ∀ c, pos c ∈ cells (lockSquare 0).xBlock (lockSquare 0).yBlock → topped c = .yellow := by
    decide +kernel
  obtain ⟨T, hleft, hlast⟩ := exists_last someReads (playing topped) (fun _ => lockSquare 0) rfl rfl
    (fun _ => rfl) hc hpiece fun n => ⟨n, le_rfl, rfl⟩
  refine ⟨hc, hpiece, T, hleft, hlast, fun h => ?_⟩
  -- with one gap the code leaves without a shift
  have hstate := (last_erase rfl rfl (fun _ _ => rfl) hc hpiece hleft hlast).2.2
  have hone : (gaps topped 1).card = 1 := by decide
  have hdrop := h.drop.2 ⟨0, by decide, by decide⟩
  rw [hdrop, show (playing topped).boardArr = topped from rfl, if_pos hone] at hstate
  cases hstate

end Board

end FpgaTetris
