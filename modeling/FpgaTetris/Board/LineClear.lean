/-
Line clearing as the game means it, compaction of the rows, against what the clearing machine
leaves: the two agree exactly for some boards, by the comparison of a bulk shift with compaction.
-/
import FpgaTetris.Lib.Compact
import FpgaTetris.Board.Clearing
import FpgaTetris.Piece.Shape
import Mathlib.Data.List.OfFn

namespace FpgaTetris

/-! ## Rows -/

abbrev Row := Fin xSize → BlockColor

def emptyRow : Row := fun _ => .empty

/-- A row of ten blocks. -/
def Full (r : Row) : Prop := ∀ x, r x ≠ .empty

instance : DecidablePred Full := fun r => inferInstanceAs (Decidable (∀ x, r x ≠ .empty))

/-- The rows of the board, from the top down. -/
def rows (b : BoardArr) : List Row := List.ofFn fun y x => b (x, y)

/-- Line clearing: as many empty rows as there were full ones, then the other rows in order. -/
def LinesCleared (b b' : BoardArr) : Prop := rows b' = Compact.compact Full emptyRow (rows b)

namespace Board

open Compact

variable {oor : OutOfRange} {b : BoardArr}

@[simp] theorem length_rows (b : BoardArr) : (rows b).length = ySize := List.length_ofFn

theorem getElem_rows (b : BoardArr) (y : ℕ) (h : y < (rows b).length) :
    (rows b)[y] = fun x => b (x, ⟨y, by simpa using h⟩) := List.getElem_ofFn ..

theorem mem_take_rows {r : Row} {c : ℕ} : r ∈ (rows b).take c ↔ ∃ y : Fin ySize, y.val < c ∧ r = fun x => b (x, y) := by
  rw [List.mem_take_iff_getElem]
  constructor
  · rintro ⟨y, hy, rfl⟩
    rw [length_rows] at hy
    exact ⟨⟨y, by omega⟩, by simp; omega, getElem_rows b y _⟩
  · rintro ⟨y, hy, rfl⟩
    exact ⟨y, by rw [length_rows]; omega, getElem_rows b y _⟩

theorem mem_drop_rows {r : Row} {c : ℕ} : r ∈ (rows b).drop c ↔ ∃ y : Fin ySize, c ≤ y.val ∧ r = fun x => b (x, y) := by
  rw [List.mem_drop_iff_getElem]
  constructor
  · rintro ⟨y, hy, rfl⟩
    rw [length_rows] at hy
    exact ⟨⟨c + y, by omega⟩, by simp, getElem_rows b _ _⟩
  · rintro ⟨y, hy, rfl⟩
    refine ⟨y - c, by rw [length_rows]; omega, ?_⟩
    rw [getElem_rows]
    simp only [Nat.add_sub_cancel' hy]

theorem countP_rows (b : BoardArr) : (rows b).countP (Full ·) = (fullRows b).length := by
  unfold rows fullRows
  rw [List.ofFn_eq_map, List.countP_map, List.countP_eq_length_filter]
  rfl

theorem rows_eraseFull (b : BoardArr) : rows (eraseFull b) = blank Full emptyRow (rows b) := by
  unfold rows blank
  rw [List.map_ofFn]
  congr 1
  funext y x
  by_cases hy : FullRow b y
  · have hf : Full fun x => b (x, y) := hy
    simp [eraseFull, eraseFrom, hy, hf, emptyRow]
  · have hf : ¬ Full fun x => b (x, y) := hy
    simp [eraseFull, eraseFrom, hy, hf]

/-! ## The bulk shift on rows -/

/-- The shifted board, cell by cell. -/
theorem dropRows_apply (b : BoardArr) (n c : BitVec 5) (x : Fin xSize) (y : Fin ySize) :
    dropRows oor b n c (x, y) =
      if c.toNat < y then b (x, y)
      else if n.toNat ≤ y then b (x, ⟨y - n.toNat, lt_of_le_of_lt (Nat.sub_le ..) y.isLt⟩)
      else b.read oor ((pos (x, y)).1, (pos (x, y)).2 - n) := by
  have hy := pos_snd (x, y)
  unfold dropRows
  rw [if_congr (BitVec.lt_def.trans (by rw [hy])) rfl rfl]
  by_cases hc : c.toNat < y
  · rw [if_pos hc, if_pos hc]
    exact BoardArr.read_pos oor b (x, y)
  rw [if_neg hc, if_neg hc]
  by_cases hn : n.toNat ≤ y
  · rw [if_pos hn, ← BoardArr.read_pos oor b (x, _)]
    congr 1
    refine Prod.ext rfl (BitVec.eq_of_toNat_eq ?_)
    rw [pos_snd, BitVec.toNat_sub_of_le (BitVec.le_def.2 (by rw [hy]; exact hn)), hy]
  · rw [if_neg hn]

/-- The rows that move in at the top: those read `n` rows above the first `n`. -/
def incoming (oor : OutOfRange) (b : BoardArr) (n : BitVec 5) : List Row :=
  List.ofFn fun (y : Fin n.toNat) x => b.read oor (BitVec.ofNat 5 x, BitVec.ofNat 5 y - n)

theorem rows_dropRows (b : BoardArr) {n c : BitVec 5} (hn : n.toNat ≤ c.toNat + 1) (hc : c.toNat < ySize) :
    rows (dropRows oor (eraseFull b) n c) =
      shift Full emptyRow (incoming oor (eraseFull b) n) c.toNat (rows b) := by
  have hlen : (incoming oor (eraseFull b) n).length = n.toNat := List.length_ofFn
  unfold shift
  rw [← rows_eraseFull, hlen]
  refine List.ext_getElem ?_ fun y h₁ h₂ => ?_
  · simp only [List.length_append, List.length_take, List.length_drop, length_rows, hlen]
    omega
  rw [length_rows] at h₁
  rw [getElem_rows]
  funext x
  rw [dropRows_apply]
  -- a row below `c`, a row taken from above, or one of those that move in
  by_cases hcy : c.toNat < y
  · rw [if_pos hcy, List.getElem_append_right (by simp [hlen]; omega)]
    simp only [List.getElem_drop, getElem_rows, List.length_append, List.length_take, length_rows, hlen]
    congr 3
    omega
  rw [if_neg hcy, List.getElem_append_left (by simp [hlen]; omega)]
  by_cases hny : n.toNat ≤ y
  · rw [if_pos hny, List.getElem_append_right (by omega)]
    simp only [List.getElem_take, getElem_rows, hlen]
  · rw [if_neg hny, List.getElem_append_left (by omega)]
    rw [show (incoming oor (eraseFull b) n)[y] = _ from List.getElem_ofFn ..]
    rfl

/-! ## When lines clear -/

/-- A row of empty cells. -/
def EmptyRow (b : BoardArr) (y : Fin ySize) : Prop := ∀ x, b (x, y) = .empty

instance (b : BoardArr) : DecidablePred (EmptyRow b) :=
  fun y => inferInstanceAs (Decidable (∀ x, b (x, y) = .empty))

theorem row_eq_emptyRow {y : Fin ySize} : (fun x => b (x, y)) = emptyRow ↔ EmptyRow b y := funext_iff

/-- The boards on which the machine clears lines: with exactly one other row above the lowest full
one, that row is empty; otherwise every row between two full ones is full or empty, and what the
`DROP` loop reads for the top rows is empty. -/
structure ClearsLines (oor : OutOfRange) (b : BoardArr) : Prop where
  noDrop : (scan b).clearY = (scan b).numRows →
    ∀ y : Fin ySize, y.val < (scan b).clearY.toNat → ¬ FullRow b y → EmptyRow b y
  between : (scan b).clearY ≠ (scan b).numRows →
    ∀ y₁ y y₂ : Fin ySize, y₁ < y → y < y₂ → FullRow b y₁ → FullRow b y₂ → ¬ FullRow b y → EmptyRow b y
  top : (scan b).clearY ≠ (scan b).numRows → ∀ r ∈ incoming oor (eraseFull b) (scan b).numRows, r = emptyRow

section Lowest

variable {c : Fin ySize} (hfull : FullRow b c) (hlow : ∀ y, FullRow b y → y ≤ c)

theorem rows_split (b : BoardArr) (c : Fin ySize) :
    rows b = (rows b).take c ++ (fun x => b (x, c)) :: (rows b).drop (c + 1) := by
  rw [← getElem_rows b c (by rw [length_rows]; exact c.isLt), List.getElem_cons_drop, List.take_append_drop]

include hlow in
theorem not_full_of_mem_drop : ∀ r ∈ (rows b).drop (c + 1), ¬ Full r := by
  intro r hr hfr
  obtain ⟨y, hy, rfl⟩ := mem_drop_rows.1 hr
  exact absurd (Fin.le_def.1 (hlow y hfr)) (by omega)

include hfull hlow

/-- Without the shift, the rows above the lowest full one have to be full or empty. -/
theorem rows_eraseFull_eq_compact_iff :
    rows (eraseFull b) = compact Full emptyRow (rows b) ↔
      ∀ y : Fin ySize, y.val < c → ¬ FullRow b y → EmptyRow b y := by
  have hf : Full fun x => b (x, c) := hfull
  rw [rows_eraseFull, rows_split b c, blank_eq_compact_iff hf (not_full_of_mem_drop hlow)]
  constructor
  · intro h y hy hnf
    exact row_eq_emptyRow.1 (h _ (mem_take_rows.2 ⟨y, hy, rfl⟩) hnf)
  · intro h r hr hnf
    obtain ⟨y, hy, rfl⟩ := mem_take_rows.1 hr
    exact row_eq_emptyRow.2 (h y hy hnf)

/-- With the shift, empty rows have to move in, and the rows between two full ones have to be full or
empty. -/
theorem rows_dropRows_eq_compact_iff {n v : BitVec 5} (hv : v.toNat = c) (hn : n.toNat = (rows b).countP (Full ·))
    (hnv : n.toNat ≤ v.toNat + 1) :
    rows (dropRows oor (eraseFull b) n v) = compact Full emptyRow (rows b) ↔
      (∀ r ∈ incoming oor (eraseFull b) n, r = emptyRow) ∧
        ∀ y₁ y : Fin ySize, y₁ < y → y < c → FullRow b y₁ → ¬ FullRow b y → EmptyRow b y := by
  have hf : Full fun x => b (x, c) := hfull
  have hlen := length_rows b
  have hl : ((rows b).take c).length = c := by rw [List.length_take]; omega
  have htop : (incoming oor (eraseFull b) n).length =
      ((rows b).take c ++ (fun x => b (x, c)) :: (rows b).drop (c + 1)).countP (Full ·) := by
    rw [← rows_split, ← hn]; exact List.length_ofFn
  -- the rows above the lowest full one are shifted in bulk, by the number of all full rows
  have hshift := shift_eq_compact_iff (e := emptyRow) hf (not_full_of_mem_drop hlow) htop
  rw [hl, ← rows_split] at hshift
  rw [rows_dropRows b hnv (by omega), hv, hshift, List.pairwise_iff_getElem]
  refine and_congr_right fun _ => ⟨fun h y₁ y h₁ h₂ hf₁ hnf => ?_, fun h y₁ y h₁ h₂ hlt => ?_⟩
  · rw [Fin.lt_def] at h₁ h₂
    have hrow := h y₁ y (by omega) (by omega) h₁
    simp only [List.getElem_take, getElem_rows] at hrow
    exact row_eq_emptyRow.1 (hrow hf₁ hnf)
  · simp only [List.getElem_take, getElem_rows]
    intro hf₁ hnf
    rw [hl] at h₁ h₂
    exact row_eq_emptyRow.2 (h ⟨y₁, by omega⟩ ⟨y, by omega⟩ hlt h₂ hf₁ hnf)

end Lowest

/-- The cleared board is the compacted one exactly for the boards of `ClearsLines`. -/
theorem linesCleared_cleared_iff (h : ∃ y, FullRow b y) : LinesCleared b (cleared oor b) ↔ ClearsLines oor b := by
  obtain ⟨c, hc, hfull, hlow⟩ := clearY_spec h
  unfold LinesCleared cleared
  by_cases heq : (scan b).clearY = (scan b).numRows
  · -- the code takes the full rows to be the top ones, and shifts nothing
    rw [if_pos heq, rows_eraseFull_eq_compact_iff hfull hlow]
    constructor
    · intro h
      exact ⟨fun _ => by rwa [hc], fun hne => absurd heq hne, fun hne => absurd heq hne⟩
    · intro h
      have hskip := h.noDrop heq
      rwa [hc] at hskip
  · have hcount : (scan b).numRows.toNat = (rows b).countP (Full ·) := by rw [numRows_toNat, countP_rows]
    rw [if_neg heq, rows_dropRows_eq_compact_iff hfull hlow hc hcount (numRows_le h)]
    constructor
    · rintro ⟨htop, hbetween⟩
      refine ⟨fun h => absurd h heq, fun _ y₁ y y₂ h₁ h₂ hf₁ hf₂ hnf => ?_, fun _ => htop⟩
      exact hbetween y₁ y h₁ (lt_of_lt_of_le h₂ (hlow y₂ hf₂)) hf₁ hnf
    · intro h
      exact ⟨h.top heq, fun y₁ y h₁ h₂ hf₁ hnf => h.between heq y₁ y c h₁ h₂ hf₁ hfull hnf⟩

/-! ## The machine's line clearing -/

section Run

variable {s : Board} {inp : ℕ → In} (hs : s.state = .play) (hg : (inp 0).getNewBlock = true)
  (hr : ∀ t, (inp t).reset = false) (hfull : ∃ y, FullRow s.boardArr y)
  (hpiece : ∀ c, pos c ∈ cells (inp 0).xBlock (inp 0).yBlock → s.boardArr c = (inp 0).block)

include hs hg hr hfull hpiece

theorem clearing_one : Clearing oor s.boardArr ((design oor).trace s inp 1) :=
  Clearing.start (hr 0) hs hg hfull hpiece

variable (oor) in
/-- From a lock with full rows to the first cycle back in `PLAY`: the board ends up cleared. -/
theorem cleared_at_return {T : ℕ} (hT : 0 < T) (hplay : ((design oor).trace s inp T).state = .play)
    (hfirst : ∀ t, 0 < t → t < T → ((design oor).trace s inp t).state ≠ .play) :
    ((design oor).trace s inp T).boardArr = cleared oor s.boardArr :=
  cleared_at_play (fun t _ => hr t) (clearing_one hs hg hr hfull hpiece) hT hfirst hplay

variable (oor s inp) in
theorem exists_return (hedges : ∀ n, ∃ t, n ≤ t ∧ (inp t).frameClkRisingEdge = true) :
    ∃ T, 0 < T ∧ ((design oor).trace s inp T).state = .play ∧
      ∀ t, 0 < t → t < T → ((design oor).trace s inp t).state ≠ .play := by
  obtain ⟨T, hT, hplay, hbusy⟩ := exists_play (fun t _ => hr t) (clearing_one hs hg hr hfull hpiece) hedges
  exact ⟨T, Nat.lt_of_succ_lt hT, hplay, hbusy⟩

/-- Line clearing: at the first cycle back in `PLAY` the rows are those of the game exactly for the
boards of `ClearsLines`. -/
theorem line_clear_iff {T : ℕ} (hT : 0 < T) (hplay : ((design oor).trace s inp T).state = .play)
    (hfirst : ∀ t, 0 < t → t < T → ((design oor).trace s inp t).state ≠ .play) :
    LinesCleared s.boardArr ((design oor).trace s inp T).boardArr ↔ ClearsLines oor s.boardArr := by
  rw [cleared_at_return oor hs hg hr hfull hpiece hT hplay hfirst]
  exact linesCleared_cleared_iff hfull

end Run

/-- A board in `PLAY`, with a score of zero. -/
def playing (b : BoardArr) : Board :=
  ⟨b, .play, 0, 0, 0, 0, 60, ⟨0, 0, 0, 0, 0⟩⟩

/-- The lock of a square in columns 4 and 5, with its upper half in row `y`, in a cycle with a frame
edge. -/
def lockSquare (y : BitVec 5) : In where
  reset := false
  xBlock := ⟨4, 5, 4, 5⟩
  yBlock := ⟨y, y, y + 1, y + 1⟩
  saveXblock := ⟨4, 5, 4, 5⟩
  saveYblock := ⟨y, y, y + 1, y + 1⟩
  getNewBlock := true
  frameClkRisingEdge := true
  block := .yellow

/-- A square locked in the bottom rows, both of which it fills. -/
def flush : BoardArr := fun c => if c.2 < 18 then .empty else if c.1 = 4 ∨ c.1 = 5 then .yellow else .red

/-- A square locked in rows 17 and 18 over a full bottom row; it fills row 17 only. -/
def gapped : BoardArr := fun c =>
  if (c.2 = 17 ∨ c.2 = 18) ∧ (c.1 = 4 ∨ c.1 = 5) then .yellow
  else if c.2 = 17 ∨ c.2 = 19 then .red else .empty

theorem line_clear_flush :
    ∃ T, LinesCleared flush ((design someReads).trace (playing flush) (fun _ => lockSquare 18) T).boardArr := by
  have hfull : ∃ y, FullRow flush y := ⟨18, by decide⟩
  have hpiece : ∀ c, pos c ∈ cells (lockSquare 18).xBlock (lockSquare 18).yBlock → flush c = .yellow := by
    decide +kernel
  obtain ⟨T, hT, hplay, hfirst⟩ := exists_return someReads (playing flush) (fun _ => lockSquare 18)
    rfl rfl (fun _ => rfl) hfull hpiece fun n => ⟨n, le_rfl, rfl⟩
  refine ⟨T, (line_clear_iff rfl rfl (fun _ => rfl) hfull hpiece hT hplay hfirst).2 ⟨?_, ?_, ?_⟩⟩
  · decide
  · decide +kernel
  · decide

/-- The row between two full rows is lost. -/
theorem line_clear_loses_row :
    (∃ y, FullRow gapped y) ∧
      (∀ c, pos c ∈ cells (lockSquare 17).xBlock (lockSquare 17).yBlock → gapped c = (lockSquare 17).block) ∧
      ∃ T, 0 < T ∧ ((design someReads).trace (playing gapped) (fun _ => lockSquare 17) T).state = .play ∧
        (∀ t, 0 < t → t < T →
          ((design someReads).trace (playing gapped) (fun _ => lockSquare 17) t).state ≠ .play) ∧
        ¬ LinesCleared gapped
          ((design someReads).trace (playing gapped) (fun _ => lockSquare 17) T).boardArr := by
  have hfull : ∃ y, FullRow gapped y := ⟨17, by decide⟩
  have hpiece : ∀ c, pos c ∈ cells (lockSquare 17).xBlock (lockSquare 17).yBlock → gapped c = .yellow := by
    decide +kernel
  obtain ⟨T, hT, hplay, hfirst⟩ := exists_return someReads (playing gapped) (fun _ => lockSquare 17)
    rfl rfl (fun _ => rfl) hfull hpiece fun n => ⟨n, le_rfl, rfl⟩
  refine ⟨hfull, hpiece, T, hT, hplay, hfirst, ?_⟩
  rw [cleared_at_return someReads rfl rfl (fun _ => rfl) hfull hpiece hT hplay hfirst]
  intro hcl
  have := (linesCleared_cleared_iff hfull).1 hcl
  exact absurd (this.between (by decide) 17 18 19 (by decide) (by decide) (by decide) (by decide) (by decide))
    (by decide)

end Board

end FpgaTetris
