/-
How many cells of the board are occupied: painting a piece on free cells adds its cells, and line
clearing takes away those of the full rows and leaves no row full.
-/
import FpgaTetris.Board.LineClear
import FpgaTetris.Game.Step
import Mathlib.Algebra.BigOperators.Fin
import Mathlib.Data.Fintype.BigOperators

namespace FpgaTetris

/-- The number of cells that are not empty. -/
def occupiedCells (b : BoardArr) : ℕ := (Finset.univ.filter fun c => b c ≠ .empty).card

theorem occupiedCells_empty : occupiedCells (fun _ => .empty) = 0 := by
  unfold occupiedCells
  rw [Finset.card_eq_zero, Finset.filter_eq_empty_iff]
  exact fun _ _ h => h rfl

/-! ## Painting -/

/-- Positions on the board are as many cells. -/
theorem card_filter_pos_mem {ps : List Pos} (hin : ∀ p ∈ ps, InBoard p) (hnodup : ps.Nodup) :
    (Finset.univ.filter fun c => pos c ∈ ps).card = ps.length := by
  have himage : (Finset.univ.filter fun c => pos c ∈ ps).image pos = ps.toFinset := by
    ext p
    simp only [Finset.mem_image, Finset.mem_filter, Finset.mem_univ, true_and, List.mem_toFinset]
    constructor
    · rintro ⟨c, hc, rfl⟩
      exact hc
    · intro hp
      obtain ⟨c, rfl⟩ := inBoard_iff.1 (hin p hp)
      exact ⟨c, hp, rfl⟩
  rw [← Finset.card_image_of_injective _ pos_injective, himage, List.toFinset_card_of_nodup hnodup]

theorem occupiedCells_paint {b : BoardArr} {ps : List Pos} {v : BlockColor} (hv : v ≠ .empty)
    (hfree : ∀ p ∈ ps, b.Free p) (hnodup : ps.Nodup) : occupiedCells (b.paint ps v) = occupiedCells b + ps.length := by
  have hsplit : (Finset.univ.filter fun c => b.paint ps v c ≠ .empty) =
      (Finset.univ.filter fun c => b c ≠ .empty) ∪ Finset.univ.filter fun c => pos c ∈ ps := by
    ext c
    simp only [Finset.mem_union, Finset.mem_filter, Finset.mem_univ, true_and, BoardArr.paint_apply]
    by_cases hc : pos c ∈ ps
    · simp [hc, hv]
    · simp [hc]
  have hdisj : Disjoint (Finset.univ.filter fun c => b c ≠ .empty) (Finset.univ.filter fun c => pos c ∈ ps) := by
    rw [Finset.disjoint_filter]
    rintro c - hne hc
    obtain ⟨c', hpos, hempty⟩ := hfree _ hc
    rw [pos_injective hpos] at hempty
    exact hne hempty
  unfold occupiedCells
  rw [hsplit, Finset.card_union_of_disjoint hdisj,
    card_filter_pos_mem (fun p hp => (hfree p hp).inBoard) hnodup]

/-! ## Line clearing -/

/-- The cells of a row that are not empty. -/
def rowWeight (r : Row) : ℕ := (Finset.univ.filter fun x => r x ≠ .empty).card

theorem rowWeight_emptyRow : rowWeight emptyRow = 0 := by
  unfold rowWeight
  rw [Finset.card_eq_zero, Finset.filter_eq_empty_iff]
  exact fun _ _ h => h rfl

theorem rowWeight_full {r : Row} (h : Full r) : rowWeight r = xSize := by
  unfold rowWeight
  rw [Finset.filter_true_of_mem fun x _ => h x, Finset.card_univ, Fintype.card_fin]

theorem occupiedCells_eq_sum (b : BoardArr) : occupiedCells b = ((rows b).map rowWeight).sum := by
  unfold occupiedCells rows
  rw [List.map_ofFn, List.sum_ofFn, Finset.card_filter, Fintype.sum_prod_type_right]
  exact Finset.sum_congr rfl fun y _ => (Finset.card_filter ..).symm

theorem LinesCleared.occupiedCells {b b' : BoardArr} (h : LinesCleared b b') :
    occupiedCells b' + xSize * (fullRows b).length = occupiedCells b := by
  rw [occupiedCells_eq_sum, occupiedCells_eq_sum, h, ← Board.countP_rows]
  exact Compact.sum_compact rowWeight rowWeight_emptyRow (fun _ => rowWeight_full) _

theorem LinesCleared.not_fullRow {b b' : BoardArr} (h : LinesCleared b b') (y : Fin ySize) : ¬ FullRow b' y := by
  intro hy
  have hmem : (fun x => b' (x, y)) ∈ rows b' := List.mem_ofFn.2 ⟨y, rfl⟩
  rw [h] at hmem
  rcases Compact.mem_compact hmem with he | hnot
  · exact hy 0 (congrFun he 0)
  · exact hnot hy

theorem linesCleared_self {b : BoardArr} (h : ∀ y, ¬ FullRow b y) : LinesCleared b b := by
  refine (Compact.compact_eq_self fun r hr => ?_).symm
  obtain ⟨y, rfl⟩ := List.mem_ofFn.1 hr
  exact h y

end FpgaTetris
