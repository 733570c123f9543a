/-
The shapes of the previews: the pixel ranges of the colour mapper against the tiles of the spawn
coordinates.
-/
import FpgaTetris.Piece.Shape
import FpgaTetris.Hdl.BlockColorMapper

namespace FpgaTetris

namespace BlockColorMapper

variable {oor : OutOfRange} {b : Box} {c : BlockColor} {x y : BitVec 10}

/-- The column of the spawn coordinates that a preview has at its left edge. -/
def previewOffset (c : BlockColor) : ℕ := if c = .cyan ∨ c = .yellow then 3 else 4

/-- The tiles of a piece's preview, by columns and rows of its box. -/
def previewTiles (oor : OutOfRange) (c : BlockColor) : List (ℕ × ℕ) :=
  (cells (spawn oor c).1 (spawn oor c).2).map fun p => (p.1.toNat - previewOffset c, p.2.toNat)

/-- The tile of a pixel in a box. -/
def tileOf (b : Box) (x y : BitVec 10) : ℕ × ℕ :=
  ((x.toNat - b.xMin.toNat) / 20, (y.toNat - b.yMin.toNat) / 20)

/-- The sums of the comparisons stay below 1024. -/
structure Fits (b : Box) : Prop where
  x : b.xMin.toNat + 59 < 1024
  y : b.yMin.toNat + 39 < 1024

theorem toNat_add_lit {v : BitVec 10} {k : ℕ} (h : v.toNat + k < 1024) :
    (v + BitVec.ofNat 10 k).toNat = v.toNat + k := by
  rw [BitVec.toNat_add, BitVec.toNat_ofNat, Nat.add_mod_mod]
  exact Nat.mod_eq_of_lt h

/-- The pixels of the tiles from column `p` to column `q` of row `r`. -/
def tileRange (b : Box) (p q r : ℕ) : Box :=
  ⟨b.xMin + BitVec.ofNat 10 (20 * p), b.xMin + BitVec.ofNat 10 (20 * q + 19), b.yMin + BitVec.ofNat 10 (20 * r),
    b.yMin + BitVec.ofNat 10 (20 * r + 19)⟩

theorem contains_tileRange (hb : Fits b) {p q r : ℕ} (hp : p ≤ 2) (hq : q ≤ 2) (hr : r ≤ 1) :
    (tileRange b p q r).Contains x y ↔
      (b.xMin ≤ x ∧ b.yMin ≤ y) ∧ (p ≤ (tileOf b x y).1 ∧ (tileOf b x y).1 ≤ q) ∧ (tileOf b x y).2 = r := by
  have hx := hb.x
  have hy := hb.y
  unfold Box.Contains tileRange tileOf
  simp only [BitVec.le_def]
  rw [toNat_add_lit (by omega), toNat_add_lit (by omega), toNat_add_lit (by omega), toNat_add_lit (by omega)]
  omega

/-- The tiles of a piece other than the bar, from column to column of its upper and its lower row. -/
def tileSpans : BlockColor → (ℕ × ℕ) × (ℕ × ℕ)
  | .blue => ((0, 0), (0, 2))
  | .orange => ((2, 2), (0, 2))
  | .yellow => ((1, 2), (1, 2))
  | .green => ((1, 2), (0, 1))
  | .red => ((0, 1), (1, 2))
  | .magenta => ((1, 1), (0, 2))
  | .empty | .cyan => ((0, 0), (0, 0))

theorem shapeRanges_eq (b : Box) (hc : c ≠ .empty) (hcyan : c ≠ .cyan) :
    shapeRanges b c =
      [tileRange b (tileSpans c).1.1 (tileSpans c).1.2 0, tileRange b (tileSpans c).2.1 (tileSpans c).2.2 1] := by
  cases c
  case empty => exact absurd rfl hc
  case cyan => exact absurd rfl hcyan
  all_goals simp [shapeRanges, tileRange, tileSpans]

theorem mem_previewTiles (oor : OutOfRange) (hc : c ≠ .empty) (hcyan : c ≠ .cyan) (u v : ℕ) :
    (u, v) ∈ previewTiles oor c ↔
      ((tileSpans c).1.1 ≤ u ∧ u ≤ (tileSpans c).1.2) ∧ v = 0 ∨
        ((tileSpans c).2.1 ≤ u ∧ u ≤ (tileSpans c).2.2) ∧ v = 1 := by
  unfold previewTiles
  rw [spawn_congr oor someReads hc]
  cases c
  case empty => exact absurd rfl hc
  case cyan => exact absurd rfl hcyan
  all_goals
    simp [cells, spawn, colorIdx, xBlockChoices, yBlockChoices, previewOffset, tileSpans]
    omega

/-- The ranges of a piece other than the bar are its tiles. -/
theorem inShape_iff_tile (oor : OutOfRange) (hb : Fits b) (hc : c ≠ .empty) (hcyan : c ≠ .cyan) :
    inShape b c x y = true ↔ (b.xMin ≤ x ∧ b.yMin ≤ y) ∧ tileOf b x y ∈ previewTiles oor c := by
  have hspans : ((tileSpans c).1.1 ≤ 2 ∧ (tileSpans c).1.2 ≤ 2) ∧ (tileSpans c).2.1 ≤ 2 ∧ (tileSpans c).2.2 ≤ 2 := by
    cases c <;> decide
  unfold inShape
  rw [shapeRanges_eq b hc hcyan, mem_previewTiles oor hc hcyan]
  simp only [List.any_cons, List.any_nil, Bool.or_false, Bool.or_eq_true, decide_eq_true_eq]
  rw [contains_tileRange hb hspans.1.1 hspans.1.2 (by decide), contains_tileRange hb hspans.2.1 hspans.2.2 (by decide)]
  exact and_or_left.symm

/-- The range of the bar, and of the default case, is the upper row of tiles of the box. -/
theorem inShape_bar (hb : Fits b) (hc : c = .empty ∨ c = .cyan) :
    inShape b c x y = true ↔ (b.xMin ≤ x ∧ b.yMin ≤ y) ∧ x ≤ b.xMax ∧ (tileOf b x y).2 = 0 := by
  have hy := hb.y
  have hrange : inShape b c x y = decide (Box.Contains ⟨b.xMin, b.xMax, b.yMin, b.yMin + 19⟩ x y) := by
    rcases hc with rfl | rfl <;> simp [inShape, shapeRanges]
  have hrow : y ≤ b.yMin + 19 ↔ y.toNat ≤ b.yMin.toNat + 19 := by
    rw [BitVec.le_def, show (b.yMin + 19).toNat = b.yMin.toNat + 19 from toNat_add_lit (k := 19) (by omega)]
  rw [hrange, decide_eq_true_eq, Box.Contains, hrow]
  unfold tileOf
  simp only [BitVec.le_def]
  omega

theorem mem_previewTiles_cyan (oor : OutOfRange) (u v : ℕ) : (u, v) ∈ previewTiles oor .cyan ↔ u ≤ 3 ∧ v = 0 := by
  simp [previewTiles, cells, spawn, colorIdx, xBlockChoices, yBlockChoices, previewOffset]
  omega

theorem le_of_inShape (hb : Fits b) (h : inShape b c x y = true) : b.xMin ≤ x ∧ b.yMin ≤ y := by
  by_cases hc : c = .empty ∨ c = .cyan
  · exact ((inShape_bar hb hc).1 h).1
  · rw [not_or] at hc
    exact ((inShape_iff_tile someReads hb hc.1 hc.2).1 h).1

/-- In a box four tiles wide and two high a piece is drawn on its tiles. -/
theorem inShape_iff (oor : OutOfRange) (hb : Fits b) (hc : c ≠ .empty) (h : b.Contains x y)
    (hwide : c = .cyan → (tileOf b x y).1 ≤ 3) : inShape b c x y = true ↔ tileOf b x y ∈ previewTiles oor c := by
  obtain ⟨h1, h2, h3, h4⟩ := h
  by_cases hcyan : c = .cyan
  · subst hcyan
    rw [inShape_bar hb (.inr rfl), ← Prod.mk.eta (p := tileOf b x y), mem_previewTiles_cyan]
    exact ⟨fun h => ⟨hwide rfl, h.2.2⟩, fun h => ⟨⟨h1, h3⟩, h2, h.2⟩⟩
  · rw [inShape_iff_tile oor hb hc hcyan]
    exact and_iff_right ⟨h1, h3⟩

end BlockColorMapper

end FpgaTetris
