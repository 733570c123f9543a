/-
`rotater_left` and `rotater_right`: they are fed the saved coordinates with the current orientation,
which is the piece in play only while the two copies agree, as they do at every frame edge.
-/
import FpgaTetris.Piece.Hold

namespace FpgaTetris

namespace BlockLogic

variable {r : BlockLogic}

/-- The rotators turn the piece in play, from its current orientation. -/
structure SeesPiece (r : BlockLogic) : Prop where
  x : r.saveXblock = r.xBlock
  y : r.saveYblock = r.yBlock
  left : (r.xRotateLeft, r.yRotateLeft) = rotateBlocks r.block r.xBlock r.yBlock true r.curOrientation
  right : (r.xRotateRight, r.yRotateRight) = rotateBlocks r.block r.xBlock r.yBlock false r.curOrientation

theorem Synced.seesPiece (h : Synced r) (he : r.frameClkRisingEdge = true) : SeesPiece r := by
  obtain ⟨hx, hy⟩ := h.sync he
  have hrot : ∀ left, r.rotated left = rotateBlocks r.block r.xBlock r.yBlock left r.curOrientation := by
    intro left
    rw [rotated, hx, hy]
  exact ⟨hx, hy, hrot true, hrot false⟩

/-- Once reset, with any frame clock, keys, board and further resets: frame edges are not adjacent, and
at each of them the rotators see the piece in play. -/
theorem rotators_see_piece (oor : OutOfRange) (playerNum : BitVec 2) (r : BlockLogic) (inp : ℕ → In)
    (h0 : (inp 0).reset = true) :
    let tr := (design oor playerNum).trace r inp
    (∀ t, 0 < t → (tr t).frameClkRisingEdge = true → (tr (t + 1)).frameClkRisingEdge = false) ∧
      ∀ t, 0 < t → (tr t).frameClkRisingEdge = true → SeesPiece (tr t) := by
  intro tr
  have hsynced : ∀ t, 0 < t → Synced (tr t) := synced_keeps.trace h0 fun _ _ => trivial
  constructor
  · intro t ht he
    exact next_edge_low ((hsynced t ht).edge he)
  · intro t ht he
    exact (hsynced t ht).seesPiece he

theorem rotators_see_piece_holdKey :
    let tr := (design someReads 1).trace Tetris.powerUp.logic holdKey
    (tr 2).frameClkRisingEdge = true ∧ (tr 3).frameClkRisingEdge = false ∧ SeesPiece (tr 2) := by
  have hsees := rotators_see_piece someReads 1 Tetris.powerUp.logic holdKey rfl
  refine ⟨rfl, hsees.1 2 ?_ rfl, hsees.2 2 ?_ rfl⟩
  · exact Nat.zero_lt_two
  · exact Nat.zero_lt_two

end BlockLogic

end FpgaTetris
