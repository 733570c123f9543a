/-
`cur_block_idx` as the name of the piece in play, which a lock reports in `player_move`. A hold that
takes a piece out of the box records the index the generator shows, so the name stays right exactly
when that is the index of the piece taken out.
-/
import FpgaTetris.Piece.Hold
import Mathlib.Tactic.IntervalCases

namespace FpgaTetris

namespace BlockLogic

variable {oor : OutOfRange} {playerNum : BitVec 2} {r : BlockLogic} {i : In}

/-- `cur_block_idx` names the piece in play, and so does what a lock reports. -/
structure CurNamed (oor : OutOfRange) (playerNum : BitVec 2) (r : BlockLogic) (i : In) : Prop where
  block : r.block = blockColorChoices oor r.curBlockIdx
  report : (comb oor playerNum r i).getNewBlock = true →
    r.block = blockColorChoices oor ((comb oor playerNum r i).playerMove - 1)

theorem playerMove_of_lock (h : (branch playerNum r i).effect = .lock) :
    (comb oor playerNum r i).playerMove - 1 = r.curBlockIdx := by
  unfold comb
  generalize branch playerNum r i = br at h
  cases br <;> simp_all [Branch.effect, assign]

theorem curNamed_iff : CurNamed oor playerNum r i ↔ r.block = blockColorChoices oor r.curBlockIdx := by
  constructor
  · exact CurNamed.block
  · intro h
    refine ⟨h, fun hl => ?_⟩
    rw [playerMove_of_lock ((getNewBlock_iff oor playerNum i).1 hl)]
    exact h

/-! ## One cycle -/

/-- Whatever is not a swap loads the index it records, or leaves both alone. -/
theorem named_of_ne_swap (hcur : r.block = blockColorChoices oor r.curBlockIdx)
    (hb : branch playerNum r i ≠ .holdSwap) :
    (next oor playerNum r i).block = blockColorChoices oor (next oor playerNum r i).curBlockIdx := by
  cases hr : i.reset with
  | true =>
    obtain ⟨hl, -, -, hc, -⟩ := next_reset oor playerNum r i hr
    rw [hl.block, hc]
  | false =>
    have hst := next_stepped oor playerNum r i hr
    by_cases hload : (branch playerNum r i).effect = .lock ∨ (branch playerNum r i).effect = .hold
    · -- the index loaded is the generator's, which is the one recorded
      obtain ⟨hl, hc⟩ := hst.load hload
      rw [hl.block, hc, loadIdx_of_ne hb]
    · obtain ⟨e1, e2⟩ := hst.keep (fun e => hload (.inl e)) fun e => hload (.inr e)
      rw [e1, e2]
      exact hcur

/-- A swap brings the piece in the box into play, under the generator's index. -/
theorem Named.next_of_swap (h : Named oor r) (hb : branch playerNum r i = .holdSwap) :
    (BlockLogic.next oor playerNum r i).block = r.heldBlock ∧
      (BlockLogic.next oor playerNum r i).curBlockIdx = r.blockIdx := by
  have heff : (branch playerNum r i).effect = .hold := by rw [hb]; rfl
  obtain ⟨hl, hc⟩ := (next_stepped oor playerNum r i (active_of_hold heff).1).load (.inr heff)
  rw [hb] at hl
  rw [h.held ((branch_guard _ _ _).swap hb).2]
  exact ⟨hl.block, hc⟩

/-- The name stays right exactly if the generator shows the piece a swap takes out of the box. -/
theorem Named.next_named_iff (h : Named oor r) (hcur : r.block = blockColorChoices oor r.curBlockIdx) :
    (BlockLogic.next oor playerNum r i).block =
        blockColorChoices oor (BlockLogic.next oor playerNum r i).curBlockIdx ↔
      ((comb oor playerNum r i).switchBlock = true → r.heldBlock ≠ .empty →
        r.heldBlock = blockColorChoices oor r.blockIdx) := by
  rw [switchBlock_iff]
  by_cases hb : branch playerNum r i = .holdSwap
  · -- a swap brings in the piece of the box under the index of the generator
    obtain ⟨hblock, hidx⟩ := h.next_of_swap hb
    rw [hblock, hidx, hb]
    constructor
    · intro heq _ _
      exact heq
    · intro hok
      exact hok rfl ((branch_guard _ _ _).swap hb).2
  · constructor
    · intro _ heff hne
      exact absurd (branch_of_swap heff hne) hb
    · intro _
      exact named_of_ne_swap hcur hb

/-! ## Whole runs -/

/-- `cur_block_idx` has named the piece in play ever since the reset exactly if at every swap the
generator showed the piece in the box. -/
theorem cur_idx_names_piece_iff (oor : OutOfRange) (playerNum : BitVec 2) (r : BlockLogic) (inp : ℕ → In)
    (h0 : (inp 0).reset = true) (T : ℕ) :
    let tr := (design oor playerNum).trace r inp
    (∀ t, 0 < t → t ≤ T + 1 → CurNamed oor playerNum (tr t) (inp t)) ↔
      ∀ t, 0 < t → t ≤ T → (comb oor playerNum (tr t) (inp t)).switchBlock = true → (tr t).heldBlock ≠ .empty →
        (tr t).heldBlock = blockColorChoices oor (tr t).blockIdx := by
  intro tr
  have hnamed : ∀ t, 0 < t → Named oor (tr t) := named_keeps.trace h0 fun _ _ => trivial
  have hfirst : (tr 1).block = blockColorChoices oor (tr 1).curBlockIdx := by
    obtain ⟨hl, -, -, hc, -⟩ := next_reset oor playerNum r (inp 0) h0
    exact hl.block.trans (congrArg _ hc.symm)
  simp only [curNamed_iff]
  exact Sync.Design.trace_iff (fun r => r.block = blockColorChoices oor r.curBlockIdx)
    (fun r i => (comb oor playerNum r i).switchBlock = true → r.heldBlock ≠ .empty →
      r.heldBlock = blockColorChoices oor r.blockIdx)
    hfirst (fun t ht hcur => (hnamed t ht).next_named_iff hcur) T

/-- A reset, a hold in cycle 2 and another in cycle `u`; at the frame edges between and after them the
piece locks. -/
def holdAt (u t : ℕ) : In :=
  { reset := t == 0
    frameClk := t % 2 == 1
    keycode := if t == 2 || t == u then 32 else 0
    canMove := ⟨false, false, false, false, false⟩
    boardBusy := false
    levelSpeed := if t == 2 || t == u then 60 else 0 }

/-- The swap of cycle 6 finds the generator at the piece in the box. -/
theorem cur_idx_names_piece_holdAt :
    let tr := (design someReads 1).trace Tetris.powerUp.logic (holdAt 6)
    (comb someReads 1 (tr 6) (holdAt 6 6)).switchBlock = true ∧ (tr 6).heldBlock ≠ .empty ∧
      CurNamed someReads 1 (tr 7) (holdAt 6 7) := by
  refine ⟨by decide, by decide, (cur_idx_names_piece_iff someReads 1 _ (holdAt 6) rfl 6).2 ?_ 7 ?_ ?_⟩
  · intro t ht htT
    interval_cases t <;> decide
  · decide
  · decide

/-- The swap of cycle 8 finds it at another one: the I piece brought back locks under the index 5. -/
theorem cur_idx_misnames :
    let tr := (design someReads 1).trace Tetris.powerUp.logic (holdAt 8)
    (holdAt 8 0).reset = true ∧ Tetris.powerUp.logic.blockGen.InRange ∧
      (tr 9).block ≠ blockColorChoices someReads (tr 9).curBlockIdx ∧
      (comb someReads 1 (tr 10) (holdAt 8 10)).getNewBlock = true ∧ (tr 10).block = blockColorChoices someReads 0 ∧
      (comb someReads 1 (tr 10) (holdAt 8 10)).playerMove = 6 := by
  decide

end BlockLogic

end FpgaTetris
