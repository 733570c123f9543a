/-
The invariant of `block_logic` and its generator, whatever the board answers: table indices stay
in range, the held colour and the index kept for it agree, the colour in play is that of
`cur_block_idx` until a hold is taken, frame edges are at least two cycles apart, and at a frame
edge the saved coordinates are those of the piece.
-/
import FpgaTetris.Piece.Shape
import FpgaTetris.Piece.Step

namespace FpgaTetris

/-! ## Table indices -/

theorem blockColorChoices_ne_empty (oor : OutOfRange) {idx : BitVec 3} (h : idx ≤ 6) :
    blockColorChoices oor idx ≠ .empty := by
  rcases idx_cases h with rfl | rfl | rfl | rfl | rfl | rfl | rfl <;> simp [blockColorChoices]

namespace TetrominoGenerator

/-- The indices the generator hands out or falls back on name a piece. -/
def InRange (g : TetrominoGenerator) : Prop := g.nextBlockIdx ≤ 6 ∧ g.fairCounter ≤ 6

instance (g : TetrominoGenerator) : Decidable g.InRange := inferInstanceAs (Decidable (_ ∧ _))

variable {g : TetrominoGenerator} {i : In}

theorem fairCounterIn_le (h : g.fairCounter ≤ 6) : g.fairCounterIn i ≤ 6 := by
  unfold fairCounterIn
  revert h
  generalize g.fairCounter = f
  split_ifs <;> revert f <;> decide

theorem blockIdxIn_le (h : g.fairCounter ≤ 6) (hr : i.reset = false) : g.blockIdxIn i ≤ 6 := by
  unfold blockIdxIn
  simp only [hr, Bool.false_eq_true, if_false]
  split_ifs with h1 h2 h3 h4
  · decide
  · exact (by decide : ∀ f : BitVec 3, f ≤ 6 → f ≠ 6 → f + 1 ≤ 6) _ h h4
  · exact h
  · exact BitVec.not_lt.1 fun hlt => h2 (.inl hlt)
  · decide

/-- The indices stay in range; a draw is never asked for during reset. -/
theorem InRange.next (h : g.InRange) (hr : i.reset = true → i.newBlock = false) : (g.next i).InRange := by
  have hf := fairCounterIn_le (i := i) h.2
  unfold TetrominoGenerator.next InRange
  cases hi : i.reset with
  | true =>
    rw [hr hi]
    exact ⟨(by decide : (0 : BitVec 3) ≤ 6), hf⟩
  | false =>
    cases hn : i.newBlock with
    | true => exact ⟨blockIdxIn_le h.2 hi, hf⟩
    | false => exact ⟨h.1, hf⟩

end TetrominoGenerator

namespace BlockLogic

variable {oor : OutOfRange} {playerNum : BitVec 2} {r : BlockLogic} {i : In}

/-! ## Holds -/

theorem branch_of_hold (h : (branch playerNum r i).effect = .hold) :
    branch playerNum r i = .holdSwap ∨ branch playerNum r i = .holdFirst := by
  generalize branch playerNum r i = br at h
  cases br <;> simp_all [Branch.effect]

theorem branch_of_swap (h : (branch playerNum r i).effect = .hold) (hne : r.heldBlock ≠ .empty) :
    branch playerNum r i = .holdSwap := by
  rcases branch_of_hold h with hb | hb
  · exact hb
  · exact absurd ((branch_guard _ _ _).first hb).2 hne

theorem not_switched_of_hold (h : (branch playerNum r i).effect = .hold) : r.isBlockSwitched = false := by
  rcases branch_of_hold h with hb | hb
  · exact ((branch_guard _ _ _).swap hb).1
  · exact ((branch_guard _ _ _).first hb).1

/-- Only a hold with a piece in the box loads another index than the generator's. -/
theorem loadIdx_of_ne {br : Branch} (h : br ≠ .holdSwap) : r.loadIdx br = r.blockIdx := by
  cases br <;> simp_all [loadIdx]

/-! ## Colours and indices -/

/-- The colours are those of the recorded indices: in play until a hold is taken, and in the hold
box. -/
structure Named (oor : OutOfRange) (r : BlockLogic) : Prop where
  piece : r.isBlockSwitched = false → r.block = blockColorChoices oor r.curBlockIdx
  held : r.heldBlock ≠ .empty → r.heldBlock = blockColorChoices oor r.switchBlockIdx

theorem named_reset (hr : i.reset = true) : Named oor (next oor playerNum r i) := by
  obtain ⟨hl, -, -, hc, hh, -⟩ := next_reset oor playerNum r i hr
  refine ⟨fun _ => by rw [hl.block, hc], ?_⟩
  rw [hh]
  exact fun h => absurd rfl h

theorem Named.next (h : Named oor r) (i : In) : Named oor (BlockLogic.next oor playerNum r i) := by
  cases hr : i.reset with
  | true => exact named_reset hr
  | false =>
    have hst := next_stepped oor playerNum r i hr
    by_cases hb : (branch playerNum r i).effect = .hold
    · obtain ⟨e1, e2, e3⟩ := hst.held hb
      refine ⟨fun hs => ?_, fun _ => ?_⟩
      · rw [e3] at hs; cases hs
      · rw [e1, e2]; exact h.piece (not_switched_of_hold hb)
    obtain ⟨e1, e2⟩ := hst.heldKeep hb
    refine ⟨fun hs => ?_, by rw [e1, e2]; exact h.held⟩
    rw [hst.switched hb] at hs
    by_cases hl : (branch playerNum r i).effect = .lock
    · -- a lock loads the generator's index, and records it
      obtain ⟨hld, hc⟩ := hst.load (.inl hl)
      rw [hld.block, hc, loadIdx_of_ne fun hsw => by rw [hsw] at hl; cases hl]
    · obtain ⟨e3, e4⟩ := hst.keep hl hb
      rw [if_neg hl] at hs
      rw [e3, e4]
      exact h.piece hs

theorem named_keeps : (design oor playerNum).Keeps (fun _ i => i.reset = true) (fun _ => True) (Named oor) :=
  ⟨fun _ _ h => named_reset h, fun _ i _ h => h.next i⟩

/-! ## Frame edges -/

theorem next_edge (h : (next oor playerNum r i).frameClkRisingEdge = true) :
    (next oor playerNum r i).frameClkDelayed = true ∧ r.frameClkDelayed = false := by
  have h' : (i.frameClk && !r.frameClkDelayed) = true := h
  rw [Bool.and_eq_true, Bool.not_eq_true'] at h'
  exact h'

theorem next_edge_low (hd : r.frameClkDelayed = true) : (next oor playerNum r i).frameClkRisingEdge = false := by
  show (i.frameClk && !r.frameClkDelayed) = false
  rw [hd, Bool.not_true, Bool.and_false]

/-- A frame edge comes with the clock seen high, and finds the saved coordinates equal to those of the
piece. -/
structure Synced (r : BlockLogic) : Prop where
  edge : r.frameClkRisingEdge = true → r.frameClkDelayed = true
  sync : r.frameClkRisingEdge = true → r.saveXblock = r.xBlock ∧ r.saveYblock = r.yBlock

theorem synced_reset (hr : i.reset = true) : Synced (next oor playerNum r i) := by
  obtain ⟨-, hx, hy, -⟩ := next_reset oor playerNum r i hr
  exact ⟨fun hn => (next_edge hn).1, fun _ => ⟨hx, hy⟩⟩

theorem Synced.edge_low (h : Synced r) (hn : (BlockLogic.next oor playerNum r i).frameClkRisingEdge = true) :
    r.frameClkRisingEdge = false := by
  by_contra he
  rw [next_edge_low (h.edge (Bool.eq_true_of_not_eq_false he))] at hn
  cases hn

theorem Synced.next (h : Synced r) (i : In) : Synced (BlockLogic.next oor playerNum r i) := by
  cases hr : i.reset with
  | true => exact synced_reset hr
  | false =>
    refine ⟨fun hn => (next_edge hn).1, fun hn => ?_⟩
    -- without an edge in this cycle the piece stays, and the copy catches up with it
    have hst := next_stepped oor playerNum r i hr
    rw [branch_eq_idle (.inr (.inr (h.edge_low hn)))] at hst
    obtain ⟨e1, e2, -⟩ := hst.stay rfl
    obtain ⟨e3, e4⟩ := hst.save (by simp)
    exact ⟨e3.trans e1.symm, e4.trans e2.symm⟩

theorem synced_keeps : (design oor playerNum).Keeps (fun _ i => i.reset = true) (fun _ => True) Synced :=
  ⟨fun _ _ h => synced_reset h, fun _ i _ h => h.next i⟩

/-! ## The invariant -/

structure Inv (oor : OutOfRange) (r : BlockLogic) : Prop where
  gen : r.blockGen.InRange
  cur : r.curBlockIdx ≤ 6
  color : r.block ≠ .empty
  /-- Until a hold, `cur_block_idx` is the index of the piece in play. -/
  named : r.isBlockSwitched = false → r.block = blockColorChoices oor r.curBlockIdx
  held : r.heldBlock ≠ .empty →
    r.switchBlockIdx ≤ 6 ∧ r.heldBlock = blockColorChoices oor r.switchBlockIdx
  edge : r.frameClkRisingEdge = true → r.frameClkDelayed = true
  sync : r.frameClkRisingEdge = true → r.saveXblock = r.xBlock ∧ r.saveYblock = r.yBlock

theorem Inv.colors (h : Inv oor r) : Named oor r := ⟨h.named, fun hne => (h.held hne).2⟩

theorem Inv.synced (h : Inv oor r) : Synced r := ⟨h.edge, h.sync⟩

theorem gen_next (h : r.blockGen.InRange) : (next oor playerNum r i).blockGen.InRange := by
  refine TetrominoGenerator.InRange.next h fun hr => ?_
  have hb : branch playerNum r i = .idle := branch_eq_idle (.inl hr)
  show ((comb oor playerNum r i).getNewBlock || (comb oor playerNum r i).replaceBlock) = false
  unfold comb
  rw [hb]; rfl

theorem inv_reset (hg : r.blockGen.InRange) (hr : i.reset = true) : Inv oor (next oor playerNum r i) := by
  obtain ⟨hl, -, -, hc, hh, -⟩ := next_reset oor playerNum r i hr
  have hn : Named oor (next oor playerNum r i) := named_reset hr
  have hs : Synced (next oor playerNum r i) := synced_reset hr
  refine ⟨gen_next hg, by rw [hc]; exact hg.1, ?_, hn.piece, fun h => absurd hh h, hs.edge, hs.sync⟩
  rw [hl.block]
  exact blockColorChoices_ne_empty oor hg.1

theorem Inv.loadIdx_le (h : Inv oor r) (playerNum : BitVec 2) (i : In) : r.loadIdx (branch playerNum r i) ≤ 6 := by
  by_cases hb : branch playerNum r i = .holdSwap
  · rw [hb]
    exact (h.held ((branch_guard _ _ _).swap hb).2).1
  · rw [loadIdx_of_ne hb]
    exact h.gen.1

theorem Inv.next_run (h : Inv oor r) (hr : i.reset = false) : Inv oor (next oor playerNum r i) := by
  have hst := next_stepped oor playerNum r i hr
  have hidx := h.loadIdx_le playerNum i
  have hnamed : Named oor (BlockLogic.next oor playerNum r i) := h.colors.next i
  have hsynced : Synced (BlockLogic.next oor playerNum r i) := h.synced.next i
  refine ⟨gen_next h.gen, ?_, ?_, hnamed.piece, fun hne => ⟨?_, hnamed.held hne⟩, hsynced.edge, hsynced.sync⟩
  · by_cases hb : (branch playerNum r i).effect = .lock ∨ (branch playerNum r i).effect = .hold
    · rw [(hst.load hb).2]; exact h.gen.1
    · rw [(hst.keep (fun e => hb (.inl e)) (fun e => hb (.inr e))).2]; exact h.cur
  · by_cases hb : (branch playerNum r i).effect = .lock ∨ (branch playerNum r i).effect = .hold
    · rw [(hst.load hb).1.block]; exact blockColorChoices_ne_empty oor hidx
    · rw [(hst.keep (fun e => hb (.inl e)) (fun e => hb (.inr e))).1]; exact h.color
  · by_cases hb : (branch playerNum r i).effect = .hold
    · rw [(hst.held hb).2.1]; exact h.cur
    · obtain ⟨e1, e2⟩ := hst.heldKeep hb
      rw [e1] at hne
      rw [e2]
      exact (h.held hne).1

theorem Inv.next (h : Inv oor r) (i : In) : Inv oor (BlockLogic.next oor playerNum r i) := by
  cases hr : i.reset with
  | true => exact inv_reset h.gen hr
  | false => exact h.next_run hr

/-- A reset cycle with generator indices in range sets the invariant up, every cycle keeps it. -/
theorem inv_keeps : (design oor playerNum).Keeps (fun r i => i.reset = true ∧ r.blockGen.InRange)
    (fun _ => True) (Inv oor) :=
  ⟨fun _ _ h => inv_reset h.2 h.1, fun _ i _ h => h.next i⟩

end BlockLogic

end FpgaTetris
