/-
The hold box: what it shows is what a later hold brings back, and two holds never happen without a
lock or a reset between them. `setNewBlockInputs` records the generator's index and not the one it
is given, so after a swap `cur_block_idx` names another piece; `is_block_switched` keeps that index
from being stored.
-/
import FpgaTetris.Lib.Design
import FpgaTetris.Piece.Invariant
import FpgaTetris.Hdl.Tetris

namespace FpgaTetris

namespace BlockLogic

variable {oor : OutOfRange} {playerNum : BitVec 2} {r : BlockLogic} {i : In}

/-- A hold with a piece in the box loads that piece. -/
theorem Inv.hold_loads (h : Inv oor r) (hh : (branch playerNum r i).effect = .hold)
    (hne : r.heldBlock ≠ .empty) :
    let n := BlockLogic.next oor playerNum r i
    n.block = r.heldBlock ∧ (n.xBlock, n.yBlock) = spawn oor r.heldBlock ∧ n.curOrientation = .normal ∧
      n.heldBlock = r.block := by
  have hact := active_of_hold hh
  have hst := next_stepped oor playerNum r i hact.1
  obtain ⟨hle, hcol⟩ := h.held hne
  obtain ⟨hld, -⟩ := hst.load (.inr hh)
  rw [branch_of_swap hh hne] at hld
  refine ⟨by rw [hld.block, hcol]; rfl, ?_, hld.orientation, (hst.held hh).1⟩
  rw [hld.x, hld.y, hcol, spawn_choices oor hle]
  rfl

theorem next_switched (hr : i.reset = false) (hl : (branch playerNum r i).effect ≠ .lock)
    (hs : r.isBlockSwitched = true) : (next oor playerNum r i).isBlockSwitched = true := by
  have hst := next_stepped oor playerNum r i hr
  by_cases hh : (branch playerNum r i).effect = .hold
  · exact (hst.held hh).2.2
  · rw [hst.switched hh, if_neg hl]; exact hs

/-- Between two holds there is a lock or a reset. -/
theorem hold_separated {inp : ℕ → In} {t u : ℕ} (htu : t < u)
    (ht : (branch playerNum ((design oor playerNum).trace r inp t) (inp t)).effect = .hold)
    (hu : (branch playerNum ((design oor playerNum).trace r inp u) (inp u)).effect = .hold) :
    ∃ v, t < v ∧ v < u ∧
      ((branch playerNum ((design oor playerNum).trace r inp v) (inp v)).effect = .lock ∨
        (inp v).reset = true) := by
  by_contra hno
  push Not at hno
  -- with neither, `is_block_switched` stays high from the cycle after the first hold
  have hswitched : ((design oor playerNum).trace r inp u).isBlockSwitched = true := by
    refine Sync.Design.trace_phase (fun s : BlockLogic => s.isBlockSwitched = true) htu ?_ fun v h1 h2 hv => ?_
    · have hact := active_of_hold ht
      exact ((next_stepped _ _ _ _ hact.1).held ht).2.2
    · obtain ⟨hl, hr⟩ := hno v h1 h2
      exact next_switched (by simpa using hr) hl hv
  rw [not_switched_of_hold hu] at hswitched
  cases hswitched

/-- The hold box gives back what it shows: the colour shown is that of the stored index; a hold
with a piece in the box brings in that piece, at its spawn coordinates and unturned, and puts the
outgoing colour in the box; and two holds are separated by a lock or a reset. -/
theorem hold_gives_back (oor : OutOfRange) (playerNum : BitVec 2) (r : BlockLogic) (inp : ℕ → In)
    (h0 : (inp 0).reset = true) (hg : r.blockGen.InRange) :
    let tr := (design oor playerNum).trace r inp
    let hold := fun t => (comb oor playerNum (tr t) (inp t)).switchBlock = true
    let lock := fun t => (comb oor playerNum (tr t) (inp t)).getNewBlock = true
    (∀ t, 0 < t → (tr t).heldBlock ≠ .empty →
      (tr t).switchBlockIdx ≤ 6 ∧ (tr t).heldBlock = blockColorChoices oor (tr t).switchBlockIdx) ∧
    (∀ t, 0 < t → hold t → (tr t).heldBlock ≠ .empty →
      (tr (t + 1)).block = (tr t).heldBlock ∧
      ((tr (t + 1)).xBlock, (tr (t + 1)).yBlock) = spawn oor (tr t).heldBlock ∧
      (tr (t + 1)).curOrientation = .normal ∧ (tr (t + 1)).heldBlock = (tr t).block) ∧
    (∀ t u, t < u → hold t → hold u → ∃ v, t < v ∧ v < u ∧ (lock v ∨ (inp v).reset = true)) := by
  intro tr hold lock
  have hinv : ∀ t, 0 < t → Inv oor (tr t) := inv_keeps.trace ⟨h0, hg⟩ fun _ _ => trivial
  refine ⟨fun t ht => (hinv t ht).held, fun t ht hh hne => ?_, fun t u htu ht hu => ?_⟩
  · exact (hinv t ht).hold_loads ((switchBlock_iff _ _ _).1 hh) hne
  · obtain ⟨v, h1, h2, h3⟩ := hold_separated htu ((switchBlock_iff _ _ _).1 ht) ((switchBlock_iff _ _ _).1 hu)
    exact ⟨v, h1, h2, h3.imp_left (getNewBlock_iff _ _ _).2⟩

/-- Player 1 holds H down from a reset on, and a frame starts in cycle 1. -/
def holdKey (t : ℕ) : In :=
  { reset := t == 0
    frameClk := t != 0
    keycode := 32
    canMove := ⟨false, false, false, false, false⟩
    boardBusy := false
    levelSpeed := 60 }

/-- The hold taken in cycle 2 shows the first piece, whose index is kept. -/
theorem hold_gives_back_holdKey :
    let tr := (design someReads 1).trace Tetris.powerUp.logic holdKey
    (tr 3).heldBlock ≠ .empty ∧ (tr 3).heldBlock = blockColorChoices someReads (tr 3).switchBlockIdx :=
  ⟨by decide,
    ((hold_gives_back someReads 1 Tetris.powerUp.logic holdKey rfl (by decide)).1 3 (by decide) (by decide)).2⟩

end BlockLogic

end FpgaTetris
