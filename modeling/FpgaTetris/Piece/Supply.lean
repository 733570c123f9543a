/-
Where the pieces come from and where they go: a draw brings in the piece that the generator names, a
lock takes one out, and a hold changes places with the box.
-/
import FpgaTetris.Piece.Generator

namespace FpgaTetris

open Sync

namespace BlockLogic

variable {oor : OutOfRange} {playerNum : BitVec 2} {r : BlockLogic} {i : In}

instance : Decidable (Draws playerNum r i) := inferInstanceAs (Decidable (_ ∨ _))

/-- The piece that a cycle draws from the generator. -/
def drawnPiece (oor : OutOfRange) (playerNum : BitVec 2) (r : BlockLogic) (i : In) : Option BlockColor :=
  if Draws playerNum r i then some (blockColorChoices oor r.blockIdx) else none

/-- The piece that a cycle locks. -/
def lockedPiece (playerNum : BitVec 2) (r : BlockLogic) (i : In) : Option BlockColor :=
  if (branch playerNum r i).effect = .lock then some r.block else none

/-- The piece in the hold box, if there is one. -/
def box (r : BlockLogic) : List BlockColor := if r.heldBlock = .empty then [] else [r.heldBlock]

/-- The pieces in the game: the one in play and the one in the box. -/
def pieces (r : BlockLogic) : List BlockColor := r.block :: r.box

/-! ## One cycle -/

/-- A lock takes out the piece in play and draws the next one. -/
theorem pieces_next_of_lock (h : (branch playerNum r i).effect = .lock) :
    ((lockedPiece playerNum r i).toList ++ (next oor playerNum r i).pieces).Perm
      (r.pieces ++ (drawnPiece oor playerNum r i).toList) := by
  have hst := next_stepped oor playerNum r i (active_of_lock h).1
  have hh : (branch playerNum r i).effect ≠ .hold := by simp [h]
  have hblock : (next oor playerNum r i).block = blockColorChoices oor r.blockIdx := by
    rw [(hst.load (.inl h)).1.block, loadIdx_of_ne fun hs => by rw [hs] at h; cases h]
  have hbox : (next oor playerNum r i).box = r.box := by
    unfold box
    rw [(hst.heldKeep hh).1]
  unfold pieces lockedPiece drawnPiece
  rw [if_pos h, if_pos (.inl h), hblock, hbox]
  exact (List.perm_append_singleton _ _).symm.cons _

theorem lockedPiece_of_ne (h : (branch playerNum r i).effect ≠ .lock) : lockedPiece playerNum r i = none := if_neg h

/-- A hold puts the piece in play into the box, and brings in the one that was there or a new one. -/
theorem Inv.pieces_next_of_hold (hinv : Inv oor r) (h : (branch playerNum r i).effect = .hold) :
    (BlockLogic.next oor playerNum r i).pieces.Perm (r.pieces ++ (drawnPiece oor playerNum r i).toList) := by
  have hst := next_stepped oor playerNum r i (active_of_hold h).1
  have hheld : (BlockLogic.next oor playerNum r i).heldBlock = r.block := (hst.held h).1
  have hblock := (hst.load (.inr h)).1.block
  have hne : (BlockLogic.next oor playerNum r i).heldBlock ≠ .empty := by
    rw [hheld]
    exact hinv.color
  unfold pieces box drawnPiece
  rw [if_neg hne, hheld, hblock]
  rcases branch_of_hold h with hb | hb
  · -- the box has a piece, and nothing is drawn
    have hbox := ((branch_guard _ _ _).swap hb).2
    have hdraw : ¬ Draws playerNum r i := fun hd => by simp [Draws, hb, Branch.effect] at hd
    rw [if_neg hbox, if_neg hdraw, hb, (hinv.held hbox).2]
    exact List.Perm.swap _ _ _
  · -- the box is empty, and a piece is drawn into play
    have hbox := ((branch_guard _ _ _).first hb).2
    rw [if_pos hbox, if_pos (.inr hb), hb]
    exact List.Perm.swap _ _ _

/-- In any cycle without a reset, the pieces locked and those left are those that were there and the one
drawn. -/
theorem Inv.pieces_next (hinv : Inv oor r) (hi : i.reset = false) :
    ((lockedPiece playerNum r i).toList ++ (BlockLogic.next oor playerNum r i).pieces).Perm
      (r.pieces ++ (drawnPiece oor playerNum r i).toList) := by
  by_cases hl : (branch playerNum r i).effect = .lock
  · exact pieces_next_of_lock hl
  rw [lockedPiece_of_ne hl]
  by_cases hh : (branch playerNum r i).effect = .hold
  · exact hinv.pieces_next_of_hold hh
  have hst := next_stepped oor playerNum r i hi
  have hdraw : ¬ Draws playerNum r i := fun hd => hd.elim hl fun hb => hh (by rw [hb]; rfl)
  unfold pieces box drawnPiece
  rw [if_neg hdraw, (hst.keep hl hh).1, (hst.heldKeep hh).1, Option.toList_none, List.append_nil]
  exact List.Perm.refl _

/-! ## Whole games -/

/-- No piece is lost or doubled. At any time after a reset, the pieces that came out of the generator,
the first one and those drawn since, are those locked so far, the one in play and the one in the box. -/
theorem pieces_conserved (oor : OutOfRange) (playerNum : BitVec 2) (r : BlockLogic) (inp : ℕ → In)
    (h0 : (inp 0).reset = true) (hg : r.blockGen.InRange) (t : ℕ) (ht : 0 < t)
    (hr : ∀ u, 0 < u → u < t → (inp u).reset = false) :
    let d := design oor playerNum
    (blockColorChoices oor r.blockIdx :: d.events r inp (drawnPiece oor playerNum) t).Perm
      (d.events r inp (lockedPiece playerNum) t ++ (d.trace r inp t).pieces) := by
  intro d
  have hinv : ∀ t, 0 < t → Inv oor (d.trace r inp t) := inv_keeps.trace ⟨h0, hg⟩ fun _ _ => trivial
  refine d.events_perm r inp (l := [blockColorChoices oor r.blockIdx]) pieces ?_ ht
    fun u hu hut => (hinv u hu).pieces_next (hr u hu hut)
  -- the reset loads the first piece and empties the box
  obtain ⟨hload, -, -, -, hheld, -⟩ := next_reset oor playerNum r (inp 0) h0
  have hidle : branch playerNum r (inp 0) = .idle := branch_eq_idle (.inl h0)
  have hpieces : (d.trace r inp 1).pieces = [blockColorChoices oor r.blockIdx] := by
    unfold pieces box
    rw [show (d.trace r inp 1).heldBlock = .empty from hheld, if_pos rfl]
    exact congrArg (fun c => [c]) hload.block
  have hlocked : lockedPiece playerNum r (inp 0) = none := lockedPiece_of_ne (by simp [hidle])
  have hdrawn : drawnPiece oor playerNum r (inp 0) = none :=
    if_neg fun hd => by simp [Draws, hidle] at hd
  rw [hpieces, Design.events_succ, Design.events_succ, Design.trace_zero, hlocked, hdrawn]
  exact List.Perm.refl _

/-- After the hold of cycle 2 one piece is in the box and another in play. -/
theorem pieces_conserved_hold :
    let d := design someReads 1
    let inp : ℕ → In := fun t => { holdAfterReset (t + 1) with reset := t == 0 }
    (blockColorChoices someReads 0 :: d.events Tetris.powerUp.logic inp (drawnPiece someReads 1) 3).Perm
      (d.events Tetris.powerUp.logic inp (lockedPiece 1) 3 ++ (d.trace Tetris.powerUp.logic inp 3).pieces) :=
  pieces_conserved someReads 1 Tetris.powerUp.logic (fun t => { holdAfterReset (t + 1) with reset := t == 0 }) rfl
    (by decide) 3 (by decide) fun t ht _ => by cases t with | zero => cases ht | succ t => rfl

end BlockLogic

end FpgaTetris
