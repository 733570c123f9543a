/-
A game without keys. Pieces come down where they spawn and never fill a row, since none reaches the
outer columns; the board has finitely many cells, so at some lock the next piece finds its cells
taken.
-/
import FpgaTetris.Game.Play

namespace FpgaTetris

namespace Position

variable {oor : OutOfRange} {P : Position} {idx : BitVec 3}

/-- Nothing is in column 0, neither settled cells nor the piece. -/
structure ClearsColumn (P : Position) : Prop where
  settled : ∀ y, P.settled (0, y) = .empty
  piece : ∀ p ∈ P.cells, p.1 ≠ 0

theorem ClearsColumn.move_down (h : P.ClearsColumn) : (P.move .down).ClearsColumn := by
  refine ⟨h.settled, ?_⟩
  have hp := h.piece
  simp only [cells, FpgaTetris.cells, List.mem_cons, List.not_mem_nil, or_false, forall_eq_or_imp, forall_eq] at hp
  simpa [cells, FpgaTetris.cells, move, Move.apply] using hp

theorem ClearsColumn.locked (h : P.ClearsColumn) (y : Fin ySize) : P.locked (0, y) = .empty := by
  unfold Position.locked
  rw [BoardArr.paint_apply, if_neg fun hc => h.piece _ hc rfl]
  exact h.settled y

theorem ClearsColumn.not_fullRow (h : P.ClearsColumn) : ¬ ∃ y, FullRow P.locked y :=
  fun ⟨y, hy⟩ => hy 0 (h.locked y)

theorem clearsColumn_spawn {b : BoardArr} (hb : ∀ y, b (0, y) = .empty) (hi : idx ≤ 6) :
    (spawn oor b idx).ClearsColumn := by
  refine ⟨hb, ?_⟩
  rcases idx_cases hi with rfl | rfl | rfl | rfl | rfl | rfl | rfl <;>
    simp [cells, FpgaTetris.cells, spawn, xBlockChoices, yBlockChoices]

/-! ## Room on the board -/

/-- The number of empty cells. -/
def room (b : BoardArr) : ℕ := (Finset.univ.filter fun c => b c = .empty).card

/-- A lock takes room. -/
theorem Legal.room_locked (h : P.Legal) (hc : P.color ≠ .empty) : room P.locked < room P.settled := by
  obtain ⟨c, hpos, hfree⟩ := h (P.x.c1, P.y.c1) (List.mem_cons_self ..)
  have hcell : pos c ∈ P.cells := hpos ▸ List.mem_cons_self ..
  refine Finset.card_lt_card (Finset.ssubset_iff_of_subset ?_ |>.2 ⟨c, ?_, ?_⟩)
  · intro c' hc'
    simp only [Finset.mem_filter, Finset.mem_univ, true_and, locked, BoardArr.paint_apply] at hc' ⊢
    split at hc'
    · exact absurd hc' hc
    · exact hc'
  · simp [hfree]
  · simp [locked, BoardArr.paint_apply, hcell, hc]

end Position

namespace Tetris

variable {oor : OutOfRange} {playerNum : BitVec 2} {s : Tetris} {P : Position}

variable (playerNum)

/-- Without keys a piece comes down until it can no more. -/
theorem Ready.descend (h : Ready oor P s) (hcol : P.ClearsColumn) :
    ∃ s' Q, Reaches oor playerNum s s' ∧ Ready oor Q s' ∧ ¬ (Q.move .down).Legal ∧ Q.ClearsColumn ∧
      Q.settled = P.settled := by
  generalize hn : 20 - P.y.c1.toNat = n
  induction n generalizing P s with
  | zero =>
    have hin := (h.legal (P.x.c1, P.y.c1) (List.mem_cons_self ..)).inBoard.2
    exact absurd hin (not_lt.2 (Nat.le_of_sub_eq_zero hn))
  | succ n ih =>
    by_cases hl : (P.move .down).Legal
    swap
    · exact ⟨s, P, .refl, h, hl, hcol, rfl⟩
    obtain ⟨s₁, hp, -⟩ := h.down playerNum hl
    have hrow : (P.move .down).y.c1.toNat = P.y.c1.toNat + 1 :=
      BitVec.toNat_add_of_lt (show _ + 1 < 32 by omega)
    obtain ⟨s', Q, hreach, hready, hstop, hcol', hsettled⟩ := ih hp.ready hcol.move_down (by omega)
    exact ⟨s', Q, hp.reaches.trans hreach, hready, hstop, hcol', hsettled⟩

/-- A game without keys comes to a lock after which the next piece finds its cells taken. -/
theorem Ready.tops_out (h : Ready oor P s) (hcol : P.ClearsColumn) :
    ∃ e Q, Reaches oor playerNum s e ∧ AtEdge oor Q e ∧ e.branch oor playerNum ⟨false, false, 0⟩ = .gravityLock ∧
      (¬ ∃ y, FullRow Q.locked y) ∧ ¬ (Position.spawn oor Q.locked e.logic.blockIdx).Legal := by
  generalize hn : Position.room P.settled = n
  induction n using Nat.strong_induction_on generalizing P s with
  | _ n ih =>
    obtain ⟨s₁, Q, hreach, hready, hstop, hcol', hsettled⟩ := h.descend playerNum hcol
    obtain ⟨e, hreach', he, hb, -, -⟩ := hready.atLock playerNum hstop
    by_cases hfree : (Position.spawn oor Q.locked e.logic.blockIdx).Legal
    swap
    · exact ⟨e, Q, hreach.trans hreach', he, hb, hcol'.not_fullRow, hfree⟩
    obtain ⟨hnext, -, -⟩ := (he.arrives hb hcol'.not_fullRow).ready playerNum hfree
    -- a lock takes four free cells away
    have hroom : Position.room Q.locked < n := by
      rw [← hn, ← hsettled]
      exact hready.legal.room_locked (hready.color ▸ hready.inv.logic.color)
    obtain ⟨e', Q', hr, hrest⟩ := ih _ hroom hnext
      (Position.clearsColumn_spawn hcol'.locked he.inv.logic.gen.1) rfl
    exact ⟨e', Q', ((hreach.trans hreach').trans (he.reaches_next hb hcol'.not_fullRow hfree)).trans hr, hrest⟩

end Tetris

end FpgaTetris
