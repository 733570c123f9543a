/-
A new piece comes into play: after a lock, once the clear it may start is over, or after a hold.
The spawn cells come from a table and are not tested; they harm no settled cell exactly when they
are free on the board that the lock or the hold leaves.
-/
import FpgaTetris.Board.LineClear
import FpgaTetris.Game.TopOut
import FpgaTetris.Piece.Hold

namespace FpgaTetris

open Sync

/-! ## Cells after a clear -/

/-- A cell that is empty once the full rows of `b` are cleared, in terms of `b`. -/
def FreeAfterClear (oor : OutOfRange) (b : BoardArr) (c : Cell) : Prop :=
  let sc := Board.scan b
  if ¬ ∃ y, FullRow b y then b c = .empty
  else if sc.clearY = sc.numRows then b c = .empty ∨ FullRow b c.2
  else if sc.clearY.toNat < c.2 then b c = .empty ∨ FullRow b c.2
  else if sc.numRows.toNat ≤ c.2 then
    let y : Fin ySize := ⟨c.2 - sc.numRows.toNat, lt_of_le_of_lt (Nat.sub_le ..) c.2.isLt⟩
    b (c.1, y) = .empty ∨ FullRow b y
  else (eraseFull b).read oor ((pos c).1, (pos c).2 - sc.numRows) = .empty

theorem eraseFull_eq_empty {b : BoardArr} {c : Cell} : eraseFull b c = .empty ↔ b c = .empty ∨ FullRow b c.2 := by
  unfold eraseFull eraseFrom
  by_cases hc : FullRow b c.2
  · simp [hc]
  · simp [hc]

/-- The board that a lock on `b` leaves once the game is back in `PLAY`. -/
def afterLock (oor : OutOfRange) (b : BoardArr) : BoardArr :=
  if ∃ y, FullRow b y then Board.cleared oor b else b

theorem afterLock_eq_empty {oor : OutOfRange} {b : BoardArr} {c : Cell} :
    afterLock oor b c = .empty ↔ FreeAfterClear oor b c := by
  unfold afterLock FreeAfterClear
  dsimp only
  by_cases hfull : ∃ y, FullRow b y
  swap
  · rw [if_neg hfull, if_pos hfull]
  rw [if_pos hfull, if_neg (not_not_intro hfull), Board.cleared]
  by_cases heq : (Board.scan b).clearY = (Board.scan b).numRows
  · rw [if_pos heq, if_pos heq]
    exact eraseFull_eq_empty
  rw [if_neg heq, if_neg heq, show c = (c.1, c.2) from rfl, Board.dropRows_apply]
  by_cases hy : (Board.scan b).clearY.toNat < c.2
  · rw [if_pos hy, if_pos hy]
    exact eraseFull_eq_empty
  rw [if_neg hy, if_neg hy]
  by_cases hn : (Board.scan b).numRows.toNat ≤ c.2
  · rw [if_pos hn, if_pos hn]
    exact eraseFull_eq_empty
  · -- the rows that move in are read out of range on both sides
    rw [if_neg hn, if_neg hn]

namespace BlockLogic

variable {oor : OutOfRange} {playerNum : BitVec 2} {r : BlockLogic} {i : In}

/-- The index a hold brings into play. -/
def holdIdx (r : BlockLogic) : BitVec 3 := if r.heldBlock = .empty then r.blockIdx else r.switchBlockIdx

theorem loadIdx_of_lock (hl : (branch playerNum r i).effect = .lock) :
    r.loadIdx (branch playerNum r i) = r.blockIdx := by
  unfold loadIdx
  split
  · rename_i hb; rw [hb] at hl; cases hl
  · rfl

theorem loadIdx_of_hold (hh : (branch playerNum r i).effect = .hold) :
    r.loadIdx (branch playerNum r i) = r.holdIdx := by
  rcases branch_of_hold hh with hb | hb
  · rw [hb, holdIdx, if_neg ((branch_guard _ _ _).swap hb).2]; rfl
  · rw [hb, holdIdx, if_pos ((branch_guard _ _ _).first hb).2]; rfl

theorem Loaded.pieceCells {idx : BitVec 3} {n : BlockLogic} (h : Loaded oor idx n) :
    n.pieceCells = spawnCells oor idx := by
  unfold BlockLogic.pieceCells spawnCells
  rw [h.x, h.y]

end BlockLogic

namespace Tetris

variable {oor : OutOfRange} {playerNum : BitVec 2} {s : Tetris} {i : In}

/-! ## Arrival -/

/-- The piece of `s` comes into play with `s'` the state after its first cycle on the board: its
cells were empty or cells of the outgoing piece, and every settled cell keeps its colour. -/
structure KeepsStack (s s' : Tetris) (outgoing : List Pos) : Prop where
  free : ∀ p ∈ s.logic.pieceCells, ∃ c, pos c = p ∧ (s.board.boardArr c = .empty ∨ p ∈ outgoing)
  settled : ∀ c, s.board.boardArr c ≠ .empty → pos c ∉ outgoing → s'.board.boardArr c = s.board.boardArr c

/-- A first cycle in `PLAY` harms nothing exactly when the cells of the piece are free. -/
theorem Inv.keepsStack_iff (h : Inv oor s) (hi : i.reset = false) (hs : s.board.state = .play)
    (hl : (s.branch oor playerNum i).effect ≠ .lock) {outgoing : List Pos}
    (hsaved : ∀ p ∈ s.logic.savedCells, p ∈ outgoing ∨ p ∈ s.logic.pieceCells) :
    KeepsStack s (s.next oor playerNum i) outgoing ↔
      ∀ c, pos c ∈ s.logic.pieceCells → s.board.boardArr c = .empty ∨ pos c ∈ outgoing := by
  constructor
  · intro hk c hc
    obtain ⟨c', hcc, hfree⟩ := hk.free _ hc
    obtain rfl := pos_injective hcc
    exact hfree
  · intro hfree
    refine ⟨fun p hp => ?_, fun c hne hout => ?_⟩
    · obtain ⟨c, rfl⟩ := inBoard_iff.1 (h.piece p hp)
      exact ⟨c, rfl, hfree c hp⟩
    · -- a cell of the stack is neither painted nor erased
      have hpiece : pos c ∉ s.logic.pieceCells := fun hc => (hfree c hc).elim hne hout
      have hsave : pos c ∉ s.logic.savedCells := fun hc => (hsaved _ hc).elim hout hpiece
      rw [next_boardArr_play hi hs, if_neg hl, BoardArr.paint_apply, if_neg hpiece, BoardArr.paint_apply,
        if_neg hsave]

/-! ## Holds -/

section Hold

variable {j : In} (h : Inv oor s) (hh : (s.branch oor playerNum i).effect = .hold)

include hh

/-- A hold is taken in `PLAY`, but for the cycle after a reset that found the machine in a state
without a name. -/
theorem state_of_hold : s.board.state = .play ∨ s.board.state = .other :=
  Board.play_or_other (active_of_hold hh).2.1

theorem play_next_of_hold : (s.next oor playerNum i).board.state = .play := by
  have hi := (active_of_hold hh).1
  rcases state_of_hold hh with hs | hs
  · exact play_next oor playerNum hi hs (by simp [hh])
  · rw [next_state hi, Board.nextState, hs]

include h

theorem Inv.boardArr_next_of_hold {c : Cell} (hc : pos c ∉ s.logic.pieceCells) :
    (s.next oor playerNum i).board.boardArr c = s.board.boardArr c := by
  have hact := active_of_hold hh
  rcases state_of_hold hh with hs | hs
  · rw [h.boardArr_next hact.2.2 hact.1 hs (by simp [hh]), BoardArr.paint_apply,
      if_neg hc, lifted, BoardArr.paint_apply, if_neg hc]
  · rw [next_boardArr hact.1, Board.boardIn, hs]

theorem Inv.keepsStack_of_hold (hj : j.reset = false) :
    KeepsStack (s.next oor playerNum i) ((s.next oor playerNum i).next oor playerNum j) s.logic.pieceCells ↔
      ∀ c, pos c ∈ spawnCells oor s.logic.holdIdx → s.board.boardArr c = .empty ∨ pos c ∈ s.logic.pieceCells := by
  have hact := active_of_hold hh
  have hst := stepped oor playerNum s hact.1
  obtain ⟨hl, -⟩ := hst.load (.inr hh)
  have hsaved : (s.next oor playerNum i).logic.savedCells = s.logic.pieceCells :=
    savedCells_next hact.1 (by simp [hh])
  refine ((h.next i).keepsStack_iff hj (play_next_of_hold hh) (h.next_ne_lock hact.2.2)
    fun p hp => .inl (hsaved ▸ hp)).trans ?_
  have hidx : s.logic.loadIdx (s.branch oor playerNum i) = s.logic.holdIdx := BlockLogic.loadIdx_of_hold hh
  rw [hl.pieceCells, hidx]
  refine forall₂_congr fun c _ => or_congr_left' fun hc => ?_
  rw [h.boardArr_next_of_hold hh hc]

end Hold

/-! ## Locks -/

/-- From a lock to the next `PLAY` cycle: the new piece waits at its spawn coordinates while the
board is cleared. -/
structure Waiting (oor : OutOfRange) (b : BoardArr) (idx : BitVec 3) (s : Tetris) : Prop where
  board : Board.Clearing oor b s.board ∨ s.board.state = .play ∧ s.board.boardArr = afterLock oor b
  piece : BlockLogic.Loaded oor idx s.logic
  saved : s.logic.savedCells = s.logic.pieceCells

theorem Inv.waiting_of_lock (h : Inv oor s) (hl : (s.branch oor playerNum i).effect = .lock) :
    Waiting oor s.board.boardArr s.logic.blockIdx (s.next oor playerNum i) := by
  have hi := (active_of_lock hl).1
  have hs := h.play_of_lock hl
  have hst := stepped oor playerNum s hi
  refine ⟨?_, BlockLogic.loadIdx_of_lock hl ▸ (hst.load (.inl hl)).1, ?_⟩
  · by_cases hfull : ∃ y, FullRow s.board.boardArr y
    · exact .inl (h.clearing_of_lock hl hfull)
    · refine .inr ⟨?_, ?_⟩
      · rw [next_state_play oor playerNum hi hs, if_neg fun hc => hfull hc.2]
      · rw [h.boardArr_of_lock hl, afterLock, if_neg hfull]
  · obtain ⟨hx, hy⟩ := hst.saveLock hl
    exact BlockLogic.savedCells_eq hx hy

theorem Waiting.next {b : BoardArr} {idx : BitVec 3} (h : Waiting oor b idx s) (hi : i.reset = false)
    (hs : s.board.state ≠ .play) : Waiting oor b idx (s.next oor playerNum i) := by
  have hcl : Board.Clearing oor b s.board := h.board.resolve_right fun hp => hs hp.1
  have hst := stepped oor playerNum s hi
  rw [stay_of_busy hcl.boardBusy] at hst
  obtain ⟨hx, hy, ho⟩ := hst.stay rfl
  obtain ⟨hblock, -⟩ := hst.keep Effect.noConfusion Effect.noConfusion
  obtain ⟨hsx, hsy⟩ := hst.save Effect.noConfusion
  have hp := h.piece
  refine ⟨?_, ⟨hx.trans hp.x, hy.trans hp.y, hblock.trans hp.block, ho.trans hp.orientation,
    hst.counters.1.trans hp.down, hst.counters.2.trans hp.speed⟩,
    BlockLogic.savedCells_eq (hsx.trans hx.symm) (hsy.trans hy.symm)⟩
  unfold afterLock
  rw [if_pos hcl.full]
  exact hcl.step hi

/-! ## Whole runs -/

section Run

variable (oor) (playerNum) (s) (inp : ℕ → In)

/-- Cycle `u` is the first in `PLAY` after cycle `t`, with no reset after `t` up to `u`. -/
structure FirstPlay (t u : ℕ) : Prop where
  lt : t < u
  run : ∀ v, t < v → v ≤ u → (inp v).reset = false
  busy : ∀ v, t < v → v < u → ((design oor playerNum).trace s inp v).board.state ≠ .play
  play : ((design oor playerNum).trace s inp u).board.state = .play

variable {oor playerNum s inp}

/-- At the first `PLAY` cycle after a lock the new piece is at its spawn coordinates and the board
is what the lock leaves. -/
theorem waiting_of_firstPlay {t u : ℕ} (h : Inv oor ((design oor playerNum).trace s inp t))
    (hl : (((design oor playerNum).trace s inp t).branch oor playerNum (inp t)).effect = .lock)
    (hu : FirstPlay oor playerNum s inp t u) :
    Waiting oor ((design oor playerNum).trace s inp t).board.boardArr
      ((design oor playerNum).trace s inp t).logic.blockIdx ((design oor playerNum).trace s inp u) := by
  refine Design.trace_phase (Waiting oor _ _) hu.lt (h.waiting_of_lock hl) fun v h1 h2 hv => ?_
  exact hv.next (hu.run v h1 (le_of_lt h2)) (hu.busy v h1 h2)

end Run

/-- Bringing a new piece into play keeps the stack exactly when the spawn cells are free: for a
lock, on the board once its full rows are cleared; for a hold, on the board but for the outgoing
piece. -/
theorem arrival_keeps_stack_iff (oor : OutOfRange) (playerNum : BitVec 2) (s : Tetris) (inp : ℕ → In)
    (h0 : (inp 0).reset = true) (hg : s.logic.blockGen.InRange) (t : ℕ) (ht : 0 < t) :
    let tr := (design oor playerNum).trace s inp
    (((tr t).comb oor playerNum (inp t)).getNewBlock = true → ∀ u, FirstPlay oor playerNum s inp t u →
      (KeepsStack (tr u) (tr (u + 1)) [] ↔
        ∀ c, pos c ∈ spawnCells oor (tr t).logic.blockIdx → FreeAfterClear oor (tr t).board.boardArr c)) ∧
    (((tr t).comb oor playerNum (inp t)).switchBlock = true → (inp (t + 1)).reset = false →
      (KeepsStack (tr (t + 1)) (tr (t + 2)) (tr t).logic.pieceCells ↔
        ∀ c, pos c ∈ spawnCells oor (tr t).logic.holdIdx →
          (tr t).board.boardArr c = .empty ∨ pos c ∈ (tr t).logic.pieceCells)) := by
  intro tr
  have hinv : ∀ t, 0 < t → Inv oor (tr t) := inv_trace oor playerNum s inp h0 hg
  refine ⟨fun hl u hu => ?_, fun hh hr => ?_⟩
  · have hu0 : 0 < u := lt_trans ht hu.lt
    have hw := waiting_of_firstPlay (hinv t ht) (getNewBlock_iff.1 hl) hu
    have hidle : ((tr u).branch oor playerNum (inp u)).effect ≠ .lock := fun hlock =>
      (hinv u hu0).not_zero_of_lock hlock ⟨hw.piece.down, hw.piece.speed⟩
    -- by the first cycle in `PLAY` the clear is over
    have harr : (tr u).board.boardArr = afterLock oor (tr t).board.boardArr :=
      (hw.board.resolve_left fun hc => hc.ne_play hu.play).2
    refine ((hinv u hu0).keepsStack_iff (hu.run u hu.lt le_rfl) hu.play hidle
      fun p hp => .inr (hw.saved ▸ hp)).trans ?_
    rw [hw.piece.pieceCells, harr]
    refine forall₂_congr fun c _ => ?_
    rw [← afterLock_eq_empty]
    simp only [List.not_mem_nil, or_false]
  · exact (hinv t ht).keepsStack_of_hold (switchBlock_iff.1 hh) hr

/-- The hold of a first frame brings in a piece over free cells and cells of the outgoing one. -/
theorem arrival_keeps_stack_hold :
    let tr := (design someReads 1).trace powerUp (fun t => ⟨t == 0, t != 0, 32⟩)
    KeepsStack (tr 3) (tr 4) (tr 2).logic.pieceCells :=
  ((arrival_keeps_stack_iff someReads 1 powerUp (fun t => ⟨t == 0, t != 0, 32⟩) rfl (by decide) 2 (by decide)).2
    rfl rfl).2 (by decide +kernel)

/-- Without keys the stack reaches the top, and a new piece comes into play over settled cells. -/
theorem arrival_overwrites_stack :
    ∃ inp t, let tr := (design someReads 1).trace powerUp inp
      (inp 0).reset = true ∧ 0 < t ∧ ((tr t).comb someReads 1 (inp t)).getNewBlock = true ∧
        FirstPlay someReads 1 powerUp inp t (t + 1) ∧ ¬ KeepsStack (tr (t + 1)) (tr (t + 2)) [] := by
  have harrives := arrives_powerUp someReads 1
  obtain ⟨hready, -, -⟩ := harrives.ready 1 (by decide +kernel)
  obtain ⟨e, Q, hreach, he, hb, hfull, hblocked⟩ :=
    hready.tops_out 1 (Position.clearsColumn_spawn (fun _ => rfl) (by decide))
  obtain ⟨t, inp, ⟨ht, h0, hrun, -⟩, htrace, hrest⟩ :=
    exists_run ((Reaches.idle harrives.noEdge rfl).trans hreach) (fun _ => ⟨false, false, 0⟩) fun _ => rfl
  have hin : inp t = ⟨false, false, 0⟩ := hrest 0
  have hnext : (design someReads 1).trace powerUp inp (t + 1) = e.next someReads 1 ⟨false, false, 0⟩ := by
    rw [Design.trace_succ, htrace, hin]; rfl
  have harr := he.arrives hb hfull
  refine ⟨inp, t, h0, ht, ?_, ⟨Nat.lt_succ_self t, fun v hv _ => hrun v (lt_trans ht hv), fun v h1 h2 => by omega, ?_⟩,
    fun hk => hblocked fun p hp => ?_⟩
  · rw [htrace, hin, getNewBlock_iff, hb]; rfl
  · rw [hnext]; exact harr.play
  · rw [hnext] at hk
    obtain ⟨c, hc, hempty⟩ := hk.free p (harr.piece.pieceCells ▸ hp)
    exact ⟨c, hc, harr.board ▸ hempty.resolve_right (List.not_mem_nil)⟩

end Tetris

end FpgaTetris
