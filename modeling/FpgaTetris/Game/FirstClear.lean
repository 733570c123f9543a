/-
A first clear: three pieces fill the bottom row, in play that nothing troubles, and the clear runs its
course.
-/
import FpgaTetris.Game.Play

namespace FpgaTetris

open Sync

namespace Tetris

variable {oor : OutOfRange} {playerNum : BitVec 2}

theorem board_trace (s : Tetris) (inp : ℕ → In) (t : ℕ) :
    ((design oor playerNum).trace s inp t).board =
      (Board.design oor).trace s.board
        (fun t => ((design oor playerNum).trace s inp t).boardIn oor playerNum (inp t)) t :=
  Design.trace_component (π := Tetris.board) (f := boardIn oor playerNum) next_board t

/-! ## A clear in play -/

/-- A run from power-up with a lock over full rows in cycle `a`, the first cycle that is not untroubled; its
clear shifts the rows in cycle `b`. From `a` on there is a frame edge in every other cycle, and no key. -/
structure ClearRun (oor : OutOfRange) (playerNum : BitVec 2) (P : Position) (inp : ℕ → In) (a b : ℕ) : Prop where
  smooth : SmoothRun oor playerNum inp a
  edge : AtEdge oor P ((design oor playerNum).trace powerUp inp a)
  full : ∃ y, FullRow P.locked y
  lock : ((design oor playerNum).trace powerUp inp a).branch oor playerNum (inp a) = .gravityLock
  lt : a < b
  clearing : ∀ u, a < u → u ≤ b + 1 → Board.Clearing oor P.locked ((design oor playerNum).trace powerUp inp u).board
  drop : ((design oor playerNum).trace powerUp inp b).board.state = .drop
  shift : ((design oor playerNum).trace powerUp inp b).logic.frameClkRisingEdge = true
  rest : ∀ u, inp (a + u) = ⟨false, u % 2 == 1, 0⟩

namespace ClearRun

variable {P : Position} {inp : ℕ → In} {a b : ℕ} (h : ClearRun oor playerNum P inp a b)

include h

theorem numRowsReg_ne_zero : ((design oor playerNum).trace powerUp inp b).board.numRowsReg ≠ 0 := by
  rw [(h.clearing b h.lt (Nat.le_succ b)).numRows]
  intro hn
  have hpos := Board.numRows_pos h.full
  rw [hn] at hpos
  exact absurd hpos (lt_irrefl 0)

/-- The pulse follows the shift. -/
theorem score : ((design oor playerNum).trace powerUp inp (b + 1)).board.state = .score := by
  have hb : 0 < b := lt_trans h.smooth.pos h.lt
  have hedge : (((design oor playerNum).trace powerUp inp b).boardIn oor playerNum (inp b)).frameClkRisingEdge = true :=
    h.shift
  rw [Design.trace_succ]
  show (next oor playerNum _ _).board.state = _
  rw [next_state (h.smooth.run b hb), Board.nextState, h.drop]
  exact if_pos hedge

theorem play : ((design oor playerNum).trace powerUp inp (b + 2)).board.state = .play := by
  rw [Design.trace_succ]
  show (next oor playerNum _ _).board.state = _
  rw [next_state (h.smooth.run (b + 1) (Nat.succ_pos b)), Board.nextState, h.score]

/-- The next frame edge comes at once. -/
theorem edge_play : ((design oor playerNum).trace powerUp inp (b + 2)).logic.frameClkRisingEdge = true := by
  obtain ⟨u, rfl⟩ : ∃ u, b = a + u + 1 := ⟨b - a - 1, by have := h.lt; omega⟩
  have hshift : ((inp (a + u)).frameClk && _) = true := h.shift
  rw [h.rest, Bool.and_eq_true] at hshift
  have hodd : u % 2 = 1 := beq_iff_eq.1 hshift.1
  show ((inp (a + (u + 2))).frameClk && !(inp (a + (u + 1))).frameClk) = true
  rw [h.rest, h.rest]
  have h1 : (u + 2) % 2 = 1 := by omega
  have h0 : (u + 1) % 2 = 0 := by omega
  simp [h1, h0]

theorem stay {u : ℕ} (hau : a < u) (hub : u ≤ b + 1) :
    (((design oor playerNum).trace powerUp inp u).branch oor playerNum (inp u)).effect = .stay :=
  congrArg _ (stay_of_busy (h.clearing u hau hub).boardBusy)

end ClearRun

/-- A lock over full rows that start lower than their number leads to a shift of rows. -/
theorem exists_clearRun {e : Tetris} {P : Position} (h : AtEdge oor P e)
    (hreach : Reaches oor playerNum (powerUp.next oor playerNum ⟨true, false, 0⟩) e)
    (hb : e.branch oor playerNum ⟨false, false, 0⟩ = .gravityLock) (hfull : ∃ y, FullRow P.locked y)
    (hne : (Board.scan P.locked).clearY ≠ (Board.scan P.locked).numRows) :
    ∃ inp a b, ClearRun oor playerNum P inp a b := by
  obtain ⟨a, inp, hsmooth, htrace, hrest⟩ := exists_run hreach (fun t => ⟨false, t % 2 == 1, 0⟩) fun _ => rfl
  have ha : inp a = ⟨false, false, 0⟩ := hrest 0
  have hnext : (design oor playerNum).trace powerUp inp (a + 1) = e.next oor playerNum ⟨false, false, 0⟩ := by
    rw [Design.trace_succ, htrace, ha]
    rfl
  have hcl := h.clearing hb hfull
  have hclear : (e.next oor playerNum ⟨false, false, 0⟩).board.state = .clear := by
    rw [next_state_play oor playerNum rfl h.play, if_pos ⟨by rw [hb]; rfl, by rwa [h.board]⟩]
  have hedges : ∀ n, ∃ t, n ≤ t ∧ ((design oor playerNum).trace powerUp inp t).logic.frameClkRisingEdge = true := by
    intro n
    refine ⟨a + (2 * n + 2), by omega, ?_⟩
    show ((inp (a + (2 * n + 1))).frameClk && !(inp (a + 2 * n)).frameClk) = true
    rw [hrest, hrest]
    have h1 : (2 * n + 1) % 2 = 1 := by omega
    simp [h1]
  rw [← hnext, board_trace] at hcl hclear
  -- the clear is followed on the board alone
  obtain ⟨b, hab, hdrop, hshift, hclearing⟩ :=
    Board.exists_drop (fun t ht => hsmooth.run t (by omega)) hcl hne hclear hedges
  rw [← board_trace] at hdrop
  refine ⟨inp, a, b, hsmooth, htrace ▸ h, hfull, by rw [htrace, ha, hb], hab, fun u hau hub => ?_, hdrop, hshift, hrest⟩
  rw [board_trace]
  exact hclearing u hau hub

/-! ## The first clear -/

/-! Three pieces fill the bottom row: two flat ones side by side, and a square next to them. -/

def firstMoves : List Move := List.replicate 3 .left ++ List.replicate 19 .down

def secondMoves : List Move := .right :: List.replicate 19 .down

def thirdMoves : List Move := List.replicate 4 .right ++ List.replicate 18 .down

/-- The settled cells after the first piece. -/
def afterFirst : BoardArr := ((Position.spawn someReads (fun _ => .empty) 0).moves firstMoves).locked

/-- The settled cells after the second piece. -/
def afterSecond : BoardArr := ((Position.spawn someReads afterFirst 0).moves secondMoves).locked

/-- The position before the third piece locks. -/
def thirdDown : Position := (Position.spawn someReads afterSecond 3).moves thirdMoves

/-- The three pieces can be played. -/
theorem exists_thirdDown :
    ∃ e, Reaches someReads 1 (powerUp.next someReads 1 ⟨true, false, 0⟩) e ∧ AtEdge someReads thirdDown e ∧
      e.branch someReads 1 ⟨false, false, 0⟩ = .gravityLock := by
  have harrives := arrives_powerUp someReads 1
  obtain ⟨h, hd, hticks⟩ := harrives.ready 1 (by decide +kernel)
  -- each piece is taken along its moves and locks, and the next one is known from the bits of the draw
  obtain ⟨s₁, hp₁⟩ := h.path 1 firstMoves (by rw [hd]; decide) (by decide +kernel)
  have hidx₁ : s₁.logic.blockIdx = 0 := hp₁.ticks.nextBlockIdx.trans hticks.nextBlockIdx
  have hbits₁ : s₁.logic.blockGen.generatedBits = _ := (hticks.trans hp₁.ticks).bits rfl
  obtain ⟨s₂, hreach₂, hready₂, hd₂, hdraw⟩ := hp₁.ready.next_piece 1 (by decide +kernel) (by decide +kernel)
    (by rw [hidx₁]; decide +kernel)
  have hidx₂ : s₂.logic.blockIdx = 3 := hdraw hidx₁ 3 (by rw [hbits₁]; decide +kernel) (by decide) (by decide)
  rw [hidx₁] at hready₂
  obtain ⟨s₃, hp₃⟩ := hready₂.path 1 secondMoves (by rw [hd₂]; decide) (by decide +kernel)
  have hidx₃ : s₃.logic.blockIdx = 3 := hp₃.ticks.nextBlockIdx.trans hidx₂
  obtain ⟨s₄, hreach₄, hready₄, hd₄, -⟩ := hp₃.ready.next_piece 1 (by decide +kernel) (by decide +kernel)
    (by rw [hidx₃]; decide +kernel)
  rw [hidx₃] at hready₄
  obtain ⟨s₅, hp₅⟩ := hready₄.path 1 thirdMoves (by rw [hd₄]; decide) (by decide +kernel)
  obtain ⟨e, hreach, he, hb, -, -⟩ := hp₅.ready.atLock 1 (by decide +kernel)
  exact ⟨e, (Reaches.idle harrives.noEdge rfl).trans (hp₁.reaches.trans (hreach₂.trans (hp₃.reaches.trans (hreach₄.trans
    (hp₅.reaches.trans hreach))))), he, hb⟩

theorem length_fullRows_third : (fullRows thirdDown.locked).length = 1 := by decide +kernel

theorem exists_thirdClear : ∃ inp a b, ClearRun someReads 1 thirdDown inp a b := by
  obtain ⟨e, hreach, he, hb⟩ := exists_thirdDown
  exact exists_clearRun he hreach hb (by decide +kernel) (by decide +kernel)

end Tetris

end FpgaTetris
