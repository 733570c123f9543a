/-
A push of the button brings a new game, whatever it interrupts. The board's machine keeps its state
through a reset, so after one in the middle of a clear the new game waits for the machine, for less than
three frames.
-/
import FpgaTetris.Console.Frames
import FpgaTetris.Game.Simulation

namespace FpgaTetris

open Sync

/-- A cycle of a clear of nothing, with the piece that waits for it. -/
theorem Tetris.flushed_step (oor : OutOfRange) (p : BitVec 2) {s : Tetris} {i : In} {n : ℕ}
    (hf : Board.Flushed n s.board) (hi : i.reset = false) :
    (Board.Flushed (n + if s.logic.frameClkRisingEdge then 1 else 0) (s.next oor p i).board ∨
        (s.next oor p i).board.state = .play) ∧
      ((s.next oor p i).board.boardArr = fun _ => .empty) ∧
      (s.next oor p i).logic.pieceCells = s.logic.pieceCells := by
  have hpiece := (saved_of_busy oor p hi hf.boardBusy).2
  rcases hf.step (i := s.boardIn oor p i) hi with hf' | ⟨hplay, hempty⟩
  · exact ⟨.inl hf', hf'.empty, hpiece⟩
  · exact ⟨.inr hplay, hempty, hpiece⟩

namespace Console

variable {κ χ : Type} {oor : OutOfRange} {latency : ℕ} {body : κ → Driver κ} {chip : OtgChip χ} {s : Console κ χ}
  {inp : ℕ → In} {p : BitVec 2} {a t : ℕ}

/-- A frame edge in the game of a player. -/
def edge (p : BitVec 2) (s : Console κ χ) (_ : In) : Bool := (s.game p).logic.frameClkRisingEdge

/-- A game that waits for its board: nothing is on it, and the piece stays where it is. -/
structure Waits (p : BitVec 2) (ps : List Pos) (s : Console κ χ) : Prop where
  empty : (s.game p).board.boardArr = fun _ => .empty
  piece : (s.game p).logic.pieceCells = ps

section Run

variable {b : ℕ} (hp : p = 1 ∨ p = 2) (ha : 2 ≤ a)
  (hreset : ((design oor latency body chip).trace s inp a).resetH = true)
  (hs : (((design oor latency body chip).trace s inp a).game p).board.state ≠ .other)
  (hr : ∀ t, a < t → t < b → ((design oor latency body chip).trace s inp t).resetH = false)

include hp ha

theorem next_game_trace (hat : a ≤ t) :
    let tr := (design oor latency body chip).trace s inp
    (tr (t + 1)).game p = ((tr t).game p).next oor p (tr t).gameIn := by
  intro tr
  obtain ⟨n, rfl⟩ : ∃ n, t = n + 2 := ⟨t - 2, by omega⟩
  exact (edges_trace oor latency body chip s inp n).next_game oor latency body chip (inp (n + 2)) hp

include hreset hs hr

/-- Until the machine is back in `PLAY` it clears nothing, and the frame edges bring it nearer. -/
theorem flushed_trace (hat : a < t) (htb : t ≤ b) (hno : ∀ u, a < u → u ≤ t →
      (((design oor latency body chip).trace s inp u).game p).board.state ≠ .play) :
    let d := design oor latency body chip
    Board.Flushed (d.ticks s inp (edge p) t - d.ticks s inp (edge p) (a + 1)) ((d.trace s inp t).game p).board ∧
      ((d.trace s inp t).game p).logic.pieceCells = ((d.trace s inp (a + 1)).game p).logic.pieceCells := by
  intro d
  induction t, hat using Nat.le_induction with
  | base =>
    have hnext : (d.trace s inp (a + 1)).game p = _ := next_game_trace hp ha le_rfl
    have hstate := hno (a + 1) (Nat.lt_succ_self a) le_rfl
    refine ⟨?_, rfl⟩
    rw [hnext] at hstate ⊢
    rw [Nat.sub_self]
    refine Tetris.flushed_of_reset oor p hreset (fun hplay => hstate ?_) hs
    exact (Tetris.next_board_reset oor p _ hreset).2.1.trans hplay
  | succ t hat ih =>
    obtain ⟨hf, hpiece⟩ := ih (Nat.le_of_succ_le htb) fun u h1 h2 => hno u h1 (Nat.le_succ_of_le h2)
    have hnext : (d.trace s inp (t + 1)).game p = _ := next_game_trace hp ha (le_of_lt hat)
    have hlow : (d.trace s inp t).gameIn.reset = false := hr t hat htb
    have hmono : d.ticks s inp (edge p) (a + 1) ≤ d.ticks s inp (edge p) t := Nat.count_monotone _ hat
    have hstate := hno (t + 1) (Nat.lt_succ_of_lt hat) le_rfl
    -- either the flush goes on, or the machine is back, which is excluded up to here
    obtain ⟨hnow, -, hpiece'⟩ := Tetris.flushed_step oor p hf hlow
    rw [hnext] at hstate ⊢
    refine ⟨?_, hpiece'.trans hpiece⟩
    rw [Design.ticks_succ, Nat.sub_add_comm hmono]
    exact hnow.resolve_right hstate

/-- What the game shows up to the cycle in which the machine is back. -/
theorem waits_trace (hat : a < t) (htb : t ≤ b) (hno : ∀ u, a < u → u < t →
      (((design oor latency body chip).trace s inp u).game p).board.state ≠ .play) :
    let tr := (design oor latency body chip).trace s inp
    Waits p ((tr (a + 1)).game p).logic.pieceCells (tr t) := by
  intro tr
  obtain ⟨u, rfl⟩ : ∃ u, t = u + 1 := ⟨t - 1, by omega⟩
  have hnext : (tr (u + 1)).game p = _ := next_game_trace hp ha (Nat.le_of_lt_succ hat)
  rcases Nat.lt_or_eq_of_le (Nat.le_of_lt_succ hat) with hau | rfl
  · obtain ⟨hf, hpiece⟩ := flushed_trace hp ha hreset hs hr hau (Nat.le_of_succ_le htb) fun v h1 h2 =>
      hno v h1 (Nat.lt_succ_of_le h2)
    have hlow : (tr u).gameIn.reset = false := hr u hau htb
    obtain ⟨-, hempty, hpiece'⟩ := Tetris.flushed_step oor p hf hlow
    refine ⟨?_, ?_⟩
    · rw [hnext]
      exact hempty
    · rw [hnext]
      exact hpiece'.trans hpiece
  · refine ⟨?_, rfl⟩
    rw [hnext]
    exact (Tetris.next_board_reset oor p _ hreset).1

end Run

/-! ## Whole runs -/

/-- A push of the button brings a new game. After a reset that came with a pixel clock, whatever the board's
machine was at, the machine is back in `PLAY` within three cycles of the 1233600th pixel clock; until then
the board is empty and busy, and the new piece waits. -/
theorem push_restarts (s : Console κ χ) (inp : ℕ → In) {p : BitVec 2} (hp : p = 1 ∨ p = 2) {a : ℕ} (ha : 2 ≤ a)
    (hreset : ((design oor latency body chip).trace s inp a).resetH = true) (hclk : (inp a).vgaClk = true)
    (hs : (((design oor latency body chip).trace s inp a).game p).board.state ≠ .other)
    {t : ℕ} (hat : a < t)
    (hr : ∀ u, a < u → u < t + 3 → ((design oor latency body chip).trace s inp u).resetH = false)
    (hclocks : (design oor latency body chip).ticks s inp pixelClock (a + 1) + 1233600 ≤
      (design oor latency body chip).ticks s inp pixelClock t) :
    let tr := (design oor latency body chip).trace s inp
    ∃ u, a < u ∧ u ≤ t + 3 ∧ ((tr u).game p).board.state = .play ∧
      ∀ v, a < v → v ≤ u → Waits p ((tr (a + 1)).game p).logic.pieceCells (tr v) ∧
        (v < u → ((tr v).game p).board.boardBusy = true) := by
  intro tr
  have hback : ∃ u, a < u ∧ u ≤ t + 3 ∧ ((tr u).game p).board.state = .play := by
    by_contra hno
    push Not at hno
    obtain ⟨hf, -⟩ := flushed_trace hp ha hreset hs hr (t := t + 2) (by omega) (by omega) fun u h1 h2 =>
      hno u h1 (by omega)
    obtain ⟨k, rfl⟩ : ∃ k, t = a + 1 + k := ⟨t - (a + 1), by omega⟩
    -- by the frames of the screen the fourth edge has come
    have hedges : (design oor latency body chip).ticks s inp (edge p) (a + 1 + k + 2) = _ :=
      ticks_edge hreset hclk hr (fun u => by rcases hp with rfl | rfl <;> rfl) k (by omega)
    have hmono : (design oor latency body chip).ticks s inp (edge p) (a + 1) ≤
        (design oor latency body chip).ticks s inp (edge p) (a + 1 + 2) := Nat.count_monotone _ (by omega)
    have hscore := hf.score_of_four (by unfold edgesAmong at hedges; omega)
    have hnext : (tr (a + 1 + k + 2 + 1)).game p = _ := next_game_trace hp ha (by omega)
    have hlow : (tr (a + 1 + k + 2)).gameIn.reset = false := hr _ (by omega) (by omega)
    refine hno (a + 1 + k + 3) (by omega) le_rfl ?_
    rw [hnext, Tetris.next_state hlow, Board.nextState, hscore]
  -- the first such cycle
  classical
  let u := Nat.find hback
  obtain ⟨hau, hut, hplay⟩ := Nat.find_spec hback
  have hbefore : ∀ v, a < v → v < u → ((tr v).game p).board.state ≠ .play := fun v h1 h2 hv =>
    Nat.find_min hback h2 ⟨h1, by omega, hv⟩
  refine ⟨u, hau, hut, hplay, fun v h1 h2 => ⟨?_, fun hvu => ?_⟩⟩
  · exact waits_trace hp ha hreset hs hr h1 (by omega) fun w h3 h4 => hbefore w h3 (by omega)
  · exact (flushed_trace hp ha hreset hs hr h1 (by omega) fun w h3 h4 => hbefore w h3 (by omega)).1.boardBusy

/-- A console whose second board is in the middle of a clear. -/
def clearing2 : Console Unit Unit :=
  let s := stuck 0
  { s with game2 := { s.game2 with board := { s.game2.board with state := .clear } } }

/-- The push comes in the middle of the clear. -/
theorem push_restarts_clearing2 :
    let tr := (design someReads 0 .pure .silent).trace clearing2 pushedFast
    (tr 2).game2.board.state = .clear ∧ ∃ u, 2 < u ∧ u ≤ 1233606 ∧ (tr u).game2.board.state = .play := by
  intro tr
  refine ⟨by decide, ?_⟩
  have hr : ∀ t, 2 < t → (tr t).resetH = false := by
    intro t ht
    obtain ⟨k, rfl⟩ : ∃ k, t = k + 2 + 1 := ⟨t - 3, by omega⟩
    exact resetH_of_stopped (fun _ => rfl) (by decide) rfl
  obtain ⟨u, h1, h2, hplay, -⟩ := @push_restarts Unit Unit someReads 0 .pure .silent clearing2 pushedFast 2 (.inr rfl) 2
    le_rfl rfl rfl (by decide) 1233603 (by omega) (fun u h1 _ => hr u h1) (by rw [ticks_pushedFast, ticks_pushedFast])
  exact ⟨u, h1, h2, hplay⟩

end Console

end FpgaTetris
