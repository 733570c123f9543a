/-
The two games of the console. Each runs as a game of its own, it depends on nothing of the other
player, and players who press the same keys play the same game.
-/
import FpgaTetris.Hdl.Console
import FpgaTetris.Piece.Shape

namespace FpgaTetris

open Sync

/-! ## Keys -/

section Keys

variable (oor : OutOfRange) {p p' : BitVec 2}

/-- The number of the player matters for the keys only. -/
theorem BlockLogic.next_congr_keys (r : BlockLogic) (i i' : BlockLogic.In)
    (hi : { i with keycode := i'.keycode } = i') (hk : keys p i.keycode = keys p' i'.keycode) :
    r.comb oor p i = r.comb oor p' i' ∧ r.next oor p i = r.next oor p' i' := by
  have hbranch : r.branch p i = r.branch p' i' := by
    rw [← hi]
    unfold branch
    dsimp only
    rw [hk]
  have hcomb : r.comb oor p i = r.comb oor p' i' := congrArg (assign oor r) hbranch
  refine ⟨hcomb, ?_⟩
  unfold BlockLogic.next genIn
  rw [hcomb, hk, ← hi]

theorem Tetris.next_congr_keys (s : Tetris) {i i' : Tetris.In} (hreset : i.reset = i'.reset)
    (hframe : i.frameClk = i'.frameClk) (hk : keys p i.keycode = keys p' i'.keycode) :
    s.next oor p i = s.next oor p' i' := by
  obtain ⟨hcomb, hlogic⟩ := BlockLogic.next_congr_keys oor s.logic (s.logicIn oor i) (s.logicIn oor i')
    (by unfold logicIn; rw [hreset, hframe]) hk
  unfold next boardIn comb
  rw [hcomb, hlogic, hreset]

end Keys

namespace Console

variable {κ χ κ' χ' : Type} (oor : OutOfRange) (latency latency' : ℕ) (body : κ → Driver κ) (body' : κ' → Driver κ')
  (chip : OtgChip χ) (chip' : OtgChip χ') (s : Console κ χ) (s' : Console κ' χ') (inp inp' : ℕ → In)

/-! ## Frame edges -/

/-- The registers of the frame edge agree in the two games. -/
structure Edges (s : Console κ χ) : Prop where
  delayed : s.game1.logic.frameClkDelayed = s.game2.logic.frameClkDelayed
  rising : s.game1.logic.frameClkRisingEdge = s.game2.logic.frameClkRisingEdge

/-- With the frame edge of its own game, `game_board2` is wired as `game_board1` is. -/
theorem Edges.next_game2 {s : Console κ χ} (h : s.Edges) (i : In) :
    (s.next oor latency body chip i).game2 = s.game2.next oor 2 s.gameIn := by
  unfold Console.next boardIn2 Tetris.next
  rw [h.rising]
  rfl

theorem edges_trace (t : ℕ) : ((design oor latency body chip).trace s inp (t + 2)).Edges :=
  ⟨rfl, rfl⟩

theorem Edges.trace {s : Console κ χ} (h : s.Edges) (t : ℕ) :
    ((design oor latency body chip).trace s inp t).Edges := by
  induction t with
  | zero => exact h
  | succ t ih =>
    refine ⟨rfl, ?_⟩
    show (_ && !_) = (_ && !_)
    rw [ih.delayed]
    rfl

/-- The game of a player. -/
def game (s : Console κ χ) (p : BitVec 2) : Tetris := if p = 1 then s.game1 else s.game2

theorem Edges.next_game {s : Console κ χ} (h : s.Edges) (i : In) {p : BitVec 2} (hp : p = 1 ∨ p = 2) :
    (s.next oor latency body chip i).game p = (s.game p).next oor p s.gameIn := by
  rcases hp with rfl | rfl
  · rfl
  · exact h.next_game2 oor latency body chip i

/-- From any of its cycles on, but the first two, a game runs as a game of its own. -/
theorem game_trace {p : BitVec 2} (hp : p = 1 ∨ p = 2) {a : ℕ} (ha : 2 ≤ a) (t : ℕ) :
    let tr := (design oor latency body chip).trace s inp
    (tr (a + t)).game p = (Tetris.design oor p).trace ((tr a).game p) (fun t => (tr (a + t)).gameIn) t := by
  intro tr
  induction t with
  | zero => rfl
  | succ t ih =>
    obtain ⟨n, hn⟩ : ∃ n, a + t = n + 2 := ⟨a + t - 2, by omega⟩
    have hedges : (tr (a + t)).Edges := hn ▸ edges_trace oor latency body chip s inp n
    rw [Design.trace_succ, ← ih]
    exact hedges.next_game oor latency body chip (inp (a + t)) hp

/-- Each half of the console is a game of its own, in spite of the one frame edge for both boards: from
any contents of the registers, the first at once and the second from cycle 2 on. -/
theorem games_run_alone (s : Console κ χ) (t : ℕ) :
    let tr := (design oor latency body chip).trace s inp
    (tr t).game1 = (Tetris.design oor 1).trace s.game1 (fun t => (tr t).gameIn) t ∧
      (tr (2 + t)).game2 = (Tetris.design oor 2).trace (tr 2).game2 (fun t => (tr (2 + t)).gameIn) t := by
  intro tr
  constructor
  · exact Design.trace_component (d := design oor latency body chip) (π := fun s : Console κ χ => s.game1)
      (f := fun s _ => s.gameIn) (fun _ _ => rfl) t
  · exact game_trace oor latency body chip s inp (.inr rfl) le_rfl t

/-! ## The other player -/

section Alike

variable {oor latency latency' body body' chip chip' s s' inp inp'}

/-- What two runs share that differ in keys only: the reset, the screen and the frame edges. -/
structure Alike (s : Console κ χ) (s' : Console κ' χ') : Prop where
  resetH : s.resetH = s'.resetH
  screen : s.screen = s'.screen
  delayed : s.game1.logic.frameClkDelayed = s'.game1.logic.frameClkDelayed
  rising : s.game1.logic.frameClkRisingEdge = s'.game1.logic.frameClkRisingEdge

/-- The inputs of a cycle are the same, and so is the space bar. -/
structure SameIn (s : Console κ χ) (s' : Console κ' χ') (i i' : In) : Prop where
  key0 : i.key0 = i'.key0
  vgaClk : i.vgaClk = i'.vgaClk
  space : spaceRst s.keycode = spaceRst s'.keycode

variable {i i' : In}

theorem Alike.next (h : Alike s s') (hi : SameIn s s' i i') :
    Alike (s.next oor latency body chip i) (s'.next oor latency' body' chip' i') := by
  refine ⟨?_, ?_, ?_, ?_⟩
  · show (!_ || _) = (!_ || _)
    rw [hi.key0, hi.space]
  · show (if _ then _ else _) = (if _ then _ else _)
    rw [hi.vgaClk, h.screen, h.resetH]
  · show s.screen.vga.vgaVs = s'.screen.vga.vgaVs
    rw [h.screen]
  · show (s.screen.vga.vgaVs && !_) = (s'.screen.vga.vgaVs && !_)
    rw [h.screen, h.delayed]

theorem Alike.trace (h : Alike s s') {T : ℕ}
    (hin : ∀ t, t < T → SameIn ((design oor latency body chip).trace s inp t)
      ((design oor latency' body' chip').trace s' inp' t) (inp t) (inp' t)) :
    Alike ((design oor latency body chip).trace s inp T) ((design oor latency' body' chip').trace s' inp' T) :=
  Design.trace_rel Alike h fun t ht ht' => ht'.next (hin t ht)

theorem Alike.next_game1 (h : Alike s s') (hgame : s.game1 = s'.game1)
    (hk : keys 1 s.keycode = keys 1 s'.keycode) :
    (s.next oor latency body chip i).game1 = (s'.next oor latency' body' chip' i').game1 := by
  show s.game1.next oor 1 s.gameIn = s'.game1.next oor 1 s'.gameIn
  rw [hgame]
  exact Tetris.next_congr_keys oor _ h.resetH (congrArg (·.vga.vgaVs) h.screen) hk

theorem Alike.next_game2 (h : Alike s s') (hgame : s.game2 = s'.game2)
    (hk : keys 2 s.keycode = keys 2 s'.keycode) :
    (s.next oor latency body chip i).game2 = (s'.next oor latency' body' chip' i').game2 := by
  have hframe : s.gameIn.frameClk = s'.gameIn.frameClk := congrArg (·.vga.vgaVs) h.screen
  have hreset : s.gameIn.reset = s'.gameIn.reset := h.resetH
  obtain ⟨hcomb, hlogic⟩ := BlockLogic.next_congr_keys oor s'.game2.logic (s'.game2.logicIn oor s.gameIn)
    (s'.game2.logicIn oor s'.gameIn) (by unfold Tetris.logicIn; rw [hreset, hframe]) hk
  have hboard : s.boardIn2 oor = s'.boardIn2 oor := by
    unfold boardIn2 Tetris.boardIn Tetris.comb
    rw [hgame, hcomb, h.rising, hreset]
  unfold Console.next
  rw [hgame, hlogic, hboard]

end Alike

/-- No interference. Two consoles, with any software, keyboards and contents of the chip, that start with
equal games and screens and see the same push button, pixel clock and space bar: a player who presses
the same keys up to a cycle has the same game in it, whatever the other one presses. -/
theorem no_interference (s : Console κ χ) (s' : Console κ' χ') (hresetH : s.resetH = s'.resetH)
    (hscreen : s.screen = s'.screen) (hgame1 : s.game1 = s'.game1) (hgame2 : s.game2 = s'.game2) (T : ℕ) :
    let tr := (design oor latency body chip).trace s inp
    let tr' := (design oor latency' body' chip').trace s' inp'
    (∀ t, t < T → (inp t).key0 = (inp' t).key0 ∧ (inp t).vgaClk = (inp' t).vgaClk ∧
      spaceRst (tr t).keycode = spaceRst (tr' t).keycode) →
    ((∀ t, t < T → keys 1 (tr t).keycode = keys 1 (tr' t).keycode) → (tr T).game1 = (tr' T).game1) ∧
      ((∀ t, t < T → keys 2 (tr t).keycode = keys 2 (tr' t).keycode) → (tr T).game2 = (tr' T).game2) := by
  intro tr tr' hin
  have hsame : ∀ t, t < T → SameIn (tr t) (tr' t) (inp t) (inp' t) := fun t ht =>
    ⟨(hin t ht).1, (hin t ht).2.1, (hin t ht).2.2⟩
  -- up to the cycle the two consoles have the same screens, resets and frame edges
  have halike : ∀ t, t < T → Alike (tr t) (tr' t) := fun t ht =>
    Alike.trace ⟨hresetH, hscreen, by rw [hgame1], by rw [hgame1]⟩ fun u hu => hsame u (lt_trans hu ht)
  constructor
  · intro hk
    exact Design.trace_rel (fun (s : Console κ χ) (s' : Console κ' χ') => s.game1 = s'.game1) hgame1
      fun t ht hgame => (halike t ht).next_game1 hgame (hk t ht)
  · intro hk
    exact Design.trace_rel (fun (s : Console κ χ) (s' : Console κ' χ') => s.game2 = s'.game2) hgame2
      fun t ht hgame => (halike t ht).next_game2 hgame (hk t ht)

/-- While the processor stands still, so does the key word. -/
theorem keycode_of_stopped (hgo : ∀ t, (inp t).go = false) (t : ℕ) :
    ((design oor latency body chip).trace s inp t).keycode = s.keycode := by
  induction t with
  | zero => rfl
  | succ t ih =>
    rw [← ih]
    show (NiosPorts.next _ (Mmio.Cpu.stored _ (inp t).go) _).keycode = _
    rw [hgo t]
    rfl

/-- A console from power-up whose keyboard word is stuck. -/
def stuck (word : BitVec 32) : Console Unit Unit :=
  let s : Console Unit Unit := powerUp (.pure ()) ()
  { s with usb := { s.usb with ports := { s.usb.ports with keycode := word } } }

/-- Player 1 holds A in both consoles, player 2 holds the comma key in one of them. -/
theorem no_interference_stuck :
    let inp : ℕ → In := fun t => ⟨true, t % 2 == 0, false, 0⟩
    let tr := (design someReads 0 .pure .silent).trace (stuck 0x01) inp
    let tr' := (design someReads 0 .pure .silent).trace (stuck 0x41) inp
    (tr 840000).game1 = (tr' 840000).game1 := by
  refine (no_interference someReads 0 0 .pure .pure .silent .silent (fun t => ⟨true, t % 2 == 0, false, 0⟩)
    (fun t => ⟨true, t % 2 == 0, false, 0⟩) (stuck 0x01) (stuck 0x41) rfl rfl rfl rfl 840000
    fun t _ => ⟨rfl, rfl, ?_⟩).1 fun t _ => ?_
  · rw [keycode_of_stopped _ _ _ _ _ _ (fun _ => rfl), keycode_of_stopped _ _ _ _ _ _ (fun _ => rfl)]
    decide
  · rw [keycode_of_stopped _ _ _ _ _ _ (fun _ => rfl), keycode_of_stopped _ _ _ _ _ _ (fun _ => rfl)]
    decide

/-! ## Equal chances -/

/-- Fair play. From equal games, such as at power-up, two players who press the same keys at the same
time have the same game: the same pieces, boards and scores. -/
theorem fair_play (s : Console κ χ) (hgames : s.game1 = s.game2) (T : ℕ) :
    let tr := (design oor latency body chip).trace s inp
    (∀ t, t < T → keys 1 (tr t).keycode = keys 2 (tr t).keycode) → (tr T).game1 = (tr T).game2 := by
  intro tr hk
  have hedges : s.Edges := ⟨by rw [hgames], by rw [hgames]⟩
  refine Design.trace_rel (fun a b : Console κ χ => a.game1 = b.game2) hgames fun t ht hgame => ?_
  have hnext := (hedges.trace oor latency body chip inp t).next_game2 oor latency body chip (inp t)
  refine Eq.trans ?_ hnext.symm
  show (tr t).game1.next oor 1 (tr t).gameIn = _
  rw [show (tr t).game1 = (tr t).game2 from hgame]
  exact Tetris.next_congr_keys oor _ rfl rfl (hk t ht)

/-- Both players hold their key for the move to the left. -/
theorem fair_play_stuck :
    let tr := (design someReads 0 .pure .silent).trace (stuck 0x41) fun t => ⟨true, t % 2 == 0, false, 0⟩
    (tr 840000).game1 = (tr 840000).game2 := by
  refine fair_play someReads 0 .pure .silent _ (stuck 0x41) rfl 840000 fun t _ => ?_
  rw [keycode_of_stopped _ _ _ _ _ _ (fun _ => rfl)]
  decide

end Console

end FpgaTetris
