/-
The console plays Tetris: what the two games do in the cycles of the console, and what the picture
shows of them.
-/
import FpgaTetris.Console.Picture
import FpgaTetris.Game.Simulation
import FpgaTetris.Screen.Previews

namespace FpgaTetris

open BlockColorMapper

/-! ## The hold box -/

/-- A pixel of a box shows a piece: its spawn shape, from the left edge of the box, and the background
around it. -/
def ShowsPiece (oor : OutOfRange) (roms : Roms) (box : Box) (c : BlockColor) (x y : BitVec 10) (color : Rgb) : Prop :=
  color = if c ≠ .empty ∧ Screen.tileInt box x y ∈ Screen.placedShape oor c (-previewOffset c, 0) then
      .ofSprite (spriteColor roms c (BitVec.ofNat 10 (tileAddr box x y)))
    else background x

namespace Screen

variable {oor : OutOfRange} {roms : Roms} {o : Owner} {c : BlockColor} {x y : BitVec 10} {c1 c2 : DrawCounters}
  {p1 p2 : Player}

/-- Nothing is drawn in an empty hold box. -/
theorem layer_hold_empty (h : (Slot.hold.box o).Contains x y) (hn : (o.player p1 p2).heldBlock = .empty) :
    layer roms (mapperIn x y c1 c2 p1 p2) = .background := by
  have hd := draws_box h c1 c2 p1 p2
  have hnames : Names someReads (o.player p1 p2) .empty .hold := hn
  have htype : blockType (mapperIn x y c1 c2 p1 p2) = .empty := blockType_box h hd hnames
  rw [layer_of_quiet hd (quiet_box h), validNsprite_of_draws hd, htype, if_pos rfl, if_neg]
  intro hin
  have hrow : (y.toNat - o.half.spriteNext.yMin.toNat) / 20 = 0 :=
    ((inShape_bar (fits_preview (box_mem_previews .next o)) (.inl rfl)).1 hin).2.2
  have htop : (Slot.hold.box o).yMin.toNat ≤ y.toNat := BitVec.le_def.1 h.2.2.1
  have hboxes : o.half.spriteNext.yMin.toNat + 20 ≤ (Slot.hold.box o).yMin.toNat := by cases o <;> decide
  omega

/-- The hold box shows what it holds, but for the bar of player 2. -/
theorem showsPiece_hold (hal : DrawLogic.Aligned x y c1) (h : (Slot.hold.box o).Contains x y)
    (hn : (o.player p1 p2).heldBlock = c) (hbar : ¬ (o = .two ∧ c = .cyan)) :
    ShowsPiece oor roms (Slot.hold.box o) c x y (rgb roms (mapperIn x y c1 c2 p1 p2)) := by
  unfold ShowsPiece
  by_cases hc : c = .empty
  · subst hc
    rw [if_neg fun hne => hne.1 rfl]
    exact (showsBackground_of_layer (layer_hold_empty h hn)).2
  · have hnames : Names oor (o.player p1 p2) c .hold := hn
    have hlayer := layer_box roms h (draws_box h c1 c2 p1 p2) hnames hc
    have hshape := inShape_hold_iff oor hc hbar h
    by_cases hin : inShape o.half.spriteHold c x y = true
    · rw [if_pos hin] at hlayer
      rw [if_pos ⟨hc, hshape.1 hin⟩]
      exact (showsSprite_of_layer h hal hnames hlayer).2
    · rw [if_neg hin] at hlayer
      rw [if_neg fun hand => hin (hshape.2 hand.2)]
      exact (showsBackground_of_layer hlayer).2

end Screen

/-- A pixel shows the game of a player: the stack with the piece on it in the field, the score over it,
and the piece in the hold box, which is a cycle ahead. The bar in the hold box of player 2 is left out. -/
structure ShowsGame (oor : OutOfRange) (roms : Roms) (p : BitVec 2) (G G' : Game) (x y : BitVec 10) (color : Rgb) :
    Prop where
  field : (Screen.half p).bounds.play.Contains x y →
    ShowsCell roms (Screen.half p).bounds.play G.position.locked x y color
  score : G.score ≤ 999990 → (Screen.half p).bounds.score.Contains x y →
    ShowsText roms (Screen.half p).bounds.score (scoreText G.score) x y color
  held : ¬ (p = 2 ∧ G'.held = .cyan) → (Screen.half p).spriteHold.Contains x y →
    ShowsPiece oor roms (Screen.half p).spriteHold G'.held x y color

namespace Console

variable {κ χ : Type} {oor : OutOfRange} {latency : ℕ} {body : κ → Driver κ} {chip : OtgChip χ} {s : Console κ χ}
  {inp : ℕ → In} {p : BitVec 2}

/-- A pixel of a player's hold box shows the piece held. -/
theorem showsPiece_held (hp : p = 1 ∨ p = 2) (roms : Roms) (hlocked : s.screen.Locked)
    (hbar : ¬ (p = 2 ∧ (s.game p).logic.heldBlock = .cyan))
    (hin : (Screen.half p).spriteHold.Contains s.screen.vga.drawX s.screen.vga.drawY) :
    ShowsPiece oor roms (Screen.half p).spriteHold (s.game p).logic.heldBlock s.screen.vga.drawX s.screen.vga.drawY
      (s.rgb oor roms) := by
  rcases hp with rfl | rfl
  · exact Screen.showsPiece_hold (o := .one) hlocked.counters1.aligned hin rfl fun h => nomatch h.1
  · exact Screen.showsPiece_hold (o := .two) hlocked.counters1.aligned hin rfl fun h => hbar ⟨rfl, h.2⟩

/-- The picture after a cycle in `PLAY` whose registers show a game. -/
theorem showsGame_next (hp : p = 1 ∨ p = 2) (roms : Roms) {i : In} {G G' : Game} (hedges : s.Edges)
    (hlocked : (s.next oor latency body chip i).screen.Locked) (h : Tetris.Depicts oor (s.game p) G.toGameState)
    (h' : Tetris.Depicts oor ((s.next oor latency body chip i).game p) G'.toGameState) (hi : s.resetH = false)
    (hs : (s.game p).board.state = .play) :
    let n := s.next oor latency body chip i
    ShowsGame oor roms p G G' n.screen.vga.drawX n.screen.vga.drawY (n.rgb oor roms) := by
  intro n
  have hgame : n.game p = (s.game p).next oor p s.gameIn := hedges.next_game oor latency body chip i hp
  have hboard : (n.game p).board.boardArr = G.position.locked := by
    rw [hgame]
    exact h.next_boardArr hi hs
  refine ⟨fun hin => ?_, fun hfit hin => ?_, fun hbar hin => ?_⟩
  · rw [← hboard]
    exact showsCell_board hp roms hlocked hin
  · obtain ⟨hdec, hval⟩ := h.score_play hs hfit
    rw [← hval]
    exact showsText_scoreDigits hp roms hdec hin
  · rw [← h'.registers.held] at hbar ⊢
    exact showsPiece_held hp roms hlocked hbar hin

/-! ## Whole runs -/

/-- The console plays Tetris. From a reset that came with a pixel clock on, as long as the cycles are fair,
each cycle is one action of the player's game or none, and the picture after a cycle in `PLAY` shows this
game. -/
theorem shows_game (roms : Roms) (s : Console κ χ) (inp : ℕ → In) {p : BitVec 2} (hp : p = 1 ∨ p = 2) {a : ℕ}
    (ha : 2 ≤ a) (hreset : ((design oor latency body chip).trace s inp a).resetH = true)
    (hclk : (inp a).vgaClk = true)
    (hs : (((design oor latency body chip).trace s inp a).game p).board.state ≠ .other)
    (hg : (((design oor latency body chip).trace s inp a).game p).logic.blockGen.InRange) :
    let tr := (design oor latency body chip).trace s inp
    ∃ G : ℕ → Game, ∀ t, (∀ u, 0 < u → u ≤ t → Tetris.Fair oor p ((tr (a + u)).game p) (tr (a + u)).gameIn) →
      Lts.Next (Game.Step oor) (((tr (a + t)).game p).action oor p (tr (a + t)).gameIn) (G t) (G (t + 1)) ∧
        (0 < t → (tr (a + t)).resetH = false → ((tr (a + t)).game p).board.state = .play →
          ShowsGame oor roms p (G t) (G (t + 1)) (tr (a + t + 1)).screen.vga.drawX (tr (a + t + 1)).screen.vga.drawY
            ((tr (a + t + 1)).rgb oor roms)) := by
  intro tr
  -- a half of the console is a run of the game alone, so it plays by the rules
  have htrace := game_trace oor latency body chip s inp hp ha
  obtain ⟨G, hG⟩ := Tetris.exists_games oor p ((tr a).game p) (fun u => (tr (a + u)).gameIn) hreset hs hg
  refine ⟨G, fun t hfair => ?_⟩
  have hfair' : ∀ u, 0 < u → u ≤ t → Tetris.Fair oor p ((Tetris.design oor p).trace ((tr a).game p)
      (fun u => (tr (a + u)).gameIn) u) (tr (a + u)).gameIn := fun u hu hut => by
    rw [← htrace u]
    exact hfair u hu hut
  obtain ⟨hnext, hdep'⟩ := hG t hfair'
  rw [← htrace t] at hnext
  rw [← htrace (t + 1)] at hdep'
  refine ⟨hnext, fun ht hi hplay => ?_⟩
  obtain ⟨v, rfl⟩ : ∃ v, t = v + 1 := ⟨t - 1, by omega⟩
  have hdep := (hG v fun u hu huv => hfair' u hu (by omega)).2
  rw [← htrace (v + 1)] at hdep
  -- both halves see the frame edge that game 1 registers
  have hedges : (tr (a + (v + 1))).Edges := by
    rw [show a + (v + 1) = a + v - 1 + 2 by omega]
    exact edges_trace oor latency body chip s inp _
  have hlocked : (tr (a + (v + 1) + 1)).screen.Locked := locked_trace hreset hclk (by omega)
  exact showsGame_next hp roms hedges hlocked hdep hdep' hi hplay

/-- The game of player 2 stands still while the first picture is drawn. -/
theorem stay_pushedFast {u : ℕ} (h1 : 0 < u) (h2 : u ≤ 48440) :
    let tr := (design someReads 0 .pure .silent).trace (stuck 0) pushedFast
    ((tr (2 + u)).game2.branch someReads 2 (tr (2 + u)).gameIn).effect = .stay := by
  intro tr
  by_cases hu : u < 4
  · obtain rfl | rfl | rfl : u = 1 ∨ u = 2 ∨ u = 3 := by omega
    · rfl
    · rfl
    · decide
  obtain ⟨k, rfl⟩ : ∃ k, u = k + 4 := ⟨u - 4, by omega⟩
  -- the vertical sync has not begun yet, so there is no frame edge
  have hvs : (tr (k + 4)).screen.vga.vgaVs = true := by
    have hat : (tr (k + 1 + 3)).screen.vga.At (k + 1) := vga_at_pushedFast (k + 1)
    rw [show (tr (k + 4)).screen.vga.vgaVs = _ from hat.vs]
    simp only [vsAt, Nat.succ_pos, decide_true, Bool.true_and, Bool.not_eq_true', decide_eq_false_iff_not]
    omega
  have hlow : (tr (2 + (k + 4))).game2.logic.frameClkRisingEdge = false := by
    rw [Nat.add_comm 2]
    show ((tr (k + 4 + 1)).screen.vga.vgaVs && !(tr (k + 4)).screen.vga.vgaVs) = false
    rw [hvs, Bool.not_true, Bool.and_false]
  rw [Tetris.stay_of_noEdge someReads 2 _ hlow]
  rfl

/-- A pixel of the first picture, in the field of player 2. -/
theorem shows_game_pushedFast :
    let tr := (design someReads 0 .pure .silent).trace (stuck 0) pushedFast
    ∃ G : Game, ShowsCell Screen.flatRoms Screen.bounds2.play G.position.locked 440 60
      ((tr (2 + 48440 + 1)).rgb someReads Screen.flatRoms) := by
  intro tr
  obtain ⟨G, hG⟩ := @shows_game Unit Unit someReads 0 .pure .silent Screen.flatRoms (stuck 0) pushedFast 2 (.inr rfl) 2
    le_rfl rfl rfl (by decide) (by decide)
  have hfair : ∀ u, 0 < u → u ≤ 48440 → Tetris.Fair someReads 2 ((tr (2 + u)).game 2) (tr (2 + u)).gameIn :=
    fun u h1 h2 => by
      have hstay : (((tr (2 + u)).game 2).branch someReads 2 _).effect = .stay := stay_pushedFast h1 h2
      exact .of_quiet (fun h => nomatch hstay.symm.trans h) fun h => nomatch hstay.symm.trans h
  have hplay : ((tr (2 + 48440)).game 2).board.state = .play := by
    refine Sync.Design.trace_phase (fun s : Console Unit Unit => (s.game 2).board.state = .play) (a := 2 + 1) (by omega)
      rfl fun v h1 h2 hv => ?_
    obtain ⟨u, rfl⟩ : ∃ u, v = u + 2 := ⟨v - 2, by omega⟩
    have hstay : (((tr (u + 2)).game 2).branch someReads 2 _).effect = .stay :=
      Nat.add_comm 2 u ▸ stay_pushedFast (u := u) (by omega) (by omega)
    show (((tr (u + 2)).next someReads 0 .pure .silent (pushedFast (u + 2))).game 2).board.state = _
    rw [(edges_trace someReads 0 .pure .silent (stuck 0) pushedFast u).next_game someReads 0 .pure .silent _ (.inr rfl)]
    exact Tetris.play_next someReads 2 (resetH_pushedFast _ (by omega)) hv fun h =>
      nomatch hstay.symm.trans h
  have hshows := (hG 48440 hfair).2 (by omega) (resetH_pushedFast _ (by omega)) hplay
  have hat : (tr (2 + 48440 + 1)).screen.vga.At 48440 := vga_at_pushedFast 48440
  have hx : (tr (2 + 48440 + 1)).screen.vga.drawX = 440 := BitVec.eq_of_toNat_eq hat.x
  have hy : (tr (2 + 48440 + 1)).screen.vga.drawY = 60 := BitVec.eq_of_toNat_eq hat.y
  rw [hx, hy] at hshows
  exact ⟨G 48440, hshows.field (by decide)⟩

end Console

end FpgaTetris
