/-
The picture on the screen. The pixel at the beam in a player's field has the colour of the board cell
under it, at its place in the sprite of that colour; the scores and the words are written in white; and
outside the boxes there is nothing but the background.
-/
import FpgaTetris.Console.Frames
import FpgaTetris.Game.Invariant
import FpgaTetris.Score.Saturation
import FpgaTetris.Screen.Previews
import FpgaTetris.Screen.Text

namespace FpgaTetris

open BlockColorMapper

/-- A pixel of a field shows the cell of a board in which it lies. -/
def ShowsCell (roms : Roms) (field : Box) (arr : BoardArr) (x y : BitVec 10) (color : Rgb) : Prop :=
  ∃ cell : Fin xSize × Fin ySize,
    cell.1.val = (x.toNat - field.xMin.toNat) / 20 ∧ cell.2.val = (y.toNat - field.yMin.toNat) / 20 ∧
      ∃ a : BitVec 10, a.toNat = tileAddr field x y ∧ color = .ofSprite (spriteColor roms (arr cell) a)

namespace Screen

/-- The half of a player. -/
def half (p : BitVec 2) : Half := if p = 1 then leftHalf else rightHalf

variable {oor : OutOfRange} {b : DrawLogic.Bounds} {h : Half} {p p1 p2 : Player} {x y : BitVec 10}
  {c1 c2 : DrawCounters} {arr : BoardArr}

/-- What the colour mapper reads from the board is the cell of the pixel. -/
theorem read_coords (oor : OutOfRange) (arr : BoardArr) (hb : b ∈ [bounds1, bounds2])
    (hplay : DrawLogic.playArea b x y = true) :
    ∃ cell : Fin xSize × Fin ySize, cell.1.val = (x.toNat - b.play.xMin.toNat) / 20 ∧
      cell.2.val = (y.toNat - b.play.yMin.toNat) / 20 ∧
      arr.read oor (DrawLogic.xCoord b x y, DrawLogic.yCoord b x y) = arr cell := by
  obtain ⟨hfield, hmax⟩ := field_bounds hb
  obtain ⟨hx, hx10, hy, hy20⟩ := DrawLogic.coords_toNat hfield hmax hplay
  have hin : InBoard (DrawLogic.xCoord b x y, DrawLogic.yCoord b x y) := ⟨hx10, hy20⟩
  exact ⟨(⟨_, hin.1⟩, ⟨_, hin.2⟩), hx, hy, dif_pos hin⟩

/-- In the field of the half it draws, the colour mapper shows the cell that it is sent. -/
theorem showsCell_of_draws (roms : Roms) (hd : Draws h p x y c1 (mapperIn x y c1 c2 p1 p2))
    (hb : h.bounds ∈ [bounds1, bounds2]) (hc : DrawLogic.Aligned x y c1)
    (hplay : DrawLogic.playArea h.bounds x y = true)
    (hp : p.currentPixel = arr.read oor (DrawLogic.xCoord h.bounds x y, DrawLogic.yCoord h.bounds x y)) :
    ShowsCell roms h.bounds.play arr x y (BlockColorMapper.rgb roms (mapperIn x y c1 c2 p1 p2)) := by
  obtain ⟨cell, hcx, hcy, hread⟩ := read_coords oor arr hb hplay
  have harea : playArea (mapperIn x y c1 c2 p1 p2) = true := hd.playArea.trans hplay
  refine ⟨cell, hcx, hcy, spriteAddr (mapperIn x y c1 c2 p1 p2), spriteAddr_play hc hb hplay, ?_⟩
  have hlayer : layer roms (mapperIn x y c1 c2 p1 p2) = .board := if_pos harea
  have htype : blockType (mapperIn x y c1 c2 p1 p2) = arr cell := by
    unfold blockType
    rw [if_pos harea, hd.pixel hplay, hp, hread]
  unfold BlockColorMapper.rgb curSprite
  rw [hlayer, htype]

/-- The boxes in which something is drawn for a player. -/
def Half.boxes (h : Half) : List Box := [h.bounds.play, h.bounds.score, h.next, h.hold, h.spriteHold]

/-- Outside these boxes nothing is drawn, not even the next piece. -/
theorem layer_outside (roms : Roms) {o : Owner} {i : In} (hd : Draws o.half p x y c1 i) (hidx : p.blockIdx ≤ 6)
    (hout : ∀ box ∈ o.half.boxes, ¬ box.Contains x y) : layer roms i = .background := by
  obtain ⟨hplay, hscore, hnext, hhold, hsprite⟩ : ¬ o.half.bounds.play.Contains x y ∧
      ¬ o.half.bounds.score.Contains x y ∧ ¬ o.half.next.Contains x y ∧ ¬ o.half.hold.Contains x y ∧
      ¬ o.half.spriteHold.Contains x y := by simpa [Half.boxes] using hout
  by_cases hbox : (Slot.next.box o).Contains x y
  · -- the box of the next piece is not among them, but nothing is drawn there
    have hnames : Names someReads p (blockColorChoices someReads p.blockIdx) .next := ⟨hidx, rfl⟩
    exact layer_next hbox hd hnames (blockColorChoices_ne_empty someReads hidx)
  have hfield : playArea i = false := hd.playArea.trans (decide_eq_false hplay)
  have htext : (scoreArea i || holdArea i || nextArea i) = false := by
    rw [hd.scoreArea, DrawLogic.scoreArea, decide_eq_false hscore, Bool.and_false, holdArea, nextArea, hd.hold, hd.next,
      hd.drawX, hd.drawY, decide_eq_false hhold, decide_eq_false hnext]
    rfl
  -- no piece is read, and the default shape is a bar in the box of the next piece
  have hempty : blockType i = .empty := by
    unfold blockType
    rw [hfield, hd.spriteHold, hd.spriteNext, hd.drawX, hd.drawY, if_neg Bool.false_ne_true, if_neg hsprite]
    exact if_neg hbox
  have hvalid : validNsprite i = false := by
    rw [validNsprite_of_draws hd, if_pos hempty, Bool.eq_false_iff]
    intro hin
    obtain ⟨⟨hx, hy⟩, hx', hrow⟩ := (inShape_bar (fits_preview (box_mem_previews .next o)) (.inl rfl)).1 hin
    obtain ⟨-, -, hbottom⟩ := preview_bounds (box_mem_previews .next o)
    have hy'' : (y.toNat - (Slot.next.box o).yMin.toNat) / 20 = 0 := hrow
    refine hbox ⟨hx, hx', hy, BitVec.le_def.2 ?_⟩
    omega
  unfold layer
  rw [hfield, htext, hvalid]
  rfl

end Screen

namespace Console

variable {κ χ : Type} {oor : OutOfRange} {latency : ℕ} {body : κ → Driver κ} {chip : OtgChip χ} {s : Console κ χ}
  {inp : ℕ → In}

/-- From a reset that came with a pixel clock on, the counters are locked to the beam. -/
theorem locked_trace {a t : ℕ} (ha : ((design oor latency body chip).trace s inp a).resetH = true)
    (hclk : (inp a).vgaClk = true) (hat : a < t) : ((design oor latency body chip).trace s inp t).screen.Locked := by
  refine Sync.Design.trace_phase (fun s : Console κ χ => s.screen.Locked) hat ?_ fun u _ _ hu => ?_
  · show (if (inp a).vgaClk then _ else _ : Screen).Locked
    rw [if_pos hclk, show (Sync.Design.trace _ s inp a).resetH = true from ha]
    exact .of_reset _
  · show (if (inp u).vgaClk then _ else _ : Screen).Locked
    split
    · exact hu.next _
    · exact hu

theorem inv_trace {p : BitVec 2} (hp : p = 1 ∨ p = 2) {a t : ℕ} (ha : 2 ≤ a)
    (hreset : ((design oor latency body chip).trace s inp a).resetH = true)
    (hg : (((design oor latency body chip).trace s inp a).game p).logic.blockGen.InRange) (hat : a < t) :
    Tetris.Inv oor (((design oor latency body chip).trace s inp t).game p) := by
  obtain ⟨k, rfl⟩ : ∃ k, t = a + k := ⟨t - a, by omega⟩
  rw [game_trace oor latency body chip s inp hp ha k]
  exact (@Tetris.inv_keeps oor p).trace ⟨hreset, hg⟩ (fun _ _ => trivial) k (by omega)

section Player

variable {p : BitVec 2} (hp : p = 1 ∨ p = 2)

/-- What a player sends to the colour mapper. -/
def playerOf (oor : OutOfRange) (s : Console κ χ) (p : BitVec 2) : Screen.Player :=
  s.player oor (Screen.half p).bounds (s.game p) (if p = 1 then s.scoreDigitsIn1 else s.scoreDigitsIn2)

include hp

theorem half_cases : Screen.half p = Screen.leftHalf ∨ Screen.half p = Screen.rightHalf := by
  rcases hp with rfl | rfl
  · exact .inl rfl
  · exact .inr rfl

variable (oor) in
/-- In the boxes of a player the colour mapper draws what the player sends. -/
theorem draws_player {box : Box}
    (hbox : box ∈
      [(Screen.half p).bounds.play, (Screen.half p).bounds.score, (Screen.half p).next, (Screen.half p).hold])
    (hin : box.Contains s.screen.vga.drawX s.screen.vga.drawY) :
    Screen.Draws (Screen.half p) (s.playerOf oor p) s.screen.vga.drawX s.screen.vga.drawY s.screen.counters1
      (s.mapperIn oor) := by
  have hx := BitVec.le_def.1 hin.1
  have hx' := BitVec.le_def.1 hin.2.1
  rcases hp with rfl | rfl
  · have hmax : ∀ b ∈ [Screen.bounds1.play, Screen.bounds1.score, Screen.next1, Screen.hold1], b.xMax.toNat < 320 := by
      decide
    exact Screen.draws_left (lt_of_le_of_lt hx' (hmax box hbox)) _ _ _ _
  · have hmin : ∀ b ∈ [Screen.bounds2.play, Screen.bounds2.score, Screen.next2, Screen.hold2], 320 ≤ b.xMin.toNat := by
      decide
    exact Screen.draws_right (le_trans (hmin box hbox) hx) _ _ _ _

/-- A pixel of a player's field shows the player's board. -/
theorem showsCell_board (roms : Roms) (hlocked : s.screen.Locked)
    (hin : (Screen.half p).bounds.play.Contains s.screen.vga.drawX s.screen.vga.drawY) :
    ShowsCell roms (Screen.half p).bounds.play (s.game p).board.boardArr s.screen.vga.drawX s.screen.vga.drawY
      (s.rgb oor roms) := by
  have hd := draws_player oor hp (List.mem_cons_self ..) hin
  have hb : (Screen.half p).bounds ∈ [Screen.bounds1, Screen.bounds2] := by
    rcases hp with rfl | rfl <;> decide
  exact Screen.showsCell_of_draws roms hd hb hlocked.counters1.aligned (decide_eq_true hin) rfl

end Player

/-! ## Whole runs -/

/-- The picture shows the boards. In a cycle after a reset that came with a pixel clock, the colour of a
pixel of a player's field is that of the cell of this player's board in which it lies, at its place in
the tile. -/
theorem shows_boards (roms : Roms) (s : Console κ χ) (inp : ℕ → In) {p : BitVec 2} (hp : p = 1 ∨ p = 2) {a t : ℕ}
    (ha : ((design oor latency body chip).trace s inp a).resetH = true) (hclk : (inp a).vgaClk = true) (hat : a < t) :
    let st := (design oor latency body chip).trace s inp t
    let x := st.screen.vga.drawX
    let y := st.screen.vga.drawY
    (Screen.half p).bounds.play.Contains x y →
      ShowsCell roms (Screen.half p).bounds.play (st.game p).board.boardArr x y (st.rgb oor roms) := by
  intro st x y hin
  exact showsCell_board hp roms (locked_trace ha hclk hat) hin

/-- After a push of the button, with the beam in the field of player 1. -/
theorem shows_boards_pushed :
    let st := (design someReads 0 .pure .silent).trace (stuck 0) pushed (2 * 50446)
    ShowsCell Screen.flatRoms Screen.bounds1.play st.game1.board.boardArr 45 63 (st.rgb someReads Screen.flatRoms) := by
  intro st
  have hat : st.screen.vga.At (50446 - 1) := vga_at_pushed (by omega)
  have hx : st.screen.vga.drawX = 45 := BitVec.eq_of_toNat_eq hat.x
  have hy : st.screen.vga.drawY = 63 := BitVec.eq_of_toNat_eq hat.y
  have hshows : Screen.bounds1.play.Contains st.screen.vga.drawX st.screen.vga.drawY →
      ShowsCell Screen.flatRoms Screen.bounds1.play st.game1.board.boardArr st.screen.vga.drawX st.screen.vga.drawY
        (st.rgb someReads Screen.flatRoms) :=
    shows_boards Screen.flatRoms (stuck 0) pushed (p := 1) (.inl rfl) (a := 1) rfl rfl (by omega)
  rw [hx, hy] at hshows
  exact hshows (by decide)

/-- A digit that the colour mapper reads from `score_digits`. -/
theorem digitAt_scoreDigits {b : Board} (hd : b.scoreKeeper.Decimal) {k : ℕ} (hk : k < 6) :
    (Screen.digitAt b.scoreDigits k).toNat = b.scoreKeeper.value / 10 ^ (5 - k) % 10 := by
  obtain ⟨h1, h2, h3, h4, h5⟩ := b.scoreKeeper.decimal_iff.1 hd
  rw [ScoreKeeper.value_eq]
  unfold Board.scoreDigits Screen.digitAt
  interval_cases k <;> simp (disch := omega) only [BitVec.extractLsb'_append_eq_of_le,
    BitVec.extractLsb'_append_eq_of_add_le, BitVec.extractLsb'_eq_self, Nat.reduceMul, Nat.reduceSub, Nat.reducePow,
    BitVec.reduceToNat] <;> omega

/-- The pixels over a player's field show the score of the cycle before. -/
theorem showsText_scoreDigits {p : BitVec 2} (hp : p = 1 ∨ p = 2) (roms : Roms) {i : In}
    (hdec : (s.game p).board.scoreKeeper.Decimal) :
    let n := s.next oor latency body chip i
    (Screen.half p).bounds.score.Contains n.screen.vga.drawX n.screen.vga.drawY →
      ShowsText roms (Screen.half p).bounds.score (scoreText (s.game p).board.scoreKeeper.value) n.screen.vga.drawX
        n.screen.vga.drawY (n.rgb oor roms) := by
  intro n hin
  refine Screen.showsText_score (draws_player oor hp (by simp) hin) (half_cases hp) hin fun k hk => ?_
  rw [← digitAt_scoreDigits hdec hk]
  rcases hp with rfl | rfl <;> rfl

/-- The picture shows the scores. In every cycle the pixels over a player's field show the score of the
cycle before, in decimal digits, and those over the boxes show the words. -/
theorem shows_texts (roms : Roms) (s : Console κ χ) (inp : ℕ → In) {p : BitVec 2} (hp : p = 1 ∨ p = 2) (t : ℕ) :
    let tr := (design oor latency body chip).trace s inp
    let x := (tr (t + 1)).screen.vga.drawX
    let y := (tr (t + 1)).screen.vga.drawY
    let color := (tr (t + 1)).rgb oor roms
    let score := ((tr t).game p).board.scoreKeeper
    (score.Decimal → (Screen.half p).bounds.score.Contains x y →
        ShowsText roms (Screen.half p).bounds.score (scoreText score.value) x y color) ∧
      ((Screen.half p).next.Contains x y → ShowsText roms (Screen.half p).next ['N', 'E', 'X', 'T'] x y color) ∧
      ((Screen.half p).hold.Contains x y → ShowsText roms (Screen.half p).hold ['H', 'O', 'L', 'D'] x y color) := by
  intro tr x y color score
  refine ⟨fun hdec hin => ?_, fun hin => ?_, fun hin => ?_⟩
  · exact showsText_scoreDigits hp roms hdec hin
  · exact Screen.showsText_next (draws_player oor hp (by simp) hin) (half_cases hp) hin
  · exact Screen.showsText_hold (draws_player oor hp (by simp) hin) (half_cases hp) hin

/-- A console whose beam stands at a pixel. -/
def beamAt (x y : BitVec 10) : Console Unit Unit :=
  { stuck 0 with screen := ⟨⟨false, false, false, x, y⟩, ⟨0, 0⟩, ⟨0, 0⟩⟩ }

/-- The corner of the score of player 2, before a game. -/
theorem shows_texts_beamAt :
    let tr := (design someReads 0 .pure .silent).trace (beamAt 416 15) fun _ => ⟨true, false, false, 0⟩
    ShowsText Screen.flatRoms Screen.bounds2.score (scoreText 0) 416 15 ((tr 1).rgb someReads Screen.flatRoms) :=
  (shows_texts Screen.flatRoms (beamAt 416 15) (fun _ => ⟨true, false, false, 0⟩) (p := 2) (.inr rfl) 0).1
    ((ScoreKeeper.decimal_iff _).2 (by decide)) (by decide)

/-- Nothing else is drawn. After a reset, every pixel of a player's half outside the field, the score, the
words and the box of the held piece is background, also in the box of the next piece. -/
theorem shows_background (roms : Roms) (s : Console κ χ) (inp : ℕ → In) {p : BitVec 2} (hp : p = 1 ∨ p = 2) {a t : ℕ}
    (ha : 2 ≤ a) (hreset : ((design oor latency body chip).trace s inp a).resetH = true)
    (hg : (((design oor latency body chip).trace s inp a).game p).logic.blockGen.InRange) (hat : a < t) :
    let st := (design oor latency body chip).trace s inp t
    let x := st.screen.vga.drawX
    let y := st.screen.vga.drawY
    (p = 1 ↔ x.toNat < 320) → (∀ box ∈ (Screen.half p).boxes, ¬ box.Contains x y) →
      st.rgb oor roms = background x := by
  intro st x y hside hout
  have hidx : (st.game p).logic.blockIdx ≤ 6 := (inv_trace hp ha hreset hg hat).logic.gen.1
  have hlayer : layer roms (st.mapperIn oor) = .background := by
    rcases hp with rfl | rfl
    · exact Screen.layer_outside (o := .one) roms (Screen.draws_left (hside.1 rfl) _ _ _ _) hidx hout
    · have hx : 320 ≤ x.toNat := not_lt.1 fun hlt => absurd (hside.2 hlt) (by decide)
      exact Screen.layer_outside (o := .two) roms (Screen.draws_right hx _ _ _ _) hidx hout
  exact (Screen.showsBackground_of_layer hlayer).2

/-- The corner of the box of player 1's next piece. -/
theorem shows_background_beamAt :
    let tr := (design someReads 0 .pure .silent).trace (beamAt 230 60) fun t => ⟨t != 1, false, false, 0⟩
    (tr 3).rgb someReads Screen.flatRoms = background 230 :=
  shows_background Screen.flatRoms (beamAt 230 60) (fun t => ⟨t != 1, false, false, 0⟩) (p := 1) (.inl rfl) (a := 2)
    le_rfl
    rfl (by decide) (by omega) (by decide) (by decide)

end Console

end FpgaTetris
