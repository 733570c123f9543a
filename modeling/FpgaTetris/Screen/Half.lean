/-
The two halves of the screen. On each half the colour mapper draws from the bounds and the inputs of
one player only; the bounds of the right half are those of the left one moved by 320 columns, but for
one column of the box of the held piece.
-/
import FpgaTetris.Hdl.Screen

namespace FpgaTetris

/-! ## Boxes -/

namespace Box

variable {b : Box} {x y : BitVec 10}

/-- The box 320 columns further right. -/
def right (b : Box) : Box := { b with xMin := b.xMin + 320, xMax := b.xMax + 320 }

/-- The box lies on the left half. -/
def OnLeft (b : Box) : Prop := b.xMin.toNat < 320 ∧ b.xMax.toNat < 320

instance (b : Box) : Decidable b.OnLeft := inferInstanceAs (Decidable (_ ∧ _))

theorem toNat_right {v : BitVec 10} (h : v.toNat < 320) : (v + 320).toNat = v.toNat + 320 := by
  rw [BitVec.toNat_add]
  exact Nat.mod_eq_of_lt (show v.toNat + 320 < 1024 by omega)

theorem right_le_right {v w : BitVec 10} (hv : v.toNat < 320) (hw : w.toNat < 320) : v + 320 ≤ w + 320 ↔ v ≤ w := by
  rw [BitVec.le_def, BitVec.le_def, toNat_right hv, toNat_right hw]
  omega

theorem contains_right (hb : b.OnLeft) (hx : x.toNat < 320) : b.right.Contains (x + 320) y ↔ b.Contains x y := by
  unfold Contains right
  rw [right_le_right hb.1 hx, right_le_right hx hb.2]

theorem not_contains_of_onLeft (hb : b.OnLeft) (hx : 320 ≤ x.toNat) : ¬ b.Contains x y := fun h => by
  have := BitVec.le_def.1 h.2.1
  have := hb.2
  omega

theorem not_contains_right (hb : b.OnLeft) (hx : x.toNat < 320) : ¬ b.right.Contains x y := fun h => by
  have := BitVec.le_def.1 h.1
  have := toNat_right hb.1
  have : b.right.xMin.toNat = b.xMin.toNat + 320 := this
  omega

end Box

namespace Screen

open BlockColorMapper

/-! ## Halves -/

/-- The bounds on one half of the screen. -/
structure Half where
  bounds : DrawLogic.Bounds
  hold : Box
  next : Box
  spriteHold : Box
  spriteNext : Box

def leftHalf : Half := ⟨bounds1, hold1, next1, spriteHold1, spriteNext1⟩

def rightHalf : Half := ⟨bounds2, hold2, next2, spriteHold2, spriteNext2⟩

/-- What the colour mapper reads for a pixel: the bounds of a half and the inputs of a player, and the
given counters. -/
structure Draws (h : Half) (p : Player) (x y : BitVec 10) (c : DrawCounters) (i : In) : Prop where
  drawX : i.drawX = x
  drawY : i.drawY = y
  counters : counters i = c
  playArea : playArea i = DrawLogic.playArea h.bounds x y
  pixel : DrawLogic.playArea h.bounds x y = true →
    (if i.one.playArea then i.one.blockType else i.two.blockType) = p.currentPixel
  scoreArea : scoreArea i = DrawLogic.scoreArea h.bounds x y
  score : DrawLogic.scoreArea h.bounds x y = true →
    (scored i).scorexMin = h.bounds.score.xMin ∧ (scored i).scorexMax = h.bounds.score.xMax ∧
      (scored i).scoreDigitsIn = p.scoreDigitsIn
  hold : (side i).hold = h.hold
  next : (side i).next = h.next
  held : (side i).heldBlock = p.heldBlock
  idx : (side i).blockIdx = p.blockIdx
  spriteHold : spriteHold i = h.spriteHold
  spriteNext : spriteNext i = h.spriteNext

variable {x y : BitVec 10} {c c1 c2 : DrawCounters} {p p1 p2 : Player}

theorem onLeft_bounds1 : bounds1.play.OnLeft ∧ bounds1.score.OnLeft := by decide

theorem bounds2_eq_right : bounds2.play = bounds1.play.right ∧ bounds2.score = bounds1.score.right := by decide

/-- On the left half the colour mapper draws for player 1. -/
theorem draws_left (hx : x.toNat < 320) (c1 c2 : DrawCounters) (p1 p2 : Player) :
    Draws leftHalf p1 x y c1 (mapperIn x y c1 c2 p1 p2) := by
  have hlt : x < 320 := hx
  have hplay : DrawLogic.playArea bounds2 x y = false :=
    decide_eq_false (bounds2_eq_right.1 ▸ Box.not_contains_right onLeft_bounds1.1 hx)
  have hscore : DrawLogic.scoreArea bounds2 x y = false := by
    unfold DrawLogic.scoreArea
    rw [decide_eq_false (bounds2_eq_right.2 ▸ Box.not_contains_right onLeft_bounds1.2 hx), Bool.and_false]
  have hside : side (mapperIn x y c1 c2 p1 p2) = mapperSide bounds1 hold1 next1 x y c1 p1 := if_pos hlt
  constructor
  case drawX | drawY | counters => rfl
  case playArea =>
    show (DrawLogic.playArea bounds1 x y || DrawLogic.playArea bounds2 x y) = _
    rw [hplay, Bool.or_false]
    rfl
  case pixel => exact fun h => if_pos h
  case scoreArea =>
    show (DrawLogic.scoreArea bounds1 x y || DrawLogic.scoreArea bounds2 x y) = _
    rw [hscore, Bool.or_false]
    rfl
  case score =>
    intro h
    have hscored : scored (mapperIn x y c1 c2 p1 p2) = mapperSide bounds1 hold1 next1 x y c1 p1 := if_pos h
    rw [hscored]
    exact ⟨rfl, rfl, rfl⟩
  case hold | next | held | idx => rw [hside]; rfl
  case spriteHold | spriteNext => exact if_pos hlt

/-- On the right half the colour mapper draws for player 2, with the counters of player 1. -/
theorem draws_right (hx : 320 ≤ x.toNat) (c1 c2 : DrawCounters) (p1 p2 : Player) :
    Draws rightHalf p2 x y c1 (mapperIn x y c1 c2 p1 p2) := by
  have hge : ¬ x < 320 := BitVec.not_lt.2 hx
  have hplay : DrawLogic.playArea bounds1 x y = false :=
    decide_eq_false (Box.not_contains_of_onLeft onLeft_bounds1.1 hx)
  have hscore : DrawLogic.scoreArea bounds1 x y = false := by
    unfold DrawLogic.scoreArea
    rw [decide_eq_false (Box.not_contains_of_onLeft onLeft_bounds1.2 hx), Bool.and_false]
  -- the regions of player 1 have no pixel here
  have hside : side (mapperIn x y c1 c2 p1 p2) = mapperSide bounds2 hold2 next2 x y c2 p2 := if_neg hge
  constructor
  case drawX | drawY | counters => rfl
  case playArea =>
    show (DrawLogic.playArea bounds1 x y || DrawLogic.playArea bounds2 x y) = _
    rw [hplay, Bool.false_or]
    rfl
  case pixel => exact fun _ => if_neg (by rw [show (mapperIn x y c1 c2 p1 p2).one.playArea = _ from hplay]; decide)
  case scoreArea =>
    show (DrawLogic.scoreArea bounds1 x y || DrawLogic.scoreArea bounds2 x y) = _
    rw [hscore, Bool.false_or]
    rfl
  case score =>
    intro _
    have hscored : scored (mapperIn x y c1 c2 p1 p2) = mapperSide bounds2 hold2 next2 x y c2 p2 :=
      if_neg (by rw [show (mapperIn x y c1 c2 p1 p2).one.scoreArea = _ from hscore]; decide)
    rw [hscored]
    exact ⟨rfl, rfl, rfl⟩
  case hold | next | held | idx => rw [hside]; rfl
  case spriteHold | spriteNext => exact if_neg hge

/-! ## Beside the fields -/

/-- Pixels to the right of the field, off the rows of text: the colour mapper looks at sprites only. -/
structure Quiet (h : Half) (x y : BitVec 10) : Prop where
  half : h = leftHalf ∨ h = rightHalf
  right : h.bounds.play.xMax < x
  rows : (60 ≤ y.toNat ∧ y.toNat ≤ 99) ∨ 140 ≤ y.toNat

variable {h : Half} {i : In} (hd : Draws h p x y c i) (hq : Quiet h x y)

include hd

theorem playArea_of_right (hright : h.bounds.play.xMax < x) : playArea i = false := by
  rw [hd.playArea]
  exact decide_eq_false fun hin => BitVec.not_lt.2 hin.2.1 hright

include hq

theorem text_of_quiet : (scoreArea i || holdArea i || nextArea i) = false := by
  have hrows := hq.rows
  have hbounds : (h.bounds.score.yMax.toNat = 30 ∧ h.hold.yMin.toNat = 120 ∧ h.hold.yMax.toNat = 135) ∧
      h.next.yMin.toNat = 40 ∧ h.next.yMax.toNat = 55 := by
    rcases hq.half with rfl | rfl <;> decide
  have hscore : scoreArea i = false := by
    rw [hd.scoreArea, DrawLogic.scoreArea, decide_eq_false, Bool.and_false]
    exact fun hin => by have := BitVec.le_def.1 hin.2.2.2; omega
  have hhold : holdArea i = false := by
    rw [holdArea, hd.hold, hd.drawX, hd.drawY, decide_eq_false]
    exact fun hin => by
      have := BitVec.le_def.1 hin.2.2.1
      have := BitVec.le_def.1 hin.2.2.2
      omega
  have hnext : nextArea i = false := by
    rw [nextArea, hd.next, hd.drawX, hd.drawY, decide_eq_false]
    exact fun hin => by have := BitVec.le_def.1 hin.2.2.2; omega
  rw [hscore, hhold, hnext]
  rfl

theorem layer_of_quiet (roms : Roms) : layer roms i = if validNsprite i then .sprite else .background := by
  unfold layer
  rw [playArea_of_right hd hq.right, text_of_quiet hd hq, Bool.false_and, validHsprite, Bool.or_false]
  rfl

theorem blockType_of_quiet :
    blockType i = if h.spriteHold.Contains x y then p.heldBlock
      else if h.spriteNext.Contains x y then .ofBits (p.blockIdx + 1) else .empty := by
  unfold blockType
  rw [playArea_of_right hd hq.right, hd.spriteHold, hd.spriteNext, hd.drawX, hd.drawY, hd.held, hd.idx]
  rfl

omit hq in
theorem validNsprite_of_draws :
    validNsprite i = if blockType i = .empty then inShape h.spriteNext .empty x y
      else inShape h.spriteHold (blockType i) x y := by
  unfold validNsprite
  simp only
  rw [hd.spriteHold, hd.spriteNext, hd.drawX, hd.drawY]
  by_cases hempty : blockType i = .empty
  · rw [if_pos hempty, if_pos hempty, hempty]
  · rw [if_neg hempty, if_neg hempty]

end Screen

end FpgaTetris
