/-
`block_color_mapper.sv`: the colour of a pixel, from what the two players' modules say about it.
-/
import FpgaTetris.Hdl.Types
import FpgaTetris.Hdl.DrawLogic

namespace FpgaTetris

/-- `block_color'`, the cast of three bits to a colour. -/
def BlockColor.ofBits (v : BitVec 3) : BlockColor :=
  if v = 0 then .empty
  else if v = 1 then .cyan
  else if v = 2 then .blue
  else if v = 3 then .orange
  else if v = 4 then .yellow
  else if v = 5 then .green
  else if v = 6 then .magenta
  else .red

namespace BlockColorMapper

/-- The tables of `font_rom` and `block_sprites`, and what a read of the palette outside its range
yields. -/
structure Roms where
  font : BitVec 11 → BitVec 8
  sprites : BlockColor → BitVec 10 → BitVec 5
  palette : BitVec 5 → BitVec 24

/-- The inputs that belong to one player. -/
structure Side where
  playArea : Bool
  scoreArea : Bool
  blockType : BlockColor
  scoreDigitsIn : BitVec 24
  scorexMin : BitVec 10
  scorexMax : BitVec 10
  counters : DrawCounters
  /-- `holdx_min` to `holdy_max`: the word over the box of the held piece. -/
  hold : Box
  /-- `nextx_min` to `nexty_max`: the word over the box of the next piece. -/
  next : Box
  blockIdx : BitVec 3
  heldBlock : BlockColor
  deriving DecidableEq, Repr

structure In where
  one : Side
  two : Side
  drawX : BitVec 10
  drawY : BitVec 10
  deriving DecidableEq, Repr

/-! ## Selection of the player -/

variable (roms : Roms) (i : In)

/-- The player on whose half of the screen the pixel is. -/
def side : Side := if i.drawX < 320 then i.one else i.two

/-- The player whose score is read. -/
def scored : Side := if i.one.scoreArea then i.one else i.two

/-- `sprite_holdx_min1` to `sprite_holdy_max`. -/
def spriteHold1 : Box := ⟨230, 309, 140, 179⟩

/-- `sprite_holdx_min2` to `sprite_holdy_max`. -/
def spriteHold2 : Box := ⟨550, 630, 140, 179⟩

/-- `sprite_nextx_min1` to `sprite_nexty_max`. -/
def spriteNext1 : Box := ⟨230, 309, 60, 99⟩

/-- `sprite_nextx_min2` to `sprite_nexty_max`. -/
def spriteNext2 : Box := ⟨550, 629, 60, 99⟩

/-- `sprite_holdx_min` to `sprite_holdy_max`. -/
def spriteHold : Box := if i.drawX < 320 then spriteHold1 else spriteHold2

/-- `sprite_nextx_min` to `sprite_nexty_max`. -/
def spriteNext : Box := if i.drawX < 320 then spriteNext1 else spriteNext2

/-- `play_area`. -/
def playArea : Bool := i.one.playArea || i.two.playArea

/-- `score_area`. -/
def scoreArea : Bool := i.one.scoreArea || i.two.scoreArea

/-- `hold_area`. -/
def holdArea : Bool := decide ((side i).hold.Contains i.drawX i.drawY)

/-- `next_area`. -/
def nextArea : Bool := decide ((side i).next.Contains i.drawX i.drawY)

/-- `xdraw_counter` and `ydraw_counter`: those of player 1. -/
def counters : DrawCounters := i.one.counters

/-! ## Text -/

/-- `data_idx`. -/
def dataIdx : BitVec 3 :=
  if scoreArea i then 7 - i.drawX.setWidth 3 else 7 - (i.drawX.setWidth 3 - 4)

/-- `digit`. -/
def digit : BitVec 4 :=
  let s := scored i
  if i.drawX ≤ s.scorexMin + 7 then s.scoreDigitsIn.extractLsb' 20 4
  else if i.drawX ≤ s.scorexMin + 15 then s.scoreDigitsIn.extractLsb' 16 4
  else if i.drawX ≤ s.scorexMin + 23 then s.scoreDigitsIn.extractLsb' 12 4
  else if i.drawX ≤ s.scorexMin + 31 then s.scoreDigitsIn.extractLsb' 8 4
  else if i.drawX ≤ s.scorexMin + 39 then s.scoreDigitsIn.extractLsb' 4 4
  else if i.drawX ≤ s.scorexMax then s.scoreDigitsIn.extractLsb' 0 4
  else s.scoreDigitsIn.extractLsb' 20 4

/-- The addresses of the glyphs of the digits, from 0 to 9. -/
def digitAddrs : List (BitVec 11) := [768, 784, 800, 816, 832, 848, 864, 880, 896, 912]

/-- `addr_offset`. -/
def addrOffset : BitVec 11 := (digitAddrs[(digit i).toNat]?).getD 768

/-- The address of a row of a glyph in a word of four letters, each eight pixels wide. -/
def wordAddr (box : Box) (l₁ l₂ l₃ l₄ top : BitVec 11) : BitVec 11 :=
  let y := i.drawY.setWidth 11
  if i.drawX ≤ box.xMin + 7 then l₁ + y - top
  else if i.drawX ≤ box.xMin + 15 then l₂ + y - top
  else if i.drawX ≤ box.xMin + 23 then l₃ + y - top
  else if i.drawX ≤ box.xMax then l₄ + y - top
  else l₁

/-- `next_font_addr`. -/
def nextFontAddr : BitVec 11 := wordAddr i (side i).next 1248 1104 1408 1344 40

/-- `hold_font_addr`. -/
def holdFontAddr : BitVec 11 := wordAddr i (side i).hold 1152 1264 1216 1088 120

/-- `addr`. -/
def addr : BitVec 11 :=
  if nextArea i then nextFontAddr i
  else if holdArea i then holdFontAddr i
  else addrOffset i + i.drawY.setWidth 11 - 15

/-- `data[data_idx]`. -/
def textBit : Bool := (roms.font (addr i)).getLsbD (dataIdx i).toNat

/-! ## Sprites -/

/-- `nh_offset`. -/
def nhOffset : BitVec 5 :=
  let xdraw := (counters i).xdrawCounter
  (if 10 ≤ xdraw then xdraw - 10 else xdraw + 10).setWidth 5

/-- `sprite_addr`. -/
def spriteAddr : BitVec 10 :=
  let row := (counters i).ydrawCounter * 20
  if playArea i then row + (counters i).xdrawCounter
  else if (spriteHold i).Contains i.drawX i.drawY then row + (nhOffset i).setWidth 10
  else if (spriteNext i).Contains i.drawX i.drawY then row + (nhOffset i).setWidth 10
  else 0

/-- `block_type`. -/
def blockType : BlockColor :=
  if playArea i then if i.one.playArea then i.one.blockType else i.two.blockType
  else if (spriteHold i).Contains i.drawX i.drawY then (side i).heldBlock
  else if (spriteNext i).Contains i.drawX i.drawY then .ofBits ((side i).blockIdx + 1)
  else .empty

/-- The pixel ranges compared for a piece in a sprite box; those of `EMPTY` are in the default case. -/
def shapeRanges (b : Box) : BlockColor → List Box
  | .empty => [⟨b.xMin, b.xMax, b.yMin, b.yMin + 19⟩]
  | .cyan => [⟨b.xMin, b.xMax, b.yMin, b.yMin + 19⟩]
  | .blue => [⟨b.xMin, b.xMin + 19, b.yMin, b.yMin + 19⟩, ⟨b.xMin, b.xMin + 59, b.yMin + 20, b.yMin + 39⟩]
  | .orange => [⟨b.xMin + 40, b.xMin + 59, b.yMin, b.yMin + 19⟩, ⟨b.xMin, b.xMin + 59, b.yMin + 20, b.yMin + 39⟩]
  | .yellow =>
    [⟨b.xMin + 20, b.xMin + 59, b.yMin, b.yMin + 19⟩, ⟨b.xMin + 20, b.xMin + 59, b.yMin + 20, b.yMin + 39⟩]
  | .green => [⟨b.xMin + 20, b.xMin + 59, b.yMin, b.yMin + 19⟩, ⟨b.xMin, b.xMin + 39, b.yMin + 20, b.yMin + 39⟩]
  | .red => [⟨b.xMin, b.xMin + 39, b.yMin, b.yMin + 19⟩, ⟨b.xMin + 20, b.xMin + 59, b.yMin + 20, b.yMin + 39⟩]
  | .magenta =>
    [⟨b.xMin + 20, b.xMin + 39, b.yMin, b.yMin + 19⟩, ⟨b.xMin, b.xMin + 59, b.yMin + 20, b.yMin + 39⟩]

/-- The pixel is in one of the ranges of a piece. -/
def inShape (b : Box) (c : BlockColor) (x y : BitVec 10) : Bool :=
  (shapeRanges b c).any fun r => decide (r.Contains x y)

/-- `valid_nsprite`. The second `case` assigns it again, for every colour but `EMPTY`. -/
def validNsprite : Bool :=
  let valid := inShape (spriteNext i) (blockType i) i.drawX i.drawY
  if blockType i = .empty then valid else inShape (spriteHold i) (blockType i) i.drawX i.drawY

/-- `valid_hsprite`, which nothing sets. -/
def validHsprite : Bool := false

/-! ## Colours -/

/-- `sprite_palette`. -/
def spritePalette : List (BitVec 24) :=
  [0xFF0000, 0xF83800, 0xF0D0B0, 0x503000, 0xFFE0A8, 0x0058F8, 0xFCFCFC, 0xBCBCBC, 0xA40000, 0xD82800,
    0xFC7460, 0xFCBCB0, 0xF0BC3C, 0xAEACAE, 0x363301, 0x6C6C01, 0xBBBD00, 0x88D500, 0x398802, 0x65B0FF,
    0x155ED8, 0x800080, 0x24188A, 0xEF9F00, 0xDB960E, 0xE8B651, 0x333333, 0x4E4E4E, 0x393939]

/-- The colour of a pixel of a piece's sprite. -/
def spriteColor (c : BlockColor) (a : BitVec 10) : BitVec 24 :=
  let rgbIdx := roms.sprites c a
  (spritePalette[rgbIdx.toNat]?).getD (roms.palette rgbIdx)

/-- `cur_sprite`. -/
def curSprite : BitVec 24 := spriteColor roms (blockType i) (spriteAddr i)

/-- The branches of the output multiplexer. -/
inductive Layer
  | board
  | text
  | sprite
  | background
  deriving DecidableEq, Repr

/-- The branch taken for a pixel. -/
def layer : Layer :=
  if playArea i then .board
  else if (scoreArea i || holdArea i || nextArea i) && textBit roms i then .text
  else if validNsprite i || validHsprite then .sprite
  else .background

/-- `red`, `green` and `blue`. -/
structure Rgb where
  red : BitVec 8
  green : BitVec 8
  blue : BitVec 8
  deriving DecidableEq, Repr

def Rgb.ofSprite (v : BitVec 24) : Rgb := ⟨v.extractLsb' 16 8, v.extractLsb' 8 8, v.extractLsb' 0 8⟩

/-- The background gradient. -/
def background (drawX : BitVec 10) : Rgb := ⟨0x1f, 0x00, 0x7f - (drawX.extractLsb' 3 7).setWidth 8⟩

/-- The colour of the pixel. -/
def rgb : Rgb :=
  match layer roms i with
  | .board => .ofSprite (curSprite roms i)
  | .text => ⟨0xff, 0xff, 0xff⟩
  | .sprite => .ofSprite (curSprite roms i)
  | .background => background i.drawX

end BlockColorMapper

end FpgaTetris
