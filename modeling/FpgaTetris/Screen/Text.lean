/-
The text on the screen: the scores over the fields, and the words over the boxes. A letter is eight
pixels wide and sixteen high, and `font_rom` holds the glyphs by their ASCII codes.
-/
import FpgaTetris.Screen.Half
import Mathlib.Tactic.IntervalCases

namespace FpgaTetris

open BlockColorMapper

/-- The bit of a glyph in a row from the top and a column from the left. -/
def glyphBit (roms : Roms) (c : Char) (row col : ℕ) : Bool :=
  (roms.font (BitVec.ofNat 11 (16 * c.toNat + row))).getLsbD (7 - col)

/-- A pixel of a box that a line of text fills: white on a bit of its letter, otherwise background. -/
def ShowsText (roms : Roms) (box : Box) (text : List Char) (x y : BitVec 10) (color : Rgb) : Prop :=
  ∃ c, text[(x.toNat - box.xMin.toNat) / 8]? = some c ∧
    color = if glyphBit roms c (y.toNat - box.yMin.toNat) ((x.toNat - box.xMin.toNat) % 8) then ⟨0xff, 0xff, 0xff⟩
      else background x

/-- A number of six decimal digits. -/
def scoreText (v : ℕ) : List Char := (List.range 6).map fun k => (v / 10 ^ (5 - k) % 10).digitChar

namespace Screen

variable {roms : Roms} {h : Half} {p : Player} {x y : BitVec 10} {c : DrawCounters} {i : In}

/-! ## Rows without sprites -/

/-- Rows above and between the boxes of sprites. -/
def TextRow (y : BitVec 10) : Prop := y.toNat < 60 ∨ 100 ≤ y.toNat ∧ y.toNat < 140

section Sprites

variable (hd : Draws h p x y c i) (hh : h = leftHalf ∨ h = rightHalf) (hy : TextRow y) (hplay : playArea i = false)

include hh in
theorem spriteBoxes_rows :
    h.spriteHold.yMin.toNat = 140 ∧ h.spriteNext.yMin.toNat = 60 ∧ h.spriteNext.yMax.toNat = 99 ∧
      (h.spriteNext.yMin + 19).toNat = 79 := by
  rcases hh with rfl | rfl <;> decide

include hd hh hy hplay

theorem blockType_of_textRow : blockType i = .empty := by
  obtain ⟨hhold, hnext, hmax, -⟩ := spriteBoxes_rows hh
  unfold blockType
  rw [hplay, hd.spriteHold, hd.spriteNext, hd.drawX, hd.drawY, if_neg Bool.false_ne_true, if_neg, if_neg]
  · intro hin
    have := BitVec.le_def.1 hin.2.2.1
    have := BitVec.le_def.1 hin.2.2.2
    rcases hy with hy | hy <;> omega
  · intro hin
    have := BitVec.le_def.1 hin.2.2.1
    rcases hy with hy | hy <;> omega

theorem validNsprite_of_textRow : validNsprite i = false := by
  obtain ⟨-, hnext, -, hmax⟩ := spriteBoxes_rows hh
  have hempty := blockType_of_textRow hd hh hy hplay
  rw [validNsprite_of_draws hd, if_pos hempty]
  simp only [inShape, shapeRanges, List.any_cons, List.any_nil, Bool.or_false, decide_eq_false_iff_not]
  intro hin
  have hlow : h.spriteNext.yMin.toNat ≤ y.toNat := BitVec.le_def.1 hin.2.2.1
  have hhigh : y.toNat ≤ (h.spriteNext.yMin + 19).toNat := BitVec.le_def.1 hin.2.2.2
  rcases hy with hy | hy <;> omega

/-- There a pixel of an area of text shows what the font has at its address. -/
theorem showsText_of_addr {box : Box} {text : List Char} {l : Char}
    (htext : (scoreArea i || holdArea i || nextArea i) = true)
    (hl : text[(x.toNat - box.xMin.toNat) / 8]? = some l)
    (haddr : addr i = BitVec.ofNat 11 (16 * l.toNat + (y.toNat - box.yMin.toNat)))
    (hcol : (dataIdx i).toNat = 7 - (x.toNat - box.xMin.toNat) % 8) : ShowsText roms box text x y (rgb roms i) := by
  have hsprite := validNsprite_of_textRow hd hh hy hplay
  have hbit : textBit roms i = glyphBit roms l (y.toNat - box.yMin.toNat) ((x.toNat - box.xMin.toNat) % 8) := by
    unfold textBit glyphBit
    rw [haddr, hcol]
  have hlayer : layer roms i = if textBit roms i then .text else .background := by
    unfold layer
    rw [hplay, htext, hsprite, validHsprite, Bool.true_and]
    rfl
  refine ⟨l, hl, ?_⟩
  unfold rgb
  rw [hlayer, ← hbit]
  cases textBit roms i with
  | true => rfl
  | false => exact congrArg background hd.drawX

end Sprites

/-! ## Glyphs -/

theorem glyph_addr {n top : ℕ} (htop : top ≤ y.toNat) (hrow : y.toNat < top + 16) :
    BitVec.ofNat 11 (16 * n) + y.setWidth 11 - BitVec.ofNat 11 top = BitVec.ofNat 11 (16 * n + (y.toNat - top)) := by
  have hy := y.isLt
  bv_omega

theorem column_of_aligned {xMin : BitVec 10} (hx : xMin ≤ x) (hmod : xMin.toNat % 8 = 0) :
    (7 - x.setWidth 3 : BitVec 3).toNat = 7 - (x.toNat - xMin.toNat) % 8 := by
  have := BitVec.le_def.1 hx
  bv_omega

theorem column_of_shifted {xMin : BitVec 10} (hx : xMin ≤ x) (hmod : xMin.toNat % 8 = 4) :
    (7 - (x.setWidth 3 - 4) : BitVec 3).toNat = 7 - (x.toNat - xMin.toNat) % 8 := by
  have := BitVec.le_def.1 hx
  bv_omega

/-! ## Scores -/

/-- A digit of the score, from the left. -/
def digitAt (digits : BitVec 24) (k : ℕ) : BitVec 4 := digits.extractLsb' (20 - 4 * k) 4

/-- Every eight columns of the score have a digit of their own. -/
theorem digit_of_column {xMin : BitVec 10} (hmin : (scored i).scorexMin = xMin)
    (hmax : (scored i).scorexMax = xMin + 47) (hlt : xMin.toNat < 900) (hx : xMin ≤ i.drawX)
    (hx' : i.drawX ≤ xMin + 47) :
    digit i = digitAt (scored i).scoreDigitsIn ((i.drawX.toNat - xMin.toNat) / 8) := by
  have := BitVec.le_def.1 hx
  have := BitVec.le_def.1 hx'
  unfold digit digitAt
  simp only [hmin, hmax]
  split_ifs <;> congr 1 <;> bv_omega

theorem addrOffset_of_digit {d : ℕ} (hd : d < 10) (h : (digit i).toNat = d) :
    addrOffset i = BitVec.ofNat 11 (16 * d.digitChar.toNat) := by
  unfold addrOffset
  rw [h]
  interval_cases d <;> rfl

/-- The score is written over the field. -/
theorem showsText_score (hd : Draws h p x y c i) (hh : h = leftHalf ∨ h = rightHalf)
    (hin : h.bounds.score.Contains x y) {v : ℕ}
    (hv : ∀ k < 6, (digitAt p.scoreDigitsIn k).toNat = v / 10 ^ (5 - k) % 10) :
    ShowsText roms h.bounds.score (scoreText v) x y (rgb roms i) := by
  -- the bounds of the two score boxes, which start at a multiple of eight columns
  have hbox : h.bounds.score.xMin.toNat % 8 = 0 ∧ h.bounds.score.xMin.toNat < 900 ∧
      h.bounds.score.xMax = h.bounds.score.xMin + 47 ∧ h.bounds.score.yMin.toNat = 15 ∧
      h.bounds.score.yMax.toNat = 30 ∧ h.bounds.play.yMin.toNat = 40 ∧ h.next.yMin.toNat = 40 ∧
      h.hold.yMin.toNat = 120 := by
    rcases hh with rfl | rfl <;> decide
  obtain ⟨hmod, hlt, hmax, htop, hbottom, hfield, hnext, hhold⟩ := hbox
  have hy := BitVec.le_def.1 hin.2.2.1
  have hy' := BitVec.le_def.1 hin.2.2.2
  have hrow : 15 ≤ y.toNat ∧ y.toNat < 15 + 16 := by omega
  -- the box lies above the field and above the boxes of the words
  have hplay : DrawLogic.playArea h.bounds x y = false := by
    refine decide_eq_false fun hin' => ?_
    have := BitVec.le_def.1 hin'.2.2.1
    omega
  have hscore : DrawLogic.scoreArea h.bounds x y = true := by
    rw [DrawLogic.scoreArea, hplay, decide_eq_true hin]
    rfl
  have hnextArea : nextArea i = false := by
    rw [nextArea, hd.next, hd.drawX, hd.drawY]
    refine decide_eq_false fun hin' => ?_
    have := BitVec.le_def.1 hin'.2.2.1
    omega
  have hholdArea : holdArea i = false := by
    rw [holdArea, hd.hold, hd.drawX, hd.drawY]
    refine decide_eq_false fun hin' => ?_
    have := BitVec.le_def.1 hin'.2.2.1
    omega
  obtain ⟨hxmin, hxmax, hdigits⟩ := hd.score hscore
  have hdigit := digit_of_column hxmin (hxmax.trans hmax) hlt (hd.drawX ▸ hin.1) (hmax ▸ hd.drawX ▸ hin.2.1)
  rw [hdigits, hd.drawX] at hdigit
  have hk : (x.toNat - h.bounds.score.xMin.toNat) / 8 < 6 := by
    have hx' := BitVec.le_def.1 hin.2.1
    rw [hmax] at hx'
    bv_omega
  have hdigit : (digit i).toNat = v / 10 ^ (5 - (x.toNat - h.bounds.score.xMin.toNat) / 8) % 10 :=
    (congrArg _ hdigit).trans (hv _ hk)
  refine showsText_of_addr hd hh (.inl (by omega)) (hd.playArea.trans hplay) (by rw [hd.scoreArea, hscore]; rfl)
    (l := (v / 10 ^ (5 - (x.toNat - h.bounds.score.xMin.toNat) / 8) % 10).digitChar) ?_ ?_ ?_
  · unfold scoreText
    rw [List.getElem?_map, List.getElem?_range hk]
    rfl
  · unfold addr
    rw [hnextArea, hholdArea, if_neg Bool.false_ne_true, if_neg Bool.false_ne_true,
      addrOffset_of_digit (Nat.mod_lt _ (by omega)) hdigit, hd.drawY, htop]
    exact glyph_addr hrow.1 hrow.2
  · unfold dataIdx
    rw [hd.scoreArea, hscore, if_pos rfl, hd.drawX]
    exact column_of_aligned hin.1 hmod

/-! ## Words -/

/-- A word of four letters fills a box, a letter every eight columns. -/
theorem exists_letter {box : Box} (a b c d : Char) {top : ℕ} (hmax : box.xMax = box.xMin + 31)
    (hlt : box.xMin.toNat < 900) (hin : box.Contains i.drawX i.drawY) (htop : box.yMin.toNat = top)
    (hbottom : box.yMax.toNat = top + 15) :
    ∃ l, [a, b, c, d][(i.drawX.toNat - box.xMin.toNat) / 8]? = some l ∧
      wordAddr i box (.ofNat 11 (16 * a.toNat)) (.ofNat 11 (16 * b.toNat)) (.ofNat 11 (16 * c.toNat))
        (.ofNat 11 (16 * d.toNat)) (.ofNat 11 top) = .ofNat 11 (16 * l.toNat + (i.drawY.toNat - top)) := by
  obtain ⟨hx, hx', hy, hy'⟩ := hin
  have hy := BitVec.le_def.1 hy
  have hy' := BitVec.le_def.1 hy'
  have hrow : top ≤ i.drawY.toNat ∧ i.drawY.toNat < top + 16 := by omega
  have hx := BitVec.le_def.1 hx
  have hx' := BitVec.le_def.1 hx'
  rw [hmax] at hx'
  unfold wordAddr
  simp only [hmax]
  -- one case for each letter; past the last one the pixel would be outside the box
  split_ifs with h1 h2 h3 h4
  · have hk : (i.drawX.toNat - box.xMin.toNat) / 8 = 0 := by bv_omega
    exact ⟨a, by rw [hk]; rfl, glyph_addr hrow.1 hrow.2⟩
  · have hk : (i.drawX.toNat - box.xMin.toNat) / 8 = 1 := by bv_omega
    exact ⟨b, by rw [hk]; rfl, glyph_addr hrow.1 hrow.2⟩
  · have hk : (i.drawX.toNat - box.xMin.toNat) / 8 = 2 := by bv_omega
    exact ⟨c, by rw [hk]; rfl, glyph_addr hrow.1 hrow.2⟩
  · have hk : (i.drawX.toNat - box.xMin.toNat) / 8 = 3 := by bv_omega
    exact ⟨d, by rw [hk]; rfl, glyph_addr hrow.1 hrow.2⟩
  · exact absurd (BitVec.le_def.2 hx') h4

/-- Over the boxes of a half the colour mapper writes in white on the background. -/
theorem showsText_word (hd : Draws h p x y c i) (hh : h = leftHalf ∨ h = rightHalf) {box : Box} {top : ℕ}
    (hbox : box = h.next ∨ box = h.hold) (htop : box.yMin.toNat = top) (hin : box.Contains x y) {a b c d : Char}
    (haddr : addr i = wordAddr i box (.ofNat 11 (16 * a.toNat)) (.ofNat 11 (16 * b.toNat)) (.ofNat 11 (16 * c.toNat))
      (.ofNat 11 (16 * d.toNat)) (.ofNat 11 top)) :
    ShowsText roms box [a, b, c, d] x y (rgb roms i) := by
  -- the boxes start four columns into a group of eight, to the right of the field
  have hbounds : box.xMin.toNat % 8 = 4 ∧ box.xMin.toNat < 900 ∧ box.xMax = box.xMin + 31 ∧
      box.yMax.toNat = box.yMin.toNat + 15 ∧ h.bounds.play.xMax < box.xMin ∧ h.bounds.score.yMax < box.yMin ∧
      (box.yMin.toNat = 40 ∨ box.yMin.toNat = 120) := by
    rcases hh with rfl | rfl <;> rcases hbox with rfl | rfl <;> decide
  obtain ⟨hmod, hlt, hmax, hbottom, hright, hbelow, hrows⟩ := hbounds
  have hy := BitVec.le_def.1 hin.2.2.1
  have hy' := BitVec.le_def.1 hin.2.2.2
  have hplay : playArea i = false := by
    refine playArea_of_right hd (BitVec.lt_def.2 ?_)
    exact lt_of_lt_of_le (BitVec.lt_def.1 hright) (BitVec.le_def.1 hin.1)
  have hscore : scoreArea i = false := by
    rw [hd.scoreArea, DrawLogic.scoreArea, decide_eq_false, Bool.and_false]
    intro hin'
    have hlow : y.toNat ≤ h.bounds.score.yMax.toNat := BitVec.le_def.1 hin'.2.2.2
    have hhigh : h.bounds.score.yMax.toNat < box.yMin.toNat := BitVec.lt_def.1 hbelow
    omega
  have htext : (scoreArea i || holdArea i || nextArea i) = true := by
    rw [hscore, Bool.false_or, holdArea, nextArea, hd.hold, hd.next, hd.drawX, hd.drawY]
    rcases hbox with rfl | rfl
    · rw [decide_eq_true hin, Bool.or_true]
    · rw [decide_eq_true hin, Bool.true_or]
  have hin' : box.Contains i.drawX i.drawY := by rwa [hd.drawX, hd.drawY]
  obtain ⟨l, hl, hword⟩ := exists_letter a b c d hmax hlt hin' htop (by omega)
  rw [hd.drawX] at hl
  refine showsText_of_addr hd hh ?_ hplay htext hl ?_ ?_
  · rcases hrows with hrows | hrows
    · exact .inl (by omega)
    · exact .inr (by omega)
  · rw [haddr, hword, hd.drawY, htop]
  · unfold dataIdx
    rw [hscore, if_neg Bool.false_ne_true, hd.drawX]
    exact column_of_shifted hin.1 hmod

theorem showsText_next (hd : Draws h p x y c i) (hh : h = leftHalf ∨ h = rightHalf) (hin : h.next.Contains x y) :
    ShowsText roms h.next ['N', 'E', 'X', 'T'] x y (rgb roms i) := by
  have htop : h.next.yMin.toNat = 40 := by rcases hh with rfl | rfl <;> rfl
  have harea : nextArea i = true := by
    rw [nextArea, hd.next, hd.drawX, hd.drawY]
    exact decide_eq_true hin
  refine showsText_word hd hh (.inl rfl) htop hin ?_
  unfold addr nextFontAddr
  rw [harea, if_pos rfl, hd.next]
  rfl

theorem showsText_hold (hd : Draws h p x y c i) (hh : h = leftHalf ∨ h = rightHalf) (hin : h.hold.Contains x y) :
    ShowsText roms h.hold ['H', 'O', 'L', 'D'] x y (rgb roms i) := by
  have htop : h.hold.yMin.toNat = 120 ∧ h.next.yMax.toNat = 55 := by rcases hh with rfl | rfl <;> decide
  have harea : holdArea i = true := by
    rw [holdArea, hd.hold, hd.drawX, hd.drawY]
    exact decide_eq_true hin
  have hnext : nextArea i = false := by
    rw [nextArea, hd.next, hd.drawX, hd.drawY]
    refine decide_eq_false fun hin' => ?_
    have := BitVec.le_def.1 hin.2.2.1
    have := BitVec.le_def.1 hin'.2.2.2
    omega
  refine showsText_word hd hh (.inr rfl) htop.1 hin ?_
  unfold addr holdFontAddr
  rw [hnext, harea, if_neg Bool.false_ne_true, if_pos rfl, hd.hold]
  rfl

end Screen

end FpgaTetris
