/-
The right half of the screen against the left one: with the same inputs for both players a pixel and
the pixel 320 columns to its right are painted alike, except in one column beside the held piece.
-/
import FpgaTetris.Screen.Counters
import FpgaTetris.Screen.Half
import FpgaTetris.Screen.Shapes

namespace FpgaTetris

namespace Screen

open BlockColorMapper

/-! ## Regions -/

/-- The extra column of the right box of the held piece, seen from the left half. -/
def ExtraColumn (x y : BitVec 10) : Prop := x.toNat = 310 ∧ 140 ≤ y.toNat ∧ y.toNat ≤ 179

instance (x y : BitVec 10) : Decidable (ExtraColumn x y) := inferInstanceAs (Decidable (_ ∧ _))

variable {x y : BitVec 10} {c c' : DrawCounters} {p : Player} {i j : In} {roms : Roms}

theorem fits_preview {b : Box} (hbox : b ∈ previews) : Fits b := by
  obtain ⟨hx, hy, -⟩ := preview_bounds hbox
  exact ⟨by omega, by omega⟩

/-- The right box of the held piece is the left one moved, and one column wider. -/
theorem contains_spriteHold2 (hx : x.toNat < 320) :
    spriteHold2.Contains (x + 320) y ↔ spriteHold1.Contains x y ∨ ExtraColumn x y := by
  have hx' := Box.toNat_right hx
  have hleft : spriteHold1.Contains x y ↔ 230 ≤ x.toNat ∧ x.toNat ≤ 309 ∧ 140 ≤ y.toNat ∧ y.toNat ≤ 179 := Iff.rfl
  have hright : spriteHold2.Contains (x + 320) y ↔
      550 ≤ (x + 320).toNat ∧ (x + 320).toNat ≤ 630 ∧ 140 ≤ y.toNat ∧ y.toNat ≤ 179 := Iff.rfl
  rw [hleft, hright, ExtraColumn, hx']
  omega

theorem contains_spriteNext2 (hx : x.toNat < 320) :
    spriteNext2.Contains (x + 320) y ↔ spriteNext1.Contains x y :=
  Box.contains_right (b := spriteNext1) (by decide) hx

theorem tileOf_right {b b' : Box} (hleft : b'.xMin.toNat = b.xMin.toNat + 320) (htop : b'.yMin = b.yMin)
    (hx : x.toNat < 320) : tileOf b' (x + 320) y = tileOf b x y := by
  unfold tileOf
  rw [Box.toNat_right hx, hleft, htop, Nat.add_sub_add_right]

/-- A piece has the same ranges on both halves, but for the bar in a wider box. -/
theorem inShape_right {b b' : Box} (hb : Fits b) (hb' : Fits b') (hleft : b'.xMin.toNat = b.xMin.toNat + 320)
    (htop : b'.yMin = b.yMin) (hx : x.toNat < 320) (c : BlockColor)
    (hwide : c = .empty ∨ c = .cyan → b.yMin ≤ y → (tileOf b x y).2 = 0 → (x + 320 ≤ b'.xMax ↔ x ≤ b.xMax)) :
    inShape b' c (x + 320) y = inShape b c x y := by
  have hmin : b'.xMin ≤ x + 320 ↔ b.xMin ≤ x := by
    rw [BitVec.le_def, BitVec.le_def, hleft, Box.toNat_right hx]
    omega
  rw [Bool.eq_iff_iff]
  by_cases hc : c = .empty ∨ c = .cyan
  · rw [inShape_bar hb hc, inShape_bar hb' hc, tileOf_right hleft htop hx, hmin, htop]
    constructor
    · rintro ⟨hin, hmax, hrow⟩
      exact ⟨hin, (hwide hc hin.2 hrow).1 hmax, hrow⟩
    · rintro ⟨hin, hmax, hrow⟩
      exact ⟨hin, (hwide hc hin.2 hrow).2 hmax, hrow⟩
  · have hne := not_or.1 hc
    rw [inShape_iff_tile someReads hb hne.1 hne.2, inShape_iff_tile someReads hb' hne.1 hne.2,
      tileOf_right hleft htop hx, hmin, htop]

theorem inShape_spriteNext2 (hx : x.toNat < 320) (c : BlockColor) :
    inShape spriteNext2 c (x + 320) y = inShape spriteNext1 c x y :=
  inShape_right (fits_preview (b := spriteNext1) (by simp [previews]))
    (fits_preview (b := spriteNext2) (by simp [previews])) rfl rfl hx c fun _ _ _ =>
    Box.right_le_right (w := 309) hx (by decide)

/-- Outside the extra column a held piece has the same ranges on both halves. -/
theorem inShape_spriteHold2 (hx : x.toNat < 320) (hextra : ¬ ExtraColumn x y) (c : BlockColor) :
    inShape spriteHold2 c (x + 320) y = inShape spriteHold1 c x y := by
  refine inShape_right (fits_preview (b := spriteHold1) (by simp [previews]))
    (fits_preview (b := spriteHold2) (by simp [previews])) rfl rfl hx c fun _ htop hrow => ?_
  have htop : 140 ≤ y.toNat := htop
  have hrow : (y.toNat - 140) / 20 = 0 := hrow
  have hmax : x + 320 ≤ spriteHold2.xMax ↔ x.toNat + 320 ≤ 630 := by rw [BitVec.le_def, Box.toNat_right hx]; rfl
  have hmax' : x ≤ spriteHold1.xMax ↔ x.toNat ≤ 309 := Iff.rfl
  unfold ExtraColumn at hextra
  rw [hmax, hmax']
  omega

/-! ## Text -/

theorem le_add_right {v k : BitVec 10} (hx : x.toNat < 320) (hv : (v + k).toNat < 320) :
    x + 320 ≤ v + 320 + k ↔ x ≤ v + k := by
  rw [add_right_comm]
  exact Box.right_le_right hx hv

section Pair

variable (hi : Draws leftHalf p x y c i) (hj : Draws rightHalf p (x + 320) y c' j) (hx : x.toNat < 320)

include hi hj hx

theorem playArea_mirror : playArea j = playArea i := by
  have hplay := Box.contains_right (y := y) onLeft_bounds1.1 hx
  rw [← bounds2_eq_right.1] at hplay
  rw [hi.playArea, hj.playArea]
  exact decide_eq_decide.2 hplay

theorem scoreArea_mirror : scoreArea j = scoreArea i := by
  have hplay := playArea_mirror hi hj hx
  have hscore := Box.contains_right (y := y) onLeft_bounds1.2 hx
  rw [hi.playArea, hj.playArea] at hplay
  rw [← bounds2_eq_right.2] at hscore
  rw [hi.scoreArea, hj.scoreArea, DrawLogic.scoreArea, DrawLogic.scoreArea, hplay]
  exact congrArg _ (decide_eq_decide.2 hscore)

theorem holdArea_mirror : holdArea j = holdArea i := by
  unfold holdArea
  rw [hi.hold, hj.hold, hi.drawX, hj.drawX, hi.drawY, hj.drawY]
  exact decide_eq_decide.2 (Box.contains_right (b := hold1) (by decide) hx)

theorem nextArea_mirror : nextArea j = nextArea i := by
  unfold nextArea
  rw [hi.next, hj.next, hi.drawX, hj.drawX, hi.drawY, hj.drawY]
  exact decide_eq_decide.2 (Box.contains_right (b := next1) (by decide) hx)

/-- The halves are a whole number of glyphs apart. -/
theorem dataIdx_mirror : dataIdx j = dataIdx i := by
  have hlow : (x + 320).setWidth 3 = x.setWidth 3 := by
    refine BitVec.eq_of_toNat_eq ?_
    rw [BitVec.toNat_setWidth, BitVec.toNat_setWidth, Box.toNat_right hx]
    show (x.toNat + 320) % 8 = x.toNat % 8
    omega
  unfold dataIdx
  rw [scoreArea_mirror hi hj hx, hi.drawX, hj.drawX, hlow]

theorem wordAddr_mirror {b : Box} (hb : b.OnLeft) (hb7 : (b.xMin + 7).toNat < 320) (hb15 : (b.xMin + 15).toNat < 320)
    (hb23 : (b.xMin + 23).toNat < 320) (l₁ l₂ l₃ l₄ top : BitVec 11) :
    wordAddr j b.right l₁ l₂ l₃ l₄ top = wordAddr i b l₁ l₂ l₃ l₄ top := by
  unfold wordAddr Box.right
  simp only [hi.drawX, hj.drawX, hi.drawY, hj.drawY, le_add_right hx hb7, le_add_right hx hb15, le_add_right hx hb23,
    Box.right_le_right hx hb.2]

/-- In a score the same digit is read. -/
theorem digit_mirror (h : scoreArea i = true) : digit j = digit i := by
  have hscore := scoreArea_mirror hi hj hx
  obtain ⟨hmin, hmax, hdigits⟩ := hi.score (hi.scoreArea ▸ h)
  obtain ⟨hmin', hmax', hdigits'⟩ := hj.score (by rw [← hj.scoreArea, hscore, h])
  have hle : ∀ {k : BitVec 10}, (96 + k).toNat < 320 → (x + 320 ≤ 96 + 320 + k ↔ x ≤ 96 + k) := le_add_right hx
  have hlast : x + 320 ≤ 143 + 320 ↔ x ≤ 143 := Box.right_le_right hx (by decide)
  have hleft : leftHalf.bounds.score.xMin = 96 ∧ leftHalf.bounds.score.xMax = 143 := ⟨rfl, rfl⟩
  have hright : rightHalf.bounds.score.xMin = 96 + 320 ∧ rightHalf.bounds.score.xMax = 143 + 320 := ⟨rfl, rfl⟩
  unfold digit
  simp only [hmin, hmax, hdigits, hmin', hmax', hdigits', hi.drawX, hj.drawX, hleft.1, hleft.2, hright.1, hright.2]
  simp only [hle (k := 7) (by decide), hle (k := 15) (by decide), hle (k := 23) (by decide), hle (k := 31) (by decide),
    hle (k := 39) (by decide), hlast]

/-- Where text may be painted, the same bit of the same glyph is read. -/
theorem textBit_mirror (h : (scoreArea i || holdArea i || nextArea i) = true) : textBit roms j = textBit roms i := by
  have haddr : addr j = addr i := by
    unfold addr
    rw [nextArea_mirror hi hj hx, holdArea_mirror hi hj hx]
    by_cases hnext : nextArea i = true
    · rw [if_pos hnext, if_pos hnext, nextFontAddr, nextFontAddr, hi.next, hj.next]
      exact wordAddr_mirror hi hj hx (b := next1) (by decide) (by decide) (by decide) (by decide) ..
    rw [if_neg hnext, if_neg hnext]
    by_cases hhold : holdArea i = true
    · rw [if_pos hhold, if_pos hhold, holdFontAddr, holdFontAddr, hi.hold, hj.hold]
      exact wordAddr_mirror hi hj hx (b := hold1) (by decide) (by decide) (by decide) (by decide) ..
    have hscore : scoreArea i = true := by simpa [hnext, hhold] using h
    rw [if_neg hhold, if_neg hhold, addrOffset, addrOffset, digit_mirror hi hj hx hscore, hi.drawY, hj.drawY]
  unfold textBit
  rw [haddr, dataIdx_mirror hi hj hx]

/-! ## Sprites -/

/-- Outside the extra column both halves draw the same piece. -/
theorem blockType_mirror (hextra : ¬ ExtraColumn x y) : blockType j = blockType i := by
  have hhold : spriteHold2.Contains (x + 320) y ↔ spriteHold1.Contains x y :=
    (contains_spriteHold2 hx).trans (or_iff_left hextra)
  have hnext := contains_spriteNext2 (y := y) hx
  have hplay := playArea_mirror hi hj hx
  have hpixel : playArea i = true → (if j.one.playArea then j.one.blockType else j.two.blockType) =
      if i.one.playArea then i.one.blockType else i.two.blockType := fun h => by
    rw [hi.pixel (hi.playArea ▸ h), hj.pixel (by rw [← hj.playArea, hplay, h])]
  unfold blockType
  rw [hplay, hi.spriteHold, hj.spriteHold, hi.spriteNext, hj.spriteNext, hi.drawX, hj.drawX, hi.drawY, hj.drawY,
    hi.held, hj.held, hi.idx, hj.idx]
  show (if playArea i then _ else if spriteHold2.Contains (x + 320) y then _
    else if spriteNext2.Contains (x + 320) y then _ else _) = _
  rw [if_congr hhold rfl (if_congr hnext rfl rfl)]
  by_cases h : playArea i = true
  · rw [if_pos h, if_pos h, hpixel h]
  · rw [if_neg h, if_neg h]
    rfl

/-- Outside the extra column both halves select the same pixels of a preview. -/
theorem validNsprite_mirror (hextra : ¬ ExtraColumn x y) : validNsprite j = validNsprite i := by
  unfold validNsprite
  simp only
  rw [blockType_mirror hi hj hx hextra, hi.spriteHold, hj.spriteHold, hi.spriteNext, hj.spriteNext, hi.drawX, hj.drawX,
    hi.drawY, hj.drawY]
  show (if _ then inShape spriteNext2 _ _ _ else inShape spriteHold2 _ _ _) = _
  rw [inShape_spriteNext2 hx, inShape_spriteHold2 hx hextra]
  rfl

variable (roms) in
theorem layer_mirror (hextra : ¬ ExtraColumn x y) : layer roms j = layer roms i := by
  unfold layer
  rw [playArea_mirror hi hj hx, scoreArea_mirror hi hj hx, holdArea_mirror hi hj hx, nextArea_mirror hi hj hx,
    validNsprite_mirror hi hj hx hextra]
  by_cases harea : (scoreArea i || holdArea i || nextArea i) = true
  · rw [textBit_mirror hi hj hx harea]
  · rw [Bool.eq_false_iff.2 harea, Bool.false_and, Bool.false_and]

end Pair

/-! ## Addresses -/

/-- A region that starts 320 columns further right has the same addresses there. -/
theorem tileAddr_right {b b' : Box} (hleft : b'.xMin.toNat = b.xMin.toNat + 320) (htop : b'.yMin = b.yMin)
    (hx : x.toNat < 320) : tileAddr b' (x + 320) y = tileAddr b x y := by
  unfold tileAddr
  rw [Box.toNat_right hx, hleft, htop, Nat.add_sub_add_right]

/-- A sprite outside the field belongs to a preview. -/
theorem contains_of_sprite (hi : Draws leftHalf p x y c i) (h : layer roms i = .sprite) :
    spriteHold1.Contains x y ∨ spriteNext1.Contains x y := by
  unfold layer at h
  split_ifs at h with hplay htext hvalid
  rw [validHsprite, Bool.or_false] at hvalid
  by_contra hout
  rw [not_or] at hout
  have hempty : blockType i = .empty := by
    unfold blockType
    rw [if_neg hplay, hi.spriteHold, hi.spriteNext, hi.drawX, hi.drawY]
    exact (if_neg hout.1).trans (if_neg hout.2)
  -- a pixel of neither box is tested against the tiles of an `EMPTY` piece, which are the bar's
  have hshape : inShape spriteNext1 .empty x y = true := by
    unfold validNsprite at hvalid
    simp only at hvalid
    rw [if_pos hempty, hempty, hi.spriteNext, hi.drawX, hi.drawY] at hvalid
    exact hvalid
  obtain ⟨⟨h1, h2⟩, h3, hrow⟩ := (inShape_bar (fits_preview (by simp [previews])) (.inl rfl)).1 hshape
  refine hout.2 ⟨h1, h3, h2, BitVec.le_def.2 ?_⟩
  have hrow : (y.toNat - 60) / 20 = 0 := hrow
  show y.toNat ≤ 99
  omega

/-- With aligned counters a sprite is read at the same address on both halves. -/
theorem spriteAddr_mirror {c2 c2' : DrawCounters} {q q' : Player} (hx : x.toNat < 320) (hc : DrawLogic.Aligned x y c)
    (hc' : DrawLogic.Aligned (x + 320) y c')
    (h : layer roms (mapperIn x y c c2 p q) = .board ∨ layer roms (mapperIn x y c c2 p q) = .sprite) :
    spriteAddr (mapperIn (x + 320) y c' c2' q' p) = spriteAddr (mapperIn x y c c2 p q) := by
  have hi : Draws leftHalf p x y c (mapperIn x y c c2 p q) := draws_left hx c c2 p q
  have hge : 320 ≤ (x + 320).toNat := by rw [Box.toNat_right hx]; omega
  have hj : Draws rightHalf p (x + 320) y c' (mapperIn (x + 320) y c' c2' q' p) := draws_right hge c' c2' q' p
  refine BitVec.eq_of_toNat_eq ?_
  rcases h with h | h
  · have hplay : playArea (mapperIn x y c c2 p q) = true := by
      unfold layer at h
      split_ifs at h with hplay
      exact hplay
    have hplay' := (playArea_mirror hi hj hx).trans hplay
    rw [hi.playArea] at hplay
    rw [hj.playArea] at hplay'
    rw [spriteAddr_play hc (b := bounds1) (by simp) hplay, spriteAddr_play hc' (b := bounds2) (by simp) hplay']
    exact tileAddr_right rfl rfl hx
  · -- other sprites are read in the previews, and those have their places on the right half
    rcases contains_of_sprite hi h with hin | hin
    · rw [spriteAddr_preview hc (b := spriteHold1) (by simp [previews]) hin,
        spriteAddr_preview hc' (b := spriteHold2) (by simp [previews]) ((contains_spriteHold2 hx).2 (.inl hin))]
      exact tileAddr_right rfl rfl hx
    · rw [spriteAddr_preview hc (b := spriteNext1) (by simp [previews]) hin,
        spriteAddr_preview hc' (b := spriteNext2) (by simp [previews]) ((contains_spriteNext2 hx).2 hin)]
      exact tileAddr_right rfl rfl hx

/-! ## The two halves -/

theorem quiet_of_extra (hextra : ExtraColumn x y) : Quiet leftHalf x y ∧ Quiet rightHalf (x + 320) y := by
  have hx := hextra.1
  have hx' : (x + 320).toNat = 630 := by rw [Box.toNat_right (by omega), hx]
  refine ⟨⟨.inl rfl, BitVec.lt_def.2 ?_, .inr hextra.2.1⟩, ⟨.inr rfl, BitVec.lt_def.2 ?_, .inr hextra.2.1⟩⟩
  · show 219 < x.toNat
    omega
  · show 539 < (x + 320).toNat
    omega

variable (roms) in
/-- In the extra column the left half shows the background. -/
theorem layer_left_of_extra (hi : Draws leftHalf p x y c i) (hextra : ExtraColumn x y) :
    layer roms i = .background := by
  have hq := (quiet_of_extra hextra).1
  obtain ⟨hx, hy, -⟩ := hextra
  have hhold : ¬ spriteHold1.Contains x y := fun hin => by have : x.toNat ≤ 309 := hin.2.1; omega
  have hnext : ¬ spriteNext1.Contains x y := fun hin => by have : x.toNat ≤ 309 := hin.2.1; omega
  have hempty : blockType i = .empty := by
    rw [blockType_of_quiet hi hq]
    exact (if_neg hhold).trans (if_neg hnext)
  have hshape : ¬ inShape spriteNext1 .empty x y = true := fun hs => by
    have : x.toNat ≤ 309 := ((inShape_bar (fits_preview (by simp [previews])) (.inl rfl)).1 hs).2.1
    omega
  rw [layer_of_quiet hi hq, validNsprite_of_draws hi, if_pos hempty]
  exact if_neg hshape

/-- Of all pieces only the bar reaches the extra column, with its one row of tiles. -/
theorem inShape_extra (hextra : ExtraColumn x y) {d : BlockColor} (hd : d ≠ .empty) :
    inShape spriteHold2 d (x + 320) y = true ↔ d = .cyan ∧ y.toNat ≤ 159 := by
  obtain ⟨hx, hy, -⟩ := hextra
  have hx' : (x + 320).toNat = 630 := by rw [Box.toNat_right (by omega), hx]
  have htile : tileOf spriteHold2 (x + 320) y = (4, (y.toNat - 140) / 20) := by
    unfold tileOf
    rw [hx']
    rfl
  have hfits : Fits spriteHold2 := fits_preview (by simp [previews])
  by_cases hcyan : d = .cyan
  · have hmin : spriteHold2.xMin ≤ x + 320 := BitVec.le_def.2 (by rw [hx']; decide)
    have hmax : x + 320 ≤ spriteHold2.xMax := BitVec.le_def.2 (by rw [hx']; decide)
    have htop : spriteHold2.yMin ≤ y := hy
    rw [hcyan, inShape_bar hfits (.inr rfl), htile]
    constructor
    · rintro ⟨-, -, hrow⟩
      exact ⟨rfl, by simp only at hrow; omega⟩
    · rintro ⟨-, hrow⟩
      exact ⟨⟨hmin, htop⟩, hmax, by simp only; omega⟩
  · -- no other piece reaches the fifth tile
    have hspans : (tileSpans d).1.2 ≤ 2 ∧ (tileSpans d).2.2 ≤ 2 := by cases d <;> decide
    rw [inShape_iff_tile someReads hfits hd hcyan, htile, mem_previewTiles someReads hd hcyan]
    refine iff_of_false (fun h => ?_) fun h => hcyan h.1
    omega

variable (roms) in
/-- In the extra column the right half shows the upper row of a bar. -/
theorem layer_right_of_extra (hj : Draws rightHalf p (x + 320) y c j) (hextra : ExtraColumn x y) :
    layer roms j = if p.heldBlock = .cyan ∧ y.toNat ≤ 159 then .sprite else .background := by
  have hq := (quiet_of_extra hextra).2
  have hlt : x.toNat < 320 := by have := hextra.1; omega
  have hheld : blockType j = p.heldBlock := by
    rw [blockType_of_quiet hj hq]
    exact if_pos ((contains_spriteHold2 hlt).2 (.inr hextra))
  rw [layer_of_quiet hj hq, validNsprite_of_draws hj, hheld]
  by_cases hempty : p.heldBlock = .empty
  · -- without a piece the shape of the next box is asked for, which lies in other rows
    have hshape : ¬ inShape spriteNext2 .empty (x + 320) y = true := fun hs => by
      have hy := hextra.2.1
      have hrow : (y.toNat - 60) / 20 = 0 := ((inShape_bar (fits_preview (by simp [previews])) (.inl rfl)).1 hs).2.2
      omega
    have hbar : ¬ (p.heldBlock = .cyan ∧ y.toNat ≤ 159) := fun h => by rw [hempty] at h; cases h.1
    rw [if_pos hempty]
    exact (if_neg hshape).trans (if_neg hbar).symm
  · rw [if_neg hempty]
    exact if_congr (inShape_extra hextra hempty) rfl rfl

/-- A pixel of the right half is painted as the same pixel of the left half is, foreground for
foreground and in the same colour; only the background may differ. -/
def Alike (roms : Roms) (i j : In) : Prop :=
  (layer roms i ≠ .background ↔ layer roms j ≠ .background) ∧ (layer roms i ≠ .background → rgb roms i = rgb roms j)

/-- In the extra column the halves are painted alike unless the right one shows a bar there. -/
theorem alike_extra_iff (hi : Draws leftHalf p x y c i) (hj : Draws rightHalf p (x + 320) y c' j)
    (hextra : ExtraColumn x y) : Alike roms i j ↔ ¬ (p.heldBlock = .cyan ∧ y.toNat ≤ 159) := by
  unfold Alike
  rw [layer_left_of_extra roms hi hextra, layer_right_of_extra roms hj hextra]
  split_ifs with hbar <;> simp [hbar]

/-- Outside the extra column they are painted alike. -/
theorem alike_of_not_extra {c2 c2' : DrawCounters} {q q' : Player} (hx : x.toNat < 320)
    (hc : DrawLogic.Aligned x y c) (hc' : DrawLogic.Aligned (x + 320) y c') (hextra : ¬ ExtraColumn x y)
    (hi : Draws leftHalf p x y c (mapperIn x y c c2 p q))
    (hj : Draws rightHalf p (x + 320) y c' (mapperIn (x + 320) y c' c2' q' p)) :
    Alike roms (mapperIn x y c c2 p q) (mapperIn (x + 320) y c' c2' q' p) := by
  have hlayer := layer_mirror roms hi hj hx hextra
  refine ⟨by rw [hlayer], fun hfore => ?_⟩
  have hsprite : layer roms (mapperIn x y c c2 p q) = .board ∨ layer roms (mapperIn x y c c2 p q) = .sprite →
      curSprite roms (mapperIn x y c c2 p q) = curSprite roms (mapperIn (x + 320) y c' c2' q' p) := fun h => by
    unfold curSprite
    rw [blockType_mirror hi hj hx hextra, spriteAddr_mirror hx hc hc' h]
  unfold rgb
  rw [hlayer]
  cases hl : layer roms (mapperIn x y c c2 p q) with
  | board => exact congrArg Rgb.ofSprite (hsprite (.inl hl))
  | text => rfl
  | sprite => exact congrArg Rgb.ofSprite (hsprite (.inr hl))
  | background => exact absurd hl hfore

/-- With the same inputs for player 2 as for player 1, both halves of the screen are drawn alike except
for the extra column while a bar is held. -/
theorem halves_alike_iff (roms : Roms) {c2 c2' : DrawCounters} (p q q' : Player) (hx : x.toNat < 320)
    (hc : DrawLogic.Aligned x y c) (hc' : DrawLogic.Aligned (x + 320) y c') :
    Alike roms (mapperIn x y c c2 p q) (mapperIn (x + 320) y c' c2' q' p) ↔
      ¬ (x.toNat = 310 ∧ (140 ≤ y.toNat ∧ y.toNat ≤ 159) ∧ p.heldBlock = .cyan) := by
  have hi : Draws leftHalf p x y c (mapperIn x y c c2 p q) := draws_left hx c c2 p q
  have hge : 320 ≤ (x + 320).toNat := by rw [Box.toNat_right hx]; omega
  have hj : Draws rightHalf p (x + 320) y c' (mapperIn (x + 320) y c' c2' q' p) := draws_right hge c' c2' q' p
  by_cases hextra : ExtraColumn x y
  · rw [alike_extra_iff hi hj hextra, not_iff_not]
    exact ⟨fun h => ⟨hextra.1, ⟨hextra.2.1, h.2⟩, h.1⟩, fun h => ⟨h.2.2, h.2.1.2⟩⟩
  · exact iff_of_true (alike_of_not_extra hx hc hc' hextra hi hj) fun h =>
      hextra ⟨h.1, h.2.1.1, le_trans h.2.1.2 (by decide)⟩

/-- Tables with a blank font and the first pixel of the bar's sprite everywhere. -/
def flatRoms : Roms := ⟨fun _ => 0, fun _ _ => 19, fun _ => 0⟩

/-- A player who holds a piece. -/
def holding (c : BlockColor) : Player := ⟨.empty, 0, 0, c⟩

/-- A held T piece: the middle of its upper tile. -/
theorem halves_alike_magenta :
    Alike flatRoms (mapperIn 260 150 ⟨0, 10⟩ ⟨0, 0⟩ (holding .magenta) (holding .red))
      (mapperIn 580 150 ⟨0, 10⟩ ⟨0, 0⟩ (holding .red) (holding .magenta)) :=
  (halves_alike_iff flatRoms (x := 260) (y := 150) (holding .magenta) (holding .red) (holding .red) (by decide)
    (fun _ => by decide) (fun _ => by decide)).2 (by decide)

/-- A held bar is one column wider on the right half: a pixel of it where the left half shows the
background. -/
theorem extra_column_painted :
    DrawLogic.Aligned 310 140 ⟨10, 0⟩ ∧ DrawLogic.Aligned 630 140 ⟨10, 0⟩ ∧
      layer flatRoms (mapperIn 310 140 ⟨10, 0⟩ ⟨10, 0⟩ (holding .cyan) (holding .cyan)) = .background ∧
      rgb flatRoms (mapperIn 630 140 ⟨10, 0⟩ ⟨10, 0⟩ (holding .cyan) (holding .cyan)) = ⟨0x65, 0xB0, 0xFF⟩ ∧
      ¬ Alike flatRoms (mapperIn 310 140 ⟨10, 0⟩ ⟨10, 0⟩ (holding .cyan) (holding .cyan))
        (mapperIn 630 140 ⟨10, 0⟩ ⟨10, 0⟩ (holding .cyan) (holding .cyan)) := by
  have hleft : layer flatRoms (mapperIn 310 140 ⟨10, 0⟩ ⟨10, 0⟩ (holding .cyan) (holding .cyan)) = .background := by
    decide
  have hright : layer flatRoms (mapperIn 630 140 ⟨10, 0⟩ ⟨10, 0⟩ (holding .cyan) (holding .cyan)) = .sprite := by
    decide
  refine ⟨fun _ => by decide, fun _ => by decide, hleft, by decide, fun h => ?_⟩
  exact h.1.2 (by rw [hright]; decide) hleft

end Screen

end FpgaTetris
