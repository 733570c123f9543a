/-
The draw counters follow the beam: from a reset on, in each of the two games, they hold the place of
the pixel in its 20×20 tile, so a sprite is read at the address of the pixel in its tile.
-/
import FpgaTetris.Lib.Cyclic
import FpgaTetris.Screen.Half

namespace FpgaTetris

/-! ## The beam -/

namespace VgaController

/-- The beam is on the raster. -/
structure OnRaster (s : VgaController) : Prop where
  x : s.drawX.toNat < 800
  y : s.drawY.toNat < 525

variable {s : VgaController}

/-- The beam goes on to the next pixel of its line, and from the end of a line to its start. -/
theorem next_drawX (h : s.OnRaster) :
    (s.next false).drawX.toNat = if s.drawX.toNat + 1 = 800 then 0 else s.drawX.toNat + 1 := by
  have hx : s.hCounter.toNat + 1 < 2 ^ 10 := lt_trans (Nat.succ_lt_succ h.x) (by decide)
  exact Cyclic.toNat_clear hx

/-- At the end of a line the beam goes on to the next line, and from the last line to the first. -/
theorem next_drawY (h : s.OnRaster) :
    (s.next false).drawY.toNat =
      if s.drawX.toNat + 1 = 800 then if s.drawY.toNat + 1 = 525 then 0 else s.drawY.toNat + 1
      else s.drawY.toNat := by
  have hx : s.hCounter.toNat + 1 < 2 ^ 10 := lt_trans (Nat.succ_lt_succ h.x) (by decide)
  have hy : s.vCounter.toNat + 1 < 2 ^ 10 := lt_trans (Nat.succ_lt_succ h.y) (by decide)
  have hend : s.hCounter + 1 = hTotal ↔ s.drawX.toNat + 1 = 800 := by
    rw [← BitVec.toNat_inj, Cyclic.toNat_add_one hx]
    rfl
  show (vCounterIn s).toNat = _
  unfold vCounterIn
  by_cases hlast : s.hCounter + 1 = hTotal
  · rw [if_pos hlast, if_pos (hend.1 hlast)]
    exact Cyclic.toNat_clear hy
  · rw [if_neg hlast, if_neg (mt hend.2 hlast)]
    rfl

theorem OnRaster.next (h : s.OnRaster) : (s.next false).OnRaster := by
  have hx := h.x
  have hy := h.y
  constructor
  · rw [next_drawX h]; split_ifs <;> omega
  · rw [next_drawY h]; split_ifs <;> omega

end VgaController

/-! ## The counters -/

namespace DrawLogic

/-- The counters in step with the beam at `(x, y)`: inside the band they hold the place of the pixel in
its tile, and to the right of it the line has been counted already. -/
structure InStep (x y : ℕ) (c : DrawCounters) : Prop where
  xdraw : c.xdrawCounter.toNat = if (20 ≤ x ∧ x ≤ 639) ∧ (40 ≤ y ∧ y ≤ 439) then (x - 20) % 20 else 0
  ydraw : c.ydrawCounter.toNat =
    if 40 ≤ y ∧ y ≤ 439 then if x ≤ 639 then (y - 40) % 20 else (y - 39) % 20 else 0

/-- The field of an instance: rows 40 to 439, from a column that starts a tile of the band. -/
structure Field (b : Bounds) : Prop where
  yMin : b.play.yMin = 40
  yMax : b.play.yMax = 439
  xMin : b.play.xMin = 20 ∨ b.play.xMin = 340

variable {b : Bounds} {c : DrawCounters} {x y : BitVec 10}

theorem inBand_iff (hb : Field b) : InBand b x y ↔ (20 ≤ x.toNat ∧ x.toNat ≤ 639) ∧ (40 ≤ y.toNat ∧ y.toNat ≤ 439) := by
  unfold InBand
  rw [hb.yMin, hb.yMax]
  bv_omega

/-- The corner of the field is the start of a tile in the first row of tiles. -/
theorem corner_toNat (hb : Field b) (h : x = b.play.xMin ∧ y = b.play.yMin) :
    (x.toNat = 20 ∨ x.toNat = 340) ∧ y.toNat = 40 := by
  obtain ⟨rfl, rfl⟩ := h
  rw [hb.yMin]
  rcases hb.xMin with hmin | hmin
  · exact ⟨.inl (congrArg BitVec.toNat hmin), rfl⟩
  · exact ⟨.inr (congrArg BitVec.toNat hmin), rfl⟩

/-- In the band the first counter steps with the beam, and the corner of the field agrees with that. -/
theorem xdrawCounterIn_toNat (hb : Field b) (h : InStep x.toNat y.toNat c) :
    (xdrawCounterIn b c x y).toNat =
      if (20 ≤ x.toNat ∧ x.toNat < 639) ∧ (40 ≤ y.toNat ∧ y.toNat ≤ 439) then (x.toNat - 19) % 20 else 0 := by
  have hx := h.xdraw
  have hlast : x = 639 ↔ x.toNat = 639 := BitVec.toNat_inj.symm
  unfold xdrawCounterIn
  by_cases hband : InBand b x y
  · have hin := (inBand_iff hb).1 hband
    rw [if_pos hin] at hx
    rw [if_pos hband]
    -- the corner of the field sets the counter, which has come to that value anyway
    by_cases hcorner : x = b.play.xMin ∧ y = b.play.yMin
    · obtain ⟨hx', -⟩ := corner_toNat hb hcorner
      rw [if_pos hcorner, if_pos (by omega)]
      show 1 = _
      omega
    rw [if_neg hcorner]
    by_cases hend : x = 639
    · have hx' := hlast.1 hend
      rw [if_pos hend, if_neg (by omega)]
      rfl
    · have hx' := mt hlast.2 hend
      rw [if_neg hend, Cyclic.toNat_wrap (n := hplayTotal) hx, if_pos (by omega)]
      show _ % 20 = _
      omega
  · have hout := mt (inBand_iff hb).2 hband
    rw [if_neg hout] at hx
    rw [if_neg hband, hx, if_neg (by omega)]

/-- The second counter steps at the end of each line of the band. -/
theorem ydrawCounterIn_toNat (hb : Field b) (h : InStep x.toNat y.toNat c) :
    (ydrawCounterIn b c x y).toNat =
      if 40 ≤ y.toNat ∧ y.toNat ≤ 439 then if x.toNat < 639 then (y.toNat - 40) % 20 else (y.toNat - 39) % 20
      else 0 := by
  have hy := h.ydraw
  have hlast : x = 639 ↔ x.toNat = 639 := BitVec.toNat_inj.symm
  unfold ydrawCounterIn
  by_cases hband : InBand b x y
  · have hin := (inBand_iff hb).1 hband
    rw [if_pos hin.2, if_pos hin.1.2] at hy
    rw [if_pos hband, if_pos hin.2]
    by_cases hcorner : x = b.play.xMin ∧ y = b.play.yMin
    · obtain ⟨hx', hy'⟩ := corner_toNat hb hcorner
      rw [if_pos hcorner, if_pos (by omega), hy']
      rfl
    rw [if_neg hcorner]
    -- the counter steps at the end of a line only
    by_cases hend : x = 639
    · have hx' := hlast.1 hend
      rw [if_pos hend, Cyclic.toNat_wrap (n := vplayTotal) hy, if_neg (by omega)]
      show _ % 20 = _
      omega
    · have hx' := mt hlast.2 hend
      rw [if_neg hend, hy, if_pos (by omega)]
  · have hout := mt (inBand_iff hb).2 hband
    rw [if_neg hband, hy]
    split_ifs <;> omega

/-- The counters stay in step. -/
theorem InStep.next (hb : Field b) {v : VgaController} (hv : v.OnRaster) (h : InStep v.drawX.toNat v.drawY.toNat c) :
    InStep (v.next false).drawX.toNat (v.next false).drawY.toNat (DrawLogic.next b c v.drawX v.drawY false) := by
  have hx := hv.x
  have hy := hv.y
  constructor
  · show (xdrawCounterIn b c v.drawX v.drawY).toNat = _
    rw [xdrawCounterIn_toNat hb h, VgaController.next_drawX hv, VgaController.next_drawY hv]
    split_ifs <;> omega
  · show (ydrawCounterIn b c v.drawX v.drawY).toNat = _
    rw [ydrawCounterIn_toNat hb h, VgaController.next_drawX hv, VgaController.next_drawY hv]
    split_ifs <;> omega

theorem InStep.reset : InStep 0 0 ⟨0, 0⟩ := ⟨rfl, rfl⟩

/-- In the band the counters hold the place of the pixel in its tile. -/
def Aligned (x y : BitVec 10) (c : DrawCounters) : Prop :=
  (20 ≤ x.toNat ∧ x.toNat ≤ 639) ∧ (40 ≤ y.toNat ∧ y.toNat ≤ 439) →
    c.xdrawCounter.toNat = (x.toNat - 20) % 20 ∧ c.ydrawCounter.toNat = (y.toNat - 40) % 20

theorem InStep.aligned (h : InStep x.toNat y.toNat c) : Aligned x y c := by
  intro hband
  have hx := h.xdraw
  have hy := h.ydraw
  rw [if_pos hband] at hx
  rw [if_pos hband.2, if_pos hband.1.2] at hy
  exact ⟨hx, hy⟩

/-- The board cell of a pixel of the field. -/
theorem coords_toNat (hb : Field b) (hx : b.play.xMax.toNat = b.play.xMin.toNat + 199)
    (h : playArea b x y = true) :
    (xCoord b x y).toNat = (x.toNat - b.play.xMin.toNat) / 20 ∧ (xCoord b x y).toNat < 10 ∧
      (yCoord b x y).toNat = (y.toNat - b.play.yMin.toNat) / 20 ∧ (yCoord b x y).toNat < 20 := by
  obtain ⟨h1, h2, h3, h4⟩ := of_decide_eq_true h
  have hy : b.play.yMax.toNat = b.play.yMin.toNat + 399 := by rw [hb.yMin, hb.yMax]; rfl
  have hcoord : ∀ {lo v : BitVec 10}, lo ≤ v → v.toNat < lo.toNat + 400 →
      (((v - lo) / 20).setWidth 5).toNat = (v.toNat - lo.toNat) / 20 := by
    intro lo v hle hlt
    rw [BitVec.toNat_setWidth, BitVec.toNat_udiv, BitVec.toNat_sub_of_le hle]
    exact Nat.mod_eq_of_lt (show _ / 20 < 32 by omega)
  rw [BitVec.le_def] at h2 h4
  have hxc : (xCoord b x y).toNat = (x.toNat - b.play.xMin.toNat) / 20 := by
    rw [xCoord, if_pos h]; exact hcoord h1 (by omega)
  have hyc : (yCoord b x y).toNat = (y.toNat - b.play.yMin.toNat) / 20 := by
    rw [yCoord, if_pos h]; exact hcoord h3 (by omega)
  exact ⟨hxc, by omega, hyc, by omega⟩

end DrawLogic

/-! ## Sprite addresses -/

/-- The address of a pixel in the 20×20 tile of a region it lies in. -/
def tileAddr (box : Box) (x y : BitVec 10) : ℕ :=
  20 * ((y.toNat - box.yMin.toNat) % 20) + (x.toNat - box.xMin.toNat) % 20

theorem tileAddr_lt (box : Box) (x y : BitVec 10) : tileAddr box x y < 400 := by
  unfold tileAddr
  omega

namespace BlockColorMapper

theorem toNat_row_add {row col : BitVec 10} (hrow : row.toNat < 20) (hcol : col.toNat < 20) :
    (row * 20 + col).toNat = 20 * row.toNat + col.toNat := by
  rw [BitVec.toNat_add, BitVec.toNat_mul]
  show (row.toNat * 20 % 1024 + col.toNat) % 1024 = _
  omega

variable {i : In}

/-- The previews lie half a tile off the tiles of the fields. -/
theorem nhOffset_toNat (h : (counters i).xdrawCounter.toNat < 20) :
    ((nhOffset i).setWidth 10).toNat = ((counters i).xdrawCounter.toNat + 10) % 20 := by
  unfold nhOffset
  simp only
  generalize (counters i).xdrawCounter = xdraw at *
  by_cases hten : 10 ≤ xdraw
  · have hle : 10 ≤ xdraw.toNat := BitVec.le_def.1 hten
    rw [if_pos hten, BitVec.toNat_setWidth, BitVec.toNat_setWidth, BitVec.toNat_sub_of_le hten]
    show (xdraw.toNat - 10) % 32 % 1024 = _
    omega
  · have hlt : xdraw.toNat < 10 := Nat.lt_of_not_le fun hle => hten (BitVec.le_def.2 hle)
    rw [if_neg hten, BitVec.toNat_setWidth, BitVec.toNat_setWidth, BitVec.toNat_add]
    show (xdraw.toNat + 10) % 1024 % 32 % 1024 = _
    omega

variable (hx : (counters i).xdrawCounter.toNat < 20) (hy : (counters i).ydrawCounter.toNat < 20)

include hx hy

theorem spriteAddr_of_play (h : playArea i = true) :
    (spriteAddr i).toNat = 20 * (counters i).ydrawCounter.toNat + (counters i).xdrawCounter.toNat := by
  unfold spriteAddr
  simp only
  rw [if_pos h]
  exact toNat_row_add hy hx

theorem spriteAddr_of_box (h : playArea i = false)
    (hbox : (spriteHold i).Contains i.drawX i.drawY ∨ (spriteNext i).Contains i.drawX i.drawY) :
    (spriteAddr i).toNat =
      20 * (counters i).ydrawCounter.toNat + ((counters i).xdrawCounter.toNat + 10) % 20 := by
  have hcol := nhOffset_toNat hx
  have haddr : spriteAddr i = (counters i).ydrawCounter * 20 + (nhOffset i).setWidth 10 := by
    unfold spriteAddr
    simp only
    rw [if_neg (by simp [h])]
    by_cases hhold : (spriteHold i).Contains i.drawX i.drawY
    · rw [if_pos hhold]
    · rw [if_neg hhold, if_pos (hbox.resolve_left hhold)]
  rw [haddr, toNat_row_add hy (by omega), hcol]

end BlockColorMapper

namespace Screen

open BlockColorMapper

variable {x y : BitVec 10} {c c1 c2 : DrawCounters} {p1 p2 : Player}

theorem field_bounds {b : DrawLogic.Bounds} (hb : b ∈ [bounds1, bounds2]) :
    DrawLogic.Field b ∧ b.play.xMax.toNat = b.play.xMin.toNat + 199 := by
  simp only [List.mem_cons, List.not_mem_nil, or_false] at hb
  rcases hb with rfl | rfl
  · exact ⟨⟨rfl, rfl, .inl rfl⟩, rfl⟩
  · exact ⟨⟨rfl, rfl, .inr rfl⟩, rfl⟩

/-- With aligned counters a pixel of a field is read at its place in its tile. -/
theorem spriteAddr_play (hc : DrawLogic.Aligned x y c1) {b : DrawLogic.Bounds} (hb : b ∈ [bounds1, bounds2])
    (h : DrawLogic.playArea b x y = true) :
    (spriteAddr (mapperIn x y c1 c2 p1 p2)).toNat = tileAddr b.play x y := by
  obtain ⟨hfield, hmax⟩ := field_bounds hb
  have hplay : playArea (mapperIn x y c1 c2 p1 p2) = true := by
    simp only [List.mem_cons, List.not_mem_nil, or_false] at hb
    rcases hb with rfl | rfl
    · exact Bool.or_eq_true_iff.2 (.inl h)
    · exact Bool.or_eq_true_iff.2 (.inr h)
  obtain ⟨h1, h2, h3, h4⟩ := of_decide_eq_true h
  have hleft : b.play.xMin.toNat = 20 ∨ b.play.xMin.toNat = 340 :=
    hfield.xMin.imp (congrArg BitVec.toNat) (congrArg BitVec.toNat)
  have htop : b.play.yMin.toNat = 40 := congrArg BitVec.toNat hfield.yMin
  have hbottom : b.play.yMax.toNat = 439 := congrArg BitVec.toNat hfield.yMax
  rw [BitVec.le_def] at h1 h2 h3 h4
  obtain ⟨hxc, hyc⟩ := hc ⟨⟨by omega, by omega⟩, ⟨by omega, by omega⟩⟩
  have haddr := spriteAddr_of_play (i := mapperIn x y c1 c2 p1 p2) (show c1.xdrawCounter.toNat < 20 by omega)
    (show c1.ydrawCounter.toNat < 20 by omega) hplay
  rw [haddr, tileAddr, htop]
  show 20 * c1.ydrawCounter.toNat + c1.xdrawCounter.toNat = _
  omega

/-- The boxes in which the pieces are previewed. -/
def previews : List Box := [spriteHold1, spriteHold2, spriteNext1, spriteNext2]

theorem preview_bounds {box : Box} (hbox : box ∈ previews) :
    (box.xMin.toNat = 230 ∧ box.xMax.toNat = 309 ∨ box.xMin.toNat = 550 ∧ box.xMax.toNat ≤ 630) ∧
      (box.yMin.toNat = 60 ∨ box.yMin.toNat = 140) ∧ box.yMax.toNat = box.yMin.toNat + 39 := by
  simp only [previews, List.mem_cons, List.not_mem_nil, or_false] at hbox
  rcases hbox with rfl | rfl | rfl | rfl <;> decide

/-- A pixel of a preview is drawn from the half it lies on, to the right of the field. -/
theorem draws_preview {b : Box} (hbox : b ∈ previews) (h : b.Contains x y) (c1 c2 : DrawCounters) (p1 p2 : Player) :
    ∃ half p, Draws half p x y c1 (mapperIn x y c1 c2 p1 p2) ∧ (b = half.spriteHold ∨ b = half.spriteNext) ∧
      half.bounds.play.xMax < x := by
  have hhalf : (219 < x.toNat ∧ x.toNat < 320) ∧ (b = leftHalf.spriteHold ∨ b = leftHalf.spriteNext) ∨
      539 < x.toNat ∧ (b = rightHalf.spriteHold ∨ b = rightHalf.spriteNext) := by
    have hleft : 230 ≤ x.toNat → x.toNat ≤ 309 → 219 < x.toNat ∧ x.toNat < 320 := by omega
    have hright : 550 ≤ x.toNat → 539 < x.toNat := by omega
    simp only [previews, List.mem_cons, List.not_mem_nil, or_false] at hbox
    rcases hbox with rfl | rfl | rfl | rfl
    · exact .inl ⟨hleft h.1 h.2.1, .inl rfl⟩
    · exact .inr ⟨hright h.1, .inl rfl⟩
    · exact .inl ⟨hleft h.1 h.2.1, .inr rfl⟩
    · exact .inr ⟨hright h.1, .inr rfl⟩
  rcases hhalf with ⟨hx, hb⟩ | ⟨hx, hb⟩
  · exact ⟨leftHalf, p1, draws_left hx.2 c1 c2 p1 p2, hb, BitVec.lt_def.2 hx.1⟩
  · exact ⟨rightHalf, p2, draws_right (by omega) c1 c2 p1 p2, hb, BitVec.lt_def.2 hx⟩

/-- With aligned counters a pixel of a preview is read at its place in its tile. -/
theorem spriteAddr_preview (hc : DrawLogic.Aligned x y c1) {b : Box} (hbox : b ∈ previews)
    (h : b.Contains x y) : (spriteAddr (mapperIn x y c1 c2 p1 p2)).toNat = tileAddr b x y := by
  obtain ⟨half, p, hd, hb, hright⟩ := draws_preview hbox h c1 c2 p1 p2
  have hin : (spriteHold (mapperIn x y c1 c2 p1 p2)).Contains x y ∨
      (spriteNext (mapperIn x y c1 c2 p1 p2)).Contains x y := by
    rw [hd.spriteHold, hd.spriteNext]
    rcases hb with rfl | rfl
    · exact .inl h
    · exact .inr h
  obtain ⟨hx, hy, hmax⟩ := preview_bounds hbox
  obtain ⟨h1, h2, h3, h4⟩ := h
  rw [BitVec.le_def] at h1 h2 h3 h4
  obtain ⟨hxc, hyc⟩ := hc ⟨⟨by omega, by omega⟩, ⟨by omega, by omega⟩⟩
  have haddr := spriteAddr_of_box (i := mapperIn x y c1 c2 p1 p2) (show c1.xdrawCounter.toNat < 20 by omega)
    (show c1.ydrawCounter.toNat < 20 by omega) (playArea_of_right hd hright) hin
  rw [haddr, tileAddr]
  -- the previews are half a tile off the tiles that the counter counts
  show 20 * c1.ydrawCounter.toNat + (c1.xdrawCounter.toNat + 10) % 20 = _
  omega

/-! ## Runs -/

/-- The beam is on the raster, and the counters of both games are in step with it. -/
structure Locked (s : Screen) : Prop where
  vga : s.vga.OnRaster
  counters1 : DrawLogic.InStep s.vga.drawX.toNat s.vga.drawY.toNat s.counters1
  counters2 : DrawLogic.InStep s.vga.drawX.toNat s.vga.drawY.toNat s.counters2

theorem Locked.of_reset (s : Screen) : Locked (s.next true) :=
  ⟨⟨show 0 < 800 by decide, show 0 < 525 by decide⟩, .reset, .reset⟩

theorem Locked.next {s : Screen} (h : Locked s) (reset : Bool) : Locked (s.next reset) := by
  cases reset with
  | true => exact .of_reset s
  | false =>
    exact ⟨h.vga.next, h.counters1.next (field_bounds (by simp)).1 h.vga,
      h.counters2.next (field_bounds (by simp)).1 h.vga⟩

theorem locked_keeps : design.Keeps (fun _ reset => reset = true) (fun _ => True) Locked where
  init s reset hr := by subst hr; exact .of_reset s
  step s reset _ h := h.next reset

theorem locked_trace (s : Screen) {inp : ℕ → Bool} {t : ℕ} (h : ∃ a < t, inp a = true) :
    Locked (design.trace s inp t) := by
  obtain ⟨a, hat, ha⟩ := h
  obtain ⟨k, rfl⟩ := Nat.exists_eq_add_of_lt hat
  rw [Nat.add_assoc, Sync.Design.trace_add]
  exact locked_keeps.trace ha (fun _ _ => trivial) (k + 1) (Nat.succ_pos k)

/-- Sprite addressing is locked to the beam. In any cycle after a reset, with the counters of either
game: a pixel of a field or of a preview is read at its place in the tile of that region, and the cell
of a pixel of a field is inside the board. -/
theorem sprite_addr_locked (s : Screen) (inp : ℕ → Bool) {t : ℕ} (h : ∃ a < t, inp a = true) (p1 p2 : Player) :
    let st := design.trace s inp t
    let x := st.vga.drawX
    let y := st.vga.drawY
    (∀ c ∈ [st.counters1, st.counters2], ∀ c2 : DrawCounters,
      let addr := (spriteAddr (mapperIn x y c c2 p1 p2)).toNat
      (∀ b ∈ [bounds1, bounds2], DrawLogic.playArea b x y = true → addr = tileAddr b.play x y ∧ addr < 400) ∧
      (∀ box ∈ previews, box.Contains x y → addr = tileAddr box x y ∧ addr < 400)) ∧
    (∀ b ∈ [bounds1, bounds2], DrawLogic.playArea b x y = true →
      (DrawLogic.xCoord b x y).toNat = (x.toNat - b.play.xMin.toNat) / 20 ∧ (DrawLogic.xCoord b x y).toNat < 10 ∧
      (DrawLogic.yCoord b x y).toNat = (y.toNat - b.play.yMin.toNat) / 20 ∧ (DrawLogic.yCoord b x y).toNat < 20) := by
  intro st x y
  have hlocked : Locked st := locked_trace s h
  refine ⟨fun c hc c2 => ?_, fun b hb hplay => ?_⟩
  · have hal : DrawLogic.Aligned x y c := by
      simp only [List.mem_cons, List.not_mem_nil, or_false] at hc
      rcases hc with rfl | rfl
      · exact hlocked.counters1.aligned
      · exact hlocked.counters2.aligned
    intro addr
    refine ⟨fun b hb hplay => ?_, fun box hbox hin => ?_⟩
    · have haddr : addr = tileAddr b.play x y := spriteAddr_play hal hb hplay
      exact ⟨haddr, haddr ▸ tileAddr_lt _ _ _⟩
    · have haddr : addr = tileAddr box x y := spriteAddr_preview hal hbox hin
      exact ⟨haddr, haddr ▸ tileAddr_lt _ _ _⟩
  · obtain ⟨hfield, hmax⟩ := field_bounds hb
    exact DrawLogic.coords_toNat hfield hmax hplay

/-- After a reset in cycle 0 the beam sweeps the raster, 800 pixels a line and 525 lines a frame. -/
theorem beam_trace (s : Screen) (inp : ℕ → Bool) (h0 : inp 0 = true) (hlow : ∀ t, 0 < t → inp t = false) (n : ℕ) :
    (design.trace s inp (n + 1)).vga.drawX.toNat = n % 800 ∧
      (design.trace s inp (n + 1)).vga.drawY.toNat = n / 800 % 525 := by
  induction n with
  | zero =>
    show (s.vga.next (inp 0)).drawX.toNat = 0 ∧ (s.vga.next (inp 0)).drawY.toNat = 0
    rw [h0]
    exact ⟨rfl, rfl⟩
  | succ n ih =>
    have hv := (locked_trace s ⟨0, Nat.succ_pos n, h0⟩).vga
    show ((design.trace s inp (n + 1)).vga.next (inp (n + 1))).drawX.toNat = _ ∧
      ((design.trace s inp (n + 1)).vga.next (inp (n + 1))).drawY.toNat = _
    rw [hlow _ (Nat.succ_pos n), VgaController.next_drawX hv, VgaController.next_drawY hv, ih.1, ih.2]
    constructor
    · split_ifs <;> omega
    · split_ifs <;> omega

/-- Power-up with the beam in the middle of player 1's field and counters out of step. -/
def midField : Screen := ⟨⟨true, true, true, 100, 100⟩, ⟨7, 7⟩, ⟨9, 9⟩⟩

/-- A player with an empty board. -/
def idlePlayer : Player := ⟨.empty, 0, 0, .empty⟩

/-- The pixel in column 45 of line 63, which is in column 5 and row 3 of a tile of player 1's field. -/
theorem sprite_addr_locked_pixel :
    let st := design.trace midField (fun t => t == 0) (63 * 800 + 45 + 1)
    (spriteAddr (mapperIn st.vga.drawX st.vga.drawY st.counters1 st.counters2 idlePlayer idlePlayer)).toNat = 65 := by
  intro st
  have hbeam := beam_trace midField (fun t => t == 0) rfl (fun t ht => by simp; omega) (63 * 800 + 45)
  have hx : st.vga.drawX.toNat = 45 := hbeam.1
  have hy : st.vga.drawY.toNat = 63 := hbeam.2
  have hplay : DrawLogic.playArea bounds1 st.vga.drawX st.vga.drawY = true := by
    refine decide_eq_true ?_
    show 20 ≤ st.vga.drawX.toNat ∧ st.vga.drawX.toNat ≤ 219 ∧ 40 ≤ st.vga.drawY.toNat ∧ st.vga.drawY.toNat ≤ 439
    omega
  have haddr := ((sprite_addr_locked midField (fun t => t == 0) ⟨0, Nat.succ_pos (63 * 800 + 45), rfl⟩ idlePlayer
    idlePlayer).1 st.counters1 (List.mem_cons_self ..) st.counters2).1 bounds1 (List.mem_cons_self ..) hplay
  rw [haddr.1]
  show 20 * ((st.vga.drawY.toNat - 40) % 20) + (st.vga.drawX.toNat - 20) % 20 = 65
  rw [hx, hy]

end Screen

end FpgaTetris
