/-
The previews of the held and of the next piece, against the spawn shapes they stand for. The held
piece is drawn as its shape, but for one column beside the bar of player 2; the next piece is not
drawn at all, since the second selection of pixels overwrites the first.
-/
import FpgaTetris.Screen.Mirror

namespace FpgaTetris

namespace Screen

open BlockColorMapper

/-! ## The boxes -/

/-- The player a preview belongs to. -/
inductive Owner
  | one
  | two
  deriving DecidableEq, Repr

/-- The piece a preview shows. -/
inductive Slot
  | hold
  | next
  deriving DecidableEq, Repr

def Owner.half : Owner → Half
  | .one => leftHalf
  | .two => rightHalf

def Owner.player (p1 p2 : Player) : Owner → Player
  | .one => p1
  | .two => p2

def Slot.box (o : Owner) : Slot → Box
  | .hold => o.half.spriteHold
  | .next => o.half.spriteNext

/-- The inputs of a player name the piece of colour `c` for a preview: the held colour, or an index of
the spawn tables. -/
def Names (oor : OutOfRange) (p : Player) (c : BlockColor) : Slot → Prop
  | .hold => p.heldBlock = c
  | .next => p.blockIdx ≤ 6 ∧ blockColorChoices oor p.blockIdx = c

/-- The spawn shape of a colour, moved by `d`. -/
def placedShape (oor : OutOfRange) (c : BlockColor) (d : ℤ × ℤ) : Finset (ℤ × ℤ) :=
  (occupied (spawn oor c).1 (spawn oor c).2).image (· + d)

/-- The tiles of a preview: four columns and two rows. -/
def InsideBox (s : Finset (ℤ × ℤ)) : Prop := ∀ q ∈ s, (0 ≤ q.1 ∧ q.1 ≤ 3) ∧ 0 ≤ q.2 ∧ q.2 ≤ 1

/-- The tile of a pixel. -/
def tileInt (b : Box) (x y : BitVec 10) : ℤ × ℤ := ((tileOf b x y).1, (tileOf b x y).2)

/-- A pixel shows the sprite of `c` at the place in its tile. -/
def ShowsSprite (roms : Roms) (b : Box) (c : BlockColor) (i : In) : Prop :=
  layer roms i = .sprite ∧
    rgb roms i = .ofSprite (spriteColor roms c (BitVec.ofNat 10 (tileAddr b i.drawX i.drawY)))

/-- A pixel shows the background gradient. -/
def ShowsBackground (roms : Roms) (i : In) : Prop :=
  layer roms i = .background ∧ rgb roms i = background i.drawX

/-- A preview draws the piece of colour `c`: its spawn shape, moved to some place inside the box, is
painted with its sprite and the rest of the box with the background, whatever the other inputs. -/
structure DrawsPiece (oor : OutOfRange) (roms : Roms) (slot : Slot) (o : Owner) (c : BlockColor) : Prop where
  shape : ∃ d : ℤ × ℤ, InsideBox (placedShape oor c d) ∧ ∀ x y c1 c2 p1 p2, (slot.box o).Contains x y →
    DrawLogic.Aligned x y c1 → Names oor (o.player p1 p2) c slot →
      (tileInt (slot.box o) x y ∈ placedShape oor c d → ShowsSprite roms (slot.box o) c (mapperIn x y c1 c2 p1 p2)) ∧
      (tileInt (slot.box o) x y ∉ placedShape oor c d → ShowsBackground roms (mapperIn x y c1 c2 p1 p2))
  own : ∀ x y c1 c2 p1 p2 p1' p2', (slot.box o).Contains x y → DrawLogic.Aligned x y c1 →
    Names oor (o.player p1 p2) c slot → Names oor (o.player p1' p2') c slot →
      rgb roms (mapperIn x y c1 c2 p1 p2) = rgb roms (mapperIn x y c1 c2 p1' p2')

variable {oor : OutOfRange} {roms : Roms} {slot : Slot} {o : Owner} {c : BlockColor} {x y : BitVec 10}
  {c1 c2 : DrawCounters} {p p1 p2 : Player} {i : In}

/-! ## Pixels of a preview -/

theorem box_mem_previews (slot : Slot) (o : Owner) : slot.box o ∈ previews := by
  cases slot <;> cases o <;> decide

theorem draws_box (h : (slot.box o).Contains x y) (c1 c2 : DrawCounters) (p1 p2 : Player) :
    Draws o.half (o.player p1 p2) x y c1 (mapperIn x y c1 c2 p1 p2) := by
  have hmin := BitVec.le_def.1 h.1
  have hmax := BitVec.le_def.1 h.2.1
  cases o with
  | one =>
    have hbox : (slot.box .one).xMax.toNat = 309 := by cases slot <;> rfl
    exact draws_left (by omega) c1 c2 p1 p2
  | two =>
    have hbox : (slot.box .two).xMin.toNat = 550 := by cases slot <;> rfl
    exact draws_right (by omega) c1 c2 p1 p2

theorem quiet_box (h : (slot.box o).Contains x y) : Quiet o.half x y := by
  obtain ⟨h1, h2, h3, h4⟩ := h
  rw [BitVec.le_def] at h1 h3 h4
  refine ⟨?_, BitVec.lt_def.2 ?_, ?_⟩
  · cases o
    · exact .inl rfl
    · exact .inr rfl
  · have hbox : o.half.bounds.play.xMax.toNat < (slot.box o).xMin.toNat := by cases slot <;> cases o <;> decide
    omega
  · have hbox : (slot.box o).yMin.toNat = 140 ∨ (slot.box o).yMin.toNat = 60 ∧ (slot.box o).yMax.toNat = 99 := by
      cases slot <;> cases o <;> decide
    omega

theorem not_contains_hold (h : (Slot.next.box o).Contains x y) : ¬ o.half.spriteHold.yMin ≤ y := fun hy => by
  have h4 := BitVec.le_def.1 h.2.2.2
  have hy := BitVec.le_def.1 hy
  have hbox : (Slot.next.box o).yMax.toNat < o.half.spriteHold.yMin.toNat := by cases o <;> decide
  omega

theorem ofBits_idx (oor : OutOfRange) {idx : BitVec 3} (h : idx ≤ 6) :
    BlockColor.ofBits (idx + 1) = blockColorChoices oor idx := by
  rcases idx_cases h with rfl | rfl | rfl | rfl | rfl | rfl | rfl <;> rfl

/-- The colour of the sprite read for a pixel of a preview is that of its piece. -/
theorem blockType_box (h : (slot.box o).Contains x y) (hd : Draws o.half p x y c1 i) (hn : Names oor p c slot) :
    blockType i = c := by
  rw [blockType_of_quiet hd (quiet_box h)]
  cases slot with
  | hold => exact (if_pos h).trans hn
  | next =>
    rw [if_neg fun hin => not_contains_hold h hin.2.2.1]
    exact (if_pos h).trans ((ofBits_idx oor hn.1).trans hn.2)

variable (roms) in
/-- A pixel is selected by the ranges of the box of the held piece, in both previews. -/
theorem layer_box (h : (slot.box o).Contains x y) (hd : Draws o.half p x y c1 i) (hn : Names oor p c slot)
    (hc : c ≠ .empty) : layer roms i = if inShape o.half.spriteHold c x y then .sprite else .background := by
  rw [layer_of_quiet hd (quiet_box h), validNsprite_of_draws hd, blockType_box h hd hn, if_neg hc]

theorem layer_next (h : (Slot.next.box o).Contains x y) (hd : Draws o.half p x y c1 i) (hn : Names oor p c .next)
    (hc : c ≠ .empty) : layer roms i = .background := by
  rw [layer_box roms h hd hn hc, if_neg]
  exact fun hs => not_contains_hold h (le_of_inShape (fits_preview (box_mem_previews .hold o)) hs).2

theorem showsSprite_of_layer (h : (slot.box o).Contains x y) (hal : DrawLogic.Aligned x y c1)
    (hn : Names oor (o.player p1 p2) c slot) (hl : layer roms (mapperIn x y c1 c2 p1 p2) = .sprite) :
    ShowsSprite roms (slot.box o) c (mapperIn x y c1 c2 p1 p2) := by
  refine ⟨hl, ?_⟩
  have haddr : spriteAddr (mapperIn x y c1 c2 p1 p2) = BitVec.ofNat 10 (tileAddr (slot.box o) x y) := by
    rw [← spriteAddr_preview hal (box_mem_previews slot o) h, BitVec.ofNat_toNat, BitVec.setWidth_eq]
  unfold rgb
  rw [hl]
  show Rgb.ofSprite (spriteColor roms (blockType _) (spriteAddr _)) = _
  rw [blockType_box h (draws_box h c1 c2 p1 p2) hn, haddr]
  rfl

theorem showsBackground_of_layer (hl : layer roms i = .background) : ShowsBackground roms i :=
  ⟨hl, by unfold rgb; rw [hl]⟩

/-- What a pixel of a preview shows is settled by the piece of that preview. -/
theorem rgb_box (h : (slot.box o).Contains x y) {p1' p2' : Player} (hal : DrawLogic.Aligned x y c1)
    (hn : Names oor (o.player p1 p2) c slot) (hn' : Names oor (o.player p1' p2') c slot) (hc : c ≠ .empty) :
    rgb roms (mapperIn x y c1 c2 p1 p2) = rgb roms (mapperIn x y c1 c2 p1' p2') := by
  have hl := layer_box roms h (draws_box h c1 c2 p1 p2) hn hc
  have hl' := layer_box roms h (draws_box h c1 c2 p1' p2') hn' hc
  by_cases hs : inShape o.half.spriteHold c x y = true
  · rw [if_pos hs] at hl hl'
    rw [(showsSprite_of_layer h hal hn hl).2, (showsSprite_of_layer h hal hn' hl').2]
    rfl
  · rw [if_neg hs] at hl hl'
    rw [(showsBackground_of_layer hl).2, (showsBackground_of_layer hl').2]
    rfl

/-! ## Shapes in a box -/

/-- The spawn shapes lie in the four columns and two rows that a preview shows. -/
theorem spawn_bounds (oor : OutOfRange) (hc : c ≠ .empty) : ∀ q ∈ cells (spawn oor c).1 (spawn oor c).2,
    previewOffset c ≤ q.1.toNat ∧ q.1.toNat ≤ previewOffset c + 3 ∧ q.2.toNat ≤ 1 := by
  rw [spawn_congr oor someReads hc]
  cases c
  case empty => exact absurd rfl hc
  all_goals simp [cells, spawn, colorIdx, xBlockChoices, yBlockChoices, previewOffset]

/-- Where the previews place the spawn shapes. -/
theorem mem_placedShape (oor : OutOfRange) (hc : c ≠ .empty) (t : ℕ × ℕ) :
    ((t.1 : ℤ), (t.2 : ℤ)) ∈ placedShape oor c (-previewOffset c, 0) ↔ t ∈ previewTiles oor c := by
  simp only [placedShape, occupied, previewTiles, Finset.mem_image, List.mem_toFinset, List.mem_map]
  constructor
  · rintro ⟨_, ⟨q, hq, rfl⟩, ht⟩
    obtain ⟨h1, h2⟩ := Prod.mk.inj ht
    have hle := (spawn_bounds oor hc q hq).1
    simp only [toInts] at h1 h2
    exact ⟨q, hq, Prod.ext (by simp only; omega) (by simp only; omega)⟩
  · rintro ⟨q, hq, rfl⟩
    have hle := (spawn_bounds oor hc q hq).1
    refine ⟨_, ⟨q, hq, rfl⟩, Prod.ext ?_ ?_⟩
    · simp only [toInts, Prod.fst_add]
      omega
    · simp only [toInts, Prod.snd_add]
      omega

theorem insideBox_placedShape (oor : OutOfRange) (hc : c ≠ .empty) :
    InsideBox (placedShape oor c (-previewOffset c, 0)) := by
  simp only [InsideBox, placedShape, occupied, Finset.mem_image, List.mem_toFinset, List.mem_map]
  rintro _ ⟨_, ⟨q, hq, rfl⟩, rfl⟩
  obtain ⟨h1, h2, h3⟩ := spawn_bounds oor hc q hq
  simp only [toInts, Prod.fst_add, Prod.snd_add]
  omega

theorem placedShape_nonempty (oor : OutOfRange) (c : BlockColor) (d : ℤ × ℤ) : (placedShape oor c d).Nonempty := by
  unfold placedShape occupied
  rw [Finset.image_nonempty, List.toFinset_nonempty_iff]
  simp [cells]

/-- A preview has the pixels of its tiles. -/
theorem exists_pixel (slot : Slot) (o : Owner) {q : ℤ × ℤ} (hq : (0 ≤ q.1 ∧ q.1 ≤ 3) ∧ 0 ≤ q.2 ∧ q.2 ≤ 1) :
    ∃ x y, (slot.box o).Contains x y ∧ tileInt (slot.box o) x y = q := by
  obtain ⟨⟨h1, h2⟩, h3, h4⟩ := hq
  obtain ⟨u, v⟩ := q
  obtain ⟨u, rfl⟩ := Int.eq_ofNat_of_zero_le h1
  obtain ⟨v, rfl⟩ := Int.eq_ofNat_of_zero_le h3
  have hu : u ≤ 3 := Int.ofNat_le.1 h2
  have hv : v ≤ 1 := Int.ofNat_le.1 h4
  obtain ⟨hx, hy, hbottom⟩ := preview_bounds (box_mem_previews slot o)
  have hright : (slot.box o).xMin.toNat + 79 ≤ (slot.box o).xMax.toNat := by
    cases slot <;> cases o <;> decide
  have hx' := toNat_add_lit (v := (slot.box o).xMin) (k := 20 * u) (by omega)
  have hy' := toNat_add_lit (v := (slot.box o).yMin) (k := 20 * v) (by omega)
  -- the upper left pixel of the tile
  refine ⟨(slot.box o).xMin + BitVec.ofNat 10 (20 * u), (slot.box o).yMin + BitVec.ofNat 10 (20 * v),
    ⟨?_, ?_, ?_, ?_⟩, ?_⟩
  · rw [BitVec.le_def]; omega
  · rw [BitVec.le_def]; omega
  · rw [BitVec.le_def]; omega
  · rw [BitVec.le_def]; omega
  · unfold tileInt tileOf
    rw [hx', hy']
    exact Prod.ext (by simp only; omega) (by simp only; omega)

theorem exists_aligned (x y : BitVec 10) : ∃ c, DrawLogic.Aligned x y c := by
  refine ⟨⟨BitVec.ofNat 10 ((x.toNat - 20) % 20), BitVec.ofNat 10 ((y.toNat - 40) % 20)⟩, fun _ => ?_⟩
  simp only [BitVec.toNat_ofNat]
  omega

/-- Some inputs of a player name a piece. -/
theorem exists_names (oor : OutOfRange) (o : Owner) (slot : Slot) (hc : c ≠ .empty) :
    ∃ p1 p2, Names oor (o.player p1 p2) c slot := by
  let p : Player := ⟨.empty, 0, colorIdx c, c⟩
  have hp : Names oor p c slot := by
    cases slot with
    | hold => rfl
    | next =>
      cases c
      case empty => exact absurd rfl hc
      all_goals exact ⟨by decide, rfl⟩
  exact ⟨p, p, by cases o <;> exact hp⟩

/-! ## What the previews draw -/

/-- The box of the held piece, but for that of player 2 with a bar, is four tiles wide. -/
theorem inShape_hold_iff (oor : OutOfRange) (hc : c ≠ .empty) (hbar : ¬ (o = .two ∧ c = .cyan))
    (h : (Slot.hold.box o).Contains x y) :
    inShape o.half.spriteHold c x y = true ↔
      tileInt (Slot.hold.box o) x y ∈ placedShape oor c (-previewOffset c, 0) := by
  rw [tileInt, mem_placedShape oor hc]
  refine inShape_iff oor (fits_preview (box_mem_previews .hold o)) hc h fun hcyan => ?_
  cases o with
  | one =>
    have hx : x.toNat ≤ 309 := h.2.1
    show (x.toNat - 230) / 20 ≤ 3
    omega
  | two => exact absurd ⟨rfl, hcyan⟩ hbar

theorem drawsPiece_hold (oor : OutOfRange) (roms : Roms) (hc : c ≠ .empty) (hbar : ¬ (o = .two ∧ c = .cyan)) :
    DrawsPiece oor roms .hold o c := by
  refine ⟨⟨_, insideBox_placedShape oor hc, fun x y c1 c2 p1 p2 h hal hn => ?_⟩,
    fun x y c1 c2 p1 p2 p1' p2' h hal hn hn' => rgb_box h hal hn hn' hc⟩
  have hlayer := layer_box roms h (draws_box h c1 c2 p1 p2) hn hc
  rw [← inShape_hold_iff oor hc hbar h]
  constructor
  · intro hin
    rw [if_pos hin] at hlayer
    exact showsSprite_of_layer h hal hn hlayer
  · intro hout
    rw [if_neg hout] at hlayer
    exact showsBackground_of_layer hlayer

/-- The next piece is not drawn anywhere. -/
theorem not_drawsPiece_next (oor : OutOfRange) (roms : Roms) (hc : c ≠ .empty) : ¬ DrawsPiece oor roms .next o c := by
  intro h
  obtain ⟨d, hinside, hshape⟩ := h.shape
  obtain ⟨q, hq⟩ := placedShape_nonempty oor c d
  obtain ⟨x, y, hin, rfl⟩ := exists_pixel .next o (hinside q hq)
  obtain ⟨c1, hal⟩ := exists_aligned x y
  obtain ⟨p1, p2, hn⟩ := exists_names oor o .next hc
  have hsprite := ((hshape x y c1 c1 p1 p2 hin hal hn).1 hq).1
  rw [layer_next hin (draws_box hin c1 c1 p1 p2) hn hc] at hsprite
  cases hsprite

/-- A bar held by player 2 is drawn over a column to the right of its four tiles. -/
theorem not_drawsPiece_bar (oor : OutOfRange) (roms : Roms) : ¬ DrawsPiece oor roms .hold .two .cyan := by
  intro h
  obtain ⟨d, hinside, hshape⟩ := h.shape
  have hin : (Slot.hold.box .two).Contains 630 140 := by decide
  obtain ⟨c1, hal⟩ := exists_aligned 630 140
  obtain ⟨p1, p2, hn⟩ := exists_names oor .two .hold (c := .cyan) (by decide)
  have hout : tileInt (Slot.hold.box .two) 630 140 ∉ placedShape oor .cyan d := fun hq =>
    absurd (hinside _ hq).1.2 (by decide)
  have hback := ((hshape 630 140 c1 c1 p1 p2 hin hal hn).2 hout).1
  rw [layer_box roms hin (draws_box hin c1 c1 p1 p2) hn (by decide), if_pos (by decide)] at hback
  cases hback

/-- A preview draws its piece in the boxes of the held piece, but for a bar held by player 2. -/
theorem draws_piece_iff (oor : OutOfRange) (roms : Roms) (slot : Slot) (o : Owner) (hc : c ≠ .empty) :
    DrawsPiece oor roms slot o c ↔ slot = .hold ∧ ¬ (o = .two ∧ c = .cyan) := by
  constructor
  · intro h
    cases slot with
    | next => exact absurd h (not_drawsPiece_next oor roms hc)
    | hold =>
      refine ⟨rfl, ?_⟩
      rintro ⟨rfl, rfl⟩
      exact not_drawsPiece_bar oor roms h
  · rintro ⟨rfl, hbar⟩
    exact drawsPiece_hold oor roms hc hbar

/-- Player 1's held T piece. -/
theorem draws_piece_magenta : DrawsPiece someReads flatRoms .hold .one .magenta :=
  (draws_piece_iff someReads flatRoms .hold .one (by decide)).2 ⟨rfl, by decide⟩

/-- The box of player 1's next piece shows the background in both rows in which an I piece could stand. -/
theorem next_piece_unseen :
    (∀ y ∈ [(60 : BitVec 10), 80], (Slot.next.box .one).Contains 230 y ∧ DrawLogic.Aligned 230 y ⟨10, 0⟩ ∧
      layer flatRoms (mapperIn 230 y ⟨10, 0⟩ ⟨10, 0⟩ (holding .empty) (holding .empty)) = .background) ∧
    Names someReads (holding .empty) .cyan .next ∧ ¬ DrawsPiece someReads flatRoms .next .one .cyan := by
  refine ⟨fun y hy => ?_, ⟨by decide, rfl⟩, not_drawsPiece_next someReads flatRoms (by decide)⟩
  simp only [List.mem_cons, List.not_mem_nil, or_false] at hy
  rcases hy with rfl | rfl
  · exact ⟨by decide, fun _ => by decide, by decide⟩
  · exact ⟨by decide, fun _ => by decide, by decide⟩

end Screen

end FpgaTetris
