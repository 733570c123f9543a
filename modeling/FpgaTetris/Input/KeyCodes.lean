/-
Keys from the keyboard to the commands. Encoder and decoder are two tables in two languages; they
agree on every key but G and H, whose bits are exchanged.
-/
import FpgaTetris.Software.Keyboard
import Mathlib.Data.Fintype.Basic
import Mathlib.Tactic.FinCases

namespace FpgaTetris

/-! ## Loops that collect -/

/-- A loop whose rounds only ever add to a property of the accumulator. -/
theorem foldl_iff {α β : Type} {step : β → α → β} {Q : β → Prop} {P : α → Prop}
    (h : ∀ acc a, Q (step acc a) ↔ Q acc ∨ P a) (l : List α) (acc : β) :
    Q (l.foldl step acc) ↔ Q acc ∨ ∃ a ∈ l, P a := by
  induction l generalizing acc with
  | nil => simp
  | cons a l ih =>
    rw [List.foldl_cons, ih, h, or_assoc]
    simp

/-! ## Encoding -/

/-- The usage code behind each bit of `key_bits`. -/
def usageCode : Fin 13 → ℕ
  | 0 => 0x04
  | 1 => 0x16
  | 2 => 0x07
  | 3 => 0x09
  | 4 => 0x0B
  | 5 => 0x0A
  | 6 => 0x36
  | 7 => 0x37
  | 8 => 0x38
  | 9 => 0x59
  | 10 => 0x5A
  | 11 => 0x5B
  | 12 => 0x2C

theorem getLsbD_keyMask (code : ℕ) (b : Fin 13) : (keyMask code).getLsbD b = true ↔ code = usageCode b := by
  have hcase : ∀ c ∈ keyCases, ∀ b : Fin 13, c.2.getLsbD b = true ↔ c.1 = usageCode b := by decide +kernel
  have hcode : ∀ b : Fin 13, (keyMask (usageCode b)).getLsbD b = true := by decide
  constructor
  · intro hb
    unfold keyMask at hb
    cases hl : keyCases.lookup code with
    | none => simp [hl] at hb
    | some m =>
      rw [hl] at hb
      obtain ⟨l₁, l₂, hmem, -⟩ := List.lookup_eq_some_iff.1 hl
      exact (hcase (code, m) (hmem ▸ by simp) b).1 hb
  · rintro rfl
    exact hcode b

/-- The two bytes of a word. -/
theorem word_bytes (hi lo : BitVec 8) :
    ((hi ++ lo).toNat >>> (8 * 0)) &&& 0xff = lo.toNat ∧ ((hi ++ lo).toNat >>> (8 * 1)) &&& 0xff = hi.toNat := by
  have h1 := hi.isLt
  have h2 := lo.isLt
  rw [BitVec.toNat_append, ← Nat.shiftLeft_add_eq_or_of_lt lo.isLt, Nat.shiftLeft_eq,
    Nat.shiftRight_eq_div_pow, Nat.shiftRight_eq_div_pow, Nat.and_two_pow_sub_one_eq_mod _ 8,
    Nat.and_two_pow_sub_one_eq_mod _ 8]
  omega

/-- The double loop comes upon each byte of the report. -/
theorem curKeycode_keycodes (report : Report) (j : Fin 6) :
    curKeycode (keycodes report) (j % 2) (j / 2) = (report j).toNat := by
  have h0 := word_bytes (report 1) (report 0)
  have h1 := word_bytes (report 3) (report 2)
  have h2 := word_bytes (report 5) (report 4)
  fin_cases j
  · exact h0.1
  · exact h0.2
  · exact h1.1
  · exact h1.2
  · exact h2.1
  · exact h2.2

/-- It comes upon nothing else. -/
theorem exists_curKeycode_iff (report : Report) (code : ℕ) :
    (∃ h ∈ List.range 2, ∃ k ∈ List.range 3, curKeycode (keycodes report) h k = code) ↔
      ∃ j, (report j).toNat = code := by
  simp only [List.mem_range]
  constructor
  · rintro ⟨h, hh, k, hk, rfl⟩
    have hj : 2 * k + h < 6 := by omega
    refine ⟨⟨2 * k + h, hj⟩, ?_⟩
    rw [← curKeycode_keycodes]
    congr 1 <;> simp only <;> omega
  · rintro ⟨j, rfl⟩
    exact ⟨j % 2, by omega, j / 2, by omega, curKeycode_keycodes report j⟩

/-- A usage code is among the bytes of a report. -/
def Report.Has (report : Report) (code : BitVec 8) : Prop := ∃ j, report j = code

theorem getLsbD_keyBits (report : Report) (b : Fin 13) :
    (keyBits (keycodes report)).getLsbD b = true ↔ ∃ j, (report j).toNat = usageCode b := by
  have hround : ∀ h k (bits : BitVec 32),
      (bits ||| keyMask (curKeycode (keycodes report) h k)).getLsbD b = true ↔
        bits.getLsbD b = true ∨ curKeycode (keycodes report) h k = usageCode b := by
    intro h k bits
    rw [BitVec.getLsbD_or, Bool.or_eq_true, getLsbD_keyMask]
  unfold keyBits
  rw [foldl_iff (Q := fun bits : BitVec 32 => bits.getLsbD b = true) fun bits h =>
    foldl_iff (Q := fun bits : BitVec 32 => bits.getLsbD b = true) (fun bits k => hround h k bits) _ bits,
    exists_curKeycode_iff]
  simp

/-- Each bit of the exported word tells whether a usage code is in the report. -/
theorem getLsbD_keycode (report : Report) (b : Fin 13) {code : BitVec 8} (hcode : code.toNat = usageCode b) :
    (keycode report).getLsbD b = true ↔ report.Has code := by
  have hlow : ∀ b : Fin 13, (0xffff : BitVec 32).getLsbD b = true := by decide
  unfold keycode Report.Has
  rw [BitVec.getLsbD_and, hlow b, Bool.and_true, getLsbD_keyBits, ← hcode]
  simp only [BitVec.toNat_inj]

/-! ## Decoding -/

/-- The commands of both players and the reset key, each high exactly when the usage code of the key
that `main.c` labels with it is in the report. -/
structure KeysAgree (report : Report) : Prop where
  moveLeft1 : (keys 1 (keycode report)).moveLeft = true ↔ report.Has 0x04       -- A
  speedDown1 : (keys 1 (keycode report)).speedDown = true ↔ report.Has 0x16     -- S
  moveRight1 : (keys 1 (keycode report)).moveRight = true ↔ report.Has 0x07     -- D
  rotateLeft1 : (keys 1 (keycode report)).rotateLeft = true ↔ report.Has 0x09   -- F
  rotateRight1 : (keys 1 (keycode report)).rotateRight = true ↔ report.Has 0x0A -- G
  holdBlock1 : (keys 1 (keycode report)).holdBlock = true ↔ report.Has 0x0B     -- H
  moveLeft2 : (keys 2 (keycode report)).moveLeft = true ↔ report.Has 0x36       -- COMMA
  speedDown2 : (keys 2 (keycode report)).speedDown = true ↔ report.Has 0x37     -- PERIOD
  moveRight2 : (keys 2 (keycode report)).moveRight = true ↔ report.Has 0x38     -- BACKSLASH
  rotateLeft2 : (keys 2 (keycode report)).rotateLeft = true ↔ report.Has 0x59   -- 1
  holdBlock2 : (keys 2 (keycode report)).holdBlock = true ↔ report.Has 0x5A     -- 2
  rotateRight2 : (keys 2 (keycode report)).rotateRight = true ↔ report.Has 0x5B -- 3
  space : spaceRst (keycode report) = true ↔ report.Has 0x2C

/-- Software and hardware agree on a report exactly when G and H are both in it or both not: the
encoder gives each the bit that the decoder reads for the other. -/
theorem keysAgree_iff (report : Report) : KeysAgree report ↔ (report.Has 0x0A ↔ report.Has 0x0B) := by
  -- the switch gives 0x0A the bit of the hold and 0x0B that of the turn to the right
  have hG : (keys 1 (keycode report)).rotateRight = true ↔ report.Has 0x0B := getLsbD_keycode report 4 rfl
  have hH : (keys 1 (keycode report)).holdBlock = true ↔ report.Has 0x0A := getLsbD_keycode report 5 rfl
  constructor
  · intro h
    exact h.rotateRight1.symm.trans hG
  · intro h
    exact
      { moveLeft1 := getLsbD_keycode report 0 rfl
        speedDown1 := getLsbD_keycode report 1 rfl
        moveRight1 := getLsbD_keycode report 2 rfl
        rotateLeft1 := getLsbD_keycode report 3 rfl
        rotateRight1 := hG.trans h.symm
        holdBlock1 := hH.trans h
        moveLeft2 := getLsbD_keycode report 6 rfl
        speedDown2 := getLsbD_keycode report 7 rfl
        moveRight2 := getLsbD_keycode report 8 rfl
        rotateLeft2 := getLsbD_keycode report 9 rfl
        holdBlock2 := getLsbD_keycode report 10 rfl
        rotateRight2 := getLsbD_keycode report 11 rfl
        space := by
          rw [spaceRst, bne_iff_ne, ne_eq, Bool.not_eq_false]
          exact getLsbD_keycode report 12 rfl }

/-- Player 1 presses G alone, and the hold command goes high. -/
theorem keys_exchange_G_H : ¬ KeysAgree (fun j => if j = 0 then 0x0A else 0) := by
  intro h
  obtain ⟨j, hj⟩ := h.holdBlock1.1 (by decide)
  revert j
  decide

end FpgaTetris
