/-
The keyboard loop of `main.c`: six key bytes, read as three 16-bit words, become the `keycode` word
that the hardware decodes; and `space_rst` of `tetris.sv`.
-/
import FpgaTetris.Hdl.BlockLogic

namespace FpgaTetris

/-- The key bytes of a keyboard report. -/
abbrev Report := Fin 6 → BitVec 8

/-- `UsbRead` of three consecutive words; each holds two bytes of the report, the first one low. -/
def keycodes (report : Report) : Fin 3 → BitVec 16
  | 0 => report 1 ++ report 0
  | 1 => report 3 ++ report 2
  | 2 => report 5 ++ report 4

/-- `cur_keycode`. -/
def curKeycode (words : Fin 3 → BitVec 16) (h k : ℕ) : ℕ :=
  if hk : k < 3 then ((words ⟨k, hk⟩).toNat >>> (8 * h)) &&& 0xff else 0

/-- The cases of the `switch`: a usage code and the mask added to `key_bits`. -/
def keyCases : List (ℕ × BitVec 32) :=
  [(0x04, 1),       -- A
    (0x16, 2),      -- S
    (0x07, 4),      -- D
    (0x09, 8),      -- F
    (0x0A, 32),     -- G
    (0x0B, 16),     -- H
    (0x36, 64),     -- COMMA
    (0x37, 128),    -- PERIOD
    (0x38, 256),    -- BACKSLASH
    (0x59, 512),    -- 1
    (0x5A, 1024),   -- 2
    (0x5B, 2048),   -- 3
    (0x2C, 4096)]

/-- The `switch`. -/
def keyMask (code : ℕ) : BitVec 32 := (keyCases.lookup code).getD 0

/-- `key_bits` after the double loop. -/
def keyBits (words : Fin 3 → BitVec 16) : BitVec 32 :=
  (List.range 2).foldl
    (fun bits h => (List.range 3).foldl (fun bits k => bits ||| keyMask (curKeycode words h k)) bits) 0

/-- The word written to `keycode_base`. -/
def keycode (report : Report) : BitVec 32 := keyBits (keycodes report) &&& 0xffff

/-- `space_rst`. -/
def spaceRst (keycode : BitVec 32) : Bool := keycode.getLsbD 12 != false

end FpgaTetris
