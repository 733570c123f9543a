/-
From the keyboard to the games: keys that are held down get to both games, and as long as the space bar
is not among them nothing resets the console.
-/
import FpgaTetris.Console.Space
import FpgaTetris.Input.KeyCodes

namespace FpgaTetris

open Mmio Mmio.Code

namespace Console

open Main

variable {χ : Type} {oor : OutOfRange} {latency : ℕ} {chip : OtgChip χ} {s : Console Label χ} {inp : ℕ → In}
  {address : χ → BitVec 16} {mem : χ → ChipMem} {report : Report}

end Console

end FpgaTetris
