/-
The game that the hardware is meant to play, stated without its registers: a stack of settled cells,
a piece in play, a hold box and the tally, and the actions that change them. Which piece comes next
is left open.
-/
import FpgaTetris.Board.Occupied
import FpgaTetris.Game.Frame
import FpgaTetris.Lib.Lts

namespace FpgaTetris

/-- A new piece of colour `c` above the settled cells `b`. -/
def Position.appear (oor : OutOfRange) (b : BoardArr) (c : BlockColor) : Position :=
  ⟨b, (FpgaTetris.spawn oor c).1, (FpgaTetris.spawn oor c).2, c, .normal⟩

/-- The points for the rows that one piece clears. -/
def linePoints : ℕ → ℕ
  | 1 => 40
  | 2 => 100
  | 3 => 300
  | 4 => 1200
  | _ => 0

/-! ## Games -/

structure GameState where
  position : Position
  /-- The colour in the hold box, `EMPTY` when nothing is held. -/
  held : BlockColor
  /-- A hold has been taken since the last piece locked. -/
  swapped : Bool
  lines : ℕ
  score : ℕ

/-- A game: the piece in play has a colour and four cells, all free, and no row of the stack is
full. -/
structure Game extends GameState where
  colored : position.color ≠ .empty
  nodup : position.cells.Nodup
  legal : position.Legal
  noFull : ∀ y, ¬ FullRow position.settled y

inductive Action
  | start
  | move (m : Move)
  /-- The piece locks and clears this many rows. -/
  | lock (rows : ℕ)
  | hold
  deriving DecidableEq, Repr

/-- The pieces an action locks. -/
def Action.pieces : Action → ℕ
  | .lock _ => 1
  | _ => 0

/-- The rows an action clears. -/
def Action.rows : Action → ℕ
  | .lock n => n
  | _ => 0

namespace Game

/-- A start brings a piece onto an empty board. A piece moves to free cells; it locks when the cells
below it are not free, the full rows are cleared, and a new piece appears. A hold puts the piece into
the box and brings in the one that was there, or a new one; it can be taken once for each piece. -/
inductive Step (oor : OutOfRange) : Action → Game → Game → Prop
  | start {G G' : Game} (c : BlockColor) (h : G'.toGameState = ⟨.appear oor (fun _ => .empty) c, .empty, false, 0, 0⟩) :
    Step oor .start G G'
  | move {G G' : Game} (m : Move) (h : G'.toGameState = { G.toGameState with position := G.position.move m }) :
    Step oor (.move m) G G'
  | lock {G G' : Game} (b : BoardArr) (c : BlockColor) (n : ℕ) (landed : ¬ (G.position.move .down).Legal)
      (hn : n = (fullRows G.position.locked).length) (cleared : LinesCleared G.position.locked b)
      (h : G'.toGameState = ⟨.appear oor b c, G.held, false, G.lines + n, G.score + linePoints n⟩) :
    Step oor (.lock n) G G'
  | hold {G G' : Game} (c : BlockColor) (free : G.swapped = false) (box : G.held ≠ .empty → c = G.held)
      (h : G'.toGameState =
        { G.toGameState with
          position := .appear oor G.position.settled c, held := G.position.color, swapped := true }) :
    Step oor .hold G G'

variable {oor : OutOfRange} {G G' : Game}

/-! ## What a game keeps -/

theorem occupiedCells_locked (G : Game) : occupiedCells G.position.locked = occupiedCells G.position.settled + 4 :=
  occupiedCells_paint G.colored G.legal G.nodup

/-- A full row has a cell of the piece, so a lock clears at most four. -/
theorem length_fullRows_locked (G : Game) : (fullRows G.position.locked).length ≤ 4 := by
  have hsub : (fullRows G.position.locked).map Fin.val ⊆ G.position.cells.map (·.2.toNat) := by
    intro n hn
    obtain ⟨y, hy, rfl⟩ := List.mem_map.1 hn
    by_contra hno
    refine G.noFull y fun x => ?_
    have hxy := mem_fullRows.1 hy x
    rw [Position.locked, BoardArr.paint_apply, if_neg] at hxy
    · exact hxy
    · exact fun hx => hno (List.mem_map.2 ⟨_, hx, pos_snd (x, y)⟩)
  have hlen := ((nodup_fullRows _).subperm hsub).length_le
  rwa [List.length_map, List.length_map] at hlen

/-- Four cells come with every piece that locks, and ten go with every row. -/
theorem Step.occupiedCells {a : Action} (h : Step oor a G G') (ha : a ≠ .start) :
    occupiedCells G'.position.settled + xSize * a.rows = occupiedCells G.position.settled + 4 * a.pieces := by
  cases h with
  | start => exact absurd rfl ha
  | move m h => rw [congrArg GameState.position h]; rfl
  | lock b c n _ hn cleared h =>
    rw [congrArg GameState.position h, hn]
    exact cleared.occupiedCells.trans G.occupiedCells_locked
  | hold c _ _ h => rw [congrArg GameState.position h]; rfl

end Game

end FpgaTetris
