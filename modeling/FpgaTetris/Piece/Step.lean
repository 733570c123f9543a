/-
What one cycle of `block_logic` can do to the piece in play: stay, make one of the five tested
moves, lock and spawn, or go to the hold box. Later proofs use these lemmas and never unfold the
move selection.
-/
import FpgaTetris.Hdl.BlockLogic

namespace FpgaTetris

/-! ## Moves and effects -/

/-- The five moves tested by the board. -/
inductive Move
  | left
  | right
  | rotateRight
  | rotateLeft
  | down
  deriving DecidableEq, Repr

/-- The bit of `can_move` for a move. -/
def CanMove.get (c : CanMove) : Move → Bool
  | .left => c.left
  | .right => c.right
  | .rotateRight => c.rotateRight
  | .rotateLeft => c.rotateLeft
  | .down => c.down

/-- The orientation after a move. -/
def Move.turn : Move → Orientation → Orientation
  | .rotateLeft => BlockLogic.turnLeft
  | .rotateRight => BlockLogic.turnRight
  | _ => id

/-- What a branch of the move selection does to the piece. -/
inductive Effect
  | stay
  | move (m : Move)
  | lock
  | hold
  deriving DecidableEq, Repr

namespace BlockLogic

/-- The coordinates a move leads to. -/
def target (r : BlockLogic) : Move → Quad × Quad
  | .left => (r.xMoveLeft, r.yMoveLeft)
  | .right => (r.xMoveRight, r.yMoveRight)
  | .rotateRight => (r.xRotateRight, r.yRotateRight)
  | .rotateLeft => (r.xRotateLeft, r.yRotateLeft)
  | .down => (r.xMoveDown, r.yMoveDown)

def Branch.effect : Branch → Effect
  | .idle => .stay
  | .gravityDown => .move .down
  | .gravityLock => .lock
  | .rotateLeft => .move .rotateLeft
  | .rotateRight => .move .rotateRight
  | .moveRight => .move .right
  | .moveLeft => .move .left
  | .speedCount => .stay
  | .speedDown => .move .down
  | .speedLock => .lock
  | .speedBlocked => .stay
  | .holdSwap => .hold
  | .holdFirst => .hold
  | .fall => .stay

@[simp] theorem Branch.effect_idle : Branch.idle.effect = .stay := rfl

variable (oor : OutOfRange) (playerNum : BitVec 2) (r : BlockLogic) (i : In)

/-! ## When a branch is taken -/

/-- What is known when a branch is taken. -/
structure Guard (r : BlockLogic) (i : In) (br : Branch) : Prop where
  active : br ≠ .idle → i.reset = false ∧ i.boardBusy = false ∧ r.frameClkRisingEdge = true
  move : ∀ m, br.effect = .move m → i.canMove.get m = true
  lock : br.effect = .lock →
    i.canMove.down = false ∧ (i.levelSpeed ≤ r.downCounter ∨ sSpeed ≤ r.speedCounter)
  swap : br = .holdSwap → r.isBlockSwitched = false ∧ r.heldBlock ≠ .empty
  first : br = .holdFirst → r.isBlockSwitched = false ∧ r.heldBlock = .empty

theorem guard_idle : Guard r i .idle := by
  constructor <;> simp [Branch.effect]

section Active

variable {r i} {br : Branch} (hact : i.reset = false ∧ i.boardBusy = false ∧ r.frameClkRisingEdge = true)

include hact

theorem guard_stay (h : br.effect = .stay) : Guard r i br := by
  refine ⟨fun _ => hact, fun m hm => ?_, fun hl => ?_, ?_, ?_⟩
  · rw [h] at hm; cases hm
  · rw [h] at hl; cases hl
  · rintro rfl; cases h
  · rintro rfl; cases h

theorem guard_move {m : Move} (h : br.effect = .move m) (hm : i.canMove.get m = true) : Guard r i br := by
  refine ⟨fun _ => hact, fun m' hm' => ?_, fun hl => ?_, ?_, ?_⟩
  · rw [h] at hm'; cases hm'; exact hm
  · rw [h] at hl; cases hl
  · rintro rfl; cases h
  · rintro rfl; cases h

theorem guard_lock (h : br.effect = .lock) (hd : ¬ i.canMove.down = true)
    (hdue : i.levelSpeed ≤ r.downCounter ∨ sSpeed ≤ r.speedCounter) : Guard r i br := by
  refine ⟨fun _ => hact, fun m hm => ?_, fun _ => ⟨Bool.eq_false_iff.2 hd, hdue⟩, ?_, ?_⟩
  · rw [h] at hm; cases hm
  · rintro rfl; cases h
  · rintro rfl; cases h

theorem guard_hold (hs : ¬ r.isBlockSwitched = true) :
    (r.heldBlock ≠ .empty → Guard r i .holdSwap) ∧ (r.heldBlock = .empty → Guard r i .holdFirst) := by
  have hs := Bool.eq_false_iff.2 hs
  constructor
  · intro hh; constructor <;> simp [Branch.effect, hact, hs, hh]
  · intro hh; constructor <;> simp [Branch.effect, hact, hs, hh]

end Active

theorem branch_guard : Guard r i (branch playerNum r i) := by
  unfold branch
  generalize keys playerNum i.keycode = k
  dsimp only
  by_cases h0 : i.reset = true ∨ i.boardBusy = true
  · rw [if_pos h0]; exact guard_idle r i
  rw [if_neg h0]
  by_cases he : r.frameClkRisingEdge = true
  swap
  · rw [if_neg (fun h => he h.1), if_neg he]; exact guard_idle r i
  have hact : i.reset = false ∧ i.boardBusy = false ∧ r.frameClkRisingEdge = true := by
    simpa [he] using h0
  -- gravity comes before the keys, and these in the order of the source
  by_cases hdue : i.levelSpeed ≤ r.downCounter
  · rw [if_pos ⟨he, hdue⟩]
    split_ifs with hd
    · exact guard_move hact rfl hd
    · exact guard_lock hact rfl hd (.inl hdue)
  rw [if_neg fun h => hdue h.2, if_pos he]
  split_ifs with hrl hrr hr hl hs hc hd hd' hh hheld
  · exact guard_move hact rfl hrl.2.1
  · exact guard_move hact rfl hrr.2.1
  · exact guard_move hact rfl hr.2.1
  · exact guard_move hact rfl hl.2.1
  · exact guard_move hact rfl hd.1
  · exact guard_stay hact rfl
  · exact guard_lock hact rfl hd' (.inr hc)
  · exact guard_stay hact rfl
  · exact (guard_hold hact hh.2).1 hheld
  · exact (guard_hold hact hh.2).2 (not_not.1 hheld)
  · exact guard_stay hact rfl

variable {playerNum r i}

theorem effect_of_ne_stay (h : (branch playerNum r i).effect ≠ .stay) :
    i.reset = false ∧ i.boardBusy = false ∧ r.frameClkRisingEdge = true :=
  (branch_guard playerNum r i).active fun hb => h (by rw [hb]; rfl)

theorem active_of_move {m : Move} (h : (branch playerNum r i).effect = .move m) :
    i.reset = false ∧ i.boardBusy = false ∧ r.frameClkRisingEdge = true :=
  effect_of_ne_stay (by rw [h]; simp)

theorem active_of_lock (h : (branch playerNum r i).effect = .lock) :
    i.reset = false ∧ i.boardBusy = false ∧ r.frameClkRisingEdge = true :=
  effect_of_ne_stay (by rw [h]; simp)

theorem active_of_hold (h : (branch playerNum r i).effect = .hold) :
    i.reset = false ∧ i.boardBusy = false ∧ r.frameClkRisingEdge = true :=
  effect_of_ne_stay (by rw [h]; simp)

theorem branch_eq_idle (h : i.reset = true ∨ i.boardBusy = true ∨ r.frameClkRisingEdge = false) :
    branch playerNum r i = .idle := by
  by_contra hb
  obtain ⟨h1, h2, h3⟩ := (branch_guard playerNum r i).active hb
  rcases h with h | h | h
  · rw [h1] at h; cases h
  · rw [h2] at h; cases h
  · rw [h3] at h; cases h

/-! ## What a branch assigns -/

theorem assign_getNewBlock (br : Branch) : (assign oor r br).getNewBlock = true ↔ br.effect = .lock := by
  cases br <;> simp [Branch.effect, assign, defaults, setNewBlockInputs]

theorem assign_switchBlock (br : Branch) : (assign oor r br).switchBlock = true ↔ br.effect = .hold := by
  cases br <;> simp [Branch.effect, assign, defaults, setNewBlockInputs]

variable (playerNum i) in
theorem getNewBlock_iff :
    (comb oor playerNum r i).getNewBlock = true ↔ (branch playerNum r i).effect = .lock :=
  assign_getNewBlock oor _

variable (playerNum i) in
theorem switchBlock_iff :
    (comb oor playerNum r i).switchBlock = true ↔ (branch playerNum r i).effect = .hold :=
  assign_switchBlock oor _

/-! ## The registers after a cycle -/

/-- The index whose table entries a lock or a hold loads. -/
def loadIdx (r : BlockLogic) : Branch → BitVec 3
  | .holdSwap => r.switchBlockIdx
  | _ => r.blockIdx

/-- The registers show a new piece: the table entries of `idx`, in the spawn orientation. -/
structure Loaded (oor : OutOfRange) (idx : BitVec 3) (n : BlockLogic) : Prop where
  x : n.xBlock = xBlockChoices oor idx
  y : n.yBlock = yBlockChoices oor idx
  block : n.block = blockColorChoices oor idx
  orientation : n.curOrientation = .normal
  down : n.downCounter = 0
  speed : n.speedCounter = 0

theorem loaded_iff {oor : OutOfRange} {idx : BitVec 3} {n : BlockLogic} :
    Loaded oor idx n ↔ n.xBlock = xBlockChoices oor idx ∧ n.yBlock = yBlockChoices oor idx ∧
      n.block = blockColorChoices oor idx ∧ n.curOrientation = .normal ∧ n.downCounter = 0 ∧
      n.speedCounter = 0 :=
  ⟨fun ⟨a, b, c, d, e, f⟩ => ⟨a, b, c, d, e, f⟩, fun ⟨a, b, c, d, e, f⟩ => ⟨a, b, c, d, e, f⟩⟩

/-- The effect of a branch on the registers: `n` follows `r`. -/
structure Stepped (oor : OutOfRange) (r : BlockLogic) (br : Branch) (n : BlockLogic) : Prop where
  stay : br.effect = .stay →
    n.xBlock = r.xBlock ∧ n.yBlock = r.yBlock ∧ n.curOrientation = r.curOrientation
  move : ∀ m, br.effect = .move m →
    n.xBlock = (r.target m).1 ∧ n.yBlock = (r.target m).2 ∧ n.curOrientation = m.turn r.curOrientation
  load : br.effect = .lock ∨ br.effect = .hold → Loaded oor (r.loadIdx br) n ∧ n.curBlockIdx = r.blockIdx
  keep : br.effect ≠ .lock → br.effect ≠ .hold → n.block = r.block ∧ n.curBlockIdx = r.curBlockIdx
  save : br.effect ≠ .lock → n.saveXblock = r.xBlock ∧ n.saveYblock = r.yBlock
  saveLock : br.effect = .lock → n.saveXblock = n.xBlock ∧ n.saveYblock = n.yBlock
  held : br.effect = .hold →
    n.heldBlock = r.block ∧ n.switchBlockIdx = r.curBlockIdx ∧ n.isBlockSwitched = true
  heldKeep : br.effect ≠ .hold → n.heldBlock = r.heldBlock ∧ n.switchBlockIdx = r.switchBlockIdx
  switched : br.effect ≠ .hold →
    n.isBlockSwitched = if br.effect = .lock then false else r.isBlockSwitched
  counters : n.downCounter = (assign oor r br).downCounterIn ∧ n.speedCounter = (assign oor r br).speedCounterIn

variable (playerNum r i)

theorem next_stepped (h : i.reset = false) : Stepped oor r (branch playerNum r i) (next oor playerNum r i) := by
  unfold next comb
  rw [h]
  generalize branch playerNum r i = br
  cases br <;> constructor <;>
    simp [Branch.effect, assign, defaults, setNewBlockInputs, loadIdx, target, Move.turn, loaded_iff,
      xMoveLeft, yMoveLeft, xMoveRight, yMoveRight, xMoveDown, yMoveDown]

theorem next_reset (h : i.reset = true) :
    let n := next oor playerNum r i
    Loaded oor r.blockIdx n ∧ n.saveXblock = n.xBlock ∧ n.saveYblock = n.yBlock ∧
      n.curBlockIdx = r.blockIdx ∧ n.heldBlock = .empty ∧ n.isBlockSwitched = false := by
  simp [next, h, loaded_iff]

end BlockLogic

end FpgaTetris
