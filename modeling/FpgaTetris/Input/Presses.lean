/-
Key presses. A movement key acts at the frame edge at which it went down and at no later one while
it is held; at an edge at which gravity is due it does not act, and the press is lost.
-/
import FpgaTetris.Lib.Design
import FpgaTetris.Piece.Shape
import FpgaTetris.Piece.Step
import FpgaTetris.Hdl.Tetris

namespace FpgaTetris

open Sync

/-- The key of a move; moving down has none of its own. -/
def Keys.of (k : Keys) : Move → Bool
  | .left => k.moveLeft
  | .right => k.moveRight
  | .rotateRight => k.rotateRight
  | .rotateLeft => k.rotateLeft
  | .down => false

namespace BlockLogic

/-- The key of a move as sampled at the last frame edge. -/
def sampled (r : BlockLogic) : Move → Bool
  | .left => r.oldMoveleft
  | .right => r.oldMoveright
  | .rotateRight => r.oldRotright
  | .rotateLeft => r.oldRotleft
  | .down => false

variable {oor : OutOfRange} {playerNum : BitVec 2} {r : BlockLogic} {i : In} {m : Move}

/-! ## One cycle -/

/-- A move other than down is made for a key that has just gone down, and not when gravity is due. -/
theorem key_of_move (h : (branch playerNum r i).effect = .move m) (hm : m ≠ .down) :
    (keys playerNum i.keycode).of m = true ∧ r.sampled m = false ∧ r.downCounter < i.levelSpeed := by
  obtain ⟨hr, hb, he⟩ := active_of_move h
  unfold branch at h
  generalize keys playerNum i.keycode = k at h ⊢
  dsimp only at h
  rw [if_neg (by simp [hr, hb])] at h
  -- a move other than down comes from the keys, so gravity was not due
  by_cases hdue : i.levelSpeed ≤ r.downCounter
  · rw [if_pos ⟨he, hdue⟩] at h
    split_ifs at h
    · cases h; exact absurd rfl hm
    · cases h
  rw [if_neg fun h => hdue h.2, if_pos he] at h
  split_ifs at h with hrl hrr hr hl <;> cases h
  · exact ⟨hrl.1, by simpa [sampled, hrl.1] using hrl.2.2, BitVec.not_le.1 hdue⟩
  · exact ⟨hrr.1, by simpa [sampled, hrr.1] using hrr.2.2, BitVec.not_le.1 hdue⟩
  · exact ⟨hr.1, by simpa [sampled, hr.1] using hr.2.2, BitVec.not_le.1 hdue⟩
  · exact ⟨hl.1, by simpa [sampled, hl.1] using hl.2.2, BitVec.not_le.1 hdue⟩
  · exact absurd rfl hm

/-- At a frame edge, with a free board, the key of a possible move has just gone down and the other
movement keys are up. -/
structure JustPressed (playerNum : BitVec 2) (r : BlockLogic) (i : In) (m : Move) : Prop where
  edge : r.frameClkRisingEdge = true
  run : i.reset = false
  free : i.boardBusy = false
  key : (keys playerNum i.keycode).of m = true
  others : ∀ m', m' ≠ m → (keys playerNum i.keycode).of m' = false
  released : r.sampled m = false
  canMove : i.canMove.get m = true

theorem JustPressed.ne_down (h : JustPressed playerNum r i m) : m ≠ .down := by
  rintro rfl
  cases h.key

/-- Such a key makes its move unless gravity is due. -/
theorem JustPressed.effect (h : JustPressed playerNum r i m) (hdue : r.downCounter < i.levelSpeed) :
    (branch playerNum r i).effect = .move m := by
  obtain ⟨he, hr, hb, hk, ho, hs, hc⟩ := h
  unfold branch
  generalize keys playerNum i.keycode = k at *
  dsimp only
  rw [if_neg (by simp [hr, hb]), if_neg fun h => absurd h.2 (BitVec.not_le.2 hdue), if_pos he]
  have hl := ho .left
  have hr := ho .right
  have hrl := ho .rotateLeft
  have hrr := ho .rotateRight
  cases m <;> simp_all [Keys.of, sampled, CanMove.get, Branch.effect]

theorem sampled_next (oor : OutOfRange) (playerNum : BitVec 2) (r : BlockLogic) (i : In) (m : Move) :
    (next oor playerNum r i).sampled m =
      if r.frameClkRisingEdge then (keys playerNum i.keycode).of m else r.sampled m := by
  cases m
  case down => exact (ite_self _).symm
  all_goals rfl

/-! ## Whole presses -/

section Run

variable {inp : ℕ → In} {t u : ℕ} (hp : JustPressed playerNum ((design oor playerNum).trace r inp t) (inp t) m)
  (hheld : ∀ v, t ≤ v → v < u → ((design oor playerNum).trace r inp v).frameClkRisingEdge = true →
    (keys playerNum (inp v).keycode).of m = true)

include hp hheld

/-- From the edge on, the key is known to be down. -/
theorem sampled_trace {v : ℕ} (htv : t < v) (hvu : v ≤ u) :
    ((design oor playerNum).trace r inp v).sampled m = true := by
  refine Design.trace_phase (fun s : BlockLogic => s.sampled m = true) htv ?_ fun w h1 h2 hw => ?_
  · show (BlockLogic.next oor playerNum ((design oor playerNum).trace r inp t) (inp t)).sampled m = true
    rw [sampled_next, if_pos hp.edge]
    exact hp.key
  · show (BlockLogic.next oor playerNum ((design oor playerNum).trace r inp w) (inp w)).sampled m = true
    rw [sampled_next]
    split
    · rename_i he
      exact hheld w (Nat.le_of_succ_le h1) (lt_of_lt_of_le h2 hvu) he
    · exact hw

/-- A key that goes down at a frame edge and is held makes its move exactly once, unless gravity is
due at that edge: then it makes none. -/
theorem press_acts_once_iff (htu : t < u) :
    (∃! v, (t ≤ v ∧ v < u) ∧
      (branch playerNum ((design oor playerNum).trace r inp v) (inp v)).effect = .move m) ↔
      ((design oor playerNum).trace r inp t).downCounter < (inp t).levelSpeed := by
  -- after the first frame the key is sampled as held
  have hlater : ∀ v, t < v → v < u →
      (branch playerNum ((design oor playerNum).trace r inp v) (inp v)).effect ≠ .move m := fun v h1 h2 hv => by
    have hs := (key_of_move hv hp.ne_down).2.1
    rw [sampled_trace hp hheld h1 (le_of_lt h2)] at hs
    cases hs
  constructor
  · rintro ⟨v, ⟨⟨h1, h2⟩, hv⟩, -⟩
    rcases lt_or_eq_of_le h1 with h1 | rfl
    · exact absurd hv (hlater v h1 h2)
    · exact (key_of_move hv hp.ne_down).2.2
  · intro hdue
    refine ⟨t, ⟨⟨le_rfl, htu⟩, hp.effect hdue⟩, ?_⟩
    rintro v ⟨⟨h1, h2⟩, hv⟩
    by_contra hne
    exact hlater v (lt_of_le_of_ne h1 (Ne.symm hne)) h2 hv

end Run

/-- After a reset in cycle 0 there is a frame edge in every even cycle; player 1 presses A before the
edge in cycle `n` and holds it. -/
def pressAt (n : ℕ) (t : ℕ) : In :=
  { reset := t == 0
    frameClk := t % 2 == 1
    keycode := if n ≤ t then 1 else 0
    canMove := ⟨true, true, true, true, true⟩
    boardBusy := false
    levelSpeed := 5 }

theorem held_pressAt (n v : ℕ) (h : n ≤ v) : (keys 1 (pressAt n v).keycode).of .left = true := by
  have hk : (keys 1 1).of .left = true := by decide
  rwa [pressAt, if_pos h]

/-- A key pressed at the first edge moves the piece once. -/
theorem press_acts_once_first :
    ∃! v, (2 ≤ v ∧ v < 6) ∧
      (branch 1 ((design someReads 1).trace Tetris.powerUp.logic (pressAt 2) v) (pressAt 2 v)).effect =
        .move .left := by
  refine (press_acts_once_iff (t := 2) ⟨rfl, rfl, rfl, rfl, fun m hm => ?_, rfl, rfl⟩
    (fun v hv _ _ => held_pressAt 2 v hv) (by decide)).2 (by decide +kernel)
  cases m <;> first | rfl | exact absurd rfl hm

/-- Gravity is due at the edge in cycle 12, and a key that goes down there moves nothing. -/
theorem press_lost :
    let tr := (design someReads 1).trace Tetris.powerUp.logic (pressAt 12)
    JustPressed 1 (tr 12) (pressAt 12 12) .left ∧
      (∀ v, 12 ≤ v → v < 16 → (keys 1 (pressAt 12 v).keycode).of .left = true) ∧
      (tr 14).frameClkRisingEdge = true ∧
      ¬ ∃! v, (12 ≤ v ∧ v < 16) ∧ (branch 1 (tr v) (pressAt 12 v)).effect = .move .left := by
  intro tr
  have hp : JustPressed 1 (tr 12) (pressAt 12 12) .left := by
    refine ⟨by decide +kernel, rfl, rfl, rfl, fun m hm => ?_, by decide +kernel, rfl⟩
    cases m <;> first | rfl | exact absurd rfl hm
  have hheld : ∀ v, 12 ≤ v → v < 16 → (keys 1 (pressAt 12 v).keycode).of .left = true :=
    fun v hv _ => held_pressAt 12 v hv
  refine ⟨hp, hheld, by decide +kernel, fun honce => ?_⟩
  have hdue := (press_acts_once_iff hp (fun v h1 h2 _ => hheld v h1 h2) (by decide)).1 honce
  revert hdue
  decide +kernel

end BlockLogic

end FpgaTetris
