/-
Free fall. As long as a player gives no new command, the piece falls one row for every `level_speed` + 1
frames, with the speed that the rows cleared so far stand for.
-/
import FpgaTetris.Game.Gravity

namespace FpgaTetris

/-! ## Without a command -/

namespace BlockLogic

variable {oor : OutOfRange} {playerNum : BitVec 2} {r : BlockLogic} {i : In}

/-- No movement key has just gone down, and those of the soft drop and of the hold are up. -/
structure NoCommand (playerNum : BitVec 2) (r : BlockLogic) (keycode : BitVec 32) : Prop where
  moves : ∀ m, (keys playerNum keycode).of m = true → r.sampled m = true
  drop : (keys playerNum keycode).speedDown = false
  hold : (keys playerNum keycode).holdBlock = false

/-- A frame edge is then counted, unless gravity is due. -/
theorem NoCommand.branch (h : NoCommand playerNum r i.keycode) (hi : i.reset = false) (hb : i.boardBusy = false)
    (he : r.frameClkRisingEdge = true) :
    branch playerNum r i =
      if i.levelSpeed ≤ r.downCounter then if i.canMove.down then .gravityDown else .gravityLock else .fall := by
  obtain ⟨hm, hd, hh⟩ := h
  have hl := hm .left
  have hr := hm .right
  have hrl := hm .rotateLeft
  have hrr := hm .rotateRight
  unfold BlockLogic.branch
  generalize keys playerNum i.keycode = k at *
  dsimp only
  rw [if_neg (by simp [hi, hb])]
  by_cases hdue : i.levelSpeed ≤ r.downCounter
  · rw [if_pos ⟨he, hdue⟩, if_pos hdue]
  · rw [if_neg fun h => hdue h.2, if_neg hdue, if_pos he, if_neg fun h => h.2.2 ((hrl h.1).trans h.1.symm),
      if_neg fun h => h.2.2 ((hrr h.1).trans h.1.symm), if_neg fun h => h.2.2 ((hr h.1).trans h.1.symm),
      if_neg fun h => h.2.2 ((hl h.1).trans h.1.symm), if_neg (by simp [hd]), if_neg (by simp [hh])]

/-- A branch that does something starts the count of frames again, or leaves it as it is. -/
theorem Branch.count_of_ne_stay {br : Branch} (c : BitVec 6) (h : br.effect ≠ .stay) :
    br.count c = 0 ∨ br.count c = c := by
  cases br <;> first | exact absurd rfl h | exact .inl rfl | exact .inr rfl

/-- Whatever is pressed, frames are counted up to the speed at most. -/
theorem count_le (playerNum : BitVec 2) (h : r.downCounter ≤ i.levelSpeed) :
    (branch playerNum r i).count r.downCounter ≤ i.levelSpeed := by
  by_cases hidle : branch playerNum r i = .idle
  · rw [hidle]
    exact h
  obtain ⟨hi, hb, he⟩ := (branch_guard playerNum r i).active hidle
  have hedge := (branch_of_edge playerNum hi hb he).2
  by_cases hstay : (branch playerNum r i).effect = .stay
  · obtain ⟨hlt, hcount⟩ := hedge hstay
    rw [hcount]
    bv_omega
  · rcases Branch.count_of_ne_stay r.downCounter hstay with hcount | hcount <;> rw [hcount]
    · exact BitVec.le_def.2 (Nat.zero_le _)
    · exact h

end BlockLogic

namespace Tetris

variable {oor : OutOfRange} {playerNum : BitVec 2} {s s₀ : Tetris} {i : In} {n k : ℕ}

/-! ## The pace -/

/-- The speed is that of the rows cleared so far, and the frames are not counted beyond it. -/
structure Paced (s : Tetris) : Prop where
  level : s.board.boardBusy = false → s.board.levelSpeed = s.board.levelSpeedIn
  count : s.logic.downCounter ≤ s.board.levelSpeed

theorem paced_reset (hi : i.reset = true) : Paced (s.next oor playerNum i) := by
  obtain ⟨hl, -⟩ := BlockLogic.next_reset oor playerNum s.logic (s.logicIn oor i) hi
  obtain ⟨-, -, -, -, -, htot, hlev⟩ := next_board_reset oor playerNum s hi
  refine ⟨fun _ => ?_, ?_⟩
  · rw [hlev, Board.levelSpeedIn, htot]
    rfl
  · rw [show (s.next oor playerNum i).logic.downCounter = 0 from hl.down]
    exact BitVec.le_def.2 (Nat.zero_le _)

/-- Rows are counted in cycles that leave `PLAY`. -/
theorem levelSpeedIn_next (oor : OutOfRange) (playerNum : BitVec 2) (hi : i.reset = false)
    (hb : (s.next oor playerNum i).board.boardBusy = false) :
    (s.next oor playerNum i).board.levelSpeedIn = s.board.levelSpeedIn := by
  have hsave : s.board.saveClearY (s.boardIn oor playerNum i) = false := by
    by_contra hsave
    obtain ⟨hp, hnew, hclear⟩ : s.board.state = .play ∧ (s.boardIn oor playerNum i).getNewBlock = true ∧
        (Board.scan s.board.boardArr).canClearRow = true := by simpa [Board.saveClearY] using hsave
    have hstate : (s.next oor playerNum i).board.state = .clear := by
      rw [next_state hi, Board.nextState, hp]
      exact if_pos ⟨hnew, hclear⟩
    simp [Board.boardBusy, hstate] at hb
  unfold Board.levelSpeedIn
  rw [next_totalNumRows hi, hsave, if_neg Bool.false_ne_true]

theorem Paced.next (playerNum : BitVec 2) (h : Paced s) (hinv : Inv oor s) (i : In) :
    Paced (s.next oor playerNum i) := by
  cases hi : i.reset with
  | true => exact paced_reset hi
  | false =>
    refine ⟨fun hb => ?_, ?_⟩
    · rw [next_levelSpeed hi, levelSpeedIn_next oor playerNum hi hb]
    rw [next_levelSpeed hi, downCounter_next oor playerNum s hi]
    cases hb : s.board.boardBusy with
    | true =>
      -- the piece has just come into play
      have hp : s.board.state ≠ .play := fun hp => by simp [Board.boardBusy, hp] at hb
      rw [stay_of_busy hb, show BlockLogic.Branch.count _ .idle = s.logic.downCounter from rfl, (hinv.frozen hp).1]
      exact BitVec.le_def.2 (Nat.zero_le _)
    | false =>
      rw [← h.level hb]
      exact BlockLogic.count_le playerNum h.count

theorem paced_keeps : (design oor playerNum).Keeps (fun s i => i.reset = true ∧ s.logic.blockGen.InRange)
    (fun _ => True) fun s => Inv oor s ∧ Paced s :=
  ⟨fun _ _ h => ⟨inv_reset h.2 h.1, paced_reset h.1⟩, fun _ i _ h => ⟨h.1.next i, h.2.next playerNum h.1 i⟩⟩

/-! ## The fall -/

/-- A frame edge in the registers. -/
def frameEdge (s : Tetris) (_ : In) : Bool := s.logic.frameClkRisingEdge

/-- The piece of `s₀`, `n` frames later, has fallen by `k` rows. -/
structure Fallen (s₀ : Tetris) (n k : ℕ) (s : Tetris) : Prop where
  state : s.board.state = .play
  level : s.board.levelSpeed = s₀.board.levelSpeed
  x : s.logic.xBlock = s₀.logic.xBlock
  y : s.logic.yBlock = s₀.logic.yBlock.map (· + BitVec.ofNat 5 k)
  color : s.logic.block = s₀.logic.block
  orientation : s.logic.curOrientation = s₀.logic.curOrientation
  count : s.logic.downCounter.toNat + (s₀.board.levelSpeed.toNat + 1) * k = s₀.logic.downCounter.toNat + n

namespace Fallen

theorem start (hs : s₀.board.state = .play) : Fallen s₀ 0 0 s₀ := by
  refine ⟨hs, rfl, rfl, ?_, rfl, rfl, rfl⟩
  simp [Quad.map]

variable (h : Fallen s₀ n k s)

include h

theorem boardBusy : s.board.boardBusy = false := by simp [Board.boardBusy, h.state]

theorem stay (hp : Paced s) (hi : i.reset = false) (he : (s.branch oor playerNum i).effect = .stay) {d : ℕ}
    (hd : (s.next oor playerNum i).logic.downCounter.toNat = s.logic.downCounter.toNat + d) :
    Fallen s₀ (n + d) k (s.next oor playerNum i) := by
  have hst := stepped oor playerNum s hi
  have hl : (s.branch oor playerNum i).effect ≠ .lock := by simp [he]
  obtain ⟨hx, hy, ho⟩ := hst.stay he
  obtain ⟨hb, -⟩ := hst.keep hl (by simp [he])
  refine ⟨play_next oor playerNum hi h.state hl, ?_, hx.trans h.x, hy.trans h.y, hb.trans h.color,
    ho.trans h.orientation, ?_⟩
  · rw [next_levelSpeed hi, ← hp.level h.boardBusy]
    exact h.level
  · have hcount := h.count
    omega

/-- Gravity is due when the frames have been counted up to the speed. -/
theorem down (hp : Paced s) (hi : i.reset = false) (hb : s.branch oor playerNum i = .gravityDown)
    (hdue : s.board.levelSpeed ≤ s.logic.downCounter) : Fallen s₀ (n + 1) (k + 1) (s.next oor playerNum i) := by
  have hst := stepped oor playerNum s hi
  have he : (s.branch oor playerNum i).effect = .move .down := by rw [hb]; rfl
  have hl : (s.branch oor playerNum i).effect ≠ .lock := by simp [he]
  obtain ⟨hx, hy, ho⟩ := hst.move .down he
  obtain ⟨hblock, -⟩ := hst.keep hl (by simp [he])
  refine ⟨play_next oor playerNum hi h.state hl, ?_, hx.trans h.x, ?_, hblock.trans h.color, ho.trans h.orientation, ?_⟩
  · rw [next_levelSpeed hi, ← hp.level h.boardBusy]
    exact h.level
  · rw [hy, show (s.logic.target .down).2 = s.logic.yBlock.map (· + 1) from rfl, h.y]
    simp [Quad.map, BitVec.ofNat_add, add_assoc]
  · -- gravity is due only when the count has come to the level speed
    have hfull : s.logic.downCounter = s₀.board.levelSpeed := by
      rw [← h.level]
      exact BitVec.le_antisymm hp.count hdue
    have hcount := h.count
    rw [hfull] at hcount
    rw [downCounter_next oor playerNum s hi, hb, show BlockLogic.Branch.count _ .gravityDown = 0 from rfl, mul_add]
    show 0 + _ = _
    omega

/-- One cycle without a command. -/
theorem next (hp : Paced s) (hi : i.reset = false) (hk : BlockLogic.NoCommand playerNum s.logic i.keycode)
    (hl : (s.branch oor playerNum i).effect ≠ .lock) :
    ∃ k', Fallen s₀ (n + if s.logic.frameClkRisingEdge then 1 else 0) k' (s.next oor playerNum i) := by
  cases he : s.logic.frameClkRisingEdge with
  | false =>
    have hb := stay_of_noEdge oor playerNum i he
    have hcount : (s.next oor playerNum i).logic.downCounter = s.logic.downCounter := by
      rw [downCounter_next oor playerNum s hi, hb]
      rfl
    exact ⟨k, h.stay hp hi (by rw [hb]; rfl) (congrArg BitVec.toNat hcount)⟩
  | true =>
    have hb : s.branch oor playerNum i = _ := hk.branch (i := s.logicIn oor i) hi h.boardBusy he
    by_cases hdue : (s.logicIn oor i).levelSpeed ≤ s.logic.downCounter
    · rw [if_pos hdue] at hb
      -- gravity that is blocked would lock the piece
      by_cases hdown : (s.logicIn oor i).canMove.down = true
      · rw [if_pos hdown] at hb
        exact ⟨k + 1, h.down hp hi hb hdue⟩
      · rw [if_neg hdown] at hb
        exact absurd (by rw [hb]; rfl) hl
    · rw [if_neg hdue] at hb
      have hlt : s.logic.downCounter.toNat + 1 < 64 := by bv_omega
      refine ⟨k, h.stay hp hi (by rw [hb]; rfl) ?_⟩
      rw [downCounter_next oor playerNum s hi, hb]
      exact BitVec.toNat_add_of_lt hlt

end Fallen

/-! ## Whole runs -/

/-- Free fall. In any run after a reset, as long as the board is in `PLAY`, the player gives no new command
and the piece does not lock, it falls straight down, by one row for every `level_speed` + 1 frames, and the
speed is that of the rows cleared so far. -/
theorem free_fall (oor : OutOfRange) (playerNum : BitVec 2) (s : Tetris) (inp : ℕ → In) (h0 : (inp 0).reset = true)
    (hg : s.logic.blockGen.InRange) {a b : ℕ} (ha : 0 < a) (hab : a ≤ b)
    (hr : ∀ t, a ≤ t → t < b → (inp t).reset = false) :
    let d := design oor playerNum
    let tr := d.trace s inp
    let period := (tr a).board.levelSpeedIn.toNat + 1
    let frames := d.ticks s inp frameEdge b - d.ticks s inp frameEdge a
    let counted := (tr a).logic.downCounter.toNat + frames
    (tr a).board.state = .play →
    (∀ t, a ≤ t → t < b → BlockLogic.NoCommand playerNum (tr t).logic (inp t).keycode) →
    (∀ t, a ≤ t → t < b → ((tr t).comb oor playerNum (inp t)).getNewBlock = false) →
    (tr b).logic.xBlock = (tr a).logic.xBlock ∧
      (tr b).logic.yBlock = (tr a).logic.yBlock.map (· + BitVec.ofNat 5 (counted / period)) ∧
      (tr b).logic.curOrientation = (tr a).logic.curOrientation ∧
      (tr b).logic.downCounter.toNat = counted % period := by
  intro d tr period frames counted hplay hkeys hlocks
  have hinv : ∀ t, 0 < t → Inv oor (tr t) ∧ Paced (tr t) := paced_keeps.trace ⟨h0, hg⟩ fun _ _ => trivial
  have hlevel : (tr a).board.levelSpeed = (tr a).board.levelSpeedIn :=
    (hinv a ha).2.level (by simp [Board.boardBusy, hplay])
  -- by induction on the stretch: the rows fallen and the count make up the edges since
  have hrun : ∀ t, a ≤ t → t ≤ b →
      ∃ k, Fallen (tr a) (d.ticks s inp frameEdge t - d.ticks s inp frameEdge a) k (tr t) := by
    intro t hat htb
    induction t, hat using Nat.le_induction with
    | base =>
      rw [Nat.sub_self]
      exact ⟨0, .start hplay⟩
    | succ t hat ih =>
      obtain ⟨k, hk⟩ := ih (Nat.le_of_succ_le htb)
      have hmono : d.ticks s inp frameEdge a ≤ d.ticks s inp frameEdge t := Nat.count_monotone _ hat
      have hl : ((tr t).branch oor playerNum (inp t)).effect ≠ .lock := fun hl =>
        absurd (getNewBlock_iff.2 hl) (Bool.eq_false_iff.1 (hlocks t hat htb))
      rw [Sync.Design.ticks_succ, Nat.sub_add_comm hmono]
      exact hk.next (hinv t (lt_of_lt_of_le ha hat)).2 (hr t hat htb) (hkeys t hat htb) hl
  obtain ⟨k, hk⟩ := hrun b hab le_rfl
  have hle : (tr b).logic.downCounter.toNat < period := by
    have hle := BitVec.le_def.1 (hinv b (lt_of_lt_of_le ha hab)).2.count
    rw [hk.level, hlevel] at hle
    exact Nat.lt_succ_of_le hle
  have hcount : (tr b).logic.downCounter.toNat + period * k = counted := by
    have hcount := hk.count
    rwa [hlevel] at hcount
  -- the count is below the period, so the two are quotient and remainder
  obtain ⟨hdiv, hmod⟩ := (Nat.div_mod_unique (Nat.succ_pos _)).2 ⟨hcount, hle⟩
  exact ⟨hk.x, by rw [hdiv]; exact hk.y, hk.orientation, hmod.symm⟩

theorem noCommand_zero (playerNum : BitVec 2) (r : BlockLogic) : BlockLogic.NoCommand playerNum r 0 := by
  have hkeys : keys playerNum 0 = ⟨false, false, false, false, false, false⟩ := by
    simp [keys]
  refine ⟨fun m hm => ?_, by rw [hkeys], by rw [hkeys]⟩
  rw [hkeys] at hm
  cases m <;> cases hm

section Frame

variable {playerNum : BitVec 2} {s : Tetris} {inp : ℕ → In} {a : ℕ} {k : BitVec 32} {P : Position}
  (h : Shows oor P ((design oor playerNum).trace s inp a)) (h0 : inp a = ⟨false, true, k⟩)
  (h1 : inp (a + 1) = ⟨false, false, k⟩)

include h h0

theorem Shows.trace_rise : let tr := (design oor playerNum).trace s inp
    tr (a + 1) = (tr a).next oor playerNum ⟨false, true, k⟩ ∧ AtEdge oor P (tr (a + 1)) := by
  intro tr
  have hrise : tr (a + 1) = (tr a).next oor playerNum ⟨false, true, k⟩ := by
    show (tr a).next oor playerNum (inp a) = _
    rw [h0]
  exact ⟨hrise, hrise ▸ h.rise playerNum k⟩

include h1

theorem Shows.trace_rest : ((design oor playerNum).trace s inp (a + 2)).logic.frameClkRisingEdge = false := by
  obtain ⟨-, hedge⟩ := h.trace_rise h0
  rw [Sync.Design.trace_succ, h1]
  exact hedge.inv.noEdge_next hedge.edge

/-- The only frame edge of the three cycles is in the second one. -/
theorem Shows.ticks_frame : let d := design oor playerNum
    d.ticks s inp frameEdge (a + 3) = d.ticks s inp frameEdge a + 1 := by
  intro d
  rw [Sync.Design.ticks_succ, Sync.Design.ticks_succ, Sync.Design.ticks_succ, frameEdge, frameEdge, frameEdge,
    h.trace_rest h0 h1, (h.trace_rise h0).2.edge, h.noEdge]
  rfl

/-- So nothing but what happens in the second one can lock the piece. -/
theorem Shows.no_lock_of_frame (hb : (((design oor playerNum).trace s inp (a + 1)).branch oor playerNum
      (inp (a + 1))).effect ≠ .lock) {t : ℕ} (hat : a ≤ t) (hta : t < a + 3) :
    (((design oor playerNum).trace s inp t).comb oor playerNum (inp t)).getNewBlock = false := by
  refine Bool.eq_false_iff.2 fun hget => ?_
  have hlock := getNewBlock_iff.1 hget
  obtain rfl | rfl | rfl : t = a ∨ t = a + 1 ∨ t = a + 2 := by omega
  · rw [stay_of_noEdge _ _ _ h.noEdge] at hlock
    cases hlock
  · exact hb hlock
  · rw [stay_of_noEdge _ _ _ (h.trace_rest h0 h1)] at hlock
    cases hlock

end Frame

/-- Left alone, the first piece falls a row in the frame after the count has come to the speed. -/
theorem free_fall_down :
    let d := design someReads 1
    ∃ inp a, (d.trace powerUp inp (a + 3)).logic.yBlock = (d.trace powerUp inp a).logic.yBlock.map (· + 1) ∧
      (d.trace powerUp inp (a + 3)).logic.downCounter.toNat = 0 := by
  intro d
  have harrives := arrives_powerUp someReads 1
  obtain ⟨hready, -, -⟩ := harrives.ready 1 (by decide +kernel)
  obtain ⟨s, hplayed, hdue⟩ := hready.wait 1
  obtain ⟨a, inp, hsmooth, htrace, hrest⟩ := exists_run ((Reaches.idle harrives.noEdge rfl).trans hplayed.reaches)
    (frames fun _ => 0) fun _ => rfl
  have hshows : Shows someReads _ (d.trace powerUp inp a) := htrace ▸ hplayed.ready.toShows
  have hdue : 60 ≤ (d.trace powerUp inp a).logic.downCounter := htrace ▸ hdue
  have hinp : inp a = ⟨false, true, 0⟩ := hrest 0
  have hinp' : inp (a + 1) = ⟨false, false, 0⟩ := hrest 1
  have hfall : (d.trace powerUp inp (a + 1)).branch someReads 1 (inp (a + 1)) = .gravityDown := by
    rw [(hshows.trace_rise hinp).1, hinp']
    exact (hshows.frameBranch_due 1 hdue).1 (by decide +kernel)
  have hkeys : ∀ t, a ≤ t → (inp t).keycode = 0 := fun t ht => by
    obtain ⟨k, rfl⟩ := Nat.exists_eq_add_of_le ht
    rw [hrest]
    rfl
  -- the frames have been counted up to the level speed, which is that of level 0
  have hg : powerUp.logic.blockGen.InRange := by decide
  have hpaced : Paced (d.trace powerUp inp a) :=
    (paced_keeps.trace ⟨hsmooth.reset, hg⟩ (fun _ _ => trivial) a hsmooth.pos).2
  have hcount : (d.trace powerUp inp a).logic.downCounter.toNat = 60 := by
    have hle := hpaced.count
    rw [hshows.level] at hle
    bv_omega
  have hspeed : (d.trace powerUp inp a).board.levelSpeedIn.toNat = 60 := by
    rw [← hpaced.level (by simp [Board.boardBusy, hshows.play]), hshows.level]
    rfl
  obtain ⟨-, hy, -, hzero⟩ := free_fall someReads 1 powerUp inp hsmooth.reset hg hsmooth.pos
    (Nat.le_add_right a 3) (fun t ht _ => hsmooth.run t (lt_of_lt_of_le hsmooth.pos ht)) hshows.play
    (fun t ht _ => hkeys t ht ▸ noCommand_zero 1 _)
    fun t h1 h2 => hshows.no_lock_of_frame hinp hinp' (by rw [hfall]; decide) h1 h2
  rw [hshows.ticks_frame hinp hinp', Nat.add_sub_cancel_left, hcount, hspeed] at hy hzero
  exact ⟨inp, a, hy, hzero⟩

end Tetris

end FpgaTetris
