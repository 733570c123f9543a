/-
Play. Frame by frame a player can take the piece in play along any path of legal moves and let it
lock; with no row full, the next piece comes into play on the cells where it spawns, if these are
free.
-/
import FpgaTetris.Game.Frame

namespace FpgaTetris

/-- The cells at which a new piece comes into play. -/
def spawnCells (oor : OutOfRange) (idx : BitVec 3) : List Pos := cells (xBlockChoices oor idx) (yBlockChoices oor idx)

namespace Position

/-- Every position on the way through the moves is legal. -/
def Path (P : Position) : List Move → Prop
  | [] => True
  | m :: ms => (P.move m).Legal ∧ (P.move m).Path ms

instance (P : Position) : Decidable P.Legal := List.decidableBAll P.settled.Free P.cells

instance Path.decidable : ∀ (P : Position) (ms : List Move), Decidable (P.Path ms)
  | _, [] => isTrue trivial
  | P, m :: ms => @instDecidableAnd _ _ _ (Path.decidable (P.move m) ms)

/-- The position after the moves. -/
def moves (P : Position) (ms : List Move) : Position := ms.foldl move P

/-- A new piece on the settled cells `b`. -/
def spawn (oor : OutOfRange) (b : BoardArr) (idx : BitVec 3) : Position :=
  ⟨b, xBlockChoices oor idx, yBlockChoices oor idx, blockColorChoices oor idx, .normal⟩

end Position

namespace Tetris

variable {oor : OutOfRange} {playerNum : BitVec 2} {s s' s'' : Tetris} {P Q R : Position} {m : Move}
  {n n' : BitVec 10}

/-! ## Where play can lead -/

/-- A cycle of untroubled play: no reset, no hold, and a lock fills no row and leaves the next piece its
cells. -/
structure Smooth (oor : OutOfRange) (playerNum : BitVec 2) (s : Tetris) (i : In) : Prop where
  reset : i.reset = false
  hold : (s.branch oor playerNum i).effect ≠ .hold
  lock : (s.branch oor playerNum i).effect = .lock →
    (¬ ∃ y, FullRow s.board.boardArr y) ∧ ∀ p ∈ spawnCells oor s.logic.blockIdx, s.board.boardArr.Free p

/-- Untroubled play leads from one state to another. -/
def Reaches (oor : OutOfRange) (playerNum : BitVec 2) : Tetris → Tetris → Prop :=
  Relation.ReflTransGen ((design oor playerNum).Step (Smooth oor playerNum))

theorem Smooth.of_quiet {i : In} (hi : i.reset = false) (hl : (s.branch oor playerNum i).effect ≠ .lock)
    (hh : (s.branch oor playerNum i).effect ≠ .hold) : Smooth oor playerNum s i :=
  ⟨hi, hh, fun h => absurd h hl⟩

theorem Reaches.next {i : In} (h : Smooth oor playerNum s i) : Reaches oor playerNum s (s.next oor playerNum i) :=
  .single ⟨i, h, rfl⟩

theorem Reaches.idle (he : s.logic.frameClkRisingEdge = false) {i : In} (hi : i.reset = false) :
    Reaches oor playerNum s (s.next oor playerNum i) := by
  have hb := stay_of_noEdge oor playerNum i he
  exact .next (.of_quiet hi (by simp [hb]) (by simp [hb]))

theorem Reaches.frame {k : BitVec 32} (h : Shows oor P s) (hQ : Leads P (s.frameBranch oor playerNum k) Q) :
    Reaches oor playerNum s (s.frame oor playerNum k) := by
  have hedge := h.rise playerNum k
  have hact : Smooth oor playerNum (s.next oor playerNum ⟨false, true, k⟩) ⟨false, false, k⟩ :=
    .of_quiet rfl hQ.ne_lock hQ.ne_hold
  exact ((Reaches.idle h.noEdge rfl).trans (Reaches.next hact)).trans
    (Reaches.idle (hedge.inv.noEdge_next hedge.edge) rfl)

/-- A player can bring about the position `Q`, with move codes that add up to `n`. -/
structure Played (oor : OutOfRange) (playerNum : BitVec 2) (s : Tetris) (n : BitVec 10) (Q : Position)
    (s' : Tetris) : Prop where
  reaches : Reaches oor playerNum s s'
  ticks : s.logic.blockGen.Ticks n s'.logic.blockGen
  ready : Ready oor Q s'

theorem Played.trans (h : Played oor playerNum s n Q s') (h' : Played oor playerNum s' n' R s'') :
    Played oor playerNum s (n + n') R s'' :=
  ⟨h.reaches.trans h'.reaches, h.ticks.trans h'.ticks, h'.ready⟩

/-! ## Frames without a key -/

section NoKey

variable (playerNum) (h : Shows oor P s)

include h

theorem Shows.downCounter_rise : (s.next oor playerNum ⟨false, true, 0⟩).logic.downCounter = s.logic.downCounter :=
  (next_logic_idle oor playerNum h.noEdge rfl).1

theorem Shows.frameBranch_fall (hc : ¬ 60 ≤ s.logic.downCounter) : s.frameBranch oor playerNum 0 = .fall := by
  unfold frameBranch
  rw [(h.rise playerNum 0).branch_noKey, h.downCounter_rise, if_neg hc]

theorem Shows.frameBranch_due (hc : 60 ≤ s.logic.downCounter) :
    ((P.move .down).Legal → s.frameBranch oor playerNum 0 = .gravityDown) ∧
      (¬ (P.move .down).Legal → s.frameBranch oor playerNum 0 = .gravityLock) := by
  have hdown := (h.rise playerNum 0).canMove_iff .down
  unfold frameBranch
  rw [(h.rise playerNum 0).branch_noKey, h.downCounter_rise, if_pos hc, ← hdown]
  exact ⟨fun hl => if_pos hl, fun hl => if_neg hl⟩

end NoKey

theorem Shows.played_noKey (h : Shows oor P s) (hQ : Leads P (s.frameBranch oor playerNum 0) Q) (hl : Q.Legal) :
    Played oor playerNum s ((s.frameBranch oor playerNum 0).code.setWidth 10) Q (s.frame oor playerNum 0) := by
  obtain ⟨-, hg, hr⟩ := h.frame_logic oor playerNum hQ
  exact ⟨.frame h hQ, hg, h.frame hQ hl, hr rfl⟩

variable (playerNum)

/-- Before gravity is due the piece stays, and the counter goes up. -/
theorem Shows.fall (h : Shows oor P s) (hc : ¬ 60 ≤ s.logic.downCounter) :
    Played oor playerNum s 0 P (s.frame oor playerNum 0) ∧
      (s.frame oor playerNum 0).logic.downCounter = s.logic.downCounter + 1 := by
  have hbr := h.frameBranch_fall playerNum hc
  have hQ : Leads P (s.frameBranch oor playerNum 0) P := by rw [hbr]; exact .stay rfl
  have hplayed := h.played_noKey hQ h.legal
  obtain ⟨hd, -⟩ := h.frame_logic oor playerNum hQ
  rw [hbr] at hd hplayed
  exact ⟨hplayed, hd⟩

/-- The player can wait until gravity is due. -/
theorem Ready.wait (h : Ready oor P s) :
    ∃ s', Played oor playerNum s 0 P s' ∧ 60 ≤ s'.logic.downCounter := by
  generalize hn : 60 - s.logic.downCounter.toNat = n
  induction n generalizing s with
  | zero => exact ⟨s, ⟨.refl, .refl _, h⟩, BitVec.le_def.2 (Nat.le_of_sub_eq_zero hn)⟩
  | succ n ih =>
    have hlt : s.logic.downCounter.toNat < 60 := by omega
    obtain ⟨hp, hd⟩ := h.toShows.fall playerNum fun hc => absurd (BitVec.le_def.1 hc) (not_le.2 hlt)
    have hnat : (s.frame oor playerNum 0).logic.downCounter.toNat = s.logic.downCounter.toNat + 1 := by
      rw [hd]
      exact BitVec.toNat_add_of_lt (show _ + 1 < 64 by omega)
    obtain ⟨s', hp', hc⟩ := ih hp.ready (by omega)
    exact ⟨s', hp.trans hp', hc⟩

/-- Gravity takes the piece one row down, if it is free to move. -/
theorem Ready.down (h : Ready oor P s) (hl : (P.move .down).Legal) :
    ∃ s', Played oor playerNum s 2 (P.move .down) s' ∧ s'.logic.downCounter = 0 := by
  obtain ⟨s₁, hp, hc⟩ := h.wait playerNum
  have h₁ := hp.ready.toShows
  have hbr := (h₁.frameBranch_due playerNum hc).1 hl
  have hQ : Leads P (s₁.frameBranch oor playerNum 0) (P.move .down) := by rw [hbr]; exact .move rfl
  have hplayed := hp.trans (h₁.played_noKey hQ hl)
  obtain ⟨hd, -⟩ := h₁.frame_logic oor playerNum hQ
  rw [hbr] at hd hplayed
  exact ⟨_, hplayed, hd⟩

/-! ## Frames with a key -/

/-- A key just pressed makes its move and leaves the gravity counter alone. -/
theorem Ready.press (h : Ready oor P s) (hm : m ≠ .down) (hc : ¬ 60 ≤ s.logic.downCounter) (hl : (P.move m).Legal) :
    let n := s.frame oor playerNum (BlockLogic.press playerNum m)
    Reaches oor playerNum s n ∧ Shows oor (P.move m) n ∧ n.logic.downCounter = s.logic.downCounter ∧
      s.logic.blockGen.Ticks ((BlockLogic.moveBranch m).code.setWidth 10) n.logic.blockGen := by
  intro n
  obtain ⟨hd, -, -, hr⟩ :=
    next_logic_idle oor playerNum h.noEdge (i := ⟨false, true, BlockLogic.press playerNum m⟩) rfl
  have hbr : s.frameBranch oor playerNum (BlockLogic.press playerNum m) = BlockLogic.moveBranch m :=
    (h.toShows.rise playerNum _).branch_press (hr h.released) (by rwa [hd]) hm hl
  have hQ : Leads P (s.frameBranch oor playerNum (BlockLogic.press playerNum m)) (P.move m) := by
    rw [hbr]; exact .move (BlockLogic.effect_moveBranch m)
  obtain ⟨hcount, hticks, -⟩ := h.toShows.frame_logic oor playerNum hQ
  rw [hbr] at hcount hticks
  refine ⟨.frame h.toShows hQ, h.toShows.frame hQ hl, hcount.trans ?_, hticks⟩
  cases m <;> first | rfl | exact absurd rfl hm

/-- A move made by a key takes two frames: the key is pressed, then released. -/
theorem Ready.slide (h : Ready oor P s) (hm : m ≠ .down) (hc : ¬ 60 ≤ s.logic.downCounter) (hl : (P.move m).Legal) :
    ∃ s', Played oor playerNum s ((BlockLogic.moveBranch m).code.setWidth 10) (P.move m) s' ∧
      s'.logic.downCounter = s.logic.downCounter + 1 := by
  obtain ⟨hreach, hshows, hd, hticks⟩ := h.press playerNum hm hc hl
  obtain ⟨hp, hd'⟩ := hshows.fall playerNum (by rwa [hd])
  refine ⟨_, ⟨hreach.trans hp.reaches, ?_, hp.ready⟩, hd'.trans (by rw [hd])⟩
  rw [← add_zero (BitVec.setWidth _ _)]
  exact hticks.trans hp.ticks

/-! ## Paths -/

/-- Any legal move can be made while gravity is not due. -/
theorem Ready.move (h : Ready oor P s) (hc : s.logic.downCounter.toNat < 60) (hl : (P.move m).Legal) :
    ∃ s', Played oor playerNum s ((BlockLogic.moveBranch m).code.setWidth 10) (P.move m) s' ∧
      s'.logic.downCounter.toNat ≤ s.logic.downCounter.toNat + 1 := by
  by_cases hm : m = .down
  · subst hm
    obtain ⟨s', hp, hd⟩ := h.down playerNum hl
    exact ⟨s', hp, by rw [hd]; exact Nat.zero_le _⟩
  · obtain ⟨s', hp, hd⟩ := h.slide playerNum hm
      (fun h60 => absurd (BitVec.le_def.1 h60) (not_le.2 hc)) hl
    refine ⟨s', hp, ?_⟩
    rw [hd, BitVec.toNat_add]
    exact Nat.mod_le _ _

/-- The sum of the move codes. -/
def codes (ms : List Move) : BitVec 10 := (ms.map fun m => (BlockLogic.moveBranch m).code.setWidth 10).sum

/-- A player can take the piece along any legal path with few enough sideways moves. -/
theorem Ready.path (h : Ready oor P s) (ms : List Move) (hc : s.logic.downCounter.toNat + ms.length ≤ 60)
    (hp : P.Path ms) : ∃ s', Played oor playerNum s (codes ms) (P.moves ms) s' := by
  induction ms generalizing P s with
  | nil => exact ⟨s, .refl, .refl _, h⟩
  | cons m ms ih =>
    rw [List.length_cons] at hc
    obtain ⟨s₁, hm, hd⟩ := h.move playerNum (by omega) hp.1
    obtain ⟨s', hms⟩ := ih hm.ready (by omega) hp.2
    exact ⟨s', hm.trans hms⟩

/-! ## Arrivals -/

/-- Early in a game, in `PLAY`, a new piece waits to be written on the board `b`. -/
structure Arrives (oor : OutOfRange) (b : BoardArr) (idx : BitVec 3) (s : Tetris) : Prop where
  inv : Inv oor s
  play : s.board.state = .play
  total : s.board.totalNumRows = 0
  piece : BlockLogic.Loaded oor idx s.logic
  saveX : s.logic.saveXblock = s.logic.xBlock
  saveY : s.logic.saveYblock = s.logic.yBlock
  noEdge : s.logic.frameClkRisingEdge = false
  released : s.logic.Released
  board : s.board.boardArr = b

/-- A new piece comes into play in one cycle, if its cells are free. -/
theorem Arrives.ready {b : BoardArr} {idx : BitVec 3} (h : Arrives oor b idx s)
    (hfree : (Position.spawn oor b idx).Legal) :
    let n := s.next oor playerNum ⟨false, false, 0⟩
    Ready oor (.spawn oor b idx) n ∧ n.logic.downCounter = 0 ∧ s.logic.blockGen.Ticks 0 n.logic.blockGen := by
  intro n
  obtain ⟨hd, hticks, -, hkeys⟩ := next_logic_idle oor playerNum h.noEdge (i := ⟨false, false, 0⟩) rfl
  have hr := next_rests oor playerNum (i := ⟨false, false, 0⟩) rfl h.noEdge h.play h.total
  have hcells : s.logic.pieceCells = spawnCells oor idx := by
    unfold BlockLogic.pieceCells spawnCells
    rw [h.piece.x, h.piece.y]
  have hlift : b.paint (spawnCells oor idx) .empty = b := BoardArr.paint_free hfree
  refine ⟨⟨⟨⟨h.inv.next _, hr.play, hr.total, hr.level, hr.saveX, hr.saveY, hr.x.trans h.piece.x,
    hr.y.trans h.piece.y, hr.color.trans h.piece.block, hr.orientation.trans h.piece.orientation, ?_, hfree⟩,
    rfl, rfl⟩, hkeys h.released⟩, hd.trans h.piece.down, hticks⟩
  rw [hr.board, BlockLogic.savedCells_eq h.saveX h.saveY, hcells, h.board, hlift, h.piece.block]
  rfl

/-! ## Locks -/

/-- A player can let a piece that has come down lock. -/
theorem Ready.atLock (h : Ready oor P s) (hl : ¬ (P.move .down).Legal) :
    ∃ e, Reaches oor playerNum s e ∧ AtEdge oor P e ∧ e.branch oor playerNum ⟨false, false, 0⟩ = .gravityLock ∧
      s.logic.blockGen.Ticks 0 e.logic.blockGen ∧ e.logic.blockGen.oldIdx = e.logic.blockGen.nextBlockIdx := by
  obtain ⟨s₁, hp, hc⟩ := h.wait playerNum
  have h₁ := hp.ready.toShows
  obtain ⟨-, hticks, hold, -⟩ := next_logic_idle oor playerNum h₁.noEdge (i := ⟨false, true, 0⟩) rfl
  exact ⟨_, hp.reaches.trans (Reaches.idle h₁.noEdge rfl), h₁.rise playerNum 0, (h₁.frameBranch_due playerNum hc).2 hl,
    hp.ticks.trans hticks, hold⟩

section Lock

variable {playerNum} {e : Tetris} (h : AtEdge oor P e) (hb : e.branch oor playerNum ⟨false, false, 0⟩ = .gravityLock)

include hb

/-- The index drawn at a lock is that of the low random bits, when they name a piece other than the
last one drawn. -/
theorem nextBlockIdx_of_lock {idx : BitVec 3} (hlow : e.logic.blockGen.generatedBits.extractLsb' 0 3 = idx)
    (h6 : ¬ 6 < idx) (hne : idx ≠ e.logic.blockGen.oldIdx) :
    (e.next oor playerNum ⟨false, false, 0⟩).logic.blockGen.nextBlockIdx = idx := by
  have hgen : BlockLogic.genIn oor playerNum e.logic (e.logicIn oor ⟨false, false, 0⟩) =
      ⟨false, true, e.logic.curBlockIdx + 1⟩ := by
    unfold BlockLogic.genIn BlockLogic.comb
    rw [show BlockLogic.branch _ _ _ = _ from hb]
    rfl
  show (TetrominoGenerator.next _ (BlockLogic.genIn _ _ _ _)).nextBlockIdx = idx
  rw [hgen]
  show (if 6 < _ ∨ _ = _ then _ else _) = idx
  rw [hlow, if_neg (not_or.2 ⟨h6, hne⟩)]

include h

/-- With no row full, the next piece arrives on the board with the old one settled. -/
theorem AtEdge.arrives (hfull : ¬ ∃ y, FullRow P.locked y) :
    Arrives oor P.locked e.logic.blockIdx (e.next oor playerNum ⟨false, false, 0⟩) := by
  have hl : (e.branch oor playerNum ⟨false, false, 0⟩).effect = .lock := by rw [hb]; rfl
  have hst := stepped oor playerNum e (i := ⟨false, false, 0⟩) rfl
  have hpiece := (hst.load (.inl hl)).1
  rw [hb] at hpiece
  obtain ⟨hsx, hsy⟩ := hst.saveLock hl
  have hstay : ¬ ((e.branch oor playerNum ⟨false, false, 0⟩).effect = .lock ∧ ∃ y, FullRow e.board.boardArr y) :=
    fun hc => hfull (h.board ▸ hc.2)
  have hsave : e.board.saveClearY (e.boardIn oor playerNum ⟨false, false, 0⟩) = false :=
    Bool.eq_false_iff.2 fun hs => hstay ((saveClearY_iff h.play).1 hs)
  refine ⟨h.inv.next _, ?_, (next_slow rfl hsave h.total).1, hpiece, hsx, hsy, h.inv.noEdge_next h.edge,
    BlockLogic.released_next h.edge rfl, ?_⟩
  · rw [next_state_play oor playerNum rfl h.play, if_neg hstay]
  · rw [h.inv.boardArr_of_lock hl, h.board]

/-- The cycle of such a lock, and the one after it, if the cells where the next piece spawns are free. -/
theorem AtEdge.reaches_next (hfull : ¬ ∃ y, FullRow P.locked y)
    (hfree : (Position.spawn oor P.locked e.logic.blockIdx).Legal) :
    Reaches oor playerNum e
      ((e.next oor playerNum ⟨false, false, 0⟩).next oor playerNum ⟨false, false, 0⟩) := by
  have hlock : Smooth oor playerNum e ⟨false, false, 0⟩ := by
    refine ⟨rfl, by rw [hb]; exact Effect.noConfusion, fun _ => ?_⟩
    rw [h.board]
    exact ⟨hfull, hfree⟩
  exact (Reaches.next hlock).trans (Reaches.idle (h.inv.noEdge_next h.edge) rfl)

theorem AtEdge.clearing (hfull : ∃ y, FullRow P.locked y) :
    Board.Clearing oor P.locked (e.next oor playerNum ⟨false, false, 0⟩).board := by
  have hl : (e.branch oor playerNum ⟨false, false, 0⟩).effect = .lock := by rw [hb]; rfl
  rw [← h.board] at hfull ⊢
  exact h.inv.clearing_of_lock hl hfull

end Lock

/-- A piece that has come down without filling a row can be followed by the next one, if the cells where
it spawns are free. While the generator shows index 0, the low random bits are those of the next draw. -/
theorem Ready.next_piece (h : Ready oor P s) (hl : ¬ (P.move .down).Legal) (hfull : ¬ ∃ y, FullRow P.locked y)
    (hfree : (Position.spawn oor P.locked s.logic.blockIdx).Legal) :
    ∃ s', Reaches oor playerNum s s' ∧ Ready oor (.spawn oor P.locked s.logic.blockIdx) s' ∧
      s'.logic.downCounter = 0 ∧
      (s.logic.blockIdx = 0 → ∀ idx, s.logic.blockGen.generatedBits.extractLsb' 0 3 = idx → ¬ 6 < idx →
        idx ≠ 0 → s'.logic.blockIdx = idx) := by
  obtain ⟨e, hreach, he, hb, hticks, hold⟩ := h.atLock playerNum hl
  have hidx : e.logic.blockIdx = s.logic.blockIdx := hticks.nextBlockIdx
  rw [← hidx] at hfree ⊢
  obtain ⟨hready, hd, hticks'⟩ := (he.arrives hb hfull).ready playerNum hfree
  refine ⟨_, hreach.trans (he.reaches_next hb hfull hfree), hready, hd, fun h0 idx hlow h6 hne => ?_⟩
  have hdraw : (e.next oor playerNum ⟨false, false, 0⟩).logic.blockGen.nextBlockIdx = idx := by
    refine nextBlockIdx_of_lock hb ?_ h6 ?_
    · rw [hticks.bits (hidx.symm.trans h0), add_zero, hlow]
    · rw [hold]
      exact fun h => hne (h.trans h0)
  exact hticks'.nextBlockIdx.trans hdraw

/-! ## The start -/

variable (oor) in
/-- After power-up and a reset the first piece arrives, the one with index 0. -/
theorem arrives_powerUp : Arrives oor (fun _ => .empty) 0 (powerUp.next oor playerNum ⟨true, false, 0⟩) := by
  have hinv : Inv oor (powerUp.next oor playerNum ⟨true, false, 0⟩) := inv_reset (by decide) rfl
  obtain ⟨hpiece, hsx, hsy, -⟩ :=
    BlockLogic.next_reset oor playerNum powerUp.logic (powerUp.logicIn oor ⟨true, false, 0⟩) rfl
  obtain ⟨harr, hs, -, -, -, ht, -⟩ := next_board_reset oor playerNum powerUp (i := ⟨true, false, 0⟩) rfl
  exact ⟨hinv, hs, ht, hpiece, hsx, hsy, rfl, ⟨rfl, rfl, rfl, rfl⟩, harr⟩

/-- A run from power-up whose play up to cycle `t` is untroubled. -/
structure SmoothRun (oor : OutOfRange) (playerNum : BitVec 2) (inp : ℕ → In) (t : ℕ) : Prop where
  pos : 0 < t
  reset : (inp 0).reset = true
  run : ∀ u, 0 < u → (inp u).reset = false
  smooth : ∀ u, 0 < u → u < t → Smooth oor playerNum ((design oor playerNum).trace powerUp inp u) (inp u)

variable {playerNum} in
/-- A state that play can lead to lies on a run from power-up, which goes on as wanted. -/
theorem exists_run (h : Reaches oor playerNum (powerUp.next oor playerNum ⟨true, false, 0⟩) s) (rest : ℕ → In)
    (hrest : ∀ t, (rest t).reset = false) :
    ∃ t inp, SmoothRun oor playerNum inp t ∧ (design oor playerNum).trace powerUp inp t = s ∧
      ∀ u, inp (t + u) = rest u := by
  obtain ⟨n, inp, hok, htrace, hinp⟩ := Sync.Design.exists_trace _ _ h rest
  have hrun : ∀ u, (inp u).reset = false :=
    Sync.Design.forall_inputs (P := fun i : In => i.reset = false) (fun u hu => (hok u hu).reset) hinp hrest
  refine ⟨n + 1, Sync.Design.cons ⟨true, false, 0⟩ inp, ⟨Nat.succ_pos n, rfl, fun u hu => ?_, fun u hu hun => ?_⟩, ?_,
    fun u => ?_⟩
  · obtain ⟨u, rfl⟩ := Nat.exists_eq_succ_of_ne_zero (Nat.ne_of_gt hu)
    exact hrun u
  · obtain ⟨u, rfl⟩ := Nat.exists_eq_succ_of_ne_zero (Nat.ne_of_gt hu)
    rw [Sync.Design.trace_cons]
    exact hok u (Nat.lt_of_succ_lt_succ hun)
  · rw [Sync.Design.trace_cons]
    exact htrace
  · rw [Nat.add_right_comm]
    exact hinp u

end Tetris

end FpgaTetris
