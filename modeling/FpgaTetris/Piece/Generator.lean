/-
The generator of pieces. In a game it never draws the index it replaces, because its copy of that
index is a cycle old and draws are at least two cycles apart. Its indices name pieces unless its
fair counter, which reset does not set, starts at 7.
-/
import FpgaTetris.Lib.Design
import FpgaTetris.Piece.Invariant
import FpgaTetris.Hdl.Tetris

namespace FpgaTetris

open Sync

namespace TetrominoGenerator

variable {g : TetrominoGenerator} {i : In}

def design : Sync.Design TetrominoGenerator In := ⟨next⟩

/-! ## One cycle -/

/-- A draw: a new index is asked for, and reset is low. -/
def Draws (i : In) : Prop := i.newBlock = true ∧ i.reset = false

/-- The low random bits name a piece, and not the last one. -/
def Usable (g : TetrominoGenerator) : Prop :=
  ¬ (6 < g.generatedBits.extractLsb' 0 3 ∨ g.generatedBits.extractLsb' 0 3 = g.oldIdx)

theorem next_blockIdx (g : TetrominoGenerator) (i : In) :
    (g.next i).blockIdx = if i.newBlock then g.blockIdxIn i else if i.reset then 0 else g.blockIdx := by
  unfold next blockIdx
  cases i.newBlock <;> cases i.reset <;> rfl

theorem next_oldIdx (g : TetrominoGenerator) (i : In) : (g.next i).oldIdx = g.blockIdx := by
  unfold next
  cases i.newBlock <;> cases i.reset <;> rfl

theorem next_fairCounter (g : TetrominoGenerator) (i : In) : (g.next i).fairCounter = g.fairCounterIn i := by
  unfold next
  cases i.newBlock <;> cases i.reset <;> rfl

theorem next_fairCounter_of_not_draws (h : ¬ Draws i) : (g.next i).fairCounter = g.fairCounter := by
  rw [next_fairCounter, fairCounterIn]
  cases hr : i.reset with
  | true => rfl
  | false => exact if_neg fun hn => h ⟨hn, hr⟩

/-- A draw differs from the last index the generator remembers. -/
theorem blockIdxIn_ne_oldIdx (h : Draws i) : g.blockIdxIn i ≠ g.oldIdx := by
  have hsucc : ∀ f : BitVec 3, f + 1 ≠ f := by decide
  have hwrap : ∀ f : BitVec 3, f = 6 → 0 ≠ f := by decide
  unfold blockIdxIn
  simp only [h.1, h.2, Bool.false_eq_true, if_false, if_true]
  split_ifs with h1 h2 h3
  · rw [h2]; exact hwrap _ h3
  · rw [h2]; exact hsucc _
  · exact fun heq => h2 heq.symm
  · exact fun heq => h1 (.inr heq)

/-! ## Indices after power-up -/

/-- A draw with a fair counter of 7 hands it on unless the random bits are usable or the last index
was 7 as well. -/
theorem blockIdxIn_le_iff (h : Draws i) (hf : g.fairCounter = 7) : g.blockIdxIn i ≤ 6 ↔ g.Usable ∨ g.oldIdx = 7 := by
  unfold blockIdxIn Usable
  simp only [h.1, h.2, hf, Bool.false_eq_true, if_false, if_true]
  by_cases hu : 6 < g.generatedBits.extractLsb' 0 3 ∨ g.generatedBits.extractLsb' 0 3 = g.oldIdx
  · rw [if_pos hu]
    by_cases ho : g.oldIdx = 7
    · rw [if_pos ho, if_neg (show ¬ (7 : BitVec 3) = 6 by decide)]
      exact iff_of_true (by decide) (.inr ho)
    · rw [if_neg ho]
      exact iff_of_false (by decide) fun hc => hc.elim (fun hc => hc hu) ho
  · rw [if_neg hu]
    exact iff_of_true (BitVec.not_lt.1 fun hlt => hu (.inl hlt)) (.inl hu)

/-- The first draw in cycle `t`. -/
def FirstDraw (inp : ℕ → In) (t : ℕ) : Prop := Draws (inp t) ∧ ∀ u < t, ¬ Draws (inp u)

section Run

variable {inp : ℕ → In} {t : ℕ}

theorem trace_succ (g : TetrominoGenerator) (inp : ℕ → In) (t : ℕ) :
    design.trace g inp (t + 1) = (design.trace g inp t).next (inp t) := rfl

variable (g inp) in
/-- Until the first draw the fair counter is what it was at power-up, and only then can it be 7. -/
theorem fairCounter_trace (t : ℕ) :
    (design.trace g inp t).fairCounter ≤ 6 ∨
      (design.trace g inp t).fairCounter = 7 ∧ g.fairCounter = 7 ∧ ∀ u < t, ¬ Draws (inp u) := by
  have htop : ∀ f : BitVec 3, f ≤ 6 ∨ f = 7 := by decide
  induction t with
  | zero => exact (htop g.fairCounter).imp_right fun h => ⟨h, h, fun u hu => absurd hu (Nat.not_lt_zero u)⟩
  | succ t ih =>
    rw [trace_succ, next_fairCounter]
    rcases ih with ih | ⟨ih, hg, hno⟩
    · exact .inl (fairCounterIn_le ih)
    -- the first draw takes the counter away from 7
    by_cases hd : Draws (inp t)
    · refine .inl ?_
      unfold fairCounterIn
      rw [if_neg (by simp [hd.2]), if_pos hd.1, ih]
      decide
    · rw [← next_fairCounter, next_fairCounter_of_not_draws hd]
      refine .inr ⟨ih, hg, fun u hu => ?_⟩
      rcases Nat.lt_succ_iff_lt_or_eq.1 hu with hu | rfl
      · exact hno u hu
      · exact hd

theorem fairCounter_trace_of_no_draw (hno : ∀ u < t, ¬ Draws (inp u)) :
    (design.trace g inp t).fairCounter = g.fairCounter := by
  induction t with
  | zero => rfl
  | succ t ih =>
    rw [trace_succ, next_fairCounter_of_not_draws (hno t (Nat.lt_succ_self t))]
    exact ih fun u hu => hno u (Nat.lt_succ_of_lt hu)

theorem blockIdxIn_of_reset (h : i.reset = true) : g.blockIdxIn i = g.generatedBits.extractLsb' 3 3 := if_pos h

theorem trace_blockIdx (hn : (inp t).newBlock = true) :
    (design.trace g inp (t + 1)).blockIdx = (design.trace g inp t).blockIdxIn (inp t) := by
  rw [trace_succ, next_blockIdx, if_pos hn]

/-- One cycle: an index in the table is followed by one, and so is a reset. -/
theorem trace_blockIdx_le
    (hbits : (inp t).reset = true → (inp t).newBlock = true →
      (design.trace g inp t).generatedBits.extractLsb' 3 3 ≠ 7)
    (hfair : g.fairCounter = 7 → FirstDraw inp t →
      (design.trace g inp t).Usable ∨ (design.trace g inp t).oldIdx = 7)
    (hprev : (inp t).reset = true ∨ (design.trace g inp t).blockIdx ≤ 6) :
    (design.trace g inp (t + 1)).blockIdx ≤ 6 := by
  have htop : ∀ f : BitVec 3, f ≠ 7 → f ≤ 6 := by decide
  cases hn : (inp t).newBlock with
  | true =>
    rw [trace_blockIdx hn]
    cases hr : (inp t).reset with
    | true =>
      rw [blockIdxIn_of_reset hr]
      exact htop _ (hbits hr hn)
    | false =>
      -- the fair counter is 7 up to the first draw only, and then the draw must not hand it on
      rcases fairCounter_trace g inp t with hf | ⟨hf, hg, hno⟩
      · exact blockIdxIn_le hf hr
      · exact (blockIdxIn_le_iff ⟨hn, hr⟩ hf).2 (hfair hg ⟨⟨hn, hr⟩, hno⟩)
  | false =>
    rw [trace_succ, next_blockIdx, hn, if_neg Bool.false_ne_true]
    split_ifs with hr
    · decide
    · exact hprev.resolve_left hr

/-- From a reset on the index names a piece in every state exactly when no index is taken from the
random bits 111 during a reset, and a power-up value of 7 in the fair counter is not what the first
draw falls back on. -/
theorem index_in_table_iff (g : TetrominoGenerator) (inp : ℕ → In) (h0 : (inp 0).reset = true) :
    (∀ t, 0 < t → (design.trace g inp t).blockIdx ≤ 6) ↔
      (∀ t, (inp t).reset = true → (inp t).newBlock = true →
        (design.trace g inp t).generatedBits.extractLsb' 3 3 ≠ 7) ∧
      (g.fairCounter = 7 → ∀ t, FirstDraw inp t →
        (design.trace g inp t).Usable ∨ (design.trace g inp t).oldIdx = 7) := by
  constructor
  · intro h
    refine ⟨fun t hr hn h7 => ?_, fun hg t ht => ?_⟩
    · have hle := h (t + 1) (Nat.succ_pos t)
      rw [trace_blockIdx hn, blockIdxIn_of_reset hr, h7] at hle
      exact absurd hle (by decide)
    · have hle := h (t + 1) (Nat.succ_pos t)
      rw [trace_blockIdx ht.1.1] at hle
      exact (blockIdxIn_le_iff ht.1 ((fairCounter_trace_of_no_draw ht.2).trans hg)).1 hle
  · rintro ⟨hbits, hfair⟩ t ht
    induction t, ht using Nat.le_induction with
    | base => exact trace_blockIdx_le (hbits 0) (fun hg => hfair hg 0) (.inl h0)
    | succ t ht ih => exact trace_blockIdx_le (hbits t) (fun hg => hfair hg t) (.inr ih)

end Run

/-- With a fair counter of 6 at power-up and no index asked for during the reset, an index drawn
names a piece. -/
theorem index_in_table_first : (design.trace ⟨220, 0, 0, 6⟩ (fun t => ⟨t == 0, t != 0, 0⟩) 3).blockIdx ≤ 6 := by
  refine (index_in_table_iff ⟨220, 0, 0, 6⟩ (fun t => ⟨t == 0, t != 0, 0⟩) rfl).2
    ⟨fun t hr hn => ?_, fun h7 => absurd h7 (by decide)⟩ 3 (Nat.succ_pos 2)
  rw [beq_iff_eq] at hr
  subst hr
  cases hn

/-- A fair counter that powers up as 7 is handed on as an index. -/
theorem index_out_of_table :
    let inp := fun t : ℕ => (⟨t == 0, t == 2, if t = 1 then 4 else 0⟩ : In)
    (inp 0).reset = true ∧ (design.trace ⟨220, 0, 0, 7⟩ inp 3).blockIdx = 7 := by
  decide

end TetrominoGenerator

namespace BlockLogic

variable {oor : OutOfRange} {playerNum : BitVec 2} {r : BlockLogic} {i : In}

/-! ## Draws in a game -/

/-- A lock, or a hold with nothing held. -/
def Draws (playerNum : BitVec 2) (r : BlockLogic) (i : In) : Prop :=
  (branch playerNum r i).effect = .lock ∨ branch playerNum r i = .holdFirst

variable (oor playerNum r i) in
theorem newBlock_iff : (genIn oor playerNum r i).newBlock = true ↔ Draws playerNum r i := by
  have hassign : ∀ br, ((assign oor r br).getNewBlock || (assign oor r br).replaceBlock) = true ↔
      br.effect = .lock ∨ br = .holdFirst := by
    intro br
    cases br <;> simp [assign, defaults, setNewBlockInputs, Branch.effect]
  exact hassign _

theorem Draws.active (h : Draws playerNum r i) : i.reset = false ∧ r.frameClkRisingEdge = true := by
  rcases h with h | h
  · exact ⟨(active_of_lock h).1, (active_of_lock h).2.2⟩
  · have hh : (branch playerNum r i).effect = .hold := by rw [h]; rfl
    exact ⟨(active_of_hold hh).1, (active_of_hold hh).2.2⟩

theorem not_draws_of_reset (hr : i.reset = true) : ¬ Draws playerNum r i := fun hd => by
  rw [hd.active.1] at hr
  cases hr

/-- The cycle after a draw has no frame edge, since the frame clock was high at the draw. -/
theorem Draws.edge_low {i' : In} (h : Draws playerNum (next oor playerNum r i) i') :
    (next oor playerNum (next oor playerNum r i) i').frameClkRisingEdge = false :=
  next_edge_low (next_edge h.active.2).1

variable (oor playerNum r i) in
theorem next_blockIdx :
    (next oor playerNum r i).blockIdx =
      if (genIn oor playerNum r i).newBlock then r.blockGen.blockIdxIn (genIn oor playerNum r i)
      else if i.reset then 0 else r.blockIdx :=
  TetrominoGenerator.next_blockIdx r.blockGen (genIn oor playerNum r i)

theorem Draws.next_ne_oldIdx (h : Draws playerNum r i) :
    (next oor playerNum r i).blockIdx ≠ r.blockGen.oldIdx := by
  have hn := (newBlock_iff oor playerNum r i).2 h
  rw [next_blockIdx, if_pos hn]
  exact TetrominoGenerator.blockIdxIn_ne_oldIdx ⟨hn, h.active.1⟩

/-- Without a draw the index changes by a reset only, and the fair counter not at all. -/
theorem next_of_not_draws (h : ¬ Draws playerNum r i) :
    (next oor playerNum r i).blockIdx = (if i.reset then 0 else r.blockIdx) ∧
      (next oor playerNum r i).blockGen.fairCounter = r.blockGen.fairCounter := by
  have hn : ¬ (genIn oor playerNum r i).newBlock = true := fun hn => h ((newBlock_iff oor playerNum r i).1 hn)
  refine ⟨?_, TetrominoGenerator.next_fairCounter_of_not_draws fun hd => hn hd.1⟩
  rw [next_blockIdx, if_neg hn]

/-! ## Whole games -/

/-- Every reset pulse lasts at least two cycles, the one in cycle 0 included. -/
structure LongPulses (inp : ℕ → In) : Prop where
  first : (inp 0).reset = true ∧ (inp 1).reset = true
  later : ∀ t, (inp t).reset = false → (inp (t + 1)).reset = true → (inp (t + 2)).reset = true

section Run

variable {inp : ℕ → In} {t : ℕ}

theorem trace_succ (oor : OutOfRange) (playerNum : BitVec 2) (r : BlockLogic) (inp : ℕ → In) (t : ℕ) :
    (design oor playerNum).trace r inp (t + 1) =
      next oor playerNum ((design oor playerNum).trace r inp t) (inp t) := rfl

/-- At a draw the generator remembers the index it shows: it has shown it for two cycles, or both
cycles before were reset. -/
theorem oldIdx_of_draws (hp : LongPulses inp)
    (hd : Draws playerNum ((design oor playerNum).trace r inp t) (inp t)) :
    ((design oor playerNum).trace r inp t).blockGen.oldIdx = ((design oor playerNum).trace r inp t).blockIdx := by
  obtain ⟨hr, he⟩ := hd.active
  rcases t with _ | _ | t
  · rw [hp.first.1] at hr; cases hr
  · rw [hp.first.2] at hr; cases hr
  have hold : ((design oor playerNum).trace r inp (t + 2)).blockGen.oldIdx =
      ((design oor playerNum).trace r inp (t + 1)).blockIdx := TetrominoGenerator.next_oldIdx _ _
  -- draws are two cycles apart, so the index was there the cycle before
  have hno : ¬ Draws playerNum ((design oor playerNum).trace r inp (t + 1)) (inp (t + 1)) := fun hd' =>
    absurd he (Bool.eq_false_iff.1 hd'.edge_low)
  rw [hold, trace_succ _ _ _ _ (t + 1), (next_of_not_draws hno).1]
  cases hr1 : (inp (t + 1)).reset with
  | false => rfl
  | true =>
    have hr0 : (inp t).reset = true := by
      by_contra h0
      rw [hp.later t (by simpa using h0) hr1] at hr
      cases hr
    rw [trace_succ, (next_of_not_draws (not_draws_of_reset hr0)).1, if_pos hr0, if_pos rfl]

/-- A draw replaces the index by another one; at other cycles the index changes by a reset only and the
fair counter not at all; and two consecutive draws with no reset between them hand out different indices. -/
theorem draws_differ (oor : OutOfRange) (playerNum : BitVec 2) (r : BlockLogic) (inp : ℕ → In) (hp : LongPulses inp) :
    let tr := (design oor playerNum).trace r inp
    let draws := fun t => Draws playerNum (tr t) (inp t)
    (∀ t, draws t → (tr (t + 1)).blockIdx ≠ (tr t).blockIdx) ∧
    (∀ t, ¬ draws t → (tr (t + 1)).blockIdx = (if (inp t).reset then 0 else (tr t).blockIdx) ∧
      (tr (t + 1)).blockGen.fairCounter = (tr t).blockGen.fairCounter) ∧
    (∀ t u, t < u → draws t → draws u → (∀ v, t < v → v < u → ¬ draws v ∧ (inp v).reset = false) →
      (tr t).blockIdx ≠ (tr u).blockIdx ∧ (tr (t + 1)).blockIdx ≠ (tr (u + 1)).blockIdx) := by
  intro tr draws
  have hdiff : ∀ t, draws t → (tr (t + 1)).blockIdx ≠ (tr t).blockIdx := fun t ht => by
    have hold : (tr t).blockGen.oldIdx = (tr t).blockIdx := oldIdx_of_draws hp ht
    rw [← hold]
    exact ht.next_ne_oldIdx
  refine ⟨hdiff, fun t ht => next_of_not_draws ht, fun t u htu ht hu hbetween => ?_⟩
  -- the index drawn is shown until the next draw
  have hsame : (tr u).blockIdx = (tr (t + 1)).blockIdx := by
    refine Design.trace_phase (fun s : BlockLogic => s.blockIdx = (tr (t + 1)).blockIdx) htu rfl fun v h1 h2 hv => ?_
    obtain ⟨hno, hr⟩ := hbetween v h1 h2
    refine (next_of_not_draws hno).1.trans ?_
    rw [hr]
    exact hv
  exact ⟨hsame ▸ (hdiff t ht).symm, hsame ▸ (hdiff u hu).symm⟩

end Run

/-- Player 1 holds H down from a reset of two cycles on, and a frame starts in cycle 2. -/
def holdAfterReset (t : ℕ) : In :=
  { reset := decide (t < 2)
    frameClk := decide (2 ≤ t)
    keycode := 32
    canMove := ⟨false, false, false, false, false⟩
    boardBusy := false
    levelSpeed := 60 }

/-- A piece that cannot fall, at level 0, with frames starting in cycles 2 and 5. -/
def lockTwice (t : ℕ) : In :=
  { reset := decide (t < 2)
    frameClk := decide (t = 2 ∨ t = 5)
    keycode := 0
    canMove := ⟨false, false, false, false, false⟩
    boardBusy := false
    levelSpeed := 0 }

/-- The locks of cycles 3 and 6 hand out different pieces, and put different ones in their place. -/
theorem draws_differ_locks :
    let tr := (design someReads 1).trace Tetris.powerUp.logic lockTwice
    (tr 3).blockIdx ≠ (tr 6).blockIdx ∧ (tr 4).blockIdx ≠ (tr 7).blockIdx := by
  intro tr
  have hpulses : LongPulses lockTwice := ⟨⟨rfl, rfl⟩, fun t h0 h1 => by simp [lockTwice] at h0 h1; omega⟩
  refine (draws_differ someReads 1 Tetris.powerUp.logic lockTwice hpulses).2.2 3 6 (by decide) (.inl (by decide))
    (.inl (by decide)) fun v h1 h2 => ?_
  -- there is no frame edge in cycles 4 and 5
  obtain rfl | rfl : v = 4 ∨ v = 5 := by omega
  · exact ⟨fun hd => absurd hd.active.2 (by decide), rfl⟩
  · exact ⟨fun hd => absurd hd.active.2 (by decide), rfl⟩

/-- Player 1 holds H down, and a reset of two cycles comes between two frames. -/
def holdAcrossReset (t : ℕ) : In :=
  { holdAfterReset t with
    reset := decide (t < 2 ∨ t = 5 ∨ t = 6)
    frameClk := decide (2 ≤ t ∧ t ≤ 4 ∨ 8 ≤ t) }

/-- Across a reset two consecutive draws can hand out the same piece, and put the same one in its place. -/
theorem draws_same_across_reset :
    let tr := (design someReads 1).trace Tetris.powerUp.logic holdAcrossReset
    let draws := fun t => Draws 1 (tr t) (holdAcrossReset t)
    LongPulses holdAcrossReset ∧ draws 3 ∧ draws 9 ∧ (∀ v, 3 < v → v < 9 → ¬ draws v) ∧
      (tr 3).blockIdx = (tr 9).blockIdx ∧ (tr 4).blockIdx = (tr 10).blockIdx := by
  intro tr draws
  refine ⟨⟨⟨rfl, rfl⟩, fun t h0 h1 => ?_⟩, .inr (by decide), .inr (by decide), fun v h1 h2 hd => ?_,
    by decide, by decide⟩
  · simp [holdAcrossReset] at h0 h1 ⊢
    omega
  · have hedge : ∀ v, v < 9 → 3 < v → (tr v).frameClkRisingEdge = false := by decide
    exact absurd hd.active.2 (Bool.eq_false_iff.1 (hedge v h2 h1))

end BlockLogic

end FpgaTetris
