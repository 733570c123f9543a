/-
The score as a number: below the top of the range `score_keeper` adds the points of every update
exactly and its digits stay decimal; the first update past 999990 leaves `digit5` at 10 or more.
-/
import FpgaTetris.Lib.Ripple
import FpgaTetris.Hdl.ScoreKeeper
import Mathlib.Tactic.Linarith

namespace FpgaTetris

namespace ScoreKeeper

/-! ## Reading the score -/

/-- The digits that are registers, least significant first. -/
def digits (s : ScoreKeeper) : List ℕ :=
  [s.digit1.toNat, s.digit2.toNat, s.digit3.toNat, s.digit4.toNat, s.digit5.toNat]

/-- The decimal value of `digits`; the ones digit is always 0. -/
def value (s : ScoreKeeper) : ℕ := 10 * Nat.ofDigits 10 s.digits

/-- Every digit register holds a decimal digit. -/
def Decimal (s : ScoreKeeper) : Prop := ∀ d ∈ s.digits, d ≤ 9

/-- The points of an update. -/
def points (numLines : BitVec 3) : ℕ :=
  match numLines.toNat with
  | 1 => 40
  | 2 => 100
  | 3 => 300
  | 4 => 1200
  | _ => 0

/-- The points a cycle adds. -/
def gain (i : In) : ℕ := if i.update then points i.numLines else 0

theorem value_eq (s : ScoreKeeper) :
    s.value = 10 * (s.digit1.toNat + 10 * (s.digit2.toNat + 10 * (s.digit3.toNat +
      10 * (s.digit4.toNat + 10 * s.digit5.toNat)))) := by
  simp [value, digits, Nat.ofDigits_cons]

theorem decimal_iff (s : ScoreKeeper) :
    s.Decimal ↔ s.digit1.toNat ≤ 9 ∧ s.digit2.toNat ≤ 9 ∧ s.digit3.toNat ≤ 9 ∧ s.digit4.toNat ≤ 9 ∧
      s.digit5.toNat ≤ 9 := by
  simp [Decimal, digits]

/-! ## One update -/

theorem addLines_spec {s : ScoreKeeper} (hs : s.Decimal) (n : BitVec 3) :
    (s.addLines n).value = s.value + points n ∧ (∀ d ∈ (s.addLines n).digits, d ≤ 13) := by
  obtain ⟨h1, h2, h3, h4, h5⟩ := (decimal_iff s).1 hs
  unfold addLines points
  generalize n.toNat = k
  split <;> simp only [value_eq, digits, List.mem_cons, List.not_mem_nil, or_false, forall_eq_or_imp,
    forall_eq, BitVec.toNat_add, BitVec.reduceToNat] <;> omega

/-- A carry moves ten to the next digit, which does not overflow its register. -/
theorem carry_spec {d n : BitVec 4} (hn : n.toNat ≤ 14) :
    (10 ≤ d.toNat → (carry d n).1.toNat = d.toNat - 10 ∧ (carry d n).2.toNat = n.toNat + 1) ∧
      (¬ 10 ≤ d.toNat → carry d n = (d, n)) := by
  have hle : 10 ≤ d ↔ 10 ≤ d.toNat := by rw [BitVec.le_def]; rfl
  unfold carry
  constructor
  · intro h
    rw [if_pos (hle.2 h)]
    have := d.isLt
    simp only [BitVec.toNat_sub, BitVec.toNat_add, BitVec.reduceToNat]
    omega
  · intro h
    rw [if_neg (fun h' => h (hle.1 h'))]

/-- One digit of a ripple pass: the register above already holds the carry. -/
theorem ripple_carry (d n : BitVec 4) (ds : List ℕ) (hn : n.toNat ≤ 14) :
    Ripple.ripple 10 0 (d.toNat :: n.toNat :: ds) =
      (carry d n).1.toNat :: Ripple.ripple 10 0 ((carry d n).2.toNat :: ds) := by
  obtain ⟨hp, hq⟩ := carry_spec (d := d) hn
  by_cases hd : 10 ≤ d.toNat
  · obtain ⟨e1, e2⟩ := hp hd
    cases ds <;> simp [Ripple.ripple, hd, e1, e2]
  · rw [hq hd]
    cases ds <;> simp [Ripple.ripple, hd]

/-- The digits before saturation: the additions of the update followed by one ripple pass. -/
def carried (n : ScoreKeeper) : ScoreKeeper :=
  let c1 := carry n.digit1 n.digit2
  let c2 := carry c1.2 n.digit3
  let c3 := carry c2.2 n.digit4
  let c4 := carry c3.2 n.digit5
  ⟨c1.1, c2.1, c3.1, c4.1, c4.2⟩

theorem carried_digits (n : ScoreKeeper) (h : ∀ d ∈ n.digits, d ≤ 13) :
    (carried n).digits = Ripple.ripple 10 0 n.digits := by
  simp only [digits, List.mem_cons, List.not_mem_nil, or_false, forall_eq_or_imp, forall_eq] at h
  obtain ⟨-, h2, h3, h4, h5⟩ := h
  simp only [digits]
  rw [ripple_carry _ _ _ (by omega), ripple_carry _ _ _ (by omega), ripple_carry _ _ _ (by omega),
    ripple_carry _ _ _ (by omega)]
  rfl

/-- An update carries and, with a top digit of 10 or more, puts 9 into the lowest digit. -/
theorem nextDigits_update (s : ScoreKeeper) (n : BitVec 3) :
    s.nextDigits true n =
      if 10 ≤ (carried (s.addLines n)).digit5 then { carried (s.addLines n) with digit1 := 9 }
      else carried (s.addLines n) := by
  unfold nextDigits carried
  dsimp only
  rw [if_pos rfl]

/-- The carried digits hold the exact sum, and only the top one can be above 9: it is exactly when the
sum has no room. -/
theorem carried_spec {s : ScoreKeeper} (hs : s.Decimal) (n : BitVec 3) :
    (carried (s.addLines n)).value = s.value + points n ∧
      (∀ d ∈ (carried (s.addLines n)).digits.dropLast, d < 10) ∧
      ((carried (s.addLines n)).digit5.toNat < 10 ↔ s.value + points n ≤ 999990) := by
  obtain ⟨hval, hsmall⟩ := addLines_spec hs n
  have hd := carried_digits (s.addLines n) hsmall
  have hv : (carried (s.addLines n)).value = s.value + points n := by
    rw [← hval, value, hd, Ripple.ofDigits_ripple _ _ _ (by simp [digits]), Nat.add_zero]
    rfl
  have hlow : ∀ d ∈ (carried (s.addLines n)).digits.dropLast, d < 10 := by
    rw [hd]
    exact Ripple.ripple_lt_base (by omega) fun d hd => by have := hsmall d hd; omega
  refine ⟨hv, hlow, ?_⟩
  rw [← hv]
  generalize carried (s.addLines n) = c at hlow
  -- the carries have left the lower digits decimal, so the top one tells whether the sum fits
  have hlast : c.digit5.toNat < 10 ↔ Nat.ofDigits 10 c.digits < 10 ^ 5 :=
    Ripple.last_lt_base_iff (by omega) c.digits.dropLast c.digit5.toNat hlow
  rw [hlast, value]
  omega

/-- What an update leaves behind: the exact sum in decimal digits, or a top digit of 10 or more
when the sum has no room in five digits. -/
theorem nextDigits_spec {s : ScoreKeeper} (hs : s.Decimal) (update : Bool) (n : BitVec 3) :
    let g := if update then points n else 0
    (s.value + g ≤ 999990 →
      (s.nextDigits update n).Decimal ∧ (s.nextDigits update n).value = s.value + g) ∧
    (999990 < s.value + g → 10 ≤ (s.nextDigits update n).digit5.toNat) := by
  cases update with
  | false =>
    obtain ⟨h1, h2, h3, h4, h5⟩ := (decimal_iff s).1 hs
    simp only [nextDigits, Bool.false_eq_true, if_false, Nat.add_zero]
    refine ⟨fun _ => ⟨hs, trivial⟩, fun h => ?_⟩
    rw [value_eq] at h
    omega
  | true =>
    obtain ⟨hv, hlow, hfits⟩ := carried_spec hs n
    simp only [if_true, nextDigits_update]
    rw [← hv] at hfits ⊢
    -- the top digit alone tells whether the sum has room
    generalize carried (s.addLines n) = c at *
    have hge : 10 ≤ c.digit5 ↔ 10 ≤ c.digit5.toNat := BitVec.le_def
    constructor
    · intro hle
      have hlt := hfits.2 hle
      rw [if_neg fun h => Nat.not_le.2 hlt (hge.1 h)]
      refine ⟨fun d hd => ?_, rfl⟩
      have hd : d ∈ c.digits.dropLast ++ [c.digit5.toNat] := hd
      rw [List.mem_append, List.mem_singleton] at hd
      rcases hd with hd | rfl
      · exact Nat.le_of_lt_succ (hlow d hd)
      · exact Nat.le_of_lt_succ hlt
    · intro hgt
      have hten : 10 ≤ c.digit5.toNat := Nat.le_of_not_lt fun h => Nat.not_le.2 hgt (hfits.1 h)
      rw [if_pos (hge.2 hten)]
      exact hten

/-! ## Runs -/

/-- The points of the updates since the last reset before cycle `t`. -/
def pointsSince (inp : ℕ → In) : ℕ → ℕ
  | 0 => 0
  | t + 1 => if (inp t).reset then 0 else pointsSince inp t + gain (inp t)

/-- The score of a saturating decimal counter that has been given `n` points. -/
def Saturated (s : ScoreKeeper) (n : ℕ) : Prop := s.Decimal ∧ s.value = min 999990 n

/-- There was a reset before cycle `t`. -/
def AfterReset (inp : ℕ → In) (t : ℕ) : Prop := ∃ a < t, (inp a).reset = true

theorem afterReset_of_not {inp : ℕ → In} {t : ℕ} (h : AfterReset inp (t + 1)) (hr : (inp t).reset = false) :
    AfterReset inp t := by
  obtain ⟨a, ha, hra⟩ := h
  rcases Nat.lt_succ_iff_lt_or_eq.1 ha with ha | rfl
  · exact ⟨a, ha, hra⟩
  · rw [hr] at hra; cases hra

theorem trace_succ (s : ScoreKeeper) (inp : ℕ → In) (t : ℕ) :
    design.trace s inp (t + 1) = (design.trace s inp t).next (inp t) := rfl

theorem next_reset {i : In} (s : ScoreKeeper) (hr : i.reset = true) : s.next i = ⟨0, 0, 0, 0, 0⟩ := by
  unfold next; rw [if_pos hr]

theorem next_run {i : In} (s : ScoreKeeper) (hr : i.reset = false) :
    s.next i = s.nextDigits i.update i.numLines := by
  unfold next; rw [if_neg (by simp [hr])]

/-- One cycle: exact below the top of the range, a broken top digit above it. -/
theorem next_spec {s : ScoreKeeper} {n : ℕ} {i : In} (hr : i.reset = false) (hd : s.Decimal) (hv : s.value = n) :
    (n + gain i ≤ 999990 → (s.next i).Decimal ∧ (s.next i).value = n + gain i) ∧
      (999990 < n + gain i → ¬ (s.next i).Decimal) := by
  rw [next_run s hr, ← hv]
  obtain ⟨h1, h2⟩ := nextDigits_spec hd i.update i.numLines
  refine ⟨h1, fun h hdec => ?_⟩
  have := h2 h
  have := ((decimal_iff _).1 hdec).2.2.2.2
  omega

/-- As long as the points fit, the registers hold them exactly. -/
theorem trace_exact (s : ScoreKeeper) (inp : ℕ → In) :
    ∀ t, AfterReset inp t → (∀ u ≤ t, AfterReset inp u → pointsSince inp u ≤ 999990) →
      (design.trace s inp t).Decimal ∧ (design.trace s inp t).value = pointsSince inp t
  | 0, h, _ => by obtain ⟨a, ha, _⟩ := h; omega
  | t + 1, h, hfit => by
    rw [trace_succ, pointsSince]
    cases hr : (inp t).reset with
    | true =>
      rw [next_reset _ hr]
      simp [decimal_iff, value_eq]
    | false =>
      have h' := afterReset_of_not h hr
      obtain ⟨hd, hv⟩ := trace_exact s inp t h' fun u hu => hfit u (Nat.le_succ_of_le hu)
      have hle := hfit (t + 1) le_rfl h
      rw [pointsSince, hr] at hle
      exact (next_spec hr hd hv).1 hle

/-- While the score reads as the saturating sum, the points have never passed 999990. -/
theorem points_fit (s : ScoreKeeper) (inp : ℕ → In) :
    ∀ t, (∀ u ≤ t, AfterReset inp u → Saturated (design.trace s inp u) (pointsSince inp u)) →
      AfterReset inp t → pointsSince inp t ≤ 999990
  | 0, _, h => by obtain ⟨a, ha, _⟩ := h; omega
  | t + 1, hsat, h => by
    unfold pointsSince
    cases hr : (inp t).reset with
    | true => simp
    | false =>
      have h' := afterReset_of_not h hr
      have ih := points_fit s inp t (fun u hu => hsat u (Nat.le_succ_of_le hu)) h'
      obtain ⟨hd, hv⟩ := hsat t (Nat.le_succ t) h'
      rw [Nat.min_eq_right ih] at hv
      by_contra hgt
      exact (next_spec hr hd hv).2 (by simpa using hgt) (hsat (t + 1) le_rfl h).1

/-- The score reads as the saturating decimal sum of the points in every state up to cycle `t`
exactly when these points have never passed 999990: `score_keeper` counts, but does not saturate. -/
theorem score_saturated_iff (s : ScoreKeeper) (inp : ℕ → In) (t : ℕ) :
    (∀ u ≤ t, AfterReset inp u → Saturated (design.trace s inp u) (pointsSince inp u)) ↔
      ∀ u ≤ t, AfterReset inp u → pointsSince inp u ≤ 999990 := by
  constructor
  · intro h u hu
    exact points_fit s inp u fun v hv => h v (le_trans hv hu)
  · intro h u hu hr
    have hle := h u hu hr
    obtain ⟨hd, hv⟩ := trace_exact s inp u hr fun v hv => h v (le_trans hv hu)
    exact ⟨hd, by rw [hv, Nat.min_eq_right hle]⟩

/-- A reset in cycle 0 and a four-line clear in every cycle after it. -/
def fourLines (t : ℕ) : In := if t = 0 then ⟨true, false, 0⟩ else ⟨false, true, 4⟩

theorem pointsSince_fourLines (t : ℕ) : pointsSince fourLines (t + 1) = 1200 * t := by
  induction t with
  | zero => rfl
  | succ t ih =>
    unfold pointsSince
    rw [ih]
    simp [fourLines, gain, points]
    omega

/-- After 834 four-line clears (1000800 points) the registers no longer hold decimal digits. -/
theorem score_overflow_not_saturated :
    ¬ Saturated (design.trace ⟨0, 0, 0, 0, 0⟩ fourLines 835) (pointsSince fourLines 835) := by
  intro h
  have hr : ∀ u, AfterReset fourLines (u + 1) := fun u => ⟨0, Nat.succ_pos u, rfl⟩
  have hfit : ∀ u ≤ 834, AfterReset fourLines u → pointsSince fourLines u ≤ 999990 := by
    rintro (_ | u) hu -
    · exact Nat.zero_le _
    · rw [pointsSince_fourLines]; omega
  obtain ⟨hd, hv⟩ := trace_exact ⟨0, 0, 0, 0, 0⟩ fourLines 834 (hr 833) hfit
  rw [pointsSince_fourLines 833] at hv
  have hg : gain (fourLines 834) = 1200 := rfl
  have hnext := h.1
  rw [trace_succ _ _ 834] at hnext
  exact (next_spec (i := fourLines 834) rfl hd hv).2 (by rw [hg]; norm_num) hnext

end ScoreKeeper

end FpgaTetris
