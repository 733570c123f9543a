/-
Ripple carry on digit lists, least significant digit first: one pass of carries keeps the value,
brings every digit but the last below the base, and leaves the last one below the base exactly
when the value fits.
-/
import Mathlib.Data.Nat.Digits.Defs

namespace Ripple

/-- One pass with `c` carried in: a digit that reaches the base `b` hands one on to the next, and
the last digit keeps what reaches it. -/
def ripple (b : ℕ) : ℕ → List ℕ → List ℕ
  | _, [] => []
  | c, [d] => [d + c]
  | c, d :: e :: ds =>
    if b ≤ d + c then (d + c - b) :: ripple b 1 (e :: ds) else (d + c) :: ripple b 0 (e :: ds)

theorem length_ripple (b : ℕ) : ∀ (c : ℕ) (ds : List ℕ), (ripple b c ds).length = ds.length
  | _, [] => rfl
  | _, [_] => rfl
  | c, d :: e :: ds => by
    unfold ripple
    split <;> simp [length_ripple b _ (e :: ds)]

/-- A pass of carries keeps the value. -/
theorem ofDigits_ripple (b : ℕ) :
    ∀ (c : ℕ) (ds : List ℕ), ds ≠ [] → Nat.ofDigits b (ripple b c ds) = Nat.ofDigits b ds + c
  | _, [], h => absurd rfl h
  | c, [d], _ => by simp [ripple]
  | c, d :: e :: ds, _ => by
    have ih := fun c => ofDigits_ripple b c (e :: ds) (List.cons_ne_nil _ _)
    unfold ripple
    split
    · rename_i h
      rw [Nat.ofDigits_cons, Nat.ofDigits_cons, ih, Nat.mul_add]
      omega
    · rw [Nat.ofDigits_cons, Nat.ofDigits_cons, ih]
      rw [Nat.add_zero, Nat.add_right_comm]

/-- A pass of carries brings every digit but the last below the base. -/
theorem ripple_lt_base {b : ℕ} :
    ∀ {c : ℕ} {ds : List ℕ}, c ≤ 1 → (∀ d ∈ ds, d + 1 < 2 * b) → ∀ d ∈ (ripple b c ds).dropLast, d < b
  | _, [], _, _, d, hd => by simp [ripple] at hd
  | _, [_], _, _, d, hd => by simp [ripple] at hd
  | c, d₀ :: e :: ds, hc, h, d, hd => by
    have h0 := h d₀ (List.mem_cons_self ..)
    have hrest : ∀ d ∈ e :: ds, d + 1 < 2 * b := fun d hd => h d (List.mem_cons_of_mem _ hd)
    have hne : ∀ c, ripple b c (e :: ds) ≠ [] := fun c hnil => by
      have := length_ripple b c (e :: ds); rw [hnil] at this; simp at this
    -- a digit below twice the base is brought below it and passes a carry of one on
    unfold ripple at hd
    split at hd <;> rename_i hb <;> rw [List.dropLast_cons_of_ne_nil (hne _), List.mem_cons] at hd
    · rcases hd with rfl | hd
      · omega
      · exact ripple_lt_base (by omega) hrest d hd
    · rcases hd with rfl | hd
      · omega
      · exact ripple_lt_base (by omega) hrest d hd

/-- With every other digit below the base, the last one is below it exactly when the value has no
more digits than the list. -/
theorem last_lt_base_iff {b : ℕ} (hb : 1 < b) (ds : List ℕ) (l : ℕ) (h : ∀ d ∈ ds, d < b) :
    l < b ↔ Nat.ofDigits b (ds ++ [l]) < b ^ (ds.length + 1) := by
  constructor
  · intro hl
    have := Nat.ofDigits_lt_base_pow_length (b := b) (l := ds ++ [l]) hb (by
      intro d hd
      rcases List.mem_append.1 hd with hd | hd
      · exact h d hd
      · rw [List.mem_singleton.1 hd]; exact hl)
    simpa using this
  · intro hlt
    rw [Nat.ofDigits_append, Nat.ofDigits_singleton] at hlt
    by_contra hle
    have : b ^ ds.length * b ≤ b ^ ds.length * l := Nat.mul_le_mul_left _ (not_lt.1 hle)
    rw [pow_succ] at hlt
    omega

end Ripple
