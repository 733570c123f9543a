/-
Counters of a fixed width that start again from zero, by the numbers they hold.
-/
import Mathlib.Data.BitVec

namespace Cyclic

variable {w : ℕ} {c n : BitVec w}

theorem toNat_add_one (h : c.toNat + 1 < 2 ^ w) : (c + 1).toNat = c.toNat + 1 := by
  have hone : (1 : BitVec w).toNat = 1 % 2 ^ w := BitVec.toNat_ofNat ..
  rw [BitVec.toNat_add, hone, Nat.add_mod_mod, Nat.mod_eq_of_lt h]

/-- A counter cleared when it would reach `n`. -/
theorem toNat_clear (h : c.toNat + 1 < 2 ^ w) :
    (if c + 1 = n then 0 else c + 1).toNat = if c.toNat + 1 = n.toNat then 0 else c.toNat + 1 := by
  have hiff : c + 1 = n ↔ c.toNat + 1 = n.toNat := by rw [← BitVec.toNat_inj, toNat_add_one h]
  by_cases hn : c + 1 = n
  · rw [if_pos hn, if_pos (hiff.1 hn)]
    exact BitVec.toNat_zero
  · rw [if_neg hn, if_neg (mt hiff.2 hn), toNat_add_one h]

/-- A counter cleared from `n` on counts modulo `n + 1`. -/
theorem toNat_wrap {k : ℕ} (h : c.toNat = k % (n.toNat + 1)) :
    (if n ≤ c then 0 else c + 1).toNat = (k + 1) % (n.toNat + 1) := by
  have hle : c.toNat ≤ n.toNat := h ▸ Nat.le_of_lt_succ (Nat.mod_lt k (Nat.succ_pos _))
  have hk : (k + 1) % (n.toNat + 1) = (c.toNat + 1) % (n.toNat + 1) := by rw [h, Nat.mod_add_mod]
  rw [hk]
  by_cases hn : n ≤ c
  · have heq : c.toNat = n.toNat := le_antisymm hle (BitVec.le_def.1 hn)
    rw [if_pos hn, heq, Nat.mod_self]
    exact BitVec.toNat_zero
  · have hlt : c.toNat < n.toNat := Nat.lt_of_not_le fun h => hn (BitVec.le_def.2 h)
    have := n.isLt
    rw [if_neg hn, toNat_add_one (by omega), Nat.mod_eq_of_lt (by omega)]

end Cyclic
