/-
Deadlines by counting. A measure that no cycle raises and that every tick lowers bounds the number of
ticks before something happens.
-/
import FpgaTetris.Lib.Design
import Mathlib.Data.Nat.Count

namespace Sync

namespace Design

variable {σ ι : Type} {d : Design σ ι} {s : σ} {inp : ℕ → ι} (event : σ → ι → Prop) {tick : σ → ι → Bool} (μ : σ → ℕ)
  {a b : ℕ}

/-- The ticks in the cycles before `t`. -/
def ticks (d : Design σ ι) (s : σ) (inp : ℕ → ι) (tick : σ → ι → Bool) (t : ℕ) : ℕ :=
  Nat.count (fun t => tick (d.trace s inp t) (inp t) = true) t

theorem ticks_succ (t : ℕ) :
    d.ticks s inp tick (t + 1) = d.ticks s inp tick t + if tick (d.trace s inp t) (inp t) then 1 else 0 :=
  Nat.count_succ ..

theorem ticks_cons (i : ι) (t : ℕ) :
    d.ticks s (cons i inp) tick (t + 1) = (if tick s i then 1 else 0) + d.ticks (d.next s i) inp tick t := by
  induction t with
  | zero => exact (ticks_succ 0).trans (Nat.add_comm ..)
  | succ t ih =>
    rw [ticks_succ (t + 1), ih, trace_cons, ticks_succ t, Nat.add_assoc]
    rfl

section Deadline

variable (hab : a ≤ b)
  (hμ : ∀ t, a ≤ t → t < b → ¬ event (d.trace s inp t) (inp t) →
    μ (d.trace s inp (t + 1)) ≤ μ (d.trace s inp t) ∧
      (tick (d.trace s inp t) (inp t) = true → μ (d.trace s inp (t + 1)) < μ (d.trace s inp t)))

include hab hμ

/-- Until the event, the measure pays for the ticks. -/
theorem ticks_le_measure (hno : ∀ t, a ≤ t → t < b → ¬ event (d.trace s inp t) (inp t)) :
    μ (d.trace s inp b) + d.ticks s inp tick b ≤ μ (d.trace s inp a) + d.ticks s inp tick a := by
  induction b, hab using Nat.le_induction with
  | base => exact le_rfl
  | succ b hab ih =>
    have hsum := ih (fun t h1 h2 => hμ t h1 (Nat.lt_succ_of_lt h2)) fun t h1 h2 => hno t h1 (Nat.lt_succ_of_lt h2)
    obtain ⟨hle, hlt⟩ := hμ b hab (Nat.lt_succ_self b) (hno b hab (Nat.lt_succ_self b))
    rw [ticks_succ]
    split
    · rename_i htick
      have := hlt htick
      omega
    · omega

/-- With more ticks than the measure the event comes. -/
theorem exists_event_of_ticks (hticks : d.ticks s inp tick a + μ (d.trace s inp a) < d.ticks s inp tick b) :
    ∃ t, a ≤ t ∧ t < b ∧ event (d.trace s inp t) (inp t) := by
  by_contra hno
  push Not at hno
  have hle := ticks_le_measure event μ hab hμ hno
  omega

end Deadline

end Design

end Sync
