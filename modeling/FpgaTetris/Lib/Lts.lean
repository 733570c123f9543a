/-
Labelled transition systems as specifications of synchronous designs: forward simulations, by which
a run of a design follows an abstract run that takes a step or none in every cycle, and what the steps
of such a run add up to.
-/
import FpgaTetris.Lib.Design
import Mathlib.Algebra.BigOperators.Group.List.Basic
import Mathlib.Algebra.GroupWithZero.Nat

namespace Lts

variable {α ℓ : Type} {Step : ℓ → α → α → Prop} {a : α}

/-- The step of a label, or no step. -/
def Next (Step : ℓ → α → α → Prop) : Option ℓ → α → α → Prop
  | none, a, b => b = a
  | some l, a, b => Step l a b

/-! ## Simulations -/

section Simulation

variable {σ ι : Type} {d : Sync.Design σ ι} {s : σ} {inp : ℕ → ι} {ok : σ → ι → Prop} {label : σ → ι → Option ℓ}
  {R : σ → α → Prop}

/-- A forward simulation: a cycle that is `ok` takes the abstract state along the step of its
label, if it has one. -/
structure Simulation (d : Sync.Design σ ι) (ok : σ → ι → Prop) (label : σ → ι → Option ℓ)
    (Step : ℓ → α → α → Prop) (R : σ → α → Prop) : Prop where
  next : ∀ s i a, ok s i → R s a → ∃ b, Next Step (label s i) a b ∧ R (d.next s i) b

open Classical in
/-- The abstract run that a simulation gives from cycle `n` on. -/
noncomputable def follow (d : Sync.Design σ ι) (s : σ) (inp : ℕ → ι) (label : σ → ι → Option ℓ)
    (Step : ℓ → α → α → Prop) (R : σ → α → Prop) (a : α) (n : ℕ) : ℕ → α
  | 0 => a
  | t + 1 =>
    if t + 1 ≤ n then a
    else
      let s' := d.trace s inp t
      let a' := follow d s inp label Step R a n t
      if h : ∃ b, Next Step (label s' (inp t)) a' b ∧ R (d.next s' (inp t)) b then h.choose else a'

theorem follow_of_le (a : α) {n t : ℕ} (ht : t ≤ n) : follow d s inp label Step R a n t = a := by
  cases t with
  | zero => rfl
  | succ t => rw [follow, if_pos ht]

/-- The run lemma: related in cycle `n`, the two runs stay related as long as all cycles are `ok`, and
each of these cycles is an abstract step or none. -/
theorem Simulation.run (h : Simulation d ok label Step R) {n : ℕ} (hn : R (d.trace s inp n) a) :
    ∃ f : ℕ → α, (∀ t ≤ n, f t = a) ∧ ∀ t, n ≤ t → (∀ u, n ≤ u → u ≤ t → ok (d.trace s inp u) (inp u)) →
      Next Step (label (d.trace s inp t) (inp t)) (f t) (f (t + 1)) ∧ R (d.trace s inp (t + 1)) (f (t + 1)) := by
  let f := follow d s inp label Step R a n
  refine ⟨f, fun t ht => follow_of_le a ht, fun t ht hok => ?_⟩
  -- a related state goes on as the simulation says
  have hstep : ∀ t, n ≤ t → ok (d.trace s inp t) (inp t) → R (d.trace s inp t) (f t) →
      Next Step (label (d.trace s inp t) (inp t)) (f t) (f (t + 1)) ∧ R (d.trace s inp (t + 1)) (f (t + 1)) := by
    intro t ht hok hR
    have hex := h.next _ _ _ hok hR
    have hf : f (t + 1) = hex.choose := by
      show follow d s inp label Step R a n (t + 1) = _
      rw [follow, if_neg (Nat.not_le.2 (Nat.lt_succ_of_le ht)), dif_pos hex]
    rw [hf]
    exact hex.choose_spec
  refine hstep t ht (hok t ht le_rfl) ?_
  induction t, ht using Nat.le_induction with
  | base =>
    rw [show f n = a from follow_of_le a le_rfl]
    exact hn
  | succ t ht ih =>
    have hR := ih fun u hu hut => hok u hu (Nat.le_succ_of_le hut)
    exact (hstep t ht (hok t ht (Nat.le_succ t)) hR).2

/-- A simulation whose cycles are all admitted never ends. -/
theorem Simulation.run_always (h : Simulation d ok label Step R) (s : σ) {n : ℕ} (hn : R (d.trace s inp n) a)
    (hok : ∀ t, n ≤ t → ok (d.trace s inp t) (inp t)) :
    ∃ f : ℕ → α, f n = a ∧ ∀ t, n ≤ t →
      R (d.trace s inp t) (f t) ∧ Next Step (label (d.trace s inp t) (inp t)) (f t) (f (t + 1)) := by
  obtain ⟨f, hfn, hf⟩ := h.run hn
  refine ⟨f, hfn n le_rfl, fun t ht => ⟨?_, (hf t ht fun u hu _ => hok u hu).1⟩⟩
  rcases Nat.eq_or_lt_of_le ht with rfl | hlt
  · rw [hfn n le_rfl]
    exact hn
  · obtain ⟨t, rfl⟩ : ∃ k, t = k + 1 := ⟨t - 1, by omega⟩
    exact (hf t (Nat.le_of_lt_succ hlt) fun u hu _ => hok u hu).2

/-- What every step keeps holds throughout a run. -/
theorem invariant_of_next {P : α → Prop} (hstep : ∀ l a b, Step l a b → P a → P b) {o : ℕ → Option ℓ} {f : ℕ → α}
    {n : ℕ} (hn : P (f n)) (hf : ∀ t, n ≤ t → Next Step (o t) (f t) (f (t + 1))) {t : ℕ} (ht : n ≤ t) : P (f t) := by
  induction t, ht using Nat.le_induction with
  | base => exact hn
  | succ t ht ih =>
    have hnext := hf t ht
    cases ho : o t with
    | none =>
      rw [ho] at hnext
      exact (show f (t + 1) = f t from hnext) ▸ ih
    | some l =>
      rw [ho] at hnext
      exact hstep l _ _ hnext ih

/-! ## Paths -/

/-- The labelled steps, one after the other, lead from one state to another. -/
inductive Path (Step : ℓ → α → α → Prop) : List ℓ → α → α → Prop
  | nil (a : α) : Path Step [] a a
  | cons {l : ℓ} {ls : List ℓ} {a b c : α} (head : Step l a b) (tail : Path Step ls b c) : Path Step (l :: ls) a c

theorem Path.append {ls ls' : List ℓ} {a b c : α} (h : Path Step ls a b) (h' : Path Step ls' b c) :
    Path Step (ls ++ ls') a c := by
  induction h with
  | nil => exact h'
  | cons head _ ih => exact .cons head (ih h')

theorem Next.path {o : Option ℓ} {a b : α} (h : Next Step o a b) : Path Step o.toList a b := by
  cases o with
  | none =>
    have hb : b = a := h
    rw [hb]
    exact .nil a
  | some l => exact .cons h (.nil b)

/-- The labels of a run are those of a path. -/
theorem path_events {f : ℕ → α} {t : ℕ}
    (hf : ∀ u, u < t → Next Step (label (d.trace s inp u) (inp u)) (f u) (f (u + 1))) :
    Path Step (d.events s inp label t) (f 0) (f t) := by
  induction t with
  | zero => exact .nil _
  | succ t ih =>
    rw [d.events_succ]
    exact (ih fun u hu => hf u (Nat.lt_succ_of_lt hu)).append (hf t (Nat.lt_succ_self t)).path

/-! ## Balances -/

section Balance

variable (μ : α → ℕ) {f : ℕ → α} {n t : ℕ} (hnt : n ≤ t)
  (hf : ∀ u, n ≤ u → u < t → Next Step (label (d.trace s inp u) (inp u)) (f u) (f (u + 1)))
  {allowed : ℓ → Prop} (hl : ∀ u l, n ≤ u → u < t → label (d.trace s inp u) (inp u) = some l → allowed l)
  {inn out : ℓ → ℕ} (step : ∀ l a b, allowed l → Step l a b → μ b + out l = μ a + inn l)

include hnt hf hl step

/-- Where every step takes in `inn` and gives away `out`, so does a run in total. -/
theorem balance {m : ℕ}
    (hn : μ (f n) + ((d.events s inp label n).map out).sum = m + ((d.events s inp label n).map inn).sum) :
    μ (f t) + ((d.events s inp label t).map out).sum = m + ((d.events s inp label t).map inn).sum := by
  induction t, hnt using Nat.le_induction with
  | base => exact hn
  | succ t ht ih =>
    have hsum := ih (fun u h1 h2 => hf u h1 (Nat.lt_succ_of_lt h2)) fun u l h1 h2 => hl u l h1 (Nat.lt_succ_of_lt h2)
    have hnext := hf t ht (Nat.lt_succ_self t)
    have hlabel := hl t
    rw [d.events_succ]
    generalize label (d.trace s inp t) (inp t) = o at hnext hlabel
    cases o with
    | none =>
      have hft : f (t + 1) = f t := hnext
      rw [hft, Option.toList_none, List.append_nil]
      exact hsum
    | some l =>
      have hstep := step l _ _ (hlabel l ht (Nat.lt_succ_self t) rfl) hnext
      simp only [Option.toList_some, List.map_append, List.sum_append, List.map_cons, List.map_nil, List.sum_singleton]
      omega

end Balance

end Simulation

end Lts
