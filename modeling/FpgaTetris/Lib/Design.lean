/-
Synchronous designs: every register changes at the same clock edge. The trace of a design under
a stream of inputs, the rules that carry a property of one cycle to every cycle (invariants, a
phase that lasts until something happens, progress by a measure), components of a composition,
and the events a trace produces.
-/
import Mathlib.Data.Nat.Find
import Mathlib.Logic.Relation
import Mathlib.Order.Basic
import Mathlib.Tactic.Common

namespace Sync

/-- A synchronous design: the registers after the clock edge that ends a cycle, from the
registers and the inputs of that cycle. -/
structure Design (σ ι : Type) where
  next : σ → ι → σ

namespace Design

variable {σ ι : Type} (d : Design σ ι) (s : σ) (inp : ℕ → ι)

/-- The registers in cycle `t`, from contents `s` in cycle 0. -/
def trace : ℕ → σ
  | 0 => s
  | t + 1 => d.next (trace t) (inp t)

@[simp] theorem trace_zero : d.trace s inp 0 = s := rfl

theorem trace_succ (t : ℕ) : d.trace s inp (t + 1) = d.next (d.trace s inp t) (inp t) := rfl

/-! ## Invariants -/

/-- `P` is set up by a cycle satisfying `start` and kept by every cycle whose inputs satisfy
`ok`. -/
structure Keeps (start : σ → ι → Prop) (ok : ι → Prop) (P : σ → Prop) : Prop where
  init : ∀ s i, start s i → P (d.next s i)
  step : ∀ s i, ok i → P s → P (d.next s i)

variable {d s inp}

/-- The invariant rule: after a starting cycle, the property holds in every later cycle. -/
theorem Keeps.trace {start : σ → ι → Prop} {ok : ι → Prop} {P : σ → Prop} (h : d.Keeps start ok P)
    (h0 : start s (inp 0)) (hok : ∀ t, 0 < t → ok (inp t)) : ∀ t, 0 < t → P (d.trace s inp t) := by
  intro t ht
  induction t, ht using Nat.le_induction with
  | base => exact h.init s _ h0
  | succ t ht ih => exact h.step _ _ (hok t ht) ih

/-- A phase: a property that each cycle from `a` up to `b` hands on holds in cycle `b`. -/
theorem trace_phase (P : σ → Prop) {a b : ℕ} (hab : a ≤ b) (ha : P (d.trace s inp a))
    (step : ∀ t, a ≤ t → t < b → P (d.trace s inp t) → P (d.next (d.trace s inp t) (inp t))) :
    P (d.trace s inp b) := by
  induction b, hab using Nat.le_induction with
  | base => exact ha
  | succ b hab ih =>
    exact step b hab (Nat.lt_succ_self b) (ih fun t h1 h2 => step t h1 (Nat.lt_succ_of_lt h2))

/-- Where a cycle keeps a property exactly under `ok`, the property holds through a cycle exactly if
`ok` did in the ones before it. -/
theorem trace_iff (P : σ → Prop) (ok : σ → ι → Prop) {a : ℕ} (ha : P (d.trace s inp a))
    (step : ∀ t, a ≤ t → P (d.trace s inp t) → (P (d.trace s inp (t + 1)) ↔ ok (d.trace s inp t) (inp t))) (T : ℕ) :
    (∀ t, a ≤ t → t ≤ T + 1 → P (d.trace s inp t)) ↔ ∀ t, a ≤ t → t ≤ T → ok (d.trace s inp t) (inp t) := by
  constructor
  · intro h t hat htT
    exact (step t hat (h t hat (Nat.le_succ_of_le htT))).1 (h (t + 1) (Nat.le_succ_of_le hat) (Nat.succ_le_succ htT))
  · intro h t hat htT
    refine trace_phase P hat ha fun u hau hut hu => (step u hau hu).2 (h u hau ?_)
    exact Nat.le_of_lt_succ (lt_of_lt_of_le hut htT)

/-! ## Progress -/

section Progress

variable (busy : σ → Prop) (tick ok : ι → Prop) (μ : σ → ℕ)
  (hμ : ∀ s i, ok i → busy s → busy (d.next s i) → μ (d.next s i) ≤ μ s ∧ (tick i → μ (d.next s i) < μ s))
  {a : ℕ} (hok : ∀ t, a ≤ t → ok (inp t))

include hμ hok

/-- While `busy` lasts the measure never grows. -/
theorem measure_le_of_busy (hbusy : ∀ t, a ≤ t → busy (d.trace s inp t)) {t u : ℕ} (hat : a ≤ t) (htu : t ≤ u) :
    μ (d.trace s inp u) ≤ μ (d.trace s inp t) := by
  induction u, htu using Nat.le_induction with
  | base => exact le_rfl
  | succ u htu ih =>
    have hau := le_trans hat htu
    exact le_trans (hμ _ _ (hok u hau) (hbusy u hau) (hbusy (u + 1) (Nat.le_succ_of_le hau))).1 ih

/-- Progress: while `busy`, a measure never grows and falls at every tick, so with ticks recurring
for ever the busy phase ends. -/
theorem exists_not_busy (hticks : ∀ n, ∃ t, n ≤ t ∧ tick (inp t)) : ∃ t, a ≤ t ∧ ¬ busy (d.trace s inp t) := by
  by_contra hno
  have hbusy : ∀ t, a ≤ t → busy (d.trace s inp t) := fun t ht => by
    by_contra hb
    exact hno ⟨t, ht, hb⟩
  -- the next tick after any cycle leaves the measure below what it is in that cycle
  have hfall : ∀ t, a ≤ t → ∃ u, a ≤ u ∧ μ (d.trace s inp u) < μ (d.trace s inp t) := by
    intro t hat
    obtain ⟨u, htu, hu⟩ := hticks t
    have hau := le_trans hat htu
    have hlt := (hμ _ _ (hok u hau) (hbusy u hau) (hbusy (u + 1) (Nat.le_succ_of_le hau))).2 hu
    exact ⟨u + 1, Nat.le_succ_of_le hau, lt_of_lt_of_le hlt (measure_le_of_busy busy tick ok μ hμ hok hbusy hat htu)⟩
  have key : ∀ m t, a ≤ t → μ (d.trace s inp t) ≠ m := by
    intro m
    induction m using Nat.strong_induction_on with
    | _ m ih =>
      rintro t hat rfl
      obtain ⟨u, hau, hlt⟩ := hfall t hat
      exact ih _ hlt u hau rfl
  exact key _ a le_rfl rfl

end Progress

/-! ## Components -/

/-- A component of a composition runs through a trace of its own, under the inputs the
composition feeds it. -/
theorem trace_component {σ' ι' : Type} {d' : Design σ' ι'} {π : σ → σ'} {f : σ → ι → ι'}
    (h : ∀ s i, π (d.next s i) = d'.next (π s) (f s i)) :
    ∀ t, π (d.trace s inp t) = d'.trace (π s) (fun t => f (d.trace s inp t) (inp t)) t
  | 0 => rfl
  | t + 1 => by rw [trace_succ, h, trace_component h t, trace_succ]

/-! ## Two runs -/

/-- The rule for two runs: a relation that each pair of cycles hands on holds throughout. -/
theorem trace_rel {σ' ι' : Type} {d' : Design σ' ι'} {s' : σ'} {inp' : ℕ → ι'} (R : σ → σ' → Prop) (h0 : R s s')
    {n : ℕ} (step : ∀ t, t < n → R (d.trace s inp t) (d'.trace s' inp' t) →
      R (d.next (d.trace s inp t) (inp t)) (d'.next (d'.trace s' inp' t) (inp' t))) :
    R (d.trace s inp n) (d'.trace s' inp' n) := by
  induction n with
  | zero => exact h0
  | succ n ih => exact step n (Nat.lt_succ_self n) (ih fun t ht => step t (Nat.lt_succ_of_lt ht))

/-! ## Events -/

variable (d s inp)

/-- What the cycles before `t` produced, in order. -/
def events {α : Type} (out : σ → ι → Option α) : ℕ → List α
  | 0 => []
  | t + 1 => events out t ++ (out (d.trace s inp t) (inp t)).toList

@[simp] theorem events_zero {α : Type} (out : σ → ι → Option α) : d.events s inp out 0 = [] := rfl

theorem events_succ {α : Type} (out : σ → ι → Option α) (t : ℕ) :
    d.events s inp out (t + 1) = d.events s inp out t ++ (out (d.trace s inp t) (inp t)).toList := rfl

theorem mem_events {α : Type} {out : σ → ι → Option α} {t : ℕ} {x : α} :
    x ∈ d.events s inp out t ↔ ∃ u, u < t ∧ out (d.trace s inp u) (inp u) = some x := by
  induction t with
  | zero => simp
  | succ t ih =>
    rw [events_succ, List.mem_append, ih, Option.mem_toList]
    constructor
    · rintro (⟨u, hu, hx⟩ | hx)
      · exact ⟨u, Nat.lt_succ_of_lt hu, hx⟩
      · exact ⟨t, Nat.lt_succ_self t, hx⟩
    · rintro ⟨u, hu, hx⟩
      rcases Nat.lt_succ_iff_lt_or_eq.1 hu with hlt | rfl
      · exact .inl ⟨u, hlt, hx⟩
      · exact .inr hx

/-- Cycles that produce nothing leave the events as they are. -/
theorem events_of_none {α : Type} {out : σ → ι → Option α} {a b : ℕ} (hab : a ≤ b)
    (h : ∀ t, a ≤ t → t < b → out (d.trace s inp t) (inp t) = none) : d.events s inp out b = d.events s inp out a := by
  induction b, hab using Nat.le_induction with
  | base => rfl
  | succ b hab ih =>
    rw [events_succ, h b hab (Nat.lt_succ_self b), ih fun t h1 h2 => h t h1 (Nat.lt_succ_of_lt h2)]
    exact List.append_nil _

/-- A balance: when every cycle hands out what was owed, oldest first, and adds what came in, then
what came in is what was handed out followed by what is owed. -/
theorem events_balance {α : Type} {inn out : σ → ι → Option α} (owed : σ → List α) (h0 : owed s = [])
    (h : ∀ t, (out (d.trace s inp t) (inp t)).toList ++ owed (d.trace s inp (t + 1)) =
      owed (d.trace s inp t) ++ (inn (d.trace s inp t) (inp t)).toList) (t : ℕ) :
    d.events s inp inn t = d.events s inp out t ++ owed (d.trace s inp t) := by
  induction t with
  | zero => simpa using h0.symm
  | succ t ih => rw [events_succ, events_succ, ih, List.append_assoc, List.append_assoc, h]

/-- A balance in which the order does not matter, from cycle `a` on and from a stock `l`. -/
theorem events_perm {α : Type} {inn out : σ → ι → Option α} (owed : σ → List α) {l : List α} {a : ℕ}
    (ha : (l ++ d.events s inp inn a).Perm (d.events s inp out a ++ owed (d.trace s inp a)))
    {t : ℕ} (ht : a ≤ t)
    (h : ∀ u, a ≤ u → u < t → ((out (d.trace s inp u) (inp u)).toList ++ owed (d.trace s inp (u + 1))).Perm
      (owed (d.trace s inp u) ++ (inn (d.trace s inp u) (inp u)).toList)) :
    (l ++ d.events s inp inn t).Perm (d.events s inp out t ++ owed (d.trace s inp t)) := by
  induction t, ht using Nat.le_induction with
  | base => exact ha
  | succ t ht ih =>
    rw [events_succ, events_succ, ← List.append_assoc, List.append_assoc (d.events s inp out t)]
    refine ((ih fun u h1 h2 => h u h1 (Nat.lt_succ_of_lt h2)).append_right _).trans ?_
    rw [List.append_assoc]
    exact (h t ht (Nat.lt_succ_self t)).symm.append_left _

/-! ## Reachability -/

/-- The input `i`, then those of `inp`. -/
def cons (i : ι) (inp : ℕ → ι) : ℕ → ι
  | 0 => i
  | t + 1 => inp t

theorem trace_cons (i : ι) (t : ℕ) : d.trace s (cons i inp) (t + 1) = d.trace (d.next s i) inp t := by
  induction t with
  | zero => rfl
  | succ t ih => rw [trace_succ, ih]; rfl

/-- A trace goes on from any of its states. -/
theorem trace_add (n t : ℕ) :
    d.trace s inp (n + t) = d.trace (d.trace s inp n) (fun k => inp (n + k)) t := by
  induction t with
  | zero => rfl
  | succ t ih => rw [← Nat.add_assoc, trace_succ, ih]; rfl

/-- One clock edge under some input that satisfies `ok`. -/
def Step (ok : σ → ι → Prop) (s s' : σ) : Prop := ∃ i, ok s i ∧ d.next s i = s'

/-- The states of a trace are reached. -/
theorem reflTransGen_trace {ok : σ → ι → Prop} (hok : ∀ t, ok (d.trace s inp t) (inp t)) :
    ∀ t, Relation.ReflTransGen (d.Step ok) s (d.trace s inp t)
  | 0 => .refl
  | t + 1 => (reflTransGen_trace hok t).tail ⟨inp t, hok t, rfl⟩

/-- A state that can be reached is reached by a stream of inputs that goes on as wanted. -/
theorem exists_trace {ok : σ → ι → Prop} {s' : σ} (h : Relation.ReflTransGen (d.Step ok) s s') (rest : ℕ → ι) :
    ∃ n inp, (∀ t, t < n → ok (d.trace s inp t) (inp t)) ∧ d.trace s inp n = s' ∧ ∀ t, inp (n + t) = rest t := by
  induction h using Relation.ReflTransGen.head_induction_on with
  | refl => exact ⟨0, rest, fun t ht => absurd ht (Nat.not_lt_zero t), rfl, fun t => by rw [Nat.zero_add]⟩
  | head hstep _ ih =>
    obtain ⟨i, hi, rfl⟩ := hstep
    obtain ⟨n, inp, hok, htrace, hinp⟩ := ih
    refine ⟨n + 1, cons i inp, fun t ht => ?_, (trace_cons ..).trans htrace, fun t => ?_⟩
    · cases t with
      | zero => exact hi
      | succ t =>
        rw [trace_cons]
        exact hok t (Nat.lt_of_succ_lt_succ ht)
    · rw [Nat.add_right_comm]
      exact hinp t

/-- What the inputs of the steps and those that follow have in common, all inputs have. -/
theorem forall_inputs {P : ι → Prop} {inp rest : ℕ → ι} {n : ℕ} (h : ∀ t, t < n → P (inp t))
    (hinp : ∀ t, inp (n + t) = rest t) (hrest : ∀ t, P (rest t)) (t : ℕ) : P (inp t) := by
  rcases lt_or_ge t n with ht | ht
  · exact h t ht
  · obtain ⟨k, rfl⟩ := Nat.exists_eq_add_of_le ht
    rw [hinp]
    exact hrest k

end Design

end Sync
