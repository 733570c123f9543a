/-
Programs that use a device through memory-mapped ports, and the processor that runs them. Code between
two labels stores to ports and loads from them; what it can do is bounded by a rely on the loads and a
guarantee of the stores, and code over one set of ports is expanded into code over another.
-/
import Mathlib.Tactic.Common

namespace Mmio

/-- Code that stores to the ports `π` and loads from them, and ends with a value. -/
inductive Code (π ν α : Type)
  | pure (a : α)
  | store (p : π) (v : ν) (k : Code π ν α)
  | load (p : π) (k : ν → Code π ν α)

namespace Code

variable {π ν α β γ κ : Type}

def bind : Code π ν α → (α → Code π ν β) → Code π ν β
  | pure a, f => f a
  | store p v k, f => store p v (k.bind f)
  | load p k, f => load p fun v => (k v).bind f

instance : Monad (Code π ν) where
  pure := .pure
  bind := .bind

@[simp] theorem bind_def (c : Code π ν α) (f : α → Code π ν β) : c >>= f = c.bind f := rfl

@[simp] theorem pure_bind (a : α) (f : α → Code π ν β) : (pure a : Code π ν α).bind f = f a := rfl

@[simp] theorem store_bind (p : π) (v : ν) (k : Code π ν α) (f : α → Code π ν β) :
    (store p v k).bind f = store p v (k.bind f) := rfl

@[simp] theorem load_bind (p : π) (k : ν → Code π ν α) (f : α → Code π ν β) :
    (load p k).bind f = load p fun v => (k v).bind f := rfl

theorem bind_assoc (c : Code π ν α) (f : α → Code π ν β) (g : β → Code π ν γ) :
    (c.bind f).bind g = c.bind fun a => (f a).bind g := by
  induction c with
  | pure a => rfl
  | store p v k ih => rw [store_bind, store_bind, store_bind, ih]
  | load p k ih =>
    rw [load_bind, load_bind, load_bind]
    exact congrArg _ (funext ih)

/-- One store. -/
def storeTo (p : π) (v : ν) : Code π ν Unit := store p v (pure ())

/-- One load. -/
def loadFrom (p : π) : Code π ν ν := load p pure

/-! ## Running code -/

/-- One access, where loads find `rd`; at the end a jump to the code of the label. -/
def step (body : κ → Code π ν κ) (rd : π → ν) : Code π ν κ → Code π ν κ
  | pure l => body l
  | store _ _ k => k
  | load p k => k (rd p)

/-- The store that an access makes. -/
def stored : Code π ν α → Option (π × ν)
  | store p v _ => some (p, v)
  | _ => none

/-! ## Expansion -/

section Expand

variable {π' ν' : Type} (w : π → ν → Code π' ν' Unit) (r : π → Code π' ν' ν)

/-- Every store and every load done by a routine over other ports. -/
def expand : Code π ν α → Code π' ν' α
  | pure a => pure a
  | store p v k => (w p v).bind fun _ => k.expand
  | load p k => (r p).bind fun v => (k v).expand

end Expand

/-! ## Rely and guarantee -/

section Safe

variable (G : π → ν → Code π ν α → Prop) (R : π → ν → Prop) (post : α → Prop)

/-- As long as loads find what `R` says, each store and the code that follows it are in `G`, and the value
at the end is in `post`. -/
def Safe : Code π ν α → Prop
  | pure a => post a
  | store p v k => G p v k ∧ k.Safe
  | load p k => ∀ v, R p v → (k v).Safe

variable {G R post}

/-- The rule of consequence. -/
theorem Safe.mono {G' : π → ν → Code π ν α → Prop} {R' : π → ν → Prop} {post' : α → Prop} {c : Code π ν α}
    (h : c.Safe G R post) (hG : ∀ p v k, G p v k → G' p v k) (hR : ∀ p v, R' p v → R p v)
    (hpost : ∀ a, post a → post' a) : c.Safe G' R' post' := by
  induction c with
  | pure a => exact hpost a h
  | store p v k ih => exact ⟨hG p v k h.1, ih h.2⟩
  | load p k ih => exact fun v hv => ih v (h v (hR p v hv))

/-- The rule for sequences. -/
theorem Safe.bind {G' : π → ν → Code π ν β → Prop} {post' : β → Prop} {c : Code π ν α} {f : α → Code π ν β}
    (h : c.Safe G R post) (hG : ∀ p v k, G p v k → G' p v (k.bind f)) (hf : ∀ a, post a → (f a).Safe G' R post') :
    (c.bind f).Safe G' R post' := by
  induction c with
  | pure a => exact hf a h
  | store p v k ih => exact ⟨hG p v k h.1, ih h.2⟩
  | load p k ih => exact fun v hv => ih v (h v hv)

/-- Code that is safe up to its labels stays so, if the code of these labels is. -/
theorem Safe.step {G : π → ν → Code π ν κ → Prop} {post : κ → Prop} {body : κ → Code π ν κ} {rd : π → ν}
    {c : Code π ν κ} (h : c.Safe G R post) (hbody : ∀ l, post l → (body l).Safe G R post)
    (hrd : ∀ p k, c = load p k → R p (rd p)) : (c.step body rd).Safe G R post := by
  cases c with
  | pure l => exact hbody l h
  | store p v k => exact h.2
  | load p k => exact h _ (hrd p k rfl)

/-- The rule for expanded code: what is safe for the routines is safe. -/
theorem Safe.expand {π' ν' : Type} {w : π → ν → Code π' ν' Unit} {r : π → Code π' ν' ν} {c : Code π ν α}
    {G' : π' → ν' → Code π' ν' α → Prop} {R' : π' → ν' → Prop} (h : c.Safe G R post)
    (hw : ∀ p v k, G p v k → (k.expand w r).Safe G' R' post → ((w p v).bind fun _ => k.expand w r).Safe G' R' post)
    (hr : ∀ p (k : ν → Code π ν α), (∀ v, R p v → ((k v).expand w r).Safe G' R' post) →
      ((r p).bind fun v => (k v).expand w r).Safe G' R' post) : (c.expand w r).Safe G' R' post := by
  induction c with
  | pure a => exact h
  | store p v k ih => exact hw p v k h.1 (ih h.2)
  | load p k ih => exact hr p k fun v hv => ih v (h v hv)

end Safe

/-! ## Devices -/

end Code

/-- A device behind the ports: what a store does to it, what a load finds, and what the load does to it. -/
structure Device (π ν σ : Type) where
  store : σ → π → ν → σ
  load : σ → π → ν × σ

namespace Code

variable {π ν α β σ : Type}

section Device

variable (d : Device π ν σ)

/-- Code on a device: the value at the end, and the device. -/
def runOn : Code π ν α → σ → α × σ
  | pure a, s => (a, s)
  | store p v k, s => runOn k (d.store s p v)
  | load p k, s => runOn (k (d.load s p).1) (d.load s p).2

theorem runOn_bind (c : Code π ν α) (f : α → Code π ν β) (s : σ) :
    runOn d (c.bind f) s = let r := runOn d c s; runOn d (f r.1) r.2 := by
  induction c generalizing s with
  | pure a => rfl
  | store p v k ih => exact ih _
  | load p k ih => exact ih ..

variable (Q : π → ν → σ → Prop)

/-- The weakest precondition: every store is in `Q`, together with the device it finds, and at the end
`post` holds. -/
def Wp (post : α → σ → Prop) : Code π ν α → σ → Prop
  | pure a, s => post a s
  | store p v k, s => Q p v s ∧ Wp post k (d.store s p v)
  | load p k, s => Wp post (k (d.load s p).1) (d.load s p).2

variable {d Q} {post : α → σ → Prop} {c : Code π ν α} {s : σ}

theorem Wp.runOn (h : c.Wp d Q post s) : post (c.runOn d s).1 (c.runOn d s).2 := by
  induction c generalizing s with
  | pure a => exact h
  | store p v k ih => exact ih h.2
  | load p k ih => exact ih _ h

theorem Wp.mono (h : c.Wp d Q post s) {post' : α → σ → Prop} (hpost : ∀ a s, post a s → post' a s) :
    c.Wp d Q post' s := by
  induction c generalizing s with
  | pure a => exact hpost a s h
  | store p v k ih => exact ⟨h.1, ih h.2⟩
  | load p k ih => exact ih _ h

/-- The rule of consequence for the stores. -/
theorem Wp.imp {Q' : π → ν → σ → Prop} (h : c.Wp d Q post s) (hQ : ∀ p v s, Q p v s → Q' p v s) :
    c.Wp d Q' post s := by
  induction c generalizing s with
  | pure a => exact h
  | store p v k ih => exact ⟨hQ _ _ _ h.1, ih h.2⟩
  | load p k ih => exact ih _ h

/-- The rule of conjunction. -/
theorem Wp.and {post' : α → σ → Prop} (h : c.Wp d Q post s) (h' : c.Wp d Q post' s) :
    c.Wp d Q (fun a s => post a s ∧ post' a s) s := by
  induction c generalizing s with
  | pure a => exact ⟨h, h'⟩
  | store p v k ih => exact ⟨h.1, ih h.2 h'.2⟩
  | load p k ih => exact ih _ h h'

/-- Where all stores are in `Q`, the postcondition is about the result of the run. -/
theorem Wp.of_runOn (h : c.Wp d Q (fun _ _ => True) s) (hpost : post (c.runOn d s).1 (c.runOn d s).2) :
    c.Wp d Q post s := by
  induction c generalizing s with
  | pure a => exact hpost
  | store p v k ih => exact ⟨h.1, ih h.2 hpost⟩
  | load p k ih => exact ih _ h hpost

theorem Wp.bind {f : α → Code π ν β} {post : β → σ → Prop} (h : c.Wp d Q (fun a s => (f a).Wp d Q post s) s) :
    (c.bind f).Wp d Q post s := by
  induction c generalizing s with
  | pure a => exact h
  | store p v k ih => exact ⟨h.1, ih h.2⟩
  | load p k ih => exact ih _ h

/-- Safe code meets what its guarantee gives for every device that keeps its rely. -/
theorem Safe.wp {G : π → ν → Code π ν α → Prop} {R : π → ν → Prop} {post₀ : α → Prop} (h : c.Safe G R post₀)
    {I : σ → Prop} (hs : I s) (hstore : ∀ p v k s, G p v k → I s → Q p v s ∧ I (d.store s p v))
    (hload : ∀ p s, I s → R p (d.load s p).1 ∧ I (d.load s p).2) (hpost : ∀ a s, post₀ a → I s → post a s) :
    c.Wp d Q post s := by
  induction c generalizing s with
  | pure a => exact hpost a s h hs
  | store p v k ih =>
    obtain ⟨hq, hnext⟩ := hstore p v k s h.1 hs
    exact ⟨hq, ih h.2 hnext⟩
  | load p k ih =>
    obtain ⟨hr, hnext⟩ := hload p s hs
    exact ih _ (h _ hr) hnext

end Device

/-! ## Loads that come late -/

variable {κ : Type}

/-- Stores come first, `n` of them. -/
def StoresFirst : ℕ → Code π ν α → Prop
  | 0, _ => True
  | n + 1, store _ _ k => k.StoresFirst n
  | _ + 1, pure _ => False
  | _ + 1, load _ _ => False

theorem StoresFirst.of_le {n m : ℕ} {c : Code π ν α} (h : c.StoresFirst n) (hm : m ≤ n) : c.StoresFirst m := by
  induction m generalizing n c with
  | zero => trivial
  | succ m ih =>
    obtain ⟨n, rfl⟩ : ∃ k, n = k + 1 := ⟨n - 1, by omega⟩
    cases c with
    | pure a => exact h
    | store p v k => exact ih (n := n) h (Nat.le_of_succ_le_succ hm)
    | load p k => exact h

theorem StoresFirst.step {n : ℕ} {body : κ → Code π ν κ} {rd : π → ν} {c : Code π ν κ} (h : c.StoresFirst (n + 1)) :
    (c.step body rd).StoresFirst n := by
  cases c with
  | pure l => exact absurd h id
  | store p v k => exact h
  | load p k => exact absurd h id

end Code

/-! ## The processor -/

/-- A processor between two accesses: the code left, and the clocks for which it is busy. -/
structure Cpu (π ν κ : Type) where
  code : Code π ν κ
  busy : ℕ

namespace Cpu

variable {π ν κ : Type} (latency : ℕ) (body : κ → Code π ν κ) (c : Cpu π ν κ)

/-- An access is made in this cycle. -/
def active (go : Bool) : Bool := go && c.busy == 0

/-- The store made in this cycle. -/
def stored (go : Bool) : Option (π × ν) := if c.active go then c.code.stored else none

/-- The clock edge. After an access at least `latency` clocks pass before the next. -/
def next (rd : π → ν) (go : Bool) : Cpu π ν κ :=
  if c.active go then ⟨c.code.step body rd, latency⟩ else ⟨c.code, c.busy - 1⟩

variable {latency body c} {rd : π → ν} {go : Bool}

/-- A store made in a cycle is the first of the code left. -/
theorem exists_of_stored {p : π} {v : ν} (h : c.stored go = some (p, v)) : ∃ k, c.code = .store p v k := by
  unfold stored at h
  split at h
  · cases hcode : c.code with
    | pure l => rw [hcode] at h; cases h
    | store p' v' k =>
      rw [hcode] at h
      cases h
      exact ⟨k, rfl⟩
    | load p k => rw [hcode] at h; cases h
  · cases h

/-- What follows the store is left after it. -/
theorem next_of_stored {p : π} {v : ν} {k : Code π ν κ} (h : c.stored go = some (p, v))
    (hcode : c.code = .store p v k) : (c.next latency body rd go).code = k := by
  unfold stored at h
  split at h
  · rename_i hact
    unfold next
    rw [if_pos hact, hcode]
    rfl
  · cases h

theorem safe_next {G : π → ν → Code π ν κ → Prop} {R : π → ν → Prop} {post : κ → Prop} (h : c.code.Safe G R post)
    (hbody : ∀ l, post l → (body l).Safe G R post) (hrd : ∀ p k, c.code = .load p k → R p (rd p)) :
    (c.next latency body rd go).code.Safe G R post := by
  unfold next
  split
  · exact h.step hbody hrd
  · exact h

theorem storesFirst_next {n : ℕ} (h : c.code.StoresFirst (n + 1)) :
    (c.next latency body rd go).code.StoresFirst n := by
  unfold next
  split
  · exact h.step
  · exact h.of_le (Nat.le_succ n)

end Cpu

end Mmio
