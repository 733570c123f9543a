/-
Arrays whose cells have addresses: a write to an address that names no cell is dropped, and a
batch of writes is one conditional update when its value depends on the address alone.
-/
import Mathlib.Data.List.Basic

namespace Addressed

variable {γ α β : Type} [DecidableEq α] (key : γ → α)

/-- Write `v` to the cell with address `a`, if there is one. -/
def write (b : γ → β) (a : α) (v : β) : γ → β := fun c => if key c = a then v else b c

/-- A batch of writes, in order. -/
def writeAll (b : γ → β) (ws : List (α × β)) : γ → β := ws.foldl (fun b w => write key b w.1 w.2) b

@[simp] theorem writeAll_nil (b : γ → β) : writeAll key b [] = b := rfl

theorem writeAll_cons (b : γ → β) (w : α × β) (ws : List (α × β)) :
    writeAll key b (w :: ws) = writeAll key (write key b w.1 w.2) ws := rfl

/-- Writes whose value is a function of the address: each addressed cell holds its value, every
other cell is unchanged. -/
theorem writeAll_map (val : α → β) (c : γ) :
    ∀ (as : List α) (b : γ → β), writeAll key b (as.map fun a => (a, val a)) c =
      if key c ∈ as then val (key c) else b c
  | [], b => by simp
  | a :: as, b => by
    rw [List.map_cons, writeAll_cons, writeAll_map val c as]
    unfold write
    by_cases h1 : key c ∈ as
    · simp [h1]
    · by_cases h2 : key c = a <;> simp [h1, h2]

/-- Painting: one value at every address of a list. -/
theorem writeAll_const (v : β) (as : List α) (b : γ → β) (c : γ) :
    writeAll key b (as.map (·, v)) c = if key c ∈ as then v else b c :=
  writeAll_map key (fun _ => v) c as b

end Addressed
