/-
Compaction of a list: the entries with a property are removed and as many blanks put in front.
Two cheaper ways to get there are compared with it. Blanking leaves a blank in place of every
removed entry. A bulk shift blanks and then moves everything down to the last removed entry by the
number of removed entries. Each agrees with compaction exactly when certain kept entries are blank.
-/
import Mathlib.Data.List.Basic
import Mathlib.Data.List.Count
import Mathlib.Algebra.BigOperators.Group.List.Basic
import Mathlib.Algebra.GroupWithZero.Nat

namespace Compact

variable {α : Type} (p : α → Prop) [DecidablePred p] (e : α)

/-- The kept entries, in order. -/
def kept (l : List α) : List α := l.filter (¬ p ·)

/-- A blank in place of every removed entry. -/
def blank (l : List α) : List α := l.map fun a => if p a then e else a

/-- Blanks for the removed entries, then the kept ones. -/
def compact (l : List α) : List α := List.replicate (l.countP (p ·)) e ++ kept p l

/-- Blank, then move the entries down to index `c` by `top.length` places, with `top` moving in. -/
def shift (top : List α) (c : ℕ) (l : List α) : List α :=
  top ++ (blank p e l).take (c + 1 - top.length) ++ (blank p e l).drop (c + 1)

variable {p e}

@[simp] theorem kept_nil : kept p [] = [] := rfl

theorem kept_cons_pos {a : α} (h : p a) (l : List α) : kept p (a :: l) = kept p l := by
  simp [kept, h]

theorem kept_cons_neg {a : α} (h : ¬ p a) (l : List α) : kept p (a :: l) = a :: kept p l := by
  simp [kept, h]

theorem blank_cons (a : α) (l : List α) : blank p e (a :: l) = (if p a then e else a) :: blank p e l := rfl

@[simp] theorem length_blank (l : List α) : (blank p e l).length = l.length := List.length_map ..

theorem blank_append (l l' : List α) : blank p e (l ++ l') = blank p e l ++ blank p e l' := List.map_append

/-- Entries that are all kept are left alone. -/
theorem blank_eq_self {l : List α} (h : ∀ a ∈ l, ¬ p a) : blank p e l = l := by
  induction l with
  | nil => rfl
  | cons a l ih =>
    rw [blank_cons, if_neg (h a (List.mem_cons_self ..)), ih fun b hb => h b (List.mem_cons_of_mem _ hb)]

theorem kept_eq_self {l : List α} (h : ∀ a ∈ l, ¬ p a) : kept p l = l := by
  simpa [kept, List.filter_eq_self] using h

theorem length_kept (l : List α) : l.countP (p ·) + (kept p l).length = l.length := by
  induction l with
  | nil => rfl
  | cons a l ih =>
    by_cases ha : p a
    · rw [kept_cons_pos ha, List.countP_cons_of_pos (by simpa using ha), List.length_cons]; omega
    · rw [kept_cons_neg ha, List.countP_cons_of_neg (by simpa using ha), List.length_cons, List.length_cons]
      omega

theorem replicate_append_cons (n : ℕ) (l : List α) :
    List.replicate n e ++ e :: l = List.replicate (n + 1) e ++ l := by
  rw [List.append_cons, ← List.replicate_succ']

/-! ## The entries of a compacted list -/

theorem compact_eq_self {l : List α} (h : ∀ a ∈ l, ¬ p a) : compact p e l = l := by
  have hcount : l.countP (p ·) = 0 := List.countP_eq_zero.2 fun a ha => by simpa using h a ha
  unfold compact
  rw [kept_eq_self h, hcount, List.replicate_zero, List.nil_append]

theorem mem_compact {l : List α} {a : α} (h : a ∈ compact p e l) : a = e ∨ ¬ p a := by
  rcases List.mem_append.1 h with h | h
  · exact .inl (List.eq_of_mem_replicate h)
  · exact .inr (by simpa using (List.mem_filter.1 h).2)

/-- Weights with blanks of weight 0: each removed entry takes its weight away. -/
theorem sum_compact (w : α → ℕ) (he : w e = 0) {k : ℕ} (hk : ∀ a, p a → w a = k) (l : List α) :
    ((compact p e l).map w).sum + k * l.countP (p ·) = (l.map w).sum := by
  unfold compact
  rw [List.map_append, List.sum_append, List.map_replicate, he, List.sum_replicate, nsmul_zero, zero_add]
  induction l with
  | nil => rfl
  | cons a l ih =>
    rw [List.map_cons, List.sum_cons]
    by_cases ha : p a
    · rw [kept_cons_pos ha, List.countP_cons_of_pos (by simpa using ha), hk a ha, Nat.mul_succ]
      omega
    · rw [kept_cons_neg ha, List.countP_cons_of_neg (by simpa using ha), List.map_cons, List.sum_cons]
      omega

/-! ## Blanking against compaction -/

/-- With one more blank at the end, blanking is compaction exactly when every kept entry is
blank. -/
theorem blank_concat_iff (l : List α) :
    blank p e l ++ [e] = List.replicate (l.countP (p ·) + 1) e ++ kept p l ↔ ∀ a ∈ l, ¬ p a → a = e := by
  induction l with
  | nil => simp [blank]
  | cons a l ih =>
    by_cases ha : p a
    · rw [blank_cons, if_pos ha, kept_cons_pos ha, List.countP_cons_of_pos (by simpa using ha),
        List.replicate_succ, List.cons_append, List.cons_append, List.cons_inj_right, ih]
      simp [ha]
    · rw [blank_cons, if_neg ha, kept_cons_neg ha, List.countP_cons_of_neg (by simpa using ha),
        List.replicate_succ, List.cons_append, List.cons_append]
      constructor
      · intro h
        obtain ⟨rfl, h⟩ := List.cons.inj h
        -- the kept blank joins the blanks in front of the other kept entries
        rw [replicate_append_cons, ih] at h
        simpa [ha] using h
      · intro h
        have hae : a = e := h a (List.mem_cons_self ..) ha
        rw [hae, replicate_append_cons, ih.2 fun b hb => h b (List.mem_cons_of_mem _ hb)]

/-! ## The bulk shift against compaction -/

/-- After at least one blank, the blanked entries start with the kept ones exactly when all of
these are blank. -/
theorem take_blank_iff (l : List α) (d : ℕ) :
    (List.replicate (d + 1) e ++ blank p e l).take (kept p l).length = kept p l ↔
      ∀ a ∈ l, ¬ p a → a = e := by
  induction l generalizing d with
  | nil => simp
  | cons a l ih =>
    by_cases ha : p a
    · rw [blank_cons, if_pos ha, kept_cons_pos ha, replicate_append_cons, ih]
      simp [ha]
    · -- a kept head meets a blank
      rw [blank_cons, if_neg ha, kept_cons_neg ha, List.replicate_succ, List.cons_append, List.length_cons,
        List.take_succ_cons]
      constructor
      · intro h
        obtain ⟨rfl, h⟩ := List.cons.inj h
        rw [replicate_append_cons, ih] at h
        simpa [ha] using h
      · intro h
        have hae : a = e := h a (List.mem_cons_self ..) ha
        rw [hae, replicate_append_cons, (ih d).2 fun b hb => h b (List.mem_cons_of_mem _ hb)]

/-- The blanked entries start with the kept ones exactly when every kept entry below a removed
one is blank. -/
theorem take_blank_eq_kept_iff (l : List α) :
    (blank p e l).take (kept p l).length = kept p l ↔ l.Pairwise fun a b => p a → ¬ p b → b = e := by
  induction l with
  | nil => simp
  | cons a l ih =>
    rw [List.pairwise_cons]
    by_cases ha : p a
    · -- below a removed head every kept entry is off by one place at least
      have h1 := take_blank_iff (p := p) (e := e) l 0
      rw [List.replicate_one, List.singleton_append] at h1
      rw [blank_cons, if_pos ha, kept_cons_pos ha, h1]
      constructor
      · intro h
        exact ⟨fun b hb _ => h b hb, List.pairwise_of_forall_mem_list fun _ _ b hb _ => h b hb⟩
      · exact fun h b hb => h.1 b hb ha
    · rw [blank_cons, if_neg ha, kept_cons_neg ha, List.length_cons, List.take_succ_cons,
        List.cons_inj_right, ih]
      exact ⟨fun h => ⟨fun _ _ h' => absurd h' ha, h⟩, fun h => h.2⟩

/-! ## Lists split at the last removed entry -/

section Split

variable {l z : List α} {f : α} (hf : p f) (hz : ∀ a ∈ z, ¬ p a)

include hf hz

theorem countP_split : (l ++ f :: z).countP (p ·) = l.countP (p ·) + 1 := by
  have hz0 : z.countP (p ·) = 0 := List.countP_eq_zero.2 fun a ha => by simpa using hz a ha
  rw [List.countP_append, List.countP_cons_of_pos (by simpa using hf), hz0]

theorem kept_split : kept p (l ++ f :: z) = kept p l ++ z := by
  unfold kept
  rw [List.filter_append]
  exact congrArg _ ((kept_cons_pos hf z).trans (kept_eq_self hz))

theorem blank_split : blank p e (l ++ f :: z) = blank p e l ++ e :: z := by
  rw [blank_append, blank_cons, if_pos hf, blank_eq_self hz]

/-- Blanking is compaction exactly when every kept entry above the last removed one is blank. -/
theorem blank_eq_compact_iff :
    blank p e (l ++ f :: z) = compact p e (l ++ f :: z) ↔ ∀ a ∈ l, ¬ p a → a = e := by
  unfold compact
  rw [kept_split hf hz, countP_split hf hz, blank_split hf hz, List.append_cons, ← List.append_assoc,
    List.append_cancel_right_eq]
  exact blank_concat_iff l

/-- The bulk shift by the number of removed entries is compaction exactly when blanks move in and
every kept entry between two removed ones is blank. -/
theorem shift_eq_compact_iff {top : List α} (htop : top.length = (l ++ f :: z).countP (p ·)) :
    shift p e top l.length (l ++ f :: z) = compact p e (l ++ f :: z) ↔
      (∀ a ∈ top, a = e) ∧ l.Pairwise fun a b => p a → ¬ p b → b = e := by
  have hcount := countP_split (l := l) hf hz
  have hlen : l.length + 1 - top.length = (kept p l).length := by
    have := length_kept (p := p) l; omega
  have hle : (kept p l).length ≤ (blank p e l).length := by
    have := length_kept (p := p) l; rw [length_blank]; omega
  have hdrop : (blank p e l ++ e :: z).drop (l.length + 1) = z := by
    rw [List.append_cons, List.drop_left' (by simp)]
  unfold shift compact
  rw [kept_split hf hz, blank_split hf hz, hlen, hdrop, List.take_append_of_le_length hle,
    ← List.append_assoc, List.append_cancel_right_eq, ← take_blank_eq_kept_iff]
  constructor
  · intro h
    obtain ⟨h1, h2⟩ := List.append_inj h (by rw [List.length_replicate, htop])
    exact ⟨(List.eq_replicate_iff.1 h1).2, h2⟩
  · rintro ⟨h1, h2⟩
    rw [h2, ← htop, List.eq_replicate_iff.2 ⟨rfl, h1⟩, List.length_replicate]

end Split

end Compact
