/-
The array and its full rows: reads and writes by index, the set of full rows, and what the scan
of `board.sv` computes from it.
-/
import FpgaTetris.Hdl.Board
import Mathlib.Data.Fintype.Pi
import Mathlib.Data.List.FinRange
import Mathlib.Data.List.Perm.Subperm

namespace FpgaTetris

/-! ## Positions -/

abbrev Cell := Fin xSize × Fin ySize

theorem pos_fst (c : Cell) : (pos c).1.toNat = c.1 := by
  have := c.1.isLt
  simp only [pos, BitVec.toNat_ofNat]
  exact Nat.mod_eq_of_lt (lt_trans this (by decide))

theorem pos_snd (c : Cell) : (pos c).2.toNat = c.2 := by
  have := c.2.isLt
  simp only [pos, BitVec.toNat_ofNat]
  exact Nat.mod_eq_of_lt (lt_trans this (by decide))

theorem inBoard_pos (c : Cell) : InBoard (pos c) :=
  ⟨by rw [pos_fst]; exact c.1.isLt, by rw [pos_snd]; exact c.2.isLt⟩

theorem pos_injective : Function.Injective pos := by
  intro c d h
  refine Prod.ext (Fin.ext ?_) (Fin.ext ?_)
  · rw [← pos_fst c, ← pos_fst d, h]
  · rw [← pos_snd c, ← pos_snd d, h]

theorem pos_toNat {p : Pos} (h : InBoard p) : pos (⟨p.1.toNat, h.1⟩, ⟨p.2.toNat, h.2⟩) = p := by
  simp [pos]

theorem inBoard_iff {p : Pos} : InBoard p ↔ ∃ c, pos c = p := by
  constructor
  · intro h; exact ⟨_, pos_toNat h⟩
  · rintro ⟨c, rfl⟩; exact inBoard_pos c

theorem BoardArr.read_pos (oor : OutOfRange) (b : BoardArr) (c : Cell) : b.read oor (pos c) = b c := by
  unfold BoardArr.read
  rw [dif_pos (inBoard_pos c)]
  congr 1
  exact Prod.ext (Fin.ext (pos_fst c)) (Fin.ext (pos_snd c))

theorem BoardArr.read_out {oor : OutOfRange} {b : BoardArr} {p : Pos} (h : ¬ InBoard p) :
    b.read oor p = oor.boardArr b p := by
  unfold BoardArr.read
  rw [dif_neg h]

theorem BoardArr.writeAll_const (b : BoardArr) (ps : List Pos) (v : BlockColor) (c : Cell) :
    b.writeAll (ps.map (·, v)) c = if pos c ∈ ps then v else b c := by
  unfold BoardArr.writeAll
  rw [Addressed.writeAll_const]
  congr

theorem BoardArr.writeAll_map (b : BoardArr) (ps : List Pos) (val : Pos → BlockColor) (c : Cell) :
    b.writeAll (ps.map fun p => (p, val p)) c = if pos c ∈ ps then val (pos c) else b c := by
  unfold BoardArr.writeAll
  rw [Addressed.writeAll_map]
  congr

/-! ## Full rows -/

/-- A row without an empty cell. -/
def FullRow (b : BoardArr) (y : Fin ySize) : Prop := ∀ x, b (x, y) ≠ .empty

instance (b : BoardArr) : DecidablePred (FullRow b) :=
  fun y => inferInstanceAs (Decidable (∀ x, b (x, y) ≠ .empty))

/-- The full rows, from the top down. -/
def fullRows (b : BoardArr) : List (Fin ySize) := (List.finRange ySize).filter (FullRow b ·)

theorem mem_fullRows {b : BoardArr} {y : Fin ySize} : y ∈ fullRows b ↔ FullRow b y := by
  simp [fullRows]

theorem fullRows_sorted (b : BoardArr) : (fullRows b).Pairwise (· < ·) :=
  (List.pairwise_lt_finRange ySize).filter _

theorem nodup_fullRows (b : BoardArr) : ((fullRows b).map Fin.val).Nodup :=
  List.Nodup.map Fin.val_injective ((fullRows_sorted b).imp ne_of_lt)

theorem length_fullRows_le (b : BoardArr) : (fullRows b).length ≤ ySize :=
  le_trans (List.length_filter_le _ _) (List.length_finRange (n := ySize)).le

namespace Board

/-! ## The scan -/

theorem canClearCurrent_iff (b : BoardArr) (y : Fin ySize) :
    ∀ xs : List (Fin xSize), canClearCurrent b y xs = true ↔ ∀ x ∈ xs, b (x, y) ≠ .empty
  | [] => by simp [canClearCurrent]
  | x :: xs => by
    unfold canClearCurrent
    by_cases hx : b (x, y) = .empty
    · simp [hx]
    · simp [hx, canClearCurrent_iff b y xs]

theorem canClearCurrent_full (b : BoardArr) (y : Fin ySize) :
    canClearCurrent b y (List.finRange xSize) = true ↔ FullRow b y := by
  rw [canClearCurrent_iff]; simp [FullRow]

/-- The outer loop over any rows: the last full one, how many there are, whether there is one. -/
theorem foldl_scanRow (b : BoardArr) (ys : List (Fin ySize)) :
    let fs := ys.filter (FullRow b ·)
    ys.foldl (scanRow b) ⟨30, 0, false⟩ =
      { clearY := (fs.getLast?.map fun y => BitVec.ofNat 5 y).getD 30
        numRows := BitVec.ofNat 5 fs.length
        canClearRow := !fs.isEmpty } := by
  induction ys using List.reverseRecOn with
  | nil => rfl
  | append_singleton ys y ih =>
    simp only [List.foldl_append, List.foldl_cons, List.foldl_nil, List.filter_append]
    rw [ih, scanRow]
    by_cases hy : FullRow b y
    · rw [if_pos ((canClearCurrent_full b y).2 hy)]
      simp [hy, BitVec.ofNat_add]
    · rw [if_neg fun h => hy ((canClearCurrent_full b y).1 h)]
      simp [hy]

theorem scan_eq (b : BoardArr) :
    scan b =
      { clearY := ((fullRows b).getLast?.map fun y => BitVec.ofNat 5 y).getD 30
        numRows := BitVec.ofNat 5 (fullRows b).length
        canClearRow := !(fullRows b).isEmpty } :=
  foldl_scanRow b _

theorem numRows_toNat (b : BoardArr) : (scan b).numRows.toNat = (fullRows b).length := by
  rw [scan_eq]
  simp only [BitVec.toNat_ofNat]
  exact Nat.mod_eq_of_lt (lt_of_le_of_lt (length_fullRows_le b) (by decide))

theorem numRows_pos {b : BoardArr} (h : ∃ y, FullRow b y) : 0 < (scan b).numRows.toNat := by
  obtain ⟨y, hy⟩ := h
  rw [numRows_toNat]
  exact List.length_pos_of_mem (mem_fullRows.2 hy)

/-- The count is one exactly when there is one full row. -/
theorem numRows_eq_one_iff {b : BoardArr} {y : Fin ySize} (hy : FullRow b y) :
    (scan b).numRows = 1 ↔ ∀ y', FullRow b y' → y' = y := by
  rw [← BitVec.toNat_inj, numRows_toNat]
  have hmem := mem_fullRows.2 hy
  have hsort := fullRows_sorted b
  simp only [← mem_fullRows]
  rcases hl : fullRows b with _ | ⟨y₁, _ | ⟨y₂, ys⟩⟩
  · rw [hl] at hmem; cases hmem
  · rw [hl, List.mem_singleton] at hmem
    simp [hmem]
  · rw [hl, List.pairwise_cons] at hsort
    have hne : y₁ ≠ y₂ := ne_of_lt (hsort.1 y₂ (List.mem_cons_self ..))
    constructor
    · intro h; simp at h
    · intro h
      have h1 := h y₁ (by simp)
      have h2 := h y₂ (by simp)
      exact absurd (h1.trans h2.symm) hne

theorem canClearRow_iff (b : BoardArr) : (scan b).canClearRow = true ↔ ∃ y, FullRow b y := by
  rw [scan_eq]
  simp only [Bool.not_eq_true', List.isEmpty_eq_false_iff_exists_mem, mem_fullRows]

/-- `clear_y` is the lowest full row. -/
theorem clearY_spec {b : BoardArr} (h : ∃ y, FullRow b y) :
    ∃ y : Fin ySize, (scan b).clearY.toNat = y ∧ FullRow b y ∧ ∀ y', FullRow b y' → y' ≤ y := by
  have hne : fullRows b ≠ [] := by
    obtain ⟨y, hy⟩ := h
    exact List.ne_nil_of_mem (mem_fullRows.2 hy)
  refine ⟨(fullRows b).getLast hne, ?_, mem_fullRows.1 (List.getLast_mem hne), fun y' hy' => ?_⟩
  · rw [scan_eq, List.getLast?_eq_some_getLast hne]
    exact Nat.mod_eq_of_lt (lt_trans (Fin.isLt _) (by decide))
  · have hmem := mem_fullRows.2 hy'
    rw [← List.dropLast_append_getLast hne, List.mem_append, List.mem_singleton] at hmem
    rcases hmem with hmem | rfl
    · have hs := fullRows_sorted b
      rw [← List.dropLast_append_getLast hne, List.pairwise_append] at hs
      exact le_of_lt (hs.2.2 _ hmem _ (List.mem_singleton_self _))
    · exact le_rfl

/-- The full rows lie in the rows down to the lowest one. -/
theorem numRows_le {b : BoardArr} (h : ∃ y, FullRow b y) : (scan b).numRows.toNat ≤ (scan b).clearY.toNat + 1 := by
  obtain ⟨c, hc, -, hlow⟩ := clearY_spec h
  rw [numRows_toNat, hc]
  have hsub : (fullRows b).map Fin.val ⊆ List.range (c + 1) := by
    intro n hn
    obtain ⟨y, hy, rfl⟩ := List.mem_map.1 hn
    exact List.mem_range.2 (Nat.lt_succ_of_le (hlow y (mem_fullRows.1 hy)))
  have hlen := ((nodup_fullRows b).subperm hsub).length_le
  rwa [List.length_map, List.length_range] at hlen

end Board

end FpgaTetris
