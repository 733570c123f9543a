/-
The frames of the console. The sync signals as a function of the pixel clocks since the last reset, and
the frame edges that both games see: one for every 420000 pixel clocks, none lost and none seen twice.
-/
import FpgaTetris.Console.Games
import FpgaTetris.Lib.Progress
import FpgaTetris.Screen.Counters

namespace FpgaTetris

open Sync

/-! ## Signals -/

/-- `VGA_HS`, `VGA_VS` and `VGA_BLANK_N`, `n` pixel clocks after a reset. -/
def hsAt (n : ℕ) : Bool := decide (0 < n) && !decide (656 ≤ n % 800 ∧ n % 800 < 752)

def vsAt (n : ℕ) : Bool := decide (0 < n) && !decide (490 ≤ n / 800 % 525 ∧ n / 800 % 525 < 492)

def blankNAt (n : ℕ) : Bool := decide (0 < n) && decide (n % 800 < 640 ∧ n / 800 % 525 < 480)

namespace VgaController

/-- The beam and the signals `n` pixel clocks after a reset. -/
structure At (n : ℕ) (s : VgaController) : Prop where
  x : s.drawX.toNat = n % 800
  y : s.drawY.toNat = n / 800 % 525
  hs : s.vgaHs = hsAt n
  vs : s.vgaVs = vsAt n
  blankN : s.vgaBlankN = blankNAt n

variable {s : VgaController} {n : ℕ}

theorem At.of_reset (s : VgaController) : At 0 (s.next true) := ⟨rfl, rfl, rfl, rfl, rfl⟩

theorem At.onRaster (h : At n s) : s.OnRaster := ⟨by rw [h.x]; omega, by rw [h.y]; omega⟩

theorem At.next (h : At n s) : At (n + 1) (s.next false) := by
  have hx : s.hCounterIn.toNat = (n + 1) % 800 := by
    rw [show s.hCounterIn.toNat = _ from next_drawX h.onRaster, h.x]
    split <;> omega
  have hy : s.vCounterIn.toNat = (n + 1) / 800 % 525 := by
    rw [show s.vCounterIn.toNat = _ from next_drawY h.onRaster, h.x, h.y]
    split <;> [split; skip] <;> omega
  refine ⟨hx, hy, ?_, ?_, ?_⟩
  · show s.vgaHsIn = _
    unfold vgaHsIn hsAt
    rw [← hx]
    simp [BitVec.le_def, BitVec.lt_def]
  · show s.vgaVsIn = _
    unfold vgaVsIn vsAt
    rw [← hy]
    simp [BitVec.le_def, BitVec.lt_def]
  · show s.vgaBlankNIn = _
    unfold vgaBlankNIn blankNAt
    rw [← hx, ← hy]
    simp [BitVec.lt_def]

end VgaController

/-! ## Frames -/

/-- The frame edges among `n` pixel clocks after a reset: one at the first, and one whenever the vertical
sync ends. -/
def edgesAmong (n : ℕ) : ℕ := min n 1 + (n + 26400) / 420000

theorem edgesAmong_succ (n : ℕ) : edgesAmong (n + 1) = edgesAmong n + if vsAt (n + 1) && !vsAt n then 1 else 0 := by
  unfold edgesAmong vsAt
  rcases Nat.eq_zero_or_pos n with rfl | hn
  · decide
  simp only [hn, Nat.succ_pos, decide_true, Bool.true_and, Bool.not_not, Bool.and_eq_true, Bool.not_eq_true',
    decide_eq_false_iff_not, decide_eq_true_eq]
  split <;> omega

theorem edgesAmong_step {n n' : ℕ} {tick : Bool} (h : n' = n + if tick then 1 else 0) :
    edgesAmong n' = edgesAmong n + if vsAt n' && !vsAt n then 1 else 0 := by
  subst h
  cases tick with
  | false => rw [if_neg Bool.false_ne_true, Nat.add_zero, Bool.and_not_self, if_neg Bool.false_ne_true, Nat.add_zero]
  | true => rw [if_pos rfl, edgesAmong_succ]

namespace Console

variable {κ χ : Type} {oor : OutOfRange} {latency : ℕ} {body : κ → Driver κ} {chip : OtgChip χ} {s : Console κ χ}
  {inp : ℕ → In}

/-- An edge of `VGA_CLK`. -/
def pixelClock (_ : Console κ χ) (i : In) : Bool := i.vgaClk

/-- A frame edge in `game1`. -/
def edge1 (s : Console κ χ) (_ : In) : Bool := s.game1.logic.frameClkRisingEdge

/-- A frame edge in `game2`. -/
def edge2 (s : Console κ χ) (_ : In) : Bool := s.game2.logic.frameClkRisingEdge

section Run

variable {a b : ℕ} (ha : ((design oor latency body chip).trace s inp a).resetH = true) (hclk : (inp a).vgaClk = true)
  (hr : ∀ t, a < t → t < b → ((design oor latency body chip).trace s inp t).resetH = false)

include ha hclk hr

/-- The screen keeps count of the pixel clocks since the reset. -/
theorem vga_at (t : ℕ) (ht : a + 1 + t ≤ b) :
    let d := design oor latency body chip
    (d.trace s inp (a + 1 + t)).screen.vga.At
      (d.ticks s inp pixelClock (a + 1 + t) - d.ticks s inp pixelClock (a + 1)) := by
  intro d
  induction t with
  | zero =>
    -- the reset is taken in at the pixel clock that comes with it
    rw [Nat.add_zero, Nat.sub_self]
    have hreset : (d.trace s inp (a + 1)).screen = (d.trace s inp a).screen.next true := by
      show (if (inp a).vgaClk then _ else _) = _
      rw [if_pos hclk, show (d.trace s inp a).resetH = true from ha]
    rw [hreset]
    exact .of_reset (d.trace s inp a).screen.vga
  | succ t ih =>
    have hmono : d.ticks s inp pixelClock (a + 1) ≤ d.ticks s inp pixelClock (a + 1 + t) :=
      Nat.count_monotone _ (Nat.le_add_right _ t)
    have hlow : (d.trace s inp (a + 1 + t)).resetH = false := hr _ (by omega) ht
    have hscreen : (d.trace s inp (a + 1 + (t + 1))).screen = if (inp (a + 1 + t)).vgaClk then
        (d.trace s inp (a + 1 + t)).screen.next false else (d.trace s inp (a + 1 + t)).screen := by
      rw [← hlow]
      rfl
    rw [hscreen, ← Nat.add_assoc, Design.ticks_succ]
    cases hvga : (inp (a + 1 + t)).vgaClk with
    | false =>
      rw [show pixelClock _ (inp (a + 1 + t)) = false from hvga]
      exact ih (Nat.le_of_succ_le ht)
    | true =>
      rw [show pixelClock _ (inp (a + 1 + t)) = true from hvga, if_pos rfl, if_pos rfl,
        Nat.sub_add_comm hmono]
      exact (ih (Nat.le_of_succ_le ht)).next

/-- A signal that follows the vertical sync at a distance of two cycles shows as many edges as there are
among the pixel clocks. -/
theorem ticks_edge {edge : Console κ χ → In → Bool}
    (hedge : ∀ t, let tr := (design oor latency body chip).trace s inp
      edge (tr (t + 2)) (inp (t + 2)) = ((tr (t + 1)).screen.vga.vgaVs && !(tr t).screen.vga.vgaVs)) (t : ℕ)
    (ht : a + 1 + t ≤ b) :
    let d := design oor latency body chip
    d.ticks s inp edge (a + 1 + t + 2) = d.ticks s inp edge (a + 1 + 2) +
      edgesAmong (d.ticks s inp pixelClock (a + 1 + t) - d.ticks s inp pixelClock (a + 1)) := by
  intro d
  induction t with
  | zero =>
    rw [Nat.add_zero, Nat.sub_self]
    rfl
  | succ t ih =>
    have hmono : d.ticks s inp pixelClock (a + 1) ≤ d.ticks s inp pixelClock (a + 1 + t) :=
      Nat.count_monotone _ (Nat.le_add_right _ t)
    have hcount : d.ticks s inp pixelClock (a + 1 + (t + 1)) - d.ticks s inp pixelClock (a + 1) =
        d.ticks s inp pixelClock (a + 1 + t) - d.ticks s inp pixelClock (a + 1) +
          if (inp (a + 1 + t)).vgaClk then 1 else 0 := by
      rw [← Nat.sub_add_comm hmono, ← Nat.add_assoc, Design.ticks_succ]
      rfl
    have hsignal : edge (d.trace s inp (a + 1 + t + 2)) (inp (a + 1 + t + 2)) =
        (vsAt (d.ticks s inp pixelClock (a + 1 + (t + 1)) - d.ticks s inp pixelClock (a + 1)) &&
          !vsAt (d.ticks s inp pixelClock (a + 1 + t) - d.ticks s inp pixelClock (a + 1))) := by
      rw [← (vga_at ha hclk hr t (Nat.le_of_succ_le ht)).vs, ← (vga_at ha hclk hr (t + 1) ht).vs]
      exact hedge (a + 1 + t)
    rw [show a + 1 + (t + 1) + 2 = a + 1 + t + 2 + 1 by omega, Design.ticks_succ,
      ih (Nat.le_of_succ_le ht), hsignal,
      edgesAmong_step hcount, Nat.add_assoc]

end Run

/-- The timing of the screen. In a cycle after a reset that came with a pixel clock, `n` pixel clocks
later, the beam is at the `n`-th pixel of the raster, the horizontal sync is low in the columns 656 to
751, the vertical sync in the lines 490 and 491, and the picture is on exactly inside 640 by 480. -/
theorem vga_timing (s : Console κ χ) (inp : ℕ → In) {a : ℕ}
    (ha : ((design oor latency body chip).trace s inp a).resetH = true) (hclk : (inp a).vgaClk = true)
    {t : ℕ} (ht : a < t) (hr : ∀ u, a < u → u < t → ((design oor latency body chip).trace s inp u).resetH = false) :
    let d := design oor latency body chip
    let vga := (d.trace s inp t).screen.vga
    let n := d.ticks s inp pixelClock t - d.ticks s inp pixelClock (a + 1)
    vga.drawX.toNat = n % 800 ∧ vga.drawY.toNat = n / 800 % 525 ∧
      (0 < n → (vga.vgaHs = false ↔ 656 ≤ vga.drawX.toNat ∧ vga.drawX.toNat < 752) ∧
        (vga.vgaVs = false ↔ 490 ≤ vga.drawY.toNat ∧ vga.drawY.toNat < 492) ∧
        (vga.vgaBlankN = true ↔ vga.drawX.toNat < 640 ∧ vga.drawY.toNat < 480)) := by
  intro d vga n
  obtain ⟨k, rfl⟩ := Nat.exists_eq_add_of_lt ht
  have hat : vga.At n := by
    have hat := vga_at ha hclk hr k (by omega)
    rwa [Nat.add_right_comm a 1 k] at hat
  refine ⟨hat.x, hat.y, fun hn => ⟨?_, ?_, ?_⟩⟩
  · rw [hat.hs, hat.x]
    simp [hsAt, hn]
  · rw [hat.vs, hat.y]
    simp [vsAt, hn]
  · rw [hat.blankN, hat.x, hat.y]
    simp [blankNAt, hn]

/-- Both games count the frames of the screen. After a reset that came with a pixel clock, the frame
edges in the registers of each game are, two cycles later, those among the pixel clocks since then:
one at the first pixel clock, and then one for every 420000, from the 393600th on. -/
theorem frames_counted (s : Console κ χ) (inp : ℕ → In) {a : ℕ}
    (ha : ((design oor latency body chip).trace s inp a).resetH = true) (hclk : (inp a).vgaClk = true)
    {t : ℕ} (ht : a < t) (hr : ∀ u, a < u → u < t → ((design oor latency body chip).trace s inp u).resetH = false) :
    let d := design oor latency body chip
    let n := d.ticks s inp pixelClock t - d.ticks s inp pixelClock (a + 1)
    d.ticks s inp edge1 (t + 2) = d.ticks s inp edge1 (a + 3) + (min n 1 + (n + 26400) / 420000) ∧
      d.ticks s inp edge2 (t + 2) = d.ticks s inp edge2 (a + 3) + (min n 1 + (n + 26400) / 420000) := by
  intro d n
  obtain ⟨k, rfl⟩ := Nat.exists_eq_add_of_lt ht
  have h1 : d.ticks s inp edge1 (a + 1 + k + 2) = _ :=
    ticks_edge ha hclk hr (fun _ => rfl) k (by omega)
  have h2 : d.ticks s inp edge2 (a + 1 + k + 2) = _ :=
    ticks_edge ha hclk hr (fun _ => rfl) k (by omega)
  rw [Nat.add_right_comm a 1 k] at h1 h2
  exact ⟨h1, h2⟩

theorem resetH_of_stopped (hgo : ∀ t, (inp t).go = false) (hspace : spaceRst s.keycode = false) {t : ℕ}
    (hkey : (inp t).key0 = true) : ((design oor latency body chip).trace s inp (t + 1)).resetH = false := by
  show (!(inp t).key0 || spaceRst _) = false
  rw [keycode_of_stopped _ _ _ _ _ _ hgo, hkey, hspace]
  rfl

/-- A push of the button and half of the cycles with a pixel clock, the processor standing still. -/
def pushed (t : ℕ) : In := ⟨t != 0, t % 2 == 1, false, 0⟩

theorem resetH_pushed (t : ℕ) (ht : 1 < t) :
    ((design someReads 0 .pure .silent).trace (stuck 0) pushed t).resetH = false := by
  obtain ⟨k, rfl⟩ : ∃ k, t = k + 1 + 1 := ⟨t - 2, by omega⟩
  exact resetH_of_stopped (fun _ => rfl) (by decide) rfl

/-- A push in the second cycle, with a pixel clock in every cycle. -/
def pushedFast (t : ℕ) : In := ⟨t != 1, true, false, 0⟩

theorem resetH_pushedFast (t : ℕ) (ht : 2 < t) :
    ((design someReads 0 .pure .silent).trace (stuck 0) pushedFast t).resetH = false := by
  obtain ⟨k, rfl⟩ : ∃ k, t = k + 2 + 1 := ⟨t - 3, by omega⟩
  exact resetH_of_stopped (fun _ => rfl) (by decide) rfl

theorem ticks_pushedFast (s : Console Unit Unit) (t : ℕ) :
    (design someReads 0 .pure .silent).ticks s pushedFast pixelClock t = t := Nat.count_of_forall fun _ _ => rfl

/-- The pixel clocks of the first inputs. -/
theorem ticks_pushed (k : ℕ) : (design someReads 0 .pure .silent).ticks (stuck 0) pushed pixelClock (2 * k) = k := by
  induction k with
  | zero => rfl
  | succ k ih =>
    have heven : (pushed (2 * k)).vgaClk = false := beq_eq_false_iff_ne.2 (by omega)
    have hodd : (pushed (2 * k + 1)).vgaClk = true := beq_iff_eq.2 (by omega)
    show (design someReads 0 .pure .silent).ticks (stuck 0) pushed pixelClock (2 * k + 1 + 1) = _
    rw [Design.ticks_succ, Design.ticks_succ, ih, show pixelClock _ (pushed (2 * k)) = false from heven,
      show pixelClock _ (pushed (2 * k + 1)) = true from hodd]
    rfl

theorem vga_at_pushed {k : ℕ} (hk : 0 < k) :
    ((design someReads 0 .pure .silent).trace (stuck 0) pushed (2 * k)).screen.vga.At (k - 1) := by
  let d : Sync.Design (Console Unit Unit) In := design someReads 0 .pure .silent
  have hat : (d.trace (stuck 0) pushed (1 + 1 + (2 * k - 2))).screen.vga.At
      (d.ticks (stuck 0) pushed pixelClock (1 + 1 + (2 * k - 2)) - d.ticks (stuck 0) pushed pixelClock (2 * 1)) :=
    vga_at rfl rfl (fun u hu _ => resetH_pushed u hu) (2 * k - 2) le_rfl
  rwa [show 1 + 1 + (2 * k - 2) = 2 * k by omega, ticks_pushed, ticks_pushed] at hat

theorem vga_at_pushedFast (k : ℕ) :
    ((design someReads 0 .pure .silent).trace (stuck 0) pushedFast (k + 3)).screen.vga.At k := by
  let d : Sync.Design (Console Unit Unit) In := design someReads 0 .pure .silent
  have hat : (d.trace (stuck 0) pushedFast (2 + 1 + k)).screen.vga.At
      (d.ticks (stuck 0) pushedFast pixelClock (2 + 1 + k) - d.ticks (stuck 0) pushedFast pixelClock (2 + 1)) :=
    vga_at rfl rfl (fun u hu _ => resetH_pushedFast u hu) k le_rfl
  rwa [ticks_pushedFast, ticks_pushedFast, Nat.add_sub_cancel_left, Nat.add_comm] at hat

/-- After a push of the button, in the middle of both sync pulses. -/
theorem vga_timing_pushed :
    let vga := ((design someReads 0 .pure .silent).trace (stuck 0) pushed (2 * 392701)).screen.vga
    vga.drawX.toNat = 700 ∧ vga.drawY.toNat = 490 ∧ vga.vgaHs = false ∧ vga.vgaVs = false ∧ vga.vgaBlankN = false := by
  intro vga
  obtain ⟨hx, hy, hsignals⟩ := vga_timing (stuck 0) pushed (a := 1) (t := 2 * 392701) rfl rfl (by omega)
    fun u hu _ => resetH_pushed u hu
  rw [show 1 + 1 = 2 * 1 from rfl, ticks_pushed, ticks_pushed] at hx hy hsignals
  obtain ⟨hhs, hvs, hblank⟩ := hsignals (by omega)
  refine ⟨hx, hy, hhs.2 ?_, hvs.2 ?_, Bool.eq_false_iff.2 fun hon => ?_⟩
  · rw [hx]
    omega
  · rw [hy]
    omega
  · have hin := (hblank.1 hon).1
    rw [hx] at hin
    omega

/-- After a push of the button, the first edge and that of the first frame. -/
theorem frames_counted_pushed :
    let d := design someReads 0 .pure .silent
    d.ticks (stuck 0) pushed edge1 (840000 + 2) = d.ticks (stuck 0) pushed edge1 (1 + 3) + 2 ∧
      d.ticks (stuck 0) pushed edge2 (840000 + 2) = d.ticks (stuck 0) pushed edge2 (1 + 3) + 2 := by
  have hcount := frames_counted (stuck 0) pushed (a := 1) (t := 2 * 420000) rfl rfl (by omega) fun u hu _ =>
    resetH_pushed u hu
  dsimp only at hcount
  rw [show 1 + 1 = 2 * 1 from rfl, ticks_pushed, ticks_pushed] at hcount
  exact hcount

end Console

end FpgaTetris
