/-
The timing at the pins of the USB chip. The ports change only when the processor makes an access, so what
a write or a read puts on the pins stands there well before it ends and after, and the two lines are never
low together.
-/
import FpgaTetris.Usb.Memory

namespace FpgaTetris

open Mmio Mmio.Code

/-! ## The bus -/

/-- What goes out to the chip. -/
structure Bus where
  lines : Lines
  address : BitVec 2
  data : BitVec 16

def NiosPorts.bus (p : NiosPorts) : Bus := ⟨p.lines, p.otgHpiAddress, p.otgHpiData⟩

def HpiIoIntf.bus (h : HpiIoIntf) : Bus := ⟨h.lines, h.otgAddr, h.fromSwDataOutBuffer⟩

/-- The events that show at the pins. -/
def HostEvent.atPins : HostEvent → Bool
  | .write .. | .read .. => true
  | _ => false

/-- An access has its register and its data on the bus, with its line on or off. -/
def HostEvent.Shown (e : HostEvent) (on : Bool) (b : Bus) : Prop :=
  match e with
  | .write r d => b.lines.writing = on ∧ b.address = r ∧ b.data = d
  | .read r => b.lines.reading = on ∧ b.address = r
  | _ => True

namespace UsbHost

variable {κ χ : Type} {latency : ℕ} {chip : OtgChip χ} {s : UsbHost κ χ} {inp : ℕ → In} {i : In}

section Step

variable {begin : κ → Driver κ}

theorem next_bus (hi : i.reset = false) : (s.next latency begin chip i).hpi.bus = s.ports.bus := by
  rw [next_hpi hi]
  rfl

/-- A line changes alone, and in an access. -/
theorem of_lines_ne (h : (s.next latency begin chip i).ports.lines ≠ s.ports.lines) :
    s.cpu.active i.go = true ∧ (s.next latency begin chip i).ports.bus.address = s.ports.bus.address ∧
      (s.next latency begin chip i).ports.bus.data = s.ports.bus.data := by
  cases hact : s.cpu.active i.go with
  | false =>
    obtain ⟨-, hports⟩ := next_wait latency begin chip hact
    rw [hports] at h
    exact absurd rfl h
  | true =>
    refine ⟨rfl, ?_⟩
    -- loads change no port, and a store changes one only
    cases hcode : s.cpu.code with
    | pure l =>
      unfold next NiosPorts.next Cpu.stored
      rw [hact, hcode]
      exact ⟨rfl, rfl⟩
    | load p k =>
      obtain ⟨-, hports⟩ := next_load latency begin chip hact hcode
      rw [hports]
      exact ⟨rfl, rfl⟩
    | store p v k =>
      obtain ⟨-, hports⟩ := next_store latency begin chip hact hcode
      rw [hports] at h ⊢
      cases p <;> first | exact absurd rfl h | exact ⟨rfl, rfl⟩

/-- What ends in a cycle has been on the ports before, and an access has taken its line off. -/
structure Ends (latency : ℕ) (begin : κ → Driver κ) (chip : OtgChip χ) (s : UsbHost κ χ) (i : In) (e : HostEvent) :
    Prop where
  active : s.cpu.active i.go = true
  shown : e.Shown true s.ports.bus
  off : e.Shown false (s.next latency begin chip i).ports.bus

theorem ends_of_event {i' : In} {e : HostEvent} (hi : i.reset = false) (hi' : i'.reset = false)
    (he : (s.next latency begin chip i).event chip i' = some e) (hpins : e.atPins = true) :
    Ends latency begin chip s i e := by
  have hbus : (s.next latency begin chip i).hpi.bus = s.ports.bus := next_bus hi
  rw [event_eq hi', lines_next hi] at he
  -- the chip sees a line go off: it is off in the ports and still on at the pins
  split at he
  · rename_i hw
    rw [Bool.and_eq_true, Bool.not_eq_true'] at hw
    obtain ⟨hact, haddr, hdata⟩ := of_lines_ne fun hsame => absurd hw.1 (by rw [← hsame, hw.2]; decide)
    cases he
    exact ⟨hact, ⟨hw.1, congrArg Bus.address hbus.symm, congrArg Bus.data hbus.symm⟩,
      hw.2, haddr.trans (congrArg Bus.address hbus.symm), hdata.trans (congrArg Bus.data hbus.symm)⟩
  split at he
  · rename_i hr
    rw [Bool.and_eq_true, Bool.not_eq_true'] at hr
    obtain ⟨hact, haddr, -⟩ := of_lines_ne fun hsame => absurd hr.1 (by rw [← hsame, hr.2]; decide)
    cases he
    exact ⟨hact, ⟨hr.1, congrArg Bus.address hbus.symm⟩, hr.2, haddr.trans (congrArg Bus.address hbus.symm)⟩
  split at he
  · split at he <;> cases he <;> cases hpins
  · cases he

end Step

/-! ## The pace -/

section Pace

variable {begin : κ → Driver κ} {t u : ℕ}

/-- After an access the processor is busy. -/
theorem latency_le_busy (hu : ((design latency begin chip).trace s inp u).cpu.active (inp u).go = true) (hut : u < t) :
    latency ≤ ((design latency begin chip).trace s inp t).cpu.busy + (t - (u + 1)) := by
  induction t, hut using Nat.le_induction with
  | base =>
    have hbusy : ((design latency begin chip).trace s inp (u + 1)).cpu = _ := if_pos hu
    rw [hbusy]
    exact Nat.le_add_right _ _
  | succ t hut ih =>
    cases hact : ((design latency begin chip).trace s inp t).cpu.active (inp t).go with
    | true =>
      have hbusy : ((design latency begin chip).trace s inp (t + 1)).cpu = _ := if_pos hact
      rw [hbusy]
      exact Nat.le_add_right _ _
    | false =>
      have hcpu : ((design latency begin chip).trace s inp (t + 1)).cpu = _ := (next_wait latency begin chip hact).1
      rw [hcpu]
      dsimp only
      omega

/-- Two accesses are more than `latency` clocks apart. -/
theorem lt_of_active (hu : ((design latency begin chip).trace s inp u).cpu.active (inp u).go = true)
    (ht : ((design latency begin chip).trace s inp t).cpu.active (inp t).go = true) (hut : u < t) :
    u + latency < t := by
  have hbusy := latency_le_busy hu hut
  have hzero : ((design latency begin chip).trace s inp t).cpu.busy = 0 := by
    unfold Cpu.active at ht
    simp at ht
    exact ht.2
  omega

/-- Without an access the ports stay. -/
theorem bus_of_wait (hut : u ≤ t)
    (hwait : ∀ v, u ≤ v → v < t → ((design latency begin chip).trace s inp v).cpu.active (inp v).go = false) :
    ((design latency begin chip).trace s inp t).ports.bus = ((design latency begin chip).trace s inp u).ports.bus := by
  refine Sync.Design.trace_phase (fun n : UsbHost κ χ => n.ports.bus = _) hut rfl fun v huv hvt h => ?_
  obtain ⟨-, hports⟩ := next_wait latency begin chip (hwait v huv hvt)
  rw [← h]
  show (next latency begin chip _ _).ports.bus = _
  rw [hports]
  rfl

/-- When a line goes off, the access has stood on the ports for `latency` clocks, and its register and data
stay for as many. -/
theorem shown_around {e : HostEvent} (hon : e.Shown true ((design latency begin chip).trace s inp t).ports.bus)
    (hoff : e.Shown false ((design latency begin chip).trace s inp (t + 1)).ports.bus)
    (hact : ((design latency begin chip).trace s inp t).cpu.active (inp t).go = true) :
    (t ≤ u + latency → u ≤ t → e.Shown true ((design latency begin chip).trace s inp u).ports.bus) ∧
      (t < u → u ≤ t + latency + 1 → e.Shown false ((design latency begin chip).trace s inp u).ports.bus) := by
  refine ⟨fun hlat hut => ?_, fun htu hlat => ?_⟩
  · rwa [← bus_of_wait hut fun v huv hvt => Bool.eq_false_iff.2 fun hv => ?_]
    have := lt_of_active hv hact hvt
    omega
  · rwa [bus_of_wait htu fun v htv hvu => Bool.eq_false_iff.2 fun hv => ?_]
    have := lt_of_active hact hv htv
    omega

end Pace

/-! ## Whole runs -/

/-- While the chip is selected, one of the two lines is off. -/
theorem Phase.line_off {k : Host κ} (h : Phase latency chip s k) (hcs : s.hpi.otgCsN = false) :
    s.hpi.otgRdN = true ∨ s.hpi.otgWrN = true := by
  cases h with
  | idle h =>
    rcases h.pins with hoff | ⟨hw, -⟩
    · rw [hoff] at hcs
      cases hcs
    · exact .inr hw
  -- a write keeps the read line off in all its phases, a read the write line
  | addressed h => exact .inl (HpiIoIntf.lines_eq.1 h.pins).2.2
  | selected h => exact .inl h.pins.2
  | writing h => exact .inl h.pins.2
  | data h => exact .inl (HpiIoIntf.lines_eq.1 h.pins).2.2
  | ending h => exact .inl (HpiIoIntf.lines_eq.1 h.pins).2.2
  | written h => exact .inl (HpiIoIntf.lines_eq.1 h.pins).2.2
  | asked h => exact .inr (HpiIoIntf.lines_eq.1 h.pins).2.1
  | lowered h => exact .inr h.pins.2
  | reading h => exact .inr h.pins.1
  | loaded h => exact .inr (HpiIoIntf.lines_eq.1 h.pins).2.1
  | released h => exact .inr (HpiIoIntf.lines_eq.1 h.pins).2.1
  | taken h => exact .inr (HpiIoIntf.lines_eq.1 h.pins).2.1

/-- The timing at the pins. Once `IO_init` is done the reset of the chip is off, its read and write lines are
never low together while it is selected, and each access stands on the pins, with its register and its
data, in the cycle in which it ends and the `latency` cycles before, and with its line off in more than
`latency` cycles after. -/
theorem bus_timing (hlat : 3 ≤ latency) (start : κ → Host κ) (chip : OtgChip χ) (s : UsbHost κ χ) (inp : ℕ → In)
    (k : Host κ) (hc : s.cpu.code = ioInit.bind fun _ => driver k) (hr : ∀ t, (inp t).reset = false)
    (hgo : ∀ n, ∃ t, n ≤ t ∧ (inp t).go = true) :
    let tr := (design latency (driver ∘ start) chip).trace s inp
    ∃ a, ∀ t, a ≤ t → (tr t).hpi.otgRstN = true ∧
      ((tr t).hpi.otgCsN = false → (tr t).hpi.otgRdN = true ∨ (tr t).hpi.otgWrN = true) ∧
      ∀ e, (tr t).event chip (inp t) = some e → e.atPins = true →
        (∀ u, t ≤ u + latency → u ≤ t → e.Shown true (tr u).hpi.bus) ∧
          ∀ u, t < u → u ≤ t + latency + 1 → e.Shown false (tr u).hpi.bus := by
  intro tr
  obtain ⟨a, -, ha⟩ := exists_ready hgo hr hc
  obtain ⟨f, -, hf⟩ := (simulates hlat start chip).run_always s ha fun t _ => hr t
  refine ⟨a + latency + 1, fun t ht => ?_⟩
  obtain ⟨hrun, hphase⟩ : Follows latency chip (tr t) (f t) := (hf t (by omega)).1
  refine ⟨hrun.pins, hphase.line_off, fun e he hpins => ?_⟩
  -- the pins are a cycle behind the ports
  have hbus : ∀ u, (tr (u + 1)).hpi.bus = (tr u).ports.bus := fun u => next_bus (hr u)
  obtain ⟨v, rfl⟩ : ∃ v, t = v + 1 := ⟨t - 1, by omega⟩
  have hends : Ends latency (driver ∘ start) chip (tr v) (inp v) e := ends_of_event (hr v) (hr (v + 1)) he hpins
  refine ⟨fun u hu hut => ?_, fun u htu hu => ?_⟩
  · obtain ⟨w, rfl⟩ : ∃ w, u = w + 1 := ⟨u - 1, by omega⟩
    rw [hbus]
    exact (shown_around hends.shown hends.off hends.active).1 (by omega) (by omega)
  · obtain ⟨w, rfl⟩ : ∃ w, u = w + 1 := ⟨u - 1, by omega⟩
    rw [hbus]
    exact (shown_around hends.shown hends.off hends.active).2 (by omega) (by omega)

/-- `main` from power-up, with a keyboard that holds the space bar: a write stands on the pins for seven cycles. -/
theorem bus_timing_main :
    let chip := OtgChip.holding OtgChip.spaceReport
    let inp : ℕ → In := fun _ => ⟨false, true, 0⟩
    let tr := (design 6 (driver ∘ Main.code) chip).trace (powerUp Main.start (0, fun _ => 0)) inp
    ∃ a, ∀ t, a ≤ t → ∀ r d, (tr t).event chip (inp t) = some (.write r d) → ∀ u, t ≤ u + 6 → u ≤ t →
      (tr u).hpi.lines.writing = true ∧ (tr u).hpi.otgAddr = r ∧ (tr u).hpi.fromSwDataOutBuffer = d := by
  intro chip inp tr
  have hgo : ∀ n, ∃ t, n ≤ t ∧ (inp t).go = true := fun n => ⟨n, le_rfl, rfl⟩
  obtain ⟨a, ha⟩ := bus_timing (show 3 ≤ 6 by decide) Main.code chip (powerUp Main.start (0, fun _ => 0)) inp
    (.pure (.hotPlug ⟨0, 0⟩)) rfl (fun _ => rfl) hgo
  exact ⟨a, fun t ht r d he => ((ha t ht).2.2 _ he rfl).1⟩

end UsbHost

end FpgaTetris
