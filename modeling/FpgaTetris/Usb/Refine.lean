/-
The USB driver on the hardware. However long the processor takes, each access of the software to the chip
shows at the pins once, with its address and data and in order, and each read gets what the chip drives;
so the software runs as if it accessed the chip directly.
-/
import FpgaTetris.Hdl.UsbHost
import FpgaTetris.Lib.Lts

namespace FpgaTetris

open Mmio Mmio.Code

/-! ## Direct accesses -/

/-- The software next to the chip: the code left, the chip, and the key word. -/
structure HostState (κ χ : Type) where
  code : Host κ
  chip : χ
  keycode : BitVec 32

/-- What a step of the software does. -/
inductive HostEvent
  | write (address : BitVec 2) (data : BitVec 16)
  | read (address : BitVec 2)
  | sendKeys (v : BitVec 32)
  | loadKeys
  | jump
  deriving DecidableEq, Repr

namespace HostState

variable {κ χ : Type} (body : κ → Host κ) (chip : OtgChip χ)

/-- A step of the software, if it accesses the chip directly. -/
inductive Step : HostEvent → HostState κ χ → HostState κ χ → Prop
  | write (a : BitVec 8) (v : BitVec 32) (k : Host κ) (c : χ) (keys : BitVec 32) :
    Step (.write (a.setWidth 2) (v.setWidth 16)) ⟨.store (.hpi a) v k, c, keys⟩
      ⟨k, chip.write c (a.setWidth 2) (v.setWidth 16), keys⟩
  | read (a : BitVec 8) (k : BitVec 32 → Host κ) (c : χ) (keys : BitVec 32) :
    Step (.read (a.setWidth 2)) ⟨.load (.hpi a) k, c, keys⟩
      ⟨k ((chip.out c (a.setWidth 2)).setWidth 32), chip.read c (a.setWidth 2), keys⟩
  | sendKeys (v : BitVec 32) (k : Host κ) (c : χ) (keys : BitVec 32) :
    Step (.sendKeys v) ⟨.store .keycode v k, c, keys⟩ ⟨k, c, v⟩
  | loadKeys (k : BitVec 32 → Host κ) (c : χ) (keys : BitVec 32) :
    Step .loadKeys ⟨.load .keycode k, c, keys⟩ ⟨k keys, c, keys⟩
  | jump (l : κ) (c : χ) (keys : BitVec 32) : Step .jump ⟨.pure l, c, keys⟩ ⟨body l, c, keys⟩

end HostState

/-! ## Lines -/

/-- Chip select, write and read, all active low. -/
structure Lines where
  csN : Bool
  wrN : Bool
  rdN : Bool

namespace Lines

/-- The chip is asked for a write. -/
def writing (l : Lines) : Bool := !l.csN && !l.wrN

/-- The chip is asked for a read. -/
def reading (l : Lines) : Bool := !l.csN && l.wrN && !l.rdN

end Lines

def NiosPorts.lines (p : NiosPorts) : Lines := ⟨p.otgHpiCs, p.otgHpiW, p.otgHpiR⟩

def HpiIoIntf.lines (h : HpiIoIntf) : Lines := ⟨h.otgCsN, h.otgWrN, h.otgRdN⟩

theorem NiosPorts.lines_eq {p : NiosPorts} {c w r : Bool} :
    p.lines = ⟨c, w, r⟩ ↔ p.otgHpiCs = c ∧ p.otgHpiW = w ∧ p.otgHpiR = r := by
  simp [lines]

theorem HpiIoIntf.lines_eq {h : HpiIoIntf} {c w r : Bool} :
    h.lines = ⟨c, w, r⟩ ↔ h.otgCsN = c ∧ h.otgWrN = w ∧ h.otgRdN = r := by
  simp [lines]

namespace UsbHost

variable {κ χ : Type} {latency : ℕ} {body : κ → Host κ} {chip : OtgChip χ} {s : UsbHost κ χ} {i : In}
  {g : HostState κ χ}

/-- What shows at the pins in a cycle, or what the processor does apart from them. -/
def event (chip : OtgChip χ) (s : UsbHost κ χ) (i : In) : Option HostEvent :=
  let pins := HpiIoIntf.next (s.hpiIn chip i)
  if s.hpi.writing && !pins.writing then some (.write s.hpi.otgAddr s.hpi.fromSwDataOutBuffer)
  else if s.hpi.reading && !pins.reading then some (.read s.hpi.otgAddr)
  else if s.cpu.active i.go then
    match s.cpu.code with
    | .pure _ => some .jump
    | .store .keycode v _ => some (.sendKeys v)
    | .load .keycode _ => some .loadKeys
    | _ => none
  else none

/-! ## The phases of an access -/

/-- What all phases have in common. -/
structure Running (s : UsbHost κ χ) (g : HostState κ χ) : Prop where
  chip : s.chip = g.chip
  keycode : s.ports.keycode = g.keycode
  reset : s.ports.otgHpiReset = true
  pins : s.hpi.otgRstN = true

section Phases

variable (s : UsbHost κ χ) (a : BitVec 8)

/-- Between two accesses. -/
structure Idle (k : Host κ) : Prop where
  code : s.cpu.code = driver k
  ports : s.ports.lines = ⟨true, true, true⟩
  pins : s.hpi.otgCsN = true ∨ s.hpi.otgWrN = true ∧ s.hpi.otgRdN = true

section Write

variable (v : BitVec 32) (k : Host κ)

/-- `IO_write` has put the address out. -/
structure Addressed : Prop where
  code : s.cpu.code = .store .otgHpiCs 0 (.store .otgHpiW 0 (.store .otgHpiData ((v.setWidth 16).setWidth 32)
    (.store .otgHpiW 1 (.store .otgHpiCs 1 (driver k)))))
  ports : s.ports.lines = ⟨true, true, true⟩
  pins : s.hpi.lines = ⟨true, true, true⟩
  address : s.ports.otgHpiAddress = a.setWidth 2

/-- The chip is selected. -/
structure Selected : Prop where
  code : s.cpu.code = .store .otgHpiW 0 (.store .otgHpiData ((v.setWidth 16).setWidth 32)
    (.store .otgHpiW 1 (.store .otgHpiCs 1 (driver k))))
  ports : s.ports.lines = ⟨false, true, true⟩
  pins : s.hpi.otgWrN = true ∧ s.hpi.otgRdN = true
  address : s.ports.otgHpiAddress = a.setWidth 2 ∧ s.hpi.otgAddr = a.setWidth 2

/-- The write is on, with data that are not its own yet. -/
structure Writing : Prop where
  code : s.cpu.code = .store .otgHpiData ((v.setWidth 16).setWidth 32)
    (.store .otgHpiW 1 (.store .otgHpiCs 1 (driver k)))
  ports : s.ports.lines = ⟨false, false, true⟩
  pins : s.hpi.otgCsN = false ∧ s.hpi.otgRdN = true
  address : s.ports.otgHpiAddress = a.setWidth 2 ∧ s.hpi.otgAddr = a.setWidth 2

/-- The data are out. -/
structure Data : Prop where
  code : s.cpu.code = .store .otgHpiW 1 (.store .otgHpiCs 1 (driver k))
  ports : s.ports.lines = ⟨false, false, true⟩
  pins : s.hpi.lines = ⟨false, false, true⟩
  address : s.ports.otgHpiAddress = a.setWidth 2 ∧ s.hpi.otgAddr = a.setWidth 2
  data : s.ports.otgHpiData = v.setWidth 16

/-- The pins are about to end the write. -/
structure Ending : Prop where
  code : s.cpu.code = .store .otgHpiCs 1 (driver k)
  ports : s.ports.lines = ⟨false, true, true⟩
  pins : s.hpi.lines = ⟨false, false, true⟩
  address : s.hpi.otgAddr = a.setWidth 2
  data : s.hpi.fromSwDataOutBuffer = v.setWidth 16

/-- The write has happened. -/
structure Written : Prop where
  code : s.cpu.code = .store .otgHpiCs 1 (driver k)
  ports : s.ports.lines = ⟨false, true, true⟩
  pins : s.hpi.lines = ⟨false, true, true⟩

end Write

section Read

variable (k : BitVec 32 → Host κ)

/-- `IO_read` has put the address out. -/
structure Asked : Prop where
  code : s.cpu.code = .store .otgHpiR 0 (.store .otgHpiCs 0 (.load .otgHpiData fun temp =>
    .store .otgHpiCs 1 (.store .otgHpiR 1 (driver (k ((temp.setWidth 16).setWidth 32))))))
  ports : s.ports.lines = ⟨true, true, true⟩
  pins : s.hpi.lines = ⟨true, true, true⟩
  address : s.ports.otgHpiAddress = a.setWidth 2

/-- The read line is low. -/
structure Lowered : Prop where
  code : s.cpu.code = .store .otgHpiCs 0 (.load .otgHpiData fun temp =>
    .store .otgHpiCs 1 (.store .otgHpiR 1 (driver (k ((temp.setWidth 16).setWidth 32)))))
  ports : s.ports.lines = ⟨true, true, false⟩
  pins : s.hpi.otgCsN = true ∧ s.hpi.otgWrN = true
  address : s.ports.otgHpiAddress = a.setWidth 2 ∧ s.hpi.otgAddr = a.setWidth 2

/-- The read is on, and clock by clock the data come to the port. -/
structure Reading (latency : ℕ) (chip : OtgChip χ) : Prop where
  code : s.cpu.code = .load .otgHpiData fun temp =>
    .store .otgHpiCs 1 (.store .otgHpiR 1 (driver (k ((temp.setWidth 16).setWidth 32))))
  ports : s.ports.lines = ⟨false, true, false⟩
  pins : s.hpi.otgWrN = true ∧ s.hpi.otgRdN = false
  address : s.ports.otgHpiAddress = a.setWidth 2 ∧ s.hpi.otgAddr = a.setWidth 2
  select : s.cpu.busy + 1 ≤ latency → s.hpi.otgCsN = false
  sample : s.cpu.busy + 2 ≤ latency → s.hpi.fromSwDataIn = chip.out s.chip (a.setWidth 2)
  port : s.cpu.busy + 3 ≤ latency → s.ports.readdata = (chip.out s.chip (a.setWidth 2)).setWidth 32

/-- The data are in the processor. -/
structure Loaded (chip : OtgChip χ) : Prop where
  code : s.cpu.code = .store .otgHpiCs 1 (.store .otgHpiR 1
    (driver (k ((chip.out s.chip (a.setWidth 2)).setWidth 32))))
  ports : s.ports.lines = ⟨false, true, false⟩
  pins : s.hpi.lines = ⟨false, true, false⟩
  address : s.ports.otgHpiAddress = a.setWidth 2 ∧ s.hpi.otgAddr = a.setWidth 2

/-- The pins are about to end the read. -/
structure Released (chip : OtgChip χ) : Prop where
  code : s.cpu.code = .store .otgHpiR 1 (driver (k ((chip.out s.chip (a.setWidth 2)).setWidth 32)))
  ports : s.ports.lines = ⟨true, true, false⟩
  pins : s.hpi.lines = ⟨false, true, false⟩
  address : s.hpi.otgAddr = a.setWidth 2

end Read

/-- The read has happened. -/
structure Taken (k : Host κ) : Prop where
  code : s.cpu.code = .store .otgHpiR 1 (driver k)
  ports : s.ports.lines = ⟨true, true, false⟩
  pins : s.hpi.lines = ⟨true, true, false⟩

end Phases

/-- Where the processor is in an access. The software has made it from `Written` and `Taken` on. -/
inductive Phase (latency : ℕ) (chip : OtgChip χ) (s : UsbHost κ χ) : Host κ → Prop
  | idle {k : Host κ} (h : Idle s k) : Phase latency chip s k
  | addressed {a : BitVec 8} {v : BitVec 32} {k : Host κ} (h : Addressed s a v k) :
    Phase latency chip s (.store (.hpi a) v k)
  | selected {a : BitVec 8} {v : BitVec 32} {k : Host κ} (h : Selected s a v k) :
    Phase latency chip s (.store (.hpi a) v k)
  | writing {a : BitVec 8} {v : BitVec 32} {k : Host κ} (h : Writing s a v k) :
    Phase latency chip s (.store (.hpi a) v k)
  | data {a : BitVec 8} {v : BitVec 32} {k : Host κ} (h : Data s a v k) : Phase latency chip s (.store (.hpi a) v k)
  | ending {a : BitVec 8} {v : BitVec 32} {k : Host κ} (h : Ending s a v k) :
    Phase latency chip s (.store (.hpi a) v k)
  | written {k : Host κ} (h : Written s k) : Phase latency chip s k
  | asked {a : BitVec 8} {k : BitVec 32 → Host κ} (h : Asked s a k) : Phase latency chip s (.load (.hpi a) k)
  | lowered {a : BitVec 8} {k : BitVec 32 → Host κ} (h : Lowered s a k) : Phase latency chip s (.load (.hpi a) k)
  | reading {a : BitVec 8} {k : BitVec 32 → Host κ} (h : Reading s a k latency chip) :
    Phase latency chip s (.load (.hpi a) k)
  | loaded {a : BitVec 8} {k : BitVec 32 → Host κ} (h : Loaded s a k chip) : Phase latency chip s (.load (.hpi a) k)
  | released {a : BitVec 8} {k : BitVec 32 → Host κ} (h : Released s a k chip) :
    Phase latency chip s (.load (.hpi a) k)
  | taken {k : Host κ} (h : Taken s k) : Phase latency chip s k

/-- The hardware runs the software. -/
structure Follows (latency : ℕ) (chip : OtgChip χ) (s : UsbHost κ χ) (g : HostState κ χ) : Prop where
  running : Running s g
  phase : Phase latency chip s g.code

/-- At the next edge the software makes a step, the one that `event` tells, or none. -/
def Goes (latency : ℕ) (start : κ → Host κ) (chip : OtgChip χ) (s : UsbHost κ χ) (i : In) (g : HostState κ χ) : Prop :=
  ∃ g', Lts.Next (HostState.Step start chip) (s.event chip i) g g' ∧
    Follows latency chip (s.next latency (driver ∘ start) chip i) g'

/-! ## One clock edge -/

section Next

variable {start : κ → Driver κ} (hi : i.reset = false)

include hi

theorem pins_next :
    HpiIoIntf.next (s.hpiIn chip i) =
      ⟨s.ports.otgHpiData, s.otgData chip i, s.ports.otgHpiAddress, s.ports.otgHpiR, s.ports.otgHpiW,
        s.ports.otgHpiCs, s.ports.otgHpiReset⟩ := by
  unfold HpiIoIntf.next hpiIn
  exact if_neg (by simp [hi])

theorem next_hpi :
    (s.next latency start chip i).hpi =
      ⟨s.ports.otgHpiData, s.otgData chip i, s.ports.otgHpiAddress, s.ports.otgHpiR, s.ports.otgHpiW,
        s.ports.otgHpiCs, s.ports.otgHpiReset⟩ := pins_next hi

theorem lines_next : (s.next latency start chip i).hpi.lines = s.ports.lines := by rw [next_hpi hi]; rfl

/-- The chip acts at the end of a write or a read. -/
theorem next_chip (hr : s.ports.otgHpiReset = true) :
    (s.next latency start chip i).chip =
      if s.hpi.lines.writing && !s.ports.lines.writing then
        chip.write s.chip s.hpi.otgAddr s.hpi.fromSwDataOutBuffer
      else if s.hpi.lines.reading && !s.ports.lines.reading then chip.read s.chip s.hpi.otgAddr
      else s.chip := by
  unfold next OtgChip.next
  rw [pins_next hi]
  simp only [hr]
  rfl

theorem event_eq :
    s.event chip i =
      if s.hpi.lines.writing && !s.ports.lines.writing then some (.write s.hpi.otgAddr s.hpi.fromSwDataOutBuffer)
      else if s.hpi.lines.reading && !s.ports.lines.reading then some (.read s.hpi.otgAddr)
      else if s.cpu.active i.go then
        match s.cpu.code with
        | .pure _ => some .jump
        | .store .keycode v _ => some (.sendKeys v)
        | .load .keycode _ => some .loadKeys
        | _ => none
      else none := by
  unfold event
  rw [pins_next hi]
  rfl

end Next

section Cpu

variable (latency : ℕ) (start : κ → Driver κ) (chip : OtgChip χ) {p : NiosPort} {v : BitVec 32} {k : Driver κ}

theorem next_wait (hact : s.cpu.active i.go = false) :
    let n := s.next latency start chip i
    n.cpu = ⟨s.cpu.code, s.cpu.busy - 1⟩ ∧ n.ports = { s.ports with readdata := s.hpi.fromSwDataIn.setWidth 32 } := by
  unfold next Cpu.next Cpu.stored NiosPorts.next
  rw [hact]
  exact ⟨rfl, rfl⟩

theorem next_store (hact : s.cpu.active i.go = true) (hcode : s.cpu.code = .store p v k) :
    let n := s.next latency start chip i
    n.cpu = ⟨k, latency⟩ ∧ n.ports = { s.ports.write p v with readdata := s.hpi.fromSwDataIn.setWidth 32 } := by
  unfold next Cpu.next Cpu.stored NiosPorts.next
  rw [hact, hcode]
  exact ⟨rfl, rfl⟩

theorem next_load {k : BitVec 32 → Driver κ} (hact : s.cpu.active i.go = true) (hcode : s.cpu.code = .load p k) :
    let n := s.next latency start chip i
    n.cpu = ⟨k (s.ports.read p), latency⟩ ∧
      n.ports = { s.ports with readdata := s.hpi.fromSwDataIn.setWidth 32 } := by
  unfold next Cpu.next Cpu.stored NiosPorts.next
  rw [hact, hcode]
  exact ⟨rfl, rfl⟩

end Cpu

/-- The pins end neither a write nor a read at the next edge. -/
def Quiet (s : UsbHost κ χ) : Prop :=
  (s.hpi.lines.writing && !s.ports.lines.writing) = false ∧ (s.hpi.lines.reading && !s.ports.lines.reading) = false

section Quiet

variable {start : κ → Host κ} {p : NiosPort} {v : BitVec 32} {k : Driver κ} (h : Running s g) (hi : i.reset = false)
  (hq : Quiet s)

include h hi

/-- The ports of the key word and of the reset keep their words in an access to the chip. -/
theorem Running.of_chip {k : Host κ} {c : χ} (hchip : (s.next latency (driver ∘ start) chip i).chip = c)
    (hports : let n := (s.next latency (driver ∘ start) chip i).ports
      n.keycode = s.ports.keycode ∧ n.otgHpiReset = s.ports.otgHpiReset) :
    Running (s.next latency (driver ∘ start) chip i) ⟨k, c, g.keycode⟩ :=
  ⟨hchip, hports.1.trans h.keycode, hports.2.trans h.reset, by rw [next_hpi hi]; exact h.reset⟩

include hq

/-- Where the chip sees nothing, the software has made no step yet. -/
theorem Running.quiet
    (hports : let n := (s.next latency (driver ∘ start) chip i).ports
      n.keycode = s.ports.keycode ∧ n.otgHpiReset = s.ports.otgHpiReset) :
    Running (s.next latency (driver ∘ start) chip i) g := by
  refine h.of_chip hi ?_ hports
  rw [next_chip hi h.reset, hq.1, hq.2]
  exact h.chip

/-- A store of an access that the chip does not see, up to the phase it leads to. -/
theorem Running.goes_store (hcode : s.cpu.code = .store p v k) (hp : p ≠ .keycode ∧ p ≠ .otgHpiReset)
    (hwait : s.cpu.active i.go = false → Phase latency chip (s.next latency (driver ∘ start) chip i) g.code)
    (hstore : s.cpu.active i.go = true → Phase latency chip (s.next latency (driver ∘ start) chip i) g.code) :
    Goes latency start chip s i g := by
  have hnone : s.event chip i = none := by
    rw [event_eq hi, hq.1, hq.2, hcode]
    cases p <;> simp at hp ⊢
  refine ⟨g, by rw [hnone]; rfl, ?_⟩
  cases hact : s.cpu.active i.go with
  | false =>
    obtain ⟨-, hports⟩ := next_wait latency (driver ∘ start) chip hact
    exact ⟨h.quiet hi hq (by rw [hports]; exact ⟨rfl, rfl⟩), hwait hact⟩
  | true =>
    obtain ⟨-, hports⟩ := next_store latency (driver ∘ start) chip hact hcode
    refine ⟨h.quiet hi hq ?_, hstore hact⟩
    rw [hports]
    cases p <;> simp [NiosPorts.write] at hp ⊢

end Quiet

/-! ## Phase by phase -/

section Phases

variable {start : κ → Host κ} {a : BitVec 8} {v : BitVec 32} {k : Host κ} {c : χ} {keys : BitVec 32}

section Write

variable (hrun : Running s ⟨.store (.hpi a) v k, c, keys⟩) (hi : i.reset = false)

include hrun hi

theorem Addressed.goes (h : Addressed s a v k) : Goes latency start chip s i ⟨.store (.hpi a) v k, c, keys⟩ := by
  obtain ⟨hc, hw, hr⟩ := NiosPorts.lines_eq.1 h.ports
  refine hrun.goes_store hi ?_ h.code (by simp) (fun hact => .addressed ?_) fun hact => .selected ?_
  · unfold Quiet
    rw [h.ports, h.pins]
    decide
  · obtain ⟨hcpu, hports⟩ := next_wait latency (driver ∘ start) chip hact
    constructor <;> simp [hcpu, hports, next_hpi hi, h.code, h.address, NiosPorts.lines, HpiIoIntf.lines, hc, hw, hr]
  · obtain ⟨hcpu, hports⟩ := next_store latency (driver ∘ start) chip hact h.code
    constructor <;> simp [hcpu, hports, next_hpi hi, h.address, NiosPorts.write, NiosPorts.lines, hw, hr]

theorem Selected.goes (h : Selected s a v k) : Goes latency start chip s i ⟨.store (.hpi a) v k, c, keys⟩ := by
  obtain ⟨hc, hw, hr⟩ := NiosPorts.lines_eq.1 h.ports
  obtain ⟨hw', hr'⟩ := h.pins
  obtain ⟨ha, -⟩ := h.address
  refine hrun.goes_store hi ?_ h.code (by simp) (fun hact => .selected ?_) fun hact => .writing ?_
  · simp [Quiet, Lines.writing, Lines.reading, HpiIoIntf.lines, hw', hr']
  · obtain ⟨hcpu, hports⟩ := next_wait latency (driver ∘ start) chip hact
    constructor <;> simp [hcpu, hports, next_hpi hi, h.code, ha, NiosPorts.lines, hc, hw, hr]
  · obtain ⟨hcpu, hports⟩ := next_store latency (driver ∘ start) chip hact h.code
    constructor <;> simp [hcpu, hports, next_hpi hi, ha, NiosPorts.write, NiosPorts.lines, hc, hr]

theorem Writing.goes (h : Writing s a v k) : Goes latency start chip s i ⟨.store (.hpi a) v k, c, keys⟩ := by
  obtain ⟨hc, hw, hr⟩ := NiosPorts.lines_eq.1 h.ports
  obtain ⟨hc', hr'⟩ := h.pins
  obtain ⟨ha, -⟩ := h.address
  refine hrun.goes_store hi ?_ h.code (by simp) (fun hact => .writing ?_) fun hact => .data ?_
  · simp [Quiet, h.ports, Lines.writing, Lines.reading, HpiIoIntf.lines, hr']
  · obtain ⟨hcpu, hports⟩ := next_wait latency (driver ∘ start) chip hact
    constructor <;> simp [hcpu, hports, next_hpi hi, h.code, ha, NiosPorts.lines, hc, hw, hr]
  · obtain ⟨hcpu, hports⟩ := next_store latency (driver ∘ start) chip hact h.code
    constructor <;>
      simp [hcpu, hports, next_hpi hi, ha, NiosPorts.write, NiosPorts.lines, HpiIoIntf.lines, hc, hw, hr]

theorem Data.goes (h : Data s a v k) : Goes latency start chip s i ⟨.store (.hpi a) v k, c, keys⟩ := by
  obtain ⟨hc, hw, hr⟩ := NiosPorts.lines_eq.1 h.ports
  obtain ⟨ha, -⟩ := h.address
  refine hrun.goes_store hi ?_ h.code (by simp) (fun hact => .data ?_) fun hact => .ending ?_
  · unfold Quiet
    rw [h.ports, h.pins]
    decide
  · obtain ⟨hcpu, hports⟩ := next_wait latency (driver ∘ start) chip hact
    constructor <;>
      simp [hcpu, hports, next_hpi hi, h.code, ha, h.data, NiosPorts.lines, HpiIoIntf.lines, hc, hw, hr]
  · obtain ⟨hcpu, hports⟩ := next_store latency (driver ∘ start) chip hact h.code
    constructor <;>
      simp [hcpu, hports, next_hpi hi, ha, h.data, NiosPorts.write, NiosPorts.lines, HpiIoIntf.lines, hc, hw, hr]

/-- The chip takes the write. -/
theorem Ending.goes (h : Ending s a v k) : Goes latency start chip s i ⟨.store (.hpi a) v k, c, keys⟩ := by
  obtain ⟨hc, hw, hr⟩ := NiosPorts.lines_eq.1 h.ports
  have hevent : s.event chip i = some (.write (a.setWidth 2) (v.setWidth 16)) := by
    rw [event_eq hi, h.pins, h.ports, h.address, h.data]
    rfl
  have hchip : (s.next latency (driver ∘ start) chip i).chip = chip.write c (a.setWidth 2) (v.setWidth 16) := by
    rw [next_chip hi hrun.reset, h.pins, h.ports, h.address, h.data, hrun.chip]
    rfl
  refine ⟨⟨k, _, keys⟩, by rw [hevent]; exact .write a v k c keys, ?_⟩
  -- the write has ended, whether or not the processor goes on in this cycle
  cases hact : s.cpu.active i.go with
  | false =>
    obtain ⟨hcpu, hports⟩ := next_wait latency (driver ∘ start) chip hact
    refine ⟨hrun.of_chip hi hchip (by rw [hports]; exact ⟨rfl, rfl⟩), .written ?_⟩
    constructor <;> simp [hcpu, hports, next_hpi hi, h.code, NiosPorts.lines, HpiIoIntf.lines, hc, hw, hr]
  | true =>
    obtain ⟨hcpu, hports⟩ := next_store latency (driver ∘ start) chip hact h.code
    refine ⟨hrun.of_chip hi hchip (by rw [hports]; exact ⟨rfl, rfl⟩), .idle ?_⟩
    constructor <;> simp [hcpu, hports, next_hpi hi, NiosPorts.write, NiosPorts.lines, hw, hr]

end Write

theorem otgData_of_reading (hpins : s.hpi.lines = ⟨false, true, false⟩) (ha : s.hpi.otgAddr = a.setWidth 2) :
    s.otgData chip i = chip.out s.chip (a.setWidth 2) := by
  obtain ⟨hc, hw, hr⟩ := HpiIoIntf.lines_eq.1 hpins
  simp [otgData, HpiIoIntf.otgData, OtgChip.drives, HpiIoIntf.reading, hc, hw, hr, ha]

section Read

variable {k : BitVec 32 → Host κ} (hrun : Running s ⟨.load (.hpi a) k, c, keys⟩) (hi : i.reset = false)

include hrun hi

theorem Asked.goes (h : Asked s a k) : Goes latency start chip s i ⟨.load (.hpi a) k, c, keys⟩ := by
  obtain ⟨hc, hw, hr⟩ := NiosPorts.lines_eq.1 h.ports
  refine hrun.goes_store hi ?_ h.code (by simp) (fun hact => .asked ?_) fun hact => .lowered ?_
  · unfold Quiet
    rw [h.ports, h.pins]
    decide
  · obtain ⟨hcpu, hports⟩ := next_wait latency (driver ∘ start) chip hact
    constructor <;> simp [hcpu, hports, next_hpi hi, h.code, h.address, NiosPorts.lines, HpiIoIntf.lines, hc, hw, hr]
  · obtain ⟨hcpu, hports⟩ := next_store latency (driver ∘ start) chip hact h.code
    constructor <;> simp [hcpu, hports, next_hpi hi, h.address, NiosPorts.write, NiosPorts.lines, hc, hw]

theorem Lowered.goes (h : Lowered s a k) : Goes latency start chip s i ⟨.load (.hpi a) k, c, keys⟩ := by
  obtain ⟨hc, hw, hr⟩ := NiosPorts.lines_eq.1 h.ports
  obtain ⟨hc', hw'⟩ := h.pins
  obtain ⟨ha, -⟩ := h.address
  refine hrun.goes_store hi ?_ h.code (by simp) (fun hact => .lowered ?_) fun hact => .reading ?_
  · simp [Quiet, Lines.writing, Lines.reading, HpiIoIntf.lines, hc']
  · obtain ⟨hcpu, hports⟩ := next_wait latency (driver ∘ start) chip hact
    constructor <;> simp [hcpu, hports, next_hpi hi, h.code, ha, NiosPorts.lines, hc, hw, hr]
  · -- the processor is busy for `latency` clocks, and nothing has come yet
    obtain ⟨hcpu, hports⟩ := next_store latency (driver ∘ start) chip hact h.code
    constructor <;> simp [hcpu, hports, next_hpi hi, ha, NiosPorts.write, NiosPorts.lines, hw, hr]

theorem Reading.goes (hlat : 3 ≤ latency) (h : Reading s a k latency chip) :
    Goes latency start chip s i ⟨.load (.hpi a) k, c, keys⟩ := by
  obtain ⟨hc, hw, hr⟩ := NiosPorts.lines_eq.1 h.ports
  obtain ⟨hw', hr'⟩ := h.pins
  obtain ⟨ha, ha'⟩ := h.address
  have hq : Quiet s := by simp [Quiet, h.ports, Lines.writing, Lines.reading, HpiIoIntf.lines, hw', hr']
  have hnone : s.event chip i = none := by
    rw [event_eq hi, hq.1, hq.2, h.code]
    simp
  have hchip : (s.next latency (driver ∘ start) chip i).chip = s.chip := by
    rw [next_chip hi hrun.reset, hq.1, hq.2]
    rfl
  refine ⟨_, by rw [hnone]; rfl, ?_⟩
  -- while the processor waits, the word of the chip moves on by one register a clock
  cases hact : s.cpu.active i.go with
  | false =>
    obtain ⟨hcpu, hports⟩ := next_wait latency (driver ∘ start) chip hact
    refine ⟨hrun.quiet hi hq (by rw [hports]; exact ⟨rfl, rfl⟩), .reading ?_⟩
    refine ⟨by rw [hcpu]; exact h.code, by rw [hports]; exact h.ports, ?_, ?_, ?_, ?_, ?_⟩
    · simp [next_hpi hi, hw, hr]
    · simp [next_hpi hi, hports, ha]
    · simp [next_hpi hi, hc]
    · intro hbusy
      have hbusy' : s.cpu.busy - 1 + 2 ≤ latency := by rwa [hcpu] at hbusy
      have hsel := h.select (by omega)
      rw [hchip, next_hpi hi]
      exact otgData_of_reading (HpiIoIntf.lines_eq.2 ⟨hsel, hw', hr'⟩) ha'
    · intro hbusy
      have hbusy' : s.cpu.busy - 1 + 3 ≤ latency := by rwa [hcpu] at hbusy
      rw [hchip, hports]
      exact congrArg (BitVec.setWidth 32) (h.sample (by omega))
  | true =>
    obtain ⟨hcpu, hports⟩ := next_load latency (driver ∘ start) chip hact h.code
    have hbusy : s.cpu.busy = 0 := by
      unfold Cpu.active at hact
      simp at hact
      exact hact.2
    -- the processor loads late enough: the word has gone through both registers by then
    have hdata : s.ports.read .otgHpiData = (chip.out s.chip (a.setWidth 2)).setWidth 32 := h.port (by omega)
    refine ⟨hrun.quiet hi hq (by rw [hports]; exact ⟨rfl, rfl⟩), .loaded ?_⟩
    refine ⟨?_, by rw [hports]; exact h.ports, by rw [lines_next hi]; exact h.ports, ?_⟩
    · rw [hcpu, hdata, hchip]
      simp
    · simp [next_hpi hi, hports, ha]

theorem Loaded.goes (h : Loaded s a k chip) : Goes latency start chip s i ⟨.load (.hpi a) k, c, keys⟩ := by
  obtain ⟨hc, hw, hr⟩ := NiosPorts.lines_eq.1 h.ports
  obtain ⟨ha, ha'⟩ := h.address
  have hq : Quiet s := by
    unfold Quiet
    rw [h.ports, h.pins]
    decide
  have hchip : (s.next latency (driver ∘ start) chip i).chip = s.chip := by
    rw [next_chip hi hrun.reset, hq.1, hq.2]
    rfl
  refine hrun.goes_store hi hq h.code (by simp) (fun hact => .loaded ?_) fun hact => .released ?_
  · obtain ⟨hcpu, hports⟩ := next_wait latency (driver ∘ start) chip hact
    constructor <;>
      simp [hcpu, hports, hchip, next_hpi hi, h.code, ha, NiosPorts.lines, HpiIoIntf.lines, hc, hw, hr]
  · obtain ⟨hcpu, hports⟩ := next_store latency (driver ∘ start) chip hact h.code
    constructor <;>
      simp [hcpu, hports, hchip, next_hpi hi, ha, NiosPorts.write, NiosPorts.lines, HpiIoIntf.lines, hc, hw, hr]

/-- The chip sees the read end. -/
theorem Released.goes (h : Released s a k chip) : Goes latency start chip s i ⟨.load (.hpi a) k, c, keys⟩ := by
  obtain ⟨hc, hw, hr⟩ := NiosPorts.lines_eq.1 h.ports
  have hevent : s.event chip i = some (.read (a.setWidth 2)) := by
    rw [event_eq hi, h.pins, h.ports, h.address]
    rfl
  have hchip : (s.next latency (driver ∘ start) chip i).chip = chip.read c (a.setWidth 2) := by
    rw [next_chip hi hrun.reset, h.pins, h.ports, h.address, hrun.chip]
    rfl
  refine ⟨⟨k ((chip.out c (a.setWidth 2)).setWidth 32), _, keys⟩, by rw [hevent]; exact .read a k c keys, ?_⟩
  have hc0 : s.chip = c := hrun.chip
  -- the read has ended, whether or not the processor goes on in this cycle
  cases hact : s.cpu.active i.go with
  | false =>
    obtain ⟨hcpu, hports⟩ := next_wait latency (driver ∘ start) chip hact
    refine ⟨hrun.of_chip hi hchip (by rw [hports]; exact ⟨rfl, rfl⟩), .taken ?_⟩
    constructor <;> simp [hcpu, hports, next_hpi hi, h.code, hc0, NiosPorts.lines, HpiIoIntf.lines, hc, hw, hr]
  | true =>
    obtain ⟨hcpu, hports⟩ := next_store latency (driver ∘ start) chip hact h.code
    refine ⟨hrun.of_chip hi hchip (by rw [hports]; exact ⟨rfl, rfl⟩), .idle ?_⟩
    constructor <;> simp [hcpu, hports, next_hpi hi, hc0, NiosPorts.write, NiosPorts.lines, hc, hw]

end Read

/-! ## After an access -/

theorem Idle.quiet (h : Idle s k) : Quiet s := by
  rcases h.pins with hc | ⟨hw, hr⟩
  · simp [Quiet, Lines.writing, Lines.reading, HpiIoIntf.lines, hc]
  · simp [Quiet, Lines.writing, Lines.reading, HpiIoIntf.lines, hw, hr]

theorem Idle.next_wait (h : Idle s k) (hi : i.reset = false) (hact : s.cpu.active i.go = false) :
    Idle (s.next latency (driver ∘ start) chip i) k := by
  obtain ⟨hc, hw, hr⟩ := NiosPorts.lines_eq.1 h.ports
  obtain ⟨hcpu, hports⟩ := UsbHost.next_wait latency (driver ∘ start) chip hact
  constructor <;> simp [hcpu, hports, next_hpi hi, h.code, NiosPorts.lines, hc, hw, hr]

section After

variable (hrun : Running s g) (hi : i.reset = false)

include hrun hi

theorem Written.goes (h : Written s g.code) : Goes latency start chip s i g := by
  obtain ⟨hc, hw, hr⟩ := NiosPorts.lines_eq.1 h.ports
  refine hrun.goes_store hi ?_ h.code (by simp) (fun hact => .written ?_) fun hact => .idle ?_
  · unfold Quiet
    rw [h.ports, h.pins]
    decide
  · obtain ⟨hcpu, hports⟩ := next_wait latency (driver ∘ start) chip hact
    constructor <;> simp [hcpu, hports, next_hpi hi, h.code, NiosPorts.lines, HpiIoIntf.lines, hc, hw, hr]
  · obtain ⟨hcpu, hports⟩ := next_store latency (driver ∘ start) chip hact h.code
    constructor <;> simp [hcpu, hports, next_hpi hi, NiosPorts.write, NiosPorts.lines, hc, hw, hr]

theorem Taken.goes (h : Taken s g.code) : Goes latency start chip s i g := by
  obtain ⟨hc, hw, hr⟩ := NiosPorts.lines_eq.1 h.ports
  refine hrun.goes_store hi ?_ h.code (by simp) (fun hact => .taken ?_) fun hact => .idle ?_
  · unfold Quiet
    rw [h.ports, h.pins]
    decide
  · obtain ⟨hcpu, hports⟩ := next_wait latency (driver ∘ start) chip hact
    constructor <;> simp [hcpu, hports, next_hpi hi, h.code, NiosPorts.lines, HpiIoIntf.lines, hc, hw, hr]
  · obtain ⟨hcpu, hports⟩ := next_store latency (driver ∘ start) chip hact h.code
    constructor <;> simp [hcpu, hports, next_hpi hi, NiosPorts.write, NiosPorts.lines, hc, hw]

/-- What needs no access is done in one cycle. -/
theorem Idle.goes_at_once (h : Idle s g.code) {e : HostEvent} {k : Host κ} {keys : BitVec 32}
    (hevent : s.cpu.active i.go = true → s.event chip i = some e)
    (hstep : HostState.Step start chip e g ⟨k, g.chip, keys⟩)
    (hcpu : s.cpu.active i.go = true → (s.next latency (driver ∘ start) chip i).cpu.code = driver k)
    (hports : s.cpu.active i.go = true →
      (s.next latency (driver ∘ start) chip i).ports =
        { s.ports with keycode := keys, readdata := s.hpi.fromSwDataIn.setWidth 32 }) :
    Goes latency start chip s i g := by
  obtain ⟨hc, hw, hr⟩ := NiosPorts.lines_eq.1 h.ports
  have hq := h.quiet
  -- the step is made in the cycle in which the processor goes on
  cases hact : s.cpu.active i.go with
  | false =>
    have hnone : s.event chip i = none := by
      rw [event_eq hi, hq.1, hq.2, hact]
      rfl
    obtain ⟨-, hports⟩ := UsbHost.next_wait latency (driver ∘ start) chip hact
    exact ⟨g, by rw [hnone]; rfl, hrun.quiet hi hq (by rw [hports]; exact ⟨rfl, rfl⟩), .idle (h.next_wait hi hact)⟩
  | true =>
    have hports := hports hact
    refine ⟨_, by rw [hevent hact]; exact hstep, ⟨?_, ?_, ?_, ?_⟩, .idle ⟨hcpu hact, ?_, ?_⟩⟩
    · rw [next_chip hi hrun.reset, hq.1, hq.2]
      exact hrun.chip
    · rw [hports]
    · rw [hports]; exact hrun.reset
    · rw [next_hpi hi]; exact hrun.reset
    · rw [hports]; exact h.ports
    · simp [next_hpi hi, hc]

/-- The next access begins, or what needs none is done at once. -/
theorem Idle.goes (h : Idle s g.code) : Goes latency start chip s i g := by
  obtain ⟨hc, hw, hr⟩ := NiosPorts.lines_eq.1 h.ports
  have hq := h.quiet
  have hcode := h.code
  obtain ⟨k, c, keys⟩ := g
  have hkeys : s.ports.keycode = keys := hrun.keycode
  -- by the next access of the software: none, a write, a key word, a read, or the key word read back
  rcases k with l | ⟨a | _, v, k⟩ | ⟨a | _, k⟩
  · have hcode : s.cpu.code = .pure l := hcode
    refine h.goes_at_once hrun hi (fun hact => ?_) (.jump l c keys) (fun hact => ?_) fun hact => ?_
    · rw [event_eq hi, hq.1, hq.2, hact, hcode]
      rfl
    · simp [next, Cpu.next, hact, hcode, step]
    · simp [next, NiosPorts.next, Cpu.stored, hact, hcode, stored, hkeys]
  · have hcode : s.cpu.code = .store .otgHpiAddress (a.setWidth 32) _ := hcode
    refine hrun.goes_store hi hq hcode (by simp) (fun hact => .idle (h.next_wait hi hact)) fun hact => .addressed ?_
    obtain ⟨hcpu, hports⟩ := next_store latency (driver ∘ start) chip hact hcode
    refine ⟨by rw [hcpu]; rfl, ?_, by rw [lines_next hi]; exact h.ports, ?_⟩
    · simp [hports, NiosPorts.write, NiosPorts.lines, hc, hw, hr]
    · simp [hports, NiosPorts.write]
  · have hcode : s.cpu.code = .store .keycode v (driver k) := hcode
    refine h.goes_at_once hrun hi (fun hact => ?_) (.sendKeys v k c keys) (fun hact => ?_) fun hact => ?_
    · rw [event_eq hi, hq.1, hq.2, hact, hcode]
      rfl
    · rw [(next_store latency (driver ∘ start) chip hact hcode).1]
    · rw [(next_store latency (driver ∘ start) chip hact hcode).2]
      rfl
  · have hcode : s.cpu.code = .store .otgHpiAddress (a.setWidth 32) _ := hcode
    refine hrun.goes_store hi hq hcode (by simp) (fun hact => .idle (h.next_wait hi hact)) fun hact => .asked ?_
    obtain ⟨hcpu, hports⟩ := next_store latency (driver ∘ start) chip hact hcode
    refine ⟨by rw [hcpu]; rfl, ?_, by rw [lines_next hi]; exact h.ports, ?_⟩
    · simp [hports, NiosPorts.write, NiosPorts.lines, hc, hw, hr]
    · simp [hports, NiosPorts.write]
  · have hcode : s.cpu.code = .load .keycode fun v => driver (k v) := hcode
    refine h.goes_at_once hrun hi (fun hact => ?_) (.loadKeys k c keys) (fun hact => ?_) fun hact => ?_
    · rw [event_eq hi, hq.1, hq.2, hact, hcode]
      rfl
    · rw [(next_load latency (driver ∘ start) chip hact hcode).1, ← hkeys]
      rfl
    · rw [(next_load latency (driver ∘ start) chip hact hcode).2, ← hkeys]

end After

end Phases

/-! ## Whole runs -/

/-- The hardware simulates direct accesses, if a processor takes at least three clocks between two. -/
theorem follows_next {start : κ → Host κ} (hlat : 3 ≤ latency) (h : Follows latency chip s g) (hi : i.reset = false) :
    Goes latency start chip s i g := by
  obtain ⟨hrun, hphase⟩ := h
  obtain ⟨k, c, keys⟩ := g
  cases hphase with
  | idle h => exact h.goes hrun hi
  | addressed h => exact h.goes hrun hi
  | selected h => exact h.goes hrun hi
  | writing h => exact h.goes hrun hi
  | data h => exact h.goes hrun hi
  | ending h => exact h.goes hrun hi
  | written h => exact h.goes hrun hi
  | asked h => exact h.goes hrun hi
  | lowered h => exact h.goes hrun hi
  | reading h => exact h.goes hrun hi hlat
  | loaded h => exact h.goes hrun hi
  | released h => exact h.goes hrun hi
  | taken h => exact h.goes hrun hi

theorem simulates {latency : ℕ} (hlat : 3 ≤ latency) (start : κ → Host κ) (chip : OtgChip χ) :
    Lts.Simulation (design latency (driver ∘ start) chip) (fun _ i => i.reset = false) (fun s i => s.event chip i)
      (HostState.Step start chip) (Follows latency chip) :=
  ⟨fun _ _ _ hi h => follows_next hlat h hi⟩

end UsbHost

end FpgaTetris
