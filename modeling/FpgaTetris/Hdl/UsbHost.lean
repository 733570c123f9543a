/-
The USB side of `tetris.sv`: the processor with its ports, `hpi_io_intf`, and the USB chip at its pins.
-/
import FpgaTetris.Lib.Design
import FpgaTetris.Software.IoHandler

namespace FpgaTetris

/-! ## The chip -/

/-- The host port interface of a USB chip: what a write and a read of a register do to it, what it
drives in a read, and its reset. -/
structure OtgChip (χ : Type) where
  write : χ → BitVec 2 → BitVec 16 → χ
  read : χ → BitVec 2 → χ
  out : χ → BitVec 2 → BitVec 16
  reset : χ → χ

namespace HpiIoIntf

variable (s : HpiIoIntf)

/-- The pins ask for a write. -/
def writing : Bool := !s.otgCsN && !s.otgWrN

/-- The pins ask for a read. -/
def reading : Bool := !s.otgCsN && s.otgWrN && !s.otgRdN

end HpiIoIntf

namespace OtgChip

variable {χ : Type} (chip : OtgChip χ) (c : χ) (pins pins' : HpiIoIntf)

/-- What is on the bus while the interface does not drive it: the chip in a read, otherwise nothing in
particular. -/
def drives (idle : BitVec 16) : BitVec 16 := if pins.reading then chip.out c pins.otgAddr else idle

/-- The chip acts when a write or a read ends. -/
def next : χ :=
  if pins'.otgRstN = false then chip.reset c
  else if pins.writing && !pins'.writing then chip.write c pins.otgAddr pins.fromSwDataOutBuffer
  else if pins.reading && !pins'.reading then chip.read c pins.otgAddr
  else c

/-- A chip that does nothing. -/
def silent : OtgChip Unit := ⟨fun _ _ _ => (), fun _ _ => (), fun _ _ => 0, fun _ => ()⟩

end OtgChip

/-! ## The composition -/

/-- The processor, its ports, the interface and the chip. -/
structure UsbHost (κ χ : Type) where
  cpu : Mmio.Cpu NiosPort (BitVec 32) κ
  ports : NiosPorts
  hpi : HpiIoIntf
  chip : χ

namespace UsbHost

/-- `Reset_h`, whether the processor goes on, and the bus when nothing drives it. -/
structure In where
  reset : Bool
  go : Bool
  idle : BitVec 16

variable {κ χ : Type} (latency : ℕ) (body : κ → Driver κ) (chip : OtgChip χ) (s : UsbHost κ χ) (i : In)

/-- `OTG_DATA`. -/
def otgData : BitVec 16 := s.hpi.otgData (chip.drives s.chip s.hpi i.idle)

/-- The inputs of `hpi_io_intf`. -/
def hpiIn : HpiIoIntf.In :=
  { reset := i.reset
    fromSwAddress := s.ports.otgHpiAddress
    fromSwDataOut := s.ports.otgHpiData
    fromSwR := s.ports.otgHpiR
    fromSwW := s.ports.otgHpiW
    fromSwCs := s.ports.otgHpiCs
    fromSwReset := s.ports.otgHpiReset
    otgData := s.otgData chip i }

def next : UsbHost κ χ :=
  { cpu := s.cpu.next latency body s.ports.read i.go
    ports := s.ports.next (s.cpu.stored i.go) s.hpi.fromSwDataIn
    hpi := .next (s.hpiIn chip i)
    chip := chip.next s.chip s.hpi (.next (s.hpiIn chip i)) }

def design : Sync.Design (UsbHost κ χ) In := ⟨next latency body chip⟩

/-- Power-up: every register zero. -/
def powerUp (code : Driver κ) (c : χ) : UsbHost κ χ := ⟨⟨code, 0⟩, .powerUp, ⟨0, 0, 0, false, false, false, false⟩, c⟩

end UsbHost

end FpgaTetris
