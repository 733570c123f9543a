/-
The way from the processor to the USB chip: the PIO ports of the Nios II system and `hpi_io_intf.sv`.
-/
import Mathlib.Data.BitVec

namespace FpgaTetris

/-! ## Ports of the Nios II system -/

inductive NiosPort
  | otgHpiAddress
  | otgHpiData
  | otgHpiR
  | otgHpiCs
  | otgHpiW
  | otgHpiReset
  | keycode
  deriving DecidableEq, Repr

/-- The registers of the ports: `data_out` of each, and `readdata` of `otg_hpi_data`. -/
structure NiosPorts where
  otgHpiAddress : BitVec 2
  otgHpiData : BitVec 16
  readdata : BitVec 32
  otgHpiR : Bool
  otgHpiCs : Bool
  otgHpiW : Bool
  otgHpiReset : Bool
  keycode : BitVec 32
  deriving DecidableEq, Repr

namespace NiosPorts

variable (s : NiosPorts)

/-- What a load finds. -/
def read : NiosPort → BitVec 32
  | .otgHpiAddress => s.otgHpiAddress.setWidth 32
  | .otgHpiData => s.readdata
  | .otgHpiR => (BitVec.ofBool s.otgHpiR).setWidth 32
  | .otgHpiCs => (BitVec.ofBool s.otgHpiCs).setWidth 32
  | .otgHpiW => (BitVec.ofBool s.otgHpiW).setWidth 32
  | .otgHpiReset => (BitVec.ofBool s.otgHpiReset).setWidth 32
  | .keycode => s.keycode

/-- `data_out` after a store. -/
def write (p : NiosPort) (writedata : BitVec 32) : NiosPorts :=
  match p with
  | .otgHpiAddress => { s with otgHpiAddress := writedata.setWidth 2 }
  | .otgHpiData => { s with otgHpiData := writedata.setWidth 16 }
  | .otgHpiR => { s with otgHpiR := writedata.getLsbD 0 }
  | .otgHpiCs => { s with otgHpiCs := writedata.getLsbD 0 }
  | .otgHpiW => { s with otgHpiW := writedata.getLsbD 0 }
  | .otgHpiReset => { s with otgHpiReset := writedata.getLsbD 0 }
  | .keycode => { s with keycode := writedata }

/-- The clock edge. A load holds its address for a clock before, so `readdata` is what came in then. -/
def next (stored : Option (NiosPort × BitVec 32)) (inPort : BitVec 16) : NiosPorts :=
  let n := match stored with
    | some (p, v) => s.write p v
    | none => s
  { n with readdata := inPort.setWidth 32 }

/-- `reset_n` sets every register to zero. -/
def powerUp : NiosPorts := ⟨0, 0, 0, false, false, false, false, 0⟩

end NiosPorts

/-! ## The interface -/

/-- The registers of `hpi_io_intf`. -/
structure HpiIoIntf where
  fromSwDataOutBuffer : BitVec 16
  fromSwDataIn : BitVec 16
  otgAddr : BitVec 2
  otgRdN : Bool
  otgWrN : Bool
  otgCsN : Bool
  otgRstN : Bool
  deriving DecidableEq, Repr

namespace HpiIoIntf

structure In where
  reset : Bool
  fromSwAddress : BitVec 2
  fromSwDataOut : BitVec 16
  fromSwR : Bool
  fromSwW : Bool
  fromSwCs : Bool
  fromSwReset : Bool
  otgData : BitVec 16

variable (s : HpiIoIntf)

/-- `OTG_DATA`, where `chip` is on the bus unless the interface drives it. -/
def otgData (chip : BitVec 16) : BitVec 16 := if s.otgWrN then chip else s.fromSwDataOutBuffer

/-- The clock edge. -/
def next (i : In) : HpiIoIntf :=
  if i.reset then ⟨0, 0, 0, true, true, true, true⟩
  else ⟨i.fromSwDataOut, i.otgData, i.fromSwAddress, i.fromSwR, i.fromSwW, i.fromSwCs, i.fromSwReset⟩

end HpiIoIntf

end FpgaTetris
