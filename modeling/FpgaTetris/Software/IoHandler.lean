/-
`io_handler.c`: how the software reads and writes the registers of the USB chip through the ports.
-/
import FpgaTetris.Hdl.Hpi
import FpgaTetris.Lib.Mmio

namespace FpgaTetris

open Mmio Mmio.Code

/-- Code over the ports of the Nios II system. -/
abbrev Driver := Code NiosPort (BitVec 32)

/-- `IO_init`. -/
def ioInit : Driver Unit := do
  storeTo .otgHpiReset 1
  storeTo .otgHpiCs 1
  storeTo .otgHpiR 1
  storeTo .otgHpiW 1
  storeTo .otgHpiAddress 0
  storeTo .otgHpiData 0
  -- reset the chip
  storeTo .otgHpiCs 0
  storeTo .otgHpiReset 0
  storeTo .otgHpiReset 1
  storeTo .otgHpiCs 1

/-- `IO_write`. -/
def ioWrite (address : BitVec 8) (data : BitVec 16) : Driver Unit := do
  storeTo .otgHpiAddress (address.setWidth 32)
  storeTo .otgHpiCs 0
  storeTo .otgHpiW 0
  storeTo .otgHpiData (data.setWidth 32)
  storeTo .otgHpiW 1
  storeTo .otgHpiCs 1

/-- `IO_read`. -/
def ioRead (address : BitVec 8) : Driver (BitVec 16) := do
  storeTo .otgHpiAddress (address.setWidth 32)
  storeTo .otgHpiR 0
  storeTo .otgHpiCs 0
  let temp ← loadFrom .otgHpiData
  storeTo .otgHpiCs 1
  storeTo .otgHpiR 1
  return temp.setWidth 16

/-! ## Code over the registers of the chip -/

/-- What the rest of the software accesses: a register of the chip, by `IO_read` and `IO_write`, or the
port of the key word. -/
inductive HostPort
  | hpi (address : BitVec 8)
  | keycode
  deriving DecidableEq, Repr

abbrev Host := Code HostPort (BitVec 32)

/-- How a store is done. -/
def hostStore : HostPort → BitVec 32 → Driver Unit
  | .hpi address, v => ioWrite address (v.setWidth 16)
  | .keycode, v => storeTo .keycode v

/-- How a load is done. -/
def hostLoad : HostPort → Driver (BitVec 32)
  | .hpi address => (ioRead address).bind fun temp => .pure (temp.setWidth 32)
  | .keycode => loadFrom .keycode

/-- The software in terms of the ports. -/
def driver {α : Type} (c : Host α) : Driver α := c.expand hostStore hostLoad

end FpgaTetris
