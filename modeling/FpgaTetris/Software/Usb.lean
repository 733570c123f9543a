/-
`usb.c`: the registers and the memory of the USB chip, and the lists of transfer descriptors that the
software writes for the requests to the keyboard.
-/
import FpgaTetris.Software.IoHandler

namespace FpgaTetris

open Mmio Mmio.Code

namespace Usb

/-! ## Constants -/

/-- `HPI_DATA`. -/
def hpiData : BitVec 8 := 0

/-- `HPI_MAILBOX`. -/
def hpiMailbox : BitVec 8 := 1

/-- `HPI_ADDR`. -/
def hpiAddr : BitVec 8 := 2

/-- `HPI_STATUS`. -/
def hpiStatus : BitVec 8 := 3

/-- `HPI_STATUS_SIE1msg_FLAG`. -/
def hpiStatusSie1msgFlag : BitVec 16 := 0x0010

/-- `HPI_SIE1_MSG_ADR`. -/
def hpiSie1MsgAdr : BitVec 16 := 0x0144

/-- `HPI_SIE2_MSG_ADR`. -/
def hpiSie2MsgAdr : BitVec 16 := 0x0148

/-- `HOST1_STAT_REG`. -/
def host1StatReg : BitVec 16 := 0xC090

/-- `HOST2_STAT_REG`. -/
def host2StatReg : BitVec 16 := 0xC0B0

/-- `HUSB_SIE1_pCurrentTDPtr`. -/
def husbSie1PCurrentTDPtr : BitVec 16 := 0x01B0

/-- `HUSB_TDListDone`. -/
def husbTDListDone : BitVec 16 := 0x1000

/-- `COMM_RESET`. -/
def commReset : BitVec 16 := 0xFA50

/-! ## Accesses -/

/-- A call of `IO_write`. -/
def write (address : BitVec 8) (data : BitVec 16) : Host Unit := storeTo (.hpi address) (data.setWidth 32)

/-- A call of `IO_read`. -/
def read (address : BitVec 8) : Host (BitVec 16) :=
  (loadFrom (.hpi address)).bind fun v => .pure (v.setWidth 16)

/-- `UsbWrite`. -/
def usbWrite (address data : BitVec 16) : Host Unit := do
  write hpiAddr address
  write hpiData data

/-- `UsbRead`. -/
def usbRead (address : BitVec 16) : Host (BitVec 16) := do
  write hpiAddr address
  read hpiData

/-- Several calls of `IO_write(HPI_DATA, ..)`. -/
def writeWords : List (BitVec 16) → Host Unit
  | [] => .pure ()
  | w :: ws => (write hpiData w).bind fun _ => writeWords ws

/-- `UsbSoftReset`. -/
def usbSoftReset : Host Unit := do
  write hpiMailbox commReset
  let _ ← read hpiMailbox
  let _ ← read hpiStatus
  let _ ← usbRead hpiSie1MsgAdr
  usbWrite hpiSie1MsgAdr 0
  let _ ← usbRead hpiSie2MsgAdr
  usbWrite hpiSie2MsgAdr 0
  usbWrite host1StatReg 0xFFFF
  usbWrite host2StatReg 0xFFFF

/-! ## Requests -/

/-- The words of a list of descriptors go to `0x0500`, and the chip is pointed to them. -/
def sendTDList (words : List (BitVec 16)) : Host Unit := do
  write hpiAddr 0x0500
  writeWords words
  usbWrite husbSie1PCurrentTDPtr 0x0500

/-- `UsbSetAddress`. -/
def setAddress : List (BitVec 16) :=
  [0x050C, 0x0008, 0x00D0, 0x0001, 0x0013, 0x0514,
    0x0500, 0x0002, 0x0000, 0x0000,
    0x0000, 0x0000, 0x0090, 0x0041, 0x0013, 0x0000]

/-- `UsbGetDeviceDesc1`. -/
def getDeviceDesc1 : List (BitVec 16) :=
  [0x050C, 0x0008, 0x02D0, 0x0001, 0x0013, 0x0514,
    0x0680, 0x0100, 0x0000, 0x0008,
    0x052C, 0x0008, 0x0290, 0x0041, 0x0013, 0x0520,
    0x0000, 0x0000, 0x0210, 0x0041, 0x0013, 0x0000]

/-- `UsbGetDeviceDesc2`. -/
def getDeviceDesc2 : List (BitVec 16) :=
  [0x050C, 0x0008, 0x02D0, 0x0001, 0x0013, 0x0514,
    0x0680, 0x0100, 0x0000, 0x0012,
    0x0544, 0x0008, 0x0290, 0x0041, 0x0013, 0x0520,
    0x054c, 0x0008, 0x0290, 0x0001, 0x0013, 0x052c,
    0x0554, 0x0002, 0x0290, 0x0041, 0x0013, 0x0538,
    0x0000, 0x0000, 0x0210, 0x0041, 0x0013, 0x0000]

/-- `UsbGetConfigDesc1`. -/
def getConfigDesc1 : List (BitVec 16) :=
  [0x050C, 0x0008, 0x02D0, 0x0001, 0x0013, 0x0514,
    0x0680, 0x0200, 0x0000, 0x0009,
    0x0544, 0x0008, 0x0290, 0x0041, 0x0013, 0x0520,
    0x054c, 0x0001, 0x0290, 0x0001, 0x0013, 0x052c,
    0x0000, 0x0000, 0x0210, 0x0041, 0x0013, 0x0000]

/-- `UsbGetConfigDesc2`. -/
def getConfigDesc2 : List (BitVec 16) :=
  [0x050C, 0x0008, 0x02D0, 0x0001, 0x0013, 0x0514,
    0x0680, 0x0200, 0x0000, 0x00FF,
    0x055c, 0x0008, 0x0290, 0x0041, 0x0013, 0x0520,
    0x0564, 0x0008, 0x0290, 0x0001, 0x0013, 0x052c,
    0x056c, 0x0008, 0x0290, 0x0041, 0x0013, 0x0538,
    0x0574, 0x0008, 0x0290, 0x0001, 0x0013, 0x0544,
    0x057c, 0x0002, 0x0290, 0x0041, 0x0013, 0x0550,
    0x0000, 0x0000, 0x0210, 0x0041, 0x0013, 0x0000]

/-- `UsbSetConfig`. -/
def setConfig : List (BitVec 16) :=
  [0x050C, 0x0008, 0x02D0, 0x0001, 0x0013, 0x0514,
    0x0900, 0x0001, 0x0000, 0x0000,
    0x0000, 0x0000, 0x0290, 0x0041, 0x0013, 0x0000]

/-- `UsbClassRequest`. -/
def classRequest : List (BitVec 16) :=
  [0x050C, 0x0008, 0x02D0, 0x0001, 0x0013, 0x0514,
    0x0A21, 0x0000, 0x0000, 0x0000,
    0x0000, 0x0000, 0x0290, 0x0041, 0x0013, 0x0000]

/-- `UsbGetHidDesc`. -/
def getHidDesc : List (BitVec 16) :=
  [0x050C, 0x0008, 0x02D0, 0x0001, 0x0013, 0x0514,
    0x0681, 0x2100, 0x0000, 0x007B,
    0x0544, 0x0008, 0x0290, 0x0041, 0x0013, 0x0520,
    0x0000, 0x0000, 0x0210, 0x0041, 0x0013, 0x0000]

/-- `UsbGetReportDesc`. -/
def getReportDesc : List (BitVec 16) :=
  [0x050C, 0x0008, 0x02D0, 0x0001, 0x0013, 0x0514,
    0x0681, 0x2200, 0x0000, 0x007B,
    0x0580, 0x0008, 0x0290, 0x0041, 0x0013, 0x0520,
    0x0588, 0x0008, 0x0290, 0x0001, 0x0013, 0x052c,
    0x0590, 0x0008, 0x0290, 0x0041, 0x0013, 0x0538,
    0x0598, 0x0008, 0x0290, 0x0001, 0x0013, 0x0544,
    0x05a0, 0x0008, 0x0290, 0x0041, 0x0013, 0x0550,
    0x05a8, 0x0008, 0x0290, 0x0001, 0x0013, 0x055c,
    0x05b0, 0x0008, 0x0290, 0x0041, 0x0013, 0x0568,
    0x05b8, 0x0003, 0x0290, 0x0001, 0x0013, 0x0574,
    0x0000, 0x0000, 0x0210, 0x0041, 0x0013, 0x0000]

end Usb

end FpgaTetris
