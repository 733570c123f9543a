/-
`main.c`: the set-up of the USB chip and of the keyboard, and the loop that polls the keyboard, sends the
key word to the hardware and watches the plug. A label stands where a loop of the source turns, or
where a `goto` leads.
-/
import FpgaTetris.Software.Keyboard
import FpgaTetris.Software.Usb

namespace FpgaTetris

open Mmio Mmio.Code

namespace Main

open Usb

/-! ## Constants -/

/-- `HUSB_pEOT`. -/
def husbPEOT : BitVec 16 := 0x01B4

/-- `SOFEOP1_TO_CPU_EN | RESUME1_TO_HPI_EN`. -/
def irqRouting : BitVec 16 := 0x0400 ||| 0x0040

/-- `HPI_IRQ_ROUTING_REG`. -/
def hpiIrqRoutingReg : BitVec 16 := 0x0142

/-- `A_CHG_IRQ_EN | SOF_EOP_IRQ_EN`. -/
def intStat : BitVec 16 := 0x0010 ||| 0x0200

/-- `HOST1_IRQ_EN_REG`. -/
def host1IrqEnReg : BitVec 16 := 0xC08C

/-- `COMM_INT_NUM`. -/
def commIntNum : BitVec 16 := 0x01C2

/-- `COMM_R0`. -/
def commR0 : BitVec 16 := 0x01C4

/-- `COMM_R1` to `COMM_R13`. -/
def commRs : List (BitVec 16) :=
  [0x01C6, 0x01C8, 0x01CA, 0x01CC, 0x01CE, 0x01D0, 0x01D2, 0x01D4, 0x01D6, 0x01D8, 0x01DA, 0x01DC, 0x01DE]

/-- `HUSB_SIE1_INIT_INT`. -/
def husbSie1InitInt : BitVec 16 := 0x0072

/-- `HUSB_RESET_INT`. -/
def husbResetInt : BitVec 16 := 0x0074

/-- `COMM_EXEC_INT`. -/
def commExecInt : BitVec 16 := 0xCE01

/-- `COMM_ACK`. -/
def commAck : BitVec 16 := 0x0FED

/-- `ctl_reg`, which is `USB1_CTL_REG`. -/
def ctlReg : BitVec 16 := 0xC08A

/-- `no_device`, which is `A_DP_STAT | A_DM_STAT`. -/
def noDevice : BitVec 16 := 0x2000 ||| 0x1000

/-! ## Labels -/

/-- The variables that live across labels. -/
structure Vars where
  toggle : BitVec 8
  dataSize : BitVec 8
  deriving DecidableEq, Repr

inductive Label
  /-- `USB_HOT_PLUG`. -/
  | hotPlug (v : Vars)
  /-- The loop that waits for the chip after its first interrupt. -/
  | initWait (v : Vars)
  /-- The loop that waits for a device before the set-up. -/
  | noKeyboard (v : Vars)
  /-- A request of the set-up, and the loops that send it again, wait for its end and retry. -/
  | request (n : ℕ) (v : Vars)
  | requestWait (n : ℕ) (v : Vars)
  | requestDone (n : ℕ) (v : Vars)
  | retryWait (v : Vars)
  /-- The polling loop, and the loops that send the poll again and wait for its end. -/
  | poll (v : Vars)
  | pollWait (v : Vars)
  | pollDone (v : Vars)
  /-- The loop of a removed keyboard. -/
  | removed (v : Vars)
  deriving DecidableEq, Repr

/-! ## Set-up -/

/-- Several calls of `UsbWrite` with data 0. -/
def clearRegs : List (BitVec 16) → Host Unit
  | [] => .pure ()
  | r :: rs => (usbWrite r 0).bind fun _ => clearRegs rs

/-- From `USB_HOT_PLUG` to the first loop. -/
def setup (v : Vars) : Host Label := do
  usbSoftReset
  usbWrite hpiSie1MsgAdr 0
  usbWrite host1StatReg 0xFFFF
  usbWrite husbPEOT 600
  usbWrite hpiIrqRoutingReg irqRouting
  usbWrite host1IrqEnReg intStat
  clearRegs (commR0 :: commRs)
  usbWrite commIntNum husbSie1InitInt
  write hpiMailbox commExecInt
  return .initWait v

/-- Up to `n` more reads of `ctl_reg`, until a device shows. -/
def watchPlug : ℕ → BitVec 16 → Host (BitVec 16)
  | 0, val => .pure val
  | n + 1, _ => (usbRead ctlReg).bind fun val => if val &&& noDevice ≠ 0 then .pure val else watchPlug n val

/-- From the end of the first loop to the requests. -/
def resetBus (v : Vars) : Host Label := do
  let mail ← read hpiMailbox
  if mail ≠ commAck then
    let _ ← read hpiMailbox
    return .hotPlug v
  usbWrite commIntNum husbResetInt
  usbWrite commR0 0x003c
  clearRegs commRs
  write hpiMailbox commExecInt
  let mail ← read hpiMailbox
  if mail ≠ commAck then
    let _ ← read hpiMailbox
    return .hotPlug v
  let val ← usbRead ctlReg
  if val &&& noDevice ≠ 0 then return .request 0 v
  let val ← watchPlug 5 val
  if val &&& noDevice ≠ 0 then return .request 0 v
  return .noKeyboard v

/-! ## Requests -/

/-- The requests of the set-up, in order. -/
def requests : List (List (BitVec 16)) :=
  [setAddress, getDeviceDesc1, getDeviceDesc2, getConfigDesc1, getConfigDesc2, setConfig, classRequest, getHidDesc,
    getReportDesc]

def sendRequest (n : ℕ) : Host Unit := sendTDList (requests.getD n [])

/-- One turn of `UsbWaitTDListDone`. -/
def readMsg : Host (BitVec 16) := do
  let val ← usbRead hpiSie1MsgAdr
  usbWrite hpiSie1MsgAdr 0
  return val

/-- The control byte of the first descriptor. -/
def readControl : Host (BitVec 16) := do
  write hpiAddr 0x0508
  read hpiData

/-- `UsbGetRetryCnt`, after which the set-up starts again. -/
def retry (v : Vars) : Host Label := do
  let _ ← read hpiStatus
  let msg ← usbRead hpiSie1MsgAdr
  if msg = husbTDListDone then
    usbWrite hpiSie1MsgAdr 0
    return .retryWait v
  let _ ← readControl
  return .hotPlug v

/-- After the descriptors of the configuration: the endpoint of the keyboard. -/
def endpoint : Host (BitVec 8) := do
  write hpiAddr 0x056c
  let _ ← read hpiData
  write hpiAddr 0x0576
  writeWords [0x073F, 0x8105, 0x0003, 0x0008, 0xAC0A]
  usbWrite husbSie1PCurrentTDPtr 0x0576
  write hpiAddr 0x057c
  let size ← read hpiData
  return (size &&& 0x0ff).setWidth 8

/-- The end of a request. -/
def checkRequest (n : ℕ) (v : Vars) : Host Label := do
  write hpiAddr 0x0506
  let _ ← read hpiData
  let val ← readControl
  if val ≠ 0x03 then retry v
  else if n = 4 then
    let size ← endpoint
    return .request 5 { v with dataSize := size }
  else if n + 1 < requests.length then return .request (n + 1) v
  else return .poll v

/-! ## Polling -/

/-- The descriptor of a poll. -/
def pollWords (v : Vars) : List (BitVec 16) :=
  [0x051c, 0x000f &&& v.dataSize.setWidth 16, 0x0291, if v.toggle.toNat % 2 = 1 then 0x0001 else 0x0041, 0x0013, 0x0000]

/-- `keycodes`, as an array. -/
def wordsOf (w0 w1 w2 : BitVec 16) : Fin 3 → BitVec 16
  | 0 => w0
  | 1 => w1
  | 2 => w2

/-- The end of a turn of the polling loop: the plug is watched. -/
def watchKeyboard (v : Vars) : Host Label := do
  let val ← usbRead ctlReg
  if val &&& noDevice ≠ 0 then return .poll v
  let val ← watchPlug 7 val
  if val &&& noDevice ≠ 0 then return .poll v
  return .removed v

/-- The key word goes out. -/
def sendKeys (v : Vars) : Host Label := do
  let w0 ← usbRead 0x051e
  let w1 ← usbRead 0x0520
  let w2 ← usbRead 0x0522
  storeTo .keycode (keyBits (wordsOf w0 w1 w2) &&& 0xFFFF)
  watchKeyboard v

/-- One turn of the loop of a removed keyboard. -/
def waitPlug (v : Vars) : Host Label := do
  let _ ← usbRead ctlReg
  let _ ← usbRead ctlReg
  let val ← usbRead ctlReg
  if val &&& noDevice ≠ 0 then return .hotPlug v
  return .removed v

/-! ## The program -/

/-- The code of `main` behind each label. -/
def code : Label → Host Label
  | .hotPlug v => setup v
  | .initWait v => do
    let status ← read hpiStatus
    if status &&& 0xFFFF = 0 then return .initWait v
    resetBus v
  | .noKeyboard v => do
    let val ← usbRead ctlReg
    if val &&& noDevice ≠ 0 then return .hotPlug v
    return .noKeyboard v
  | .request n v => do
    sendRequest n
    return .requestWait n v
  | .requestWait n v => do
    let status ← read hpiStatus
    if status &&& hpiStatusSie1msgFlag ≠ 0 then return .requestDone n v
    sendRequest n
    return .requestWait n v
  | .requestDone n v => do
    let msg ← readMsg
    if msg ≠ husbTDListDone then return .requestDone n v
    checkRequest n v
  | .retryWait v => do
    let status ← read hpiStatus
    if status &&& hpiStatusSie1msgFlag = 0 then return .retryWait v
    let _ ← readControl
    return .hotPlug v
  | .poll v => do
    let v := { v with toggle := v.toggle + 1 }
    sendTDList (pollWords v)
    return .pollWait v
  | .pollWait v => do
    let status ← read hpiStatus
    if status &&& hpiStatusSie1msgFlag ≠ 0 then return .pollDone v
    sendTDList (pollWords v)
    return .pollWait v
  | .pollDone v => do
    let msg ← readMsg
    if msg ≠ husbTDListDone then return .pollDone v
    sendKeys v
  | .removed v => waitPlug v

/-- The entry of `main`. -/
def start : Driver Label := ioInit.bind fun _ => .pure (.hotPlug ⟨0, 0⟩)

end Main

end FpgaTetris
