/-
The memory of the USB chip, as its host port documents it, and the lists of transfer descriptors that
the software leaves in it: each is a proper list, and the answers of the keyboard do not overwrite it.
-/
import FpgaTetris.Usb.Run
import Mathlib.Logic.Function.Basic

namespace FpgaTetris

open Mmio Mmio.Code

abbrev ChipMem := BitVec 16 → BitVec 16

namespace OtgChip

variable {χ : Type}

/-- The words by which the software and the chip talk: the message, the pointer to the list, and the block
with the list and the answers. -/
def Shared (a : BitVec 16) : Prop :=
  a = Usb.hpiSie1MsgAdr ∨ a = Usb.husbSie1PCurrentTDPtr ∨ 0x500 ≤ a.toNat ∧ a.toNat < 0x600

instance (a : BitVec 16) : Decidable (Shared a) := inferInstanceAs (Decidable (_ ∨ _))

/-- The memory behind the registers: `HPI_ADDR` sets the address, and each access to `HPI_DATA` goes to
the address and takes it on to the next word. The chip itself does not change the shared words then. -/
structure Documented (chip : OtgChip χ) (address : χ → BitVec 16) (mem : χ → ChipMem) : Prop where
  writeAddr : ∀ c d, address (chip.write c 2 d) = d ∧ ∀ x, Shared x → mem (chip.write c 2 d) x = mem c x
  writeData : ∀ c d, address (chip.write c 0 d) = address c + 2 ∧
    ∀ x, Shared x → mem (chip.write c 0 d) x = Function.update (mem c) (address c) d x
  outData : ∀ c, Shared (address c) → chip.out c 0 = mem c (address c)
  readData : ∀ c, address (chip.read c 0) = address c + 2 ∧ ∀ x, Shared x → mem (chip.read c 0) x = mem c x

variable {chip : OtgChip χ} {address : χ → BitVec 16} {mem : χ → ChipMem} (c : χ) (keys : BitVec 32)

/-! ## Accesses -/

theorem run_write (r : BitVec 8) (d : BitVec 16) :
    chip.run (Usb.write r d) c keys = ((), chip.write c (r.setWidth 2) d, keys) := by
  simp [Usb.write, storeTo, run, runOn, device]

theorem run_read (r : BitVec 8) :
    chip.run (Usb.read r) c keys = (chip.out c (r.setWidth 2), chip.read c (r.setWidth 2), keys) := by
  simp [Usb.read, loadFrom, run, runOn, device]

theorem update_congr {m m' : ChipMem} {x : BitVec 16} (h : m x = m' x) (a d : BitVec 16) :
    Function.update m a d x = Function.update m' a d x := by
  rw [Function.update_apply, Function.update_apply, h]

namespace Documented

variable (h : chip.Documented address mem)

include h

theorem usbWrite (a d : BitVec 16) {x : BitVec 16} (hx : Shared x) :
    mem (chip.run (Usb.usbWrite a d) c keys).2.1 x = Function.update (mem c) a d x := by
  unfold Usb.usbWrite
  rw [bind_def, run_bind, run_write, run_write]
  obtain ⟨haddr, hmem⟩ := h.writeAddr c a
  show mem (chip.write (chip.write c 2 a) 0 d) x = _
  rw [(h.writeData _ d).2 x hx, haddr]
  exact update_congr (hmem x hx) a d

/-- What stands in a shared word is read, and the shared words stay. -/
theorem usbRead {a : BitVec 16} (ha : Shared a) :
    let r := chip.run (Usb.usbRead a) c keys
    r.1 = mem c a ∧ ∀ x, Shared x → mem r.2.1 x = mem c x := by
  unfold Usb.usbRead
  rw [bind_def, run_bind, run_write, run_read]
  obtain ⟨haddr, hmem⟩ := h.writeAddr c a
  refine ⟨?_, fun x hx => ?_⟩
  · show chip.out (chip.write c 2 a) 0 = _
    rw [h.outData _ (haddr.symm ▸ ha), haddr, hmem a ha]
  · show mem (chip.read (chip.write c 2 a) 0) x = _
    rw [(h.readData _).2 x hx, hmem x hx]

end Documented

/-! ## Blocks of words -/

/-- Consecutive words in a memory. -/
def writeBlock (m : ChipMem) (a : BitVec 16) : List (BitVec 16) → ChipMem
  | [] => m
  | w :: ws => writeBlock (Function.update m a w) (a + 2) ws

theorem writeBlock_congr {m m' : ChipMem} {x : BitVec 16} (h : m x = m' x) (a : BitVec 16) (ws : List (BitVec 16)) :
    writeBlock m a ws x = writeBlock m' a ws x := by
  induction ws generalizing m m' a with
  | nil => exact h
  | cons w ws ih => exact ih (update_congr h a w) (a + 2)

theorem Documented.writeWords (h : chip.Documented address mem) (ws : List (BitVec 16)) {x : BitVec 16}
    (hx : Shared x) :
    mem (chip.run (Usb.writeWords ws) c keys).2.1 x = writeBlock (mem c) (address c) ws x := by
  induction ws generalizing c with
  | nil => rfl
  | cons w ws ih =>
    unfold Usb.writeWords
    rw [run_bind, run_write]
    obtain ⟨haddr, hmem⟩ := h.writeData c w
    refine (ih (chip.write c 0 w)).trans ?_
    rw [haddr]
    exact writeBlock_congr (hmem x hx) (address c + 2) ws

/-- A list of descriptors in the memory, and the chip pointed to it. -/
theorem Documented.sendTDList (h : chip.Documented address mem) (ws : List (BitVec 16)) {x : BitVec 16}
    (hx : Shared x) :
    mem (chip.run (Usb.sendTDList ws) c keys).2.1 x =
      Function.update (writeBlock (mem c) 0x500 ws) Usb.husbSie1PCurrentTDPtr 0x500 x := by
  unfold Usb.sendTDList
  simp only [bind_def]
  rw [run_bind, run_write, run_bind]
  obtain ⟨haddr, hmem⟩ := h.writeAddr c 0x500
  refine (h.usbWrite _ _ Usb.husbSie1PCurrentTDPtr 0x500 hx).trans (update_congr ?_ _ _)
  refine (h.writeWords (chip.write c 2 0x500) keys ws hx).trans ?_
  rw [haddr]
  exact writeBlock_congr (hmem x hx) 0x500 ws

theorem writeBlock_of_lt {m : ChipMem} {a x : BitVec 16} (ws : List (BitVec 16)) (h : x.toNat < a.toNat)
    (hw : a.toNat + 2 * ws.length ≤ 2 ^ 16) : writeBlock m a ws x = m x := by
  induction ws generalizing m a with
  | nil => rfl
  | cons w ws ih =>
    rw [List.length_cons] at hw
    unfold writeBlock
    by_cases hlast : ws = []
    · subst hlast
      exact Function.update_of_ne (by rintro rfl; omega) ..
    have hlen : 0 < ws.length := List.length_pos_iff.2 hlast
    have ha : (a + 2).toNat = a.toNat + 2 := by bv_omega
    rw [ih (by omega) (by omega)]
    exact Function.update_of_ne (by rintro rfl; omega) ..

/-- The words of a block stand in it in order. -/
theorem writeBlock_get {m : ChipMem} {a : BitVec 16} (ws : List (BitVec 16)) (hw : a.toNat + 2 * ws.length ≤ 2 ^ 16)
    {j : ℕ} (hj : j < ws.length) : writeBlock m a ws (a + 2 * BitVec.ofNat 16 j) = ws[j] := by
  induction ws generalizing m a j with
  | nil => exact absurd hj (Nat.not_lt_zero j)
  | cons w ws ih =>
    rw [List.length_cons] at hw hj
    unfold writeBlock
    cases j with
    | zero =>
      have h0 : a + 2 * BitVec.ofNat 16 0 = a := by simp
      rw [h0]
      -- the words after it are written at higher addresses
      by_cases hlast : ws = []
      · subst hlast
        exact Function.update_self ..
      have hlen : 0 < ws.length := List.length_pos_iff.2 hlast
      have ha : (a + 2).toNat = a.toNat + 2 := by bv_omega
      rw [writeBlock_of_lt ws (by omega) (by omega)]
      exact Function.update_self ..
    | succ j =>
      have ha : (a + 2).toNat = a.toNat + 2 := by bv_omega
      have hnext : a + 2 * BitVec.ofNat 16 (j + 1) = a + 2 + 2 * BitVec.ofNat 16 j := by
        rw [BitVec.ofNat_add, BitVec.mul_add, BitVec.mul_one, BitVec.add_comm (2 * _), BitVec.add_assoc]
      rw [hnext, ih (by omega) (by omega)]
      rfl

end OtgChip

namespace Usb

/-! ## Transfer descriptors -/

/-- A transfer descriptor and where it stands. -/
structure Td where
  address : BitVec 16
  base : BitVec 16
  length : BitVec 16
  pid : BitVec 16
  control : BitVec 16
  retry : BitVec 16
  next : BitVec 16
  deriving DecidableEq, Repr

/-- The descriptor at an address. -/
def Td.at (m : ChipMem) (a : BitVec 16) : Td := ⟨a, m a, m (a + 2), m (a + 4), m (a + 6), m (a + 8), m (a + 10)⟩

/-- The list of descriptors that the chip works off from an address on. -/
inductive TdList (m : ChipMem) : BitVec 16 → List Td → Prop
  | nil : TdList m 0 []
  | cons {a : BitVec 16} {l : List Td} (ha : a ≠ 0) (h : TdList m (Td.at m a).next l) : TdList m a (Td.at m a :: l)

/-- The descriptor at an address, when `ws` stands at `0x0500`. -/
def tdIn (ws : List (BitVec 16)) (a : BitVec 16) : Option Td :=
  let j := (a.toNat - 0x500) / 2
  if 0x500 ≤ a.toNat ∧ a.toNat % 2 = 0 ∧ j + 5 < ws.length then
    some ⟨a, ws.getD j 0, ws.getD (j + 1) 0, ws.getD (j + 2) 0, ws.getD (j + 3) 0, ws.getD (j + 4) 0, ws.getD (j + 5) 0⟩
  else none

/-- The list from an address on, of up to `n` descriptors. -/
def tdsIn (ws : List (BitVec 16)) : ℕ → BitVec 16 → Option (List Td)
  | n, a =>
    if a = 0 then some []
    else match n with
      | 0 => none
      | n + 1 => do
        let td ← tdIn ws a
        let l ← tdsIn ws n td.next
        return td :: l

/-- A memory with `ws` at `0x0500`. -/
def Stores (m : ChipMem) (ws : List (BitVec 16)) : Prop :=
  ∀ j (hj : j < ws.length), m (0x500 + 2 * BitVec.ofNat 16 j) = ws[j]

/-- The same, with the chip pointed to them. -/
def Sent (m : ChipMem) (ws : List (BitVec 16)) : Prop := m husbSie1PCurrentTDPtr = 0x500 ∧ Stores m ws

theorem Stores.tdIn {m : ChipMem} {ws : List (BitVec 16)} (h : Stores m ws) {a : BitVec 16} {td : Td}
    (htd : tdIn ws a = some td) : Td.at m a = td ∧ a ≠ 0 := by
  unfold Usb.tdIn at htd
  simp only [Option.ite_none_right_eq_some, Option.some.injEq] at htd
  obtain ⟨⟨hlow, heven, hlen⟩, rfl⟩ := htd
  generalize hj : (a.toNat - 0x500) / 2 = j at hlen ⊢
  -- the descriptor starts at word `j` of the block, and its six words are in the block
  have hword : ∀ k, k < 6 → m (a + 2 * BitVec.ofNat 16 k) = ws.getD (j + k) 0 := by
    intro k hk
    have ha : a + 2 * BitVec.ofNat 16 k = 0x500 + 2 * BitVec.ofNat 16 (j + k) := by
      have hat : a.toNat = 0x500 + 2 * j := by omega
      have hlt := a.isLt
      bv_omega
    rw [ha, h (j + k) (by omega), List.getD_eq_getElem?_getD, List.getElem?_eq_getElem (by omega)]
    rfl
  refine ⟨?_, fun h0 => ?_⟩
  · have h0 := hword 0 (by omega)
    rw [show a + 2 * BitVec.ofNat 16 0 = a by simp] at h0
    unfold Td.at
    rw [h0, ← hword 1 (by omega), ← hword 2 (by omega), ← hword 3 (by omega), ← hword 4 (by omega),
      ← hword 5 (by omega)]
    rfl
  · rw [h0] at hlow
    exact absurd hlow (by decide)

theorem Stores.tdList {m : ChipMem} {ws : List (BitVec 16)} (h : Stores m ws) {n : ℕ} {a : BitVec 16} {l : List Td}
    (hl : tdsIn ws n a = some l) : TdList m a l := by
  induction n generalizing a l with
  | zero =>
    unfold tdsIn at hl
    split at hl
    · rename_i ha
      cases hl
      exact ha ▸ .nil
    · cases hl
  | succ n ih =>
    unfold tdsIn at hl
    split at hl
    · rename_i ha
      cases hl
      exact ha ▸ .nil
    · cases htd : Usb.tdIn ws a with
      | none => rw [htd] at hl; cases hl
      | some td =>
        rw [htd] at hl
        cases hrest : tdsIn ws n td.next with
        | none => simp [hrest] at hl
        | some rest =>
          simp only [Option.bind_eq_bind, Option.bind_some, hrest] at hl
          cases hl
          obtain ⟨rfl, ha⟩ := h.tdIn htd
          exact .cons ha (ih hrest)

/-- A request in a block that ends before `stop`: a set-up packet of eight bytes from the block with
DATA0, packets with DATA1 and DATA0 in turn, and a last one with DATA1; what comes in goes behind the block. -/
def IsRequest (stop : ℕ) : List Td → Prop
  | [] => False
  | td :: rest =>
    (td.pid &&& 0xF0 = 0xD0 ∧ td.length = 8 ∧ td.control = 0x01 ∧
        td.base = td.address + 12 ∧ td.base.toNat + 8 ≤ stop) ∧
      rest.dropLast.map (·.control) = (List.range (rest.length - 1)).map (fun i => if i % 2 = 0 then 0x41 else 0x01) ∧
      rest.getLast?.map (·.control) = some 0x41 ∧ ∀ td ∈ rest, td.length ≠ 0 → stop ≤ td.base.toNat

instance (stop : ℕ) : (l : List Td) → Decidable (IsRequest stop l)
  | [] => isFalse id
  | _ :: _ => inferInstanceAs (Decidable (_ ∧ _))

theorem isRequest_of_mem {ws : List (BitVec 16)} (h : ws ∈ Main.requests) :
    ∃ l, tdsIn ws 11 0x500 = some l ∧ IsRequest (0x500 + 2 * ws.length) l := by
  have hall : ∀ ws ∈ Main.requests,
      (tdsIn ws 11 0x500).any (fun l => decide (IsRequest (0x500 + 2 * ws.length) l)) = true := by decide +kernel
  have hws := hall ws h
  cases hl : tdsIn ws 11 0x500 with
  | none => rw [hl] at hws; cases hws
  | some l =>
    rw [hl] at hws
    exact ⟨l, rfl, of_decide_eq_true hws⟩

theorem length_of_mem {ws : List (BitVec 16)} (h : ws ∈ Main.requests) : ws.length ≤ 64 := by
  revert ws
  decide

end Usb

namespace OtgChip

/-- What `sendTDList` leaves in the memory. -/
theorem Documented.sent {χ : Type} {chip : OtgChip χ} {address : χ → BitVec 16} {mem : χ → ChipMem}
    (h : chip.Documented address mem) (c : χ) (keys : BitVec 32) {ws : List (BitVec 16)} (hlen : ws.length ≤ 64) :
    Usb.Sent (mem (chip.run (Usb.sendTDList ws) c keys).2.1) ws := by
  refine ⟨?_, fun j hj => ?_⟩
  · rw [h.sendTDList c keys ws (.inr (.inl rfl))]
    exact Function.update_self ..
  · have hword : (0x500 + 2 * BitVec.ofNat 16 j : BitVec 16).toNat = 0x500 + 2 * j := by bv_omega
    rw [h.sendTDList c keys ws (.inr (.inr ⟨by omega, by omega⟩)), Function.update_of_ne]
    · exact writeBlock_get ws (show 1280 + _ ≤ _ by omega) hj
    · -- the pointer lies below the block
      unfold Usb.husbSie1PCurrentTDPtr
      bv_omega

/-! ## A chip -/

/-- The memory after the answer of a keyboard. -/
def answer (report : Fin 3 → BitVec 16) (m : ChipMem) : ChipMem := fun x =>
  if x = Usb.hpiSie1MsgAdr then Usb.husbTDListDone
  else if x = 0x508 then 3
  else if x = 0x51E then report 0
  else if x = 0x520 then report 1
  else if x = 0x522 then report 2
  else m x

/-- A chip with a keyboard that always reports the same keys: when the software looks at the status, the
answer to its list is there. -/
def holding (report : Fin 3 → BitVec 16) : OtgChip (BitVec 16 × ChipMem) where
  write c r d := if r = 2 then (d, c.2) else if r = 0 then (c.1 + 2, Function.update c.2 c.1 d) else c
  read c r := if r = 0 then (c.1 + 2, c.2) else if r = 3 then (c.1, answer report c.2) else c
  out c r :=
    if r = 0 then if c.1 = Main.ctlReg then Main.noDevice else c.2 c.1
    else if r = 1 then Main.commAck
    else if r = 3 then Usb.hpiStatusSie1msgFlag
    else 0
  reset c := c

theorem documented_holding (report : Fin 3 → BitVec 16) : (holding report).Documented Prod.fst Prod.snd := by
  refine ⟨fun _ _ => ⟨rfl, fun _ _ => rfl⟩, fun _ _ => ⟨rfl, fun _ _ => rfl⟩, fun c hc => ?_,
    fun _ => ⟨rfl, fun _ _ => rfl⟩⟩
  refine if_neg fun heq => ?_
  rw [heq] at hc
  exact absurd hc (by decide)

/-- The report of the space bar. -/
def spaceReport : Fin 3 → BitVec 16 := Main.wordsOf 0x002C 0 0

end OtgChip

namespace UsbHost

open OtgChip

variable {κ χ : Type} {latency : ℕ} {chip : OtgChip χ} {inp : ℕ → In}

/-! ## The software on the hardware -/

/-- The hardware refines the software. Once `IO_init` is done, and as long as `Reset_h` stays low, every
cycle is one step of the software with the chip in direct reach, or none; each write and each read shows
at the pins in the cycle of its step, with its register and its data, the chip and the key word are those
of the software throughout, and there is always another step to come. -/
theorem driver_refines (hlat : 3 ≤ latency) (start : κ → Host κ) (chip : OtgChip χ) (s : UsbHost κ χ) (inp : ℕ → In)
    (k : Host κ) (hc : s.cpu.code = ioInit.bind fun _ => driver k) (hr : ∀ t, (inp t).reset = false)
    (hgo : ∀ n, ∃ t, n ≤ t ∧ (inp t).go = true) :
    let tr := (design latency (driver ∘ start) chip).trace s inp
    ∃ (a : ℕ) (f : ℕ → HostState κ χ), f a = ⟨k, (tr a).chip, s.ports.keycode⟩ ∧
      (∀ t, a ≤ t → Lts.Next (HostState.Step start chip) ((tr t).event chip (inp t)) (f t) (f (t + 1)) ∧
        (tr (t + 1)).chip = (f (t + 1)).chip ∧ (tr (t + 1)).ports.keycode = (f (t + 1)).keycode) ∧
      ∀ t, ∃ u, t ≤ u ∧ ((tr u).event chip (inp u)).isSome := by
  intro tr
  obtain ⟨a, -, ha⟩ := exists_ready hgo hr hc
  obtain ⟨f, hfa, hf⟩ := (simulates hlat start chip).run_always s ha fun t _ => hr t
  refine ⟨a, f, hfa, fun t ht => ?_, exists_event hgo⟩
  have hrun := (hf (t + 1) (Nat.le_succ_of_le ht)).1.running
  exact ⟨(hf t ht).2, hrun.chip, hrun.keycode⟩

/-- `main` from power-up, with a keyboard that holds the space bar. -/
theorem driver_refines_main :
    let chip := holding spaceReport
    let inp : ℕ → In := fun _ => ⟨false, true, 0⟩
    let tr := (design 6 (driver ∘ Main.code) chip).trace (powerUp Main.start (0, fun _ => 0)) inp
    ∃ (a : ℕ) (f : ℕ → HostState Main.Label (BitVec 16 × ChipMem)), f a = ⟨.pure (.hotPlug ⟨0, 0⟩), (tr a).chip, 0⟩ ∧
      (∀ t, a ≤ t → Lts.Next (HostState.Step Main.code chip) ((tr t).event chip (inp t)) (f t) (f (t + 1)) ∧
        (tr (t + 1)).chip = (f (t + 1)).chip ∧ (tr (t + 1)).ports.keycode = (f (t + 1)).keycode) ∧
      ∀ t, ∃ u, t ≤ u ∧ ((tr u).event chip (inp u)).isSome :=
  driver_refines (by omega) Main.code (holding spaceReport) _ _ _ rfl (fun _ => rfl) fun n => ⟨n, le_rfl, rfl⟩

end UsbHost

end FpgaTetris
