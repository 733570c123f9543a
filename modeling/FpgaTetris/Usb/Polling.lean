/-
From the keyboard to the port of the key word. What the software sends is always the report that stands in
the memory of the chip; and with a chip that answers, the set-up ends and the port gets the report.
-/
import FpgaTetris.Usb.Memory
import Mathlib.Tactic.FinCases

namespace FpgaTetris

open Mmio Mmio.Code

namespace OtgChip

variable {α χ : Type} {chip : OtgChip χ} {address : χ → BitVec 16} {mem : χ → ChipMem}
  {Q : HostPort → BitVec 32 → χ × BitVec 32 → Prop} {s : χ × BitVec 32}

/-! ## Rules -/

/-- Code that sends no key word leaves the one there is, and nothing is said of the chip. -/
theorem wp_of_safe {m : Host α} {post₀ : α → Prop} {post : α → χ × BitVec 32 → Prop}
    (hm : m.Safe (fun p _ _ => p ≠ .keycode) (fun _ _ => True) post₀) (hQ : ∀ p v s, p ≠ .keycode → Q p v s)
    (hpost : ∀ a c, post₀ a → post a (c, s.2)) : m.Wp chip.device Q post s := by
  refine hm.wp (I := fun s' => s'.2 = s.2) rfl (fun p v _ s' hp hs => ⟨hQ p v s' hp, ?_⟩)
    (fun p s' hs => ⟨trivial, ?_⟩) ?_
  · cases p with
    | hpi a => exact hs
    | keycode => exact absurd rfl hp
  · cases p <;> exact hs
  · rintro a ⟨c, keys⟩ ha rfl
    exact hpost a c ha

theorem wp_skip {β : Type} {m : Host α} {f : α → Host β} {post : β → χ × BitVec 32 → Prop} (hm : Quiet m)
    (hQ : ∀ p v s, p ≠ .keycode → Q p v s) (hf : ∀ a c, (f a).Wp chip.device Q post (c, s.2)) :
    (m.bind f).Wp chip.device Q post s :=
  Wp.bind (wp_of_safe hm hQ fun a c _ => hf a c)

theorem wp_write (hQ : ∀ p v s, p ≠ .keycode → Q p v s) (r : BitVec 8) (d : BitVec 16) :
    (Usb.write r d).Wp chip.device Q (fun _ s' => s' = (chip.write s.1 (r.setWidth 2) d, s.2)) s := by
  refine ⟨hQ _ _ _ (by simp), ?_⟩
  simp [device, Wp]

theorem wp_read (r : BitVec 8) :
    (Usb.read r).Wp chip.device Q
      (fun d s' => d = chip.out s.1 (r.setWidth 2) ∧ s' = (chip.read s.1 (r.setWidth 2), s.2)) s := by
  simp [Usb.read, loadFrom, device, Wp]

variable (h : chip.Documented address mem) (hQ : ∀ p v s, p ≠ .keycode → Q p v s)

include h hQ

theorem Documented.wp_usbRead {a : BitVec 16} (ha : Shared a) :
    (Usb.usbRead a).Wp chip.device Q
      (fun d s' => d = mem s.1 a ∧ (∀ x, Shared x → mem s'.1 x = mem s.1 x) ∧ s'.2 = s.2) s := by
  have hkeys : (Usb.usbRead a).Wp chip.device Q (fun _ s' => s'.2 = s.2) s :=
    wp_of_safe (Usb.quiet_usbRead a) hQ fun _ _ _ => rfl
  refine (hkeys.mono fun _ _ _ => trivial).of_runOn ?_
  obtain ⟨hd, hmem⟩ := h.usbRead s.1 s.2 ha
  exact ⟨hd, hmem, hkeys.runOn⟩

theorem Documented.wp_usbWrite (a d : BitVec 16) :
    (Usb.usbWrite a d).Wp chip.device Q
      (fun _ s' => (∀ x, Shared x → mem s'.1 x = Function.update (mem s.1) a d x) ∧ s'.2 = s.2) s := by
  have hkeys : (Usb.usbWrite a d).Wp chip.device Q (fun _ s' => s'.2 = s.2) s :=
    wp_of_safe (Usb.quiet_usbWrite a d) hQ fun _ _ _ => rfl
  refine (hkeys.mono fun _ _ _ => trivial).of_runOn ?_
  exact ⟨fun x hx => h.usbWrite s.1 s.2 a d hx, hkeys.runOn⟩

end OtgChip

namespace Main

open OtgChip Usb

variable {χ : Type} {chip : OtgChip χ} {address : χ → BitVec 16} {mem : χ → ChipMem}
  {Q : HostPort → BitVec 32 → χ × BitVec 32 → Prop} {s : χ × BitVec 32}

/-! ## Key words are reports -/

/-- The key word of the report in a memory. -/
def reported (m : ChipMem) : BitVec 32 := keyBits (wordsOf (m 0x51E) (m 0x520) (m 0x522)) &&& 0xFFFF

/-- `sendKeys`, up to what the plug says. -/
theorem wp_sendKeys (h : chip.Documented address mem) (hQ : ∀ p v s, p ≠ .keycode → Q p v s) (v : Vars)
    {post : Label → χ × BitVec 32 → Prop} (hsend : ∀ c, (∀ x, Shared x → mem c x = mem s.1 x) →
      Q .keycode (reported (mem s.1)) (c, s.2) ∧ (watchKeyboard v).Wp chip.device Q post (c, reported (mem s.1))) :
    (sendKeys v).Wp chip.device Q post s := by
  have h1 : Shared 0x51E := by decide
  have h2 : Shared 0x520 := by decide
  have h3 : Shared 0x522 := by decide
  refine Wp.bind ((h.wp_usbRead hQ h1).mono ?_)
  rintro w0 ⟨c0, keys⟩ ⟨rfl, hmem0, rfl⟩
  refine Wp.bind ((h.wp_usbRead hQ h2).mono ?_)
  rintro w1 ⟨c1, keys⟩ ⟨rfl, hmem1, rfl⟩
  refine Wp.bind ((h.wp_usbRead hQ h3).mono ?_)
  rintro w2 ⟨c2, keys⟩ ⟨rfl, hmem2, rfl⟩
  -- no read changes a shared word, so the three words are of one report
  have hword : keyBits (wordsOf (mem s.1 0x51E) (mem c0 0x520) (mem c1 0x522)) &&& 0xFFFF = reported (mem s.1) := by
    rw [hmem0 _ h2, hmem1 _ h3, hmem0 _ h3]
    rfl
  have hsend := hsend c2 fun x hx => by rw [hmem2 x hx, hmem1 x hx, hmem0 x hx]
  rw [← hword] at hsend
  exact hsend

/-- Whatever the chip answers, a key word that is sent is the report in its memory. -/
theorem wp_code_reported (h : chip.Documented address mem) (l : Label) (s : χ × BitVec 32) :
    (code l).Wp chip.device (fun p v s => p = .keycode → v = reported (mem s.1)) (fun _ _ => True) s := by
  have hQ : ∀ (p : HostPort) (v : BitVec 32) (s : χ × BitVec 32), p ≠ .keycode → p = .keycode →
      v = reported (mem s.1) := fun p v s hp heq => absurd heq hp
  by_cases hpoll : ∃ v, l = .pollDone v
  · obtain ⟨v, rfl⟩ := hpoll
    refine Wp.bind (wp_of_safe quiet_readMsg hQ fun msg c _ => ?_)
    split
    · trivial
    · refine wp_sendKeys h hQ v fun c' hmem => ⟨fun _ => ?_, wp_of_safe (leads_watchKeyboard v) hQ fun _ _ _ => trivial⟩
      unfold reported
      rw [hmem _ (by decide), hmem _ (by decide), hmem _ (by decide)]
  · exact wp_of_safe (leads_code fun v hv => hpoll ⟨v, hv⟩) hQ fun _ _ _ => trivial

/-! ## A chip that answers -/

/-- What a chip with a keyboard does when all goes well: after a look at the status, the answer to the last
list and the report of the keyboard are in the memory. -/
structure Answers (chip : OtgChip χ) (address : χ → BitVec 16) (mem : χ → ChipMem) (report : Fin 3 → BitVec 16) :
    Prop where
  documented : chip.Documented address mem
  mailbox : ∀ c, chip.out c 1 = commAck
  status : ∀ c, chip.out c 3 &&& hpiStatusSie1msgFlag ≠ 0
  plug : ∀ c, address c = ctlReg → chip.out c 0 &&& noDevice ≠ 0
  message : ∀ c, mem (chip.read c 3) hpiSie1MsgAdr = husbTDListDone
  control : ∀ c, mem (chip.read c 3) 0x508 = 3
  keys : ∀ c, reported (mem (chip.read c 3)) = keyBits report &&& 0xFFFF

theorem answers_holding (report : Fin 3 → BitVec 16) : Answers (holding report) Prod.fst Prod.snd report where
  documented := documented_holding report
  mailbox _ := rfl
  status _ := show hpiStatusSie1msgFlag &&& hpiStatusSie1msgFlag ≠ 0 by decide
  plug c hc := by
    have hout : (holding report).out c 0 = noDevice := if_pos hc
    rw [hout]
    decide
  message _ := rfl
  control _ := rfl
  keys _ := by
    have hwords : wordsOf (report 0) (report 1) (report 2) = report := by
      funext k
      fin_cases k <;> rfl
    show keyBits (wordsOf (report 0) (report 1) (report 2)) &&& 0xFFFF = _
    rw [hwords]

/-- The labels of a set-up that goes well, with what is in the memory then. -/
def OnPath (report : Fin 3 → BitVec 16) (m : ChipMem) : Label → Prop
  | .hotPlug _ | .initWait _ | .poll _ | .pollWait _ => True
  | .request n _ | .requestWait n _ => n < requests.length
  | .requestDone n _ => n < requests.length ∧ m hpiSie1MsgAdr = husbTDListDone ∧ m 0x508 = 3
  | .pollDone _ => m hpiSie1MsgAdr = husbTDListDone ∧ reported m = keyBits report &&& 0xFFFF
  | .noKeyboard _ | .retryWait _ | .removed _ => False

/-- How far it is to the end of a poll. -/
def rank : Label → ℕ
  | .hotPlug _ => 40
  | .initWait _ => 39
  | .request n _ => 38 - 3 * n
  | .requestWait n _ => 37 - 3 * n
  | .requestDone n _ => 36 - 3 * n
  | .poll _ => 2
  | .pollWait _ => 1
  | .pollDone _ => 0
  | .noKeyboard _ | .retryWait _ | .removed _ => 0

/-- What the code of a label leads to: nearer to the end of a poll, or from there to the next one, with the
key word of the report. -/
def Advances (mem : χ → ChipMem) (report : Fin 3 → BitVec 16) (l : Label) (keys : BitVec 32) (l' : Label)
    (s : χ × BitVec 32) : Prop :=
  OnPath report (mem s.1) l' ∧
    (rank l' < rank l ∧ s.2 = keys ∨ rank l = 0 ∧ rank l' = 2 ∧ s.2 = keyBits report &&& 0xFFFF)

section Labels

variable {report : Fin 3 → BitVec 16} (h : Answers chip address mem report) (hQ : ∀ p v s, p ≠ .keycode → Q p v s)

theorem ne_zero_of_and {x y : BitVec 16} (hxy : x &&& y ≠ 0) : x &&& 0xFFFF ≠ 0 := by
  intro hx
  rw [show (0xFFFF : BitVec 16) = BitVec.allOnes 16 from rfl, BitVec.and_allOnes] at hx
  rw [hx] at hxy
  exact hxy BitVec.zero_and

include h

theorem Answers.wp_status :
    (read hpiStatus).Wp chip.device Q (fun d s' => d &&& hpiStatusSie1msgFlag ≠ 0 ∧ s' = (chip.read s.1 3, s.2)) s :=
  (wp_read hpiStatus).mono fun _ _ hd => ⟨hd.1 ▸ h.status s.1, hd.2⟩

theorem Answers.wp_mailbox :
    (read hpiMailbox).Wp chip.device Q (fun d s' => d = commAck ∧ s'.2 = s.2) s :=
  (wp_read hpiMailbox).mono fun _ _ hd => ⟨hd.1.trans (h.mailbox s.1), by rw [hd.2]⟩

include hQ

theorem Answers.wp_plug :
    (usbRead ctlReg).Wp chip.device Q (fun d s' => d &&& noDevice ≠ 0 ∧ s'.2 = s.2) s := by
  refine Wp.bind ((wp_write hQ hpiAddr ctlReg).mono ?_)
  rintro - s' rfl
  refine (wp_read hpiData).mono ?_
  rintro d s' ⟨rfl, rfl⟩
  exact ⟨h.plug _ (h.documented.writeAddr s.1 ctlReg).1, rfl⟩

theorem Answers.wp_control (hc : mem s.1 0x508 = 3) :
    readControl.Wp chip.device Q (fun d s' => d = 3 ∧ s'.2 = s.2) s := by
  refine Wp.bind ((wp_write hQ hpiAddr 0x0508).mono ?_)
  rintro - s' rfl
  refine (wp_read hpiData).mono ?_
  rintro d s' ⟨rfl, rfl⟩
  obtain ⟨haddr, hmem⟩ := h.documented.writeAddr s.1 0x508
  have h508 : Shared 0x508 := by decide
  refine ⟨?_, rfl⟩
  show chip.out (chip.write s.1 2 0x508) 0 = 3
  rw [h.documented.outData _ (haddr.symm ▸ h508), haddr, hmem _ h508, hc]

/-- The message is there, and reading it changes no other shared word. -/
theorem Answers.wp_readMsg (hc : mem s.1 hpiSie1MsgAdr = husbTDListDone) :
    readMsg.Wp chip.device Q (fun d s' => d = husbTDListDone ∧
      (∀ x, Shared x → x ≠ hpiSie1MsgAdr → mem s'.1 x = mem s.1 x) ∧ s'.2 = s.2) s := by
  refine Wp.bind ((h.documented.wp_usbRead hQ (by decide)).mono ?_)
  rintro d ⟨c, keys⟩ ⟨rfl, hmem, rfl⟩
  refine Wp.bind ((h.documented.wp_usbWrite hQ hpiSie1MsgAdr 0).mono ?_)
  rintro - ⟨c', keys⟩ ⟨hmem', rfl⟩
  refine ⟨hc, fun x hx hne => ?_, rfl⟩
  show mem c' x = _
  rw [hmem' x hx, Function.update_of_ne hne, hmem x hx]

omit h in
theorem wp_setup (v : Vars) {post : Label → χ × BitVec 32 → Prop} (hpost : ∀ c, post (.initWait v) (c, s.2)) :
    (setup v).Wp chip.device Q post s := by
  refine wp_skip quiet_usbSoftReset hQ fun _ _ => wp_skip (quiet_usbWrite ..) hQ fun _ _ => ?_
  refine wp_skip (quiet_usbWrite ..) hQ fun _ _ => wp_skip (quiet_usbWrite ..) hQ fun _ _ => ?_
  refine wp_skip (quiet_usbWrite ..) hQ fun _ _ => wp_skip (quiet_usbWrite ..) hQ fun _ _ => ?_
  refine wp_skip (quiet_clearRegs _) hQ fun _ _ => wp_skip (quiet_usbWrite ..) hQ fun _ _ => ?_
  exact wp_skip (quiet_write ..) hQ fun _ c => hpost c

theorem Answers.wp_resetBus (v : Vars) {post : Label → χ × BitVec 32 → Prop}
    (hpost : ∀ c, post (.request 0 v) (c, s.2)) : (resetBus v).Wp chip.device Q post s := by
  refine Wp.bind (h.wp_mailbox.mono ?_)
  rintro _ ⟨c, keys⟩ ⟨rfl, rfl⟩
  rw [if_neg (by simp)]
  refine wp_skip (quiet_usbWrite ..) hQ fun _ _ => wp_skip (quiet_usbWrite ..) hQ fun _ _ => ?_
  refine wp_skip (quiet_clearRegs _) hQ fun _ _ => wp_skip (quiet_write ..) hQ fun _ _ => ?_
  refine Wp.bind (h.wp_mailbox.mono ?_)
  rintro _ ⟨c, keys⟩ ⟨rfl, rfl⟩
  rw [if_neg (by simp)]
  refine Wp.bind ((h.wp_plug hQ).mono ?_)
  rintro val ⟨c, keys⟩ ⟨hval, rfl⟩
  rw [if_pos hval]
  exact hpost c

theorem Answers.wp_checkRequest (hc : mem s.1 0x508 = 3) (n : ℕ) (v : Vars) {post : Label → χ × BitVec 32 → Prop}
    (hnext : ∀ v c, n + 1 < requests.length → post (.request (n + 1) v) (c, s.2))
    (hpoll : ∀ c, n + 1 = requests.length → post (.poll v) (c, s.2)) (hn : n < requests.length) :
    (checkRequest n v).Wp chip.device Q post s := by
  refine Wp.bind ((wp_write hQ hpiAddr 0x0506).mono ?_)
  rintro - s' rfl
  refine Wp.bind ((wp_read hpiData).mono ?_)
  rintro - s' ⟨-, rfl⟩
  have h508 : Shared 0x508 := by decide
  -- setting the address and reading the word back leave the control word alone
  have hmem : mem (chip.read (chip.write s.1 2 0x0506) 0) 0x508 = 3 := by
    rw [(h.documented.readData _).2 _ h508, (h.documented.writeAddr _ _).2 _ h508, hc]
  refine Wp.bind ((h.wp_control hQ hmem).mono ?_)
  rintro val ⟨c, keys⟩ ⟨rfl, rfl⟩
  rw [if_neg (by simp)]
  split
  · rename_i h4
    subst h4
    exact wp_skip quiet_endpoint hQ fun _ c => hnext _ c (by decide)
  split
  · exact hnext v c ‹_›
  · exact hpoll c (by omega)

theorem Answers.wp_watchKeyboard (v : Vars) {post : Label → χ × BitVec 32 → Prop}
    (hpost : ∀ c, post (.poll v) (c, s.2)) : (watchKeyboard v).Wp chip.device Q post s := by
  refine Wp.bind ((h.wp_plug hQ).mono ?_)
  rintro val ⟨c, keys⟩ ⟨hval, rfl⟩
  rw [if_pos hval]
  exact hpost c

omit hQ in
/-- From each label of the path the code goes on along it, and it sends the report only. -/
theorem Answers.wp_code {l : Label} (hl : OnPath report (mem s.1) l) :
    (code l).Wp chip.device (fun p v _ => p = .keycode → v = keyBits report &&& 0xFFFF)
      (Advances mem report l s.2) s := by
  have hQ : ∀ (p : HostPort) (v : BitVec 32) (_ : χ × BitVec 32), p ≠ .keycode → p = .keycode →
      v = keyBits report &&& 0xFFFF := fun p v _ hp heq => absurd heq hp
  have hlen : requests.length = 9 := rfl
  cases l with
  | hotPlug v => exact wp_setup hQ v fun _ => ⟨trivial, .inl ⟨by simp [rank], rfl⟩⟩
  | initWait v =>
    refine Wp.bind (h.wp_status.mono ?_)
    rintro status s' ⟨hstatus, rfl⟩
    rw [if_neg (ne_zero_of_and hstatus)]
    exact h.wp_resetBus hQ v fun _ => ⟨by simp [OnPath, hlen], .inl ⟨by simp [rank], rfl⟩⟩
  -- the labels for a missing keyboard and for a failed request are off the path
  | noKeyboard v => exact hl.elim
  | request n v =>
    have hn : n < requests.length := hl
    exact wp_skip (quiet_sendTDList _) hQ fun _ _ => ⟨hn, .inl ⟨by simp only [rank]; omega, rfl⟩⟩
  | requestWait n v =>
    have hn : n < requests.length := hl
    refine Wp.bind (h.wp_status.mono ?_)
    rintro status s' ⟨hstatus, rfl⟩
    rw [if_pos hstatus]
    exact ⟨⟨hn, h.message s.1, h.control s.1⟩, .inl ⟨by simp only [rank]; omega, rfl⟩⟩
  | requestDone n v =>
    obtain ⟨hn, hmsg, hctl⟩ := hl
    refine Wp.bind ((h.wp_readMsg hQ hmsg).mono ?_)
    rintro msg ⟨c, keys⟩ ⟨rfl, hmem, rfl⟩
    rw [if_neg (by simp)]
    refine h.wp_checkRequest hQ ((hmem _ (by decide) (by decide)).trans hctl) n v ?_ ?_ hn
    · intro v' c' hnext
      exact ⟨hnext, .inl ⟨by simp only [rank]; omega, rfl⟩⟩
    · intro c' hlast
      exact ⟨trivial, .inl ⟨by simp only [rank]; omega, rfl⟩⟩
  | retryWait v => exact hl.elim
  | poll v => exact wp_skip (quiet_sendTDList _) hQ fun _ _ => ⟨trivial, .inl ⟨by simp [rank], rfl⟩⟩
  | pollWait v =>
    refine Wp.bind (h.wp_status.mono ?_)
    rintro status s' ⟨hstatus, rfl⟩
    rw [if_pos hstatus]
    exact ⟨⟨h.message s.1, h.keys s.1⟩, .inl ⟨by simp [rank], rfl⟩⟩
  | pollDone v =>
    obtain ⟨hmsg, hkeys⟩ := hl
    refine Wp.bind ((h.wp_readMsg hQ hmsg).mono ?_)
    rintro msg ⟨c, keys⟩ ⟨rfl, hmem, rfl⟩
    rw [if_neg (by simp)]
    -- reading the message has left the report in the memory
    have hreport : reported (mem c) = keyBits report &&& 0xFFFF := by
      rw [← hkeys]
      unfold reported
      rw [hmem _ (by decide) (by decide), hmem _ (by decide) (by decide), hmem _ (by decide) (by decide)]
    refine wp_sendKeys h.documented hQ v fun c' _ => ⟨fun _ => hreport, h.wp_watchKeyboard hQ v fun _ => ?_⟩
    exact ⟨trivial, .inr ⟨rfl, rfl, hreport⟩⟩
  | removed v => exact hl.elim

end Labels

end Main

namespace UsbHost

open OtgChip

variable {χ : Type} {latency : ℕ} {chip : OtgChip χ} {inp : ℕ → In} {address : χ → BitVec 16} {mem : χ → ChipMem}
  {s : UsbHost Main.Label χ}

/-! ## Whole runs -/

section Run

variable (hlat : 3 ≤ latency) (hr : ∀ t, (inp t).reset = false) (hgo : ∀ n, ∃ t, n ≤ t ∧ (inp t).go = true)
  (hc : s.cpu.code = Main.start)

include hlat hr hgo hc

omit hc in
/-- From a label of the path the software comes to the end of a poll. -/
theorem exists_polled {report : Fin 3 → BitVec 16} (hchip : Main.Answers chip address mem report) {a : ℕ}
    {l : Main.Label} {c : χ} {keys : BitVec 32}
    (h : Follows latency chip ((design latency (driver ∘ Main.code) chip).trace s inp a) ⟨.pure l, c, keys⟩)
    (hl : ((design latency (driver ∘ Main.code) chip).trace s inp a).cpu.code = .pure l)
    (hpath : Main.OnPath report (mem c) l) :
    ∃ b l' c', Follows latency chip ((design latency (driver ∘ Main.code) chip).trace s inp b)
        ⟨.pure l', c', keyBits report &&& 0xFFFF⟩ ∧
      ((design latency (driver ∘ Main.code) chip).trace s inp b).cpu.code = .pure l' ∧
      Main.OnPath report (mem c') l' ∧ Main.rank l' = 2 := by
  induction hrank : Main.rank l using Nat.strong_induction_on generalizing a l c keys with
  | _ n ih =>
    obtain ⟨b, -, hcode, hb⟩ := exists_result_of_pure hlat hr hgo Main.code h hl
    obtain ⟨hpath', hadv⟩ : Main.Advances mem report l keys _ _ := (hchip.wp_code (s := (c, keys)) hpath).runOn
    -- the code of each label brings the end of the poll nearer, or is its end
    rcases hadv with ⟨hless, -⟩ | ⟨-, hpoll, hkeys⟩
    · exact ih _ (hrank ▸ hless) hb hcode hpath' rfl
    · refine ⟨b, _, _, ?_, hcode, hpath', hpoll⟩
      rw [← hkeys]
      exact hb

/-- From power-up the software comes to the end of a poll. -/
theorem exists_first_polled {report : Fin 3 → BitVec 16} (hchip : Main.Answers chip address mem report) :
    ∃ b l c, Follows latency chip ((design latency (driver ∘ Main.code) chip).trace s inp b)
        ⟨.pure l, c, keyBits report &&& 0xFFFF⟩ ∧
      ((design latency (driver ∘ Main.code) chip).trace s inp b).cpu.code = .pure l ∧
      Main.OnPath report (mem c) l ∧ Main.rank l = 2 := by
  obtain ⟨a, -, ha⟩ := exists_ready hgo hr (k := .pure (Main.Label.hotPlug ⟨0, 0⟩)) hc
  obtain ⟨a', -, hstart, hfirst⟩ := exists_result hlat hr hgo Main.code ha
  exact exists_polled hlat hr hgo hchip hfirst hstart trivial

/-- Key words are reports. In every run of `main` from power-up, whatever the chip answers, when the port of the
key word changes it gets the key word of the report that stands in the memory of the chip at that time. -/
theorem key_words_reported (hchip : chip.Documented address mem) (t : ℕ) :
    let tr := (design latency (driver ∘ Main.code) chip).trace s inp
    (tr (t + 1)).ports.keycode = (tr t).ports.keycode ∨
      (tr (t + 1)).ports.keycode = Main.reported (mem (tr t).chip) := by
  intro tr
  obtain ⟨a, hstart, ha⟩ := exists_ready hgo hr (k := .pure (Main.Label.hotPlug ⟨0, 0⟩)) hc
  -- during `IO_init` nothing is sent
  rcases lt_or_ge t a with hta | ht
  · exact .inl ((hstart.keycode (t + 1) hta).trans (hstart.keycode t (le_of_lt hta)).symm)
  obtain ⟨f, hfa, hf⟩ := (simulates hlat Main.code chip).run_always s ha fun t _ => hr t
  have hbody : ∀ (l : Main.Label) (s : χ × BitVec 32), True → (Main.code l).Wp chip.device
      (fun p v s => p = .keycode → v = Main.reported (mem s.1)) (fun _ _ => True) s :=
    fun l s _ => Main.wp_code_reported hchip l s
  -- whatever the code of a label still has to do, it sends no other word than the report
  have hmeets : (f t).code.Wp chip.device (fun p v s => p = .keycode → v = Main.reported (mem s.1))
      (fun _ _ => True) ((f t).chip, (f t).keycode) := by
    refine Lts.invariant_of_next (P := fun g : HostState Main.Label χ => g.code.Wp chip.device _ _ (g.chip, g.keycode))
      (fun _ _ _ h hg => (h.wp hbody hg).1) ?_ (fun t ht => (hf t ht).2) ht
    rw [hfa]
    trivial
  have hnext : Lts.Next (HostState.Step Main.code chip) ((tr t).event chip (inp t)) (f t) (f (t + 1)) := (hf t ht).2
  rw [(hf (t + 1) (Nat.le_succ_of_le ht)).1.running.keycode,
    show (tr t).ports.keycode = _ from (hf t ht).1.running.keycode,
    show (tr t).chip = _ from (hf t ht).1.running.chip]
  cases hevent : (tr t).event chip (inp t) with
  | none =>
    rw [hevent] at hnext
    exact .inl (congrArg HostState.keycode hnext)
  | some e =>
    rw [hevent] at hnext
    rcases (hnext.wp hbody hmeets).2 with hsame | hnew
    · exact .inl hsame
    · exact .inr (hnew rfl)

omit hlat hr hgo hc in
/-- `main` from power-up, with a keyboard that holds the space bar: the port changes some time. -/
theorem key_words_reported_main :
    let tr := (design 6 (driver ∘ Main.code) (holding spaceReport)).trace (powerUp Main.start (0, fun _ => 0))
      fun _ => ⟨false, true, 0⟩
    ∃ t, (tr (t + 1)).ports.keycode ≠ (tr t).ports.keycode ∧
      (tr (t + 1)).ports.keycode = Main.reported (tr t).chip.2 := by
  intro tr
  have hr : ∀ t : ℕ, (⟨false, true, 0⟩ : In).reset = false := fun _ => rfl
  have hgo : ∀ n : ℕ, ∃ t, n ≤ t ∧ (⟨false, true, 0⟩ : In).go = true := fun n => ⟨n, le_rfl, rfl⟩
  have hlat : 3 ≤ 6 := by decide
  obtain ⟨b, l, c, hb, -, -, -⟩ := exists_first_polled (s := powerUp Main.start (0, fun _ => 0)) hlat hr hgo rfl
    (Main.answers_holding spaceReport)
  have hword : (tr b).ports.keycode ≠ (tr 0).ports.keycode := by
    rw [show (tr b).ports.keycode = _ from hb.running.keycode]
    show keyBits spaceReport &&& 0xFFFF ≠ 0
    decide
  have hchange : ∃ t, (tr (t + 1)).ports.keycode ≠ (tr t).ports.keycode := by
    by_contra hno
    push Not at hno
    exact hword (Sync.Design.trace_phase (fun n : UsbHost Main.Label _ => n.ports.keycode = (tr 0).ports.keycode)
      (Nat.zero_le b) rfl fun t _ _ ht => (hno t).trans ht)
  obtain ⟨t, ht⟩ := hchange
  exact ⟨t, ht, (key_words_reported hlat hr hgo rfl (documented_holding spaceReport) t).resolve_left ht⟩

end Run

end UsbHost

end FpgaTetris
