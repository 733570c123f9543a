/-
The space bar. Its key word resets the hardware, and with it the interface through which the software
reads the keyboard: the software finds zeros only, takes the keyboard for removed, and never sends
another key word, so the console stays in its reset for ever.
-/
import FpgaTetris.Hdl.Console
import FpgaTetris.Piece.Shape
import FpgaTetris.Usb.Polling

namespace FpgaTetris

open Mmio Mmio.Code

namespace Main

open Usb

/-! ## The software without the chip -/

/-- Code that, as long as it reads zeros from the chip, sends no key word and waits for a keyboard then. -/
abbrev Frozen (c : Host Label) : Prop :=
  c.Safe (fun p _ _ => p ≠ .keycode) (fun p v => p ≠ .keycode → v = 0) fun l => ∃ v, l = .removed v

theorem frozen_usbRead (address : BitVec 16) :
    (usbRead address).Safe (fun p _ _ => p ≠ .keycode) (fun p v => p ≠ .keycode → v = 0) fun d => d = 0 :=
  ⟨by simp, fun v hv => by rw [hv (by simp)]; rfl⟩

theorem frozen_watchPlug (n : ℕ) :
    (watchPlug n 0).Safe (fun p _ _ => p ≠ .keycode) (fun p v => p ≠ .keycode → v = 0) fun d => d = 0 := by
  induction n with
  | zero => rfl
  | succ n ih =>
    refine (frozen_usbRead _).bind (fun _ _ _ hp => hp) ?_
    rintro d rfl
    exact ih

theorem frozen_watchKeyboard (v : Vars) : Frozen (watchKeyboard v) := by
  refine (frozen_usbRead _).bind (fun _ _ _ hp => hp) ?_
  rintro d rfl
  refine (frozen_watchPlug 7).bind (fun _ _ _ hp => hp) ?_
  rintro d rfl
  exact ⟨v, rfl⟩

theorem frozen_waitPlug (v : Vars) : Frozen (waitPlug v) := by
  refine (frozen_usbRead _).bind (fun _ _ _ hp => hp) fun _ _ => ?_
  refine (frozen_usbRead _).bind (fun _ _ _ hp => hp) fun _ _ => ?_
  refine (frozen_usbRead _).bind (fun _ _ _ hp => hp) ?_
  rintro d rfl
  exact ⟨v, rfl⟩

/-- The same on the ports. -/
abbrev FrozenDriver (c : Driver Label) : Prop :=
  c.Safe (fun p _ _ => p ≠ .keycode) (fun p v => p = .otgHpiData → v = 0) fun l => ∃ v, l = .removed v

theorem Frozen.driver {c : Host Label} (h : Frozen c) : FrozenDriver (driver c) := by
  refine safe_driver (G := fun _ _ => False) (h.mono (fun _ _ _ hp => hp) (fun p v hv hp => ?_) fun _ hl => hl)
    (fun _ _ hG => hG.elim) fun _ _ _ hp => hp
  cases p with
  | hpi address =>
    obtain ⟨w, hw, rfl⟩ := hv
    rw [hw rfl]
    rfl
  | keycode => exact absurd rfl hp

end Main

theorem Board.boardArr_next_reset (oor : OutOfRange) (s : Board) {i : Board.In} (h : i.reset = true) :
    (s.next oor i).boardArr = fun _ => .empty := by
  unfold next
  rw [if_pos h]

namespace Console

open Main

variable {χ : Type} {oor : OutOfRange} {latency : ℕ} {chip : OtgChip χ} {s : Console Label χ} {i : In}

/-! ## The wedge -/

/-- `n` cycles after the key word has come: the reset, the sample of the interface and the port follow it
one after the other, and the software does not read before. -/
structure Wedged (word : BitVec 32) (n : ℕ) (s : Console Label χ) : Prop where
  word : s.keycode = word
  code : FrozenDriver s.usb.cpu.code
  stores : s.usb.cpu.code.StoresFirst (3 - n)
  reset : 1 ≤ n → s.resetH = true
  sample : 2 ≤ n → s.usb.hpi.fromSwDataIn = 0
  port : 3 ≤ n → s.usb.ports.readdata = 0

/-- Without a store to it the key word stays. -/
theorem keycode_next_of_not_stored (h : ∀ v, s.usb.cpu.stored i.go ≠ some (.keycode, v)) :
    (s.next oor latency (driver ∘ Main.code) chip i).keycode = s.keycode := by
  show (NiosPorts.next _ (s.usb.cpu.stored i.go) _).keycode = _
  unfold NiosPorts.next
  cases hs : s.usb.cpu.stored i.go with
  | none => rfl
  | some pv =>
    obtain ⟨p, v⟩ := pv
    cases p with
    | keycode => exact absurd hs (h v)
    | _ => rfl

/-- Before the reset has gone through, the next access is a store; after that, loads find zero. -/
theorem Wedged.load {word : BitVec 32} {n : ℕ} (h : Wedged word n s) {p : NiosPort} {k : BitVec 32 → Driver Label}
    (hcode : s.usb.cpu.code = .load p k) (hp : p = .otgHpiData) : s.usb.ports.read p = 0 := by
  subst hp
  by_cases hn : 3 ≤ n
  · exact h.port hn
  · obtain ⟨m, hm⟩ : ∃ m, 3 - n = m + 1 := ⟨2 - n, by omega⟩
    have hstores := h.stores
    rw [hcode, hm] at hstores
    exact absurd hstores id

theorem Wedged.next {word : BitVec 32} (hspace : spaceRst word = true) {n : ℕ} (h : Wedged word n s) :
    Wedged word (n + 1) (s.next oor latency (driver ∘ Main.code) chip i) := by
  constructor
  case word =>
    rw [keycode_next_of_not_stored fun v hv => ?_]
    · exact h.word
    · obtain ⟨k, hcode⟩ := Cpu.exists_of_stored hv
      have hsafe := h.code
      rw [hcode] at hsafe
      exact hsafe.1 rfl
  case code =>
    refine Cpu.safe_next h.code ?_ fun p k hcode hp => h.load hcode hp
    rintro l ⟨v, rfl⟩
    exact (frozen_waitPlug v).driver
  case stores =>
    show (Cpu.next latency (driver ∘ Main.code) s.usb.cpu s.usb.ports.read i.go).code.StoresFirst (3 - (n + 1))
    by_cases hn : 3 ≤ n
    · rw [show 3 - (n + 1) = 0 by omega]
      trivial
    · have hstores := h.stores
      rw [show 3 - n = 3 - (n + 1) + 1 by omega] at hstores
      exact Cpu.storesFirst_next hstores
  case reset =>
    intro _
    show (!i.key0 || spaceRst s.keycode) = true
    rw [h.word, hspace, Bool.or_true]
  case sample =>
    intro hn
    show (HpiIoIntf.next (s.usb.hpiIn chip ⟨s.resetH, i.go, i.idle⟩)).fromSwDataIn = 0
    rw [h.reset (Nat.le_of_succ_le_succ hn)]
    rfl
  case port =>
    intro hn
    show s.usb.hpi.fromSwDataIn.setWidth 32 = 0
    rw [h.sample (Nat.le_of_succ_le_succ hn)]
    rfl

/-! ## Whole runs -/

/-- The software is as `main` says, and once the key word has the space bar in it, the console is on its
way into the wedge. -/
structure Runs (s : Console Label χ) : Prop where
  code : SoundDriver s.usb.cpu.code
  wedged : spaceRst s.keycode = true → ∃ n, Wedged s.keycode n s

theorem Runs.next (h : Runs s) : Runs (s.next oor latency (driver ∘ Main.code) chip i) := by
  refine ⟨Cpu.safe_next h.code (fun l hl => (sound_code_valid hl).driver) fun _ _ _ => trivial, fun hspace => ?_⟩
  by_cases hold : spaceRst s.keycode = true
  · obtain ⟨n, hn⟩ := h.wedged hold
    -- a wedged console stays wedged, one cycle further
    have hnext : Wedged s.keycode (n + 1) (s.next oor latency (driver ∘ Main.code) chip i) := hn.next hold
    exact ⟨n + 1, hnext.word.symm ▸ hnext⟩
  · -- the key word has just been sent
    have hstored : ∃ v, s.usb.cpu.stored i.go = some (.keycode, v) := by
      by_contra hno
      push Not at hno
      rw [keycode_next_of_not_stored hno] at hspace
      exact hold hspace
    obtain ⟨v, hv⟩ := hstored
    obtain ⟨k, hcode⟩ := Cpu.exists_of_stored hv
    have hsafe := h.code
    rw [hcode] at hsafe
    obtain ⟨-, vars, rfl⟩ := hsafe.1 rfl
    have hnext : (s.next oor latency (driver ∘ Main.code) chip i).usb.cpu.code = driver (watchKeyboard vars) :=
      Cpu.next_of_stored hv hcode
    refine ⟨0, rfl, ?_, ?_, fun h => absurd h (by omega), fun h => absurd h (by omega), fun h => absurd h (by omega)⟩
    · rw [hnext]
      exact (frozen_watchKeyboard vars).driver
    · rw [hnext]
      trivial

theorem Runs.trace {inp : ℕ → In} (h : Runs s) (t : ℕ) :
    Runs ((design oor latency (driver ∘ Main.code) chip).trace s inp t) := by
  induction t with
  | zero => exact h
  | succ t ih => exact ih.next

theorem Wedged.trace {inp : ℕ → In} {word : BitVec 32} (hspace : spaceRst word = true) {n t : ℕ}
    (h : Wedged word n ((design oor latency (driver ∘ Main.code) chip).trace s inp t)) (u : ℕ) :
    Wedged word (n + u) ((design oor latency (driver ∘ Main.code) chip).trace s inp (t + u)) := by
  induction u with
  | zero => exact h
  | succ u ih => exact ih.next hspace

/-- The space bar is final. In every run of `main` from power-up, with any chip, any pace of the processor
and any use of the push button: once the key word has the bit of the space bar, it never changes again,
and from the next cycle on `Reset_h` stays high, with both boards empty from the cycle after that. -/
theorem space_wedges (s : Console Label χ) (inp : ℕ → In) (hcode : s.usb.cpu.code = Main.start)
    (hkeys : spaceRst s.keycode = false) {t : ℕ} :
    let tr := (design oor latency (driver ∘ Main.code) chip).trace s inp
    spaceRst (tr t).keycode = true → ∀ u, t ≤ u →
      (tr u).keycode = (tr t).keycode ∧ (t < u → (tr u).resetH = true) ∧
        (t + 1 < u → (tr u).game1.board.boardArr = (fun _ => .empty) ∧
          (tr u).game2.board.boardArr = fun _ => .empty) := by
  intro tr hspace u htu
  have hruns : Runs (tr t) := Runs.trace ⟨by rw [hcode]; exact sound_start, fun h => by rw [hkeys] at h; cases h⟩ t
  obtain ⟨n, hn⟩ := hruns.wedged hspace
  obtain ⟨k, rfl⟩ := Nat.exists_eq_add_of_le htu
  have hlater : Wedged (tr t).keycode (n + k) (tr (t + k)) := hn.trace hspace k
  refine ⟨hlater.word, fun hlt => hlater.reset (by omega), fun hlt => ?_⟩
  obtain ⟨m, rfl⟩ : ∃ m, k = m + 1 + 1 := ⟨k - 2, by omega⟩
  have hreset : (tr (t + (m + 1))).resetH = true := (hn.trace hspace (m + 1)).reset (by omega)
  exact ⟨Board.boardArr_next_reset oor _ hreset, Board.boardArr_next_reset oor _ hreset⟩

/-! ## The space bar gets through -/

/-- The inputs of the USB side without a reset. -/
def usbIn (inp : ℕ → In) (t : ℕ) : UsbHost.In := ⟨false, (inp t).go, (inp t).idle⟩

section Held

variable {inp : ℕ → In} (hkey0 : ∀ t, (inp t).key0 = true) (hreset : s.resetH = false)

include hkey0 hreset

/-- As long as neither the button nor the key word calls for a reset, there is none, and the USB side runs
as it does alone. -/
theorem usb_trace {t : ℕ}
    (hno : ∀ u, u < t → spaceRst ((design oor latency (driver ∘ Main.code) chip).trace s inp u).keycode = false) :
    let tr := (design oor latency (driver ∘ Main.code) chip).trace s inp
    (tr t).resetH = false ∧
      (tr t).usb = (UsbHost.design latency (driver ∘ Main.code) chip).trace s.usb (usbIn inp) t := by
  induction t with
  | zero => exact ⟨hreset, rfl⟩
  | succ t ih =>
    obtain ⟨hlow, husb⟩ := ih fun u hu => hno u (Nat.lt_succ_of_lt hu)
    constructor
    · show (!(inp t).key0 || spaceRst _) = false
      rw [hkey0 t, hno t (Nat.lt_succ_self t)]
      rfl
    · show UsbHost.next latency _ chip _ ⟨_, (inp t).go, (inp t).idle⟩ = _
      rw [husb, hlow]
      rfl

/-- With a keyboard that holds the space bar the key word gets its bit. -/
theorem exists_space {address : χ → BitVec 16} {mem : χ → ChipMem} {report : Fin 3 → BitVec 16} (hlat : 3 ≤ latency)
    (hchip : Answers chip address mem report) (hgo : ∀ n, ∃ t, n ≤ t ∧ (inp t).go = true)
    (hspace : spaceRst (keyBits report &&& 0xFFFF) = true) (hcode : s.usb.cpu.code = Main.start) :
    ∃ t, spaceRst ((design oor latency (driver ∘ Main.code) chip).trace s inp t).keycode = true := by
  by_contra hno
  have hno : ∀ t, spaceRst ((design oor latency (driver ∘ Main.code) chip).trace s inp t).keycode = false := fun t =>
    Bool.eq_false_iff.2 fun ht => hno ⟨t, ht⟩
  have hr : ∀ t, (usbIn inp t).reset = false := fun _ => rfl
  obtain ⟨b, l, c, hb, -, -⟩ := UsbHost.exists_first_polled hlat hr hgo hcode hchip
  rw [← (usb_trace hkey0 hreset fun u _ => hno u).2] at hb
  have hkeys : ((design oor latency (driver ∘ Main.code) chip).trace s inp b).keycode = keyBits report &&& 0xFFFF :=
    hb.running.keycode
  have hlow := hno b
  rw [hkeys, hspace] at hlow
  cases hlow

end Held

/-- The space bar is held from power-up on. -/
theorem space_wedges_held :
    let tr := (design someReads 6 (driver ∘ Main.code) (OtgChip.holding OtgChip.spaceReport)).trace
      (powerUp Main.start (0, fun _ => 0)) fun _ => ⟨true, true, true, 0⟩
    ∃ t, spaceRst (tr t).keycode = true ∧ ∀ u, t ≤ u →
      (tr u).keycode = (tr t).keycode ∧ (t < u → (tr u).resetH = true) ∧
        (t + 1 < u → (tr u).game1.board.boardArr = (fun _ => .empty) ∧
          (tr u).game2.board.boardArr = fun _ => .empty) := by
  intro tr
  have hexists : ∃ t, spaceRst (tr t).keycode = true :=
    exists_space (fun _ => rfl) rfl (by omega) (answers_holding OtgChip.spaceReport) (fun n => ⟨n, le_rfl, rfl⟩)
      (by decide) rfl
  obtain ⟨t, ht⟩ := hexists
  exact ⟨t, ht, space_wedges _ _ rfl (by decide) ht⟩

end Console

end FpgaTetris
