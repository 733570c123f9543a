/-
Code of the software run to its end on the hardware: it ends, whatever the chip answers, with the value,
the chip and the key word of a run with direct accesses.
-/
import FpgaTetris.Software.Labels
import FpgaTetris.Usb.Refine

namespace FpgaTetris

open Mmio Mmio.Code

/-! ## Runs with direct accesses -/

namespace OtgChip

variable {α β χ : Type} (chip : OtgChip χ)

/-- The chip and the key word as a device. -/
def device : Device HostPort (BitVec 32) (χ × BitVec 32) where
  store s p v :=
    match p with
    | .hpi a => (chip.write s.1 (a.setWidth 2) (v.setWidth 16), s.2)
    | .keycode => (s.1, v)
  load s p :=
    match p with
    | .hpi a => ((chip.out s.1 (a.setWidth 2)).setWidth 32, chip.read s.1 (a.setWidth 2), s.2)
    | .keycode => (s.2, s)

/-- Host code on the chip: the value at the end, the chip and the key word. -/
def run (m : Host α) (c : χ) (keys : BitVec 32) : α × χ × BitVec 32 := m.runOn chip.device (c, keys)

theorem run_bind (m : Host α) (f : α → Host β) (c : χ) (keys : BitVec 32) :
    chip.run (m.bind f) c keys = let r := chip.run m c keys; chip.run (f r.1) r.2.1 r.2.2 :=
  runOn_bind chip.device m f (c, keys)

end OtgChip

/-- What the code of the labels meets is kept by a step, and the key word changes as it says. -/
theorem HostState.Step.wp {κ χ : Type} {body : κ → Host κ} {chip : OtgChip χ} {e : HostEvent} {g g' : HostState κ χ}
    (h : HostState.Step body chip e g g') {Q : HostPort → BitVec 32 → χ × BitVec 32 → Prop}
    {post : κ → χ × BitVec 32 → Prop}
    (hbody : ∀ l s, post l s → (body l).Wp chip.device Q post s)
    (hg : g.code.Wp chip.device Q post (g.chip, g.keycode)) :
    g'.code.Wp chip.device Q post (g'.chip, g'.keycode) ∧
      (g'.keycode = g.keycode ∨ Q .keycode g'.keycode (g.chip, g.keycode)) := by
  cases h with
  | write a v k c keys => exact ⟨hg.2, .inl rfl⟩
  | read a k c keys => exact ⟨hg, .inl rfl⟩
  | sendKeys v k c keys => exact ⟨hg.2, .inr hg.1⟩
  | loadKeys k c keys => exact ⟨hg, .inl rfl⟩
  | jump l c keys => exact ⟨hbody l _ hg, .inl rfl⟩

/-- The software stays as the code of its labels is. -/
theorem HostState.Step.sound {χ : Type} {chip : OtgChip χ} {e : HostEvent} {g g' : HostState Main.Label χ}
    (h : HostState.Step Main.code chip e g g') (hg : Main.Sound Main.Label.Valid g.code) :
    Main.Sound Main.Label.Valid g'.code := by
  cases h with
  | write a v k c keys => exact hg.2
  | read a k c keys => exact hg _ trivial
  | sendKeys v k c keys => exact hg.2
  | loadKeys k c keys => exact hg _ trivial
  | jump l c keys => exact Main.sound_code_valid hg

namespace UsbHost

variable {κ χ : Type} {latency : ℕ} {start : κ → Host κ} {chip : OtgChip χ} {s : UsbHost κ χ} {inp : ℕ → In}
  {g : HostState κ χ} {i : In}

/-! ## Progress -/

section Progress

variable {begin : κ → Driver κ} (hgo : ∀ n, ∃ t, n ≤ t ∧ (inp t).go = true)

/-- As long as no access is made the processor waits. -/
theorem cpu_of_wait {a : ℕ}
    (hwait : ∀ t, a ≤ t → ((design latency begin chip).trace s inp t).cpu.active (inp t).go = false) (n : ℕ) :
    let tr := (design latency begin chip).trace s inp
    (tr (a + n)).cpu = ⟨(tr a).cpu.code, (tr a).cpu.busy - n⟩ := by
  intro tr
  induction n with
  | zero => rfl
  | succ n ih =>
    have hnext : (tr (a + n + 1)).cpu = _ := (next_wait latency begin chip (hwait (a + n) (Nat.le_add_right a n))).1
    rw [← Nat.add_assoc, hnext, show (tr (a + n)).cpu = _ from ih, Nat.sub_sub]

include hgo

/-- The processor goes on for ever. -/
theorem exists_active (a : ℕ) :
    ∃ b, a ≤ b ∧ ((design latency begin chip).trace s inp b).cpu.active (inp b).go = true := by
  by_contra hno
  have hwait : ∀ t, a ≤ t → ((design latency begin chip).trace s inp t).cpu.active (inp t).go = false := fun t ht =>
    Bool.eq_false_iff.2 fun hact => hno ⟨t, ht, hact⟩
  obtain ⟨t, ht, hgo⟩ := hgo (a + ((design latency begin chip).trace s inp a).cpu.busy)
  obtain ⟨n, rfl⟩ := Nat.exists_eq_add_of_le (le_trans (Nat.le_add_right a _) ht)
  have hcpu : ((design latency begin chip).trace s inp (a + n)).cpu = _ := cpu_of_wait hwait n
  refine hno ⟨a + n, Nat.le_add_right a n, ?_⟩
  rw [hcpu, Cpu.active, hgo]
  simp
  omega

/-- The next access: until then the code and the ports stay. -/
theorem exists_next_active (a : ℕ) :
    ∃ b, a ≤ b ∧ (∀ t, a ≤ t → t < b → ((design latency begin chip).trace s inp t).cpu.active (inp t).go = false) ∧
      ((design latency begin chip).trace s inp b).cpu.active (inp b).go = true ∧
      ((design latency begin chip).trace s inp b).cpu.code = ((design latency begin chip).trace s inp a).cpu.code ∧
      ∃ r, ((design latency begin chip).trace s inp b).ports =
        { ((design latency begin chip).trace s inp a).ports with readdata := r } := by
  classical
  have hex : ∃ b, a ≤ b ∧ ((design latency begin chip).trace s inp b).cpu.active (inp b).go = true :=
    exists_active hgo a
  obtain ⟨hab, hact⟩ := Nat.find_spec hex
  have hwait : ∀ t, a ≤ t → t < Nat.find hex →
      ((design latency begin chip).trace s inp t).cpu.active (inp t).go = false := fun t hat htb =>
    Bool.eq_false_iff.2 fun hact => Nat.find_min hex htb ⟨hat, hact⟩
  -- the first cycle from `a` on in which the processor goes on
  refine ⟨Nat.find hex, hab, hwait, hact, ?_⟩
  refine Sync.Design.trace_phase (fun n : UsbHost κ χ =>
    n.cpu.code = ((design latency begin chip).trace s inp a).cpu.code ∧
      ∃ r, n.ports = { ((design latency begin chip).trace s inp a).ports with readdata := r }) hab
    ⟨rfl, _, rfl⟩ fun t hat htb h => ?_
  obtain ⟨hcpu, hports⟩ := next_wait latency begin chip (hwait t hat htb)
  obtain ⟨hcode, r, hr⟩ := h
  exact ⟨(congrArg Cpu.code hcpu).trans hcode, _, hports.trans (by rw [hr])⟩

omit hgo in
/-- Until the next access the code and the key word stay. -/
theorem code_of_wait {a b : ℕ}
    (hwait : ∀ t, a ≤ t → t < b → ((design latency begin chip).trace s inp t).cpu.active (inp t).go = false) {t : ℕ}
    (hat : a ≤ t) (htb : t ≤ b) :
    let tr := (design latency begin chip).trace s inp
    (tr t).cpu.code = (tr a).cpu.code ∧ (tr t).ports.keycode = (tr a).ports.keycode := by
  induction t, hat using Nat.le_induction with
  | base => exact ⟨rfl, rfl⟩
  | succ t hat ih =>
    obtain ⟨hcpu, hports⟩ := next_wait latency begin chip (hwait t hat htb)
    obtain ⟨hcode, hkeys⟩ := ih (Nat.le_of_succ_le htb)
    exact ⟨(congrArg Cpu.code hcpu).trans hcode, (congrArg NiosPorts.keycode hports).trans hkeys⟩

/-- Code without loops ends, whatever its loads find. -/
theorem exists_end (c : Driver κ) (a : ℕ) (hc : ((design latency begin chip).trace s inp a).cpu.code = c) :
    ∃ b, a ≤ b ∧ ∃ l, ((design latency begin chip).trace s inp b).cpu.code = .pure l := by
  induction c generalizing a with
  | pure l => exact ⟨a, le_rfl, l, hc⟩
  | store p v k ih =>
    obtain ⟨b, hab, -, hact, hcode, -⟩ := exists_next_active hgo a
    obtain ⟨e, hbe, hend⟩ := ih (b + 1) (congrArg Cpu.code (next_store latency begin chip hact (hcode.trans hc)).1)
    exact ⟨e, by omega, hend⟩
  | load p k ih =>
    obtain ⟨b, hab, -, hact, hcode, -⟩ := exists_next_active hgo a
    obtain ⟨e, hbe, hend⟩ := ih _ (b + 1) (congrArg Cpu.code (next_load latency begin chip hact (hcode.trans hc)).1)
    exact ⟨e, by omega, hend⟩

omit hgo in
theorem event_isSome_of_pure {l : κ} (hact : s.cpu.active i.go = true) (hl : s.cpu.code = .pure l) :
    (s.event chip i).isSome := by
  unfold event
  rw [hact, hl]
  simp only
  split <;> [rfl; split <;> rfl]

theorem exists_event (a : ℕ) :
    ∃ b, a ≤ b ∧ (((design latency begin chip).trace s inp b).event chip (inp b)).isSome := by
  obtain ⟨e, hae, l, hl⟩ := exists_end hgo _ a rfl
  obtain ⟨b, heb, -, hact, hcode, -⟩ := exists_next_active hgo e
  exact ⟨b, hae.trans heb, event_isSome_of_pure hact (hcode.trans hl)⟩

end Progress

/-! ## Correctness -/

theorem driver_eq_pure {k : Host κ} {l : κ} (h : driver k = .pure l) : k = .pure l := by
  rcases k with l' | ⟨a | _, v, k⟩ | ⟨a | _, k⟩
  · cases h; rfl
  all_goals cases h

theorem active_of_jump (h : s.event chip i = some .jump) : s.cpu.active i.go = true := by
  unfold event at h
  simp only at h
  split at h
  · cases h
  split at h
  · cases h
  split at h
  · assumption
  · cases h

theorem pure_of_jump (h : s.event chip i = some .jump) : ∃ l, s.cpu.code = .pure l := by
  unfold event at h
  simp only at h
  split at h
  · cases h
  split at h
  · cases h
  split at h
  · split at h <;> first | exact ⟨_, ‹_›⟩ | cases h
  · cases h

/-- At its end the code of the software has been left behind, too. -/
theorem Follows.eq_pure (h : Follows latency chip s g) {l : κ} (hl : s.cpu.code = .pure l) : g.code = .pure l := by
  obtain ⟨-, hphase⟩ := h
  generalize g.code = k at hphase
  cases hphase with
  | idle h => exact driver_eq_pure (h.code.symm.trans hl)
  | addressed h => cases h.code.symm.trans hl
  | selected h => cases h.code.symm.trans hl
  | writing h => cases h.code.symm.trans hl
  | data h => cases h.code.symm.trans hl
  | ending h => cases h.code.symm.trans hl
  | written h => cases h.code.symm.trans hl
  | asked h => cases h.code.symm.trans hl
  | lowered h => cases h.code.symm.trans hl
  | reading h => cases h.code.symm.trans hl
  | loaded h => cases h.code.symm.trans hl
  | released h => cases h.code.symm.trans hl
  | taken h => cases h.code.symm.trans hl

theorem run_of_step {e : HostEvent} {g' : HostState κ χ} (h : HostState.Step start chip e g g') (he : e ≠ .jump) :
    chip.run g'.code g'.chip g'.keycode = chip.run g.code g.chip g.keycode := by
  cases h with
  | jump => exact absurd rfl he
  | _ => rfl

/-- A step of the software from the end of a code leads to the code of the label. -/
theorem jump_of_pure {e : HostEvent} {g' : HostState κ χ} {l : κ} (h : HostState.Step start chip e g g')
    (hl : g.code = .pure l) : e = .jump ∧ g' = ⟨start l, g.chip, g.keycode⟩ := by
  cases h with
  | jump => cases hl; exact ⟨rfl, rfl⟩
  | _ => cases hl

section Result

variable (hlat : 3 ≤ latency) (hr : ∀ t, (inp t).reset = false) (hgo : ∀ n, ∃ t, n ≤ t ∧ (inp t).go = true)

include hlat hr hgo

/-- Code of the software ends on the hardware with the result of direct accesses. -/
theorem exists_result (start : κ → Host κ) {a : ℕ}
    (h : Follows latency chip ((design latency (driver ∘ start) chip).trace s inp a) g) :
    let tr := (design latency (driver ∘ start) chip).trace s inp
    let r := chip.run g.code g.chip g.keycode
    ∃ b, a ≤ b ∧ (tr b).cpu.code = .pure r.1 ∧ Follows latency chip (tr b) ⟨.pure r.1, r.2.1, r.2.2⟩ := by
  classical
  intro tr r
  obtain ⟨f, hfa, hf⟩ := (simulates hlat start chip).run_always s h fun t _ => hr t
  have hex : ∃ b, a ≤ b ∧ ∃ l, (tr b).cpu.code = .pure l := exists_end hgo _ a rfl
  obtain ⟨hab, l, hl⟩ := Nat.find_spec hex
  generalize hb : Nat.find hex = b at hab hl
  -- up to the first end nothing jumps, so the result to come stays the same
  have hrun : chip.run (f b).code (f b).chip (f b).keycode = r := by
    have hmin : ∀ t, a ≤ t → t < b → ¬∃ l, (tr t).cpu.code = .pure l := fun t hat htb hend =>
      Nat.find_min hex (hb ▸ htb) ⟨hat, hend⟩
    clear hb hl
    induction b, hab using Nat.le_induction with
    | base => rw [hfa]
    | succ t hat ih =>
      have hnext : Lts.Next (HostState.Step start chip) ((tr t).event chip (inp t)) (f t) (f (t + 1)) := (hf t hat).2
      rw [← ih fun u hau hut => hmin u hau (Nat.lt_succ_of_lt hut)]
      cases hevent : (tr t).event chip (inp t) with
      | none =>
        rw [hevent] at hnext
        have hstay : f (t + 1) = f t := hnext
        rw [hstay]
      | some e =>
        rw [hevent] at hnext
        refine run_of_step hnext ?_
        rintro rfl
        exact hmin t hat (Nat.lt_succ_self t) (pure_of_jump hevent)
  have hend : Follows latency chip (tr b) (f b) := (hf b hab).1
  have hcode := hend.eq_pure hl
  rw [hcode] at hrun
  have hstate : f b = ⟨.pure r.1, r.2.1, r.2.2⟩ := by
    rw [← hrun]
    show f b = ⟨.pure l, (f b).chip, (f b).keycode⟩
    rw [← hcode]
  exact ⟨b, hab, hl.trans (congrArg _ (congrArg Prod.fst hrun)), hstate ▸ hend⟩

/-- From the end of a code the hardware goes on to the end of the code of the label. -/
theorem exists_result_of_pure (start : κ → Host κ) {a : ℕ} {l : κ}
    (h : Follows latency chip ((design latency (driver ∘ start) chip).trace s inp a) g)
    (hl : ((design latency (driver ∘ start) chip).trace s inp a).cpu.code = .pure l) :
    let tr := (design latency (driver ∘ start) chip).trace s inp
    let r := chip.run (start l) g.chip g.keycode
    ∃ b, a ≤ b ∧ (tr b).cpu.code = .pure r.1 ∧ Follows latency chip (tr b) ⟨.pure r.1, r.2.1, r.2.2⟩ := by
  intro tr r
  obtain ⟨b, hab, hwait, hact, hcode, -⟩ := exists_next_active hgo a
  obtain ⟨f, hfa, hf⟩ := (simulates hlat start chip).run_always s h fun t _ => hr t
  have hg : g.code = .pure l := h.eq_pure hl
  -- up to the jump the software stands still
  have hstay : f b = g := by
    clear hact hcode
    induction b, hab using Nat.le_induction with
    | base => exact hfa
    | succ t hat ih =>
      have hft := ih fun u hau hut => hwait u hau (Nat.lt_succ_of_lt hut)
      have hnext : Lts.Next (HostState.Step start chip) ((tr t).event chip (inp t)) (f t) (f (t + 1)) := (hf t hat).2
      rw [hft] at hnext
      cases hevent : (tr t).event chip (inp t) with
      | none =>
        rw [hevent] at hnext
        exact hnext
      | some e =>
        rw [hevent] at hnext
        rw [(jump_of_pure hnext hg).1] at hevent
        have hactive := active_of_jump hevent
        rw [show (tr t).cpu.active (inp t).go = false from hwait t hat (Nat.lt_succ_self t)] at hactive
        cases hactive
  obtain ⟨-, hnext⟩ := hf b hab
  obtain ⟨e, he⟩ := Option.isSome_iff_exists.1 (event_isSome_of_pure hact (hcode.trans hl))
  rw [he, hstay] at hnext
  obtain ⟨t, hbt, ht⟩ := exists_result hlat hr hgo start (hf (b + 1) (by omega)).1
  rw [(jump_of_pure hnext hg).2] at ht
  exact ⟨t, by omega, ht⟩

end Result

/-! ## From power-up -/

section Init

/-- Up to a cycle no code has come to its end, and the key word is the one of cycle 0. -/
structure Starting (tr : ℕ → UsbHost κ χ) (a : ℕ) : Prop where
  code : ∀ t, t < a → ∀ l, (tr t).cpu.code ≠ .pure l
  keycode : ∀ t, t ≤ a → (tr t).ports.keycode = (tr 0).ports.keycode

variable {begin : κ → Driver κ} (hgo : ∀ n, ∃ t, n ≤ t ∧ (inp t).go = true) (hr : ∀ t, (inp t).reset = false)

include hgo hr

/-- A store is made some time, and the pins then show the lines as they were before it. -/
theorem exists_stored {p : NiosPort} {v : BitVec 32} {k : Driver κ} {a : ℕ}
    (h : Starting ((design latency begin chip).trace s inp) a)
    (hc : ((design latency begin chip).trace s inp a).cpu.code = .store p v k) (hp : p ≠ .keycode) :
    let tr := (design latency begin chip).trace s inp
    ∃ b, Starting tr b ∧ (tr b).cpu.code = k ∧ (∃ r, (tr b).ports = { (tr a).ports.write p v with readdata := r }) ∧
      (tr b).hpi.lines = (tr a).ports.lines ∧ (tr b).hpi.otgRstN = (tr a).ports.otgHpiReset := by
  intro tr
  obtain ⟨b, -, hwait, hact, hcode, r, hports⟩ := exists_next_active hgo a
  obtain ⟨hcpu, hports'⟩ := next_store latency begin chip hact (hcode.trans hc)
  have hhpi : (tr (b + 1)).hpi = _ := next_hpi (hr b)
  -- until the store nothing changes, and the store is not one of the key word
  have hstart : Starting tr (b + 1) := by
    refine ⟨fun t ht l hl => ?_, fun t ht => ?_⟩
    · rcases lt_or_ge t a with hta | hat
      · exact h.code t hta l hl
      · rw [show (tr t).cpu.code = _ from (code_of_wait hwait hat (Nat.le_of_lt_succ ht)).1, hc] at hl
        cases hl
    · rcases le_total t a with hta | hat
      · exact h.keycode t hta
      rcases Nat.lt_or_eq_of_le ht with htb | rfl
      · exact (code_of_wait hwait hat (Nat.le_of_lt_succ htb)).2.trans (h.keycode a le_rfl)
      · rw [show (tr (b + 1)).ports = _ from hports', hports, ← h.keycode a le_rfl]
        cases p <;> first | exact absurd rfl hp | rfl
  refine ⟨b + 1, hstart, congrArg Cpu.code hcpu, ⟨(tr b).hpi.fromSwDataIn.setWidth 32, ?_⟩, ?_, ?_⟩
  · rw [show (tr (b + 1)).ports = _ from hports', hports]
    cases p <;> rfl
  · rw [hhpi, hports]
    rfl
  · rw [hhpi, hports]

/-- After `IO_init` the hardware follows the software. -/
theorem exists_ready {k : Host κ} (hc : s.cpu.code = ioInit.bind fun _ => driver k) :
    let tr := (design latency begin chip).trace s inp
    ∃ a, Starting tr a ∧ Follows latency chip (tr a) ⟨k, (tr a).chip, s.ports.keycode⟩ := by
  intro tr
  have n0 : Starting tr 0 :=
    ⟨fun t ht => absurd ht (Nat.not_lt_zero t), fun t ht => by rw [Nat.le_zero.1 ht]⟩
  have h0 : (tr 0).cpu.code = .store .otgHpiReset 1 _ := hc
  -- `IO_init` is ten stores
  obtain ⟨t₁, n₁, h₁, ⟨r₁, p₁⟩, -, -⟩ := exists_stored hgo hr n0 h0 NiosPort.noConfusion
  obtain ⟨t₂, n₂, h₂, ⟨r₂, p₂⟩, -, -⟩ := exists_stored hgo hr n₁ h₁ NiosPort.noConfusion
  obtain ⟨t₃, n₃, h₃, ⟨r₃, p₃⟩, -, -⟩ := exists_stored hgo hr n₂ h₂ NiosPort.noConfusion
  obtain ⟨t₄, n₄, h₄, ⟨r₄, p₄⟩, -, -⟩ := exists_stored hgo hr n₃ h₃ NiosPort.noConfusion
  obtain ⟨t₅, n₅, h₅, ⟨r₅, p₅⟩, -, -⟩ := exists_stored hgo hr n₄ h₄ NiosPort.noConfusion
  obtain ⟨t₆, n₆, h₆, ⟨r₆, p₆⟩, -, -⟩ := exists_stored hgo hr n₅ h₅ NiosPort.noConfusion
  obtain ⟨t₇, n₇, h₇, ⟨r₇, p₇⟩, -, -⟩ := exists_stored hgo hr n₆ h₆ NiosPort.noConfusion
  obtain ⟨t₈, n₈, h₈, ⟨r₈, p₈⟩, -, -⟩ := exists_stored hgo hr n₇ h₇ NiosPort.noConfusion
  obtain ⟨t₉, n₉, h₉, ⟨r₉, p₉⟩, -, -⟩ := exists_stored hgo hr n₈ h₈ NiosPort.noConfusion
  obtain ⟨t, n, h, ⟨r, p⟩, hlines, hrst⟩ := exists_stored hgo hr n₉ h₉ NiosPort.noConfusion
  rw [p₈, p₇, p₆, p₅, p₄, p₃, p₂, p₁] at p₉
  rw [p₉] at p hlines hrst
  refine ⟨t, n, ⟨rfl, ?_, ?_, hrst⟩, .idle ⟨h, ?_, .inr ?_⟩⟩
  · rw [show (tr t).ports = _ from p]; rfl
  · rw [show (tr t).ports = _ from p]; rfl
  · rw [show (tr t).ports = _ from p]; rfl
  · exact ⟨congrArg Lines.wrN hlines, congrArg Lines.rdN hlines⟩

end Init

end UsbHost

end FpgaTetris
