/-
What the code between two labels of `main` can do: where it ends, what it sends to the hardware as the
key word, and what follows then.
-/
import FpgaTetris.Software.Main

namespace FpgaTetris

open Mmio Mmio.Code

/-! ## Code without the key word -/

/-- Code that sends no key word. -/
abbrev Quiet {α : Type} (c : Host α) : Prop := c.Safe (fun p _ _ => p ≠ .keycode) (fun _ _ => True) fun _ => True

/-! ## Accesses on the ports -/

section Driver

variable {R : NiosPort → BitVec 32 → Prop}

theorem safe_ioInit : ioInit.Safe (fun p _ _ => p ≠ .keycode) R fun _ => True :=
  ⟨by simp, by simp, by simp, by simp, by simp, by simp, by simp, by simp, by simp, by simp, trivial⟩

theorem safe_ioWrite (address : BitVec 8) (data : BitVec 16) :
    (ioWrite address data).Safe (fun p _ _ => p ≠ .keycode) R fun _ => True :=
  ⟨by simp, by simp, by simp, by simp, by simp, by simp, trivial⟩

theorem safe_ioRead (address : BitVec 8) :
    (ioRead address).Safe (fun p _ _ => p ≠ .keycode) R fun d => ∃ v, R .otgHpiData v ∧ d = v.setWidth 16 :=
  ⟨by simp, by simp, by simp, fun v hv => ⟨by simp, by simp, v, hv, rfl⟩⟩

/-- What host code sends as the key word and what it relies on is the same on the ports. -/
theorem safe_driver {α : Type} {c : Host α} {G : BitVec 32 → Host α → Prop} {post : α → Prop}
    {G' : NiosPort → BitVec 32 → Driver α → Prop}
    (h : c.Safe (fun p v k => p = .keycode → G v k)
      (fun p v => match p with
        | .hpi _ => ∃ w, R .otgHpiData w ∧ v = (w.setWidth 16).setWidth 32
        | .keycode => R .keycode v) post)
    (hkey : ∀ v k, G v k → G' .keycode v (driver k)) (hother : ∀ p v k, p ≠ .keycode → G' p v k) :
    (driver c).Safe G' R post := by
  refine h.expand (fun p v k hG hk => ?_) fun p k hk => ?_
  · cases p with
    | hpi address => exact (safe_ioWrite address _).bind (fun p v _ hp => hother p v _ hp) fun _ _ => hk
    | keycode => exact ⟨hkey v k (hG rfl), hk⟩
  · cases p with
    | hpi address =>
      -- a read finds what the port holds, cut to sixteen bits
      show (((ioRead address).bind fun temp => .pure (temp.setWidth 32)).bind fun v => driver (k v)).Safe G' R post
      rw [bind_assoc]
      refine (safe_ioRead address).bind (fun p v _ hp => hother p v _ hp) fun d hd => ?_
      obtain ⟨v, hv, rfl⟩ := hd
      exact hk _ ⟨v, hv, rfl⟩
    | keycode => exact fun v hv => hk v hv

end Driver

namespace Usb

theorem quiet_bind {α β : Type} {c : Host α} {f : α → Host β} (hc : Quiet c) (hf : ∀ a, Quiet (f a)) :
    Quiet (c.bind f) :=
  hc.bind (fun _ _ _ h => h) fun a _ => hf a

theorem quiet_write (address : BitVec 8) (data : BitVec 16) : Quiet (write address data) := ⟨by simp, trivial⟩

theorem quiet_read (address : BitVec 8) : Quiet (read address) := fun _ _ => trivial

theorem quiet_usbWrite (address data : BitVec 16) : Quiet (usbWrite address data) :=
  quiet_bind (quiet_write ..) fun _ => quiet_write ..

theorem quiet_usbRead (address : BitVec 16) : Quiet (usbRead address) :=
  quiet_bind (quiet_write ..) fun _ => quiet_read _

theorem quiet_writeWords (ws : List (BitVec 16)) : Quiet (writeWords ws) := by
  induction ws with
  | nil => trivial
  | cons w ws ih => exact quiet_bind (quiet_write ..) fun _ => ih

theorem quiet_usbSoftReset : Quiet usbSoftReset := by
  refine quiet_bind (quiet_write ..) fun _ => quiet_bind (quiet_read _) fun _ => quiet_bind (quiet_read _) fun _ => ?_
  refine quiet_bind (quiet_usbRead _) fun _ => quiet_bind (quiet_usbWrite ..) fun _ => ?_
  refine quiet_bind (quiet_usbRead _) fun _ => quiet_bind (quiet_usbWrite ..) fun _ => ?_
  exact quiet_bind (quiet_usbWrite ..) fun _ => quiet_usbWrite ..

theorem quiet_sendTDList (ws : List (BitVec 16)) : Quiet (sendTDList ws) :=
  quiet_bind (quiet_write ..) fun _ => quiet_bind (quiet_writeWords ws) fun _ => quiet_usbWrite ..

end Usb

namespace Main

open Usb

theorem quiet_clearRegs (rs : List (BitVec 16)) : Quiet (clearRegs rs) := by
  induction rs with
  | nil => trivial
  | cons r rs ih => exact quiet_bind (quiet_usbWrite ..) fun _ => ih

theorem quiet_watchPlug (n : ℕ) (val : BitVec 16) : Quiet (watchPlug n val) := by
  induction n generalizing val with
  | zero => trivial
  | succ n ih =>
    refine quiet_bind (quiet_usbRead _) fun val => ?_
    split
    · trivial
    · exact ih val

theorem quiet_readMsg : Quiet readMsg :=
  quiet_bind (quiet_usbRead _) fun _ => quiet_bind (quiet_usbWrite ..) fun _ => trivial

theorem quiet_readControl : Quiet readControl := quiet_bind (quiet_write ..) fun _ => quiet_read _

theorem quiet_endpoint : Quiet endpoint := by
  refine quiet_bind (quiet_write ..) fun _ => quiet_bind (quiet_read _) fun _ => quiet_bind (quiet_write ..) fun _ => ?_
  refine quiet_bind (quiet_writeWords _) fun _ => quiet_bind (quiet_usbWrite ..) fun _ => ?_
  exact quiet_bind (quiet_write ..) fun _ => quiet_bind (quiet_read _) fun _ => trivial

/-! ## Labels -/

/-- Where the code of a label can end. -/
inductive Label.Succ : Label → Label → Prop
  | setup (v : Vars) : Succ (.hotPlug v) (.initWait v)
  | initWait (v : Vars) : Succ (.initWait v) (.initWait v)
  | initFailed (v : Vars) : Succ (.initWait v) (.hotPlug v)
  | initDone (v : Vars) : Succ (.initWait v) (.request 0 v)
  | unplugged (v : Vars) : Succ (.initWait v) (.noKeyboard v)
  | noKeyboard (v : Vars) : Succ (.noKeyboard v) (.noKeyboard v)
  | plugged (v : Vars) : Succ (.noKeyboard v) (.hotPlug v)
  | request (n : ℕ) (v : Vars) : Succ (.request n v) (.requestWait n v)
  | requestWait (n : ℕ) (v : Vars) : Succ (.requestWait n v) (.requestWait n v)
  | requestDone (n : ℕ) (v : Vars) : Succ (.requestWait n v) (.requestDone n v)
  | message (n : ℕ) (v : Vars) : Succ (.requestDone n v) (.requestDone n v)
  | requestFailed (n : ℕ) (v : Vars) : Succ (.requestDone n v) (.hotPlug v)
  | retry (n : ℕ) (v : Vars) : Succ (.requestDone n v) (.retryWait v)
  | nextRequest {n : ℕ} (v v' : Vars) (hn : n + 1 < requests.length) (hv : v'.toggle = v.toggle) :
    Succ (.requestDone n v) (.request (n + 1) v')
  | lastRequest {n : ℕ} (v : Vars) (hn : requests.length ≤ n + 1) : Succ (.requestDone n v) (.poll v)
  | retryWait (v : Vars) : Succ (.retryWait v) (.retryWait v)
  | retryDone (v : Vars) : Succ (.retryWait v) (.hotPlug v)
  | poll (v : Vars) : Succ (.poll v) (.pollWait { v with toggle := v.toggle + 1 })
  | pollWait (v : Vars) : Succ (.pollWait v) (.pollWait v)
  | pollDone (v : Vars) : Succ (.pollWait v) (.pollDone v)
  | pollMessage (v : Vars) : Succ (.pollDone v) (.pollDone v)
  | nextPoll (v : Vars) : Succ (.pollDone v) (.poll v)
  | removed (v : Vars) : Succ (.pollDone v) (.removed v)
  | stillRemoved (v : Vars) : Succ (.removed v) (.removed v)
  | back (v : Vars) : Succ (.removed v) (.hotPlug v)

/-- The requests are those of the set-up. -/
def Label.Valid : Label → Prop
  | .request n _ | .requestWait n _ | .requestDone n _ => n < requests.length
  | _ => True

theorem Label.Succ.valid {l l' : Label} (h : l.Succ l') (hl : l.Valid) : l'.Valid := by
  have h0 : 0 < requests.length := by decide
  cases h with
  | initDone => exact h0
  | nextRequest v v' hn => exact hn
  | request | requestWait | requestDone | message => exact hl
  | _ => trivial

/-- Code that sends no key word and ends at a label of `P`. -/
abbrev Leads (P : Label → Prop) (c : Host Label) : Prop := c.Safe (fun p _ _ => p ≠ .keycode) (fun _ _ => True) P

section Leads

variable {P : Label → Prop}

theorem leads_bind {α : Type} {c : Host α} {f : α → Host Label} (hc : Quiet c) (h : ∀ a, Leads P (f a)) :
    Leads P (c.bind f) :=
  hc.bind (fun _ _ _ h => h) fun a _ => h a

theorem leads_ite {p : Prop} [Decidable p] {c d : Host Label} (hc : p → Leads P c) (hd : ¬p → Leads P d) :
    Leads P (if p then c else d) := by
  split
  · exact hc ‹_›
  · exact hd ‹_›

end Leads

theorem leads_setup (v : Vars) : Leads (Label.Succ (.hotPlug v)) (setup v) := by
  refine leads_bind quiet_usbSoftReset fun _ => leads_bind (quiet_usbWrite ..) fun _ => ?_
  refine leads_bind (quiet_usbWrite ..) fun _ => leads_bind (quiet_usbWrite ..) fun _ => ?_
  refine leads_bind (quiet_usbWrite ..) fun _ => leads_bind (quiet_usbWrite ..) fun _ => ?_
  refine leads_bind (quiet_clearRegs _) fun _ => leads_bind (quiet_usbWrite ..) fun _ => ?_
  exact leads_bind (quiet_write ..) fun _ => .setup v

theorem leads_resetBus (v : Vars) : Leads (Label.Succ (.initWait v)) (resetBus v) := by
  refine leads_bind (quiet_read _) fun mail =>
    leads_ite (fun _ => leads_bind (quiet_read _) fun _ => .initFailed v) fun _ => ?_
  refine leads_bind (quiet_usbWrite ..) fun _ => leads_bind (quiet_usbWrite ..) fun _ => ?_
  refine leads_bind (quiet_clearRegs _) fun _ => leads_bind (quiet_write ..) fun _ => ?_
  refine leads_bind (quiet_read _) fun mail =>
    leads_ite (fun _ => leads_bind (quiet_read _) fun _ => .initFailed v) fun _ => ?_
  refine leads_bind (quiet_usbRead _) fun val => leads_ite (fun _ => .initDone v) fun _ => ?_
  exact leads_bind (quiet_watchPlug ..) fun val => leads_ite (fun _ => .initDone v) fun _ => .unplugged v

theorem leads_retry (n : ℕ) (v : Vars) : Leads (Label.Succ (.requestDone n v)) (retry v) := by
  refine leads_bind (quiet_read _) fun _ => leads_bind (quiet_usbRead _) fun msg => leads_ite (fun _ => ?_) fun _ => ?_
  · exact leads_bind (quiet_usbWrite ..) fun _ => .retry n v
  · exact leads_bind quiet_readControl fun _ => .requestFailed n v

theorem leads_checkRequest (n : ℕ) (v : Vars) : Leads (Label.Succ (.requestDone n v)) (checkRequest n v) := by
  refine leads_bind (quiet_write ..) fun _ => leads_bind (quiet_read _) fun _ => ?_
  refine leads_bind quiet_readControl fun val => ?_
  refine leads_ite (fun _ => leads_retry n v) fun _ => leads_ite (fun h4 => ?_) fun _ => ?_
  · subst h4
    exact leads_bind quiet_endpoint fun size => .nextRequest v { v with dataSize := size } (by decide) rfl
  · exact leads_ite (fun h => .nextRequest v v h rfl) fun h => .lastRequest v (not_lt.1 h)

theorem leads_watchKeyboard (v : Vars) : Leads (Label.Succ (.pollDone v)) (watchKeyboard v) := by
  refine leads_bind (quiet_usbRead _) fun val => leads_ite (fun _ => .nextPoll v) fun _ => ?_
  exact leads_bind (quiet_watchPlug ..) fun val => leads_ite (fun _ => .nextPoll v) fun _ => .removed v

/-- Only after a poll a key word is sent. -/
theorem leads_code {l : Label} (hl : ∀ v, l ≠ .pollDone v) : Leads l.Succ (code l) := by
  cases l with
  | hotPlug v => exact leads_setup v
  | initWait v =>
    exact leads_bind (quiet_read _) fun _ => leads_ite (fun _ => .initWait v) fun _ => leads_resetBus v
  | noKeyboard v =>
    exact leads_bind (quiet_usbRead _) fun _ => leads_ite (fun _ => .plugged v) fun _ => .noKeyboard v
  | request n v => exact leads_bind (quiet_sendTDList _) fun _ => .request n v
  | requestWait n v =>
    refine leads_bind (quiet_read _) fun _ => leads_ite (fun _ => .requestDone n v) fun _ => ?_
    exact leads_bind (quiet_sendTDList _) fun _ => .requestWait n v
  | requestDone n v =>
    exact leads_bind quiet_readMsg fun _ => leads_ite (fun _ => .message n v) fun _ => leads_checkRequest n v
  | retryWait v =>
    refine leads_bind (quiet_read _) fun _ => leads_ite (fun _ => .retryWait v) fun _ => ?_
    exact leads_bind quiet_readControl fun _ => .retryDone v
  | poll v => exact leads_bind (quiet_sendTDList _) fun _ => .poll v
  | pollWait v =>
    refine leads_bind (quiet_read _) fun _ => leads_ite (fun _ => .pollDone v) fun _ => ?_
    exact leads_bind (quiet_sendTDList _) fun _ => .pollWait v
  | pollDone v => exact absurd rfl (hl v)
  | removed v =>
    refine leads_bind (quiet_usbRead _) fun _ => leads_bind (quiet_usbRead _) fun _ => ?_
    exact leads_bind (quiet_usbRead _) fun _ => leads_ite (fun _ => .back v) fun _ => .stillRemoved v

/-! ## The key word -/

/-- Code that sends only key words of reports, and watches the plug then. -/
abbrev Sound (P : Label → Prop) (c : Host Label) : Prop :=
  c.Safe (fun p v k => p = .keycode → (∃ w, v = keyBits w &&& 0xFFFF) ∧ ∃ vars, k = watchKeyboard vars)
    (fun _ _ => True) P

theorem Leads.sound {P : Label → Prop} {c : Host Label} (h : Leads P c) : Sound P c :=
  h.mono (fun _ _ _ hp heq => absurd heq hp) (fun _ _ _ => trivial) fun _ hl => hl

theorem sound_bind {P : Label → Prop} {α : Type} {c : Host α} {f : α → Host Label} (hc : Quiet c)
    (h : ∀ a, Sound P (f a)) : Sound P (c.bind f) :=
  hc.bind (fun _ _ _ hp heq => absurd heq hp) fun a _ => h a

theorem sound_sendKeys (v : Vars) : Sound (Label.Succ (.pollDone v)) (sendKeys v) := by
  refine sound_bind (quiet_usbRead _) fun w0 => sound_bind (quiet_usbRead _) fun w1 => ?_
  refine sound_bind (quiet_usbRead _) fun w2 => ?_
  exact ⟨fun _ => ⟨⟨_, rfl⟩, v, rfl⟩, (leads_watchKeyboard v).sound⟩

theorem sound_code (l : Label) : Sound l.Succ (code l) := by
  by_cases hl : ∃ v, l = .pollDone v
  · obtain ⟨v, rfl⟩ := hl
    refine sound_bind quiet_readMsg fun msg => ?_
    split
    · exact .pollMessage v
    · exact sound_sendKeys v
  · exact (leads_code fun v hv => hl ⟨v, hv⟩).sound

theorem sound_code_valid {l : Label} (h : l.Valid) : Sound Label.Valid (code l) :=
  (sound_code l).mono (fun _ _ _ hG => hG) (fun _ _ _ => trivial) fun _ hs => hs.valid h

/-- The same on the ports. -/
abbrev SoundDriver (c : Driver Label) : Prop :=
  c.Safe (fun p v k => p = .keycode → (∃ w, v = keyBits w &&& 0xFFFF) ∧ ∃ vars, k = driver (watchKeyboard vars))
    (fun _ _ => True) Label.Valid

theorem Sound.driver {c : Host Label} (h : Sound Label.Valid c) : SoundDriver (driver c) := by
  refine safe_driver (h.mono (fun _ _ _ hG => hG) (fun _ _ _ => trivial) fun _ hl => hl) (fun v k hG _ => ?_)
    fun p v k hp heq => absurd heq hp
  obtain ⟨hw, vars, rfl⟩ := hG
  exact ⟨hw, vars, rfl⟩

theorem sound_start : SoundDriver start := safe_ioInit.bind (fun _ _ _ hp heq => absurd heq hp) fun _ _ => trivial

end Main

end FpgaTetris
