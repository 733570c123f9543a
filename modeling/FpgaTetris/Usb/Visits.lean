/-
The way of `main` through its labels, on the hardware: the set-up makes its requests one after the other,
and each of them gets to the chip; then the keyboard is polled, with DATA0 and DATA1 in turn, and what it
reports gets through.
-/
import FpgaTetris.Usb.Polling

namespace FpgaTetris

open Mmio Mmio.Code

/-- Without a jump, what the code meets is kept by a step. -/
theorem HostState.Step.wp_of_ne_jump {κ χ : Type} {body : κ → Host κ} {chip : OtgChip χ} {e : HostEvent}
    {g g' : HostState κ χ} (h : HostState.Step body chip e g g') (he : e ≠ .jump)
    {Q : HostPort → BitVec 32 → χ × BitVec 32 → Prop} {post : κ → χ × BitVec 32 → Prop}
    (hg : g.code.Wp chip.device Q post (g.chip, g.keycode)) :
    g'.code.Wp chip.device Q post (g'.chip, g'.keycode) := by
  cases h with
  | write a v k c keys => exact hg.2
  | read a k c keys => exact hg
  | sendKeys v k c keys => exact hg.2
  | loadKeys k c keys => exact hg
  | jump l c keys => exact absurd rfl he

namespace UsbHost

open OtgChip

variable {κ χ : Type} {latency : ℕ} {chip : OtgChip χ} {inp : ℕ → In} {s : UsbHost κ χ} {i : In}

/-! ## Visits -/

/-- The label whose code the processor starts in this cycle. -/
def visit (s : UsbHost κ χ) (i : In) : Option κ :=
  if s.cpu.active i.go then
    match s.cpu.code with
    | .pure l => some l
    | _ => none
  else none

theorem visit_eq_some {l : κ} (h : s.visit i = some l) : s.cpu.active i.go = true ∧ s.cpu.code = .pure l := by
  unfold visit at h
  split at h
  · split at h
    · cases h
      exact ⟨‹_›, ‹_›⟩
    · cases h
  · cases h

theorem visit_of_pure {l : κ} (hact : s.cpu.active i.go = true) (hl : s.cpu.code = .pure l) : s.visit i = some l := by
  unfold visit
  rw [if_pos hact, hl]

/-- The labels visited before a cycle. -/
def visits (d : Sync.Design (UsbHost κ χ) In) (s : UsbHost κ χ) (inp : ℕ → In) (t : ℕ) : List κ :=
  d.events s inp visit t

theorem visits_of_starting {d : Sync.Design (UsbHost κ χ) In} {a : ℕ} (h : Starting (d.trace s inp) a) :
    visits d s inp a = [] := by
  refine d.events_of_none s inp (Nat.zero_le a) fun t _ ht => ?_
  exact Option.eq_none_iff_forall_ne_some.2 fun l hl => h.code t ht l (visit_eq_some hl).2

/-- Where no code starts, what the code meets stays; where one starts, it meets what it hands on. -/
theorem wp_next {start : κ → Host κ} {g g' : HostState κ χ} (h : Follows latency chip s g)
    (hnext : Lts.Next (HostState.Step start chip) (s.event chip i) g g')
    {Q : HostPort → BitVec 32 → χ × BitVec 32 → Prop} {post post' : κ → χ × BitVec 32 → Prop}
    (hg : g.code.Wp chip.device Q post (g.chip, g.keycode)) (hnone : s.visit i = none → post' = post)
    (hsome : ∀ l, s.visit i = some l → ∀ c, post l c → (start l).Wp chip.device Q post' c) :
    g'.code.Wp chip.device Q post' (g'.chip, g'.keycode) := by
  cases hv : s.visit i with
  | none =>
    rw [hnone hv]
    cases he : s.event chip i with
    | none =>
      rw [he] at hnext
      have hstay : g' = g := hnext
      rw [hstay]
      exact hg
    | some e =>
      rw [he] at hnext
      refine hnext.wp_of_ne_jump ?_ hg
      -- a jump starts the code of a label, which would be a visit
      rintro rfl
      obtain ⟨l, hl⟩ := pure_of_jump he
      rw [visit_of_pure (active_of_jump he) hl] at hv
      cases hv
  | some l =>
    obtain ⟨hact, hl⟩ := visit_eq_some hv
    have hevent : (s.event chip i).isSome := event_isSome_of_pure hact hl
    obtain ⟨e, he⟩ := Option.isSome_iff_exists.1 hevent
    have hcode : g.code = .pure l := h.eq_pure hl
    rw [he] at hnext
    rw [hcode] at hg
    rw [(jump_of_pure hnext hcode).2]
    exact hsome l hv _ hg

/-- The rule for runs that remember the labels visited: what holds at the first label, and what the code
of each label hands on to the next, holds whenever the processor has come to a label. -/
theorem wp_visits (hlat : 3 ≤ latency) (hr : ∀ t, (inp t).reset = false)
    (hgo : ∀ n, ∃ t, n ≤ t ∧ (inp t).go = true) (start : κ → Host κ)
    {post : List κ → κ → χ × BitVec 32 → Prop}
    (hbody : ∀ ls l c, post ls l c → (start l).Wp chip.device (fun _ _ _ => True) (post (ls ++ [l])) c) {l₀ : κ}
    (hc : s.cpu.code = ioInit.bind fun _ => .pure l₀) (h0 : ∀ c, post [] l₀ c) {t : ℕ} {l : κ} :
    let d := design latency (driver ∘ start) chip
    (d.trace s inp t).cpu.code = .pure l →
      post (visits d s inp t) l ((d.trace s inp t).chip, (d.trace s inp t).ports.keycode) := by
  intro d hl
  obtain ⟨a, hstart, ha⟩ := exists_ready hgo hr (k := .pure l₀) hc
  obtain ⟨f, hfa, hf⟩ := (simulates hlat start chip).run_always s ha fun t _ => hr t
  -- by induction on the cycles from the end of `IO_init` on
  have hmeets : ∀ t, a ≤ t →
      (f t).code.Wp chip.device (fun _ _ _ => True) (post (visits d s inp t)) ((f t).chip, (f t).keycode) := by
    intro t ht
    induction t, ht using Nat.le_induction with
    | base =>
      rw [hfa, visits_of_starting hstart]
      exact h0 _
    | succ t ht ih =>
      have hvisits : visits d s inp (t + 1) = visits d s inp t ++ ((d.trace s inp t).visit (inp t)).toList := rfl
      refine wp_next (hf t ht).1 (hf t ht).2 ih (fun hnone => ?_) fun l hsome c hpost => ?_
      · rw [hvisits, hnone]
        exact congrArg post (List.append_nil _)
      · rw [hvisits, hsome]
        exact hbody _ l c hpost
  -- before the end of `IO_init` the processor has not come to any label
  have hat : a ≤ t := not_lt.1 fun hta => hstart.code t hta l hl
  have hpost := hmeets t hat
  rw [(hf t hat).1.eq_pure hl] at hpost
  rw [show (d.trace s inp t).chip = _ from (hf t hat).1.running.chip,
    show (d.trace s inp t).ports.keycode = _ from (hf t hat).1.running.keycode]
  exact hpost

end UsbHost

namespace Main

variable {χ : Type} {chip : OtgChip χ} {l l' : Label}

/-! ## The set-up -/

/-- The requests made since the set-up was last started. -/
def afterVisit (ns : List ℕ) : Label → List ℕ
  | .hotPlug _ => []
  | .request n _ => ns ++ [n]
  | _ => ns

def requestsMade (ls : List Label) : List ℕ := ls.foldl afterVisit []

theorem requestsMade_append (ls : List Label) (l : Label) : requestsMade (ls ++ [l]) = afterVisit (requestsMade ls) l :=
  List.foldl_concat ..

/-- A request that has been made is one of the labels. -/
theorem exists_of_mem_requestsMade {ls : List Label} {n : ℕ} (h : n ∈ requestsMade ls) : ∃ v, .request n v ∈ ls := by
  induction ls using List.reverseRecOn with
  | nil => cases h
  | append_singleton ls l ih =>
    rw [requestsMade_append] at h
    cases l with
    | hotPlug v => cases h
    | request k v =>
      rcases List.mem_append.1 h with hold | hnew
      · obtain ⟨w, hw⟩ := ih hold
        exact ⟨w, List.mem_append_left _ hw⟩
      · obtain rfl := List.mem_singleton.1 hnew
        exact ⟨v, List.mem_append_right _ (List.mem_singleton_self _)⟩
    | _ =>
      obtain ⟨w, hw⟩ := ih h
      exact ⟨w, List.mem_append_left _ hw⟩

/-- How many requests a label comes after, where it says so. -/
def Label.made : Label → Option ℕ
  | .hotPlug _ | .retryWait _ => none
  | .initWait _ | .noKeyboard _ => some 0
  | .request n _ => some n
  | .requestWait n _ | .requestDone n _ => some (n + 1)
  | .poll _ | .pollWait _ | .pollDone _ | .removed _ => some requests.length

/-- The requests made so far are the first ones of the set-up, in order, as many as the label says. -/
def InOrder (ls : List Label) (l : Label) : Prop :=
  ∃ n, n ≤ requests.length ∧ requestsMade ls = List.range n ∧ ∀ m, l.made = some m → n = m

theorem InOrder.next {ls : List Label} (h : InOrder ls l) (hl : l.Valid) (hs : l.Succ l') : InOrder (ls ++ [l]) l' := by
  obtain ⟨n, hn, hmade, hlabel⟩ := h
  unfold InOrder
  rw [requestsMade_append, hmade]
  cases hs with
  | setup => exact ⟨0, Nat.zero_le _, rfl, fun m hm => Option.some.inj hm⟩
  | request k v =>
    obtain rfl : n = k := hlabel _ rfl
    exact ⟨n + 1, hl, List.range_succ.symm, fun m hm => Option.some.inj hm⟩
  | lastRequest v hlast =>
    have hk := hlabel _ rfl
    exact ⟨n, hn, rfl, fun m hm => by rw [← Option.some.inj hm]; omega⟩
  | initFailed | requestFailed | retry | retryWait | retryDone | plugged | back =>
    exact ⟨n, hn, rfl, fun m hm => nomatch hm⟩
  | _ => exact ⟨n, hn, rfl, fun m hm => (hlabel _ rfl).trans (Option.some.inj hm)⟩

theorem wp_code_succ (l : Label) (s : χ × BitVec 32) :
    (code l).Wp chip.device (fun _ _ _ => True) (fun l' _ => l.Succ l') s :=
  (sound_code l).wp (I := fun _ => True) trivial (fun _ _ _ _ _ _ => ⟨trivial, trivial⟩)
    (fun _ _ _ => ⟨trivial, trivial⟩) fun _ _ hs _ => hs

/-! ## Polls -/

/-- The variables at a label. -/
def Label.vars : Label → Vars
  | .hotPlug v | .initWait v | .noKeyboard v | .request _ v | .requestWait _ v | .requestDone _ v | .retryWait v
  | .poll v | .pollWait v | .pollDone v | .removed v => v

/-- A turn of the polling loop starts here. -/
def Label.isPoll : Label → Bool
  | .poll _ => true
  | _ => false

theorem Label.Succ.toggle (h : l.Succ l') : l'.vars.toggle = l.vars.toggle + if l.isPoll then 1 else 0 := by
  cases h with
  | poll => rfl
  | nextRequest v v' _ hv => exact hv.trans (BitVec.add_zero _).symm
  | _ => exact (BitVec.add_zero _).symm

/-- `toggle` counts the polls, modulo 256, and while a poll is waited for its list is with the chip. -/
structure Counted (mem : χ → ChipMem) (ls : List Label) (l : Label) (s : χ × BitVec 32) : Prop where
  toggle : l.vars.toggle = BitVec.ofNat 8 (ls.countP Label.isPoll)
  sent : ∀ v, l = .pollWait v → Usb.Sent (mem s.1) (pollWords v)

theorem tdsIn_pollWords (v : Vars) :
    Usb.tdsIn (pollWords v) 1 0x500 = some
      [⟨0x500, 0x51C, 0xF &&& v.dataSize.setWidth 16, 0x291, if v.toggle.toNat % 2 = 1 then 0x01 else 0x41, 0x13,
        0⟩] := by
  simp [Usb.tdsIn, Usb.tdIn, pollWords]

theorem countP_append (ls : List Label) (l : Label) :
    (ls ++ [l]).countP Label.isPoll = ls.countP Label.isPoll + if l.isPoll then 1 else 0 := by
  rw [List.countP_append, List.countP_singleton]

section Sent

variable {address : χ → BitVec 16} {mem : χ → ChipMem} (h : chip.Documented address mem)

include h

/-- A poll is sent, and then it is waited for. -/
theorem wp_sendPoll (v : Vars) (s : χ × BitVec 32) :
    ((Usb.sendTDList (pollWords v)).bind fun _ => .pure (Label.pollWait v)).Wp chip.device (fun _ _ _ => True)
      (fun l s => ∀ v, l = .pollWait v → Usb.Sent (mem s.1) (pollWords v)) s := by
  have hall : (Usb.sendTDList (pollWords v)).Wp chip.device (fun _ _ _ => True) (fun _ _ => True) s :=
    (Usb.quiet_sendTDList _).wp (I := fun _ => True) trivial (fun _ _ _ _ _ _ => ⟨trivial, trivial⟩)
      (fun _ _ _ => ⟨trivial, trivial⟩) fun _ _ _ _ => trivial
  refine Wp.bind (hall.of_runOn ?_)
  intro v' hv
  cases hv
  exact h.sent s.1 s.2 (show 6 ≤ 64 by decide)

/-- Where a poll is waited for, it has been sent. -/
theorem wp_code_sent (l : Label) (s : χ × BitVec 32) :
    (code l).Wp chip.device (fun _ _ _ => True)
      (fun l s => ∀ v, l = .pollWait v → Usb.Sent (mem s.1) (pollWords v)) s := by
  by_cases hpoll : ∃ v, l = .poll v ∨ l = .pollWait v
  · obtain ⟨v, rfl | rfl⟩ := hpoll
    · exact wp_sendPoll h _ s
    · refine Wp.bind ((OtgChip.wp_read Usb.hpiStatus).mono fun status s' _ => ?_)
      split
      · exact fun v hv => nomatch hv
      · exact wp_sendPoll h v s'
  · refine (wp_code_succ l s).mono fun l' s' hs v hv => absurd ?_ hpoll
    subst hv
    cases hs with
    | poll v => exact ⟨v, .inl rfl⟩
    | pollWait v => exact ⟨v, .inr rfl⟩

theorem Counted.wp_code {ls : List Label} {l : Label} {s : χ × BitVec 32} (hc : Counted mem ls l s) :
    (code l).Wp chip.device (fun _ _ _ => True) (Counted mem (ls ++ [l])) s := by
  refine ((wp_code_succ l s).and (wp_code_sent h l s)).mono fun l' s' hl' => ⟨?_, hl'.2⟩
  rw [hl'.1.toggle, hc.toggle, countP_append]
  split
  · exact (BitVec.ofNat_add ..).symm
  · exact BitVec.add_zero _

end Sent

/-- The only label of the path with two more to the end of a poll. -/
theorem eq_poll_of_rank {report : Fin 3 → BitVec 16} {m : ChipMem} (h : OnPath report m l) (hr : rank l = 2) :
    ∃ v, l = .poll v := by
  have hlen : requests.length = 9 := rfl
  cases l with
  | poll v => exact ⟨v, rfl⟩
  | request n v => simp only [OnPath, rank] at h hr; omega
  | requestWait n v => simp only [OnPath, rank] at h hr; omega
  | requestDone n v => simp only [OnPath, rank] at h hr; omega
  | hotPlug | initWait | pollWait | pollDone => cases hr
  | noKeyboard | retryWait | removed => exact h.elim

end Main

namespace UsbHost

open OtgChip

variable {χ : Type} {latency : ℕ} {chip : OtgChip χ} {inp : ℕ → In} {address : χ → BitVec 16} {mem : χ → ChipMem}

/-! ## Whole runs -/

section Run

variable (hlat : 3 ≤ latency) (hr : ∀ t, (inp t).reset = false) (hgo : ∀ n, ∃ t, n ≤ t ∧ (inp t).go = true)

include hlat hr hgo

/-- Whenever the processor has come to a label, the set-up is in order. -/
theorem inOrder_of_pure {s : UsbHost Main.Label χ} (hc : s.cpu.code = Main.start) {t : ℕ} {l : Main.Label}
    (hl : ((design latency (driver ∘ Main.code) chip).trace s inp t).cpu.code = .pure l) :
    l.Valid ∧ Main.InOrder (visits (design latency (driver ∘ Main.code) chip) s inp t) l := by
  let post : List Main.Label → Main.Label → χ × BitVec 32 → Prop := fun ls l _ => l.Valid ∧ Main.InOrder ls l
  have hbody : ∀ ls l c, post ls l c → (Main.code l).Wp chip.device (fun _ _ _ => True) (post (ls ++ [l])) c :=
    fun ls l c h => (Main.wp_code_succ l c).mono fun l' c' hs => ⟨hs.valid h.1, h.2.next h.1 hs⟩
  exact wp_visits hlat hr hgo Main.code hbody hc
    (fun _ => ⟨trivial, 0, Nat.zero_le _, rfl, fun m hm => nomatch hm⟩) hl

/-- The set-up goes in order. In every run of `main` from power-up, whatever the chip answers: whenever the
processor has come to a label, the requests made since the last start of the set-up are the first ones of
the list, one after the other, as many as the label says, and all nine of them at each poll. -/
theorem set_up_in_order (s : UsbHost Main.Label χ) (hc : s.cpu.code = Main.start) (t : ℕ) (l : Main.Label) :
    let d := design latency (driver ∘ Main.code) chip
    (d.trace s inp t).cpu.code = .pure l →
      (∃ n, n ≤ Main.requests.length ∧ Main.requestsMade (visits d s inp t) = List.range n) ∧
        ∀ m, l.made = some m → Main.requestsMade (visits d s inp t) = List.range m := by
  intro d hl
  obtain ⟨-, n, hn, hmade, hlabel⟩ := inOrder_of_pure hlat hr hgo hc hl
  refine ⟨⟨n, hn, hmade⟩, fun m hm => ?_⟩
  rw [← hlabel m hm]
  exact hmade

/-- Each request of the set-up gets to the chip. In every run of `main` from power-up, when the processor has
come to a request, its next code ends with the words of this request in the memory of the chip and the chip
pointed to them; and they are a list of descriptors that is a proper request and is not overwritten by the
answer. -/
theorem request_delivered (s : UsbHost Main.Label χ) (hchip : chip.Documented address mem)
    (hc : s.cpu.code = Main.start) (t n : ℕ) (v : Main.Vars) :
    let tr := (design latency (driver ∘ Main.code) chip).trace s inp
    (tr t).cpu.code = .pure (.request n v) →
      ∃ ws, Main.requests[n]? = some ws ∧ ∃ b, t ≤ b ∧ (tr b).cpu.code = .pure (.requestWait n v) ∧
        Usb.Sent (mem (tr b).chip) ws ∧
        ∃ l, Usb.TdList (mem (tr b).chip) 0x500 l ∧ Usb.IsRequest (0x500 + 2 * ws.length) l := by
  intro tr hcode
  have hn : n < Main.requests.length := (inOrder_of_pure hlat hr hgo hc hcode).1
  refine ⟨Main.requests[n], List.getElem?_eq_getElem hn, ?_⟩
  have hws : Main.requests.getD n [] = Main.requests[n] := by
    rw [List.getD_eq_getElem?_getD, List.getElem?_eq_getElem hn]
    rfl
  have hmem : Main.requests[n] ∈ Main.requests := List.getElem_mem hn
  generalize Main.requests[n] = ws at hws hmem
  -- the code of the label, run on the chip in direct reach, sends the words
  have hrun : ∀ c keys, chip.run (Main.code (.request n v)) c keys =
      let r := chip.run (Usb.sendTDList ws) c keys
      (Main.Label.requestWait n v, r.2.1, r.2.2) := by
    intro c keys
    rw [← hws]
    exact chip.run_bind (Usb.sendTDList (Main.requests.getD n [])) (fun _ => .pure (Main.Label.requestWait n v)) c keys
  obtain ⟨a, hstart, ha⟩ := exists_ready hgo hr (k := .pure (Main.Label.hotPlug ⟨0, 0⟩)) hc
  -- the label is not reached before `IO_init` is done
  have hat : a ≤ t := not_lt.1 fun hta => hstart.code t hta _ hcode
  obtain ⟨f, -, hf⟩ := (simulates hlat Main.code chip).run_always s ha fun t _ => hr t
  obtain ⟨b, htb, hend, hb⟩ := exists_result_of_pure hlat hr hgo Main.code (hf t hat).1 hcode
  rw [hrun] at hend hb
  have hsent : Usb.Sent (mem (tr b).chip) ws := by
    rw [show (tr b).chip = _ from hb.running.chip]
    exact hchip.sent (f t).chip (f t).keycode (Usb.length_of_mem hmem)
  obtain ⟨l, hl, hreq⟩ := Usb.isRequest_of_mem hmem
  exact ⟨b, htb, hend, hsent, l, hsent.2.tdList hl, hreq⟩

/-- The polls take turns. In every run of `main` from power-up: while the end of a poll is waited for, the
chip is pointed to a list of one descriptor in its memory, for a report from the first endpoint, with DATA1
and DATA0 in turn by the number of the poll, however often the list is sent again. -/
theorem polls_alternate (s : UsbHost Main.Label χ) (hchip : chip.Documented address mem)
    (hc : s.cpu.code = Main.start) (t : ℕ) (v : Main.Vars) :
    let d := design latency (driver ∘ Main.code) chip
    let n := (visits d s inp t).countP Main.Label.isPoll
    (d.trace s inp t).cpu.code = .pure (.pollWait v) →
      mem (d.trace s inp t).chip Usb.husbSie1PCurrentTDPtr = 0x500 ∧
        Usb.TdList (mem (d.trace s inp t).chip) 0x500
          [⟨0x500, 0x51C, 0xF &&& v.dataSize.setWidth 16, 0x291, if n % 2 = 1 then 0x01 else 0x41, 0x13, 0⟩] := by
  intro d n hl
  have hcounted : Main.Counted mem (visits d s inp t) (.pollWait v) _ :=
    wp_visits hlat hr hgo Main.code (fun ls l c h => h.wp_code hchip) hc
      (fun _ => ⟨rfl, fun v hv => nomatch hv⟩) hl
  obtain ⟨hpointer, hstores⟩ := hcounted.sent v rfl
  -- the counter of eight bits keeps the parity of the polls
  have htoggle : v.toggle.toNat % 2 = n % 2 := by
    rw [show v.toggle = BitVec.ofNat 8 n from hcounted.toggle, BitVec.toNat_ofNat]
    omega
  refine ⟨hpointer, hstores.tdList (n := 1) ?_⟩
  rw [← htoggle]
  exact Main.tdsIn_pollWords v

/-- With a chip that answers there is a poll, after all requests. -/
theorem exists_pollWait {report : Fin 3 → BitVec 16} (hchip : Main.Answers chip address mem report)
    {s : UsbHost Main.Label χ} (hc : s.cpu.code = Main.start) :
    ∃ t v, ((design latency (driver ∘ Main.code) chip).trace s inp t).cpu.code = .pure (.pollWait v) := by
  obtain ⟨b, l, c, hb, hcode, hpath, hrank⟩ := exists_first_polled hlat hr hgo hc hchip
  obtain ⟨v, rfl⟩ := Main.eq_poll_of_rank hpath hrank
  obtain ⟨t, -, hend, -⟩ := exists_result_of_pure hlat hr hgo Main.code hb hcode
  refine ⟨t, ?_⟩
  have hsucc : (Main.Label.poll v).Succ (chip.run (Main.code (.poll v)) c (keyBits report &&& 0xFFFF)).1 :=
    (Main.wp_code_succ (.poll v) (c, keyBits report &&& 0xFFFF)).runOn
  rw [hend]
  refine ⟨{ v with toggle := v.toggle + 1 }, congrArg _ ?_⟩
  dsimp only
  generalize (chip.run (Main.code (.poll v)) c (keyBits report &&& 0xFFFF)).1 = l at hsucc
  cases hsucc with
  | poll v => rfl

end Run

/-- `main` from power-up, with a keyboard that holds the space bar, comes to a poll. -/
theorem exists_pollWait_main :
    ∃ t v, ((design 6 (driver ∘ Main.code) (holding spaceReport)).trace (powerUp Main.start (0, fun _ => 0))
      (fun _ => ⟨false, true, 0⟩) t).cpu.code = .pure (.pollWait v) :=
  exists_pollWait (by omega) (fun _ => rfl) (fun n => ⟨n, le_rfl, rfl⟩) (Main.answers_holding spaceReport) rfl

/-- All requests of the set-up have been made then. -/
theorem set_up_in_order_main :
    let d := design 6 (driver ∘ Main.code) (holding spaceReport)
    let s := powerUp Main.start (0, fun _ => 0)
    let inp : ℕ → In := fun _ => ⟨false, true, 0⟩
    ∃ t v, (d.trace s inp t).cpu.code = .pure (.pollWait v) ∧ Main.requestsMade (visits d s inp t) = List.range 9 := by
  obtain ⟨t, v, hl⟩ := exists_pollWait_main
  exact ⟨t, v, hl, (set_up_in_order (by omega) (fun _ => rfl) (fun n => ⟨n, le_rfl, rfl⟩) _ rfl t _ hl).2 9 rfl⟩

theorem exists_request_main {n : ℕ} (hn : n < 9) :
    ∃ t v, ((design 6 (driver ∘ Main.code) (holding spaceReport)).trace (powerUp Main.start (0, fun _ => 0))
      (fun _ => ⟨false, true, 0⟩) t).cpu.code = .pure (.request n v) := by
  obtain ⟨t, v, hl⟩ := exists_pollWait_main
  obtain ⟨-, m, -, hmade, hlabel⟩ :=
    inOrder_of_pure (show 3 ≤ 6 by decide) (fun _ => rfl) (fun n => ⟨n, le_rfl, rfl⟩) rfl hl
  obtain rfl : m = 9 := hlabel 9 rfl
  obtain ⟨w, hw⟩ := Main.exists_of_mem_requestsMade (hmade ▸ List.mem_range.2 hn)
  obtain ⟨u, -, hu⟩ := (Sync.Design.mem_events ..).1 hw
  exact ⟨u, w, (visit_eq_some hu).2⟩

/-- In the same run the last request gets to the chip. -/
theorem request_delivered_main :
    let d := design 6 (driver ∘ Main.code) (holding spaceReport)
    let tr := d.trace (powerUp Main.start (0, fun _ => 0)) fun _ => ⟨false, true, 0⟩
    ∃ ws, Main.requests[8]? = some ws ∧ ∃ b v, (tr b).cpu.code = .pure (.requestWait 8 v) ∧
      Usb.Sent (tr b).chip.2 ws := by
  intro d tr
  obtain ⟨t, v, hl⟩ := exists_request_main (show 8 < 9 by decide)
  obtain ⟨ws, hws, b, -, hcode, hsent, -⟩ := request_delivered (by omega) (fun _ => rfl) (fun n => ⟨n, le_rfl, rfl⟩) _
    (documented_holding spaceReport) rfl t 8 v hl
  exact ⟨ws, hws, b, v, hcode, hsent⟩

/-- The list of the poll is in the memory of the chip. -/
theorem polls_alternate_main :
    let d := design 6 (driver ∘ Main.code) (holding spaceReport)
    let s := powerUp Main.start (0, fun _ => 0)
    let inp : ℕ → In := fun _ => ⟨false, true, 0⟩
    ∃ t v, (d.trace s inp t).cpu.code = .pure (.pollWait v) ∧
      (d.trace s inp t).chip.2 Usb.husbSie1PCurrentTDPtr = 0x500 := by
  obtain ⟨t, v, hl⟩ := exists_pollWait_main
  exact ⟨t, v, hl, (polls_alternate (by omega) (fun _ => rfl) (fun n => ⟨n, le_rfl, rfl⟩) _
    (documented_holding spaceReport) rfl t v hl).1⟩

end UsbHost

end FpgaTetris
