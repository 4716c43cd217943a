import Mooooooo.Lib.Mailbox
import Mooooooo.Proof.GicStep

/-!
# What happens to a software-generated interrupt

* `sgi_conservation`: **what was queued for a core is what was installed in its active
  slot, followed by what is still queued**, over every run. The core's queue and slot
  refine the one-slot mailbox of `Lib/Mailbox.lean`.
* `no_sgi_lost_iff`: an active SGI is replaced only by its own completion exactly when
  no slice of the core starts while an interrupt is active and the guest completes
  only what it has read.
* `raised_announces_iff`: every IRQ raised announces a real interrupt exactly when no
  slice starts with an active interrupt and an empty queue.
-/

namespace Mooooooo

/-! ## The history of a core's queue and slot -/

/-- What the call queues for core `c`. -/
def GicCall.enqueues (c : Core) : GicCall → Option Sgi
  | .push i intr => if i = c then some intr.sgi else none
  | _ => none

/-- What the call puts into the active slot of core `c`. -/
def GicCall.installs (c : Core) : GicCall → Option Sgi
  | .setActive i id cpu => if i = c then some (id, cpu) else none
  | _ => none

/-- The pairs queued for core `c`, oldest first. -/
def enqueued (c : Core) (rs : List GicRec) : List Sgi :=
  rs.flatMap fun r => r.calls.filterMap (GicCall.enqueues c)

/-- The pairs put into the active slot of core `c`, oldest first. -/
def installed (c : Core) (rs : List GicRec) : List Sgi :=
  rs.flatMap fun r => r.calls.filterMap (GicCall.installs c)

/-- The pair that a `GICD_SGIR` write has queued for core `c`, if that is one of the cores
it reaches: the low four bits of the value, and the core that writes. -/
def GicEvent.sends (c : Core) (e : GicEvent) : Option Sgi :=
  match e.op with
  | .access (.gicdWrite addr data _) =>
    if addr = gicdSgir ∧ (sgirTargets e.core data).contains c then
      some ((data &&& 0xF).setWidth 32, BitVec.ofNat 32 e.core)
    else none
  | _ => none

/-- The calls that queue for or install at core `c` are among those on its queue and slot. -/
theorem filterMap_onBox {α : Type*} (c : Core) {f : GicCall → Option α}
    (hf : ∀ x, GicCall.onBox c x = false → f x = none) (calls : List GicCall) :
    calls.filterMap f = (calls.filter (GicCall.onBox c)).filterMap f := by
  rw [List.filterMap_filter]
  congr 1
  funext x
  cases h : GicCall.onBox c x with
  | false => simp [hf x h]
  | true => simp

theorem enqueues_onBox (c : Core) (x : GicCall) (h : GicCall.onBox c x = false) :
    GicCall.enqueues c x = none := by
  cases x <;> simp_all [GicCall.onBox, GicCall.enqueues]

theorem installs_onBox (c : Core) (x : GicCall) (h : GicCall.onBox c x = false) :
    GicCall.installs c x = none := by
  cases x <;> simp_all [GicCall.onBox, GicCall.installs]

/-- What an event puts into the active slot of core `c`. -/
theorem exec_installs (e : GicEvent) (s : GicState) (c : Core) :
    (e.exec s).1.2.filterMap (GicCall.installs c) =
      if e.core = c ∧ e.advances s = true then [nextActive (s.sgirQueue c)] else [] := by
  rw [filterMap_onBox c (installs_onBox c), exec_calls]
  split
  · simp [GicCall.installs]
  · cases e.posts c <;> simp [GicCall.installs]

theorem installed_concat (c : Core) (pre : List GicEvent) (e : GicEvent) :
    installed c (gicRun (pre ++ [e])).2 = installed c (gicRun pre).2 ++
      if e.core = c ∧ e.advances (gicRun pre).1 = true then
        [nextActive ((gicRun pre).1.sgirQueue c)] else [] := by
  rw [gicRun_concat, ← exec_installs]
  simp [installed]

theorem posts_sgi (e : GicEvent) (c : Core) : (e.posts c).map GicdInterrupt.sgi = e.sends c := by
  obtain ⟨core, op⟩ := e
  rcases op with (_ | ⟨addr, data, size⟩ | _ | _) | _
  · rfl
  · unfold GicEvent.posts GicEvent.sends
    simp only [List.contains_iff_mem]
    split
    · rfl
    · rfl
  · rfl
  · rfl
  · rfl

/-- What an event queues for core `c`. -/
theorem exec_enqueues (e : GicEvent) (s : GicState) (c : Core) :
    (e.exec s).1.2.filterMap (GicCall.enqueues c) =
      if e.core = c ∧ e.advances s = true then [] else (e.posts c).toList.map GicdInterrupt.sgi := by
  rw [filterMap_onBox c (enqueues_onBox c), exec_calls]
  split
  · simp [GicCall.enqueues]
  · cases e.posts c <;> simp [GicCall.enqueues]

theorem exec_sends (e : GicEvent) (s : GicState) (c : Core) :
    (e.exec s).1.2.filterMap (GicCall.enqueues c) = (e.sends c).toList := by
  rw [exec_enqueues, ← posts_sgi]
  by_cases hadv : e.core = c ∧ e.advances s = true
  · rw [if_pos hadv, not_posts_of_advances hadv.2]
    rfl
  · rw [if_neg hadv]
    cases e.posts c <;> rfl

/-- **What is queued for core `c`** is what the cores write to `GICD_SGIR`, each with its writer. -/
theorem enqueued_run (c : Core) (es : List GicEvent) : enqueued c (gicRun es).2 = es.filterMap (GicEvent.sends c) := by
  induction es using List.reverseRecOn with
  | nil => rfl
  | append_singleton es e ih =>
    have hlast := exec_sends e (gicRun es).1 c
    rw [gicRun_concat, List.filterMap_append, ← ih]
    unfold enqueued
    rw [List.flatMap_append, List.flatMap_singleton, hlast]
    cases h : e.sends c <;> simp [h]

/-- The active slot holds what was last put into it. -/
theorem slot_eq_last (c : Core) (es : List GicEvent) :
    (gicRun es).1.slot c = (installed c (gicRun es).2).getLastD (0x3FF, 0) := by
  induction es using List.reverseRecOn with
  | nil => exact gicInit_slot c
  | append_singleton es e ih =>
    rw [installed_concat, gicRun_concat]
    simp only [exec_slot]
    split
    · simp
    · simp [ih]

/-! ## The mailbox of a core -/

/-- The mailbox of core `c`: its queue, and the interrupt in its slot if there is one. -/
def GicState.mailbox (c : Core) (s : GicState) : Mailbox Sgi where
  backlog := (s.sgirQueue c).map GicdInterrupt.sgi
  slot := if (s.slot c).1 = 0x3FF then none else some (s.slot c)

/-- A call on the queue or the slot of a core, as an operation on its mailbox. -/
def GicCall.mailOp : GicCall → Mailbox.Op Sgi
  | .push _ intr => .post intr.sgi
  | _ => .next

/-- A call on the queue or the slot of a core, as what its mailbox records. -/
def GicCall.mailRec : GicCall → Mailbox.Rec Sgi
  | .push _ intr => .posted intr.sgi
  | .setActive _ id cpu => .took (if id = 0x3FF then none else some (id, cpu))
  | .raiseIrq _ => .took none

/-- One event does to the mailbox of core `c` what its calls on it say. -/
theorem mailbox_step (c : Core) (e : GicEvent) {s : GicState} (h : GicInv s) :
    Cmd.forEach Mailbox.step (((e.exec s).1.2.filter (GicCall.onBox c)).map GicCall.mailOp) (s.mailbox c) =
      ((e.exec s).1.1.mailbox c, ((e.exec s).1.2.filter (GicCall.onBox c)).map GicCall.mailRec) := by
  rw [exec_calls]
  simp only [GicState.mailbox, exec_slot, exec_queue]
  split
  · cases hq : s.sgirQueue c with
    | nil => simp [GicCall.mailOp, GicCall.mailRec, Cmd.forEach_cons, Mailbox.step, nextActive]
    | cons i q =>
      -- what is queued is never the spurious id, so the slot holds it
      have hne : ¬i.sgi.1 = 1023#32 := h.head_ne hq
      simp [GicCall.mailOp, GicCall.mailRec, Cmd.forEach_cons, Mailbox.step, nextActive, hne]
  · cases e.posts c with
    | none => simp
    | some i => simp [GicCall.mailOp, GicCall.mailRec, Cmd.forEach_cons, Mailbox.step]

/-- **The queue and slot of core `c` refine a mailbox**, over every run. -/
theorem mailbox_run (c : Core) (es : List GicEvent) :
    Cmd.forEach Mailbox.step
        ((gicRun es).2.flatMap fun r => (r.calls.filter (GicCall.onBox c)).map GicCall.mailOp)
        (GicState.init.mailbox c) =
      ((gicRun es).1.mailbox c,
        (gicRun es).2.flatMap fun r => (r.calls.filter (GicCall.onBox c)).map GicCall.mailRec) := by
  refine forEach_project (GicState.mailbox c) _ _ gicInv_step ?_ es gicInv_init
  intro e s h
  simpa [gicStep] using mailbox_step c e h

theorem posted_mail (c : Core) (rs : List GicRec) :
    Mailbox.posted (rs.flatMap fun r => (r.calls.filter (GicCall.onBox c)).map GicCall.mailRec) =
      enqueued c rs := by
  unfold Mailbox.posted enqueued
  rw [List.filterMap_flatMap]
  congr 1
  funext r
  rw [filterMap_onBox c (enqueues_onBox c), List.filterMap_map]
  refine List.filterMap_congr ?_
  intro x hx
  have hc := (List.mem_filter.1 hx).2
  cases x <;> simp_all [GicCall.mailRec, GicCall.enqueues, GicCall.onBox]

theorem taken_mail (c : Core) (rs : List GicRec) :
    Mailbox.taken (rs.flatMap fun r => (r.calls.filter (GicCall.onBox c)).map GicCall.mailRec) =
      (installed c rs).filter fun x => x.1 ≠ 0x3FF := by
  unfold Mailbox.taken installed
  rw [List.filterMap_flatMap, List.filter_flatMap]
  congr 1
  funext r
  rw [filterMap_onBox c (installs_onBox c), List.filterMap_map, List.filter_filterMap]
  refine List.filterMap_congr ?_
  intro x hx
  have hc := (List.mem_filter.1 hx).2
  cases x with
  | push i intr => rfl
  | raiseIrq i => rfl
  | setActive i id cpu =>
    have hi : i = c := by simpa [GicCall.onBox] using hc
    by_cases h : id = 1023#32 <;> simp [GicCall.mailRec, GicCall.installs, hi, h, Option.filter]

theorem installed_queued (es : List GicEvent) (c : Core) :
    enqueued c (gicRun es).2 = (installed c (gicRun es).2).filter (fun x => x.1 ≠ 0x3FF) ++
      ((gicRun es).1.sgirQueue c).map GicdInterrupt.sgi := by
  have h := Mailbox.conservation
    ((gicRun es).2.flatMap fun r => (r.calls.filter (GicCall.onBox c)).map GicCall.mailOp)
    (GicState.init.mailbox c)
  rw [mailbox_run c es, posted_mail, taken_mail] at h
  simpa [GicState.mailbox, gicInit_queue] using h

/-- **Conservation of SGIs.** The pairs queued for a core, each the id that was written and the
core that wrote it, are the real interrupts put into its active slot, followed by what its
queue holds. An event puts at most one there, and the slot has the last. -/
theorem sgi_conservation (es : List GicEvent) (c : Core) :
    enqueued c (gicRun es).2 = es.filterMap (GicEvent.sends c) ∧
      enqueued c (gicRun es).2 = (installed c (gicRun es).2).filter (fun x => x.1 ≠ 0x3FF) ++
        ((gicRun es).1.sgirQueue c).map GicdInterrupt.sgi ∧
      (gicRun es).1.slot c = (installed c (gicRun es).2).getLastD (0x3FF, 0) ∧
      ∀ e, installed c (gicRun (es ++ [e])).2 = installed c (gicRun es).2 ∨
        installed c (gicRun (es ++ [e])).2 = installed c (gicRun es).2 ++ [(gicRun (es ++ [e])).1.slot c] := by
  refine ⟨enqueued_run c es, ?_, slot_eq_last c es, ?_⟩
  · exact installed_queued es c
  · intro e
    rw [installed_concat, gicRun_concat]
    dsimp only
    rw [exec_slot]
    split
    · exact .inr rfl
    · exact .inl (List.append_nil _)

/-! ## Who replaces an active interrupt -/

/-- The event makes core `c` write `GICC_EOIR`. -/
def GicEvent.IsEoir (c : Core) (e : GicEvent) : Prop :=
  ∃ data size, e = ⟨c, .access (.giccWrite giccEoir data size)⟩

/-- The event makes core `c` read `GICC_IAR`. -/
def GicEvent.IsIar (c : Core) (e : GicEvent) : Prop := ∃ size, e = ⟨c, .access (.giccRead giccIar size)⟩

/-- **No SGI is lost.** An event that puts something into the slot of core `c` while
an interrupt is active there is an `GICC_EOIR` write of `c`, and since that interrupt was
put there `c` has read `GICC_IAR`, which returned it. -/
def NoSgiLost (es : List GicEvent) (c : Core) : Prop :=
  ∀ pre e post, es = pre ++ e :: post → mmioGiccInterruptActive c (gicRun pre).1 = true →
    installed c (gicRun (pre ++ [e])).2 ≠ installed c (gicRun pre).2 →
    e.IsEoir c ∧ ∃ p1 r p2, pre = p1 ++ r :: p2 ∧ r.IsIar c ∧
      iarDecode (r.exec (gicRun p1).1).2 = sgiWide ((gicRun pre).1.slot c) ∧
      installed c (gicRun p1).2 = installed c (gicRun pre).2

/-- What the host and the guest of core `c` would have to keep to: no slice starts
while an interrupt is active, and an active interrupt is completed only after a read
of `GICC_IAR` that found one active, with no other completion between the two. -/
structure SgiDiscipline (es : List GicEvent) (c : Core) : Prop where
  sliceStart : ∀ pre post, es = pre ++ ⟨c, .sliceStart⟩ :: post →
    mmioGiccInterruptActive c (gicRun pre).1 = false
  eoir : ∀ pre e post, es = pre ++ e :: post → e.IsEoir c →
    mmioGiccInterruptActive c (gicRun pre).1 = true →
    ∃ p1 r p2, pre = p1 ++ r :: p2 ∧ r.IsIar c ∧ mmioGiccInterruptActive c (gicRun p1).1 = true ∧
      ∀ x ∈ p2, ¬x.IsEoir c

/-- What is installed at core `c` changes exactly with the core's advances. -/
theorem installed_ne_iff (c : Core) (pre : List GicEvent) (e : GicEvent) :
    installed c (gicRun (pre ++ [e])).2 ≠ installed c (gicRun pre).2 ↔
      e.core = c ∧ e.advances (gicRun pre).1 = true := by
  rw [installed_concat]
  split <;> simp_all

/-- A longer run installs more. -/
theorem installed_mono (c : Core) (es es' : List GicEvent) :
    installed c (gicRun es).2 <+: installed c (gicRun (es ++ es')).2 := by
  induction es' using List.reverseRecOn with
  | nil => rw [List.append_nil]
  | append_singleton es' e ih =>
    rw [← List.append_assoc, installed_concat]
    exact ih.trans (List.prefix_append _ _)

/-- The slot changes with what is installed only. -/
theorem slot_congr {c : Core} {es es' : List GicEvent}
    (h : installed c (gicRun es).2 = installed c (gicRun es').2) :
    (gicRun es).1.slot c = (gicRun es').1.slot c := by
  rw [slot_eq_last, slot_eq_last, h]

theorem active_congr {c : Core} {es es' : List GicEvent}
    (h : installed c (gicRun es).2 = installed c (gicRun es').2) :
    mmioGiccInterruptActive c (gicRun es).1 = mmioGiccInterruptActive c (gicRun es').1 := by
  rw [Bool.eq_iff_iff, interruptActive_iff, interruptActive_iff, slot_congr h]

/-- The two ways to advance: completion, and a slice start that is not idle. -/
theorem advances_cases {e : GicEvent} {s : GicState} {c : Core} (hc : e.core = c)
    (ha : e.advances s = true) : e.IsEoir c ∨ e = ⟨c, .sliceStart⟩ := by
  obtain ⟨c', op⟩ := e
  simp only at hc
  subst hc
  rcases op with (_ | _ | _ | ⟨addr, data, size⟩) | _
  · simp [GicEvent.advances] at ha
  · simp [GicEvent.advances] at ha
  · simp [GicEvent.advances] at ha
  · have h : addr = giccEoir := by simpa [GicEvent.advances] using ha
    exact .inl ⟨data, size, by rw [h]⟩
  · exact .inr rfl

theorem GicEvent.IsEoir.advances {e : GicEvent} {c : Core} (h : e.IsEoir c) (s : GicState) :
    e.core = c ∧ e.advances s = true := by
  obtain ⟨data, size, rfl⟩ := h
  exact ⟨rfl, by simp [GicEvent.advances]⟩

theorem idle_eq_false_of_active {s : GicState} {c : Core} (h : mmioGiccInterruptActive c s = true) :
    s.idle c = false := by
  simp [GicState.idle, h]

/-- Without completions, and without slice starts on an active interrupt, nothing is
installed over an active interrupt. -/
theorem installed_quiet {c : Core} (p1 p2 : List GicEvent)
    (hact : mmioGiccInterruptActive c (gicRun p1).1 = true) (heoir : ∀ x ∈ p2, ¬x.IsEoir c)
    (hslice : ∀ q1 q2, p2 = q1 ++ ⟨c, .sliceStart⟩ :: q2 →
      mmioGiccInterruptActive c (gicRun (p1 ++ q1)).1 = false) :
    installed c (gicRun (p1 ++ p2)).2 = installed c (gicRun p1).2 := by
  induction p2 using List.reverseRecOn with
  | nil => rw [List.append_nil]
  | append_singleton p2 x ih =>
    have hrec := ih (fun y hy => heoir y (List.mem_append_left _ hy)) fun q1 q2 hq =>
      hslice q1 (q2 ++ [x]) (by rw [hq]; simp)
    rw [← List.append_assoc]
    by_contra hne
    rw [← hrec] at hne
    obtain ⟨hc, ha⟩ := (installed_ne_iff c (p1 ++ p2) x).1 hne
    -- neither way to advance is open to the last event
    rcases advances_cases hc ha with hx | hx
    · exact heoir x (List.mem_append_right _ (List.mem_singleton_self _)) hx
    · have hoff := hslice p2 [] (by rw [hx])
      rw [active_congr hrec, hact] at hoff
      exact absurd hoff (by decide)

/-- **When no SGI is lost.** Over every run and for every core. -/
theorem no_sgi_lost_iff (es : List GicEvent) (c : Core) : NoSgiLost es c ↔ SgiDiscipline es c := by
  constructor
  · intro h
    refine ⟨?_, ?_⟩
    · intro pre post hsplit
      by_contra hact
      have hact' : mmioGiccInterruptActive c (gicRun pre).1 = true := by simpa using hact
      have hch := (installed_ne_iff c pre ⟨c, .sliceStart⟩).2
        ⟨rfl, by simp [GicEvent.advances, idle_eq_false_of_active hact']⟩
      obtain ⟨⟨data, size, heq⟩, -⟩ := h pre _ post hsplit hact' hch
      simp at heq
    · intro pre e post hsplit he hact
      have hch := (installed_ne_iff c pre e).2 (he.advances _)
      obtain ⟨-, p1, r, p2, hpre, hr, -, hsame⟩ := h pre e post hsplit hact hch
      refine ⟨p1, r, p2, hpre, hr, by rw [active_congr hsame]; exact hact, ?_⟩
      intro x hx hxe
      -- a completion after the read would have installed something
      obtain ⟨q1, q2, rfl⟩ := List.append_of_mem hx
      have hx' := installed_concat c (p1 ++ r :: q1) x
      rw [if_pos (hxe.advances _)] at hx'
      have h1 := (installed_mono c p1 (r :: q1)).length_le
      have h2 := (installed_mono c (p1 ++ r :: q1 ++ [x]) q2).length_le
      rw [hx', List.length_append, List.length_singleton] at h2
      have hpre' : p1 ++ r :: q1 ++ [x] ++ q2 = pre := by rw [hpre]; simp
      rw [hpre', ← hsame] at h2
      omega
  · intro h pre e post hsplit hact hch
    obtain ⟨hc, ha⟩ := (installed_ne_iff c pre e).1 hch
    rcases advances_cases hc ha with he | he
    · refine ⟨he, ?_⟩
      obtain ⟨p1, r, p2, hpre, hr, hact1, hno⟩ := h.eoir pre e post hsplit he hact
      have hsame : installed c (gicRun p1).2 = installed c (gicRun pre).2 := by
        rw [hpre]
        refine (installed_quiet p1 _ hact1 ?_ ?_).symm
        · intro x hx hxe
          rcases List.mem_cons.1 hx with rfl | hx
          · obtain ⟨size, hread⟩ := hr
            obtain ⟨data, size', hwrite⟩ := hxe
            simp [hread] at hwrite
          · exact hno x hx hxe
        · intro q1 q2 hq
          exact h.sliceStart (p1 ++ q1) (q2 ++ e :: post) (by rw [hsplit, hpre, hq]; simp)
      -- the read was of the slot as it still is
      have hvalue : iarDecode (r.exec (gicRun p1).1).2 = sgiWide ((gicRun pre).1.slot c) := by
        obtain ⟨size, rfl⟩ := hr
        rw [← slot_congr hsame]
        exact iar_decode (gicInv_run p1) ((interruptActive_iff c _).1 hact1) size
      exact ⟨p1, r, p2, hpre, hr, hvalue, hsame⟩
    · exact absurd (h.sliceStart pre post (by rw [hsplit, he])) (by simp [hact])

/-- Core 0 sends itself an SGI and starts two slices without reading it: the second
slice start drops it. -/
theorem second_slice_drops_sgi : ¬∀ es c, NoSgiLost es c := by
  intro h
  have hlost := h [⟨0, .access (.gicdWrite gicdSgir 0x2020005 4)⟩, ⟨0, .sliceStart⟩, ⟨0, .sliceStart⟩] 0
    [⟨0, .access (.gicdWrite gicdSgir 0x2020005 4)⟩, ⟨0, .sliceStart⟩] ⟨0, .sliceStart⟩ [] rfl
    (by decide) ((installed_ne_iff 0 _ _).2 ⟨rfl, by decide⟩)
  obtain ⟨⟨data, size, heq⟩, -⟩ := hlost
  simp at heq

/-! ## What an IRQ announces -/

/-- Every IRQ raised for core `c` announces a real interrupt: a `GICC_IAR` read at the
state in which it is raised does not return the spurious id. -/
def RaisesAnnounce (es : List GicEvent) (c : Core) : Prop :=
  ∀ pre e post, es = pre ++ e :: post → .raiseIrq c ∈ (e.exec (gicRun pre).1).1.2 →
    ∀ size, mmioGiccRead c giccIar size (gicRun (pre ++ [e])).1 &&& 0x3FF ≠ 0x3FF

/-- **When every IRQ announces a real interrupt.** No slice of the core starts with an
active interrupt and nothing queued. -/
theorem raised_announces_iff (es : List GicEvent) (c : Core) : RaisesAnnounce es c ↔
    ∀ pre post, es = pre ++ ⟨c, .sliceStart⟩ :: post →
      ¬((gicRun pre).1.sgirQueue c = [] ∧ mmioGiccInterruptActive c (gicRun pre).1 = true) := by
  -- what the read returns after a slice start that raises
  have hread : ∀ pre size, (gicRun pre).1.idle c = false →
      (mmioGiccRead c giccIar size (gicRun (pre ++ [⟨c, .sliceStart⟩])).1 &&& 0x3FF = 0x3FF ↔
        (gicRun pre).1.sgirQueue c = []) := by
    intro pre size hidle
    rw [iar_spurious_iff (gicInv_run _), ← (gicInv_run pre).next_ne, gicRun_concat]
    simp only [exec_slot]
    rw [if_pos ⟨trivial, by simp [GicEvent.advances, hidle]⟩]
  constructor
  · rintro h pre post hsplit ⟨hq, hact⟩
    have hidle := idle_eq_false_of_active hact
    exact h pre _ post hsplit ((exec_raise _ _ c).2 ⟨rfl, rfl, hidle⟩) 4 ((hread pre 4 hidle).2 hq)
  · intro h pre e post hsplit hraise size hspur
    obtain ⟨hc, hop, hidle⟩ := (exec_raise e _ c).1 hraise
    have he : e = ⟨c, .sliceStart⟩ := by cases e; simp_all
    subst he
    have hq := (hread pre size hidle).1 hspur
    have hact : mmioGiccInterruptActive c (gicRun pre).1 = true := by
      simpa [GicState.idle, hq] using hidle
    exact h pre post hsplit ⟨hq, hact⟩

/-- Core 0's second slice start, with its SGI active and nothing queued, raises an IRQ
for which `GICC_IAR` reads as spurious. -/
theorem second_slice_raises_spurious : ¬∀ es c, RaisesAnnounce es c := by
  intro h
  have hspur := h [⟨0, .access (.gicdWrite gicdSgir 0x2020005 4)⟩, ⟨0, .sliceStart⟩, ⟨0, .sliceStart⟩] 0
    [⟨0, .access (.gicdWrite gicdSgir 0x2020005 4)⟩, ⟨0, .sliceStart⟩] ⟨0, .sliceStart⟩ [] rfl
    (by decide) 4
  exact hspur (by decide)

end Mooooooo
