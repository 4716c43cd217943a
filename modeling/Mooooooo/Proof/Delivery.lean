import Mooooooo.Proof.Devices
import Mooooooo.Proof.Sgi

/-!
# Interrupts in the emulator

* `emulate_moments`: a monitor of the host, over every run of the emulator.
* `emulate_gic`: **the interrupt controller in the emulator is the interrupt controller**: over
  every run, its part is a run of its own on what the guests and the run loop do there.

Each core has a mailbox. What the cores write to `GICD_SGIR` posts to it, its own writes to
`GICC_EOIR` and the starts of its slices move it on.

* `mailbox_delivers`: the interrupts that wait at the controller are taken in their order, one
  with each of these moves.
* `sgi_mailbox`: **the emulator is these mailboxes**, over every run: the queue and the slot of a
  core are its mailbox at every moment, what it reads from `GICC_IAR` is what the mailbox shows,
  and a slice starts with an IRQ exactly if the mailbox is not empty.
-/

namespace Mooooooo

/-! ## The controller, moment by moment -/

/-- The record of the controller in a moment, if it is one of the controller's. -/
def Moment.gicRec (mo : Moment) : List GicRec :=
  match mo.call with
  | .handleInterrupts _ r => [r]
  | .gic _ r => [r]
  | _ => []

/-- The events at the controller in a run. -/
def gicEvents (ms : List Moment) : List GicEvent := ms.flatMap fun mo => mo.gicRec.map GicRec.event

/-- The records of the controller in a run. -/
def gicRecs (ms : List Moment) : List GicRec := ms.flatMap Moment.gicRec

/-- **The controller's run**: from each moment to the next, the controller makes the steps that the events there
ask for, and leaves the records that stand there. -/
def gicTrack : Monitor GicState Moment where
  next _ mo := mo.host.gic
  ok k mo := Cmd.forEach gicStep (mo.gicRec.map GicRec.event) k = (mo.host.gic, mo.gicRec)

/-- The events of a run lead the controller through it. -/
theorem gicTrack_run {k : GicState} {ms : List Moment} (h : gicTrack.Accepts k ms) :
    Cmd.forEach gicStep (gicEvents ms) k = (gicTrack.run k ms, gicRecs ms) := by
  induction ms generalizing k with
  | nil => rfl
  | cons mo ms ih =>
    obtain ⟨hmo, hrest⟩ := (gicTrack.accepts_cons k mo ms).1 h
    have hsplit : gicEvents (mo :: ms) = mo.gicRec.map GicRec.event ++ gicEvents ms := List.flatMap_cons
    have hfrom : Cmd.forEach gicStep (gicEvents ms) mo.host.gic = (gicTrack.run mo.host.gic ms, gicRecs ms) := ih hrest
    rw [hsplit, Cmd.forEach_append, hmo]
    dsimp only
    rw [hfrom]
    rfl

/-- Without calls of the controller it stays as it is. -/
theorem gicTrack_quiet {k : GicState} {ms : List Moment} (h : gicTrack.Accepts k ms)
    (hnone : ∀ mo ∈ ms, mo.gicRec = []) : (∀ mo ∈ ms, mo.host.gic = k) ∧ gicTrack.run k ms = k := by
  induction ms generalizing k with
  | nil => exact ⟨by simp, rfl⟩
  | cons mo ms ih =>
    obtain ⟨hmo, hrest⟩ := (gicTrack.accepts_cons k mo ms).1 h
    have hstay : mo.host.gic = k := by
      have hok : Cmd.forEach gicStep (mo.gicRec.map GicRec.event) k = (mo.host.gic, mo.gicRec) := hmo
      rw [hnone mo List.mem_cons_self] at hok
      exact (congrArg Prod.fst hok).symm
    obtain ⟨hall, hrun⟩ := ih hrest fun mo' h => hnone mo' (List.mem_cons_of_mem _ h)
    have hall' : ∀ mo' ∈ ms, mo'.host.gic = k := fun mo' h => (hall mo' h).trans hstay
    exact ⟨List.forall_mem_cons.2 ⟨hstay, hall'⟩, hrun.trans hstay⟩

section Controller

variable {κ : Type*} {m : Monitor κ Moment} {R : Host → κ → Prop}

/-- A monitor of the host, over the records of the emulator. -/
def Monitor.onMoments (m : Monitor κ Moment) : Monitor κ EmuRec where
  next k o := m.run k o.moments
  ok k o := m.Accepts k o.moments

theorem onMoments_iff (k : κ) (os : List EmuRec) :
    (m.onMoments.Accepts k os ↔ m.Accepts k (moments os)) ∧ m.onMoments.run k os = m.run k (moments os) := by
  induction os generalizing k with
  | nil => exact ⟨Iff.rfl, rfl⟩
  | cons o os ih =>
    have hsplit : moments (o :: os) = o.moments ++ moments os := List.flatMap_cons
    obtain ⟨hacc, hrun⟩ := ih (m.run k o.moments)
    rw [hsplit, m.accepts_append, m.run_append, Monitor.accepts_cons, Monitor.run_cons]
    exact ⟨and_congr_right fun _ => hacc, hrun⟩

theorem onHost_moments_triple {c : Cmd Host Moment} (h : Triple m R c R) :
    Triple m.onMoments (fun s => R s.host) (onHost c) fun s => R s.host := by
  intro s k hs
  obtain ⟨hacc, hrun⟩ := onMoments_iff (m := m) k (onHost c s).2
  rw [hacc, hrun, onHost_moments]
  exact h s.host k hs

/-- A monitor of the host follows the guest of a core by what its hooks and callbacks do to the host. -/
theorem event_moments (h : ∀ core act, Triple m R (guestStep core act) R) (core : Core) (e : GuestEvent) :
    Triple m.onMoments (fun s => R s.host) (guestEvent core e) fun s => R s.host := by
  intro s k hs
  have hseen : Cmd.forEach (guestStep core) ((hostView core).inputs (guestEvent core e s).2) s.host =
      ((guestEvent core e s).1.host, moments (guestEvent core e s).2) := event_seen core e s
  have hacts := Triple.forEach (h core) ((hostView core).inputs (guestEvent core e s).2) s.host k hs
  rw [hseen] at hacts
  obtain ⟨hacc, hrun⟩ := onMoments_iff (m := m) k (guestEvent core e s).2
  rw [hacc, hrun]
  exact hacts

/-- **Monitors of the host** over every run of the emulator: what they need of its pieces. -/
theorem emulate_moments (hinject : ∀ core, Triple m R (gicEvent ⟨core, .sliceStart⟩ (.handleInterrupts core)) R)
    (hact : ∀ core act, Triple m R (guestStep core act) R)
    (henter : ∀ core, Triple m R (Cmd.forEach id (enterCalls core)) R)
    (hleave : ∀ core err ret, Triple m R (Cmd.forEach id (leaveCalls core err ret)) R)
    (mem : HostBlock → ℕ → BitVec 8) (reg : Core → Reg → BitVec 64) {k : κ} (hstart : R (Emulator.start mem reg).host k)
    (xs : List EmuSlice) :
    m.Accepts k (moments (emulate mem reg xs).2) ∧
      R (emulate mem reg xs).1.emu.host (m.run k (moments (emulate mem reg xs).2)) := by
  have hstarted : ∀ core, Triple m.onMoments (fun s => R s.host)
      (Cmd.emit id fun s : Emulator => .emuStart core (s.reg core .pc) (s.reg core)) fun s => R s.host := fun core =>
    .quiet (fun _ _ hs => hs) (.emit fun _ k => ⟨rfl, m.accepts_nil k⟩)
  have hrule : EmuRule m.onMoments (fun s => R s.host) (fun _ s => R s.host) fun _ s => R s.host :=
    { inject := fun core => (onHost_moments_triple (hinject core)).conseq (fun _ _ hs => hs.1) fun _ _ hs => hs
      enter := fun core => (onHost_moments_triple (henter core)).andThen (hstarted core)
      event := fun core e => (event_moments hact core e).conseq (fun _ _ hs => hs.2) fun _ _ hs => hs
      leave := fun core x =>
        (onHost_moments_triple (hleave core x.err x.ret)).conseq (fun _ _ hs => hs.2) fun _ _ hs => hs }
  obtain ⟨hacc, hrun⟩ := onMoments_iff (m := m) k (emulate mem reg xs).2
  obtain ⟨haccepts, hend⟩ := hrule.run mem reg hstart xs
  rw [hacc] at haccepts
  rw [hrun] at hend
  exact ⟨haccepts, hend.elim id fun h => h.2.elim fun _ hs => hs⟩

end Controller

/-- The controller is where its run leads. -/
def GicIs (h : Host) (k : GicState) : Prop := h.gic = k

/-- A call that is none of the controller's. -/
theorem record_gic {call : RunCall} {f : Host → Host} (hcall : ∀ h, Moment.gicRec ⟨call, h⟩ = [])
    (hf : ∀ h, (f h).gic = h.gic) : Triple gicTrack GicIs (record call f) GicIs := by
  rintro h k rfl
  refine ⟨⟨?_, trivial⟩, rfl⟩
  show Cmd.forEach gicStep ((Moment.gicRec ⟨call, f h⟩).map GicRec.event) h.gic =
    ((f h).gic, Moment.gicRec ⟨call, f h⟩)
  rw [hcall, hf]
  rfl

theorem gicEvent_gic (e : GicEvent) {call : GicRec → RunCall} (hcall : ∀ r h, Moment.gicRec ⟨call r, h⟩ = [r]) :
    Triple gicTrack GicIs (gicEvent e call) GicIs := by
  rintro h k rfl
  refine ⟨⟨?_, trivial⟩, rfl⟩
  simp [gicTrack, hcall, Cmd.forEach_cons, gicStep]

theorem guestStep_gic (core : Core) (act : GuestAct) : Triple gicTrack GicIs (guestStep core act) GicIs := by
  cases act with
  | store addr byte =>
    refine record_gic (fun _ => rfl) fun h => ?_
    unfold Host.writeByte
    split <;> rfl
  | load addr =>
    rintro h k rfl
    exact ⟨⟨rfl, trivial⟩, rfl⟩
  | smcCpuOn cpu => exact record_gic (fun _ => rfl) fun _ => rfl
  | quit => exact record_gic (fun _ => rfl) fun _ => rfl
  | gic a => exact gicEvent_gic _ fun _ _ => rfl

theorem memMapPtr_gic (core : Core) (addr size : BitVec 64) (block : HostBlock) :
    Triple gicTrack GicIs (memMapPtr core addr size block) GicIs := by
  rintro h k rfl
  exact ⟨⟨rfl, trivial⟩, rfl⟩

theorem enter_gic (core : Core) : Triple gicTrack GicIs (Cmd.forEach id (enterCalls core)) GicIs :=
  .andThen (record_gic (fun _ => rfl) fun _ => rfl) (.andThen (memMapPtr_gic _ _ _ _) (.andThen (memMapPtr_gic _ _ _ _)
    (.andThen (memMapPtr_gic _ _ _ _) (.andThen (record_gic (fun _ => rfl) fun _ => rfl) .skip))))

theorem leave_gic (core : Core) (err ret : BitVec 32) :
    Triple gicTrack GicIs (Cmd.forEach id (leaveCalls core err ret)) GicIs := by
  have hend : ∀ h : Host, (if err ≠ 0 then { h with ucQuit := true } else h).gic = h.gic := by
    intro h
    split <;> rfl
  exact .andThen (record_gic (fun _ => rfl) hend) (.andThen (record_gic (fun _ => rfl) fun _ => rfl)
    (.andThen (record_gic (fun _ => rfl) fun _ => rfl) (.andThen (record_gic (fun _ => rfl) fun _ => rfl)
      (.andThen (record_gic (fun _ => rfl) fun _ => rfl) .skip))))

theorem start_gic (mem : HostBlock → ℕ → BitVec 8) (reg : Core → Reg → BitVec 64) :
    (Emulator.start mem reg).host.gic = GicState.init := by
  have hinit : ∀ (core : Core) (h : Host), (ucInit core h).gic = mmioGiccInit h.gic := fun _ _ => rfl
  show (ucInit 3 (ucInit 2 (ucInit 1 (ucInit 0 (Host.zero mem))))).gic = GicState.init
  rw [hinit, hinit, hinit, hinit]
  rfl

/-- At every moment of a run of the emulator, the controller is where its own run leads. -/
theorem emulate_track (mem : HostBlock → ℕ → BitVec 8) (reg : Core → Reg → BitVec 64) (xs : List EmuSlice) :
    gicTrack.Accepts GicState.init (moments (emulate mem reg xs).2) ∧
      (emulate mem reg xs).1.emu.host.gic = gicTrack.run GicState.init (moments (emulate mem reg xs).2) :=
  emulate_moments (R := GicIs) (fun _ => gicEvent_gic _ fun _ _ => rfl) guestStep_gic enter_gic leave_gic mem reg
    (start_gic mem reg) xs

/-- **The interrupt controller in the emulator.** Over every run, the controller's part of it is a run of its own, on
the accesses of the guests and the starts of slices in the order in which they come: what holds over all those
runs holds in the emulator. -/
theorem emulate_gic (mem : HostBlock → ℕ → BitVec 8) (reg : Core → Reg → BitVec 64) (xs : List EmuSlice) :
    gicRun (gicEvents (moments (emulate mem reg xs).2)) =
      ((emulate mem reg xs).1.emu.host.gic, gicRecs (moments (emulate mem reg xs).2)) := by
  obtain ⟨hacc, hend⟩ := emulate_track mem reg xs
  unfold gicRun
  rw [gicTrack_run hacc, hend]

/-! ## The mailbox of a core, by what is on the bus -/

/-- What a record does to the mailbox of core `c`. -/
def EmuRec.mailOps (c : Core) : EmuRec → List (Mailbox.Op Sgi)
  | .write core addr data _ _ =>
    if addr = Device.gicd.base + gicdSgir ∧ (sgirTargets core data).contains c then [.post (sgirEntry core data).sgi]
    else if addr = Device.gicc.base + giccEoir ∧ core = c then [.next]
    else []
  | .host ⟨.handleInterrupts core _, _⟩ => if core = c then [.next] else []
  | _ => []

/-- The mailbox of core `c` after a record. -/
def mailAfter (c : Core) (k : Mailbox Sgi) (o : EmuRec) : Mailbox Sgi := (Cmd.forEach Mailbox.step (o.mailOps c) k).1

/-- What `GICC_IAR` has for the interrupt that a mailbox shows. -/
def iarWord : Option Sgi → BitVec 64
  | some (id, cpu) => (id ||| cpu <<< 10).signExtend 64
  | none => 0x3FF

/-- A mailbox with something in it. -/
def Mailbox.Busy (m : Mailbox Sgi) : Prop := m.slot ≠ none ∨ m.backlog ≠ []

/-- **The mailbox of core `c`**: it is the queue and the slot at every moment, and it says what the reads of
`GICC_IAR` must return and when there is an IRQ. -/
def sgiBus (c : Core) : Monitor (Mailbox Sgi) EmuRec where
  next := mailAfter c
  ok k o := match o with
    | .read core addr _ _ value => core = c → addr = Device.gicc.base + giccIar → value = some (iarWord k.slot)
    | .host mo => mo.host.gic.mailbox c = mailAfter c k o ∧ match mo.call with
      | .handleInterrupts core r => .raiseIrq c ∈ r.calls ↔ core = c ∧ k.Busy
      | .gic _ r => .raiseIrq c ∉ r.calls
      | _ => True
    | _ => True

/-- The queue and the slot of core `c` are the mailbox. -/
def MailIs (c : Core) (s : Emulator) (k : Mailbox Sgi) : Prop := GicInv s.host.gic ∧ s.host.gic.mailbox c = k

/-! ## One event at the controller -/

section Event

variable {c : Core} {s : GicState}

theorem mailbox_exec (c : Core) (e : GicEvent) (hs : GicInv s) : (e.exec s).1.1.mailbox c =
    if e.core = c ∧ e.advances s = true then (Mailbox.step .next (s.mailbox c)).1
    else { s.mailbox c with backlog := (s.mailbox c).backlog ++ (e.posts c).toList.map GicdInterrupt.sgi } := by
  simp only [GicState.mailbox, exec_slot, exec_queue]
  split
  · cases hq : s.sgirQueue c with
    | nil => simp [Mailbox.step, nextActive]
    | cons i q =>
      have hne : ¬i.sgi.1 = 1023#32 := hs.head_ne hq
      simp [Mailbox.step, nextActive, hne]
  · simp

theorem mailbox_busy (c : Core) (s : GicState) : (s.mailbox c).Busy ↔ s.idle c = false := by
  have hactive := interruptActive_iff c s
  unfold Mailbox.Busy GicState.idle GicState.mailbox
  by_cases hslot : (s.slot c).1 = 0x3FF
  · have hoff : mmioGiccInterruptActive c s = false := by
      rw [← Bool.not_eq_true, hactive]
      exact fun h => h hslot
    cases hq : s.sgirQueue c <;> simp [hslot, hoff]
  · have hon : mmioGiccInterruptActive c s = true := hactive.2 hslot
    rw [if_neg hslot]
    simp [hon]

/-- A mailbox that is empty stays so when it is moved on. -/
theorem next_idle (h : s.idle c = true) : (Mailbox.step .next (s.mailbox c)).1 = s.mailbox c := by
  have hbusy := (mailbox_busy c s).not.2 (by simp [h])
  unfold Mailbox.Busy at hbusy
  simp only [ne_eq, not_or, not_not] at hbusy
  cases hm : s.mailbox c with
  | mk backlog slot =>
    rw [hm] at hbusy
    obtain ⟨rfl, rfl⟩ := hbusy
    rfl

/-- The event moves core `c` on: a slice of it starts, or it writes `GICC_EOIR`. -/
def GicEvent.moves (c : Core) (e : GicEvent) : Bool :=
  e.core = c && match e.op with
    | .sliceStart => true
    | .access (.giccWrite addr _ _) => addr = giccEoir
    | _ => false

/-- What an event does to the mailbox of core `c`. -/
def GicEvent.mailOps (c : Core) (e : GicEvent) : List (Mailbox.Op Sgi) :=
  if e.moves c then [.next] else (e.sends c).toList.map .post

/-- A core that is moved on takes the next interrupt, or has none. -/
theorem moves_cases (c : Core) (e : GicEvent) (s : GicState) :
    (e.core = c ∧ e.advances s = true ∧ e.moves c = true) ∨
      (¬(e.core = c ∧ e.advances s = true) ∧ (e.moves c = true → s.idle c = true)) := by
  obtain ⟨core, op⟩ := e
  by_cases hc : core = c
  · subst hc
    rcases op with (_ | _ | _ | ⟨addr, data, size⟩) | _
    · exact .inr (by simp [GicEvent.advances, GicEvent.moves])
    · exact .inr (by simp [GicEvent.advances, GicEvent.moves])
    · exact .inr (by simp [GicEvent.advances, GicEvent.moves])
    · by_cases heoir : addr = giccEoir
      · exact .inl (by simp [GicEvent.advances, GicEvent.moves, heoir])
      · exact .inr (by simp [GicEvent.advances, GicEvent.moves, heoir])
    · cases hidle : s.idle core with
      | false => exact .inl (by simp [GicEvent.advances, GicEvent.moves, hidle])
      | true => exact .inr (by simp [GicEvent.advances, hidle])
  · exact .inr (by simp [GicEvent.moves, hc])

/-- **An event does to the mailbox what it says**, and what it takes there is what it installs. -/
theorem mailbox_event (c : Core) (e : GicEvent) (hs : GicInv s) :
    (Cmd.forEach Mailbox.step (e.mailOps c) (s.mailbox c)).1 = (e.exec s).1.1.mailbox c ∧
      Mailbox.taken (Cmd.forEach Mailbox.step (e.mailOps c) (s.mailbox c)).2 =
        ((e.exec s).1.2.filterMap (GicCall.installs c)).filter fun x => x.1 ≠ 0x3FF := by
  have hslot : Mailbox.taken (Mailbox.step .next (s.mailbox c)).2 = (s.mailbox c).backlog.head?.toList := by
    cases h : (s.mailbox c).backlog.head? <;> simp [Mailbox.step, Mailbox.taken, h]
  rw [mailbox_exec c e hs, exec_installs]
  unfold GicEvent.mailOps
  rcases moves_cases c e s with ⟨hc, hadv, hmoves⟩ | ⟨hstay, hidle⟩
  · rw [if_pos hmoves, if_pos ⟨hc, hadv⟩, if_pos ⟨hc, hadv⟩, Cmd.forEach_cons, Cmd.forEach_nil]
    refine ⟨rfl, ?_⟩
    dsimp only
    rw [List.append_nil, hslot]
    cases hq : s.sgirQueue c with
    | nil => simp [GicState.mailbox, hq, nextActive]
    | cons i q =>
      have hne : ¬i.sgi.1 = 1023#32 := hs.head_ne hq
      simp [GicState.mailbox, hq, nextActive, hne]
  · rw [if_neg hstay, if_neg hstay]
    by_cases hmoves : e.moves c = true
    · -- nothing waits, and nothing is shown
      have hnone := hidle hmoves
      have hempty : s.sgirQueue c = [] := by
        unfold GicState.idle at hnone
        rw [Bool.and_eq_true, List.isEmpty_iff] at hnone
        exact hnone.1
      have hsends : e.posts c = none := by
        obtain ⟨core, op⟩ := e
        rcases op with (_ | _ | _ | _) | _ <;> first | rfl | simp [GicEvent.moves] at hmoves
      rw [if_pos hmoves, Cmd.forEach_cons, Cmd.forEach_nil]
      dsimp only
      rw [List.append_nil, hslot, next_idle hnone, hsends]
      simp [GicState.mailbox, hempty]
    · rw [if_neg hmoves, ← posts_sgi]
      cases e.posts c with
      | none => simp [Mailbox.taken]
      | some i => simp [Cmd.forEach_cons, Mailbox.step, Mailbox.taken]

theorem nexts_mailOps (c : Core) (es : List GicEvent) :
    Mailbox.nexts (es.flatMap (GicEvent.mailOps c)) = es.countP (GicEvent.moves c) := by
  induction es with
  | nil => rfl
  | cons e es ih =>
    have hone : Mailbox.nexts (e.mailOps c) = if e.moves c then 1 else 0 := by
      unfold GicEvent.mailOps
      split
      · rfl
      · cases e.sends c <;> rfl
    have hsplit : Mailbox.nexts ((e :: es).flatMap (GicEvent.mailOps c)) =
        Mailbox.nexts (e.mailOps c) + Mailbox.nexts (es.flatMap (GicEvent.mailOps c)) := by
      rw [List.flatMap_cons]
      exact List.countP_append
    rw [hsplit, hone, ih, List.countP_cons]
    omega

/-- What a run takes from the mailbox are the real interrupts that it installs. -/
theorem mailbox_taken (c : Core) (es : List GicEvent) (hs : GicInv s) :
    Mailbox.taken (Cmd.forEach Mailbox.step (es.flatMap (GicEvent.mailOps c)) (s.mailbox c)).2 =
      (installed c (Cmd.forEach gicStep es s).2).filter fun x => x.1 ≠ 0x3FF := by
  induction es generalizing s with
  | nil => rfl
  | cons e es ih =>
    obtain ⟨hend, htaken⟩ := mailbox_event c e hs
    have hrest := ih (gicInv_exec e hs)
    have hstep : Mailbox.taken (Cmd.forEach Mailbox.step ((e :: es).flatMap (GicEvent.mailOps c)) (s.mailbox c)).2 =
        Mailbox.taken (Cmd.forEach Mailbox.step (e.mailOps c) (s.mailbox c)).2 ++
          Mailbox.taken (Cmd.forEach Mailbox.step (es.flatMap (GicEvent.mailOps c)) ((e.exec s).1.1.mailbox c)).2 := by
      rw [List.flatMap_cons, Cmd.forEach_append, hend]
      exact List.filterMap_append
    rw [hstep, htaken, hrest, ← List.filter_append]
    rfl

/-- **The interrupts that wait for core `c` are the next ones put into its slot**, in their order, one with each move. -/
theorem mailbox_delivers (c : Core) (es : List GicEvent) (hs : GicInv s) :
    ((s.sgirQueue c).map GicdInterrupt.sgi).take (es.countP (GicEvent.moves c)) <+:
      (installed c (Cmd.forEach gicStep es s).2).filter fun x => x.1 ≠ 0x3FF := by
  have hdelivers := Mailbox.delivers (es.flatMap (GicEvent.mailOps c)) (s.mailbox c)
  rw [nexts_mailOps, mailbox_taken c es hs] at hdelivers
  exact hdelivers

/-- A core reads from `GICC_IAR` what its mailbox shows. -/
theorem read_iar (hs : GicInv s) (c : Core) (size : BitVec 32) :
    mmioGiccRead c giccIar size s = iarWord (s.mailbox c).slot := by
  unfold mmioGiccRead GicState.mailbox
  rw [if_pos rfl]
  by_cases hslot : (s.slot c).1 = 0x3FF
  · -- an empty slot has sender 0
    have hspur : s.slot c = (0x3FF, 0) := by
      rcases hs.active c with h | ⟨hlt, -⟩
      · exact h
      · rw [hslot] at hlt
        exact absurd hlt (by decide)
    obtain ⟨hid, hcpu⟩ := Prod.mk.inj hspur
    rw [if_pos hslot, hid, hcpu]
    rfl
  · rw [if_neg hslot]
    rfl

end Event

/-! ## One event of the guest -/

section Guest

variable {c : Core}

theorem mail_quiet {cmd : Cmd Emulator EmuRec} (hkeeps : Keeps (fun s => s.host.gic) cmd)
    (hrec : Leaves (sgiBus c).Ignores cmd) : Triple (sgiBus c) (MailIs c) cmd (MailIs c) := by
  refine .quiet (fun s k hs => ?_) hrec
  have hgic : (cmd s).1.host.gic = s.host.gic := hkeeps s
  unfold MailIs
  rw [hgic]
  exact hs

/-- A moment at which the controller is as it was. -/
theorem moment_stays {mo : Moment} {k : Mailbox Sgi} (hcall : mo.gicRec = []) (hmail : mo.host.gic.mailbox c = k) :
    (sgiBus c).Stays k (.host mo) := by
  obtain ⟨call, h⟩ := mo
  cases call with
  | handleInterrupts core r => simp [Moment.gicRec] at hcall
  | gic core r => simp [Moment.gicRec] at hcall
  | _ => exact ⟨rfl, hmail, trivial⟩

/-- A command of the host without a call of the controller's. -/
theorem onHost_mail {cmd : Cmd Host Moment} (hgic : Triple gicTrack GicIs cmd GicIs)
    (hcalls : Leaves (fun mo => mo.gicRec = []) cmd) : Triple (sgiBus c) (MailIs c) (onHost cmd) (MailIs c) := by
  refine Triple.stays (fun s k hs => ?_) fun s k hs o ho => ?_
  · obtain ⟨hacc, hend⟩ := hgic s.host _ rfl
    have hfinal : (cmd s.host).1.gic = s.host.gic := hend.trans (gicTrack_quiet hacc (hcalls s.host)).2
    unfold MailIs onHost
    dsimp only
    rw [hfinal]
    exact hs
  · obtain ⟨mo, hmo, rfl⟩ := List.mem_map.1 ho
    have hacc := (hgic s.host _ rfl).1
    refine moment_stays (hcalls s.host mo hmo) ?_
    rw [(gicTrack_quiet hacc (hcalls s.host)).1 mo hmo]
    exact hs.2

/-- An effect that is not at the controller. -/
theorem act_mail (core : Core) {act : GuestAct} (hact : ∀ a, act ≠ .gic a) :
    Triple (sgiBus c) (MailIs c) (guestAct core act) (MailIs c) := by
  refine onHost_mail (guestStep_gic core act) fun h mo hmo => ?_
  cases act with
  | gic a => exact absurd rfl (hact a)
  | _ => rw [List.mem_singleton.1 hmo]; rfl

/-- An access to the controller, after the record of the access on the bus has moved the mailbox. -/
theorem gic_mail (core : Core) (a : GicAccess) {s : Emulator} {k : Mailbox Sgi} (hs : GicInv s.host.gic)
    (hk : ((⟨core, .access a⟩ : GicEvent).exec s.host.gic).1.1.mailbox c = k) :
    (sgiBus c).Accepts k (guestAct core (.gic a) s).2 ∧
      MailIs c (guestAct core (.gic a) s).1 ((sgiBus c).run k (guestAct core (.gic a) s).2) := by
  refine ⟨⟨⟨hk, ?_⟩, trivial⟩, gicInv_exec _ hs, hk⟩
  show .raiseIrq c ∉ ((⟨core, .access a⟩ : GicEvent).exec s.host.gic).1.2
  rw [exec_raise]
  simp

theorem read_mail (core : Core) (addr : BitVec 64) (size : BitVec 32) (timeUs : BitVec 64) {s : Emulator}
    {k : Mailbox Sgi} (hin : s.host.InSlice core) (hs : MailIs c s k) :
    (sgiBus c).Accepts k (emuRead core addr size timeUs s).2 ∧
      MailIs c (emuRead core addr size timeUs s).1 ((sgiBus c).run k (emuRead core addr size timeUs s).2) := by
  have hiar : giccIar < Device.gicc.size := by decide
  have hvalue : core = c → addr = Device.gicc.base + giccIar →
      (s.host.window core addr).map (fun t => s.readDevice core t.1 t.2 size timeUs) = some (iarWord k.slot) := by
    rintro rfl rfl
    rw [(window_iff hin _ giccIar .gicc).2 ⟨rfl, hiar⟩, ← hs.2]
    exact congrArg some (read_iar hs.1 core size)
  have heffect : ∀ target, (sgiBus c).Accepts k (readTarget core size target s).2 ∧
      MailIs c (readTarget core size target s).1 ((sgiBus c).run k (readTarget core size target s).2) := by
    intro target
    rcases readTarget_cases core size target with h | ⟨off, h⟩ | ⟨off, h⟩
    · rw [h]; exact ⟨trivial, hs⟩
    · rw [h]; exact gic_mail core _ hs.1 hs.2
    · rw [h]; exact gic_mail core _ hs.1 hs.2
  exact ⟨⟨hvalue, (heffect _).1⟩, (heffect _).2⟩

/-- What a write on the bus does to the mailbox, by the window that it goes to. -/
theorem mailOps_write (core : Core) (addr data : BitVec 64) (size : BitVec 32) {s : Emulator}
    (hin : s.host.InSlice core) (target : Option (Device × BitVec 64)) :
    EmuRec.mailOps c (.write core addr data size target) =
      if s.host.window core addr = some (.gicd, gicdSgir) ∧ c ∈ sgirTargets core data then
        [.post (sgirEntry core data).sgi]
      else if s.host.window core addr = some (.gicc, giccEoir) ∧ core = c then [.next]
      else [] := by
  have hsgir : gicdSgir < Device.gicd.size := by decide
  have heoir : giccEoir < Device.gicc.size := by decide
  have h1 : s.host.window core addr = some (.gicd, gicdSgir) ↔ addr = Device.gicd.base + gicdSgir := by
    rw [window_iff hin]
    exact and_iff_left hsgir
  have h2 : s.host.window core addr = some (.gicc, giccEoir) ↔ addr = Device.gicc.base + giccEoir := by
    rw [window_iff hin]
    exact and_iff_left heoir
  simp only [EmuRec.mailOps, h1, h2, List.contains_iff_mem]

/-- A write to the distributor posts to the mailboxes of its targets. -/
theorem exec_gicdWrite (core : Core) (off data : BitVec 64) (size : BitVec 32) {s : GicState} (hs : GicInv s) :
    ((⟨core, .access (.gicdWrite off data size)⟩ : GicEvent).exec s).1.1.mailbox c =
      (Cmd.forEach Mailbox.step
        (if off = gicdSgir ∧ c ∈ sgirTargets core data then [.post (sgirEntry core data).sgi] else [])
        (s.mailbox c)).1 := by
  have hops : (⟨core, .access (.gicdWrite off data size)⟩ : GicEvent).mailOps c =
      if off = gicdSgir ∧ c ∈ sgirTargets core data then [.post (sgirEntry core data).sgi] else [] := by
    have hstay : (⟨core, .access (.gicdWrite off data size)⟩ : GicEvent).moves c = false := by simp [GicEvent.moves]
    unfold GicEvent.mailOps
    rw [hstay, ← posts_sgi]
    unfold GicEvent.posts
    by_cases hpost : off = gicdSgir ∧ c ∈ sgirTargets core data <;> simp [hpost]
  rw [← hops]
  exact (mailbox_event c _ hs).1.symm

/-- A write to the interface of a core moves its mailbox on, if it is the completion. -/
theorem exec_giccWrite (core : Core) (off data : BitVec 64) (size : BitVec 32) {s : GicState} (hs : GicInv s) :
    ((⟨core, .access (.giccWrite off data size)⟩ : GicEvent).exec s).1.1.mailbox c =
      (Cmd.forEach Mailbox.step (if off = giccEoir ∧ core = c then [.next] else []) (s.mailbox c)).1 := by
  have hops : (⟨core, .access (.giccWrite off data size)⟩ : GicEvent).mailOps c =
      if off = giccEoir ∧ core = c then [.next] else [] := by
    unfold GicEvent.mailOps GicEvent.moves GicEvent.sends
    by_cases heoir : off = giccEoir <;> by_cases hc : core = c <;> simp [heoir, hc]
  rw [← hops]
  exact (mailbox_event c _ hs).1.symm

theorem write_mail (core : Core) (addr data : BitVec 64) (size : BitVec 32) {s : Emulator} {k : Mailbox Sgi}
    (hin : s.host.InSlice core) (hs : MailIs c s k) :
    (sgiBus c).Accepts k (emuWrite core addr data size s).2 ∧
      MailIs c (emuWrite core addr data size s).1 ((sgiBus c).run k (emuWrite core addr data size s).2) := by
  obtain ⟨hinv, rfl⟩ := hs
  have hops := mailOps_write (c := c) core addr data size hin (s.host.window core addr)
  cases hw : s.host.window core addr with
  | none =>
    rw [hw, if_neg (by simp), if_neg (by simp)] at hops
    rw [emuWrite_none hw]
    refine ⟨⟨trivial, trivial⟩, hinv, ?_⟩
    show s.host.gic.mailbox c = (Cmd.forEach Mailbox.step (EmuRec.mailOps c _) _).1
    rw [hops]
    rfl
  | some t =>
    obtain ⟨dev, off⟩ := t
    rw [hw] at hops
    have hnext : (sgiBus c).next (s.host.gic.mailbox c) (.write core addr data size (some (dev, off))) =
        (Cmd.forEach Mailbox.step (EmuRec.mailOps c (.write core addr data size (some (dev, off))))
          (s.host.gic.mailbox c)).1 := rfl
    have hother : dev ≠ .gicd → dev ≠ .gicc →
        (sgiBus c).next (s.host.gic.mailbox c) (.write core addr data size (some (dev, off))) =
          s.host.gic.mailbox c := by
      intro hd hc
      rw [hnext, hops, if_neg (by simp [hd]), if_neg (by simp [hc])]
      rfl
    rw [emuWrite_window hw, Monitor.accepts_cons, Monitor.run_cons]
    cases dev
    case gicd =>
      have hk : (sgiBus c).next (s.host.gic.mailbox c) (.write core addr data size (some (.gicd, off))) =
          ((⟨core, .access (.gicdWrite off data size)⟩ : GicEvent).exec s.host.gic).1.1.mailbox c := by
        rw [hnext, hops, exec_gicdWrite core off data size hinv]
        simp
      obtain ⟨hacc, hend⟩ := gic_mail core (.gicdWrite off data size) hinv hk.symm
      exact ⟨⟨trivial, hacc⟩, hend⟩
    case gicc =>
      have hk : (sgiBus c).next (s.host.gic.mailbox c) (.write core addr data size (some (.gicc, off))) =
          ((⟨core, .access (.giccWrite off data size)⟩ : GicEvent).exec s.host.gic).1.1.mailbox c := by
        rw [hnext, hops, exec_giccWrite core off data size hinv]
        simp
      obtain ⟨hacc, hend⟩ := gic_mail core (.giccWrite off data size) hinv hk.symm
      exact ⟨⟨trivial, hacc⟩, hend⟩
    case uart =>
      rw [hother (by simp) (by simp)]
      have hquiet : ∀ o ∈ (writeDevice core .uart off data size s).2, (sgiBus c).Ignores o := by
        intro o ho
        obtain ⟨out, -, rfl⟩ := List.mem_map.1 ho
        exact fun k => ⟨rfl, trivial⟩
      obtain ⟨hacc, hrun⟩ := Monitor.Ignores.list hquiet (s.host.gic.mailbox c)
      exact ⟨⟨trivial, hacc⟩, hinv, hrun.symm⟩
    all_goals
      rw [hother (by simp) (by simp)]
      exact ⟨⟨trivial, trivial⟩, hinv, rfl⟩

theorem code_mail (core : Core) (address : BitVec 64) (insn : Option (BitVec 32)) :
    Triple (sgiBus c) (MailIs c) (emuCode core address insn) (MailIs c) := by
  have hcall : ∀ call, Triple (sgiBus c) (MailIs c) (hookCallEffect core call) (MailIs c) := by
    intro call
    cases call with
    | emuStop c' => exact .skip
    | hang c' address => exact act_mail core (by simp)
  intro s
  refine Triple.andThen (R := MailIs c) (mail_quiet (fun _ => rfl) (.emit ?_)) (.forEach hcall _) s
  exact fun _ k => ⟨rfl, trivial⟩

theorem exception_mail (core : Core) (exceptno : BitVec 32) (i : ExceptionIn) :
    Triple (sgiBus c) (MailIs c) (emuException core exceptno i) (MailIs c) := by
  have hcall : ∀ call, Triple (sgiBus c) (MailIs c) (engineCall core call) (MailIs c) := by
    intro call
    cases call with
    | regWrite engine reg val => exact mail_quiet (fun _ => rfl) (.emit fun _ k => ⟨rfl, trivial⟩)
    | memWrite addr word =>
      have hstores : Triple (sgiBus c) (MailIs c) (Cmd.forEach (guestAct core) (wordStores addr word)) (MailIs c) := by
        unfold wordStores
        rw [List.mapIdx_eq_zipIdx_map, Cmd.forEach_map]
        refine Triple.forEach ?_ _
        rintro ⟨byte, k⟩
        exact act_mail core (by simp)
      exact hstores.guard
    | setOnline cpu => exact act_mail core (by simp)
    | setQuit => exact act_mail core (by simp)
  intro s k hs
  unfold emuException
  split
  · refine Triple.andThen (R := MailIs c) (mail_quiet (fun _ => rfl) (.emit ?_)) (.forEach hcall _) s k hs
    exact fun _ k => ⟨rfl, trivial⟩
  · exact ⟨⟨trivial, trivial⟩, hs⟩

theorem reads_mail {core : Core} {cmd : Cmd Emulator EmuRec} (h : Reads core cmd) :
    Triple (sgiBus c) (MailIs c) cmd (MailIs c) :=
  h.triple (fun _ _ _ hs => hs) (fun _ _ _ _ _ => ⟨rfl, trivial⟩) fun _ _ _ => ⟨rfl, trivial⟩

/-- **An event of the guest** does to the mailbox what it shows on the bus. -/
theorem event_mail (core : Core) (e : GuestEvent) : Triple (sgiBus c)
    (fun s k => s.host.InSlice core ∧ MailIs c s k) (guestEvent core e) (MailIs c) := by
  rintro s k ⟨hin, hs⟩
  cases e with
  | regs reg =>
    refine mail_quiet (fun _ => rfl) (.emit ?_) s k hs
    exact fun _ k => ⟨rfl, trivial⟩
  | load addr => exact act_mail core (by simp) s k hs
  | store addr byte => exact act_mail core (by simp) s k hs
  | read addr size timeUs => exact read_mail core addr size timeUs hin hs
  | write addr data size => exact write_mail core addr data size hin hs
  | code address insn => exact code_mail core address insn s k hs
  | exception exceptno i =>
    exact (reads_mail (hook_reads core exceptno i)).andThen (.guard (exception_mail core exceptno i)) s k hs
  | invalid type address ttbr => exact reads_mail (invalid_reads core type address ttbr) s k hs

end Guest

/-! ## Runs -/

/-- The start of a slice moves the mailbox of its core on, with an IRQ if there was something in it. -/
theorem inject_mail (c core : Core) : Triple (sgiBus c) (MailIs c)
    (onHost (gicEvent ⟨core, .sliceStart⟩ (.handleInterrupts core))) (MailIs c) := by
  rintro s k ⟨hinv, rfl⟩
  have hmail : ((⟨core, .sliceStart⟩ : GicEvent).exec s.host.gic).1.1.mailbox c =
      (Cmd.forEach Mailbox.step (if core = c then [.next] else []) (s.host.gic.mailbox c)).1 := by
    have hops : (⟨core, .sliceStart⟩ : GicEvent).mailOps c = if core = c then [.next] else [] := by
      simp [GicEvent.mailOps, GicEvent.moves, GicEvent.sends]
    rw [← hops]
    exact (mailbox_event c _ hinv).1.symm
  refine ⟨⟨⟨hmail, ?_⟩, trivial⟩, gicInv_exec _ hinv, hmail⟩
  show .raiseIrq c ∈ ((⟨core, .sliceStart⟩ : GicEvent).exec s.host.gic).1.2 ↔ _
  rw [exec_raise, mailbox_busy]
  simp

theorem enter_mail (core : Core) : Triple (sgiBus c) (MailIs c) (enterSlice core) (MailIs c) := by
  have hmap : ∀ addr size block, Leaves (fun mo => mo.gicRec = []) (memMapPtr core addr size block) := by
    intro addr size block h mo hmo
    rw [List.mem_singleton.1 hmo]
    rfl
  have hcalls : Leaves (fun mo => mo.gicRec = []) (Cmd.forEach id (enterCalls core)) :=
    .andThen (.emit fun _ => rfl) (.andThen (hmap _ _ _) (.andThen (hmap _ _ _)
      (.andThen (hmap _ _ _) (.andThen (.emit fun _ => rfl) .skip))))
  exact (onHost_mail (enter_gic core) hcalls).andThen (mail_quiet (fun _ => rfl) (.emit fun _ k => ⟨rfl, trivial⟩))

theorem leave_mail (core : Core) (x : EmuSlice) : Triple (sgiBus c) (MailIs c) (leaveSlice core x) (MailIs c) := by
  have hcalls : Leaves (fun mo : Moment => mo.gicRec = []) (Cmd.forEach id (leaveCalls core x.err x.ret)) :=
    .andThen (.emit fun _ => rfl) (.andThen (.emit fun _ => rfl) (.andThen (.emit fun _ => rfl)
      (.andThen (.emit fun _ => rfl) (.andThen (.emit fun _ => rfl) .skip))))
  exact onHost_mail (leave_gic core x.err x.ret) hcalls

theorem mailRule (c : Core) : EmuRule (sgiBus c) (fun s k => s.host.Idle ∧ MailIs c s k)
    (fun _ s k => s.host.Idle ∧ MailIs c s k) (fun core s k => s.host.InSlice core ∧ MailIs c s k) where
  inject core := by
    rintro s k ⟨⟨hi, hs⟩, -⟩
    obtain ⟨hacc, hend⟩ := inject_mail c core s k hs
    exact ⟨hacc, hi.inject core, hend⟩
  enter core := by
    rintro s k ⟨hi, hs⟩
    obtain ⟨hacc, hend⟩ := enter_mail core s k hs
    exact ⟨hacc, enterSlice_inSlice core hi, hend⟩
  event core e := by
    rintro s k ⟨-, hin, hs⟩
    obtain ⟨hacc, hend⟩ := event_mail core e s k ⟨hin, hs⟩
    refine ⟨hacc, fun c => ?_, hend⟩
    rw [event_regions]
    exact hin c
  leave core x := by
    rintro s k ⟨-, hin, hs⟩
    obtain ⟨hacc, hend⟩ := leave_mail core x s k hs
    refine ⟨hacc, ?_, hend⟩
    show (Cmd.forEach id (leaveCalls core x.err x.ret) s.host).1.Idle
    rw [leaveCalls_eq core ⟨[], x.err, x.ret⟩ hin]
    exact idle_withBanks_nil core _

/-- **Interrupts, from the bus to the core.** Over every run, the queue and the slot of each core are its mailbox at
every moment, the core reads from `GICC_IAR` what that shows, and it gets an IRQ with a slice exactly if it is not
empty. The interrupts that wait at any moment are the next ones put into the slot, in their order, one with each start
of a slice of the core and each of its writes to `GICC_EOIR`. -/
theorem sgi_mailbox (mem : HostBlock → ℕ → BitVec 8) (reg : Core → Reg → BitVec 64) (xs : List EmuSlice) (c : Core) :
    (sgiBus c).Accepts ⟨[], none⟩ (emulate mem reg xs).2 ∧
      ∀ pre mo post, moments (emulate mem reg xs).2 = pre ++ mo :: post →
        ((mo.host.gic.sgirQueue c).map GicdInterrupt.sgi).take ((gicEvents post).countP (GicEvent.moves c)) <+:
          (installed c (gicRecs post)).filter fun x => x.1 ≠ 0x3FF := by
  have hstart : MailIs c (Emulator.start mem reg) ⟨[], none⟩ := by
    unfold MailIs
    rw [start_gic mem reg]
    refine ⟨gicInv_init, ?_⟩
    unfold GicState.mailbox
    rw [gicInit_queue, gicInit_slot]
    rfl
  refine ⟨((mailRule c).run mem reg ⟨start_idle mem, hstart⟩ xs).1, fun pre mo post hsplit => ?_⟩
  have hacc := (emulate_track mem reg xs).1
  rw [hsplit, List.append_cons, gicTrack.accepts_append] at hacc
  have hmoment : gicTrack.run GicState.init (pre ++ [mo]) = mo.host.gic := by
    rw [gicTrack.run_append]
    rfl
  -- the controller at the moment, and what its run does from there
  have hinv : GicInv mo.host.gic := by
    have hbefore := gicInv_run (gicEvents (pre ++ [mo]))
    unfold gicRun at hbefore
    rwa [gicTrack_run hacc.1, hmoment] at hbefore
  have hafter := gicTrack_run hacc.2
  rw [hmoment] at hafter
  have hdelivers := mailbox_delivers c (gicEvents post) hinv
  rwa [hafter] at hdelivers

end Mooooooo
