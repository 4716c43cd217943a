import Mooooooo.Spec.Gic

/-!
# What one event does to the interrupt controller

* `exec_cases`: **an event does one of three things**: a `GICD_SGIR` write queues one
  entry for every core it targets; a `GICC_EOIR` write, or a slice start that finds
  something to announce, moves its core to the next interrupt; any other event makes
  no call and changes at most the register banks of its core.
* `exec_calls`, `exec_slot`, `exec_queue`: the same, seen from one core `c`.
* `gicInv_run`: after every run, queued ids are below 16 and an active slot holds the
  spurious id with sender 0 or an id below 16.
-/

namespace Mooooooo

/-! ## Normal forms -/

/-- An `(intid, sender)` pair, or the content of an active slot. -/
abbrev Sgi := BitVec 32 × BitVec 32

/-- The (intid, sender) pair of an entry. -/
def GicdInterrupt.sgi (i : GicdInterrupt) : Sgi := (i.intid, i.sender)

/-- What `mmio_gicd_push_next_interrupt` installs for a queue. -/
def nextActive : List GicdInterrupt → Sgi
  | [] => (0x3FF, 0)
  | i :: _ => i.sgi

/-- The active slot of a core: `active_intr[c]` and `active_intr_cpu[c]`. -/
def GicState.slot (s : GicState) (c : Core) : Sgi := (s.activeIntr c, s.activeIntrCpu c)

/-- The cores whose queue a write of `data` to `GICD_SGIR` by `core` adds to. -/
def sgirTargets (core : Core) (data : BitVec 64) : List Core :=
  if (sgirEntry core data).target = gicdSgirTargetOthersVal then coreList.filter (· ≠ core)
  else if (sgirEntry core data).target = gicdSgirTargetSelfVal then [core]
  else coreList

/-- The state with an entry added to the queues of some cores. -/
def GicState.post (s : GicState) (is : List Core) (intr : GicdInterrupt) : GicState :=
  { s with sgirQueue := fun i => if i ∈ is then s.sgirQueue i ++ [intr] else s.sgirQueue i }

/-- The state with a core moved to its next interrupt. -/
def GicState.next (s : GicState) (core : Core) : GicState :=
  { s with
    sgirQueue := Function.update s.sgirQueue core (s.sgirQueue core).tail
    activeIntr := Function.update s.activeIntr core (nextActive (s.sgirQueue core)).1
    activeIntrCpu := Function.update s.activeIntrCpu core (nextActive (s.sgirQueue core)).2 }

/-- The slice start of a core with nothing queued and no active interrupt does nothing. -/
def GicState.idle (s : GicState) (core : Core) : Bool :=
  (s.sgirQueue core).isEmpty && !mmioGiccInterruptActive core s

/-- The event moves its core to the next interrupt. -/
def GicEvent.advances (e : GicEvent) (s : GicState) : Bool :=
  match e.op with
  | .access (.giccWrite addr _ _) => addr = giccEoir
  | .sliceStart => !s.idle e.core
  | _ => false

theorem pushNext_eq (core : Core) (s : GicState) :
    mmioGicdPushNextInterrupt core s = (s.next core,
      [.setActive core (nextActive (s.sgirQueue core)).1 (nextActive (s.sgirQueue core)).2]) := by
  unfold mmioGicdPushNextInterrupt
  cases h : s.sgirQueue core with
  | nil =>
    -- nothing is popped, and the tail of an empty queue is empty
    have hq : Function.update s.sgirQueue core [] = s.sgirQueue := by
      rw [← h]; exact Function.update_eq_self _ _
    simp [mmioGiccSetActiveInterrupt, GicState.next, nextActive, h, hq]
  | cons i q => simp [mmioGiccSetActiveInterrupt, sgirQueuePop, GicState.next, nextActive, h,
      GicdInterrupt.sgi]

/-- Pushing to distinct cores one after another. -/
theorem forEach_push (intr : GicdInterrupt) (is : List Core) (hn : is.Nodup) (s : GicState) :
    Cmd.forEach (fun i => sgirQueuePush i intr) is s = (s.post is intr, is.map (.push · intr)) := by
  induction is generalizing s with
  | nil => simp [GicState.post]
  | cons i is ih =>
    obtain ⟨hi, hn'⟩ := List.nodup_cons.1 hn
    rw [Cmd.forEach_cons, ih hn']
    simp only [sgirQueuePush, Cmd.emit_apply, GicState.post, List.map_cons, List.cons_append,
      List.nil_append, Prod.mk.injEq, and_true, GicState.mk.injEq]
    funext j
    -- the queue just pushed to is not among the others
    by_cases hj : j = i
    · subst hj; simp [hi]
    · simp [hj]

theorem writeSgir_eq (core : Core) (data : BitVec 64) (s : GicState) :
    mmioGicdWriteSgir core data s = (s.post (sgirTargets core data) (sgirEntry core data),
      (sgirTargets core data).map (.push · (sgirEntry core data))) := by
  unfold mmioGicdWriteSgir sgirTargets
  have hn : coreList.Nodup := by decide
  split
  · rw [Cmd.forEach_skip]; exact forEach_push _ _ (hn.filter _) s
  · split
    · have := forEach_push (sgirEntry core data) [core] (by simp) s
      simpa [Cmd.forEach_cons] using this
    · exact forEach_push _ _ hn s

theorem handleInterrupts_eq (core : Core) (s : GicState) :
    mmioGicdHandleInterrupts core s = if s.idle core then (s, []) else (s.next core,
      [.setActive core (nextActive (s.sgirQueue core)).1 (nextActive (s.sgirQueue core)).2,
        .raiseIrq core]) := by
  unfold mmioGicdHandleInterrupts GicState.idle
  split
  · rfl
  · simp [pushNext_eq, ucRaiseIrq]

/-! ## One event -/

/-- **What an event does.** It queues an entry, moves its core to the next interrupt,
or makes no call and leaves queues and slots alone. -/
theorem exec_cases (e : GicEvent) (s : GicState) :
    (∃ data size, e.op = .access (.gicdWrite gicdSgir data size) ∧ e.advances s = false ∧
      (e.exec s).1 = (s.post (sgirTargets e.core data) (sgirEntry e.core data),
        (sgirTargets e.core data).map (.push · (sgirEntry e.core data)))) ∨
    (e.advances s = true ∧ (e.exec s).1 = (s.next e.core,
      .setActive e.core (nextActive (s.sgirQueue e.core)).1 (nextActive (s.sgirQueue e.core)).2 ::
        if e.op = .sliceStart then [.raiseIrq e.core] else [])) ∨
    ((∀ data size, e.op ≠ .access (.gicdWrite gicdSgir data size)) ∧ e.advances s = false ∧
      ∃ gicd gicc, (e.exec s).1 = ({ s with
        gicdRegsSet := Function.update s.gicdRegsSet e.core gicd
        giccRegsSet := Function.update s.giccRegsSet e.core gicc }, [])) := by
  obtain ⟨c, op⟩ := e
  cases op with
  | sliceStart =>
    simp only [GicEvent.exec, GicEvent.advances, handleInterrupts_eq]
    by_cases h : s.idle c = true
    · right; right
      exact ⟨by simp, by simp [h], s.gicdRegsSet c, s.giccRegsSet c, by simp [h]⟩
    · right; left
      exact ⟨by simp [h], by simp [h]⟩
  | access a =>
    cases a with
    | gicdRead addr size =>
      right; right
      exact ⟨by simp, rfl, s.gicdRegsSet c, s.giccRegsSet c, by simp [GicEvent.exec]⟩
    | giccRead addr size =>
      right; right
      exact ⟨by simp, rfl, s.gicdRegsSet c, s.giccRegsSet c, by simp [GicEvent.exec]⟩
    | gicdWrite addr data size =>
      by_cases h : addr = gicdSgir
      · subst h
        left
        exact ⟨data, size, rfl, rfl, by simp [GicEvent.exec, mmioGicdWrite, writeSgir_eq]⟩
      · right; right
        refine ⟨by simp [h], rfl, (s.gicdRegsSet c).write addr data, s.giccRegsSet c, ?_⟩
        simp [GicEvent.exec, mmioGicdWrite, h]
    | giccWrite addr data size =>
      by_cases h : addr = giccEoir
      · right; left
        exact ⟨by simp [GicEvent.advances, h], by simp [GicEvent.exec, mmioGiccWrite, h, pushNext_eq]⟩
      · right; right
        refine ⟨by simp, by simp [GicEvent.advances, h], s.gicdRegsSet c, (s.giccRegsSet c).write addr data, ?_⟩
        simp [GicEvent.exec, mmioGiccWrite, h]

/-! ## One event, seen from one core -/

/-- The call is about the queue or the slot of core `c`. -/
def GicCall.onBox (c : Core) : GicCall → Bool
  | .push i _ => i = c
  | .setActive i _ _ => i = c
  | .raiseIrq _ => false

/-- The entry the event queues for core `c`, if any. -/
def GicEvent.posts (e : GicEvent) (c : Core) : Option GicdInterrupt :=
  match e.op with
  | .access (.gicdWrite addr data _) =>
    if addr = gicdSgir ∧ c ∈ sgirTargets e.core data then some (sgirEntry e.core data) else none
  | _ => none

theorem sgirTargets_nodup (core : Core) (data : BitVec 64) : (sgirTargets core data).Nodup := by
  have hn : coreList.Nodup := by decide
  unfold sgirTargets
  split
  · exact hn.filter _
  · split
    · simp
    · exact hn

theorem not_posts_of_advances {e : GicEvent} {s : GicState} (h : e.advances s = true) (c : Core) :
    e.posts c = none := by
  obtain ⟨c', op⟩ := e
  rcases op with (_ | _ | _ | _) | _ <;> simp_all [GicEvent.advances, GicEvent.posts]

theorem not_posts_of_ne {e : GicEvent} (h : ∀ data size, e.op ≠ .access (.gicdWrite gicdSgir data size))
    (c : Core) : e.posts c = none := by
  obtain ⟨c', op⟩ := e
  rcases op with (_ | _ | _ | _) | _ <;> simp_all [GicEvent.posts]

/-- The calls of an event on the queue and slot of core `c`. -/
theorem exec_calls (e : GicEvent) (s : GicState) (c : Core) :
    (e.exec s).1.2.filter (GicCall.onBox c) =
      if e.core = c ∧ e.advances s = true then
        [.setActive c (nextActive (s.sgirQueue c)).1 (nextActive (s.sgirQueue c)).2]
      else (e.posts c).toList.map (.push c) := by
  rcases exec_cases e s with ⟨data, size, hop, ha, hx⟩ | ⟨ha, hx⟩ | ⟨hop, ha, gicd, gicc, hx⟩
  · have hp : e.posts c = if c ∈ sgirTargets e.core data then some (sgirEntry e.core data) else none := by
      simp [GicEvent.posts, hop]
    rw [hx, if_neg (by simp [ha]), hp, List.filter_map]
    have : (GicCall.onBox c ∘ fun i => GicCall.push i (sgirEntry e.core data)) = fun i => decide (i = c) := by
      funext i; rfl
    rw [this]
    -- a core is a target at most once
    have hf : (sgirTargets e.core data).filter (fun i => decide (i = c)) =
        if c ∈ sgirTargets e.core data then [c] else [] := by
      rw [List.filter_eq, (sgirTargets_nodup e.core data).count]
      split <;> rfl
    rw [hf]
    split <;> simp
  · by_cases hc : e.core = c
    · subst hc
      rw [if_pos ⟨rfl, ha⟩, hx]
      split <;> simp [GicCall.onBox]
    · rw [if_neg (by simp [hc]), hx, not_posts_of_advances ha]
      split <;> simp [GicCall.onBox, hc]
  · rw [hx, not_posts_of_ne hop, if_neg (by simp [ha])]
    simp

/-- The slot of core `c` after an event. -/
theorem exec_slot (e : GicEvent) (s : GicState) (c : Core) :
    (e.exec s).1.1.slot c =
      if e.core = c ∧ e.advances s = true then nextActive (s.sgirQueue c) else s.slot c := by
  rcases exec_cases e s with ⟨data, size, hop, ha, hx⟩ | ⟨ha, hx⟩ | ⟨hop, ha, gicd, gicc, hx⟩
  · rw [hx, if_neg (by simp [ha])]; rfl
  · by_cases hc : e.core = c
    · subst hc; rw [if_pos ⟨rfl, ha⟩, hx]; simp [GicState.slot, GicState.next]
    · rw [if_neg (by simp [hc]), hx]; simp [GicState.slot, GicState.next, Ne.symm hc]
  · rw [hx, if_neg (by simp [ha])]; rfl

/-- The queue of core `c` after an event. -/
theorem exec_queue (e : GicEvent) (s : GicState) (c : Core) :
    (e.exec s).1.1.sgirQueue c =
      if e.core = c ∧ e.advances s = true then (s.sgirQueue c).tail
      else s.sgirQueue c ++ (e.posts c).toList := by
  rcases exec_cases e s with ⟨data, size, hop, ha, hx⟩ | ⟨ha, hx⟩ | ⟨hop, ha, gicd, gicc, hx⟩
  · have hp : e.posts c = if c ∈ sgirTargets e.core data then some (sgirEntry e.core data) else none := by
      simp [GicEvent.posts, hop]
    rw [hx, if_neg (by simp [ha]), hp]
    simp only [GicState.post]
    split <;> simp
  · by_cases hc : e.core = c
    · subst hc; rw [if_pos ⟨rfl, ha⟩, hx]; simp [GicState.next]
    · rw [if_neg (by simp [hc]), hx, not_posts_of_advances ha]; simp [GicState.next, Ne.symm hc]
  · rw [hx, not_posts_of_ne hop, if_neg (by simp [ha])]; simp

/-- An IRQ is raised by slice starts that find something to announce, on their own core. -/
theorem exec_raise (e : GicEvent) (s : GicState) (c : Core) :
    .raiseIrq c ∈ (e.exec s).1.2 ↔ e.core = c ∧ e.op = .sliceStart ∧ s.idle c = false := by
  rcases exec_cases e s with ⟨data, size, hop, ha, hx⟩ | ⟨ha, hx⟩ | ⟨hop, ha, gicd, gicc, hx⟩
  · rw [hx]; simp [hop]
  · rw [hx]
    by_cases hs : e.op = .sliceStart
    · simp only [GicEvent.advances, hs, Bool.not_eq_true'] at ha
      simp only [hs, if_true, List.mem_cons, reduceCtorEq, false_or, List.not_mem_nil, or_false,
        GicCall.raiseIrq.injEq, true_and]
      constructor
      · rintro rfl; exact ⟨rfl, ha⟩
      · exact fun h => h.1.symm
    · simp [hs]
  · rw [hx]
    simp only [List.not_mem_nil, false_iff, not_and]
    rintro rfl hs
    simpa [GicEvent.advances, hs] using ha

/-! ## The invariant -/

/-- Queued ids are below 16 and senders below 4; a slot holds the spurious id with
sender 0, or such a pair. -/
structure GicInv (s : GicState) : Prop where
  queued : ∀ c, ∀ i ∈ s.sgirQueue c, i.intid.toNat < 16 ∧ i.sender.toNat < 4
  active : ∀ c, s.slot c = (0x3FF, 0) ∨ (s.slot c).1.toNat < 16 ∧ (s.slot c).2.toNat < 4

theorem sgirEntry_bounds (core : Core) (data : BitVec 64) :
    (sgirEntry core data).intid.toNat < 16 ∧ (sgirEntry core data).sender.toNat < 4 := by
  constructor
  · have h15 : (gicdSgirIntidMask.setWidth 64).toNat = 15 := by decide
    have : data.toNat &&& 15 ≤ 15 := Nat.and_le_right
    simp only [sgirEntry, BitVec.toNat_setWidth, BitVec.toNat_and]
    rw [← BitVec.toNat_setWidth, h15]; omega
  · have := core.isLt
    simp only [sgirEntry, BitVec.toNat_ofNat]; omega

theorem GicEvent.posts_bounds {e : GicEvent} {c : Core} {i : GicdInterrupt} (h : e.posts c = some i) :
    i.intid.toNat < 16 ∧ i.sender.toNat < 4 := by
  unfold GicEvent.posts at h
  split at h
  · split at h
    · simp only [Option.some.injEq] at h; subst h; exact sgirEntry_bounds _ _
    · simp at h
  · simp at h

theorem gicInv_exec (e : GicEvent) {s : GicState} (h : GicInv s) : GicInv (e.exec s).1.1 := by
  constructor
  · intro c i hi
    rw [exec_queue] at hi
    split at hi
    · exact h.queued c i (List.mem_of_mem_tail hi)
    · rcases List.mem_append.1 hi with hi | hi
      · exact h.queued c i hi
      · rw [Option.mem_toList] at hi; exact e.posts_bounds hi
  · intro c
    rw [exec_slot]
    split
    · cases hq : s.sgirQueue c with
      | nil => exact .inl rfl
      | cons i q => exact .inr (h.queued c i (by rw [hq]; exact List.mem_cons_self))
    · exact h.active c

theorem gicInit_queue (c : Core) : GicState.init.sgirQueue c = [] := rfl

theorem gicInit_slot (c : Core) : GicState.init.slot c = (0x3FF, 0) := by
  revert c; decide

theorem gicInv_init : GicInv GicState.init :=
  ⟨fun c i hi => by rw [gicInit_queue] at hi; simp at hi, fun c => .inl (gicInit_slot c)⟩

theorem gicInv_step (e : GicEvent) (s : GicState) (h : GicInv s) : GicInv (gicStep e s).1 :=
  gicInv_exec e h

theorem gicRun_concat (pre : List GicEvent) (e : GicEvent) :
    gicRun (pre ++ [e]) = ((e.exec (gicRun pre).1).1.1, (gicRun pre).2 ++
      [⟨e, (e.exec (gicRun pre).1).2, (e.exec (gicRun pre).1).1.2⟩]) :=
  Cmd.forEach_concat gicStep pre e GicState.init

theorem gicRun_append (es more : List GicEvent) :
    gicRun (es ++ more) = ((Cmd.forEach gicStep more (gicRun es).1).1,
      (gicRun es).2 ++ (Cmd.forEach gicStep more (gicRun es).1).2) :=
  Cmd.forEach_append gicStep es more GicState.init

/-- **The invariant holds after every run.** -/
theorem gicInv_run (es : List GicEvent) : GicInv (gicRun es).1 :=
  Cmd.forEach_inv gicInv_step es gicInv_init

/-- An interrupt is active exactly when the slot is not the spurious one. -/
theorem interruptActive_iff (c : Core) (s : GicState) :
    mmioGiccInterruptActive c s = true ↔ (s.slot c).1 ≠ 0x3FF := by
  simp [mmioGiccInterruptActive, GicState.slot]

/-- What waits at a core is a real interrupt. -/
theorem GicInv.head_ne {s : GicState} (h : GicInv s) {c : Core} {i : GicdInterrupt} {q : List GicdInterrupt}
    (hq : s.sgirQueue c = i :: q) : i.sgi.1 ≠ 0x3FF := by
  have hid := (h.queued c i (by rw [hq]; exact List.mem_cons_self)).1
  intro h'
  unfold GicdInterrupt.sgi at h'
  dsimp only at h'
  rw [h'] at hid
  exact absurd hid (by decide)

theorem GicInv.next_ne {s : GicState} (h : GicInv s) {c : Core} :
    (nextActive (s.sgirQueue c)).1 = 0x3FF ↔ s.sgirQueue c = [] := by
  cases hq : s.sgirQueue c with
  | nil => simp [nextActive]
  | cons i q => exact iff_of_false (h.head_ne hq) (List.cons_ne_nil i q)

/-- The low ten bits of what a `GICC_IAR` read returns are the active id. -/
theorem iar_id {s : GicState} (h : GicInv s) (c : Core) (size : BitVec 32) :
    mmioGiccRead c giccIar size s &&& 0x3FF = ((s.slot c).1).setWidth 64 := by
  have hlt : (s.slot c).1.toNat < 2 ^ 10 := by
    rcases h.active c with h | h
    · rw [h]; decide
    · omega
  have hmask : ∀ i, (0x3FF : BitVec 64).getLsbD i = decide (i < 10) := by
    intro i
    rw [show (0x3FF : BitVec 64) = BitVec.ofNat 64 (2 ^ 10 - 1) from rfl, BitVec.getLsbD_ofNat,
      Nat.testBit_two_pow_sub_one]
    rcases lt_or_ge i 10 with hi | hi
    · simp [hi]; omega
    · simp [Nat.not_lt.2 hi]
  have hhigh : ∀ i, 10 ≤ i → (s.slot c).1.getLsbD i = false := fun i hi =>
    Nat.testBit_lt_two_pow (hlt.trans_le (Nat.pow_le_pow_right (by omega) hi))
  unfold mmioGiccRead
  rw [if_pos rfl]
  -- below bit 10 the sender has been shifted away; from bit 10 on the id has no bits
  apply BitVec.eq_of_getLsbD_eq
  intro i hi
  rw [BitVec.getLsbD_and, hmask, BitVec.getLsbD_setWidth]
  by_cases h10 : i < 10
  · have h32 : i < 32 := by omega
    rw [BitVec.getLsbD_signExtend, if_pos h32, BitVec.getLsbD_or, BitVec.getLsbD_shiftLeft]
    simp [h10, hi, GicState.slot]
  · simp [h10, hhigh i (by omega)]

/-- The core reads the spurious id exactly when its slot is spurious. -/
theorem iar_spurious_iff {s : GicState} (hs : GicInv s) (c : Core) (size : BitVec 32) :
    mmioGiccRead c giccIar size s &&& 0x3FF = 0x3FF ↔ (s.slot c).1 = 0x3FF := by
  rw [iar_id hs]
  constructor
  · intro h
    have := congrArg (BitVec.setWidth 32) h
    simpa using this
  · intro h
    rw [h]
    rfl

/-- How a guest decodes what it reads from `GICC_IAR`: the id, and the sender. -/
def iarDecode (v : BitVec 64) : BitVec 64 × BitVec 64 := (v &&& 0x3FF, v >>> 10)

/-- An SGI as the guest sees it. -/
def sgiWide (x : Sgi) : BitVec 64 × BitVec 64 := (x.1.setWidth 64, x.2.setWidth 64)

/-- Id and sender do not overlap in what a `GICC_IAR` read returns. -/
theorem iar_sender {s : GicState} {c : Core} (hid : (s.slot c).1.toNat < 16) (hcpu : (s.slot c).2.toNat < 4)
    (size : BitVec 32) : mmioGiccRead c giccIar size s >>> 10 = ((s.slot c).2).setWidth 64 := by
  have hall : ∀ i : Fin 16, ∀ j : Fin 4, ((BitVec.ofNat 32 i ||| (BitVec.ofNat 32 j <<< 10)).signExtend 64) >>> 10 =
      (BitVec.ofNat 32 j).setWidth 64 := by decide
  have h := hall ⟨_, hid⟩ ⟨_, hcpu⟩
  simp only [BitVec.ofNat_toNat, BitVec.setWidth_eq] at h
  exact h

/-- What the core reads while an interrupt is active decodes to the interrupt. -/
theorem iar_decode {s : GicState} (hs : GicInv s) {c : Core} (hact : (s.slot c).1 ≠ 0x3FF) (size : BitVec 32) :
    iarDecode (mmioGiccRead c giccIar size s) = sgiWide (s.slot c) := by
  rcases hs.active c with hspur | ⟨hid, hcpu⟩
  · rw [hspur] at hact
    exact absurd rfl hact
  · unfold iarDecode sgiWide
    rw [iar_id hs, iar_sender hid hcpu]

end Mooooooo
