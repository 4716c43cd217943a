import Mooooooo.Proof.Sgi

/-!
# The cores do not disturb one another at the interrupt controller

`CoreView` is the controller as one core sees it: its two register banks, its queue as
a list of SGIs, its active slot. `coreStep` is what the core's own operations, and the
SGIs others send it, do to the view.

* `view_run`: **the controller, seen from core `c`, is the machine `coreStep` run on
  what `c` did and was sent.**
* `gic_noninterference`: two runs in which `c` did and was sent the same show `c` the
  same values and raise the same IRQs on it.
-/

namespace Mooooooo

/-! ## What a core does, is sent and sees -/

/-- What reaches the controller for one core: an operation of its own, or an SGI from
another core. -/
inductive CoreInput
  | own (op : GicOp)
  | sent (sgi : Sgi)
deriving DecidableEq, Repr

/-- What one core sees: the value an operation of its own returned, or an IRQ. -/
inductive CoreOutput
  | returned (value : BitVec 64)
  | raised
deriving DecidableEq, Repr

/-- The call as an IRQ on core `c`. -/
def GicCall.raises (c : Core) : GicCall → Option CoreOutput
  | .raiseIrq i => if i = c then some .raised else none
  | _ => none

def GicRec.inputs (c : Core) (r : GicRec) : List CoreInput :=
  if r.event.core = c then [.own r.event.op] else (r.calls.filterMap (GicCall.enqueues c)).map .sent

def GicRec.outputs (c : Core) (r : GicRec) : List CoreOutput :=
  (if r.event.core = c then [.returned r.value] else []) ++ r.calls.filterMap (GicCall.raises c)

/-- What core `c` did and was sent by others, in order. -/
def coreInputs (c : Core) (rs : List GicRec) : List CoreInput := rs.flatMap (GicRec.inputs c)

/-- What core `c` saw, in order. -/
def coreOutputs (c : Core) (rs : List GicRec) : List CoreOutput := rs.flatMap (GicRec.outputs c)

/-! ## The controller of one core -/

/-- The controller as one core sees it. -/
structure CoreView where
  gicdRegs : GicdRegs
  giccRegs : GiccRegs
  queue : List Sgi
  slot : Sgi

/-- On to the next interrupt. -/
def CoreView.advance (v : CoreView) : CoreView :=
  { v with queue := v.queue.tail, slot := v.queue.headD (0x3FF, 0) }

/-- What reaches the controller for core `c`, and what `c` sees of it. -/
def coreStep (c : Core) : CoreInput → Cmd CoreView CoreOutput
  | .sent sgi => fun v => ({ v with queue := v.queue ++ [sgi] }, [])
  | .own (.access (.gicdRead addr _)) => fun v => (v, [.returned (v.gicdRegs.read addr)])
  | .own (.access (.gicdWrite addr data size)) => fun v =>
    if addr = gicdSgir then
      let posted := GicEvent.posts ⟨c, .access (.gicdWrite addr data size)⟩ c
      ({ v with queue := v.queue ++ posted.toList.map GicdInterrupt.sgi }, [.returned 0])
    else ({ v with gicdRegs := v.gicdRegs.write addr data }, [.returned 0])
  | .own (.access (.giccRead addr _)) => fun v =>
    if addr = giccIar then (v, [.returned ((v.slot.1 ||| (v.slot.2 <<< 10)).signExtend 64)])
    else (v, [.returned (v.giccRegs.read addr)])
  | .own (.access (.giccWrite addr data _)) => fun v =>
    if addr = giccEoir then (v.advance, [.returned 0])
    else ({ v with giccRegs := v.giccRegs.write addr data }, [.returned 0])
  | .own .sliceStart => fun v =>
    if v.queue.isEmpty && v.slot.1 == 0x3FF then (v, [.returned 0]) else (v.advance, [.returned 0, .raised])

/-- The part of the controller's state that core `c` sees. -/
def GicState.view (c : Core) (s : GicState) : CoreView :=
  ⟨s.gicdRegsSet c, s.giccRegsSet c, (s.sgirQueue c).map GicdInterrupt.sgi, s.slot c⟩

/-! ## The controller refines it -/

theorem view_next (c : Core) (s : GicState) : (s.next c).view c = (s.view c).advance := by
  cases h : s.sgirQueue c <;> simp [GicState.view, CoreView.advance, GicState.next, GicState.slot, nextActive, h]

/-- What another core's event does to the view of core `c`: at most one SGI arrives. -/
theorem view_other {c : Core} {e : GicEvent} (hc : e.core ≠ c) (s : GicState) :
    (e.exec s).1.1.view c =
        { s.view c with queue := (s.view c).queue ++ (e.posts c).toList.map GicdInterrupt.sgi } ∧
      (e.exec s).1.2.filterMap (GicCall.enqueues c) = (e.posts c).toList.map GicdInterrupt.sgi ∧
      (e.exec s).1.2.filterMap (GicCall.raises c) = [] := by
  have hregs : (e.exec s).1.1.gicdRegsSet c = s.gicdRegsSet c ∧
      (e.exec s).1.1.giccRegsSet c = s.giccRegsSet c := by
    rcases exec_cases e s with ⟨data, size, hop, ha, hx⟩ | ⟨ha, hx⟩ | ⟨hop, ha, gicd, gicc, hx⟩
    · rw [hx]; exact ⟨rfl, rfl⟩
    · rw [hx]; exact ⟨rfl, rfl⟩
    · rw [hx]; simp [Ne.symm hc]
  refine ⟨?_, ?_, ?_⟩
  · simp [GicState.view, exec_slot, exec_queue, hc, hregs.1, hregs.2]
  · rw [filterMap_onBox c (enqueues_onBox c), exec_calls, if_neg (by simp [hc])]
    cases e.posts c <;> simp [GicCall.enqueues]
  · -- an IRQ is raised on the core of the event
    rw [List.filterMap_eq_nil_iff]
    intro x hx
    cases x with
    | raiseIrq i =>
      have hi : i ≠ c := by
        rintro rfl
        exact hc ((exec_raise e s i).1 hx).1
      simp [GicCall.raises, hi]
    | push i intr => rfl
    | setActive i id cpu => rfl

/-- What an operation of core `c` does to its view. -/
theorem view_own (c : Core) (op : GicOp) (s : GicState) :
    coreStep c (.own op) (s.view c) = ((GicEvent.exec ⟨c, op⟩ s).1.1.view c,
      .returned (GicEvent.exec ⟨c, op⟩ s).2 ::
        (GicEvent.exec ⟨c, op⟩ s).1.2.filterMap (GicCall.raises c)) := by
  cases op with
  | sliceStart =>
    have hidle : s.idle c = ((s.view c).queue.isEmpty && (s.view c).slot.1 == 0x3FF) := by
      simp [GicState.idle, GicState.view, GicState.slot, mmioGiccInterruptActive, bne]
    simp only [GicEvent.exec, coreStep, handleInterrupts_eq, ← hidle]
    split
    · rfl
    · simp [view_next, GicCall.raises, List.filterMap_cons]
  | access a =>
    cases a with
    | gicdRead addr size => rfl
    | giccRead addr size =>
      by_cases h : addr = giccIar <;>
        simp [GicEvent.exec, coreStep, mmioGiccRead, h, GicState.view, GicState.slot]
    | gicdWrite addr data size =>
      by_cases h : addr = gicdSgir
      · subst h
        -- a write to `GICD_SGIR` only pushes
        have hnone : ∀ is : List Core, (is.map (GicCall.push · (sgirEntry c data))).filterMap
            (GicCall.raises c) = [] := by
          intro is
          simp [GicCall.raises]
        simp only [GicEvent.exec, coreStep, mmioGicdWrite, if_true, writeSgir_eq, hnone]
        by_cases ht : c ∈ sgirTargets c data <;>
          simp [GicState.view, GicState.post, GicState.slot, GicEvent.posts, ht]
      · simp [GicEvent.exec, coreStep, mmioGicdWrite, h, GicState.view, GicState.slot]
    | giccWrite addr data size =>
      by_cases h : addr = giccEoir
      · simp [GicEvent.exec, coreStep, mmioGiccWrite, h, pushNext_eq, view_next, GicCall.raises]
      · simp [GicEvent.exec, coreStep, mmioGiccWrite, h, GicState.view, GicState.slot]

/-- **The controller, seen from core `c`, is the core's own machine.** -/
theorem view_run (c : Core) (es : List GicEvent) :
    Cmd.forEach (coreStep c) (coreInputs c (gicRun es).2) (GicState.init.view c) =
      ((gicRun es).1.view c, coreOutputs c (gicRun es).2) := by
  refine forEach_project (I := fun _ => True) (GicState.view c) (GicRec.inputs c) (GicRec.outputs c)
    (fun _ _ _ => trivial) (fun e s _ => ?_) es trivial
  by_cases hc : e.core = c
  · obtain ⟨c', op⟩ := e
    simp only at hc
    subst hc
    simp [gicStep, GicRec.inputs, GicRec.outputs, Cmd.forEach_cons, view_own]
  · obtain ⟨hview, hin, hout⟩ := view_other hc s
    simp only [gicStep, List.flatMap_singleton, GicRec.inputs, GicRec.outputs, hc, if_false, hin, hout, hview]
    cases e.posts c <;> simp [Cmd.forEach_cons, coreStep, GicState.view]

/-- **Non-interference.** What core `c` sees depends only on what it did and was sent. -/
theorem gic_noninterference (c : Core) (es es' : List GicEvent)
    (h : coreInputs c (gicRun es).2 = coreInputs c (gicRun es').2) :
    coreOutputs c (gicRun es).2 = coreOutputs c (gicRun es').2 := by
  have h1 := congrArg Prod.snd (view_run c es)
  have h2 := congrArg Prod.snd (view_run c es')
  rw [h] at h1
  exact h1.symm.trans h2

/-- Core 1 sends core 0 an SGI in both runs; in the second it also writes its own
registers and starts a slice. -/
theorem noninterference_two_runs :
    coreOutputs 0 (gicRun [⟨1, .access (.gicdWrite gicdSgir 0x10003 4)⟩, ⟨0, .sliceStart⟩,
      ⟨0, .access (.giccRead giccIar 4)⟩]).2 =
    coreOutputs 0 (gicRun [⟨1, .access (.giccWrite giccPmr 0xF0 4)⟩,
      ⟨1, .access (.gicdWrite gicdSgir 0x10003 4)⟩, ⟨1, .sliceStart⟩, ⟨0, .sliceStart⟩,
      ⟨1, .access (.giccWrite giccEoir 0 4)⟩, ⟨0, .access (.giccRead giccIar 4)⟩]).2 :=
  gic_noninterference 0 _ _ (by decide)

end Mooooooo
