import Mooooooo.Proof.Sgi

/-!
# How many IRQs a core gets

An IRQ is raised for an SGI that waits in the queue, and once more for the stale slot
that its installation leaves behind. So each SGI pays for two IRQs.

* `pending`: the IRQs a core can still get without being sent anything.
* `raises_bounded`: **at most two IRQs for each SGI queued**, over every run; and from
  any state reached, without new SGIs, at most `pending` more.
-/

namespace Mooooooo

/-- The calls of `uc_raise_irq` for core `c`. -/
def raises (c : Core) (rs : List GicRec) : ℕ := (rs.map fun r => r.calls.count (.raiseIrq c)).sum

/-- The IRQs that core `c` can still get: two for every SGI in its queue, one for an
active interrupt. -/
def pending (c : Core) (s : GicState) : ℕ :=
  2 * (s.sgirQueue c).length + if mmioGiccInterruptActive c s = true then 1 else 0

theorem raises_append (c : Core) (rs rs' : List GicRec) :
    raises c (rs ++ rs') = raises c rs + raises c rs' := by
  simp [raises]

theorem enqueued_append (c : Core) (rs rs' : List GicRec) :
    enqueued c (rs ++ rs') = enqueued c rs ++ enqueued c rs' := List.flatMap_append

theorem length_enqueued (c : Core) (rs : List GicRec) :
    (rs.map fun r => (r.calls.filterMap (GicCall.enqueues c)).length).sum = (enqueued c rs).length := by
  rw [enqueued, List.length_flatMap]

/-- An event raises at most one IRQ for core `c`. -/
theorem exec_count_raise (e : GicEvent) (s : GicState) (c : Core) :
    (e.exec s).1.2.count (.raiseIrq c) =
      if e.core = c ∧ e.op = .sliceStart ∧ s.idle c = false then 1 else 0 := by
  have hle : (e.exec s).1.2.count (.raiseIrq c) ≤ 1 := by
    rcases exec_cases e s with ⟨data, size, hop, ha, hx⟩ | ⟨ha, hx⟩ | ⟨hop, ha, gicd, gicc, hx⟩
    · have hno : GicCall.raiseIrq c ∉ (e.exec s).1.2 := by rw [hx]; simp
      rw [List.count_eq_zero_of_not_mem hno]
      exact Nat.zero_le 1
    · rw [hx, List.count_cons_of_ne (by simp)]
      split
      · exact List.count_le_length
      · simp
    · rw [hx]; simp
  have hmem := exec_raise e s c
  rw [← List.one_le_count_iff] at hmem
  split
  · rename_i h
    have := hmem.2 h
    omega
  · rename_i h
    have : ¬1 ≤ (e.exec s).1.2.count (.raiseIrq c) := fun h' => h (hmem.1 h')
    omega

/-- **One event pays for the IRQ it raises**: out of what is pending, or out of what it queues. -/
theorem raise_paid (c : Core) (e : GicEvent) {s : GicState} (hs : GicInv s) :
    (e.exec s).1.2.count (.raiseIrq c) + pending c (e.exec s).1.1 ≤
      pending c s + 2 * ((e.exec s).1.2.filterMap (GicCall.enqueues c)).length := by
  have hactive : ∀ t : GicState, mmioGiccInterruptActive c t = true ↔ (t.slot c).1 ≠ 0x3FF :=
    interruptActive_iff c
  unfold pending
  rw [exec_count_raise, exec_enqueues, exec_queue]
  simp only [hactive, exec_slot]
  by_cases hadv : e.core = c ∧ e.advances s = true
  · simp only [if_pos hadv]
    have hn := hs.next_ne (c := c)
    cases hq : s.sgirQueue c with
    | nil =>
      -- nothing is left: an IRQ is raised here only for an active interrupt
      have hraise : (e.core = c ∧ e.op = .sliceStart ∧ s.idle c = false) → (s.slot c).1 ≠ 0x3FF := by
        rintro ⟨-, -, hidle⟩
        rw [← hactive]
        simpa [GicState.idle, hq] using hidle
      have hspur : ¬(nextActive []).1 ≠ 0x3FF := fun h => h rfl
      rw [if_neg hspur]
      split
      · rename_i hr
        rw [if_pos (hraise hr)]
        simp
      · simp
    | cons i q =>
      have hlen : (i :: q).tail.length + 1 = (i :: q).length := by simp
      split <;> split <;> split <;> omega
  · have hraise : ¬(e.core = c ∧ e.op = .sliceStart ∧ s.idle c = false) := by
      rintro ⟨hc, hop, hidle⟩
      refine hadv ⟨hc, ?_⟩
      rw [← hc] at hidle
      simp [GicEvent.advances, hop, hidle]
    rw [if_neg hadv, if_neg hadv, if_neg hadv, if_neg hraise]
    simp only [List.length_append, List.length_map]
    omega

/-- From any state that keeps the invariant, the IRQs of a run are paid for. -/
theorem raises_paid (c : Core) (es : List GicEvent) {s : GicState} (hs : GicInv s) :
    raises c (Cmd.forEach gicStep es s).2 + pending c (Cmd.forEach gicStep es s).1 ≤
      pending c s + 2 * (enqueued c (Cmd.forEach gicStep es s).2).length := by
  have h := Cmd.forEach_potential (pending c) (fun r : GicRec => r.calls.count (.raiseIrq c))
    (fun r => 2 * (r.calls.filterMap (GicCall.enqueues c)).length) gicInv_step
    (fun e t ht => by simpa [gicStep] using raise_paid c e ht) es hs
  rw [List.sum_map_mul_left, length_enqueued] at h
  exact h

theorem pending_init (c : Core) : pending c GicState.init = 0 := by
  revert c; decide

/-- **IRQs are bounded by the SGIs sent.** At most two for each SGI queued for the core, none
for a core that was sent none, and after any run, without new SGIs, at most `pending` more. -/
theorem raises_bounded (es : List GicEvent) (c : Core) :
    raises c (gicRun es).2 ≤ 2 * (enqueued c (gicRun es).2).length ∧
      (enqueued c (gicRun es).2 = [] → raises c (gicRun es).2 = 0) ∧
      ∀ more, enqueued c (gicRun (es ++ more)).2 = enqueued c (gicRun es).2 →
        raises c (gicRun (es ++ more)).2 ≤ raises c (gicRun es).2 + pending c (gicRun es).1 := by
  have hall := raises_paid c es gicInv_init
  rw [pending_init] at hall
  have hbound : raises c (gicRun es).2 ≤ 2 * (enqueued c (gicRun es).2).length := by
    unfold gicRun
    omega
  refine ⟨hbound, ?_, ?_⟩
  · intro hnone
    rw [hnone] at hbound
    simpa using hbound
  · intro more hsame
    have hmore := raises_paid c more (gicInv_run es)
    rw [gicRun_append, enqueued_append] at hsame
    have hnew : enqueued c (Cmd.forEach gicStep more (gicRun es).1).2 = [] := by
      simpa using hsame
    rw [hnew] at hmore
    rw [gicRun_append, raises_append]
    simp only [List.length_nil] at hmore
    omega

end Mooooooo
