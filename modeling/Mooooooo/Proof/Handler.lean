import Mooooooo.Proof.Sgi

/-!
# A guest's interrupt handler

`handler` is the loop of a guest's IRQ handler on one core: read `GICC_IAR`, stop if it
reads as spurious, else write `GICC_EOIR` and go round again. In every round other
events may come before the read and between the read and the write (`Round`), as long
as they leave the core's queue and slot alone (`GicEvent.Quiet`).

* `quiet_run`: quiet events change neither the queue nor the slot of the core.
* `handler_drains`: **the loop stops, having read the active SGI and then the queued
  ones in order**, and leaves the core with nothing to announce.
-/

namespace Mooooooo

/-! ## What happens around the handler -/

/-- The event sends core `c` nothing, and is neither its slice start nor a completion of its own. -/
structure GicEvent.Quiet (c : Core) (e : GicEvent) : Prop where
  posts : e.posts c = none
  eoir : ¬e.IsEoir c
  sliceStart : e ≠ ⟨c, .sliceStart⟩

theorem GicEvent.Quiet.not_advances {c : Core} {e : GicEvent} (h : e.Quiet c) (s : GicState) :
    ¬(e.core = c ∧ e.advances s = true) := by
  rintro ⟨hc, ha⟩
  rcases advances_cases hc ha with he | he
  · exact h.eoir he
  · exact h.sliceStart he

/-- Quiet events leave the core's queue and slot as they are. -/
theorem quiet_run {c : Core} {es : List GicEvent} (h : ∀ e ∈ es, e.Quiet c) (s : GicState) :
    (Cmd.forEach gicStep es s).1.sgirQueue c = s.sgirQueue c ∧
      (Cmd.forEach gicStep es s).1.slot c = s.slot c := by
  induction es generalizing s with
  | nil => exact ⟨rfl, rfl⟩
  | cons e es ih =>
    obtain ⟨he, hes⟩ := List.forall_mem_cons.1 h
    have hna := he.not_advances s
    have hqueue : (gicStep e s).1.sgirQueue c = s.sgirQueue c := by
      show (e.exec s).1.1.sgirQueue c = s.sgirQueue c
      rw [exec_queue, if_neg hna, he.posts]
      simp
    have hslot : (gicStep e s).1.slot c = s.slot c := by
      show (e.exec s).1.1.slot c = s.slot c
      rw [exec_slot, if_neg hna]
    obtain ⟨h1, h2⟩ := ih hes (gicStep e s).1
    rw [Cmd.forEach_cons]
    exact ⟨h1.trans hqueue, h2.trans hslot⟩

/-- The surroundings of one round of the handler: the events before its read and between
the read and the completion, and the operands of the two accesses. -/
structure Round where
  before : List GicEvent
  readSize : BitVec 32
  between : List GicEvent
  data : BitVec 64
  writeSize : BitVec 32

/-! ## The loop -/

/-- What a handler that has stopped did: the values it read and completed, the number of
its `GICC_EOIR` writes, and the state it leaves. -/
structure Drained where
  values : List (BitVec 64)
  eoirs : ℕ
  state : GicState

/-- The handler of core `c`, for at most as many rounds as there is fuel. -/
def handler (c : Core) : ℕ → (ℕ → Round) → GicState → Option Drained
  | 0, _, _ => none
  | fuel + 1, rounds, s =>
    let s := (Cmd.forEach gicStep (rounds 0).before s).1
    let v := mmioGiccRead c giccIar (rounds 0).readSize s
    if v &&& 0x3FF = 0x3FF then some ⟨[], 0, s⟩
    else
      let s := (Cmd.forEach gicStep (rounds 0).between s).1
      let s := (mmioGiccWrite c giccEoir (rounds 0).data (rounds 0).writeSize s).1
      (handler c fuel (fun k => rounds (k + 1)) s).map fun d => ⟨v :: d.values, d.eoirs + 1, d.state⟩

/-- A completion installs what `mmio_gicd_push_next_interrupt` takes from the queue. -/
theorem eoir_next (c : Core) (data : BitVec 64) (size : BitVec 32) (s : GicState) :
    (mmioGiccWrite c giccEoir data size s).1 = s.next c := by
  unfold mmioGiccWrite
  rw [if_pos rfl, pushNext_eq]

theorem next_inv {s : GicState} (hs : GicInv s) (c : Core) : GicInv (s.next c) := by
  have h := gicInv_exec ⟨c, .access (.giccWrite giccEoir 0 0)⟩ hs
  rw [← eoir_next c 0 0 s]
  exact h

theorem next_slot (s : GicState) (c : Core) : (s.next c).slot c = nextActive (s.sgirQueue c) := by
  simp [GicState.next, GicState.slot]

theorem next_queue (s : GicState) (c : Core) : (s.next c).sgirQueue c = (s.sgirQueue c).tail := by
  simp [GicState.next]

/-- The last round: the core reads the spurious id and stops. -/
theorem handler_stop {c : Core} {rounds : ℕ → Round} {s : GicState} (hs : GicInv s)
    (hbefore : ∀ e ∈ (rounds 0).before, e.Quiet c) (hspur : (s.slot c).1 = 0x3FF) (fuel : ℕ) :
    handler c (fuel + 1) rounds s = some ⟨[], 0, (Cmd.forEach gicStep (rounds 0).before s).1⟩ := by
  have hinv : GicInv (Cmd.forEach gicStep (rounds 0).before s).1 := Cmd.forEach_inv gicInv_step _ hs
  have hread := (iar_spurious_iff hinv c (rounds 0).readSize).2 (by rw [(quiet_run hbefore s).2]; exact hspur)
  unfold handler
  exact if_pos hread

/-- Any other round: the core reads the active interrupt, completes it, and goes on. -/
theorem handler_round {c : Core} (rounds : ℕ → Round) {s : GicState} (hs : GicInv s)
    (hbefore : ∀ e ∈ (rounds 0).before, e.Quiet c) (hbetween : ∀ e ∈ (rounds 0).between, e.Quiet c)
    (hact : (s.slot c).1 ≠ 0x3FF) :
    ∃ v s', iarDecode v = sgiWide (s.slot c) ∧ GicInv s' ∧ s'.sgirQueue c = (s.sgirQueue c).tail ∧
      s'.slot c = nextActive (s.sgirQueue c) ∧
      ∀ fuel, handler c (fuel + 1) rounds s =
        (handler c fuel (fun k => rounds (k + 1)) s').map fun d => ⟨v :: d.values, d.eoirs + 1, d.state⟩ := by
  set s1 := (Cmd.forEach gicStep (rounds 0).before s).1 with hs1
  set s2 := (Cmd.forEach gicStep (rounds 0).between s1).1 with hs2
  have hinv1 : GicInv s1 := Cmd.forEach_inv gicInv_step _ hs
  have hinv2 : GicInv s2 := Cmd.forEach_inv gicInv_step _ hinv1
  obtain ⟨hq1, hslot1⟩ := quiet_run hbefore s
  obtain ⟨hq2, hslot2⟩ := quiet_run hbetween s1
  have hact1 : (s1.slot c).1 ≠ 0x3FF := by rw [hslot1]; exact hact
  refine ⟨mmioGiccRead c giccIar (rounds 0).readSize s1, s2.next c, ?_, next_inv hinv2 c, ?_, ?_, ?_⟩
  · rw [iar_decode hinv1 hact1, hslot1]
  · rw [next_queue, hq2, hq1]
  · rw [next_slot, hq2, hq1]
  · intro fuel
    have hread : ¬mmioGiccRead c giccIar (rounds 0).readSize s1 &&& 0x3FF = 0x3FF := by
      rw [iar_spurious_iff hinv1]
      exact hact1
    rw [handler, if_neg hread]
    dsimp only
    rw [eoir_next]

/-- **The loop, from any state with an active interrupt**, by induction on the queue. -/
theorem handler_queue {c : Core} (q : List GicdInterrupt) {rounds : ℕ → Round} {s : GicState} (hs : GicInv s)
    (hq : s.sgirQueue c = q) (hact : (s.slot c).1 ≠ 0x3FF)
    (hquiet : ∀ k, ∀ e ∈ (rounds k).before ++ (rounds k).between, e.Quiet c) :
    ∃ values s', (∀ fuel, 2 + q.length ≤ fuel → handler c fuel rounds s = some ⟨values, 1 + q.length, s'⟩) ∧
      values.map iarDecode = (s.slot c :: q.map GicdInterrupt.sgi).map sgiWide ∧
      s'.sgirQueue c = [] ∧ s'.slot c = (0x3FF, 0) := by
  have hbefore : ∀ k, ∀ e ∈ (rounds k).before, e.Quiet c := fun k e he =>
    hquiet k e (List.mem_append_left _ he)
  have hbetween : ∀ k, ∀ e ∈ (rounds k).between, e.Quiet c := fun k e he =>
    hquiet k e (List.mem_append_right _ he)
  obtain ⟨v, t, hv, ht, htq, htslot, hround⟩ := handler_round rounds hs (hbefore 0) (hbetween 0) hact
  induction q generalizing rounds s v t with
  | nil =>
    -- nothing waits: the completion leaves the spurious id, and the next read stops
    rw [hq] at htq htslot
    obtain ⟨h1, h2⟩ := quiet_run (hbefore 1) t
    refine ⟨[v], (Cmd.forEach gicStep (rounds 1).before t).1, ?_, ?_, ?_, ?_⟩
    · intro fuel hfuel
      obtain ⟨n, rfl⟩ : ∃ n, fuel = n + 1 + 1 := ⟨fuel - 2, by simp at hfuel; omega⟩
      rw [hround, handler_stop ht (hbefore 1) (by rw [htslot]; rfl)]
      rfl
    · simp [hv]
    · rw [h1, htq]; rfl
    · rw [h2, htslot]; rfl
  | cons i q ih =>
    rw [hq] at htq htslot
    have hslot : t.slot c = i.sgi := htslot
    have hact' : (t.slot c).1 ≠ 0x3FF := by
      rw [htslot, ← hq, Ne, hs.next_ne, hq]
      simp
    obtain ⟨v', t', hv', ht', htq', htslot', hround'⟩ :=
      handler_round (fun k => rounds (k + 1)) ht (hbefore 1) (hbetween 1) hact'
    obtain ⟨values, s', hstop, hvalues, hqueue, hspur⟩ := ih ht htq hact' (fun k => hquiet (k + 1))
      (fun k => hbefore (k + 1)) (fun k => hbetween (k + 1)) v' t' hv' ht' htq' htslot' hround'
    refine ⟨v :: values, s', ?_, ?_, hqueue, hspur⟩
    · intro fuel hfuel
      rw [List.length_cons] at hfuel ⊢
      obtain ⟨n, rfl⟩ : ∃ n, fuel = n + 1 := ⟨fuel - 1, by omega⟩
      rw [hround, hstop n (by omega)]
      simp only [Option.map_some, Option.some.injEq, Drained.mk.injEq, true_and, and_true]
      omega
    · rw [List.map_cons, hv, hvalues, hslot]
      rfl

/-- **The handler drains the core.** From every state of every run in which core `c` has an
active SGI: the loop stops after one completion for it and one for each queued SGI, the
values it read decode to them in order, and nothing is left to announce. -/
theorem handler_drains (es : List GicEvent) (c : Core) (rounds : ℕ → Round)
    (hact : mmioGiccInterruptActive c (gicRun es).1 = true)
    (hquiet : ∀ k, ∀ e ∈ (rounds k).before ++ (rounds k).between, e.Quiet c) :
    ∃ values s',
      (∀ fuel, 2 + ((gicRun es).1.sgirQueue c).length ≤ fuel → handler c fuel rounds (gicRun es).1 =
        some ⟨values, 1 + ((gicRun es).1.sgirQueue c).length, s'⟩) ∧
      values.map iarDecode =
        ((gicRun es).1.slot c :: ((gicRun es).1.sgirQueue c).map GicdInterrupt.sgi).map sgiWide ∧
      s'.sgirQueue c = [] ∧ s'.slot c = (0x3FF, 0) ∧ mmioGicdHandleInterrupts c s' = (s', []) := by
  obtain ⟨values, s', hstop, hvalues, hqueue, hspur⟩ := handler_queue _ (gicInv_run es) rfl
    ((interruptActive_iff c _).1 hact) hquiet
  refine ⟨values, s', hstop, hvalues, hqueue, hspur, ?_⟩
  have hinactive : mmioGiccInterruptActive c s' = false := by
    rw [← Bool.not_eq_true, interruptActive_iff, hspur]
    simp
  rw [handleInterrupts_eq, if_pos (by simp [GicState.idle, hqueue, hinactive])]

/-- Cores 1 and 2 send core 0 an SGI each, and core 0's slice installs the first; while its
handler runs, core 1 completes something of its own. -/
theorem handler_drains_two : ∃ values s',
    (∀ fuel, 3 ≤ fuel → handler 0 fuel (fun _ => ⟨[⟨1, .access (.giccWrite giccEoir 0 4)⟩], 4, [], 0, 4⟩)
      (gicRun [⟨1, .access (.gicdWrite gicdSgir 0x1000A 4)⟩, ⟨2, .access (.gicdWrite gicdSgir 0x1000B 4)⟩,
        ⟨0, .sliceStart⟩]).1 = some ⟨values, 2, s'⟩) ∧
      values.map iarDecode = [(0xA, 1), (0xB, 2)] ∧ s'.sgirQueue 0 = [] ∧ s'.slot 0 = (0x3FF, 0) ∧
      mmioGicdHandleInterrupts 0 s' = (s', []) := by
  refine handler_drains [⟨1, .access (.gicdWrite gicdSgir 0x1000A 4)⟩,
    ⟨2, .access (.gicdWrite gicdSgir 0x1000B 4)⟩, ⟨0, .sliceStart⟩] 0 _ (by decide) fun k e he => ?_
  have he' : e = ⟨1, .access (.giccWrite giccEoir 0 4)⟩ := by simpa using he
  subst he'
  exact ⟨rfl, fun ⟨data, size, h⟩ => by simp at h, by simp⟩

end Mooooooo
