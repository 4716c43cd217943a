import Mooooooo.Proof.GicStep

/-!
# Which cores a `GICD_SGIR` write reaches

The header names the target filter in bits 25:24 and gives it three values (list,
others, self); bits 23:16 are the list of target cores. `mmio_gicd_write` compares
its `target`, the core list, with the filter's values.

* `target_eq`: the code's `target` is the core list.
* `sgir_routing`: **for every state, sender and value, the write reaches the cores the
  filter names exactly when the core list happens to ask for the same cores**
  (`RouteCond`).
-/

namespace Mooooooo

/-- The target filter, bits 25:24, in place. -/
def sgirFilter (d : BitVec 32) : BitVec 32 := d &&& gicdSgirTargetListMask

/-- The target core list, bits 23:16. -/
def sgirCpuList (d : BitVec 32) : BitVec 8 := d.extractLsb' 16 8

/-- The queue of core `i` changed. -/
def Gains (s s' : GicState) (i : Core) : Prop := s'.sgirQueue i ≠ s.sgirQueue i

/-- From `s` to `s'`, the value `d` written to `GICD_SGIR` by `core` reached the cores
its filter names, each with one entry at the back, and nothing else changed. -/
structure Routed (core : Core) (d : BitVec 32) (s s' : GicState) : Prop where
  others : sgirFilter d = gicdSgirTargetOthers → ∀ i, Gains s s' i ↔ i ≠ core
  self : sgirFilter d = gicdSgirTargetSelf → ∀ i, Gains s s' i ↔ i = core
  list : sgirFilter d = gicdSgirTargetList → ∀ i : Core, Gains s s' i ↔ d.getLsbD (16 + i) = true
  entry : ∀ i, Gains s s' i → ∃ e, s'.sgirQueue i = s.sgirQueue i ++ [e] ∧ e.intid = d &&& 0xF ∧
    e.sender = BitVec.ofNat 32 core
  frame : s' = { s with sgirQueue := s'.sgirQueue }

/-- The core list asks for the cores that the filter names: exactly core 0 under
"others", exactly core 1 under "self", and under "list" every core, or core 1 alone
with core 1 sending. -/
structure RouteCond (core : Core) (d : BitVec 32) : Prop where
  others : sgirFilter d = gicdSgirTargetOthers → sgirCpuList d = 1
  self : sgirFilter d = gicdSgirTargetSelf → sgirCpuList d = 2
  list : sgirFilter d = gicdSgirTargetList →
    (∀ i : Core, (sgirCpuList d).getLsbD i = true) ∨ sgirCpuList d = 2 ∧ core = 1

theorem cpuList_bit (d : BitVec 32) (i : Core) : (sgirCpuList d).getLsbD i = d.getLsbD (16 + i) := by
  have := i.isLt
  unfold sgirCpuList
  rw [BitVec.getLsbD_extractLsb', decide_eq_true (by omega), Bool.true_and]

/-- **The code's `target` is the core list**, not the filter. -/
theorem target_eq (core : Core) (d : BitVec 32) :
    (sgirEntry core (d.setWidth 64)).target = (sgirCpuList d).setWidth 32 := by
  have hmask : (gicdSgirTargetMask.setWidth 64).toNat >>> 16 = 2 ^ 8 - 1 := by decide
  have hd : (d.setWidth 64).toNat = d.toNat := by
    rw [BitVec.toNat_setWidth]; exact Nat.mod_eq_of_lt (by have := d.isLt; omega)
  apply BitVec.eq_of_toNat_eq
  simp only [sgirEntry, sgirCpuList, gicdSgirTargetShift]
  rw [BitVec.toNat_setWidth, BitVec.toNat_ushiftRight, BitVec.toNat_and, hd,
    Nat.shiftRight_and_distrib, hmask, Nat.and_two_pow_sub_one_eq_mod, BitVec.toNat_setWidth,
    BitVec.extractLsb'_toNat]

theorem intid_eq (core : Core) (d : BitVec 32) :
    (sgirEntry core (d.setWidth 64)).intid = d &&& 0xF := by
  simp only [sgirEntry, gicdSgirIntidMask]
  rw [BitVec.setWidth_and]
  simp

/-- The targets, by the value of the core list. -/
theorem sgirTargets_eq (core : Core) (d : BitVec 32) :
    sgirTargets core (d.setWidth 64) =
      if sgirCpuList d = 1 then coreList.filter (· ≠ core)
      else if sgirCpuList d = 2 then [core] else coreList := by
  have hinj : ∀ k : BitVec 8, (sgirCpuList d).setWidth 32 = k.setWidth 32 ↔ sgirCpuList d = k := by
    intro k
    constructor
    · intro h
      have := congrArg (BitVec.setWidth 8) h
      simpa using this
    · exact fun h => by rw [h]
  unfold sgirTargets
  rw [target_eq, show gicdSgirTargetOthersVal = (1 : BitVec 8).setWidth 32 from rfl,
    show gicdSgirTargetSelfVal = (2 : BitVec 8).setWidth 32 from rfl]
  simp only [hinj]

/-- The queues that change are those of the targets. -/
theorem gains_iff (core : Core) (d : BitVec 32) (size : BitVec 32) (s : GicState) (i : Core) :
    Gains s (mmioGicdWrite core gicdSgir (d.setWidth 64) size s).1 i ↔
      i ∈ sgirTargets core (d.setWidth 64) := by
  unfold Gains mmioGicdWrite
  rw [if_pos rfl, writeSgir_eq]
  simp only [GicState.post]
  split <;> simp_all

/-- **SGI routing.** The write reaches the cores its filter names exactly when the
core list asks for the same cores. -/
theorem sgir_routing (s : GicState) (core : Core) (d size : BitVec 32) :
    Routed core d s (mmioGicdWrite core gicdSgir (d.setWidth 64) size s).1 ↔ RouteCond core d := by
  have hg := gains_iff core d size s
  simp only [sgirTargets_eq] at hg
  -- what the core list and the filter say, on the four cores
  have h1 : ∀ c : Core, (∀ i, i ∈ coreList.filter (· ≠ c) ↔ i ≠ c) ∧
      ¬(∀ i, i ∈ coreList.filter (· ≠ c) ↔ i = c) ∧
      ¬(∀ i : Core, i ∈ coreList.filter (· ≠ c) ↔ (1 : BitVec 8).getLsbD i = true) := by decide
  have h2 : ∀ c : Core, ¬(∀ i, i ∈ [c] ↔ i ≠ c) ∧ (∀ i, i ∈ [c] ↔ i = c) ∧
      ((∀ i : Core, i ∈ [c] ↔ (2 : BitVec 8).getLsbD i = true) ↔ c = 1) := by decide
  have h3 : ∀ c : Core, ¬(∀ i, i ∈ coreList ↔ i ≠ c) ∧ ¬(∀ i, i ∈ coreList ↔ i = c) := by decide
  have hall : ∀ i : Core, i ∈ coreList := by decide
  have hb1 : ¬∀ i : Core, (1 : BitVec 8).getLsbD i = true := by decide
  have hb2 : ¬∀ i : Core, (2 : BitVec 8).getLsbD i = true := by decide
  constructor
  · intro h
    have ho := h.others
    have hs := h.self
    have hl := h.list
    simp only [hg, ← cpuList_bit] at ho hs hl
    by_cases hc1 : sgirCpuList d = 1
    · simp only [hc1, if_true] at ho hs hl
      exact ⟨fun _ => hc1, fun hf => absurd (hs hf) (h1 core).2.1, fun hf => absurd (hl hf) (h1 core).2.2⟩
    · by_cases hc2 : sgirCpuList d = 2
      · simp only [hc2, show ¬(2 : BitVec 8) = 1 by decide, if_false, if_true] at ho hs hl
        exact ⟨fun hf => absurd (ho hf) (h2 core).1, fun _ => hc2,
          fun hf => .inr ⟨hc2, (h2 core).2.2.1 (hl hf)⟩⟩
      · simp only [if_neg hc1, if_neg hc2] at ho hs hl
        exact ⟨fun hf => absurd (ho hf) (h3 core).1, fun hf => absurd (hs hf) (h3 core).2,
          fun hf => .inl fun i => (hl hf i).1 (hall i)⟩
  · intro h
    refine ⟨?_, ?_, ?_, ?_, ?_⟩
    · intro hf i
      rw [hg, h.others hf, if_pos rfl]; exact (h1 core).1 i
    · intro hf i
      rw [hg, h.self hf, if_neg (by decide), if_pos rfl]; exact (h2 core).2.1 i
    · intro hf i
      rw [hg, ← cpuList_bit]
      rcases h.list hf with hb | ⟨hc2, hc⟩
      · have hn1 : sgirCpuList d ≠ 1 := fun hc => hb1 (by rw [← hc]; exact hb)
        have hn2 : sgirCpuList d ≠ 2 := fun hc => hb2 (by rw [← hc]; exact hb)
        rw [if_neg hn1, if_neg hn2]
        exact iff_of_true (hall i) (hb i)
      · rw [hc2, if_neg (by decide), if_pos rfl]; exact (h2 core).2.2.2 hc i
    · intro i hi
      have hi' := (gains_iff core d size s i).1 hi
      refine ⟨sgirEntry core (d.setWidth 64), ?_, intid_eq core d, rfl⟩
      unfold mmioGicdWrite
      rw [if_pos rfl, writeSgir_eq]
      simp [GicState.post, hi']
    · unfold mmioGicdWrite
      rw [if_pos rfl, writeSgir_eq]
      rfl

/-- A write with the filter "others" and an empty core list also reaches its sender. -/
theorem others_reaches_sender : ¬Routed 0 0x01000005 GicState.init
    (mmioGicdWrite 0 gicdSgir ((0x01000005 : BitVec 32).setWidth 64) 4 GicState.init).1 := by
  intro h
  have hg : Gains GicState.init
      (mmioGicdWrite 0 gicdSgir ((0x01000005 : BitVec 32).setWidth 64) 4 GicState.init).1 0 :=
    (gains_iff 0 0x01000005 4 GicState.init 0).2 (by decide)
  exact (h.others (by decide) 0).1 hg rfl

end Mooooooo
