import Mooooooo.Spec.Run

/-!
# The memory maps over slices and runs

* `initMap`: what `uc_init` maps into every engine.
* `slice_eq`: **a slice started with every engine on its initial map** maps the three
  banks, runs the guest, and leaves every engine on its initial map again.
* `sliceMaps`: the calls on the maps that a slice makes, and their order.
* `dram_exclusive`: at every moment of every run of `uc_run_stuff`, only the engine of
  the slice in progress has banks mapped.
-/

namespace Mooooooo

/-! ## The initial maps and the banks -/

/-- What `uc_init` maps into an engine. -/
def initMap : MemMap := [
  ⟨0x60005000, 0x60005400, 0x60005000, .mmio .timer⟩, ⟨0x50000000, 0x50040000, 0x50000000, .mmio .host1x⟩,
  ⟨0x6000C000, 0x6000C800, 0x6000C000, .mmio .system⟩, ⟨0x50060000, 0x50061000, 0x50060000, .mmio .mselect⟩,
  ⟨0x50041000, 0x50042000, 0x50041000, .mmio .gicd⟩, ⟨0x50042000, 0x50044000, 0x50042000, .mmio .gicc⟩,
  ⟨0x70019000, 0x7001A000, 0x70019000, .mmio .mc⟩, ⟨0x7001C000, 0x7001D000, 0x7001C000, .mmio .mc0⟩,
  ⟨0x7001D000, 0x7001E000, 0x7001D000, .mmio .mc1⟩, ⟨0x60006000, 0x60007000, 0x60006000, .mmio .car⟩,
  ⟨0x70003000, 0x70004000, 0x70003000, .mmio .pinmux⟩, ⟨0x70006000, 0x70007000, 0x70006000, .mmio .uart⟩,
  ⟨0x40000000, 0x40040000, 0x40000000, .host .iram⟩, ⟨0x7C010000, 0x7C020000, 0x7C010000, .host .tzram⟩]

/-- `uc_init` on an engine with nothing mapped gives it the initial map, and leaves
the other engines alone. -/
theorem ucInit_regions (core : Core) {h : Host} (hc : h.regions core = []) :
    (ucInit core h).regions = Function.update h.regions core initMap := by
  simp only [ucInit, mmioTimerInit, mmioHost1xInit, mmioSystemInit, mmioMselectInit, mmioGicdInit,
    mmioGiccInitMap, mmioMcInit, mmioCarInit, mmioPinmuxInit, mmioUartInit, ucMmioMap, ucMemMapPtr,
    Function.update_self, Function.update_idem, hc]
  exact congrArg (Function.update h.regions core) (by decide +kernel)

theorem init_regions (mem : HostBlock → ℕ → BitVec 8) (c : Core) : (Host.init mem).regions c = initMap := by
  have h0 : (ucInit 0 (Host.zero mem)).regions = Function.update (fun _ => []) 0 initMap :=
    ucInit_regions 0 rfl
  have h1 := ucInit_regions 1 (h := ucInit 0 (Host.zero mem)) (by rw [h0]; rfl)
  have h2 := ucInit_regions 2 (h := ucInit 1 (ucInit 0 (Host.zero mem))) (by rw [h1, h0]; rfl)
  have h3 := ucInit_regions 3 (h := ucInit 2 (ucInit 1 (ucInit 0 (Host.zero mem)))) (by rw [h2, h1, h0]; rfl)
  show (ucInit 3 (ucInit 2 (ucInit 1 (ucInit 0 (Host.zero mem))))).regions c = initMap
  rw [h3, h2, h1, h0]
  fin_cases c <;> rfl

/-- The three ranges that a slice maps. The last base has wrapped around to 0. -/
def bank : Region ℕ Backing := ⟨0x80000000, 0xC0000000, 0x80000000, .host .dram⟩
def bank2 : Region ℕ Backing := ⟨0xC0000000, 0x100000000, 0xC0000000, .host .dram2⟩
def bank3 : Region ℕ Backing := ⟨0, 0x40000000, 0, .host .dram3⟩

/-- The ranges that a slice maps, in the order in which it maps them. -/
abbrev banks : MemMap := [bank, bank2, bank3]

theorem mapping_bank : mapping (dramBase.setWidth 64) (dramSize.signExtend 64) (.host .dram) = bank := by
  decide

theorem mapping_bank2 : mapping ((dramBase + dramSize * 1).setWidth 64) (dramSize.signExtend 64)
    (.host .dram2) = bank2 := by decide

theorem mapping_bank3 : mapping ((dramBase + dramSize * 2).setWidth 64) (dramSize.signExtend 64)
    (.host .dram3) = bank3 := by decide

/-- The banks meet neither each other nor what `uc_init` mapped. -/
theorem disjoint_banks : Table.Disjoint (initMap ++ banks) := by decide

/-! ## One engine with banks mapped -/

/-- The host with the banks `ts` mapped into the engine of a core, and every engine
otherwise on its initial map. -/
def Host.withBanks (core : Core) (ts : MemMap) (h : Host) : Host :=
  { h with regions := fun c => if c = core then initMap ++ ts else initMap }

/-- Every engine is on its initial map. -/
def Host.Idle (h : Host) : Prop := ∀ c, h.regions c = initMap

theorem idle_init (mem : HostBlock → ℕ → BitVec 8) : (Host.init mem).Idle := init_regions mem

theorem withBanks_of_regions {core : Core} {ts : MemMap} {h : Host}
    (hr : h.regions = fun c => if c = core then initMap ++ ts else initMap) : h.withBanks core ts = h := by
  unfold Host.withBanks; rw [← hr]

theorem idle_withBanks_nil (core : Core) (h : Host) : (h.withBanks core []).Idle := by
  intro c; simp [Host.withBanks]

theorem Host.Idle.withBanks_nil {h : Host} (hi : h.Idle) (core : Core) : h.withBanks core [] = h :=
  withBanks_of_regions (by funext c; simp [hi c])

@[simp] theorem withBanks_withBanks (core : Core) (ts ts' : MemMap) (h : Host) :
    (h.withBanks core ts).withBanks core ts' = h.withBanks core ts' := rfl

/-- Mapping a range that is free. -/
theorem memMapPtr_eq (core : Core) (ts : MemMap) (h : Host) {addr size : BitVec 64} {block : HostBlock}
    {r : Region ℕ Backing} (hm : mapping addr size (.host block) = r)
    (hc : Table.Clear (initMap ++ ts) r.lo r.hi) :
    memMapPtr core addr size block (h.withBanks core ts) = (h.withBanks core (ts ++ [r]),
      [⟨.memMapPtr core addr size block true, h.withBanks core (ts ++ [r])⟩]) := by
  have hr : (h.withBanks core ts).regions core = initMap ++ ts := by simp [Host.withBanks]
  have hmap : ucMemMapPtr core addr size block (h.withBanks core ts) =
      (h.withBanks core (ts ++ [r]), true) := by
    unfold ucMemMapPtr MemMap.mapRange
    rw [hr, hm, Table.add_of_clear hc]
    simp only [Host.withBanks, Prod.mk.injEq, and_true, Host.mk.injEq]
    funext c
    by_cases h' : c = core
    · subst h'; simp
    · simp [h']
  simp only [memMapPtr, record, Cmd.emit_apply, hmap]

/-- Unmapping the range of a bank that is mapped. -/
theorem memUnmap_eq (core : Core) (ts : MemMap) (h : Host) {addr size : BitVec 64} {back : Backing}
    {r : Region ℕ Backing} (hm : mapping addr size back = r) (hc : initMap.Clear r.lo r.hi)
    (hc' : Table.Clear ts r.lo r.hi) :
    memUnmap core addr size (h.withBanks core (r :: ts)) =
      (h.withBanks core ts, [⟨.memUnmap core addr size, h.withBanks core ts⟩]) := by
  have hr : (h.withBanks core (r :: ts)).regions core = initMap ++ r :: ts := by simp [Host.withBanks]
  have hle : r.lo ≤ r.hi := by rw [← hm]; exact Nat.le_add_right _ _
  have hun : ucMemUnmap core addr size (h.withBanks core (r :: ts)) = h.withBanks core ts := by
    have hcut : MemMap.unmapRange (initMap ++ r :: ts) addr size = initMap ++ ts := by
      have := Table.cut_mid hle hc hc'
      rw [← hm] at this ⊢
      exact this
    unfold ucMemUnmap
    rw [hr, hcut]
    simp only [Host.withBanks, Host.mk.injEq, and_true]
    funext c
    by_cases h' : c = core
    · subst h'; simp
    · simp [h']
  simp only [memUnmap, record, Cmd.emit_apply, hun]

/-! ## A slice -/

/-- Guest code does not change memory maps. -/
theorem guestStep_regions (core : Core) (act : GuestAct) (h : Host) :
    (guestStep core act h).1.regions = h.regions := by
  cases act with
  | load addr => rfl
  | store addr byte =>
    simp only [guestStep, record, Cmd.emit_apply, Host.writeByte]
    split <;> rfl
  | gic a => rfl
  | smcCpuOn cpu => rfl
  | quit => rfl

theorem guest_regions (core : Core) (acts : List GuestAct) (h : Host) :
    (Cmd.forEach (guestStep core) acts h).1.regions = h.regions :=
  Cmd.forEach_rel (fun s t => t.regions = s.regions) (fun _ => rfl)
    (fun a _ t ht => (guestStep_regions core a t).trans ht) acts h

/-- The run of the guest of a core in a slice, with the banks mapped. -/
def guestRun (core : Core) (acts : List GuestAct) (h : Host) : Host × List Moment :=
  Cmd.forEach (guestStep core) acts (h.withBanks core banks)

/-- The host after a slice: what the guest left, with `uc_quit` set on an error, and
every engine on its initial map. -/
def afterSlice (core : Core) (x : Slice) (h : Host) : Host :=
  let g := (guestRun core x.acts h).1
  (if x.err ≠ 0 then { g with ucQuit := true } else g).withBanks core []

/-- The moments of a slice up to the start of its guest. -/
def beforeGuest (core : Core) (h : Host) : List Moment := [
  ⟨.runSlice core, h⟩,
  ⟨.memMapPtr core (dramBase.setWidth 64) (dramSize.signExtend 64) .dram true, h.withBanks core [bank]⟩,
  ⟨.memMapPtr core ((dramBase + dramSize * 1).setWidth 64) (dramSize.signExtend 64) .dram2 true,
    h.withBanks core [bank, bank2]⟩,
  ⟨.memMapPtr core ((dramBase + dramSize * 2).setWidth 64) (dramSize.signExtend 64) .dram3 true,
    h.withBanks core banks⟩,
  ⟨.emuStart core, h.withBanks core banks⟩]

/-- The moments of a slice from the end of its guest, with the host after the slice. -/
def afterGuest (core : Core) (x : Slice) (h : Host) : List Moment := [
  ⟨.emuEnd core x.err, h.withBanks core banks⟩,
  ⟨.memUnmap core (dramBase.setWidth 64) (dramSize.signExtend 64), h.withBanks core [bank2, bank3]⟩,
  ⟨.memUnmap core ((dramBase + dramSize * 1).setWidth 64) (dramSize.signExtend 64),
    h.withBanks core [bank3]⟩,
  ⟨.memUnmap core ((dramBase + dramSize * 2).setWidth 64) (dramSize.signExtend 64), h⟩,
  ⟨.sliceEnd core x.err x.ret, h⟩]

/-- **A slice.** -/
theorem slice_eq (core : Core) (x : Slice) {h : Host} (hi : h.Idle) :
    ucCoreRunSlice core x h = (afterSlice core x h,
      beforeGuest core h ++ (guestRun core x.acts h).2 ++ afterGuest core x (afterSlice core x h)) := by
  -- each bank is free when it is mapped
  have hm1 := memMapPtr_eq core [] h mapping_bank (by decide)
  have hm2 := memMapPtr_eq core [bank] h mapping_bank2 (by decide)
  have hm3 := memMapPtr_eq core [bank, bank2] h mapping_bank3 (by decide)
  rw [hi.withBanks_nil core] at hm1
  simp only [List.nil_append, List.cons_append] at hm1 hm2 hm3
  -- the guest, and what `uc_emu_start` returns
  have hg : (guestRun core x.acts h).1.withBanks core banks = (guestRun core x.acts h).1 :=
    withBanks_of_regions (guest_regions core x.acts _)
  have he : (if x.err ≠ 0 then { (guestRun core x.acts h).1 with ucQuit := true }
      else (guestRun core x.acts h).1) = (afterSlice core x h).withBanks core banks := by
    unfold afterSlice
    rw [withBanks_withBanks]
    split
    · rw [← hg]; rfl
    · rw [hg]
  -- each bank is mapped, alone at its addresses, when it is unmapped
  have hu1 := memUnmap_eq core [bank2, bank3] (afterSlice core x h) mapping_bank (by decide) (by decide)
  have hu2 := memUnmap_eq core [bank3] (afterSlice core x h) mapping_bank2 (by decide) (by decide)
  have hu3 := memUnmap_eq core [] (afterSlice core x h) mapping_bank3 (by decide) (by decide)
  have hidle : (afterSlice core x h).withBanks core [] = afterSlice core x h := rfl
  rw [hidle] at hu3
  unfold ucCoreRunSlice
  simp only [Cmd.forEach_cons, Cmd.forEach_nil, id, record, Cmd.emit_apply, hm1, hm2, hm3]
  rw [show Cmd.forEach (guestStep core) x.acts (h.withBanks core banks) =
    guestRun core x.acts h from rfl]
  simp only [he, hu1, hu2, hu3]
  simp [beforeGuest, afterGuest]

/-! ## The maps at every moment -/

/-- The maps at a moment: banks only in the engine whose call it is, none at a slice's
ends, all three inside `uc_emu_start`. -/
structure MapsAt (mo : Moment) (ts : MemMap) : Prop where
  regions : ∀ c, mo.host.regions c = if c = mo.call.core then initMap ++ ts else initMap
  subset : ts ⊆ banks
  boundary : mo.call.phase = .boundary → ts = []
  emu : mo.call.phase = .emu → ts = banks
  maps : ∀ c addr size block ok, mo.call = .memMapPtr c addr size block ok → ok = true

/-- A guest effect is recorded once, with the host it leads to. -/
theorem guestStep_moment {core : Core} {act : GuestAct} {h : Host} {mo : Moment}
    (hmo : mo ∈ (guestStep core act h).2) :
    mo.host = (guestStep core act h).1 ∧ mo.call.core = core ∧ mo.call.phase = .emu := by
  cases act <;> simp_all [guestStep, gicEvent, record, RunCall.core, RunCall.phase]

theorem guest_moment {core : Core} {acts : List GuestAct} {h : Host} {mo : Moment}
    (hmo : mo ∈ (guestRun core acts h).2) :
    mo.host.regions = (h.withBanks core banks).regions ∧ mo.call.core = core ∧
      mo.call.phase = .emu := by
  obtain ⟨pre, act, post, -, hstep⟩ := Cmd.mem_forEach hmo
  obtain ⟨hhost, hcore, hphase⟩ := guestStep_moment hstep
  refine ⟨?_, hcore, hphase⟩
  rw [hhost, guestStep_regions, guest_regions]

theorem mapsAt_boundary {mo : Moment} (hi : mo.host.Idle) (hp : mo.call.phase = .boundary)
    (hm : ∀ c addr size block ok, mo.call = .memMapPtr c addr size block ok → ok = true) : MapsAt mo [] := by
  refine ⟨fun c => by simp [hi c], by simp, fun _ => rfl, ?_, hm⟩
  intro h'
  rw [hp] at h'; simp at h'

theorem mapsAt_mapping {mo : Moment} {ts : MemMap} {h : Host} (hh : mo.host = h.withBanks mo.call.core ts)
    (hb : ts ⊆ banks) (hp : mo.call.phase = .mapping)
    (hm : ∀ c addr size block ok, mo.call = .memMapPtr c addr size block ok → ok = true) : MapsAt mo ts := by
  refine ⟨fun c => by rw [hh]; rfl, hb, ?_, ?_, hm⟩
  · intro h'
    rw [hp] at h'; simp at h'
  · intro h'
    rw [hp] at h'; simp at h'

theorem mapsAt_emu {mo : Moment} {h : Host}
    (hh : mo.host.regions = (h.withBanks mo.call.core banks).regions)
    (hp : mo.call.phase = .emu) : MapsAt mo banks := by
  refine ⟨fun c => by rw [hh]; rfl, fun _ h' => h', ?_, fun _ => rfl, ?_⟩
  · intro h'
    rw [hp] at h'; simp at h'
  · intro c addr size block ok h'
    rw [h'] at hp; simp [RunCall.phase] at hp

/-- A moment of a slice lies before, in or after its guest. -/
theorem slice_parts {core : Core} {x : Slice} {h : Host} (hi : h.Idle) {mo : Moment}
    (hmo : mo ∈ (ucCoreRunSlice core x h).2) :
    mo ∈ beforeGuest core h ∨ mo ∈ (guestRun core x.acts h).2 ∨ mo ∈ afterGuest core x (afterSlice core x h) := by
  rw [slice_eq core x hi] at hmo
  rcases List.mem_append.1 hmo with hmo | hpost
  · rcases List.mem_append.1 hmo with hpre | hg
    · exact .inl hpre
    · exact .inr (.inl hg)
  · exact .inr (.inr hpost)

/-- **The maps at every moment of a slice.** -/
theorem slice_moment {core : Core} {x : Slice} {h : Host} (hi : h.Idle) {mo : Moment}
    (hmo : mo ∈ (ucCoreRunSlice core x h).2) : mo.call.core = core ∧ ∃ ts, MapsAt mo ts := by
  have hparts := slice_parts hi hmo
  simp only [beforeGuest, afterGuest, List.mem_cons, List.not_mem_nil, or_false] at hparts
  rcases hparts with (rfl | rfl | rfl | rfl | rfl) | hg | rfl | rfl | rfl | rfl | rfl
  · exact ⟨rfl, [], mapsAt_boundary hi rfl (by simp)⟩
  · exact ⟨rfl, [bank], mapsAt_mapping rfl (by simp) rfl (by simp)⟩
  · exact ⟨rfl, [bank, bank2], mapsAt_mapping rfl (by simp) rfl (by simp)⟩
  · exact ⟨rfl, banks, mapsAt_mapping rfl (by simp) rfl (by simp)⟩
  · exact ⟨rfl, banks, mapsAt_emu rfl rfl⟩
  · obtain ⟨hregs, hcore, hphase⟩ := guest_moment hg
    exact ⟨hcore, banks, mapsAt_emu (by rw [hregs, hcore]) hphase⟩
  · exact ⟨rfl, banks, mapsAt_mapping rfl (by simp) rfl (by simp)⟩
  · exact ⟨rfl, [bank2, bank3], mapsAt_mapping rfl (by simp) rfl (by simp)⟩
  · exact ⟨rfl, [bank3], mapsAt_mapping rfl (by simp) rfl (by simp)⟩
  · exact ⟨rfl, [], mapsAt_mapping rfl (by simp) rfl (by simp)⟩
  · exact ⟨rfl, [], mapsAt_boundary (idle_withBanks_nil core _) rfl (by simp)⟩

theorem slice_idle (core : Core) (x : Slice) {h : Host} (hi : h.Idle) : (ucCoreRunSlice core x h).1.Idle := by
  rw [slice_eq core x hi]; exact idle_withBanks_nil core _

/-! ## The run loop -/

/-- The host after `mmio_gicd_handle_interrupts` on the engine of a core. -/
def Host.inject (core : Core) (h : Host) : Host :=
  { h with gic := (GicEvent.exec ⟨core, .sliceStart⟩ h.gic).1.1 }

/-- The record of `mmio_gicd_handle_interrupts` on the engine of a core. -/
def injectRec (core : Core) (h : Host) : GicRec :=
  ⟨⟨core, .sliceStart⟩, (GicEvent.exec ⟨core, .sliceStart⟩ h.gic).2,
    (GicEvent.exec ⟨core, .sliceStart⟩ h.gic).1.2⟩

theorem runCore_eq (core : Core) (x : Slice) (h : Host) :
    runCore core x h = ((ucCoreRunSlice core x (h.inject core)).1,
      ⟨.handleInterrupts core (injectRec core h), h.inject core⟩ ::
        (ucCoreRunSlice core x (h.inject core)).2) := by
  unfold runCore gicEvent
  rw [Cmd.andThen_apply]
  simp only [record, Cmd.emit_apply, List.cons_append, List.nil_append]
  rfl

theorem Host.Idle.inject {h : Host} (hi : h.Idle) (core : Core) : (h.inject core).Idle := fun c => hi c

theorem runCore_idle (core : Core) (x : Slice) {h : Host} (hi : h.Idle) : (runCore core x h).1.Idle := by
  rw [runCore_eq]
  dsimp only
  exact slice_idle core x (hi.inject core)

/-- **What a step of the run loop does.** It moves on without a call, or it gives a core
that is online its turn. -/
theorem step_cases (x : Slice) (s : RunState) :
    (∃ point, ucRunStuffStep x s = ({ s with point := point }, [])) ∨
    ∃ core : Core, s.point = .forHead core ∧ s.host.coresOnline core = true ∧ s.host.ucQuit = false ∧
      ucRunStuffStep x s = (⟨if x.ret ≠ 0 then .passEnd else .forHead (core + 1), x.ret,
        (runCore core x s.host).1⟩, (runCore core x s.host).2) := by
  obtain ⟨point, err, host⟩ := s
  cases point with
  | whileHead => exact .inl ⟨_, rfl⟩
  | passEnd => exact .inl ⟨_, rfl⟩
  | left => exact .inl ⟨.left, rfl⟩
  | forHead i =>
    simp only [ucRunStuffStep]
    by_cases hlt : i < 4
    · rw [dif_pos hlt]
      by_cases hon : host.coresOnline ⟨i, hlt⟩ = false
      · exact .inl ⟨.passEnd, by rw [if_pos hon]⟩
      · by_cases hq : host.ucQuit = true
        · exact .inl ⟨.passEnd, by rw [if_neg hon, if_pos hq]⟩
        · right
          refine ⟨⟨i, hlt⟩, rfl, by simpa using hon, by simpa using hq, ?_⟩
          rw [if_neg hon, if_neg hq]
    · exact .inl ⟨.passEnd, by rw [dif_neg hlt]⟩

theorem step_idle (x : Slice) (s : RunState) (hi : s.host.Idle) : (ucRunStuffStep x s).1.host.Idle := by
  rcases step_cases x s with ⟨point, hs⟩ | ⟨core, -, -, -, hs⟩
  · rw [hs]; exact hi
  · rw [hs]
    dsimp only
    exact runCore_idle core x hi

theorem start_idle (mem : HostBlock → ℕ → BitVec 8) : (RunState.start mem).host.Idle := by
  intro c
  unfold RunState.start
  dsimp only
  exact init_regions mem c

theorem idle_run (mem : HostBlock → ℕ → BitVec 8) (xs : List Slice) : (ucRunStuff mem xs).1.host.Idle := by
  unfold ucRunStuff
  exact Cmd.forEach_inv (I := fun s : RunState => s.host.Idle) step_idle xs (start_idle mem)

theorem ucRunStuff_append (mem : HostBlock → ℕ → BitVec 8) (pre post : List Slice) :
    ucRunStuff mem (pre ++ post) = ((Cmd.forEach ucRunStuffStep post (ucRunStuff mem pre).1).1,
      (ucRunStuff mem pre).2 ++ (Cmd.forEach ucRunStuffStep post (ucRunStuff mem pre).1).2) :=
  Cmd.forEach_append ucRunStuffStep pre post (RunState.start mem)

theorem ucRunStuff_concat (mem : HostBlock → ℕ → BitVec 8) (xs : List Slice) (x : Slice) :
    ucRunStuff mem (xs ++ [x]) = ((ucRunStuffStep x (ucRunStuff mem xs).1).1,
      (ucRunStuff mem xs).2 ++ (ucRunStuffStep x (ucRunStuff mem xs).1).2) :=
  Cmd.forEach_concat ucRunStuffStep xs x (RunState.start mem)

/-- A moment of a turn is its injection or lies before, in or after its guest. -/
theorem runCore_parts {core : Core} {x : Slice} {h : Host} (hi : h.Idle) {mo : Moment}
    (hmo : mo ∈ (runCore core x h).2) :
    mo = ⟨.handleInterrupts core (injectRec core h), h.inject core⟩ ∨ mo ∈ beforeGuest core (h.inject core) ∨
      mo ∈ (guestRun core x.acts (h.inject core)).2 ∨
      mo ∈ afterGuest core x (afterSlice core x (h.inject core)) := by
  rw [runCore_eq] at hmo
  rcases List.mem_cons.1 hmo with hmo | hmo
  · exact .inl hmo
  · exact .inr (slice_parts (hi.inject core) hmo)

theorem runCore_moment {core : Core} {x : Slice} {h : Host} (hi : h.Idle) {mo : Moment}
    (hmo : mo ∈ (runCore core x h).2) : mo.call.core = core ∧ ∃ ts, MapsAt mo ts := by
  rw [runCore_eq] at hmo
  rcases List.mem_cons.1 hmo with rfl | hs
  · exact ⟨rfl, [], mapsAt_boundary (hi.inject core) rfl (by simp)⟩
  · exact slice_moment (hi.inject core) hs

/-- A moment of a run is one of a core's turn. -/
theorem run_turn {mem : HostBlock → ℕ → BitVec 8} {xs : List Slice} {mo : Moment}
    (hmo : mo ∈ (ucRunStuff mem xs).2) :
    ∃ pre x post, ∃ core : Core, xs = pre ++ x :: post ∧
      ucRunStuffStep x (ucRunStuff mem pre).1 = (⟨if x.ret ≠ 0 then .passEnd else .forHead (core + 1), x.ret,
        (runCore core x (ucRunStuff mem pre).1.host).1⟩, (runCore core x (ucRunStuff mem pre).1.host).2) ∧
      mo ∈ (runCore core x (ucRunStuff mem pre).1.host).2 := by
  obtain ⟨pre, x, post, hsplit, hstep⟩ := Cmd.mem_forEach hmo
  have hmem : mo ∈ (ucRunStuffStep x (ucRunStuff mem pre).1).2 := hstep
  rcases step_cases x (ucRunStuff mem pre).1 with ⟨point, hs⟩ | ⟨core, -, -, -, hs⟩
  · rw [hs] at hmem
    simp at hmem
  · rw [hs] at hmem
    exact ⟨pre, x, post, core, hsplit, hs, hmem⟩

theorem run_moment {mem : HostBlock → ℕ → BitVec 8} {xs : List Slice} {mo : Moment}
    (hmo : mo ∈ (ucRunStuff mem xs).2) : ∃ ts, MapsAt mo ts := by
  obtain ⟨pre, x, post, core, -, -, hturn⟩ := run_turn hmo
  exact (runCore_moment (idle_run mem pre) hturn).2

/-- A range of the engine of a core is backed by the block. -/
def Host.Maps (h : Host) (c : Core) (block : HostBlock) : Prop := ∃ r ∈ h.regions c, r.back = .host block

/-- The DRAM mappings at a moment are exclusive to the engine of the slice in progress,
which is the one inside `uc_emu_start` whenever one is; there it has all three banks. Map calls
succeed, and at the ends of a slice every engine has what `uc_init` gave it. -/
structure DramExclusive (mem : HostBlock → ℕ → BitVec 8) (mo : Moment) : Prop where
  owner : ∀ c block, block.isDram = true → mo.host.Maps c block →
    c = mo.call.core ∧ mo.call.phase ≠ .boundary
  running : mo.call.phase = .emu → ∀ block ∈ [HostBlock.dram, .dram2, .dram3],
    mo.host.Maps mo.call.core block
  maps : ∀ c addr size block ok, mo.call = .memMapPtr c addr size block ok → ok = true
  boundary : mo.call.phase = .boundary → ∀ c, mo.host.regions c = (Host.init mem).regions c

/-- What `uc_init` maps is not DRAM. -/
theorem initMap_not_dram {r : Region ℕ Backing} (hr : r ∈ initMap) {block : HostBlock}
    (hb : r.back = .host block) : block.isDram = false := by
  have hall : ∀ r ∈ initMap, r.back ∈ [Backing.host .iram, .host .tzram] ∨ ∃ d, r.back = .mmio d := by
    simp [initMap]
  rcases hall r hr with h | ⟨d, h⟩
  · rw [hb] at h
    simp only [List.mem_cons, Backing.host.injEq, List.not_mem_nil, or_false] at h
    rcases h with rfl | rfl <;> rfl
  · rw [hb] at h; simp at h

/-- The calls of a slice up to the start of its guest: the three banks, all mapped. -/
def mapCalls (core : Core) : List RunCall := [
  .memMapPtr core (dramBase.setWidth 64) (dramSize.signExtend 64) .dram true,
  .memMapPtr core ((dramBase + dramSize * 1).setWidth 64) (dramSize.signExtend 64) .dram2 true,
  .memMapPtr core ((dramBase + dramSize * 2).setWidth 64) (dramSize.signExtend 64) .dram3 true,
  .emuStart core]

/-- The calls of a slice after the end of its guest. -/
def unmapCalls (core : Core) : List RunCall := [
  .memUnmap core (dramBase.setWidth 64) (dramSize.signExtend 64),
  .memUnmap core ((dramBase + dramSize * 1).setWidth 64) (dramSize.signExtend 64),
  .memUnmap core ((dramBase + dramSize * 2).setWidth 64) (dramSize.signExtend 64)]

/-- The calls on the map that come next after a call. -/
def RunCall.opens : RunCall → List RunCall
  | .runSlice core => mapCalls core
  | .emuEnd core _ => unmapCalls core
  | _ => []

/-- The call maps or unmaps a range. -/
def RunCall.onMap : RunCall → Bool
  | .memMapPtr _ _ _ _ _ | .memUnmap _ _ _ => true
  | _ => false

/-- **The calls on the maps.** Each slice makes its three map calls, which succeed, then starts its guest, and after
that its three unmap calls; there are no others. The state are the calls that must come next. -/
def sliceMaps : Monitor (List RunCall) Moment where
  next k mo := match k with
    | [] => mo.call.opens
    | _ :: rest => rest
  ok k mo := match k with
    | [] => mo.call.onMap = false
    | call :: _ => mo.call = call

/-- A turn makes the calls of its slice. -/
theorem runCore_maps (core : Core) (x : Slice) {h : Host} (hi : h.Idle) :
    sliceMaps.Accepts [] (runCore core x h).2 ∧ sliceMaps.run [] (runCore core x h).2 = [] := by
  have hinject : sliceMaps.Accepts [] [⟨.handleInterrupts core (injectRec core h), h.inject core⟩] ∧
      sliceMaps.run [] [⟨.handleInterrupts core (injectRec core h), h.inject core⟩] = [] := ⟨⟨rfl, trivial⟩, rfl⟩
  have hbefore : sliceMaps.Accepts [] (beforeGuest core (h.inject core)) ∧
      sliceMaps.run [] (beforeGuest core (h.inject core)) = [] := ⟨⟨rfl, rfl, rfl, rfl, rfl, trivial⟩, rfl⟩
  have hguest : sliceMaps.Accepts [] (guestRun core x.acts (h.inject core)).2 ∧
      sliceMaps.run [] (guestRun core x.acts (h.inject core)).2 = [] := by
    refine Monitor.accepts_stay fun mo hmo => ?_
    -- a guest makes no calls on the maps
    have hphase := (guest_moment hmo).2.2
    obtain ⟨call, host⟩ := mo
    cases call <;> first | exact ⟨rfl, rfl⟩ | simp [RunCall.phase] at hphase
  have hafter : ∀ h', sliceMaps.Accepts [] (afterGuest core x h') ∧ sliceMaps.run [] (afterGuest core x h') = [] :=
    fun h' => ⟨⟨rfl, rfl, rfl, rfl, rfl, trivial⟩, rfl⟩
  rw [runCore_eq, slice_eq core x (hi.inject core)]
  exact Monitor.accepts_trans hinject
    (Monitor.accepts_trans (Monitor.accepts_trans hbefore hguest) (hafter (afterSlice core x (h.inject core))))

theorem run_maps (mem : HostBlock → ℕ → BitVec 8) (xs : List Slice) :
    sliceMaps.Accepts [] (ucRunStuff mem xs).2 ∧ sliceMaps.run [] (ucRunStuff mem xs).2 = [] := by
  induction xs using List.reverseRecOn with
  | nil => exact ⟨trivial, rfl⟩
  | append_singleton xs x ih =>
    rw [ucRunStuff_concat]
    refine Monitor.accepts_trans ih ?_
    rcases step_cases x (ucRunStuff mem xs).1 with ⟨point, hs⟩ | ⟨core, -, -, -, hs⟩
    · rw [hs]
      exact ⟨trivial, rfl⟩
    · rw [hs]
      exact runCore_maps core x (idle_run mem xs)

/-- **DRAM mappings are exclusive to the running core**, over every run of the run loop, and each slice makes
its three map calls, which succeed, and its three unmap calls. -/
theorem dram_exclusive (mem : HostBlock → ℕ → BitVec 8) (xs : List Slice) :
    (∀ mo ∈ (ucRunStuff mem xs).2, DramExclusive mem mo) ∧
      (∀ c, (ucRunStuff mem xs).1.host.regions c = (Host.init mem).regions c) ∧
      sliceMaps.Accepts [] (ucRunStuff mem xs).2 ∧ sliceMaps.run [] (ucRunStuff mem xs).2 = [] := by
  refine ⟨?_, fun c => by rw [idle_run mem xs c, init_regions], run_maps mem xs⟩
  intro mo hmo
  obtain ⟨ts, hts⟩ := run_moment hmo
  refine ⟨fun c block hd ⟨r, hr, hb⟩ => ?_, ?_, hts.maps, ?_⟩
  · -- what an engine has on top of its initial map is the banks of the slice in progress
    rw [hts.regions] at hr
    by_cases hc : c = mo.call.core
    · refine ⟨hc, ?_⟩
      intro hp
      rw [if_pos hc, hts.boundary hp, List.append_nil] at hr
      simp [initMap_not_dram hr hb] at hd
    · rw [if_neg hc] at hr
      simp [initMap_not_dram hr hb] at hd
  · intro hp block hblock
    have hregs := hts.regions mo.call.core
    rw [if_pos rfl, hts.emu hp] at hregs
    simp only [List.mem_cons, List.not_mem_nil, or_false] at hblock
    unfold Host.Maps
    rw [hregs]
    rcases hblock with rfl | rfl | rfl
    · exact ⟨bank, by simp, rfl⟩
    · exact ⟨bank2, by simp, rfl⟩
    · exact ⟨bank3, by simp, rfl⟩
  · intro hp c
    rw [hts.regions, hts.boundary hp, init_regions]
    simp

end Mooooooo
