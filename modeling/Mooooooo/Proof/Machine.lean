import Mooooooo.Proof.Boot
import Mooooooo.Proof.Memory

/-!
# `hook_exception` inside the emulator

* `engineMem_flat`: what an engine has mapped is the array of bytes that all guests see.
* `exception_machine`: **the hook in the emulator is the hook on the engines**: under a guest, an
  exception does to the registers, the memory and the globals what `Machine.exception` does.
-/

namespace Mooooooo

/-! ## The memory of an engine -/

/-- What the engine of a core has mapped is the array of bytes that all guests see. -/
theorem engineMem_flat {h : Host} {core : Core} (hregs : h.regions core = guestMap) (a : ℕ) :
    h.engineMem core a = if a < 2 ^ 64 then flatMem h.mem (BitVec.ofNat 64 a) else none := by
  have hfind : h.engineMem core a = (guestMap.cell Backing.block a).map fun c => h.mem c.1 c.2 := by
    unfold Host.engineMem Table.cell
    rw [hregs]
    cases guestMap.find a with
    | none => rfl
    | some r =>
      dsimp only [Option.bind_some]
      cases r.back <;> rfl
  rw [hfind]
  by_cases ha : a < 2 ^ 64
  · have hnat : (BitVec.ofNat 64 a).toNat = a := by
      rw [BitVec.toNat_ofNat]
      omega
    have hflat : flatMem h.mem (BitVec.ofNat 64 a) =
        (guestMap.cell Backing.block (BitVec.ofNat 64 a).toNat).map fun c => h.mem c.1 c.2 := rfl
    rw [if_pos ha, hflat, hnat]
  · -- nothing is mapped that high
    have hhigh : ∀ r ∈ guestMap, r.hi ≤ 2 ^ 64 := by decide
    rw [if_neg ha]
    have hnone : guestMap.cell Backing.block a = none := by
      rw [← Option.not_isSome_iff_eq_none, Table.cell_isSome_iff guestMap_ownBlocks.disjoint]
      rintro ⟨r, hr, hin, -⟩
      have h1 := hin.2
      have h2 := hhigh r hr
      omega
    rw [hnone]
    rfl

/-- A store to mapped memory sets its byte. -/
theorem store_engineMem {h : Host} {core : Core} (hregs : h.regions core = guestMap) {addr : BitVec 64}
    (byte : BitVec 8) (hmapped : (h.engineMem core addr.toNat).isSome) :
    (h.writeByte core addr byte).engineMem core =
      Function.update (h.engineMem core) addr.toNat (some byte) := by
  have hregs' : (h.writeByte core addr byte).regions core = guestMap := by
    have hsame : (h.writeByte core addr byte).regions = h.regions := by
      unfold Host.writeByte
      split <;> rfl
    rw [hsame]
    exact hregs
  have haddr : BitVec.ofNat 64 addr.toNat = addr := by simp
  rw [engineMem_flat hregs, if_pos addr.isLt, haddr] at hmapped
  funext a
  rw [engineMem_flat hregs', writeByte_flat hregs]
  by_cases ha : a = addr.toNat
  · subst ha
    rw [if_pos addr.isLt, haddr, Function.update_self]
    unfold putFlat
    rw [if_pos rfl]
    obtain ⟨old, hold⟩ := Option.isSome_iff_exists.1 hmapped
    rw [hold]
    rfl
  · rw [Function.update_of_ne ha, engineMem_flat hregs]
    by_cases hlt : a < 2 ^ 64
    · have hne : BitVec.ofNat 64 a ≠ addr := by
        intro h
        apply ha
        rw [← h, BitVec.toNat_ofNat]
        omega
      rw [if_pos hlt, if_pos hlt]
      unfold putFlat
      rw [if_neg hne]
    · rw [if_neg hlt, if_neg hlt]

/-- Bytes stored one after another are written over the memory. -/
theorem stores_engineMem (core : Core) (addr : BitVec 64) (bs : List (BitVec 8)) {s : Emulator}
    (hregs : s.host.regions core = guestMap) (hmapped : ∀ k < bs.length, (s.host.engineMem core (addr.toNat + k)).isSome) :
    let stores := bs.mapIdx fun k byte => GuestAct.store (addr + BitVec.ofNat 64 k) byte
    (Cmd.forEach (guestAct core) stores s).1.host.regions = s.host.regions ∧
      (Cmd.forEach (guestAct core) stores s).1.host.engineMem core =
        Bytes.place (s.host.engineMem core) addr.toNat (bs.map some) := by
  induction bs using List.reverseRecOn with
  | nil => exact ⟨rfl, by simp⟩
  | append_singleton bs b ih =>
    obtain ⟨hsame, hmem⟩ := ih fun k hk => hmapped k (by simp; omega)
    have hlast := hmapped bs.length (by simp)
    -- what is mapped lies below the end of the address space
    have hroom : addr.toNat + bs.length < 2 ^ 64 := by
      by_contra hhigh
      rw [engineMem_flat hregs, if_neg hhigh] at hlast
      simp at hlast
    have haddr : (addr + BitVec.ofNat 64 bs.length).toNat = addr.toNat + bs.length := by
      rw [BitVec.toNat_add, BitVec.toNat_ofNat]
      omega
    dsimp only
    rw [List.mapIdx_concat, Cmd.forEach_concat, List.map_append, List.map_singleton, Bytes.place_concat,
      List.length_map, ← hmem]
    generalize (Cmd.forEach (guestAct core) (bs.mapIdx fun k byte => .store (addr + BitVec.ofNat 64 k) byte) s).1 = s' at *
    have hwritten : (s'.host.writeByte core (addr + BitVec.ofNat 64 bs.length) b).regions = s'.host.regions := by
      unfold Host.writeByte
      split <;> rfl
    refine ⟨hwritten.trans hsame, ?_⟩
    rw [← haddr]
    refine store_engineMem (by rw [hsame]; exact hregs) b ?_
    rw [hmem, haddr, Bytes.place_outside _ _ _ (.inr (by simp))]
    exact hlast

/-! ## The calls of the hook -/

/-- The engines, with the memory of the one of a core. -/
def Emulator.machine (s : Emulator) (core : Core) : Machine :=
  ⟨s.reg, s.host.engineMem core, s.host.coresOnline, s.host.ucQuit⟩

/-- A call of the hook in the emulator is the call on the engines. -/
theorem engineCall_machine (core : Core) (call : EngineCall) {s : Emulator} (hregs : s.host.regions core = guestMap) :
    (engineCall core call s).1.host.regions = s.host.regions ∧
      (engineCall core call s).1.machine core = (s.machine core).exec call := by
  cases call with
  | regWrite engine reg val => exact ⟨rfl, rfl⟩
  | setOnline cpu => exact ⟨rfl, rfl⟩
  | setQuit => exact ⟨rfl, rfl⟩
  | memWrite addr word =>
    have hflow := memWrite_flow core addr word s
    simp only [Emulator.flow, Prod.mk.injEq] at hflow
    have hreg : (engineCall core (.memWrite addr word) s).1.reg = s.reg := by
      have hkeeps : Keeps (fun s : Emulator => s.reg) (engineCall core (.memWrite addr word)) :=
        .guard (.forEach (fun _ _ => rfl) _)
      exact hkeeps s
    suffices hmem : (engineCall core (.memWrite addr word) s).1.host.regions = s.host.regions ∧
        (engineCall core (.memWrite addr word) s).1.host.engineMem core = ucMemWrite (s.host.engineMem core) addr word by
      refine ⟨hmem.1, ?_⟩
      unfold Emulator.machine Machine.exec
      rw [hreg, hmem.2, hflow.1, hflow.2]
    by_cases hm : (s.host.engineMem core).Mapped addr.toNat
    · have hcall : engineCall core (.memWrite addr word) s = Cmd.forEach (guestAct core) (wordStores addr word) s :=
        if_pos hm
      rw [hcall]
      obtain ⟨hsame, hmem⟩ := stores_engineMem core addr (Bytes.bytes word) hregs hm
      refine ⟨hsame, ?_⟩
      unfold ucMemWrite
      rw [if_pos hm]
      exact hmem
    · have hcall : engineCall core (.memWrite addr word) s = (s, []) := if_neg hm
      rw [hcall]
      exact ⟨rfl, (if_neg hm).symm⟩

theorem engineCalls_machine (core : Core) (calls : List EngineCall) {s : Emulator}
    (hregs : s.host.regions core = guestMap) :
    (Cmd.forEach (engineCall core) calls s).1.machine core = calls.foldl Machine.exec (s.machine core) := by
  induction calls generalizing s with
  | nil => rfl
  | cons call calls ih =>
    obtain ⟨hsame, hcall⟩ := engineCall_machine core call hregs
    rw [Cmd.forEach_cons, List.foldl_cons, ← hcall]
    exact ih (by rw [hsame]; exact hregs)

/-- The loop gives a core its turn. -/
structure EmuState.Turn (s : EmuState) (core : Core) : Prop where
  fault : s.emu.fault = none
  point : s.point = .forHead core
  online : s.emu.host.coresOnline core = true
  going : s.emu.host.ucQuit = false

/-- The emulator as the guest of a core starts, and as it is after the events of the guest. -/
def Emulator.underGuest (core : Core) (es : List GuestEvent) (s : Emulator) : Emulator :=
  (emuGuest core es (enterSlice core (onHost (gicEvent ⟨core, .sliceStart⟩ (.handleInterrupts core)) s).1).1).1

/-- Under the guest, the maps are those of a slice. -/
theorem underGuest_inSlice (core : Core) (es : List GuestEvent) {s : Emulator} (hi : s.host.Idle) :
    (s.underGuest core es).host.InSlice core := by
  have hinject : (onHost (gicEvent ⟨core, .sliceStart⟩ (.handleInterrupts core)) s).1.host.Idle := hi.inject core
  have hstart := enterSlice_inSlice core hinject
  unfold Emulator.underGuest emuGuest
  generalize (enterSlice core (onHost (gicEvent ⟨core, .sliceStart⟩ (.handleInterrupts core)) s).1).1 = s' at hstart
  refine Cmd.forEach_inv (I := fun s : Emulator => s.host.InSlice core) (fun e s hin => ?_) es hstart
  unfold unlessFault
  split
  · intro c
    rw [event_regions]
    exact hin c
  · exact hin

theorem EmuState.Turn.idle {mem : HostBlock → ℕ → BitVec 8} {reg : Core → Reg → BitVec 64} {xs : List EmuSlice}
    {core : Core} (h : (emulate mem reg xs).1.Turn core) : (emulate mem reg xs).1.emu.host.Idle := by
  obtain ⟨ys, -, hys⟩ := run_seen mem reg xs h.fault
  have hrun := idle_run mem ys
  rw [hys] at hrun
  exact hrun

/-! ### What the hook reads -/

/-- Its reads change nothing but the fault, and that to the one that they end in. -/
theorem hookReads_end (core : Core) (exceptno : BitVec 32) (i : ExceptionIn) (s : Emulator) :
    ∃ f, (emuReads core exceptno i s).1 = { s with fault := f } ∧
      (s.readFault core exceptno i = f ∨ s.readFault core exceptno i = none ∧ f = s.fault) := by
  unfold emuReads Emulator.readFault hookReadFault
  by_cases hsmc : exceptno = 1 ∧ i.spsel ≠ 0
  · have hsmc' : exceptno = 1 ∧ (s.input core i).spsel ≠ 0 := hsmc
    rw [if_pos hsmc, if_pos hsmc']
    by_cases hprint : s.args core 0 = 0xf00ff00f
    · rw [if_pos hprint, if_pos hprint]
      exact ⟨_, rfl, .inl rfl⟩
    · rw [if_neg hprint, if_neg hprint]
      exact ⟨s.fault, rfl, .inr ⟨rfl, rfl⟩⟩
  · have hsmc' : ¬(exceptno = 1 ∧ (s.input core i).spsel ≠ 0) := hsmc
    rw [if_neg hsmc, if_neg hsmc']
    by_cases h3 : exceptno = 3
    · rw [if_pos h3, if_pos h3]
      exact ⟨_, rfl, .inl rfl⟩
    · rw [if_neg h3, if_neg h3]
      exact ⟨s.fault, rfl, .inr ⟨rfl, rfl⟩⟩

/-- A fault of the reads ends the hook. -/
theorem emuHook_read {core : Core} {exceptno : BitVec 32} {i : ExceptionIn} {s : Emulator} {f : HostFault}
    (h : s.readFault core exceptno i = some f) : (emuHook core exceptno i s).1 = { s with fault := some f } := by
  obtain ⟨f', hend, hf⟩ := hookReads_end core exceptno i s
  obtain rfl : f' = some f := by
    rcases hf with hf | ⟨hf, -⟩
    · exact hf.symm.trans h
    · exact absurd (h.symm.trans hf) (Option.some_ne_none f)
  have hstop : ¬(emuReads core exceptno i s).1.readFault core exceptno i = none := by
    have hsame : (emuReads core exceptno i s).1.readFault core exceptno i = s.readFault core exceptno i := by
      rw [hend]
      rfl
    rw [hsame, h]
    exact Option.some_ne_none f
  unfold emuHook
  rw [Cmd.andThen_apply]
  dsimp only
  rw [if_neg hstop]
  exact hend

/-- Otherwise its calls follow. -/
theorem emuHook_calls {core : Core} {exceptno : BitVec 32} {i : ExceptionIn} {s : Emulator}
    (h : s.readFault core exceptno i = none) :
    ∃ f, (emuHook core exceptno i s).1 = (emuException core exceptno i { s with fault := f }).1 := by
  obtain ⟨f, hend, -⟩ := hookReads_end core exceptno i s
  have hcont : (emuReads core exceptno i s).1.readFault core exceptno i = none := by
    rw [hend]
    exact h
  refine ⟨f, ?_⟩
  unfold emuHook
  rw [Cmd.andThen_apply]
  dsimp only
  rw [if_pos hcont, hend]

/-- **The hook in the emulator is the hook on the engines.** In every run, whenever the guest of a core has an exception
whose hook reads host memory only, that does to the registers of all engines, to the memory and to the globals what
`Machine.exception` does; where that faults, the emulator faults likewise and nothing else changes. -/
theorem exception_machine (mem : HostBlock → ℕ → BitVec 8) (reg : Core → Reg → BitVec 64) (xs : List EmuSlice)
    (core : Core) (hturn : (emulate mem reg xs).1.Turn core) (es : List GuestEvent) (exceptno : BitVec 32)
    (i : ExceptionIn) :
    let s := (emulate mem reg xs).1.emu.underGuest core es
    match (s.machine core).exception core exceptno { i with mem := s.host.mem } with
    | .ok m => (guestEvent core (.exception exceptno { i with ucMemRead := fun _ => none }) s).1.machine core = m
    | .error f =>
      (guestEvent core (.exception exceptno { i with ucMemRead := fun _ => none }) s).1 = { s with fault := some f } := by
  intro s
  have hregs : s.host.regions core = guestMap := (underGuest_inSlice core es hturn.idle core).trans (if_pos rfl)
  -- both models give the hook the same inputs
  have hinput : (s.machine core).input { i with mem := s.host.mem } =
      s.input core { i with ucMemRead := fun _ => none } := by
    have hread : (fun addr => (ucMemRead (s.host.engineMem core) addr).or none) = ucMemRead (s.host.engineMem core) := by
      funext addr
      exact Option.or_none
    unfold Emulator.input Machine.input
    dsimp only
    rw [hread]
    rfl
  have hread : hookReadFault exceptno ((s.machine core).input { i with mem := s.host.mem }) ((s.machine core).args core)
      ((s.machine core).reg core .pc) = s.readFault core exceptno { i with ucMemRead := fun _ => none } := by
    rw [hinput]
    rfl
  unfold Machine.exception hookException
  rw [hread]
  cases hfault : s.readFault core exceptno { i with ucMemRead := fun _ => none } with
  | some f => exact emuHook_read hfault
  | none =>
    obtain ⟨f, hend⟩ := emuHook_calls hfault
    have hevent : (guestEvent core (.exception exceptno { i with ucMemRead := fun _ => none }) s).1 = _ := hend
    rw [hevent, hinput]
    unfold emuException
    have hcalls : hookExceptionCalls core exceptno (s.input core { i with ucMemRead := fun _ => none })
        ((s.machine core).args core) ((s.machine core).reg core .pc) = hookExceptionCalls core exceptno
          (({ s with fault := f } : Emulator).input core { i with ucMemRead := fun _ => none })
          (({ s with fault := f } : Emulator).args core) (({ s with fault := f } : Emulator).reg core .pc) := rfl
    rw [hcalls]
    cases hookExceptionCalls core exceptno
        (({ s with fault := f } : Emulator).input core { i with ucMemRead := fun _ => none })
        (({ s with fault := f } : Emulator).args core) (({ s with fault := f } : Emulator).reg core .pc) with
    | error f' => rfl
    | ok calls => exact engineCalls_machine (s := { s with fault := f }) core calls hregs

/-- The first step of a run gives core 0 its turn. -/
theorem first_turn : (emulate (fun _ _ => 0) (fun _ _ => 0) [⟨[], 0, 0⟩]).1.Turn 0 :=
  ⟨rfl, rfl, rfl, rfl⟩

/-- Registers with which a guest writes a word to memory through the monitor. -/
def writeCall : Reg → BitVec 64
  | .x n => [0xc3000008, 0x80000100, 0xFFFFFFFF, 0x12345678].getD n.val 0
  | .sp => 0
  | .pc => 0x80060000

/-- The first guest sets its registers and has a word written. -/
theorem exception_machine_write :
    let s := (emulate (fun _ _ => 0) (fun _ _ => 0) [⟨[], 0, 0⟩]).1.emu.underGuest 0 [.regs writeCall]
    match (s.machine 0).exception 0 1 { smcIn with mem := s.host.mem } with
    | .ok m => (guestEvent 0 (.exception 1 { smcIn with ucMemRead := fun _ => none }) s).1.machine 0 = m
    | .error f =>
      (guestEvent 0 (.exception 1 { smcIn with ucMemRead := fun _ => none }) s).1 = { s with fault := some f } :=
  exception_machine _ _ _ 0 first_turn [.regs writeCall] 1 smcIn

end Mooooooo
