import Mooooooo.Proof.Calls

/-!
# The registers of the cores

* `registers_isolated`: **a core's registers are its own.** Only its own instructions and
  hooks change them, and an `smcCpuOn` of another core that names it.
* `core_boots`: **a core starts where it is told.** At its first instruction its program
  counter and `X0` are those of the last `smcCpuOn` that named it, and nothing else has changed.
-/

namespace Mooooooo

/-! ## Events that change no register -/

/-- The registers of all engines, the cores online, and the fault if there is one. -/
def Emulator.cpus (s : Emulator) : (Core → Reg → BitVec 64) × (Core → Bool) × Option HostFault :=
  (s.reg, s.host.coresOnline, s.fault)

/-- A record of an event on the engine of `core` that changes no register. -/
def EmuRec.PlainOf (core : Core) : EmuRec → Prop
  | .uart _ => True
  | .host mo => mo.call.core = core
  | .read c _ _ _ _ | .write c _ _ _ _ => c = core
  | .code e _ => e.core = core
  | _ => False

/-- None of these changes, and the records are plain. -/
structure Plain (core : Core) (c : Cmd Emulator EmuRec) : Prop where
  keeps : Keeps Emulator.cpus c
  leaves : Leaves (EmuRec.PlainOf core) c

section Plain

variable {core : Core} {c d : Cmd Emulator EmuRec}

theorem Plain.skip : Plain core Cmd.skip := ⟨.skip, .skip⟩

theorem Plain.andThen (hc : Plain core c) (hd : Plain core d) : Plain core (c.andThen d) :=
  ⟨hc.keeps.andThen hd.keeps, hc.leaves.andThen hd.leaves⟩

/-- What the guest or a hook of a core does to the host is recorded for that core. -/
theorem act_core (core : Core) (act : GuestAct) {s : Emulator} {o : EmuRec} (ho : o ∈ (guestAct core act s).2) :
    ∃ mo, o = .host mo ∧ mo.call.core = core := by
  obtain ⟨mo, hmo, rfl⟩ := List.mem_map.1 ho
  exact ⟨mo, rfl, (guestStep_moment hmo).2.1⟩

theorem act_plain (core : Core) {act : GuestAct} (hact : ∀ cpu, act ≠ .smcCpuOn cpu) :
    Plain core (guestAct core act) := by
  constructor
  · intro s
    cases act with
    | store addr byte =>
      have hflow := store_flow core addr byte s
      simp only [Emulator.flow, Prod.mk.injEq] at hflow
      show (s.reg, _, s.fault) = (s.reg, s.host.coresOnline, s.fault)
      rw [hflow.1]
    | smcCpuOn cpu => exact absurd rfl (hact cpu)
    | _ => rfl
  · intro s o ho
    obtain ⟨mo, rfl, hcore⟩ := act_core core act ho
    exact hcore

theorem read_plain (core : Core) (addr : BitVec 64) (size : BitVec 32) (timeUs : BitVec 64) :
    Plain core (emuRead core addr size timeUs) := by
  have heffect : ∀ target : Option (Device × BitVec 64), Plain core (Cmd.andThen
      (Cmd.emit id fun s => .read core addr size target (target.map fun t => s.readDevice core t.1 t.2 size timeUs))
      (readTarget core size target)) := by
    intro target
    refine .andThen ⟨fun _ => rfl, .emit fun _ => rfl⟩ ?_
    rcases readTarget_cases core size target with h | ⟨off, h⟩ | ⟨off, h⟩
    · rw [h]; exact .skip
    · rw [h]; exact act_plain core (by simp)
    · rw [h]; exact act_plain core (by simp)
  exact ⟨fun s => (heffect (s.host.window core addr)).keeps s, fun s => (heffect (s.host.window core addr)).leaves s⟩

theorem write_plain (core : Core) (addr data : BitVec 64) (size : BitVec 32) :
    Plain core (emuWrite core addr data size) := by
  have heffect : ∀ target : Option (Device × BitVec 64), Plain core (Cmd.andThen
      (Cmd.emit id fun _ => .write core addr data size target)
      (writeTarget core data size target)) := by
    intro target
    refine .andThen ⟨fun _ => rfl, .emit fun _ => rfl⟩ ?_
    rcases writeTarget_cases core data size target with ⟨a, h⟩ | h
    · rw [h]; exact act_plain core (by simp)
    · refine ⟨fun s => ?_, fun s o ho => ?_⟩
      · obtain ⟨mc, fifos, hend⟩ := (h s).1
        rw [hend]
        rfl
      · obtain ⟨out, rfl⟩ := (h s).2 o ho
        trivial
  exact ⟨fun s => (heffect (s.host.window core addr)).keeps s, fun s => (heffect (s.host.window core addr)).leaves s⟩

theorem code_plain (core : Core) (address : BitVec 64) (insn : Option (BitVec 32)) :
    Plain core (emuCode core address insn) := by
  have hcall : ∀ call, Plain core (hookCallEffect core call) := by
    intro call
    cases call with
    | emuStop c => exact .skip
    | hang c address => exact act_plain core (by simp)
  constructor
  · intro s
    exact Keeps.andThen (fun _ => rfl) (.forEach (fun call => (hcall call).keeps) _) s
  · intro s
    refine Leaves.andThen (P := EmuRec.PlainOf core) (.emit ?_) (.forEach (fun call => (hcall call).leaves) _) s
    exact fun _ => rfl

/-- **Only instructions and exceptions change registers**; of the other events, only reads of tables can fault. -/
theorem event_plain (core : Core) (e : GuestEvent) : Plain core (guestEvent core e) ∨
    Reads core (guestEvent core e) ∨ (∃ reg, e = .regs reg) ∨ ∃ exceptno i, e = .exception exceptno i := by
  cases e with
  | regs reg => exact .inr (.inr (.inl ⟨reg, rfl⟩))
  | load addr => exact .inl (act_plain core (by simp))
  | store addr byte => exact .inl (act_plain core (by simp))
  | read addr size timeUs => exact .inl (read_plain core addr size timeUs)
  | write addr data size => exact .inl (write_plain core addr data size)
  | code address insn => exact .inl (code_plain core address insn)
  | exception exceptno i => exact .inr (.inr (.inr ⟨exceptno, i, rfl⟩))
  | invalid type address ttbr => exact .inr (.inl (invalid_reads core type address ttbr))

end Plain

/-! ## Isolation -/

/-- **The registers of core `c`** as its own instructions, its own hooks and the `smcCpuOn` of others for it leave
them. Its guest must start with these. -/
def ownRegs (c : Core) : Monitor (Reg → BitVec 64) EmuRec where
  next k o := match o with
    | .regs core reg => if core = c then reg else k
    | .regWrite core engine reg val => if core = c ∧ engine = c then Function.update k reg val else k
    | .exception core exceptno spsel args _ => if core ≠ c ∧ CpuOn exceptno spsel args c then cpuOnRegs args k else k
    | _ => k
  ok k o := match o with
    | .emuStart core pc reg => core = c → reg = k ∧ pc = k .pc
    | _ => True

def RegsAre (c : Core) (s : Emulator) (k : Reg → BitVec 64) : Prop := s.reg c = k

section Isolation

variable {c core : Core}

/-- A call of a core's own hook. -/
theorem engineCall_own (c : Core) (call : EngineCall) :
    Triple (ownRegs c) (RegsAre c) (engineCall c call) (RegsAre c) := by
  have hact : ∀ act, Triple (ownRegs c) (RegsAre c) (guestAct c act) (RegsAre c) := fun act =>
    onHost_quiet (fun _ _ _ hs => hs) (fun _ _ => ⟨rfl, trivial⟩) _
  cases call with
  | regWrite engine reg val =>
    rintro s k rfl
    refine ⟨⟨trivial, trivial⟩, ?_⟩
    show Function.update s.reg engine (Function.update (s.reg engine) reg val) c =
      if c = c ∧ engine = c then Function.update (s.reg c) reg val else s.reg c
    by_cases he : engine = c
    · subst he
      simp
    · simp [he, Function.update_of_ne (Ne.symm he)]
  | memWrite addr word => exact .guard (.forEach hact _)
  | setOnline cpu => exact hact _
  | setQuit => exact hact _

/-- The calls of another core's hook are not looked at. -/
theorem engineCall_foreign (hc : core ≠ c) (call : EngineCall) :
    Leaves (ownRegs c).Ignores (engineCall core call) := by
  have hact : ∀ act, Leaves (ownRegs c).Ignores (guestAct core act) := by
    intro act s o ho
    obtain ⟨mo, -, rfl⟩ := List.mem_map.1 ho
    exact fun k => ⟨rfl, trivial⟩
  cases call with
  | regWrite engine reg val => exact .emit fun _ k => ⟨if_neg fun h => hc h.1, trivial⟩
  | memWrite addr word => exact .guard (.forEach hact _)
  | setOnline cpu => exact hact _
  | setQuit => exact hact _

/-- What another core's exception does to the registers of a core: what `smcCpuOn` does, if it is one for it. -/
theorem engineCalls_foreign {exceptno : BitVec 32} {i : ExceptionIn} {args : Args} {pc : BitVec 64}
    {calls : List EngineCall} (h : HookCalls core exceptno i args pc calls) (hc : c ≠ core) (s : Emulator) :
    (Cmd.forEach (engineCall core) calls s).1.reg c =
      if CpuOn exceptno i.spsel args c then cpuOnRegs args (s.reg c) else s.reg c := by
  rw [engineCalls_reg, h.writesTo_other hc]
  split <;> rfl

theorem exception_regs (core : Core) (exceptno : BitVec 32) (i : ExceptionIn) :
    Triple (ownRegs c) (RegsAre c) (emuException core exceptno i) (RegsAre c) := by
  rintro s k rfl
  unfold emuException
  split
  · rename_i calls hcalls
    have hcases := hookExceptionCalls_cases hcalls
    by_cases hc : core = c
    · subst hc
      have hrecord : Triple (ownRegs core) (RegsAre core)
          (Cmd.emit id fun s => .exception core exceptno i.spsel (s.args core) calls) (RegsAre core) :=
        .quiet (fun _ _ hs => hs) (.emit fun _ k => ⟨if_neg fun h => h.1 rfl, trivial⟩)
      exact hrecord.andThen (.forEach (engineCall_own core) calls) s _ rfl
    · obtain ⟨hacc, hrun⟩ := Monitor.Ignores.list (Leaves.forEach (engineCall_foreign hc) calls s)
        ((ownRegs c).next (s.reg c) (.exception core exceptno i.spsel (s.args core) calls))
      refine ⟨⟨trivial, hacc⟩, ?_⟩
      show (Cmd.forEach (engineCall core) calls s).1.reg c = (ownRegs c).run
        ((ownRegs c).next (s.reg c) (.exception core exceptno i.spsel (s.args core) calls))
        (Cmd.forEach (engineCall core) calls s).2
      rw [hrun, engineCalls_foreign hcases (Ne.symm hc)]
      by_cases hon : CpuOn exceptno i.spsel (s.args core) c
      · exact (if_pos hon).trans (if_pos ⟨hc, hon⟩).symm
      · exact (if_neg hon).trans (if_neg fun h => hon h.2).symm
  · exact ⟨⟨trivial, trivial⟩, rfl⟩

theorem plain_regs (c : Core) {core : Core} {cmd : Cmd Emulator EmuRec} (h : Plain core cmd) :
    Triple (ownRegs c) (RegsAre c) cmd (RegsAre c) := by
  refine .quiet (fun s k hs => ?_) fun s o ho => ?_
  · have hreg := congrArg Prod.fst (h.keeps s)
    exact (congrFun hreg c).trans hs
  · have hplain := h.leaves s o ho
    cases o <;> first | exact fun k => ⟨rfl, trivial⟩ | exact absurd hplain id

theorem reads_regs (c : Core) {core : Core} {cmd : Cmd Emulator EmuRec} (h : Reads core cmd) :
    Triple (ownRegs c) (RegsAre c) cmd (RegsAre c) :=
  h.triple (fun _ _ _ hs => hs) (fun _ _ _ _ _ => ⟨rfl, trivial⟩) fun _ _ _ => ⟨rfl, trivial⟩

theorem event_regs (c core : Core) (e : GuestEvent) :
    Triple (ownRegs c) (RegsAre c) (guestEvent core e) (RegsAre c) := by
  rcases event_plain core e with h | h | ⟨reg, rfl⟩ | ⟨exceptno, i, rfl⟩
  · exact plain_regs c h
  · exact reads_regs c h
  · rintro s k rfl
    refine ⟨⟨trivial, trivial⟩, ?_⟩
    show Function.update s.reg core reg c = if core = c then reg else s.reg c
    by_cases hc : core = c
    · subst hc
      simp
    · rw [if_neg hc, Function.update_of_ne (Ne.symm hc)]
  · exact (reads_regs c (hook_reads core exceptno i)).andThen (.guard (exception_regs core exceptno i))

end Isolation

/-- **A core's registers are its own.** In every run, whatever the other cores do, the guest of a core starts each
slice with the registers that its own instructions and hooks left, unless an `smcCpuOn` of another core has named it. -/
theorem registers_isolated (mem : HostBlock → ℕ → BitVec 8) (reg : Core → Reg → BitVec 64) (xs : List EmuSlice)
    (c : Core) : (ownRegs c).Accepts ((Emulator.start mem reg).reg c) (emulate mem reg xs).2 ∧
      (emulate mem reg xs).1.emu.reg c = (ownRegs c).run ((Emulator.start mem reg).reg c) (emulate mem reg xs).2 := by
  have hrule := EmuRule.offHost (m := ownRegs c) (R := RegsAre c) (fun _ _ _ h => h) (fun _ _ => ⟨rfl, trivial⟩)
    (fun core s k hs => ⟨⟨fun hc => by subst hc; exact ⟨hs, congrFun hs .pc⟩, trivial⟩, hs⟩)
    fun core e s k hs => event_regs c core e s k hs.2
  obtain ⟨hacc, hend⟩ := hrule.run mem reg ⟨start_idle mem, rfl⟩ xs
  refine ⟨hacc, ?_⟩
  rcases hend with ⟨-, hs⟩ | ⟨-, core, -, hs⟩
  · exact hs
  · exact hs

/-! ## The first start -/

/-- What is known of a core until it starts: its registers, and if an `smcCpuOn` has named it. -/
structure Handoff where
  regs : Reg → BitVec 64
  named : Bool
  started : Bool

/-- The core on whose engine a record is made. What a UART prints follows a write of some core. -/
def EmuRec.core? : EmuRec → Option Core
  | .host mo => some mo.call.core
  | .emuStart core _ _ | .regs core _ | .read core _ _ _ _ | .write core _ _ _ _ | .exception core _ _ _ _
  | .regWrite core _ _ _ | .walk core _ _ _ _ | .print core _ _ | .fault core _ _ _ _ => some core
  | .code e _ => some e.core
  | .uart _ => none

/-- The calls of the run loop that lead to the start of a guest: its interrupts, and the beginning of its slice. -/
def RunCall.Entering : RunCall → Prop
  | .handleInterrupts _ _ | .runSlice _ | .memMapPtr _ _ _ _ _ | .emuStart _ => True
  | _ => False

/-- **The first start of core `c`**: with the registers that it had, but for the program counter and `X0` of the last
`smcCpuOn` that named it. Only core 0 starts without one. Before it, there is no record of the core but of the calls
that lead to it. -/
def firstStart (c : Core) : Monitor Handoff EmuRec where
  next k o := match o with
    | .exception _ exceptno spsel args _ =>
      if CpuOn exceptno spsel args c then { k with regs := cpuOnRegs args k.regs, named := true } else k
    | .emuStart core _ _ => { k with started := k.started || decide (core = c) }
    | _ => k
  ok k o := o.core? = some c → k.started = false → match o with
    | .emuStart _ pc reg => reg = k.regs ∧ pc = k.regs .pc ∧ (c.val = 0 ∨ k.named = true)
    | .host mo => mo.call.Entering ∧ (c.val = 0 ∨ k.named = true)
    | _ => False

/-- A core that has not started yet has the registers that it is to start with. -/
def Waits (c : Core) (s : Emulator) (k : Handoff) : Prop :=
  k.started = false → s.reg c = k.regs ∧ (s.host.coresOnline c = true → c.val = 0 ∨ k.named = true)

section FirstStart

variable {c core : Core}

/-- After the first start, nothing is asked. -/
theorem firstStart_started {k : Handoff} (hk : k.started = true) (os : List EmuRec) :
    (firstStart c).Accepts k os ∧ ((firstStart c).run k os).started = true := by
  induction os generalizing k with
  | nil => exact ⟨trivial, hk⟩
  | cons o os ih =>
    have hnext : ((firstStart c).next k o).started = true := by
      cases o with
      | exception core exceptno spsel args calls =>
        show (if CpuOn exceptno spsel args c then _ else k).started = true
        split <;> exact hk
      | emuStart core pc reg =>
        show (k.started || decide (core = c)) = true
        rw [hk, Bool.true_or]
      | _ => exact hk
    have hok : (firstStart c).ok k o := fun _ h => absurd (hk.symm.trans h) (by simp)
    obtain ⟨hacc, hrun⟩ := ih hnext
    exact ⟨⟨hok, hacc⟩, hrun⟩

theorem waits_started {k : Handoff} (hk : k.started = true) (s : Emulator) : Waits c s k :=
  fun h => absurd (hk.symm.trans h) (by simp)

/-- Records of other cores. -/
theorem firstStart_other (hc : core ≠ c) {o : EmuRec} (ho : o.core? = some core) (k : Handoff) :
    (firstStart c).ok k o := fun h => absurd (Option.some.inj (ho.symm.trans h)) hc

theorem act_waits (hc : core ≠ c) (act : GuestAct) : Leaves (firstStart c).Ignores (guestAct core act) := by
  intro s o ho k
  obtain ⟨mo, rfl, hcore⟩ := act_core core act ho
  exact ⟨rfl, firstStart_other hc (o := .host mo) (congrArg some hcore) k⟩

theorem engineCall_waits (hc : core ≠ c) (call : EngineCall) :
    Leaves (firstStart c).Ignores (engineCall core call) := by
  cases call with
  | regWrite engine reg val => exact .emit fun _ k => ⟨rfl, firstStart_other hc rfl k⟩
  | memWrite addr word => exact .guard (.forEach (act_waits hc) _)
  | setOnline cpu => exact act_waits hc _
  | setQuit => exact act_waits hc _

/-- An exception on another core: if it is `smcCpuOn` for this one, it sets the registers to start with. -/
theorem exception_waits (hc : core ≠ c) (exceptno : BitVec 32) (i : ExceptionIn) :
    Triple (firstStart c) (Waits c) (emuException core exceptno i) (Waits c) := by
  intro s k hs
  unfold emuException
  split
  · rename_i calls hcalls
    have hcases := hookExceptionCalls_cases hcalls
    obtain ⟨hacc, hrun⟩ := Monitor.Ignores.list (Leaves.forEach (engineCall_waits hc) calls s)
      ((firstStart c).next k (.exception core exceptno i.spsel (s.args core) calls))
    refine ⟨⟨firstStart_other hc rfl _, hacc⟩, ?_⟩
    show Waits c (Cmd.forEach (engineCall core) calls s).1 ((firstStart c).run
      ((firstStart c).next k (.exception core exceptno i.spsel (s.args core) calls))
      (Cmd.forEach (engineCall core) calls s).2)
    rw [hrun]
    have hreg : (Cmd.forEach (engineCall core) calls s).1.reg c =
        if CpuOn exceptno i.spsel (s.args core) c then cpuOnRegs (s.args core) (s.reg c) else s.reg c :=
      engineCalls_foreign hcases (Ne.symm hc) s
    have hon : (Cmd.forEach (engineCall core) calls s).1.host.coresOnline c =
        (s.host.coresOnline c || decide (CpuOn exceptno i.spsel (s.args core) c)) := by
      rw [(engineCalls_flow core calls s).1 c, decide_eq_decide.2 (hcases.setOnline_mem c)]
      rfl
    unfold Waits
    rw [hreg, hon]
    by_cases hcpu : CpuOn exceptno i.spsel (s.args core) c
    · have hnext : (firstStart c).next k (.exception core exceptno i.spsel (s.args core) calls) =
          { k with regs := cpuOnRegs (s.args core) k.regs, named := true } := if_pos hcpu
      rw [hnext, if_pos hcpu]
      intro hk
      exact ⟨by rw [(hs hk).1], fun _ => .inr rfl⟩
    · have hnext : (firstStart c).next k (.exception core exceptno i.spsel (s.args core) calls) = k := if_neg hcpu
      rw [hnext, if_neg hcpu, decide_eq_false hcpu, Bool.or_false]
      exact hs
  · exact ⟨⟨firstStart_other hc rfl _, trivial⟩, hs⟩

theorem plain_waits (hc : core ≠ c) {cmd : Cmd Emulator EmuRec} (h : Plain core cmd) :
    Triple (firstStart c) (Waits c) cmd (Waits c) := by
  refine .quiet (fun s k hs hk => ?_) fun s o ho => ?_
  · have hcpus := h.keeps s
    simp only [Emulator.cpus, Prod.mk.injEq] at hcpus
    rw [hcpus.1, hcpus.2.1]
    exact hs hk
  · have hplain := h.leaves s o ho
    intro k
    cases o with
    | host mo => exact ⟨rfl, firstStart_other hc (o := .host mo) (congrArg some hplain) k⟩
    | uart out => exact ⟨rfl, fun h => by cases h⟩
    | read c' addr size target value =>
      exact ⟨rfl, firstStart_other hc (o := .read c' addr size target value) (congrArg some hplain) k⟩
    | write c' addr data size target =>
      exact ⟨rfl, firstStart_other hc (o := .write c' addr data size target) (congrArg some hplain) k⟩
    | code e calls => exact ⟨rfl, firstStart_other hc (o := .code e calls) (congrArg some hplain) k⟩
    | _ => exact absurd hplain id

theorem reads_waits (hc : core ≠ c) {cmd : Cmd Emulator EmuRec} (h : Reads core cmd) :
    Triple (firstStart c) (Waits c) cmd (Waits c) :=
  h.triple (fun _ _ _ hs => hs) (fun _ _ _ _ k => ⟨rfl, firstStart_other hc rfl k⟩)
    fun _ _ k => ⟨rfl, firstStart_other hc rfl k⟩

/-- An event on another core, before the first start. -/
theorem event_waits (hc : core ≠ c) (e : GuestEvent) :
    Triple (firstStart c) (Waits c) (guestEvent core e) (Waits c) := by
  rcases event_plain core e with h | h | ⟨reg, rfl⟩ | ⟨exceptno, i, rfl⟩
  · exact plain_waits hc h
  · exact reads_waits hc h
  · intro s k hs
    refine ⟨⟨firstStart_other hc rfl k, trivial⟩, fun hk => ?_⟩
    obtain ⟨hreg, hon⟩ := hs hk
    refine ⟨?_, hon⟩
    show Function.update s.reg core reg c = _
    rw [Function.update_of_ne (Ne.symm hc)]
    exact hreg
  · exact (reads_waits hc (hook_reads core exceptno i)).andThen (.guard (exception_waits hc exceptno i))

/-- The calls before the guest lead to its start. -/
theorem beforeGuest_entering {h : Host} {mo : Moment} (hmo : mo ∈ beforeGuest core h) :
    mo.call.core = core ∧ mo.call.Entering := by
  simp only [beforeGuest, List.mem_cons, List.not_mem_nil, or_false] at hmo
  rcases hmo with rfl | rfl | rfl | rfl | rfl <;> exact ⟨rfl, trivial⟩

/-- The first start itself. -/
theorem enter_waits (core : Core) : Triple (firstStart c)
    (fun s k => s.host.Idle ∧ s.host.coresOnline core = true ∧ Waits c s k) (enterSlice core)
    (fun s k => s.host.InSlice core ∧ (core = c → k.started = true) ∧ Waits c s k) := by
  rintro s k ⟨hi, hon, hs⟩
  unfold enterSlice onHost
  rw [Cmd.andThen_apply, enterCalls_eq core hi]
  have hcalls : (firstStart c).Accepts k ((beforeGuest core s.host).map .host) ∧
      (firstStart c).run k ((beforeGuest core s.host).map .host) = k := by
    refine Monitor.accepts_stay fun o ho => ?_
    obtain ⟨mo, hmo, rfl⟩ := List.mem_map.1 ho
    obtain ⟨hcore, hentering⟩ := beforeGuest_entering hmo
    refine ⟨rfl, fun h hk => ⟨hentering, ?_⟩⟩
    obtain rfl : core = c := hcore.symm.trans (Option.some.inj h)
    exact (hs hk).2 hon
  dsimp only
  rw [Monitor.accepts_append, Monitor.run_append, hcalls.2]
  refine ⟨⟨hcalls.1, ⟨?_, trivial⟩⟩, fun c => rfl, ?_, ?_⟩
  · intro h hk
    obtain rfl : core = c := Option.some.inj h
    obtain ⟨hreg, hnamed⟩ := hs hk
    exact ⟨hreg, congrFun hreg .pc, hnamed hon⟩
  · rintro rfl
    simp [firstStart]
  · intro hk
    have hk' : k.started = false := (Bool.or_eq_false_iff.1 hk).1
    exact hs hk'

theorem afterGuest_core {x : Slice} {h : Host} {mo : Moment} (hmo : mo ∈ afterGuest core x h) : mo.call.core = core := by
  simp only [afterGuest, List.mem_cons, List.not_mem_nil, or_false] at hmo
  rcases hmo with rfl | rfl | rfl | rfl | rfl <;> rfl

theorem waitsRule (c : Core) : EmuRule (firstStart c) (fun s k => s.host.Idle ∧ Waits c s k)
    (fun core s k => s.host.Idle ∧ s.host.coresOnline core = true ∧ Waits c s k)
    (fun core s k => s.host.InSlice core ∧ (core = c → k.started = true) ∧ Waits c s k) where
  inject core := by
    rintro s k ⟨⟨hi, hs⟩, hon, -⟩
    refine ⟨⟨fun h hk => ⟨trivial, ?_⟩, trivial⟩, hi.inject core, hon, hs⟩
    obtain rfl : core = c := Option.some.inj h
    exact (hs hk).2 hon
  enter := enter_waits
  event core e := by
    rintro s k ⟨-, hin, hstarted, hs⟩
    have hin' : (guestEvent core e s).1.host.InSlice core := fun c => by rw [event_regions]; exact hin c
    by_cases hc : core = c
    · -- the core has started
      obtain ⟨hacc, hk⟩ := firstStart_started (c := c) (hstarted hc) (guestEvent core e s).2
      exact ⟨hacc, hin', fun _ => hk, waits_started hk _⟩
    · obtain ⟨hacc, hend⟩ := event_waits hc e s k hs
      exact ⟨hacc, hin', fun h => absurd h hc, hend⟩
  leave core x := by
    rintro s k ⟨-, hin, hstarted, hs⟩
    unfold leaveSlice onHost
    rw [leaveCalls_eq core ⟨[], x.err, x.ret⟩ hin]
    dsimp only
    have hquiet : ∀ o ∈ (afterGuest core ⟨[], x.err, x.ret⟩
        ((s.host.returned x.err).withBanks core [])).map EmuRec.host,
        (firstStart c).next k o = k ∧ (firstStart c).ok k o := by
      intro o ho
      obtain ⟨mo, hmo, rfl⟩ := List.mem_map.1 ho
      refine ⟨rfl, fun h hk => ?_⟩
      -- only a core that has started leaves its guest
      have hcore : core = c := (afterGuest_core hmo).symm.trans (Option.some.inj h)
      exact absurd ((hstarted hcore).symm.trans hk) (by simp)
    obtain ⟨hacc, hrun⟩ := Monitor.accepts_stay hquiet
    rw [hrun]
    refine ⟨hacc, idle_withBanks_nil core _, fun hk => ?_⟩
    obtain ⟨hreg, hon⟩ := hs hk
    have hsame : (s.host.returned x.err).coresOnline = s.host.coresOnline := by
      unfold Host.returned
      split <;> rfl
    refine ⟨hreg, fun h => hon ?_⟩
    rw [← hsame]
    exact h

end FirstStart

/-- **A core starts where it is told.** In every run, nothing happens on a core before its first slice: no access, no
hook, no call but those that lead to the slice, and these only when it has been named. The slice starts at the
address and with the argument of the last `smcCpuOn` that named the core, on registers as they were in the beginning
otherwise. Only core 0 starts unnamed: at the kernel. -/
theorem core_boots (mem : HostBlock → ℕ → BitVec 8) (reg : Core → Reg → BitVec 64) (xs : List EmuSlice) (c : Core) :
    (firstStart c).Accepts ⟨(Emulator.start mem reg).reg c, false, false⟩ (emulate mem reg xs).2 := by
  refine ((waitsRule c).run mem reg ⟨start_idle mem, fun _ => ⟨rfl, fun hon => .inl ?_⟩⟩ xs).1
  exact beq_iff_eq.1 hon

end Mooooooo
