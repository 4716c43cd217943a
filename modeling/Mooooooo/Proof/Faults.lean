import Mooooooo.Proof.Machine

/-!
# Faults over whole runs

* `faults_exact`: **when a hook faults**: at the secure monitor calls whose arguments `smcFault` names, at the walks
  that read outside the banks and at the strings that do not end in theirs, with that fault, and nothing happens
  afterwards.
* `HookRead.reads`: an exception that comes to its calls has read what it prints.
-/

namespace Mooooooo

/-! ## Reading the records -/

/-- Host memory as the records show it, the fault if there has been one, and the last walk or string since the
last exception. -/
structure Faulting where
  mem : HostBlock → ℕ → BitVec 8
  fault : Option HostFault
  read : Option EmuRec

/-- What an exception has to print has been read: after a prefetch abort the tables, for the address that it stopped
at, and for `smcDebugPrint` the string at what its pointer is redirected to. -/
structure Faulting.Reads (k : Faulting) (core : Core) (exceptno : BitVec 32) (spsel : BitVec 64) (args : Args)
    (calls : List EngineCall) : Prop where
  walk : exceptno = 3 → ∃ ttbr addr seen, k.read = some (.walk core core ttbr addr seen) ∧
    calls = writeBack core args addr
  print : exceptno = 1 ∧ spsel ≠ 0 → args.call = 0xf00ff00f →
    ∃ addr str, k.read = some (.print core (paddrToAlloc addr) str)

/-- **The faults of the host.** What a hook reads is what memory has, up to the fault. A walk and a string fault
exactly in what was read of them, the calls of an exception exactly as `exceptionFault` says, and no record follows
a fault. -/
def faults : Monitor Faulting EmuRec where
  next k o := match o with
    | .host mo => { k with mem := mo.host.mem }
    | .walk _ _ _ _ calls => { k with fault := walkFault calls, read := some o }
    | .print _ ptr str => { k with fault := stringFault ptr str, read := some o }
    | .exception _ _ _ _ _ => { k with read := none }
    | .fault _ _ _ _ f => { k with fault := some f }
    | _ => k
  ok k o := k.fault = none ∧ match o with
    | .walk _ _ ttbr addr calls => calls = walkReached (ucMmuWalk k.mem ttbr.1 ttbr.2 addr)
    | .print _ ptr str => str = hostString k.mem ptr
    | .exception core exceptno spsel args calls =>
      exceptionFault exceptno spsel args = none ∧ k.Reads core exceptno spsel args calls
    | .fault _ exceptno spsel args f => exceptionFault exceptno spsel args = some f
    | _ => True

/-- What the records tell of the state. -/
def Tells (s : Emulator) (k : Faulting) : Prop := s.fault = k.fault ∧ s.host.mem = k.mem

/-- The same, where nothing has faulted. -/
def Calm (s : Emulator) (k : Faulting) : Prop := s.fault = none ∧ Tells s k

theorem Calm.fault {s : Emulator} {k : Faulting} (h : Calm s k) : k.fault = none := h.2.1.symm.trans h.1

/-! ## The host -/

/-- The last record of the command shows the memory that it leaves. -/
def ShowsMem (c : Cmd Host Moment) : Prop := ∀ h, (c h).2.foldl (fun _ mo => mo.host.mem) h.mem = (c h).1.mem

theorem guestStep_shows (core : Core) (act : GuestAct) : ShowsMem (guestStep core act) := by
  intro h
  cases act <;> rfl

/-- Records of the host, after which nothing has faulted yet. -/
theorem host_run (ms : List Moment) {k : Faulting} (hk : k.fault = none) :
    faults.Accepts k (ms.map .host) ∧
      faults.run k (ms.map .host) = { k with mem := ms.foldl (fun _ mo => mo.host.mem) k.mem } := by
  induction ms generalizing k with
  | nil => exact ⟨trivial, rfl⟩
  | cons mo ms ih =>
    obtain ⟨hacc, hrun⟩ := ih (k := { k with mem := mo.host.mem }) hk
    exact ⟨⟨⟨hk, trivial⟩, hacc⟩, hrun⟩

theorem onHost_faultless {c : Cmd Host Moment} (hshows : ShowsMem c) : Triple faults Calm (onHost c) Calm := by
  intro s k hs
  obtain ⟨hacc, hrun⟩ := host_run (c s.host).2 hs.fault
  refine ⟨hacc, hs.1, ?_⟩
  unfold onHost
  dsimp only
  rw [hrun, ← hs.2.2]
  exact ⟨hs.2.1, (hshows s.host).symm⟩

theorem act_faultless (core : Core) (act : GuestAct) : Triple faults Calm (guestAct core act) Calm :=
  onHost_faultless (guestStep_shows core act)

/-! ## Reads -/

/-- A walk faults in what it reads outside the banks. -/
theorem walk_faults (core engine : Core) (ttbr : BitVec 64 × BitVec 64) (addr : BitVec 64) :
    Triple faults Calm (emuWalk core engine ttbr addr) Tells := by
  intro s k hs
  have hmem : s.host.mem = k.mem := hs.2.2
  refine ⟨⟨⟨hs.fault, ?_⟩, trivial⟩, ?_, hmem⟩
  · rw [← hmem]
  · exact (walkFault_reached _).symm

theorem print_faults (core : Core) (ptr : Option HostPtr) : Triple faults Calm (emuPrint core ptr) Tells := by
  intro s k hs
  have hmem : s.host.mem = k.mem := hs.2.2
  refine ⟨⟨⟨hs.fault, ?_⟩, trivial⟩, rfl, hmem⟩
  rw [← hmem]

theorem reads_faults (core : Core) (exceptno : BitVec 32) (i : ExceptionIn) :
    Triple faults Calm (emuReads core exceptno i) Tells := by
  intro s k hs
  unfold emuReads
  split
  · split
    · exact print_faults core _ s k hs
    · exact ⟨trivial, hs.2⟩
  · split
    · exact walk_faults core core _ _ s k hs
    · exact ⟨trivial, hs.2⟩

/-- The walks of `hook_mem_invalid` end at the first fault. -/
theorem invalid_faults (core : Core) (type : BitVec 32) (address : BitVec 64) (ttbr : Core → BitVec 64 × BitVec 64) :
    Triple faults Tells (emuMemInvalid core type address ttbr) Tells :=
  .forEach (fun engine => (walk_faults core engine (ttbr engine) address).under) _

/-! ## Exceptions -/

theorem engineCall_faultless (core : Core) (call : EngineCall) : Triple faults Calm (engineCall core call) Calm := by
  cases call with
  | regWrite engine reg val =>
    refine .stays (fun _ _ hs => hs) fun s k hs o ho => ?_
    rw [List.mem_singleton.1 ho]
    exact ⟨rfl, hs.fault, trivial⟩
  | memWrite addr word => exact .guard (.forEach (act_faultless core) _)
  | setOnline cpu => exact act_faultless core _
  | setQuit => exact act_faultless core _

/-- What an exception has to print has been read on its engine. -/
def HookRead (core : Core) (exceptno : BitVec 32) (i : ExceptionIn) (s : Emulator) (k : Faulting) : Prop :=
  (exceptno = 3 → ∃ ttbr seen, k.read = some (.walk core core ttbr (s.reg core .pc) seen)) ∧
    (exceptno = 1 ∧ i.spsel ≠ 0 → (s.args core).call = 0xf00ff00f →
      ∃ addr str, k.read = some (.print core (paddrToAlloc addr) str))

theorem HookRead.reads {core : Core} {exceptno : BitVec 32} {i : ExceptionIn} {s : Emulator} {k : Faulting}
    (h : HookRead core exceptno i s k) {calls : List EngineCall}
    (hcalls : hookExceptionCalls core exceptno (s.input core i) (s.args core) (s.reg core .pc) = .ok calls) :
    k.Reads core exceptno i.spsel (s.args core) calls where
  walk h3 := by
    obtain ⟨ttbr, seen, hread⟩ := h.1 h3
    refine ⟨ttbr, s.reg core .pc, seen, hread, ?_⟩
    -- an abort only writes the registers back
    have hsmc : ¬(exceptno = 1 ∧ (s.input core i).spsel ≠ 0) := by
      rw [h3]
      exact fun h => absurd h.1 (by decide)
    have hsvc : exceptno ≠ 2 := by
      rw [h3]
      decide
    unfold hookExceptionCalls at hcalls
    rw [if_neg hsmc, if_neg hsvc] at hcalls
    exact (Except.ok.inj hcalls).symm
  print := h.2

/-- The calls of an exception fault exactly if its arguments lead to that. -/
theorem exception_faults (core : Core) (exceptno : BitVec 32) (i : ExceptionIn) :
    Triple faults (fun s k => Calm s k ∧ HookRead core exceptno i s k) (emuException core exceptno i) Tells := by
  rintro s k ⟨hs, hread⟩
  have hfault := hookExceptionCalls_fault core exceptno (s.input core i) (s.args core) (s.reg core .pc)
  have hspsel : (s.input core i).spsel = i.spsel := rfl
  rw [hspsel] at hfault
  unfold emuException
  cases hcalls : hookExceptionCalls core exceptno (s.input core i) (s.args core) (s.reg core .pc) with
  | error f =>
    rw [hcalls] at hfault
    exact ⟨⟨⟨hs.fault, hfault.symm⟩, trivial⟩, rfl, hs.2.2⟩
  | ok calls =>
    rw [hcalls] at hfault
    obtain ⟨hacc, hend⟩ := Triple.forEach (engineCall_faultless core) calls s { k with read := none } hs
    exact ⟨⟨⟨hs.fault, hfault.symm, hread.reads hcalls⟩, hacc⟩, hend.2⟩

/-- The reads read what the exception has to print. -/
theorem reads_done (core : Core) (exceptno : BitVec 32) (i : ExceptionIn) (s : Emulator) (k : Faulting) :
    HookRead core exceptno i (emuReads core exceptno i s).1 (faults.run k (emuReads core exceptno i s).2) := by
  unfold emuReads
  by_cases hsmc : exceptno = 1 ∧ i.spsel ≠ 0
  · have h3 : exceptno ≠ 3 := by
      rw [hsmc.1]
      decide
    rw [if_pos hsmc]
    refine ⟨fun h => absurd h h3, fun _ hprint => ?_⟩
    by_cases hcall : (s.args core).call = 0xf00ff00f
    · rw [if_pos hcall]
      exact ⟨_, _, rfl⟩
    · rw [if_neg hcall] at hprint
      exact absurd hprint hcall
  · rw [if_neg hsmc]
    refine ⟨fun h3 => ?_, fun h => absurd h hsmc⟩
    rw [if_pos h3]
    exact ⟨_, _, rfl⟩

/-- After the reads, the hook goes on if they were there. -/
theorem hookReads_faults (core : Core) (exceptno : BitVec 32) (i : ExceptionIn) :
    Triple faults Calm (emuReads core exceptno i)
      (fun s k => Tells s k ∧ HookRead core exceptno i s k ∧
        (s.readFault core exceptno i = none → s.fault = none)) := by
  intro s k hs
  obtain ⟨hacc, htells⟩ := reads_faults core exceptno i s k hs
  obtain ⟨f, hend, hf⟩ := hookReads_end core exceptno i s
  refine ⟨hacc, htells, reads_done core exceptno i s k, ?_⟩
  rw [hend]
  intro hnone
  rcases hf with hf | ⟨-, hf⟩
  · exact hf.symm.trans hnone
  · exact hf.trans hs.1

theorem hook_faults (core : Core) (exceptno : BitVec 32) (i : ExceptionIn) :
    Triple faults Calm (emuHook core exceptno i) Tells := by
  refine (hookReads_faults core exceptno i).andThen ?_
  rintro s k ⟨htells, hread, hcalm⟩
  by_cases hnone : s.readFault core exceptno i = none
  · simp only [if_pos hnone]
    exact exception_faults core exceptno i s k ⟨⟨hcalm hnone, htells⟩, hread⟩
  · simp only [if_neg hnone]
    exact ⟨trivial, htells⟩

/-! ## Events -/

theorem hookCall_faultless (core : Core) (call : HookCall) : Triple faults Calm (hookCallEffect core call) Calm := by
  cases call with
  | emuStop c => exact .skip
  | hang c address => exact act_faultless core _

/-- Events without an exception or a walk do not fault. -/
theorem event_faultless (core : Core) (e : GuestEvent) :
    Triple faults Calm (guestEvent core e) Calm ∨ (∃ exceptno i, e = .exception exceptno i) ∨
      ∃ type address ttbr, e = .invalid type address ttbr := by
  cases e with
  | regs reg =>
    refine .inl (.stays (fun _ _ hs => hs) fun s k hs o ho => ?_)
    rw [List.mem_singleton.1 ho]
    exact ⟨rfl, hs.fault, trivial⟩
  | load addr => exact .inl (act_faultless core _)
  | store addr byte => exact .inl (act_faultless core _)
  | read addr size timeUs =>
    exact .inl (Triple.read (m := faults) (fun _ _ hs _ _ _ _ => ⟨rfl, hs.fault, trivial⟩)
      (fun _ => act_faultless core _) addr size timeUs)
  | write addr data size =>
    exact .inl (Triple.write (m := faults) (fun _ _ hs _ _ _ _ => ⟨rfl, hs.fault, trivial⟩)
      (fun _ _ hs _ => ⟨rfl, hs.fault, trivial⟩) (fun _ => act_faultless core _) (fun _ _ _ _ hs => hs) addr data size)
  | code address insn =>
    refine .inl fun s k hs => Triple.andThen ?_ (Triple.forEach (hookCall_faultless core) _) s k hs
    refine .stays (fun _ _ hs => hs) fun s k hs o ho => ?_
    rw [List.mem_singleton.1 ho]
    exact ⟨rfl, hs.fault, trivial⟩
  | exception exceptno i => exact .inr (.inl ⟨exceptno, i, rfl⟩)
  | invalid type address ttbr => exact .inr (.inr ⟨type, address, ttbr, rfl⟩)

theorem event_faults (core : Core) (e : GuestEvent) : Triple faults Calm (guestEvent core e) Tells := by
  rcases event_faultless core e with h | ⟨exceptno, i, rfl⟩ | ⟨type, address, ttbr, rfl⟩
  · exact h.conseq (fun _ _ hs => hs) fun _ _ hs => hs.2
  · exact hook_faults core exceptno i
  · exact (invalid_faults core type address ttbr).conseq (fun _ _ hs => hs.2) fun _ _ hs => hs

/-! ## Runs -/

theorem faultsRule : EmuRule faults Calm (fun _ => Calm) (fun _ => Tells) where
  inject core := by
    refine (onHost_faultless ?_).conseq (fun _ _ hs => hs.1) fun _ _ hs => hs
    exact fun _ => rfl
  enter core := by
    refine (onHost_faultless (c := Cmd.forEach id (enterCalls core)) fun _ => rfl).andThen ?_
    rintro s k hs
    exact ⟨⟨⟨hs.fault, trivial⟩, trivial⟩, hs.2⟩
  event core e := event_faults core e
  leave core x := onHost_faultless (c := Cmd.forEach id (leaveCalls core x.err x.ret)) fun _ => rfl

/-- **When a hook faults.** In every run, an exception ends in a fault of its calls exactly if its arguments lead to
one, in the fault that they lead to, and comes to its calls after reading what it prints; a walk of tables faults exactly
if it comes to read outside the banks, a string exactly if it does not end in its bank; and then nothing happens any
more. -/
theorem faults_exact (mem : HostBlock → ℕ → BitVec 8) (reg : Core → Reg → BitVec 64) (xs : List EmuSlice) :
    faults.Accepts ⟨mem, none, none⟩ (emulate mem reg xs).2 ∧
      (emulate mem reg xs).1.emu.fault = (faults.run ⟨mem, none, none⟩ (emulate mem reg xs).2).fault := by
  have hmem : (Emulator.start mem reg).host.mem = mem := init_mem mem
  obtain ⟨hacc, hend⟩ := faultsRule.run mem reg (k := ⟨mem, none, none⟩) ⟨rfl, rfl, hmem⟩ xs
  refine ⟨hacc, ?_⟩
  rcases hend with hs | ⟨-, core, hs⟩
  · exact hs.2.1
  · exact hs.1

end Mooooooo
