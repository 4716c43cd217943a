import Mooooooo.Proof.Engine

/-!
# Secure monitor calls on the engines

* `smcCall_effect`: what a secure monitor call that returns can do, call by call.
* `smcCpuOn_law_iff`: **when `smcCpuOn` starts offline processors and disturbs no other.**
* `smcReadWriteRegister_law_iff`: **when `smcReadWriteRegister` is a masked access.**
-/

namespace Mooooooo

/-! ## What a call can do -/

/-- The arguments and the calls that a secure monitor call leaves. -/
inductive SmcEffect (i : ExceptionIn) (args : Args) : Args × List EngineCall → Prop
  | random (h : args 0 = 0xC3000005) (hsize : (args 1).toNat ≤ 0x38) :
    SmcEffect i args (withTmp i (args 1).toNat (Function.update args 0 0), [])
  | read (h : args 0 = 0xc3000008) (hmask : args 2 = 0) :
    SmcEffect i args (Function.update (Function.update args 0 0) 1 (readInto i (args 1) (args 1)), [])
  | write (h : args 0 = 0xc3000008) (hmask : args 2 ≠ 0) :
    SmcEffect i args (Function.update args 0 0, [.memWrite (args 1) ((args 3).setWidth 32)])
  | cpuOn (h : args 0 = 0xc4000003) (cpu : Core) (hcpu : args 1 = BitVec.ofNat 64 cpu) :
    SmcEffect i args (Function.update args 0 0,
      [.regWrite cpu (argReg 0) (args 3), .regWrite cpu .pc (args 2), .setOnline cpu])
  | config (h : args 0 = 0xc3000004) (val : BitVec 64) (hval : configVal (args 1) = some val) :
    SmcEffect i args (fun j => if j = 0 then 0 else if j.val ≤ 4 then val else args j, [])
  | zero (h : args 0 ≠ 0xc4000003) : SmcEffect i args (Function.update args 0 0, [])
  | unknown (h : args 0 ≠ 0xc4000003) : SmcEffect i args (args, [])

/-- **What a secure monitor call can do.** -/
theorem smcCall_effect {i : ExceptionIn} {args : Args} {r : Args × List EngineCall} (h : smcCall i args = .ok r) :
    SmcEffect i args r := by
  unfold smcCall at h
  by_cases hrandom : args 0 = 0xC3000005
  · rw [if_pos hrandom] at h
    obtain ⟨args', hargs, rfl⟩ := ok_of_bind_pure h
    obtain ⟨hsize, rfl⟩ := memcpyArgs_ok hargs
    exact .random hrandom hsize
  rw [if_neg hrandom] at h
  by_cases hreg : args 0 = 0xc3000008
  · rw [if_pos hreg] at h
    obtain rfl := Except.ok.inj h
    unfold smcReadWriteRegister
    by_cases hmask : args 2 = 0
    · have hmask' : Function.update args 0 0 2 = 0 := by rwa [Function.update_of_ne (by decide)]
      dsimp only
      rw [if_pos hmask', Function.update_of_ne (by decide)]
      exact .read hreg hmask
    · have hmask' : ¬Function.update args 0 0 2 = 0 := by rwa [Function.update_of_ne (by decide)]
      dsimp only
      rw [if_neg hmask', Function.update_of_ne (by decide), Function.update_of_ne (by decide)]
      exact .write hreg hmask
  rw [if_neg hreg] at h
  by_cases hcpu : args 0 = 0xc4000003
  · rw [if_pos hcpu] at h
    have hfault := smcCpuOn_fault args
    by_cases hlt : (args 1).toNat < 4
    · rw [smcCpuOn_ok hlt] at h
      obtain rfl := Except.ok.inj h
      exact .cpuOn hcpu ⟨_, hlt⟩ (by simp)
    · rw [if_neg hlt, fault_eq_some_iff] at hfault
      rw [hfault] at h
      cases h
  rw [if_neg hcpu] at h
  by_cases hconfig : args 0 = 0xc3000004
  · rw [if_pos hconfig] at h
    obtain ⟨args', hargs, rfl⟩ := ok_of_bind_pure h
    unfold smcGetConfig at hargs
    cases hval : configVal (args 1) with
    | none =>
      rw [hval] at hargs
      cases hargs
    | some val =>
      rw [hval] at hargs
      obtain rfl := Except.ok.inj hargs
      exact .config hconfig val hval
  rw [if_neg hconfig] at h
  split at h
  · rw [← Except.ok.inj h]
    exact .zero hcpu
  split at h
  · rw [← Except.ok.inj h]
    exact .zero hcpu
  split at h
  · rw [← Except.ok.inj h]
    exact .zero hcpu
  · rw [← Except.ok.inj h]
    exact .unknown hcpu

/-! ## Calls on the engines -/

/-- The engines after a secure monitor call that leaves `r`. -/
def Machine.afterSmc (m : Machine) (core : Core) (r : Args × List EngineCall) : Machine :=
  (writeBack core r.1 (m.reg core .pc)).foldl Machine.exec (r.2.foldl Machine.exec m)

section Hook

variable {m : Machine} {core : Core} {i : ExceptionIn}

theorem hook_smc (hspsel : i.spsel ≠ 0) : m.hook core 1 i =
    smcCall (m.input i) (m.args core) >>= fun r => pure (m.afterSmc core r) := by
  have hsmc : (1 : BitVec 32) = 1 ∧ (m.input i).spsel ≠ 0 := ⟨rfl, hspsel⟩
  unfold Machine.hook hookExceptionCalls
  rw [if_pos hsmc]
  cases smcCall (m.input i) (m.args core) with
  | error e => rfl
  | ok r => exact congrArg Except.ok (List.foldl_append ..)

theorem hook_ok {r : Args × List EngineCall} (hspsel : i.spsel ≠ 0)
    (h : smcCall (m.input i) (m.args core) = .ok r) : m.hook core 1 i = .ok (m.afterSmc core r) := by
  rw [hook_smc hspsel, h]
  rfl

section After

variable (r : Args × List EngineCall) (c : Core)

theorem afterSmc_eq : m.afterSmc core r = (r.2.foldl Machine.exec m).setRegs core
    (putRegs r.1 (m.reg core .pc + 4) ((r.2.foldl Machine.exec m).reg core)) := Machine.exec_writeBack _ _ _ _

theorem afterSmc_arg (j : Fin 8) : (m.afterSmc core r).reg c (argReg j) =
    if c = core then r.1 j else (r.2.foldl Machine.exec m).reg c (argReg j) := by
  rw [afterSmc_eq]
  by_cases hc : c = core
  · subst hc
    rw [if_pos rfl, Machine.setRegs_same]
    simp
  · rw [if_neg hc, Machine.setRegs_of_ne _ hc]

theorem afterSmc_pc : (m.afterSmc core r).reg c .pc =
    if c = core then m.reg core .pc + 4 else (r.2.foldl Machine.exec m).reg c .pc := by
  rw [afterSmc_eq]
  by_cases hc : c = core
  · subst hc
    rw [if_pos rfl, Machine.setRegs_same]
    simp
  · rw [if_neg hc, Machine.setRegs_of_ne _ hc]

/-- The registers that the hook does not write back. -/
theorem afterSmc_other {reg : Reg} (hpc : reg ≠ .pc) (harg : ∀ j, reg ≠ argReg j) :
    (m.afterSmc core r).reg c reg = (r.2.foldl Machine.exec m).reg c reg := by
  rw [afterSmc_eq]
  by_cases hc : c = core
  · subst hc
    obtain ⟨j, rfl⟩ | rfl | ⟨-, -, hr⟩ := reg_cases reg
    · exact absurd rfl (harg j)
    · exact absurd rfl hpc
    · rw [Machine.setRegs_same, hr]
  · rw [Machine.setRegs_of_ne _ hc]

theorem afterSmc_mem : (m.afterSmc core r).mem = (r.2.foldl Machine.exec m).mem := by
  rw [afterSmc_eq]
  rfl

theorem afterSmc_coresOnline : (m.afterSmc core r).coresOnline = (r.2.foldl Machine.exec m).coresOnline := by
  rw [afterSmc_eq]
  rfl

end After

end Hook

/-! ## `smcCpuOn` -/

theorem smcCall_cpuOn {i : ExceptionIn} {args : Args} (h : args 0 = 0xc4000003) : smcCall i args = smcCpuOn args := by
  unfold smcCall
  rw [if_neg (by rw [h]; decide), if_neg (by rw [h]; decide), if_pos h]

section Start

variable (args : Args) (regs : Reg → BitVec 64)

theorem cpuOnRegs_pc : cpuOnRegs args regs .pc = args 2 := Function.update_self _ _ _

theorem cpuOnRegs_arg (k : Fin 8) : cpuOnRegs args regs (argReg k) = if k = 0 then args 3 else regs (argReg k) := by
  unfold cpuOnRegs
  rw [Function.update_of_ne Reg.noConfusion]
  by_cases hk : k = 0
  · subst hk
    simp
  · rw [if_neg hk, Function.update_of_ne fun h => hk (argReg_inj.1 h)]

theorem cpuOnRegs_other {r : Reg} (hpc : r ≠ .pc) (harg : r ≠ argReg 0) : cpuOnRegs args regs r = regs r := by
  unfold cpuOnRegs
  rw [Function.update_of_ne hpc, Function.update_of_ne harg]

end Start

/-- The engines with a processor started. -/
def Machine.cpuOn (m : Machine) (cpu : Core) (args : Args) : Machine :=
  { m.setRegs cpu (cpuOnRegs args (m.reg cpu)) with coresOnline := Function.update m.coresOnline cpu true }

theorem exec_cpuOn (m : Machine) (cpu : Core) (args : Args) :
    [EngineCall.regWrite cpu (argReg 0) (args 3), .regWrite cpu .pc (args 2), .setOnline cpu].foldl Machine.exec m =
      m.cpuOn cpu args := by
  unfold Machine.cpuOn cpuOnRegs
  rw [List.foldl_cons, List.foldl_cons, Machine.exec_regWrite, Machine.exec_regWrite, Machine.setRegs_same,
    Machine.setRegs_set]
  rfl

theorem cpuOn_reg_self (m : Machine) (cpu : Core) (args : Args) :
    (m.cpuOn cpu args).reg cpu = cpuOnRegs args (m.reg cpu) := Function.update_self _ _ _

theorem cpuOn_reg_of_ne {m : Machine} {cpu c : Core} {args : Args} (h : c ≠ cpu) :
    (m.cpuOn cpu args).reg c = m.reg c := Function.update_of_ne h _ _

/-- Processor `j` has been started with the caller's `X2` and `X3`, and nothing else happened
to registers and flags but the caller's return. -/
structure Started (core j : Core) (m m' : Machine) : Prop where
  context : m'.reg j (argReg 0) = m.reg core (argReg 3)
  entry : m'.reg j .pc = m.reg core (argReg 2)
  online : m'.coresOnline = Function.update m.coresOnline j true
  result : m'.reg core (argReg 0) = 0
  next : core ≠ j → m'.reg core .pc = m.reg core .pc + 4
  frame : ∀ c r, m'.reg c r ≠ m.reg c r → (c = j ∨ c = core) ∧ (r = argReg 0 ∨ r = .pc)

/-- Nothing happened to registers and flags but the caller's return. -/
structure Undisturbed (core : Core) (m m' : Machine) : Prop where
  online : m'.coresOnline = m.coresOnline
  next : m'.reg core .pc = m.reg core .pc + 4
  frame : ∀ c r, m'.reg c r ≠ m.reg c r → c = core ∧ (r = argReg 0 ∨ r = .pc)

/-- `smcCpuOn` starts an offline processor, and disturbs no other. -/
structure CpuOnLaw (core : Core) (m m' : Machine) : Prop where
  starts : ∀ j : Core, m.reg core (argReg 1) = BitVec.ofNat 64 j → m.coresOnline j = false → Started core j m m'
  refuses : (∀ j : Core, m.reg core (argReg 1) = BitVec.ofNat 64 j → m.coresOnline j = true) →
    Undisturbed core m m'

theorem ofNat_core_inj {j k : Core} (h : BitVec.ofNat 64 j.val = BitVec.ofNat 64 k.val) : j = k := by
  have hj := j.isLt
  have hk := k.isLt
  apply Fin.ext
  bv_omega

section CpuOn

variable {m : Machine} {core j : Core} {i : ExceptionIn}

/-- The engines after `smcCpuOn` of `core` for processor `j`. -/
structure CpuOnDone (core j : Core) (m m' : Machine) : Prop where
  arg : ∀ c k, m'.reg c (argReg k) =
    if c = core then if k = 0 then 0 else m.reg core (argReg k)
    else if c = j ∧ k = 0 then m.reg core (argReg 3) else m.reg c (argReg k)
  pc : ∀ c, m'.reg c .pc =
    if c = core then m.reg core .pc + 4 else if c = j then m.reg core (argReg 2) else m.reg c .pc
  other : ∀ c r, r ≠ .pc → (∀ k, r ≠ argReg k) → m'.reg c r = m.reg c r
  online : m'.coresOnline = Function.update m.coresOnline j true

theorem hook_cpuOn (hspsel : i.spsel ≠ 0) (hcall : m.reg core (argReg 0) = 0xc4000003)
    (hj : m.reg core (argReg 1) = BitVec.ofNat 64 j.val) :
    ∃ m', m.hook core 1 i = .ok m' ∧ CpuOnDone core j m m' := by
  have hlt : (m.args core 1).toNat < 4 := by
    change (m.reg core (argReg 1)).toNat < 4
    have := j.isLt
    rw [hj]
    bv_omega
  have hcore : (⟨_, hlt⟩ : Core) = j := by
    apply ofNat_core_inj
    rw [← hj]
    simp [Machine.args]
  have hsmc : smcCall (m.input i) (m.args core) = _ := smcCall_cpuOn hcall
  rw [smcCpuOn_ok hlt, hcore] at hsmc
  refine ⟨_, hook_ok hspsel hsmc, ?_, ?_, ?_, ?_⟩
  · intro c k
    rw [afterSmc_arg, exec_cpuOn]
    -- the caller's registers are written back after the processor is started, which may be the caller
    by_cases hc : c = core
    · rw [if_pos hc, if_pos hc]
      exact Function.update_apply _ _ _ _
    · rw [if_neg hc, if_neg hc]
      by_cases hj : c = j
      · subst hj
        rw [cpuOn_reg_self, cpuOnRegs_arg]
        simp only [true_and]
        rfl
      · rw [cpuOn_reg_of_ne hj, if_neg (fun h => hj h.1)]
  · intro c
    rw [afterSmc_pc, exec_cpuOn]
    by_cases hj : c = j
    · subst hj
      rw [cpuOn_reg_self, cpuOnRegs_pc, if_pos rfl]
      rfl
    · rw [cpuOn_reg_of_ne hj, if_neg hj]
  · intro c r hpc harg
    rw [afterSmc_other _ _ hpc harg, exec_cpuOn]
    by_cases hj : c = j
    · subst hj
      rw [cpuOn_reg_self, cpuOnRegs_other _ _ hpc (harg 0)]
    · rw [cpuOn_reg_of_ne hj]
  · rw [afterSmc_coresOnline, exec_cpuOn]
    rfl

/-- The call does not return for a processor that there is not. -/
theorem hook_cpuOn_returns {m' : Machine} (hspsel : i.spsel ≠ 0) (hcall : m.reg core (argReg 0) = 0xc4000003)
    (h : m.hook core 1 i = .ok m') : ∃ j : Core, m.reg core (argReg 1) = BitVec.ofNat 64 j.val := by
  rw [hook_smc hspsel, smcCall_cpuOn hcall] at h
  have hfault := smcCpuOn_fault (m.args core)
  by_cases hlt : (m.args core 1).toNat < 4
  · refine ⟨⟨_, hlt⟩, ?_⟩
    simp [Machine.args]
  · rw [if_neg hlt, fault_eq_some_iff] at hfault
    rw [hfault] at h
    cases h

theorem CpuOnDone.frame {m' : Machine} (hdone : CpuOnDone core j m m') {c : Core} {r : Reg}
    (h : m'.reg c r ≠ m.reg c r) : (c = j ∨ c = core) ∧ (r = argReg 0 ∨ r = .pc) := by
  obtain ⟨k, rfl⟩ | rfl | ⟨hpc, harg, -⟩ := reg_cases r
  · rw [hdone.arg] at h
    by_cases hc : c = core
    · subst hc
      by_cases hk : k = 0
      · exact ⟨.inr rfl, .inl (hk ▸ rfl)⟩
      · simp [hk] at h
    · rw [if_neg hc] at h
      by_cases hj : c = j ∧ k = 0
      · exact ⟨.inl hj.1, .inl (hj.2 ▸ rfl)⟩
      · simp [hj] at h
  · rw [hdone.pc] at h
    refine ⟨?_, .inr rfl⟩
    by_contra hne
    obtain ⟨hj, hc⟩ := not_or.1 hne
    simp [hj, hc] at h
  · exact absurd (hdone.other c r hpc harg) h

/-- **When `smcCpuOn` starts offline processors and disturbs no other**, whatever processor
the caller names: exactly if there is such a processor, and it is offline, or the caller, or
it has already what it is given. -/
theorem smcCpuOn_law_iff (hspsel : i.spsel ≠ 0) (hcall : m.reg core (argReg 0) = 0xc4000003) :
    (∃ m', m.hook core 1 i = .ok m' ∧ CpuOnLaw core m m') ↔
      ∃ j : Core, m.reg core (argReg 1) = BitVec.ofNat 64 j.val ∧
        if m.coresOnline j = true then
          j = core ∨ m.reg j (argReg 0) = m.reg core (argReg 3) ∧ m.reg j .pc = m.reg core (argReg 2)
        else j ≠ core ∨ m.reg core (argReg 3) = 0 ∧ m.reg core (argReg 2) = m.reg core .pc + 4 := by
  constructor
  · rintro ⟨m', hm', hlaw⟩
    -- the call returned, so there is a processor
    obtain ⟨j, hj⟩ := hook_cpuOn_returns hspsel hcall hm'
    obtain ⟨m'', hm'', hdone⟩ := hook_cpuOn hspsel hcall hj
    obtain rfl := Except.ok.inj (hm''.symm.trans hm')
    refine ⟨j, hj, ?_⟩
    by_cases honline : m.coresOnline j = true
    · rw [if_pos honline]
      have hlaw' := hlaw.refuses fun k hk => ofNat_core_inj (hj.symm.trans hk) ▸ honline
      by_cases hself : j = core
      · exact .inl hself
      · -- its two registers were written, so they were not changed
        have hx0 : m''.reg j (argReg 0) = m.reg j (argReg 0) := by
          by_contra hne
          exact hself (hlaw'.frame j _ hne).1
        have hpc : m''.reg j .pc = m.reg j .pc := by
          by_contra hne
          exact hself (hlaw'.frame j _ hne).1
        rw [hdone.arg, if_neg hself, if_pos ⟨rfl, rfl⟩] at hx0
        rw [hdone.pc, if_neg hself, if_pos rfl] at hpc
        exact .inr ⟨hx0.symm, hpc.symm⟩
    · rw [if_neg honline]
      have hlaw' := hlaw.starts j hj (Bool.not_eq_true _ ▸ honline)
      by_cases hself : j = core
      · -- a caller that starts itself gets its result over the context
        subst hself
        have hpc := hlaw'.entry
        rw [hdone.pc, if_pos rfl] at hpc
        exact .inr ⟨hlaw'.context.symm.trans hlaw'.result, hpc.symm⟩
      · exact .inl hself
  · rintro ⟨j, hj, hcond⟩
    obtain ⟨m', hm', hdone⟩ := hook_cpuOn hspsel hcall hj
    refine ⟨m', hm', ?_, ?_⟩
    · intro k hk hoffline
      obtain rfl := ofNat_core_inj (hj.symm.trans hk)
      rw [if_neg (by rw [hoffline]; decide)] at hcond
      refine ⟨?_, ?_, hdone.online, ?_, ?_, fun c r h => hdone.frame h⟩
      · rw [hdone.arg]
        rcases hcond with hself | ⟨hcontext, -⟩
        · rw [if_neg hself, if_pos ⟨rfl, rfl⟩]
        · rw [hcontext]
          simp
      · rw [hdone.pc]
        rcases hcond with hself | ⟨-, hentry⟩
        · rw [if_neg hself, if_pos rfl]
        · rw [hentry]
          simp
      · rw [hdone.arg, if_pos rfl, if_pos rfl]
      · intro _
        rw [hdone.pc, if_pos rfl]
    · intro honline
      rw [if_pos (honline j hj)] at hcond
      refine ⟨?_, ?_, ?_⟩
      · rw [hdone.online, ← honline j hj]
        exact Function.update_eq_self j m.coresOnline
      · rw [hdone.pc, if_pos rfl]
      · intro c r hchanged
        obtain ⟨hc, hr⟩ := hdone.frame hchanged
        refine ⟨?_, hr⟩
        by_contra hne
        -- a register of another processor would be one of the two, which are what they were
        obtain rfl : c = j := hc.resolve_right hne
        obtain ⟨hx0, hpc⟩ := hcond.resolve_left hne
        apply hchanged
        rcases hr with rfl | rfl
        · rw [hdone.arg, if_neg hne, if_pos ⟨rfl, rfl⟩, hx0]
        · rw [hdone.pc, if_neg hne, if_pos rfl, hpc]

end CpuOn

/-- All engines with `X0`, `X1`, .. from `xs` and 0 in all other registers. -/
def guest (xs : List (BitVec 64)) (mem : EngineMem) (online : Core → Bool) : Machine where
  reg := fun _ r =>
    match r with
    | .x n => xs.getD n.val 0
    | _ => 0
  mem := mem
  coresOnline := online
  ucQuit := false

/-- Processor 0 calls `smcCpuOn` for processor 1. -/
def cpuOnGuest (online : Core → Bool) : Machine := guest [0xc4000003, 1, 0x80060000, 5] (fun _ => none) online

theorem smcCpuOn_offline : ∃ m', (cpuOnGuest fun c => c.val = 0).hook 0 1 smcIn = .ok m' ∧
    CpuOnLaw 0 (cpuOnGuest fun c => c.val = 0) m' :=
  (smcCpuOn_law_iff (m := cpuOnGuest fun c => c.val = 0) (by decide) rfl).2 ⟨1, rfl, by decide⟩

/-- Processor 1 is online: its `X0` and its program counter are overwritten. -/
theorem smcCpuOn_online_disturbs : ¬∃ m', (cpuOnGuest fun _ => true).hook 0 1 smcIn = .ok m' ∧
    CpuOnLaw 0 (cpuOnGuest fun _ => true) m' := by
  rintro ⟨m', hm', hlaw⟩
  obtain ⟨m'', hm'', hdone⟩ := hook_cpuOn (m := cpuOnGuest fun _ => true) (i := smcIn) (j := 1) (by decide) rfl rfl
  obtain rfl := Except.ok.inj (hm''.symm.trans hm')
  have hframe := (hlaw.refuses fun _ _ => rfl).frame 1 .pc
  rw [hdone.pc] at hframe
  exact absurd (hframe (by decide)).1 (by decide)

/-! ## `smcReadWriteRegister` -/

theorem smcCall_register {i : ExceptionIn} {args : Args} (h : args 0 = 0xc3000008) :
    smcCall i args = .ok (smcReadWriteRegister i args) := by
  unfold smcCall
  rw [if_neg (by rw [h]; decide), if_pos h]

/-- A word `old` is read from the address `X1`, or written there under a mask. -/
structure MaskedAccess (core : Core) (m m' : Machine) (mask old : BitVec 32) : Prop where
  read : mask = 0 → m'.mem = m.mem ∧ m'.reg core (argReg 1) = old.setWidth 64
  write : mask ≠ 0 →
    ucMemRead m'.mem (m.reg core (argReg 1)) =
        some (old &&& ~~~mask ||| (m.reg core (argReg 3)).setWidth 32 &&& mask) ∧
      ∀ a, a < (m.reg core (argReg 1)).toNat ∨ (m.reg core (argReg 1)).toNat + 4 ≤ a → m'.mem a = m.mem a
  result : m'.reg core (argReg 0) = 0
  frame : ∀ j : Fin 8, 2 ≤ j.val → m'.reg core (argReg j) = m.reg core (argReg j)

/-- A word that is read into a variable leaves the upper half of it as it was. -/
theorem readInto_eq_word_iff (var : BitVec 64) (word : BitVec 32) :
    var &&& 0xFFFFFFFF00000000 ||| word.setWidth 64 = word.setWidth 64 ↔ var < 0x100000000 := by
  have hhigh : (var &&& 0xFFFFFFFF00000000 ||| word.setWidth 64) >>> 32 = var >>> 32 := by
    apply BitVec.eq_of_getLsbD_eq
    intro i hi
    have hword : word.getLsbD (32 + i) = false := BitVec.getLsbD_of_ge _ _ (by omega)
    simp only [BitVec.getLsbD_ushiftRight, BitVec.getLsbD_or, BitVec.getLsbD_and, BitVec.getLsbD_setWidth, hword]
    by_cases h : 32 + i < 64
    · rw [highMask_getLsbD _ h]
      simp
    · simp [BitVec.getLsbD_of_ge var (32 + i) (by omega)]
  constructor
  · intro h
    have hzero : (var >>> 32).toNat = 0 := by
      have hlt := word.isLt
      rw [← hhigh, h, BitVec.toNat_ushiftRight, BitVec.toNat_setWidth, Nat.shiftRight_eq_div_pow]
      omega
    rw [BitVec.toNat_ushiftRight, Nat.shiftRight_eq_div_pow] at hzero
    bv_omega
  · intro h
    have hlow : var = (var.setWidth 32).setWidth 64 := by bv_omega
    rw [hlow]
    apply BitVec.eq_of_getLsbD_eq
    intro i hi
    simp only [BitVec.getLsbD_or, BitVec.getLsbD_and, BitVec.getLsbD_setWidth, highMask_getLsbD i hi]
    by_cases h32 : 32 ≤ i
    · simp [h32]
    · simp [h32]

/-- A word is the masked combination with itself exactly if it agrees with the old one
outside the mask. -/
theorem masked_eq_iff (old val mask : BitVec 32) :
    val = old &&& ~~~mask ||| val &&& mask ↔ (val ^^^ old) &&& ~~~mask = 0 := by
  constructor
  · intro h
    ext i hi
    have hbit := congrArg (fun w => w[i]) h
    simp at hbit ⊢
    grind
  · intro h
    ext i hi
    have hbit := congrArg (fun w => w[i]) h
    simp at hbit ⊢
    grind

section Register

variable {m : Machine} {core : Core} {i : ExceptionIn}

/-- The call, on the engines, by the arguments and the calls that it leaves. -/
theorem hook_register (hspsel : i.spsel ≠ 0) (hcall : m.reg core (argReg 0) = 0xc3000008) :
    m.hook core 1 i = .ok (m.afterSmc core (smcReadWriteRegister (m.input i) (m.args core))) :=
  hook_ok hspsel (smcCall_register hcall)

theorem register_read {old : BitVec 32} (hmask : m.reg core (argReg 2) = 0)
    (hold : ucMemRead m.mem (m.reg core (argReg 1)) = some old) :
    smcReadWriteRegister (m.input i) (m.args core) =
      (Function.update (Function.update (m.args core) 0 0) 1
        (m.reg core (argReg 1) &&& 0xFFFFFFFF00000000 ||| old.setWidth 64), []) := by
  have hmask' : Function.update (m.args core) 0 0 2 = 0 := hmask
  have hread : readInto (m.input i) (m.reg core (argReg 1)) (m.reg core (argReg 1)) =
      m.reg core (argReg 1) &&& 0xFFFFFFFF00000000 ||| old.setWidth 64 := by
    have hinput : (m.input i).ucMemRead (m.reg core (argReg 1)) = some old := hold
    unfold readInto
    rw [hinput]
  unfold smcReadWriteRegister
  dsimp only
  rw [if_pos hmask', Function.update_of_ne (by decide), ← hread]
  rfl

theorem register_write (hmask : m.reg core (argReg 2) ≠ 0) :
    smcReadWriteRegister (m.input i) (m.args core) =
      (Function.update (m.args core) 0 0,
        [.memWrite (m.reg core (argReg 1)) ((m.reg core (argReg 3)).setWidth 32)]) := by
  have hmask' : ¬Function.update (m.args core) 0 0 2 = 0 := hmask
  unfold smcReadWriteRegister
  dsimp only
  rw [if_neg hmask', Function.update_of_ne (by decide), Function.update_of_ne (by decide)]
  rfl

theorem ne_result {j : Fin 8} (hj : 2 ≤ j.val) : j ≠ 0 ∧ j ≠ 1 := by
  refine ⟨?_, ?_⟩
  · rintro rfl
    simp at hj
  · rintro rfl
    simp at hj

/-- **When `smcReadWriteRegister` is a masked access**: a read exactly if the address has no
upper half, as only the lower half of `X1` is written; a write exactly if it changes no bit
outside the mask, which is not looked at. -/
theorem smcReadWriteRegister_law_iff {mask old : BitVec 32} (hspsel : i.spsel ≠ 0)
    (hcall : m.reg core (argReg 0) = 0xc3000008) (hmask : m.reg core (argReg 2) = mask.setWidth 64)
    (hold : ucMemRead m.mem (m.reg core (argReg 1)) = some old) :
    (∃ m', m.hook core 1 i = .ok m' ∧ MaskedAccess core m m' mask old) ↔
      if mask = 0 then m.reg core (argReg 1) < 0x100000000
      else ((m.reg core (argReg 3)).setWidth 32 ^^^ old) &&& ~~~mask = 0 := by
  have hmask0 : mask = 0 ↔ m.reg core (argReg 2) = 0 := by
    rw [hmask]
    constructor
    · rintro rfl
      rfl
    · intro h
      bv_omega
  rw [hook_register hspsel hcall]
  by_cases h0 : mask = 0
  · rw [if_pos h0, register_read (hmask0.1 h0) hold, ← readInto_eq_word_iff _ old]
    constructor
    · rintro ⟨m', hm', hlaw⟩
      obtain rfl := Except.ok.inj hm'
      have hx1 := (hlaw.read h0).2
      rw [afterSmc_arg, if_pos rfl] at hx1
      simpa using hx1
    · intro hlow
      refine ⟨_, rfl, ?_, fun h => absurd h0 h, ?_, ?_⟩
      · intro _
        refine ⟨rfl, ?_⟩
        rw [afterSmc_arg, if_pos rfl]
        simpa using hlow
      · rw [afterSmc_arg, if_pos rfl]
        rfl
      · intro j hj
        obtain ⟨hj0, hj1⟩ := ne_result hj
        rw [afterSmc_arg, if_pos rfl]
        dsimp only
        rw [Function.update_of_ne hj1, Function.update_of_ne hj0]
        rfl
  · have hmapped : m.mem.Mapped (m.reg core (argReg 1)).toNat := ucMemRead_isSome.1 (by rw [hold]; rfl)
    have hmem : ∀ args, (m.afterSmc core (args,
        [.memWrite (m.reg core (argReg 1)) ((m.reg core (argReg 3)).setWidth 32)])).mem =
          ucMemWrite m.mem (m.reg core (argReg 1)) ((m.reg core (argReg 3)).setWidth 32) := fun _ => afterSmc_mem _
    rw [if_neg h0, register_write (fun h => h0 (hmask0.2 h)), ← masked_eq_iff]
    constructor
    · rintro ⟨m', hm', hlaw⟩
      obtain rfl := Except.ok.inj hm'
      have hword := (hlaw.write h0).1
      rw [hmem, ucMemRead_write hmapped] at hword
      exact Option.some.inj hword
    · intro hsame
      refine ⟨_, rfl, fun h => absurd h h0, ?_, ?_, ?_⟩
      · intro _
        rw [hmem, ucMemRead_write hmapped]
        exact ⟨congrArg some hsame, fun a ha => ucMemWrite_outside ha⟩
      · rw [afterSmc_arg, if_pos rfl]
        rfl
      · intro j hj
        obtain ⟨hj0, -⟩ := ne_result hj
        rw [afterSmc_arg, if_pos rfl]
        dsimp only
        rw [Function.update_of_ne hj0]
        rfl

end Register

/-- A call of `smcReadWriteRegister`, in a memory in which all bytes are 0xFF. -/
def registerGuest (addr mask val : BitVec 64) : Machine :=
  guest [0xc3000008, addr, mask, val] (fun _ => some 0xFF) fun c => c.val = 0

theorem smcReadWriteRegister_low_byte : ∃ m', (registerGuest 0x1000 0xFF 0xFFFFFF00).hook 0 1 smcIn = .ok m' ∧
    MaskedAccess 0 (registerGuest 0x1000 0xFF 0xFFFFFF00) m' 0xFF 0xFFFFFFFF :=
  (smcReadWriteRegister_law_iff (m := registerGuest 0x1000 0xFF 0xFFFFFF00) (by decide) rfl rfl (by decide)).2
    (by decide)

/-- The value 0 under the mask 0xFF clears the whole word. -/
theorem smcReadWriteRegister_unmasked : ¬∃ m', (registerGuest 0x1000 0xFF 0).hook 0 1 smcIn = .ok m' ∧
    MaskedAccess 0 (registerGuest 0x1000 0xFF 0) m' 0xFF 0xFFFFFFFF := by
  rintro ⟨m', hm', hlaw⟩
  have hmapped : (registerGuest 0x1000 0xFF 0).mem.Mapped ((0x1000 : BitVec 64).toNat) := by decide
  rw [hook_register (by decide) rfl, register_write (by decide)] at hm'
  obtain rfl := Except.ok.inj hm'
  have hword := (hlaw.write (by decide)).1
  have hzero : ucMemRead (ucMemWrite (registerGuest 0x1000 0xFF 0).mem 0x1000 0) 0x1000 = some 0 :=
    ucMemRead_write hmapped
  exact absurd (hzero.symm.trans hword) (by decide)

end Mooooooo
