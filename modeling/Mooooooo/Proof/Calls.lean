import Mooooooo.Proof.Exception
import Mooooooo.Proof.Refinement
import Mooooooo.Proof.Smc
import Mooooooo.Proof.Svc

/-!
# The calls of the exception hook

* `hookExceptionCalls_cases`: what `hook_exception` calls, exception by exception.
* `engineCalls_flow`, `engineCalls_reg`: what such calls do to the emulator: to the cores
  online and to `uc_quit`, and to the registers of an engine.
-/

namespace Mooooooo

/-! ## What the hook calls -/

/-- The calls of the hook that returns, by the exception. -/
inductive HookCalls (core : Core) (exceptno : BitVec 32) (i : ExceptionIn) (args : Args) (pc : BitVec 64) :
    List EngineCall → Prop
  | cpuOn (cpu : Core) (h : CpuOn exceptno i.spsel args cpu) (args' : Args) :
    HookCalls core exceptno i args pc
      ([.regWrite cpu (argReg 0) (args 3), .regWrite cpu .pc (args 2), .setOnline cpu] ++ writeBack core args' pc)
  | smc (h1 : exceptno = 1) (h0 : args 0 ≠ 0xc4000003) (writes : List EngineCall)
      (hwrites : ∀ call ∈ writes, ∃ addr word, call = .memWrite addr word) (args' : Args) :
    HookCalls core exceptno i args pc (writes ++ writeBack core args' pc)
  | svc (h2 : exceptno = 2) : HookCalls core exceptno i args pc (svcCall core i pc)
  | other (h1 : ¬(exceptno = 1 ∧ i.spsel ≠ 0)) (h2 : exceptno ≠ 2) :
    HookCalls core exceptno i args pc (writeBack core args pc)

section Cases

variable {core : Core} {exceptno : BitVec 32} {i : ExceptionIn} {args : Args} {pc : BitVec 64} {calls : List EngineCall}

/-- What a secure monitor call other than `smcCpuOn` calls. -/
theorem SmcEffect.writes {r : Args × List EngineCall} (h : SmcEffect i args r) (h0 : args 0 ≠ 0xc4000003) :
    ∀ call ∈ r.2, ∃ addr word, call = .memWrite addr word := by
  intro call hcall
  cases h with
  | write => exact ⟨_, _, List.mem_singleton.1 hcall⟩
  | cpuOn h => exact absurd h h0
  | random => exact absurd hcall List.not_mem_nil
  | read => exact absurd hcall List.not_mem_nil
  | config => exact absurd hcall List.not_mem_nil
  | zero => exact absurd hcall List.not_mem_nil
  | unknown => exact absurd hcall List.not_mem_nil

/-- What `smcCpuOn` calls. -/
theorem SmcEffect.starts {r : Args × List EngineCall} (h : SmcEffect i args r) (h0 : args 0 = 0xc4000003) :
    ∃ cpu : Core, args 1 = BitVec.ofNat 64 cpu ∧
      r.2 = [.regWrite cpu (argReg 0) (args 3), .regWrite cpu .pc (args 2), .setOnline cpu] := by
  cases h with
  | cpuOn h cpu hcpu => exact ⟨cpu, hcpu, rfl⟩
  | random h => exact absurd (h0.symm.trans h) (by decide)
  | read h => exact absurd (h0.symm.trans h) (by decide)
  | write h => exact absurd (h0.symm.trans h) (by decide)
  | config h => exact absurd (h0.symm.trans h) (by decide)
  | zero h => exact absurd h0 h
  | unknown h => exact absurd h0 h

/-- **What the hook calls**, exception by exception. -/
theorem hookExceptionCalls_cases (h : hookExceptionCalls core exceptno i args pc = .ok calls) :
    HookCalls core exceptno i args pc calls := by
  unfold hookExceptionCalls at h
  by_cases hsmc : exceptno = 1 ∧ i.spsel ≠ 0
  · rw [if_pos hsmc] at h
    obtain ⟨r, hr, rfl⟩ := ok_of_bind_pure h
    have heffect := smcCall_effect hr
    by_cases h0 : args 0 = 0xc4000003
    · obtain ⟨cpu, hcpu, hcalls⟩ := heffect.starts h0
      rw [hcalls]
      exact .cpuOn cpu ⟨hsmc.1, hsmc.2, h0, hcpu⟩ r.1
    · exact .smc hsmc.1 h0 r.2 (heffect.writes h0) r.1
  · rw [if_neg hsmc] at h
    by_cases hsvc : exceptno = 2
    · rw [if_pos hsvc] at h
      obtain rfl := Except.ok.inj h
      exact .svc hsvc
    · rw [if_neg hsvc] at h
      obtain rfl := Except.ok.inj h
      exact .other hsmc hsvc

/-! ### What is among them -/

theorem writeBack_mem {call : EngineCall} (h : call ∈ writeBack core args pc) :
    ∃ reg val, call = .regWrite core reg val := by
  unfold writeBack at h
  rcases List.mem_append.1 h with h | h
  · obtain ⟨j, -, rfl⟩ := List.mem_map.1 h
    exact ⟨_, _, rfl⟩
  · rw [List.mem_singleton.1 h]
    exact ⟨_, _, rfl⟩

theorem svcCall_mem {call : EngineCall} (h : call ∈ svcCall core i pc) :
    call = .setQuit ∨ ∃ reg val, call = .regWrite core reg val := by
  rw [svcCall_if] at h
  split at h
  · exact .inl (List.mem_singleton.1 h)
  · split at h
    · simp only [List.mem_cons, List.not_mem_nil, or_false] at h
      rcases h with rfl | rfl
      · exact .inr ⟨_, _, rfl⟩
      · exact .inr ⟨_, _, rfl⟩
    · simp at h

/-- A processor is set online exactly by `smcCpuOn` for it. -/
theorem HookCalls.setOnline_mem (h : HookCalls core exceptno i args pc calls) (cpu : Core) :
    .setOnline cpu ∈ calls ↔ CpuOn exceptno i.spsel args cpu := by
  have hback : ∀ args', .setOnline cpu ∉ writeBack core args' pc := by
    intro args' hmem
    obtain ⟨reg, val, heq⟩ := writeBack_mem hmem
    cases heq
  cases h with
  | cpuOn cpu' h args' =>
    obtain ⟨h1, hspsel, h0, hcpu⟩ := h
    simp only [List.mem_append, List.mem_cons, reduceCtorEq, EngineCall.setOnline.injEq, List.not_mem_nil, or_false,
      false_or, hback args']
    constructor
    · rintro rfl
      exact ⟨h1, hspsel, h0, hcpu⟩
    · rintro ⟨-, -, -, hcpu'⟩
      exact ofNat_core_inj (hcpu'.symm.trans hcpu)
  | smc h1 h0 writes hwrites args' =>
    constructor
    · intro hmem
      rcases List.mem_append.1 hmem with hmem | hmem
      · obtain ⟨addr, word, heq⟩ := hwrites _ hmem
        cases heq
      · exact absurd hmem (hback args')
    · rintro ⟨-, -, h0', -⟩
      exact absurd h0' h0
  | svc h2 =>
    constructor
    · intro hmem
      rcases svcCall_mem hmem with heq | ⟨reg, val, heq⟩ <;> cases heq
    · rintro ⟨h1, -⟩
      rw [h2] at h1
      exact absurd h1 (by decide)
  | other h1 h2 => exact ⟨fun hmem => absurd hmem (hback args), fun h => absurd ⟨h.1, h.2.1⟩ h1⟩

/-- `uc_quit` is set exactly by a supervisor call numbered 7. -/
theorem HookCalls.setQuit_mem (h : HookCalls core exceptno i args pc calls) :
    .setQuit ∈ calls ↔ exceptno = 2 ∧ svcNumber i pc = 0x7 := by
  have hback : ∀ args', .setQuit ∉ writeBack core args' pc := by
    intro args' hmem
    obtain ⟨reg, val, heq⟩ := writeBack_mem hmem
    cases heq
  cases h with
  | cpuOn cpu h args' =>
    obtain ⟨h1, -⟩ := h
    simp [hback args', h1]
  | smc h1 h0 writes hwrites args' =>
    have hnone : .setQuit ∉ writes := by
      intro hmem
      obtain ⟨addr, word, heq⟩ := hwrites _ hmem
      cases heq
    simp [hback args', hnone, h1]
  | svc h2 =>
    rw [svcCall_if]
    by_cases h7 : svcNumber i pc = 0x7
    · simp [h2, h7]
    · rw [if_neg h7]
      refine ⟨fun hmem => ?_, fun h => absurd h.2 h7⟩
      split at hmem <;> simp at hmem
  | other h1 h2 => exact ⟨fun hmem => absurd hmem (hback args), fun h => absurd h.1 h2⟩

/-- The writes among some calls to the registers of an engine. -/
def writesTo (c : Core) (calls : List EngineCall) : List (Reg × BitVec 64) := calls.filterMap fun
  | .regWrite engine reg val => if engine = c then some (reg, val) else none
  | _ => none

/-- **Other engines' registers** are written by `smcCpuOn` only, and only the two that it starts them with. -/
theorem HookCalls.writesTo_other (h : HookCalls core exceptno i args pc calls) {c : Core} (hc : c ≠ core) :
    writesTo c calls = if CpuOn exceptno i.spsel args c then [(argReg 0, args 3), (.pc, args 2)] else [] := by
  -- calls that write their own engine's registers, or none
  have hown : ∀ own : List EngineCall,
      (∀ call ∈ own, (∃ reg val, call = .regWrite core reg val) ∨ (∃ addr word, call = .memWrite addr word) ∨
        call = .setQuit) →
      writesTo c own = [] := by
    intro own hall
    refine List.filterMap_eq_nil_iff.2 fun call hcall => ?_
    rcases hall call hcall with ⟨reg, val, rfl⟩ | ⟨addr, word, rfl⟩ | rfl
    · exact if_neg (Ne.symm hc)
    · rfl
    · rfl
  have hback : ∀ args', writesTo c (writeBack core args' pc) = [] := fun args' =>
    hown _ fun call hcall => .inl (writeBack_mem hcall)
  cases h with
  | cpuOn cpu h args' =>
    have happ : writesTo c ([.regWrite cpu (argReg 0) (args 3), .regWrite cpu .pc (args 2), .setOnline cpu] ++
        writeBack core args' pc) = if cpu = c then [(argReg 0, args 3), (.pc, args 2)] else [] := by
      have hnil := hback args'
      unfold writesTo at hnil ⊢
      rw [List.filterMap_append, hnil, List.append_nil]
      by_cases hcpu : cpu = c <;> simp [hcpu]
    rw [happ]
    by_cases hcpu : cpu = c
    · rw [if_pos hcpu, if_pos (hcpu ▸ h)]
    · have hne : ¬CpuOn exceptno i.spsel args c := fun h' => hcpu (ofNat_core_inj (h.2.2.2.symm.trans h'.2.2.2))
      rw [if_neg hcpu, if_neg hne]
  | smc h1 h0 writes hwrites args' =>
    have hne : ¬CpuOn exceptno i.spsel args c := fun h' => h0 h'.2.2.1
    rw [if_neg hne]
    refine hown _ fun call hcall => ?_
    rcases List.mem_append.1 hcall with hcall | hcall
    · exact .inr (.inl (hwrites call hcall))
    · exact .inl (writeBack_mem hcall)
  | svc h2 =>
    have hne : ¬CpuOn exceptno i.spsel args c := fun h' => absurd (h2.symm.trans h'.1) (by decide)
    rw [if_neg hne]
    refine hown _ fun call hcall => ?_
    rcases svcCall_mem hcall with rfl | h
    · exact .inr (.inr rfl)
    · exact .inl h
  | other h1 h2 =>
    rw [if_neg fun h' => h1 ⟨h'.1, h'.2.1⟩]
    exact hback args

end Cases

/-! ## What the calls do -/

/-- What steers the run loop: the cores online, and `uc_quit`. -/
def Emulator.flow (s : Emulator) : (Core → Bool) × Bool := (s.host.coresOnline, s.host.ucQuit)

theorem store_flow (core : Core) (addr : BitVec 64) (byte : BitVec 8) :
    Keeps Emulator.flow (guestAct core (.store addr byte)) := by
  intro s
  show ((s.host.writeByte core addr byte).coresOnline, (s.host.writeByte core addr byte).ucQuit) = _
  unfold Host.writeByte
  split <;> rfl

theorem memWrite_flow (core : Core) (addr : BitVec 64) (word : BitVec 32) :
    Keeps Emulator.flow (engineCall core (.memWrite addr word)) := by
  have hstores : Keeps Emulator.flow (Cmd.forEach (guestAct core) (wordStores addr word)) := by
    unfold wordStores
    rw [List.mapIdx_eq_zipIdx_map, Cmd.forEach_map]
    refine Keeps.forEach ?_ _
    rintro ⟨byte, k⟩
    exact store_flow core _ byte
  exact hstores.guard (p := fun s => (s.host.engineMem core).Mapped addr.toNat)

/-- A call on the cores online and `uc_quit`. -/
theorem engineCall_flow (core : Core) (call : EngineCall) (s : Emulator) :
    (∀ j, (engineCall core call s).1.host.coresOnline j = (s.host.coresOnline j || decide (call = .setOnline j))) ∧
      (engineCall core call s).1.host.ucQuit = (s.host.ucQuit || decide (call = .setQuit)) := by
  cases call with
  | regWrite engine reg val => exact ⟨fun j => by simp [engineCall], by simp [engineCall]⟩
  | memWrite addr word =>
    have hflow := memWrite_flow core addr word s
    simp only [Emulator.flow, Prod.mk.injEq] at hflow
    exact ⟨fun j => by rw [hflow.1]; simp, by rw [hflow.2]; simp⟩
  | setOnline cpu =>
    refine ⟨fun j => ?_, by simp [engineCall, guestAct, onHost, guestStep, record]⟩
    show Function.update s.host.coresOnline cpu true j = _
    by_cases hj : j = cpu
    · simp [hj]
    · simp [Function.update_of_ne hj, Ne.symm hj]
  | setQuit => exact ⟨fun j => by simp [engineCall, guestAct, onHost, guestStep, record], by
      simp [engineCall, guestAct, onHost, guestStep, record]⟩

/-- **The calls of a hook** on the cores online and `uc_quit`. -/
theorem engineCalls_flow (core : Core) (calls : List EngineCall) (s : Emulator) :
    (∀ j, (Cmd.forEach (engineCall core) calls s).1.host.coresOnline j =
      (s.host.coresOnline j || decide (.setOnline j ∈ calls))) ∧
    (Cmd.forEach (engineCall core) calls s).1.host.ucQuit = (s.host.ucQuit || decide (.setQuit ∈ calls)) := by
  induction calls generalizing s with
  | nil => simp
  | cons call calls ih =>
    obtain ⟨hon, hquit⟩ := engineCall_flow core call s
    obtain ⟨hon', hquit'⟩ := ih (engineCall core call s).1
    rw [Cmd.forEach_cons]
    refine ⟨fun j => ?_, ?_⟩
    · rw [hon' j, hon j]
      simp [Bool.or_assoc, eq_comm]
    · rw [hquit', hquit]
      simp [Bool.or_assoc, eq_comm]

/-- **The calls of a hook** on the registers of an engine: the writes to it, in order. -/
theorem engineCalls_reg (core c : Core) (calls : List EngineCall) (s : Emulator) :
    (Cmd.forEach (engineCall core) calls s).1.reg c =
      (writesTo c calls).foldl (fun regs w => Function.update regs w.1 w.2) (s.reg c) := by
  refine Cmd.forEach_foldl (engineCall core) (fun s => s.reg c) _ _ (fun call s => ?_) calls s
  cases call with
  | regWrite engine reg val =>
    show Function.update s.reg engine (Function.update (s.reg engine) reg val) c = _
    by_cases he : engine = c
    · subst he
      simp
    · simp [he, Function.update_of_ne (Ne.symm he)]
  | memWrite addr word =>
    have hkeeps : Keeps (fun s : Emulator => s.reg c) (engineCall core (.memWrite addr word)) :=
      .guard (.forEach (fun _ _ => rfl) _)
    exact hkeeps s
  | setOnline cpu => rfl
  | setQuit => rfl

end Mooooooo
