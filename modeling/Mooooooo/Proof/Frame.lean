import Mooooooo.Proof.Smc
import Mooooooo.Proof.Svc

/-!
# The frame of `hook_exception`

* `hook_frame`: **what the hook changes**, for every exception, on all engines, in memory
  and in the globals, and that it changes nothing else.
-/

namespace Mooooooo

/-! ## Bytes of the arguments -/

theorem foldr_getLsbD (f : ℕ → BitVec 8) {n k i : ℕ} (hk : k < n) (hi : i < 8) (h64 : 8 * k + i < 64) :
    ((List.range n).foldr (fun j (acc : BitVec 64) => acc <<< 8 ||| (f j).setWidth 64) 0).getLsbD (8 * k + i) =
      (f k).getLsbD i := by
  induction n generalizing f k with
  | zero => omega
  | succ n ih =>
    rw [List.range_succ_eq_map, List.foldr_cons, List.foldr_map, BitVec.getLsbD_or, BitVec.getLsbD_shiftLeft,
      BitVec.getLsbD_setWidth]
    cases k with
    | zero =>
      have hlt : i < 64 := by omega
      simp [hi, hlt]
    | succ k =>
      have hsub : 8 * (k + 1) + i - 8 = 8 * k + i := by omega
      have hge : ¬8 * (k + 1) + i < 8 := by omega
      rw [hsub, ih (fun j => f (j + 1)) (by omega) (by omega), BitVec.getLsbD_of_ge (f 0) _ (by omega)]
      simp [h64, hge]

theorem byte_leWord (f : ℕ → BitVec 8) {k : ℕ} (hk : k < 8) : Bytes.byte (leWord f) k = f k := by
  apply BitVec.eq_of_getLsbD_eq
  intro i hi
  unfold leWord Bytes.byte
  rw [BitVec.getLsbD_extractLsb', foldr_getLsbD f hk hi (by omega), decide_eq_true hi, Bool.true_and]

/-- Byte `k` by a shift. -/
theorem shift_eq_byte (w : BitVec 64) (k : ℕ) : (w >>> (8 * k)).setWidth 8 = Bytes.byte w k := by
  apply BitVec.eq_of_getLsbD_eq
  intro i hi
  unfold Bytes.byte
  rw [BitVec.getLsbD_setWidth, BitVec.getLsbD_ushiftRight, BitVec.getLsbD_extractLsb']

/-- A word that is read changes the low four bytes at most. -/
theorem byte_readInto (i : ExceptionIn) (addr var : BitVec 64) {k : ℕ} (hk : 4 ≤ k) (hk8 : k < 8) :
    Bytes.byte (readInto i addr var) k = Bytes.byte var k := by
  cases h : i.ucMemRead addr with
  | none =>
    unfold readInto
    rw [h]
  | some word =>
    apply BitVec.eq_of_getLsbD_eq
    intro j hj
    unfold Bytes.byte
    rw [BitVec.getLsbD_extractLsb', BitVec.getLsbD_extractLsb', readInto_getLsbD h (by omega), if_pos (by omega)]

/-! ## What a secure monitor call leaves alone -/

section Effect

variable {i : ExceptionIn} {args : Args} {m : Machine} {r : Args × List EngineCall}

/-- The bytes of `args[1]` to `args[7]` that the calls write: the random bytes, the word that
is read, and the configuration. -/
theorem SmcEffect.args_frame (h : SmcEffect i args r) {j : Fin 8} (hj : 1 ≤ j.val) {b : ℕ} (hb : b < 8)
    (hne : Bytes.byte (r.1 j) b ≠ Bytes.byte (args j) b) :
    (args 0 = 0xC3000005 ∧ 8 * (j.val - 1) + b < (args 1).toNat) ∨
      (args 0 = 0xc3000008 ∧ args 2 = 0 ∧ (i.ucMemRead (args 1)).isSome ∧ j.val = 1 ∧ b < 4) ∨
      (args 0 = 0xc3000004 ∧ j.val ≤ 4) := by
  have hj0 : j ≠ 0 := by
    rintro rfl
    simp at hj
  -- setting the result is not a change of these arguments
  have hresult : Bytes.byte (Function.update args 0 0 j) b = Bytes.byte (args j) b := by
    rw [Function.update_of_ne hj0]
  cases h with
  | random h hsize =>
    refine .inl ⟨h, ?_⟩
    by_contra hout
    apply hne
    unfold withTmp
    dsimp only
    rw [byte_leWord _ hb, if_neg (by omega), shift_eq_byte, Function.update_of_ne hj0]
  | read h hmask =>
    refine .inr (.inl ⟨h, hmask, ?_⟩)
    by_cases hj1 : j = 1
    · subst hj1
      dsimp only at hne
      rw [Function.update_self] at hne
      refine ⟨?_, rfl, ?_⟩
      · cases hread : i.ucMemRead (args 1) with
        | some word => rfl
        | none =>
          unfold readInto at hne
          rw [hread] at hne
          exact absurd rfl hne
      · by_contra h4
        exact hne (byte_readInto i _ _ (by omega) hb)
    · dsimp only at hne
      rw [Function.update_of_ne hj1] at hne
      exact absurd hresult hne
  | write h hmask => exact absurd hresult hne
  | cpuOn h cpu hcpu => exact absurd hresult hne
  | config h val hval =>
    refine .inr (.inr ⟨h, ?_⟩)
    by_contra h4
    dsimp only at hne
    rw [if_neg hj0, if_neg h4] at hne
    exact absurd rfl hne
  | zero => exact absurd hresult hne
  | unknown => exact absurd rfl hne

/-- Memory changes in the word that is written. -/
theorem SmcEffect.mem_frame (h : SmcEffect i args r) {a : ℕ} (hne : (r.2.foldl Machine.exec m).mem a ≠ m.mem a) :
    args 0 = 0xc3000008 ∧ args 2 ≠ 0 ∧ (args 1).toNat ≤ a ∧ a < (args 1).toNat + 4 := by
  cases h with
  | write h hmask =>
    refine ⟨h, hmask, ?_⟩
    by_contra hout
    exact hne (ucMemWrite_outside (by omega))
  | random => exact absurd rfl hne
  | read => exact absurd rfl hne
  | cpuOn => exact absurd rfl hne
  | config => exact absurd rfl hne
  | zero => exact absurd rfl hne
  | unknown => exact absurd rfl hne

/-- Before the registers are written back, a processor's `X0` and program counter change if it is started. -/
theorem SmcEffect.reg_frame (h : SmcEffect i args r) {c : Core} {reg : Reg}
    (hne : (r.2.foldl Machine.exec m).reg c reg ≠ m.reg c reg) :
    args 0 = 0xc4000003 ∧ args 1 = BitVec.ofNat 64 c.val ∧ (reg = argReg 0 ∨ reg = .pc) := by
  cases h with
  | cpuOn h cpu hcpu =>
    rw [exec_cpuOn] at hne
    by_cases hc : c = cpu
    · subst hc
      refine ⟨h, hcpu, ?_⟩
      by_contra hother
      obtain ⟨harg, hpc⟩ := not_or.1 hother
      rw [cpuOn_reg_self, cpuOnRegs_other _ _ hpc harg] at hne
      exact hne rfl
    · rw [cpuOn_reg_of_ne hc] at hne
      exact absurd rfl hne
  | random => exact absurd rfl hne
  | read => exact absurd rfl hne
  | write => exact absurd rfl hne
  | config => exact absurd rfl hne
  | zero => exact absurd rfl hne
  | unknown => exact absurd rfl hne

theorem SmcEffect.online (h : SmcEffect i args r) {c : Core} (hc : m.coresOnline c = true) :
    (r.2.foldl Machine.exec m).coresOnline c = true := by
  cases h with
  | cpuOn h cpu hcpu =>
    rw [exec_cpuOn]
    unfold Machine.cpuOn
    dsimp only
    rw [Function.update_apply]
    split
    · rfl
    · exact hc
  | random => exact hc
  | read => exact hc
  | write => exact hc
  | config => exact hc
  | zero => exact hc
  | unknown => exact hc

end Effect

/-! ## The hook -/

/-- A secure monitor call, of the function `fn`. -/
structure IsSmc (m : Machine) (core : Core) (exceptno : BitVec 32) (i : ExceptionIn) (fn : BitVec 64) : Prop where
  smc : exceptno = 1 ∧ i.spsel ≠ 0
  call : m.reg core (argReg 0) = fn

/-- What an exception other than a supervisor call may change. -/
structure ReturnFrame (core : Core) (exceptno : BitVec 32) (i : ExceptionIn) (m m' : Machine) : Prop where
  next : m'.reg core .pc = m.reg core .pc + 4
  sp : m'.reg core .sp = m.reg core .sp
  high : ∀ n : Fin 31, 8 ≤ n.val → m'.reg core (.x n) = m.reg core (.x n)
  args : ∀ j : Fin 8, 1 ≤ j.val → ∀ b < 8,
    Bytes.byte (m'.reg core (argReg j)) b ≠ Bytes.byte (m.reg core (argReg j)) b →
      (IsSmc m core exceptno i 0xC3000005 ∧ 8 * (j.val - 1) + b < (m.reg core (argReg 1)).toNat) ∨
      (IsSmc m core exceptno i 0xc3000008 ∧ m.reg core (argReg 2) = 0 ∧
        m.mem.Mapped (m.reg core (argReg 1)).toNat ∧ j.val = 1 ∧ b < 4) ∨
      (IsSmc m core exceptno i 0xc3000004 ∧ j.val ≤ 4)
  mem : ∀ a, m'.mem a ≠ m.mem a → IsSmc m core exceptno i 0xc3000008 ∧ m.reg core (argReg 2) ≠ 0 ∧
    (m.reg core (argReg 1)).toNat ≤ a ∧ a < (m.reg core (argReg 1)).toNat + 4
  others : ∀ c, c ≠ core → ∀ r, m'.reg c r ≠ m.reg c r →
    IsSmc m core exceptno i 0xc4000003 ∧ m.reg core (argReg 1) = BitVec.ofNat 64 c.val ∧ (r = argReg 0 ∨ r = .pc)
  online : ∀ c, m.coresOnline c = true → m'.coresOnline c = true

/-- What a supervisor call may change. -/
structure SvcFrame (core : Core) (i : ExceptionIn) (m m' : Machine) : Prop where
  reg : ∀ c r, m'.reg c r =
    if c = core ∧ (r = argReg 0 ∨ r = argReg 1) ∧ svcNumber (m.input i) (m.reg core .pc) = 0xB then 0 else m.reg c r
  mem : m'.mem = m.mem
  online : m'.coresOnline = m.coresOnline

section Return

variable {m : Machine} {core : Core} {i : ExceptionIn} {r : Args × List EngineCall}

/-- The registers that the hook does not write back, after a call that leaves `r`. -/
theorem afterSmc_kept (h : SmcEffect (m.input i) (m.args core) r) {reg : Reg} (hpc : reg ≠ .pc)
    (harg : ∀ j, reg ≠ argReg j) (c : Core) : (m.afterSmc core r).reg c reg = m.reg c reg := by
  rw [afterSmc_other _ _ hpc harg]
  by_contra hne
  obtain ⟨-, -, hreg⟩ := h.reg_frame hne
  exact hreg.elim (harg 0) hpc

/-- Registers of other processors, after a call that leaves `r`. -/
theorem afterSmc_others (h : SmcEffect (m.input i) (m.args core) r) {c : Core} (hc : c ≠ core) {reg : Reg}
    (hne : (m.afterSmc core r).reg c reg ≠ m.reg c reg) :
    m.reg core (argReg 0) = 0xc4000003 ∧ m.reg core (argReg 1) = BitVec.ofNat 64 c.val ∧
      (reg = argReg 0 ∨ reg = .pc) := by
  refine h.reg_frame (m := m) ?_
  rwa [afterSmc_eq, Machine.setRegs_of_ne _ hc] at hne

theorem returnFrame_smc {exceptno : BitVec 32} (h : SmcEffect (m.input i) (m.args core) r)
    (hsmc : exceptno = 1 ∧ i.spsel ≠ 0) : ReturnFrame core exceptno i m (m.afterSmc core r) := by
  refine ⟨?_, afterSmc_kept h Reg.noConfusion (fun _ => Reg.noConfusion) core, ?_, ?_, ?_, ?_, ?_⟩
  · rw [afterSmc_pc, if_pos rfl]
  · intro n hn
    refine afterSmc_kept h Reg.noConfusion (fun j hj => ?_) core
    have hval : n.val = j.val := congrArg Fin.val (Reg.x.inj hj)
    omega
  · intro j hj b hb hne
    rw [afterSmc_arg, if_pos rfl] at hne
    obtain ⟨hfn, hrandom⟩ | ⟨hfn, hmask, hread, hlow⟩ | ⟨hfn, hconfig⟩ := h.args_frame hj hb hne
    · exact .inl ⟨⟨hsmc, hfn⟩, hrandom⟩
    · exact .inr (.inl ⟨⟨hsmc, hfn⟩, hmask, ucMemRead_isSome.1 hread, hlow⟩)
    · exact .inr (.inr ⟨⟨hsmc, hfn⟩, hconfig⟩)
  · intro a hne
    rw [afterSmc_mem] at hne
    obtain ⟨hfn, hmask, hword⟩ := h.mem_frame hne
    exact ⟨⟨hsmc, hfn⟩, hmask, hword⟩
  · intro c hc reg hne
    obtain ⟨hfn, hcpu, hreg⟩ := afterSmc_others h hc hne
    exact ⟨⟨hsmc, hfn⟩, hcpu, hreg⟩
  · intro c hc
    rw [afterSmc_coresOnline]
    exact h.online hc

/-- An abort or an unknown exception goes on behind the instruction. -/
theorem returnFrame_other (exceptno : BitVec 32) :
    ReturnFrame core exceptno i m (m.afterSmc core (m.args core, [])) := by
  refine ⟨?_, afterSmc_other _ _ Reg.noConfusion fun _ => Reg.noConfusion, ?_, ?_, ?_, ?_, ?_⟩
  · rw [afterSmc_pc, if_pos rfl]
  · intro n hn
    refine afterSmc_other _ _ Reg.noConfusion fun j hj => ?_
    have hval : n.val = j.val := congrArg Fin.val (Reg.x.inj hj)
    omega
  · intro j _ b _ hne
    rw [afterSmc_arg, if_pos rfl] at hne
    exact absurd rfl hne
  · intro a hne
    rw [afterSmc_mem] at hne
    exact absurd rfl hne
  · intro c hc reg hne
    rw [afterSmc_eq, Machine.setRegs_of_ne _ hc] at hne
    exact absurd rfl hne
  · intro c hc
    rw [afterSmc_coresOnline]
    exact hc

end Return

/-- A supervisor call changes two registers at most. -/
theorem svcFrame (m : Machine) (core : Core) (i : ExceptionIn) :
    SvcFrame core i m ((svcCall core (m.input i) (m.reg core .pc)).foldl Machine.exec m) := by
  refine ⟨?_, ?_, ?_⟩
  · intro c r
    rw [svc_reg]
    by_cases hB : svcNumber (m.input i) (m.reg core .pc) = 0xB
    · rw [if_pos hB]
      by_cases hc : c = core
      · subst hc
        rw [Function.update_self, Function.update_apply, Function.update_apply]
        grind
      · rw [Function.update_of_ne hc, if_neg (fun h => hc h.1)]
    · rw [if_neg hB, if_neg (fun h => hB h.2.2)]
  · rw [svcCall_if]
    split
    · rfl
    · split <;> rfl
  · rw [svcCall_if]
    split
    · rfl
    · split <;> rfl

/-- **The frame of `hook_exception`.** For the arguments with which it returns. -/
theorem hook_frame (m : Machine) (core : Core) (exceptno : BitVec 32) (i : ExceptionIn)
    (hsize : IsSmc m core exceptno i 0xC3000005 → m.reg core (argReg 1) ≤ 0x38)
    (hcpu : IsSmc m core exceptno i 0xc4000003 → m.reg core (argReg 1) < 4)
    (hconfig : IsSmc m core exceptno i 0xc3000004 → m.reg core (argReg 1) = 1 ∨ m.reg core (argReg 1) = 10 ∨
      m.reg core (argReg 1) = 11 ∨ m.reg core (argReg 1) = 12) :
    ∃ m', m.hook core exceptno i = .ok m' ∧ (exceptno ≠ 2 → ReturnFrame core exceptno i m m') ∧
      (exceptno = 2 → SvcFrame core i m m') := by
  by_cases hsvc : exceptno = 2
  · subst hsvc
    exact ⟨_, hook_svc m core i, fun h => absurd rfl h, fun _ => svcFrame m core i⟩
  by_cases hsmc : exceptno = 1 ∧ i.spsel ≠ 0
  · obtain ⟨rfl, hspsel⟩ := hsmc
    -- the call returns
    have hfault := smcCall_fault (m.input i) (m.args core)
    have hnone : smcFault (m.args core 0) (m.args core 1) = none := by
      rw [smcFault_eq_none_iff]
      refine ⟨fun h => hsize ⟨⟨rfl, hspsel⟩, h⟩, fun h => hcpu ⟨⟨rfl, hspsel⟩, h⟩, ?_⟩
      intro h hval
      obtain ⟨h1, h10, h11, h12⟩ := (configVal_eq_none_iff _).1 hval
      rcases hconfig ⟨⟨rfl, hspsel⟩, h⟩ with h' | h' | h' | h'
      · exact h1 h'
      · exact h10 h'
      · exact h11 h'
      · exact h12 h'
    rw [hnone, fault_eq_none_iff] at hfault
    obtain ⟨r, hr⟩ := hfault
    exact ⟨_, hook_ok hspsel hr, fun _ => returnFrame_smc (smcCall_effect hr) ⟨rfl, hspsel⟩, fun h => absurd h hsvc⟩
  · have hother : m.hook core exceptno i = .ok (m.afterSmc core (m.args core, [])) := by
      have hsmc' : ¬(exceptno = 1 ∧ (m.input i).spsel ≠ 0) := hsmc
      unfold Machine.hook hookExceptionCalls
      rw [if_neg hsmc', if_neg hsvc]
      rfl
    exact ⟨_, hother, fun _ => returnFrame_other exceptno, fun h => absurd h hsvc⟩

/-- Three random bytes, which go into the lowest bytes of `X1`. -/
def randomGuest : Machine := guest [0xC3000005, 3, 7, 7] (fun _ => none) fun c => c.val = 0

/-- A call for random bytes, and a start of processor 1. -/
theorem hook_frame_calls :
    (∃ m', randomGuest.hook 0 1 smcIn = .ok m' ∧ ((1 : BitVec 32) ≠ 2 → ReturnFrame 0 1 smcIn randomGuest m') ∧
      ((1 : BitVec 32) = 2 → SvcFrame 0 smcIn randomGuest m')) ∧
    ∃ m', (cpuOnGuest fun c => c.val = 0).hook 0 1 smcIn = .ok m' ∧
      ((1 : BitVec 32) ≠ 2 → ReturnFrame 0 1 smcIn (cpuOnGuest fun c => c.val = 0) m') ∧
        ((1 : BitVec 32) = 2 → SvcFrame 0 smcIn (cpuOnGuest fun c => c.val = 0) m') := by
  refine ⟨?_, ?_⟩
  · exact hook_frame randomGuest 0 1 smcIn (fun _ => by decide) (fun h => absurd h.call (by decide))
      fun h => absurd h.call (by decide)
  · exact hook_frame (cpuOnGuest fun c => c.val = 0) 0 1 smcIn (fun h => absurd h.call (by decide)) (fun _ => by decide)
      fun h => absurd h.call (by decide)

end Mooooooo
