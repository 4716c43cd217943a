import Mooooooo.Proof.Engine

/-!
# Supervisor calls on the engines

* `svcNumber_toNat`: the number that the hook decodes is the immediate modulo 128.
* `svc_run_iff`: **when the full immediate counts**: over a run of supervisor calls, exactly
  if none has an immediate above 127 that looks like one of the two calls that the hook knows.
-/

namespace Mooooooo

/-! ## One call -/

/-- `SVC #imm`. -/
def svcInsn (imm : BitVec 16) : BitVec 32 := (0xD4000001 : BitVec 32) ||| (imm.setWidth 32 <<< 5)

/-- `svcno`. -/
def svcNumber (i : ExceptionIn) (pc : BitVec 64) : BitVec 64 := (readInto i (pc - 4) i.svc &&& 0xFFF) >>> 5

/-- Seven bits of the immediate are looked at. -/
theorem svcNumber_eq {i : ExceptionIn} {pc : BitVec 64} {imm : BitVec 16}
    (h : i.ucMemRead (pc - 4) = some (svcInsn imm)) : svcNumber i pc = imm.setWidth 64 &&& 0x7F := by
  have hfield : ∀ j < 64, (0xFFF : BitVec 64).getLsbD j = decide (j < 12) := by decide
  have hseven : ∀ j < 64, (0x7F : BitVec 64).getLsbD j = decide (j < 7) := by decide
  have hopcode : ∀ j < 7, (0xD4000001 : BitVec 32).getLsbD (5 + j) = false := by decide
  apply BitVec.eq_of_getLsbD_eq
  intro j hj
  unfold svcNumber
  rw [BitVec.getLsbD_ushiftRight, BitVec.getLsbD_and, BitVec.getLsbD_and, hseven j hj, BitVec.getLsbD_setWidth]
  by_cases h7 : j < 7
  · rw [readInto_getLsbD h (by omega), if_neg (by omega), hfield _ (by omega)]
    unfold svcInsn
    rw [BitVec.getLsbD_or, hopcode j h7, BitVec.getLsbD_shiftLeft, BitVec.getLsbD_setWidth]
    have h12 : 5 + j < 12 := by omega
    have h32 : 5 + j < 32 := by omega
    have hj32 : j < 32 := by omega
    simp [h7, hj, h12, h32, hj32]
  · have h12 : ¬5 + j < 12 := by omega
    by_cases h64 : 5 + j < 64
    · rw [hfield _ h64]
      simp [h7, h12]
    · rw [BitVec.getLsbD_of_ge _ (5 + j) (by omega)]
      simp [h7]

theorem svcNumber_toNat {i : ExceptionIn} {pc : BitVec 64} {imm : BitVec 16}
    (h : i.ucMemRead (pc - 4) = some (svcInsn imm)) : (svcNumber i pc).toNat = imm.toNat % 128 := by
  have hmask : (0x7F : BitVec 64).toNat = 2 ^ 7 - 1 := by decide
  rw [svcNumber_eq h, BitVec.toNat_and, hmask, Nat.and_two_pow_sub_one_eq_mod, BitVec.toNat_setWidth]
  have hlt := imm.isLt
  omega

theorem hook_svc (m : Machine) (core : Core) (i : ExceptionIn) : m.hook core 2 i =
    .ok ((svcCall core (m.input i) (m.reg core .pc)).foldl Machine.exec m) := by
  have hsmc : ¬((2 : BitVec 32) = 1 ∧ (m.input i).spsel ≠ 0) := fun h => absurd h.1 (by decide)
  unfold Machine.hook hookExceptionCalls
  rw [if_neg hsmc, if_pos rfl]
  rfl

theorem svcCall_if (core : Core) (i : ExceptionIn) (pc : BitVec 64) : svcCall core i pc =
    if svcNumber i pc = 0x7 then [.setQuit]
    else if svcNumber i pc = 0xB then [.regWrite core (argReg 0) 0, .regWrite core (argReg 1) 0] else [] := rfl

section Call

variable {m : Machine} {core : Core} {i : ExceptionIn}

/-- A supervisor call ends the emulation or zeroes two registers, by its number. -/
theorem svc_ucQuit : ((svcCall core i (m.reg core .pc)).foldl Machine.exec m).ucQuit =
    (m.ucQuit || decide (svcNumber i (m.reg core .pc) = 0x7)) := by
  rw [svcCall_if]
  by_cases h7 : svcNumber i (m.reg core .pc) = 0x7
  · rw [if_pos h7, decide_eq_true h7, Bool.or_true]
    rfl
  · rw [if_neg h7, decide_eq_false h7, Bool.or_false]
    split <;> rfl

theorem svc_reg : ((svcCall core i (m.reg core .pc)).foldl Machine.exec m).reg =
    if svcNumber i (m.reg core .pc) = 0xB then
      Function.update m.reg core (Function.update (Function.update (m.reg core) (argReg 0) 0) (argReg 1) 0)
    else m.reg := by
  rw [svcCall_if]
  by_cases h7 : svcNumber i (m.reg core .pc) = 0x7
  · rw [if_pos h7, if_neg (by rw [h7]; decide)]
    rfl
  · rw [if_neg h7]
    split
    · simp [Machine.exec]
    · rfl

end Call

/-- The call with the immediate `imm` is decoded by the full immediate. -/
structure SvcDecoded (core : Core) (imm : BitVec 16) (m m' : Machine) : Prop where
  quit : m'.ucQuit = true ↔ m.ucQuit = true ∨ imm = 0x7
  sleep : m'.reg core =
    if imm = 0xB then Function.update (Function.update (m.reg core) (argReg 0) 0) (argReg 1) 0 else m.reg core

/-- The immediate is below 128, or is not taken for one of the two calls, or that call changes
nothing in the state. -/
def SvcUnaliased (core : Core) (imm : BitVec 16) (m : Machine) : Prop :=
  imm.toNat < 128 ∨ (imm.toNat % 128 = 0x7 → m.ucQuit = true) ∧
    (imm.toNat % 128 = 0xB → ∀ j : Fin 8, j.val ≤ 1 → m.reg core (argReg j) = 0)

/-- Zeroing two registers changes nothing exactly if they are zero. -/
theorem zeroed_eq_iff (regs : Reg → BitVec 64) :
    Function.update (Function.update regs (argReg 0) 0) (argReg 1) 0 = regs ↔
      ∀ j : Fin 8, j.val ≤ 1 → regs (argReg j) = 0 := by
  have hne : argReg 0 ≠ argReg 1 := by decide
  constructor
  · intro h j hj
    have hcases : j = 0 ∨ j = 1 := by omega
    rcases hcases with rfl | rfl
    · rw [← h, Function.update_of_ne hne, Function.update_self]
    · rw [← h, Function.update_self]
  · intro h
    have h0 := h 0 (by decide)
    have h1 := h 1 (by decide)
    rw [← h0, Function.update_eq_self, h0, ← h1, Function.update_eq_self]

section Decoded

variable {m m' : Machine} {core : Core} {i : ExceptionIn} {imm : BitVec 16}

/-- A call that the hook knows is taken for every immediate with its low seven bits. -/
theorem svcNumber_iff {pc : BitVec 64} (hstored : i.ucMemRead (pc - 4) = some (svcInsn imm)) {n : BitVec 16}
    (hn : n.toNat < 128) : svcNumber i pc = n.setWidth 64 ↔ imm.toNat % 128 = n.toNat := by
  have hnumber := svcNumber_toNat hstored
  constructor
  · intro h
    rw [h] at hnumber
    bv_omega
  · intro h
    bv_omega

/-- The emulation ends as the immediate says, unless another one is taken for 7. -/
theorem svc_quit_iff (hstored : ucMemRead m.mem (m.reg core .pc - 4) = some (svcInsn imm)) :
    (((svcCall core (m.input i) (m.reg core .pc)).foldl Machine.exec m).ucQuit = true ↔
      m.ucQuit = true ∨ imm = 0x7) ↔ (imm.toNat % 128 = 0x7 → imm.toNat = 0x7 ∨ m.ucQuit = true) := by
  have h7 : svcNumber (m.input i) (m.reg core .pc) = 0x7 ↔ imm.toNat % 128 = 0x7 :=
    svcNumber_iff hstored (n := 0x7) (by decide)
  have hi7 : imm = 0x7 ↔ imm.toNat = 0x7 := by
    constructor <;> intro h <;> bv_omega
  rw [svc_ucQuit, Bool.or_eq_true, decide_eq_true_iff, h7, hi7]
  constructor
  · intro h hmod
    exact (h.1 (.inr hmod)).symm
  · intro h
    constructor
    · rintro (hq | hmod)
      · exact .inl hq
      · exact (h hmod).symm
    · rintro (hq | hk)
      · exact .inl hq
      · exact .inr (by omega)

/-- The caller's registers are as the immediate says, unless another one is taken for 11 and
the two registers were not zero. -/
theorem svc_sleep_iff (hstored : ucMemRead m.mem (m.reg core .pc - 4) = some (svcInsn imm)) :
    ((svcCall core (m.input i) (m.reg core .pc)).foldl Machine.exec m).reg core =
      (if imm = 0xB then Function.update (Function.update (m.reg core) (argReg 0) 0) (argReg 1) 0 else m.reg core) ↔
        (imm.toNat % 128 = 0xB → imm.toNat = 0xB ∨ ∀ j : Fin 8, j.val ≤ 1 → m.reg core (argReg j) = 0) := by
  have hB : svcNumber (m.input i) (m.reg core .pc) = 0xB ↔ imm.toNat % 128 = 0xB :=
    svcNumber_iff hstored (n := 0xB) (by decide)
  have hiB : imm = 0xB ↔ imm.toNat = 0xB := by
    constructor <;> intro h <;> bv_omega
  rw [svc_reg, ← zeroed_eq_iff]
  by_cases hmod : imm.toNat % 128 = 0xB
  · rw [if_pos (hB.2 hmod), Function.update_self]
    by_cases hk : imm = 0xB
    · rw [if_pos hk]
      exact iff_of_true rfl fun _ => .inl (hiB.1 hk)
    · rw [if_neg hk]
      constructor
      · intro h _
        exact .inr h
      · intro h
        exact (h hmod).resolve_left fun h' => hk (hiB.2 h')
  · -- the registers are left alone, and so they should be
    rw [if_neg (fun h => hmod (hB.1 h)), if_neg (fun h => hmod (by rw [hiB.1 h]))]
    exact iff_of_true rfl fun h => absurd h hmod

/-- **When one call is decoded by its full immediate.** -/
theorem svc_decoded_iff (hstored : ucMemRead m.mem (m.reg core .pc - 4) = some (svcInsn imm))
    (hhook : m.hook core 2 i = .ok m') : SvcDecoded core imm m m' ↔ SvcUnaliased core imm m := by
  rw [hook_svc] at hhook
  obtain rfl := Except.ok.inj hhook
  have hquit := svc_quit_iff (i := i) hstored
  have hsleep := svc_sleep_iff (i := i) hstored
  constructor
  · rintro ⟨hq, hs⟩
    by_cases hsmall : imm.toNat < 128
    · exact .inl hsmall
    · refine .inr ⟨?_, ?_⟩
      · intro hmod
        exact (hquit.1 hq hmod).resolve_left (by omega)
      · intro hmod
        exact (hsleep.1 hs hmod).resolve_left (by omega)
  · rintro (hsmall | ⟨hq, hs⟩)
    · have hsame : imm.toNat % 128 = imm.toNat := Nat.mod_eq_of_lt hsmall
      exact ⟨hquit.2 fun h => .inl (by omega), hsleep.2 fun h => .inl (by omega)⟩
    · exact ⟨hquit.2 fun h => .inr (hq h), hsleep.2 fun h => .inr (hs h)⟩

end Decoded

/-! ## Runs of calls -/

/-- A supervisor call: the core, the immediate, and what guest code has made of registers and
memory by then. The instruction is in memory, where the hook looks for it. -/
structure SvcEvent where
  core : Core
  imm : BitVec 16
  input : ExceptionIn
  reg : Core → Reg → BitVec 64
  mem : EngineMem
  stored : ucMemRead mem (reg core .pc - 4) = some (svcInsn imm)

namespace SvcEvent

/-- The engines when the exception is taken. -/
def taken (e : SvcEvent) (m : Machine) : Machine := { m with reg := e.reg, mem := e.mem }

/-- The engines after the hook. -/
def step (e : SvcEvent) (m : Machine) : Machine :=
  (svcCall e.core ((e.taken m).input e.input) (e.reg e.core .pc)).foldl Machine.exec (e.taken m)

theorem hook_taken (e : SvcEvent) (m : Machine) : (e.taken m).hook e.core 2 e.input = .ok (e.step m) :=
  hook_svc _ _ _

end SvcEvent

def svcRun (es : List SvcEvent) (m : Machine) : Machine := es.foldl (fun m e => e.step m) m

theorem svcRun_concat (es : List SvcEvent) (e : SvcEvent) (m : Machine) :
    svcRun (es ++ [e]) m = e.step (svcRun es m) := by
  unfold svcRun
  rw [List.foldl_append, List.foldl_cons, List.foldl_nil]

/-- Supervisor calls are decoded by their full immediates, in a run. -/
structure SvcLaw (es : List SvcEvent) (m : Machine) : Prop where
  decoded : ∀ pre e post, es = pre ++ e :: post → ∃ m', (e.taken (svcRun pre m)).hook e.core 2 e.input = .ok m' ∧
    SvcDecoded e.core e.imm (e.taken (svcRun pre m)) m'
  quits : (svcRun es m).ucQuit = true → m.ucQuit = true ∨ ∃ e ∈ es, e.imm = 0x7

/-- **When supervisor calls are decoded by their full immediates**, over a run: exactly if
no immediate from 128 on is taken for a call that would change something. -/
theorem svc_run_iff (es : List SvcEvent) (m : Machine) :
    SvcLaw es m ↔ ∀ pre e post, es = pre ++ e :: post → SvcUnaliased e.core e.imm (e.taken (svcRun pre m)) := by
  have hstep : ∀ (pre : List SvcEvent) (e : SvcEvent), (∃ m', (e.taken (svcRun pre m)).hook e.core 2 e.input = .ok m' ∧
      SvcDecoded e.core e.imm (e.taken (svcRun pre m)) m') ↔ SvcUnaliased e.core e.imm (e.taken (svcRun pre m)) := by
    intro pre e
    constructor
    · rintro ⟨m', hm', hdecoded⟩
      exact (svc_decoded_iff e.stored hm').1 hdecoded
    · intro h
      exact ⟨_, e.hook_taken _, (svc_decoded_iff e.stored (e.hook_taken _)).2 h⟩
  constructor
  · intro h pre e post hes
    exact (hstep pre e).1 (h.decoded pre e post hes)
  · intro h
    refine ⟨fun pre e post hes => (hstep pre e).2 (h pre e post hes), ?_⟩
    induction es using List.reverseRecOn with
    | nil => exact .inl
    | append_singleton es e ih =>
      have hprev := ih fun pre e' post hes => h pre e' (post ++ [e]) (by rw [hes]; simp)
      have hlast := (svc_decoded_iff e.stored (e.hook_taken _)).2 (h es e [] rfl)
      intro hquit
      rw [svcRun_concat] at hquit
      -- the emulation was ended by the last call, or had ended before it
      rcases hlast.quit.1 hquit with hbefore | himm
      · rcases hprev hbefore with hstart | ⟨e', he', h7⟩
        · exact .inl hstart
        · exact .inr ⟨e', List.mem_append_left _ he', h7⟩
      · exact .inr ⟨e, List.mem_append_right _ (List.mem_singleton_self e), himm⟩

/-- A supervisor call at 0x1000, with 5 in all registers but the program counter. -/
def svcAt (core : Core) (imm : BitVec 16) : SvcEvent where
  core := core
  imm := imm
  input := smcIn
  reg := fun _ r => if r = .pc then 0x1004 else 5
  mem := ucMemWrite (fun _ => some 0) 0x1000 (svcInsn imm)
  stored := ucMemRead_write fun _ _ => rfl

/-- `SVC #0x87` ends the emulation, as `SVC #7` does. -/
theorem svc_0x87_quits : ¬SvcLaw [svcAt 0 0x87] ⟨fun _ _ => 0, fun _ => none, fun _ => true, false⟩ := by
  intro h
  obtain ⟨m', hm', hdecoded⟩ := h.decoded [] (svcAt 0 0x87) [] rfl
  rcases (svc_decoded_iff (svcAt 0 0x87).stored hm').1 hdecoded with hsmall | ⟨hquit, -⟩
  · exact absurd hsmall (by decide)
  · exact absurd (hquit rfl) (by decide)

end Mooooooo
