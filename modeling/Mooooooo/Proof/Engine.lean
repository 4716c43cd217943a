import Mooooooo.Proof.Exception

/-!
# Memory and registers of the engines

* `ucMemRead_write`: a word that was written reads back.
* `readInto_getLsbD`: a read of four bytes into a variable of eight.
* `exec_writeBack`: what the calls at the end of `hook_exception` do to the engines.
-/

namespace Mooooooo

/-! ## The memory -/

section Memory

variable {mem : EngineMem} {addr : BitVec 64} {word : BitVec 32}

theorem ucMemRead_of_mapped (h : mem.Mapped addr.toNat) :
    ucMemRead mem addr = some (Bytes.word fun k => (mem (addr.toNat + k)).getD 0) := if_pos h

theorem ucMemRead_isSome : (ucMemRead mem addr).isSome ↔ mem.Mapped addr.toNat := by
  unfold ucMemRead
  by_cases h : mem.Mapped addr.toNat <;> simp [h]

/-- A write that fails changes nothing, and one that succeeds changes four bytes. -/
theorem ucMemWrite_outside {x : ℕ} (h : x < addr.toNat ∨ addr.toNat + 4 ≤ x) :
    ucMemWrite mem addr word x = mem x := by
  unfold ucMemWrite
  split
  · exact Bytes.place_outside _ _ _ (by simpa using h)
  · rfl

theorem ucMemWrite_byte (hmapped : mem.Mapped addr.toNat) {k : ℕ} (hk : k < 4) :
    ucMemWrite mem addr word (addr.toNat + k) = some (Bytes.byte word k) := by
  have hlen : k < ((Bytes.bytes word).map some).length := by simpa using hk
  have hget := Bytes.getElem?_bytes word k hk
  unfold ucMemWrite
  rw [if_pos hmapped, Bytes.place_apply _ _ _ hlen, List.getElem_map]
  exact (List.getElem?_eq_getElem (by simpa using hk)).symm.trans hget

/-- **A word that was written reads back.** -/
theorem ucMemRead_write (hmapped : mem.Mapped addr.toNat) :
    ucMemRead (ucMemWrite mem addr word) addr = some word := by
  have hwritten : (ucMemWrite mem addr word).Mapped addr.toNat := by
    intro k hk
    rw [ucMemWrite_byte hmapped hk]
    rfl
  rw [ucMemRead_of_mapped hwritten]
  congr 1
  apply Bytes.eq_of_byte
  intro k hk
  rw [Bytes.byte_word _ k hk, ucMemWrite_byte hmapped hk, Option.getD_some]

end Memory

theorem highMask_getLsbD : ∀ i < 64, (0xFFFFFFFF00000000 : BitVec 64).getLsbD i = decide (32 ≤ i) := by decide

/-- A read of four bytes into a variable of eight sets the lower half, bit for bit. -/
theorem readInto_getLsbD {i : ExceptionIn} {addr var : BitVec 64} {word : BitVec 32}
    (h : i.ucMemRead addr = some word) {k : ℕ} (hk : k < 64) :
    (readInto i addr var).getLsbD k = if 32 ≤ k then var.getLsbD k else word.getLsbD k := by
  unfold readInto
  rw [h]
  dsimp only
  rw [BitVec.getLsbD_or, BitVec.getLsbD_and, highMask_getLsbD k hk, BitVec.getLsbD_setWidth]
  by_cases h32 : 32 ≤ k
  · simp [h32]
  · have hlt : k < 64 := by omega
    simp [h32, hlt]

/-! ## Registers -/

/-- The registers of an engine with `X0` to `X7` and the program counter replaced. -/
def putRegs (args : Args) (pc : BitVec 64) (regs : Reg → BitVec 64) : Reg → BitVec 64
  | .x n => if h : n.val < 8 then args ⟨n, h⟩ else regs (.x n)
  | .sp => regs .sp
  | .pc => pc

section Put

variable (args : Args) (pc : BitVec 64) (regs : Reg → BitVec 64)

@[simp] theorem putRegs_argReg (j : Fin 8) : putRegs args pc regs (argReg j) = args j := dif_pos j.isLt

@[simp] theorem putRegs_pc : putRegs args pc regs .pc = pc := rfl

/-- A register is one of `X0` to `X7`, the program counter, or left alone. -/
theorem reg_cases (r : Reg) : (∃ j, r = argReg j) ∨ r = .pc ∨
    r ≠ .pc ∧ (∀ j, r ≠ argReg j) ∧ ∀ args pc regs, putRegs args pc regs r = regs r := by
  cases r with
  | x n =>
    by_cases hn : n.val < 8
    · exact .inl ⟨⟨n, hn⟩, rfl⟩
    · refine .inr (.inr ⟨Reg.noConfusion, ?_, fun args pc regs => dif_neg hn⟩)
      rintro j h
      exact hn (Reg.x.inj h ▸ j.isLt)
  | sp => exact .inr (.inr ⟨Reg.noConfusion, fun _ => Reg.noConfusion, fun _ _ _ => rfl⟩)
  | pc => exact .inr (.inl rfl)

theorem argReg_inj {j k : Fin 8} : argReg j = argReg k ↔ j = k := by
  constructor
  · intro h
    exact Fin.ext (congrArg (fun n : Fin 31 => n.val) (Reg.x.inj h))
  · rintro rfl
    rfl

theorem update_putRegs_argReg (j : Fin 8) (val : BitVec 64) :
    Function.update (putRegs args pc regs) (argReg j) val = putRegs (Function.update args j val) pc regs := by
  funext r
  obtain ⟨k, rfl⟩ | rfl | ⟨-, hne, hr⟩ := reg_cases r
  · by_cases hk : k = j
    · subst hk
      simp
    · rw [Function.update_of_ne (fun h => hk (argReg_inj.1 h)), putRegs_argReg, putRegs_argReg,
        Function.update_of_ne hk]
  · rfl
  · rw [Function.update_of_ne (hne j), hr, hr]

theorem update_putRegs_pc (val : BitVec 64) :
    Function.update (putRegs args pc regs) .pc val = putRegs args val regs := by
  funext r
  obtain ⟨k, rfl⟩ | rfl | ⟨hpc, -, hr⟩ := reg_cases r
  · rw [Function.update_of_ne Reg.noConfusion, putRegs_argReg, putRegs_argReg]
  · simp
  · rw [Function.update_of_ne hpc, hr, hr]

theorem putRegs_self : putRegs (fun j => regs (argReg j)) (regs .pc) regs = regs := by
  funext r
  obtain ⟨j, rfl⟩ | rfl | ⟨-, -, hr⟩ := reg_cases r
  · exact putRegs_argReg _ _ _ j
  · rfl
  · exact hr _ _ _

theorem putRegs_put (args' : Args) (pc' : BitVec 64) :
    putRegs args' pc' (putRegs args pc regs) = putRegs args' pc' regs := by
  funext r
  obtain ⟨j, rfl⟩ | rfl | ⟨-, -, hr⟩ := reg_cases r
  · rw [putRegs_argReg, putRegs_argReg]
  · rfl
  · rw [hr, hr, hr]

end Put

namespace Machine

/-- The engines with the registers of one replaced. -/
def setRegs (m : Machine) (c : Core) (regs : Reg → BitVec 64) : Machine :=
  { m with reg := Function.update m.reg c regs }

theorem setRegs_same (m : Machine) (c : Core) (regs : Reg → BitVec 64) : (m.setRegs c regs).reg c = regs :=
  Function.update_self _ _ _

theorem setRegs_of_ne (m : Machine) {c c' : Core} (h : c' ≠ c) (regs : Reg → BitVec 64) :
    (m.setRegs c regs).reg c' = m.reg c' := Function.update_of_ne h _ _

theorem setRegs_set (m : Machine) (c : Core) (regs regs' : Reg → BitVec 64) :
    (m.setRegs c regs).setRegs c regs' = m.setRegs c regs' := by
  unfold setRegs
  rw [Function.update_idem]

theorem exec_regWrite (m : Machine) (c : Core) (r : Reg) (val : BitVec 64) :
    m.exec (.regWrite c r val) = m.setRegs c (Function.update (m.reg c) r val) := rfl

/-- Writes to some of `X0` to `X7` of one engine, from `args`. -/
theorem exec_args (m : Machine) (c : Core) (args : Args) (js : List (Fin 8)) :
    (js.map fun j => EngineCall.regWrite c (argReg j) (args j)).foldl exec m =
      m.setRegs c (putRegs (fun j => if j ∈ js then args j else m.args c j) (m.reg c .pc) (m.reg c)) := by
  induction js generalizing m with
  | nil =>
    have hsame : putRegs (fun j => if j ∈ ([] : List (Fin 8)) then args j else m.args c j) (m.reg c .pc) (m.reg c) =
        m.reg c := by
      simpa [Machine.args] using putRegs_self (m.reg c)
    unfold setRegs
    rw [hsame, Function.update_eq_self]
    rfl
  | cons j js ih =>
    -- the register that is written is one of those that are put there
    have hwrite : Function.update (m.reg c) (argReg j) (args j) =
        putRegs (Function.update (m.args c) j (args j)) (m.reg c .pc) (m.reg c) := by
      rw [← update_putRegs_argReg]
      congr 1
      exact (putRegs_self (m.reg c)).symm
    rw [List.map_cons, List.foldl_cons, exec_regWrite, hwrite, ih, setRegs_set, setRegs_same, putRegs_put, putRegs_pc]
    congr 2
    funext k
    unfold Machine.args
    rw [setRegs_same, putRegs_argReg]
    by_cases hk : k = j
    · subst hk
      simp
    · simp [hk]

/-- **What the last calls of the hook do**: they put `args` and the next instruction into the
registers of its engine. -/
theorem exec_writeBack (m : Machine) (c : Core) (args : Args) (pc : BitVec 64) :
    (writeBack c args pc).foldl exec m = m.setRegs c (putRegs args (pc + 4) (m.reg c)) := by
  unfold writeBack
  rw [List.foldl_append, exec_args, List.foldl_cons, List.foldl_nil, exec_regWrite, setRegs_same, setRegs_set,
    update_putRegs_pc]
  simp

end Machine

end Mooooooo
