import Mooooooo.Spec.Run

/-!
# The hooks

`hook_code`, which the engines call before every instruction.

Its static variables are shared by all cores. The instruction word it reads at the
address is an input, `none` where `uc_mem_read` fails; what it only prints is left out.
-/

namespace Mooooooo

/-! ## `hook_code` -/

def sevl : BitVec 32 := 0xD50320BF
def wfe : BitVec 32 := 0xD503205F

/-- The static variables of `hook_code`, and `uc_quit`. `last_pc` is two fields. -/
structure HookState where
  lastPc0 : BitVec 64
  lastPc1 : BitVec 64
  gHasSevl : Core → Bool
  gShouldStop : Core → Bool
  ucQuit : Bool

/-- The call of `uc_emu_stop`, and the report of a hang. -/
inductive HookCall
  | emuStop (core : Core)
  | hang (core : Core) (address : BitVec 64)
deriving DecidableEq, Repr

/-- A call of `hook_code`: the core of its engine, the address, and the word read there. -/
structure CodeCall where
  core : Core
  address : BitVec 64
  insn : Option (BitVec 32)
deriving DecidableEq, Repr

/-- `if (g_should_stop[core])`. -/
def hookCodeStop (core : Core) : Cmd HookState HookCall := fun s =>
  if s.gShouldStop core = true then
    Cmd.emit (fun s => { s with gShouldStop := Function.update s.gShouldStop core false })
      (fun _ => .emuStop core) s
  else (s, [])

/-- `if (!uc_mem_read(uc, address, &insn, sizeof(insn)))`. -/
def hookCodeInsn (core : Core) : Option (BitVec 32) → Cmd HookState HookCall
  | none => Cmd.skip
  | some insn => fun s =>
    if insn = sevl then ({ s with gHasSevl := Function.update s.gHasSevl core true }, [])
    else if insn = wfe then
      ({ s with
        gShouldStop := if s.gHasSevl core = false then Function.update s.gShouldStop core true
          else s.gShouldStop
        gHasSevl := Function.update s.gHasSevl core false }, [])
    else (s, [])

/-- `if (last_pc[0] == address && last_pc[0] == last_pc[1] && !uc_quit)`. -/
def hookCodeHang (core : Core) (address : BitVec 64) : Cmd HookState HookCall := fun s =>
  if s.lastPc0 = address ∧ s.lastPc0 = s.lastPc1 ∧ s.ucQuit = false then
    Cmd.emit (fun s => { s with ucQuit := true }) (fun _ => .hang core address) s
  else (s, [])

/-- `last_pc[1] = last_pc[0]; last_pc[0] = address;` -/
def hookCodeShift (address : BitVec 64) : Cmd HookState HookCall := fun s =>
  ({ s with lastPc1 := s.lastPc0, lastPc0 := address }, [])

def hookCode (e : CodeCall) : Cmd HookState HookCall :=
  Cmd.forEach id [hookCodeStop e.core, hookCodeInsn e.core e.insn, hookCodeHang e.core e.address,
    hookCodeShift e.address]

/-- Static storage. -/
def HookState.zero : HookState := ⟨0, 0, fun _ => false, fun _ => false, false⟩

/-- The run of `hook_code` on calls of all cores, in the order in which they come. -/
def hookRun (es : List CodeCall) : HookState × List HookCall := Cmd.forEach hookCode es HookState.zero

end Mooooooo
