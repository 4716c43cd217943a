import Mooooooo.Spec.Exception

/-!
# Faults of `hook_exception`

* `hookException_fault`: **the fault in which the hook ends**, if it ends in one, for all
  values of the guest's registers and all contents of guest memory.
* `hookReadFault_eq_none_iff`: when what the hook reads in order to print it is there.
* `exception_total`: the hook spins for exactly the items of the configuration that it does
  not know; apart from inputs that it does not check, it returns for all others.
-/

namespace Mooooooo

/-- The fault of an outcome. -/
def fault {α : Type} : Except HostFault α → Option HostFault
  | .ok _ => none
  | .error e => some e

section Fault

variable {α β : Type}

@[simp] theorem fault_ok (a : α) : fault (.ok a) = none := rfl

@[simp] theorem fault_pure (a : α) : fault (pure a : Except HostFault α) = none := rfl

theorem fault_eq_none_iff (c : Except HostFault α) : fault c = none ↔ ∃ a, c = .ok a := by
  cases c <;> simp [fault]

theorem fault_eq_some_iff (c : Except HostFault α) (e : HostFault) : fault c = some e ↔ c = .error e := by
  cases c <;> simp [fault]

/-- What comes after a call that returns, when it does not fault itself. -/
theorem fault_bind (c : Except HostFault α) (f : α → Except HostFault β) (hf : ∀ a, fault (f a) = none) :
    fault (c >>= f) = fault c := by
  cases c with
  | error e => rfl
  | ok a => exact hf a

theorem ok_of_bind_pure {c : Except HostFault α} {f : α → β} {b : β}
    (h : (c >>= fun a => pure (f a)) = .ok b) : ∃ a, c = .ok a ∧ b = f a := by
  cases c with
  | error e => cases h
  | ok a => exact ⟨a, rfl, (Except.ok.inj h).symm⟩

end Fault

theorem access_eq (array : HostArray) (off len : ℕ) :
    array.access off len = if off + len ≤ array.size then .ok () else .error (.outOfBounds array off len) := rfl

theorem memcpyArgs_fault (i : ExceptionIn) (size : ℕ) (args : Args) :
    fault (memcpyArgs i size args) = if size ≤ 0x38 then none else some (.outOfBounds .tmp 0 size) := by
  unfold memcpyArgs
  rw [access_eq, access_eq]
  by_cases h : size ≤ 0x38
  · -- `args` has room for what `tmp` has
    have htmp : 0 + size ≤ HostArray.tmp.size := by simpa [HostArray.size] using h
    have hargs : 8 + size ≤ HostArray.args.size := by
      unfold HostArray.size
      dsimp only
      omega
    rw [if_pos htmp, if_pos hargs, if_pos h]
    rfl
  · have htmp : ¬0 + size ≤ HostArray.tmp.size := by simpa [HostArray.size] using h
    rw [if_neg htmp, if_neg h]
    rfl

/-- A copy that returns. -/
theorem memcpyArgs_ok {i : ExceptionIn} {size : ℕ} {args args' : Args} (h : memcpyArgs i size args = .ok args') :
    size ≤ 0x38 ∧ args' = withTmp i size args := by
  have hfault := memcpyArgs_fault i size args
  rw [h] at hfault
  have hsize : size ≤ 0x38 := by
    by_contra hlarge
    rw [if_neg hlarge] at hfault
    cases hfault
  refine ⟨hsize, ?_⟩
  have htmp : 0 + size ≤ HostArray.tmp.size := by simpa [HostArray.size] using hsize
  have hargs : 8 + size ≤ HostArray.args.size := by
    unfold HostArray.size
    dsimp only
    omega
  unfold memcpyArgs at h
  rw [access_eq, access_eq, if_pos htmp, if_pos hargs] at h
  exact (Except.ok.inj h).symm

theorem coreEntry_eq (array : HostArray) (harray : array.size = 4) (n : BitVec 64) :
    coreEntry array n = if h : n.toNat < 4 then .ok ⟨n.toNat, h⟩ else .error (.outOfBounds array n.toNat 1) := by
  unfold coreEntry
  rw [access_eq, harray]
  by_cases h : n.toNat < 4
  · rw [if_pos (by omega), dif_pos h]
    have hmod : n.toNat % 4 = n.toNat := Nat.mod_eq_of_lt h
    exact congrArg Except.ok (Fin.ext hmod)
  · rw [if_neg (by omega), dif_neg h]
    rfl

/-- `smcCpuOn` for a processor that there is. -/
theorem smcCpuOn_ok {args : Args} (h : (args 1).toNat < 4) :
    smcCpuOn args = .ok (Function.update args 0 0,
      [.regWrite ⟨_, h⟩ (argReg 0) (args 3), .regWrite ⟨_, h⟩ .pc (args 2), .setOnline ⟨_, h⟩]) := by
  unfold smcCpuOn
  dsimp only
  rw [Function.update_of_ne (by decide), coreEntry_eq .cores rfl, coreEntry_eq .coresOnline rfl, dif_pos h, dif_pos h]
  rfl

theorem smcCpuOn_fault (args : Args) : fault (smcCpuOn args) =
    if (args 1).toNat < 4 then none else some (.outOfBounds .cores (args 1).toNat 1) := by
  by_cases h : (args 1).toNat < 4
  · rw [smcCpuOn_ok h, if_pos h]
    rfl
  · unfold smcCpuOn
    dsimp only
    rw [Function.update_of_ne (by decide), coreEntry_eq .cores rfl, dif_neg h, if_neg h]
    rfl

theorem smcGetConfig_fault (args : Args) : fault (smcGetConfig args) =
    if configVal (args 1) = none then some .spins else none := by
  unfold smcGetConfig
  cases configVal (args 1) <;> simp [fault]

/-- The fault that `args[0]` and `args[1]` of a secure monitor call lead to. -/
def smcFault (x0 x1 : BitVec 64) : Option HostFault :=
  if x0 = 0xC3000005 then if x1.toNat ≤ 0x38 then none else some (.outOfBounds .tmp 0 x1.toNat)
  else if x0 = 0xc4000003 then if x1.toNat < 4 then none else some (.outOfBounds .cores x1.toNat 1)
  else if x0 = 0xc3000004 then if configVal x1 = none then some .spins else none
  else none

theorem smcCall_fault (i : ExceptionIn) (args : Args) : fault (smcCall i args) = smcFault (args 0) (args 1) := by
  unfold smcCall smcFault
  by_cases hrandom : args 0 = 0xC3000005
  · rw [if_pos hrandom, if_pos hrandom, fault_bind _ _ fun _ => rfl]
    exact memcpyArgs_fault i _ _
  rw [if_neg hrandom, if_neg hrandom]
  by_cases hreg : args 0 = 0xc3000008
  · rw [if_pos hreg, if_neg (by rw [hreg]; decide), if_neg (by rw [hreg]; decide)]
    rfl
  rw [if_neg hreg]
  by_cases hcpu : args 0 = 0xc4000003
  · rw [if_pos hcpu, if_pos hcpu]
    exact smcCpuOn_fault args
  rw [if_neg hcpu, if_neg hcpu]
  by_cases hconfig : args 0 = 0xc3000004
  · rw [if_pos hconfig, if_pos hconfig, fault_bind _ _ fun _ => rfl]
    exact smcGetConfig_fault args
  rw [if_neg hconfig, if_neg hconfig]
  -- the other calls do not fault
  split
  · rfl
  · split
    · rfl
    · split <;> rfl

/-- The fault of what the hook calls, if that faults. Only secure monitor calls do. -/
def exceptionFault (exceptno : BitVec 32) (spsel : BitVec 64) (args : Args) : Option HostFault :=
  if exceptno = 1 ∧ spsel ≠ 0 then smcFault args.call args.subject else none

section Hook

variable (core : Core) (exceptno : BitVec 32) (i : ExceptionIn) (args : Args) (pc : BitVec 64)

theorem hookExceptionCalls_fault :
    fault (hookExceptionCalls core exceptno i args pc) = exceptionFault exceptno i.spsel args := by
  unfold hookExceptionCalls exceptionFault
  by_cases hsmc : exceptno = 1 ∧ i.spsel ≠ 0
  · rw [if_pos hsmc, if_pos hsmc, fault_bind _ _ fun _ => rfl, smcCall_fault]
  · rw [if_neg hsmc, if_neg hsmc]
    split <;> rfl

/-- **The fault in which the hook ends**, if it ends in one. -/
theorem hookException_fault : fault (hookException core exceptno i args pc) =
    (hookReadFault exceptno i args pc).or (exceptionFault exceptno i.spsel args) := by
  unfold hookException
  cases hookReadFault exceptno i args pc with
  | some f => rfl
  | none => exact hookExceptionCalls_fault core exceptno i args pc

end Hook

/-! ## Reads -/

/-- A walk does not fault exactly if it stays inside the banks. -/
theorem walkFault_eq_none_iff (calls : List WalkCall) :
    walkFault calls = none ↔ ∀ ptr off, .read ptr off ∈ calls → InBank ptr off := by
  unfold walkFault
  rw [List.findSome?_eq_none_iff]
  constructor
  · intro h ptr off hread
    by_contra hout
    exact Option.some_ne_none _ ((if_neg hout).symm.trans (h _ hread))
  · intro h call hcall
    cases call with
    | read ptr off => exact if_pos (h ptr off hcall)
    | ttbr0 => rfl
    | ttbr1 => rfl
    | bad level addr => rfl
    | line l => rfl

/-- A walk that does not fault is seen whole. -/
theorem walkReached_eq {calls : List WalkCall} (h : walkFault calls = none) : walkReached calls = calls := by
  induction calls with
  | nil => rfl
  | cons call calls ih =>
    obtain ⟨hcall, hrest⟩ := List.forall_mem_cons.1 (List.findSome?_eq_none_iff.1 h)
    unfold walkReached
    rw [if_pos hcall, ih (List.findSome?_eq_none_iff.2 hrest)]

/-- A walk faults where it is cut off. -/
theorem walkFault_reached (calls : List WalkCall) : walkFault (walkReached calls) = walkFault calls := by
  induction calls with
  | nil => rfl
  | cons call calls ih =>
    unfold walkReached walkFault
    rw [List.findSome?_cons, List.findSome?_cons]
    cases hcall : call.fault with
    | some f => rfl
    | none => exact ih

theorem walkFault_eq {calls : List WalkCall} {f : HostFault} (h : walkFault calls = some f) :
    ∃ ptr off, f = .walk ptr off := by
  obtain ⟨call, -, hcall⟩ := List.exists_of_findSome?_eq_some h
  cases call with
  | read ptr off =>
    by_cases hin : InBank ptr off
    · exact absurd ((if_pos hin).symm.trans hcall) (Option.some_ne_none f).symm
    · exact ⟨ptr, off, Option.some.inj (hcall.symm.trans (if_neg hin))⟩
  | ttbr0 => cases hcall
  | ttbr1 => cases hcall
  | bad level addr => cases hcall
  | line l => cases hcall

theorem stringFault_eq_none_iff (ptr : Option HostPtr) (str : Option (List (BitVec 8))) :
    stringFault ptr str = none ↔ ∃ bytes, str = some bytes := by
  unfold stringFault
  cases str <;> simp

theorem stringFault_eq {ptr : Option HostPtr} {str : Option (List (BitVec 8))} {f : HostFault}
    (h : stringFault ptr str = some f) : f = .string ptr := by
  unfold stringFault at h
  split at h
  · exact (Option.some.inj h).symm
  · cases h

section Reads

variable {exceptno : BitVec 32} {i : ExceptionIn} {args : Args} {pc : BitVec 64}

/-- `smcDebugPrint` is given a pointer to a string that ends in its bank. -/
def PrintsString (exceptno : BitVec 32) (i : ExceptionIn) (args : Args) : Prop :=
  exceptno = 1 ∧ i.spsel ≠ 0 → args.call = 0xf00ff00f →
    ∃ bytes, hostString i.mem (paddrToAlloc (i.ucRedirect args.subject)) = some bytes

/-- The walk after a prefetch abort stays inside the banks. -/
def WalksBanks (exceptno : BitVec 32) (i : ExceptionIn) (pc : BitVec 64) : Prop :=
  exceptno = 3 → ∀ ptr off, .read ptr off ∈ ucMmuWalk i.mem i.ttbr0 i.ttbr1 pc → InBank ptr off

/-- **When what the hook reads in order to print it is there.** -/
theorem hookReadFault_eq_none_iff :
    hookReadFault exceptno i args pc = none ↔ PrintsString exceptno i args ∧ WalksBanks exceptno i pc := by
  unfold hookReadFault PrintsString WalksBanks
  by_cases hsmc : exceptno = 1 ∧ i.spsel ≠ 0
  · have h3 : exceptno ≠ 3 := by
      rw [hsmc.1]
      decide
    rw [if_pos hsmc]
    by_cases hprint : args 0 = 0xf00ff00f
    · rw [if_pos hprint, stringFault_eq_none_iff]
      exact ⟨fun h => ⟨fun _ _ => h, fun h' => absurd h' h3⟩, fun h => h.1 hsmc hprint⟩
    · rw [if_neg hprint]
      exact iff_of_true rfl ⟨fun _ h => absurd h hprint, fun h => absurd h h3⟩
  · rw [if_neg hsmc]
    by_cases h3 : exceptno = 3
    · rw [if_pos h3, walkFault_eq_none_iff]
      exact ⟨fun h => ⟨fun h' => absurd h' hsmc, fun _ => h⟩, fun h => h.2 h3⟩
    · rw [if_neg h3]
      exact iff_of_true rfl ⟨fun h => absurd h hsmc, fun h => absurd h h3⟩

/-- A read faults in its own way. -/
theorem hookReadFault_cases {f : HostFault} (h : hookReadFault exceptno i args pc = some f) :
    (∃ ptr, f = .string ptr) ∨ ∃ ptr off, f = .walk ptr off := by
  unfold hookReadFault at h
  dsimp only at h
  split at h
  · split at h
    · exact .inl ⟨_, stringFault_eq h⟩
    · cases h
  split at h
  · exact .inr (walkFault_eq h)
  · cases h

end Reads

/-! ## Calls that return -/

theorem configVal_eq_none_iff (item : BitVec 64) :
    configVal item = none ↔ item ≠ 1 ∧ item ≠ 10 ∧ item ≠ 11 ∧ item ≠ 12 := by
  constructor
  · intro h
    refine ⟨?_, ?_, ?_, ?_⟩
    · rintro rfl
      exact absurd h (by decide)
    · rintro rfl
      exact absurd h (by decide)
    · rintro rfl
      exact absurd h (by decide)
    · rintro rfl
      exact absurd h (by decide)
  · rintro ⟨h1, h10, h11, h12⟩
    unfold configVal
    rw [if_neg h1, if_neg h10, if_neg h11, if_neg h12]

/-- The arguments that lead to no fault. -/
theorem smcFault_eq_none_iff (x0 x1 : BitVec 64) : smcFault x0 x1 = none ↔
    (x0 = 0xC3000005 → x1 ≤ 0x38) ∧ (x0 = 0xc4000003 → x1 < 4) ∧ (x0 = 0xc3000004 → configVal x1 ≠ none) := by
  have hsize : x1 ≤ 0x38 ↔ x1.toNat ≤ 0x38 := by
    rw [BitVec.le_def]
    rfl
  have hcpu : x1 < 4 ↔ x1.toNat < 4 := by
    rw [BitVec.lt_def]
    rfl
  unfold smcFault
  rw [hsize, hcpu]
  by_cases h5 : x0 = 0xC3000005
  · simp [h5]
  · by_cases h3 : x0 = 0xc4000003
    · simp [h3]
    · by_cases h4 : x0 = 0xc3000004
      · simp [h4]
      · rw [if_neg h5, if_neg h3, if_neg h4]
        exact iff_of_true rfl ⟨fun h => absurd h h5, fun h => absurd h h3, fun h => absurd h h4⟩

/-- An item of the configuration that `smcGetConfig` does not know. -/
def UnknownConfig (exceptno : BitVec 32) (spsel x0 x1 : BitVec 64) : Prop :=
  (exceptno = 1 ∧ spsel ≠ 0) ∧ x0 = 0xc3000004 ∧ x1 ≠ 1 ∧ x1 ≠ 10 ∧ x1 ≠ 11 ∧ x1 ≠ 12

instance (exceptno : BitVec 32) (spsel x0 x1 : BitVec 64) :
    Decidable (UnknownConfig exceptno spsel x0 x1) := inferInstanceAs (Decidable (_ ∧ _))

/-- A size for `smcGetRandomBytes` or a processor for `smcCpuOn` that its arrays do not have. -/
def Unchecked (exceptno : BitVec 32) (spsel x0 x1 : BitVec 64) : Prop :=
  (exceptno = 1 ∧ spsel ≠ 0) ∧ (x0 = 0xC3000005 ∧ 0x38 < x1 ∨ x0 = 0xc4000003 ∧ 4 ≤ x1)

instance (exceptno : BitVec 32) (spsel x0 x1 : BitVec 64) :
    Decidable (Unchecked exceptno spsel x0 x1) := inferInstanceAs (Decidable (_ ∧ _))

section Arguments

variable {exceptno : BitVec 32} {spsel : BitVec 64} {args : Args}

theorem exceptionFault_spins_iff :
    exceptionFault exceptno spsel args = some .spins ↔ UnknownConfig exceptno spsel (args 0) (args 1) := by
  unfold exceptionFault UnknownConfig
  rw [← configVal_eq_none_iff]
  by_cases hsmc : exceptno = 1 ∧ spsel ≠ 0
  · rw [if_pos hsmc]
    by_cases h4 : args 0 = 0xc3000004
    · have hfault : smcFault args.call args.subject = some .spins ↔ configVal (args 1) = none := by
        simp [smcFault, h4]
      rw [hfault]
      exact ⟨fun h => ⟨hsmc, h4, h⟩, fun h => h.2.2⟩
    · -- the other faults are not this one
      refine iff_of_false ?_ fun h => h4 h.2.1
      unfold smcFault
      grind
  · rw [if_neg hsmc]
    exact iff_of_false (by simp) fun h => hsmc h.1

theorem exceptionFault_eq_none_iff : exceptionFault exceptno spsel args = none ↔
    ¬UnknownConfig exceptno spsel (args 0) (args 1) ∧ ¬Unchecked exceptno spsel (args 0) (args 1) := by
  unfold exceptionFault UnknownConfig Unchecked
  rw [← configVal_eq_none_iff]
  by_cases hsmc : exceptno = 1 ∧ spsel ≠ 0
  · rw [if_pos hsmc, smcFault_eq_none_iff]
    have hsize : ¬0x38 < args 1 ↔ args 1 ≤ 0x38 := BitVec.not_lt
    have hcpu : ¬4 ≤ args 1 ↔ args 1 < 4 := BitVec.not_le
    grind
  · rw [if_neg hsmc]
    exact iff_of_true rfl ⟨fun h => hsmc h.1, fun h => hsmc h.1⟩

end Arguments

/-- The walk and the string are read in other calls than this. -/
theorem UnknownConfig.prints_walks {exceptno : BitVec 32} {i : ExceptionIn} {args : Args} {pc : BitVec 64}
    (h : UnknownConfig exceptno i.spsel (args 0) (args 1)) : PrintsString exceptno i args ∧ WalksBanks exceptno i pc := by
  obtain ⟨⟨h1, -⟩, h4, -⟩ := h
  refine ⟨fun _ hprint => ?_, fun h3 => ?_⟩
  · rw [Args.call, h4] at hprint
    exact absurd hprint (by decide)
  · rw [h1] at h3
    exact absurd h3 (by decide)

/-- **When the hook returns and stays inside its arrays.** It stops in `while (1);` exactly if
`smcGetConfig` is asked for an item that it does not know. In every other case it stays inside its arrays, and
returns; sizes that `smcGetRandomBytes` and processors that `smcCpuOn` does not check are left out, and so are
a pointer that is not to a string and tables outside the banks where the hook prints these. -/
theorem exception_total (core : Core) (exceptno : BitVec 32) (i : ExceptionIn) (args : Args) (pc : BitVec 64) :
    (hookException core exceptno i args pc = .error .spins ↔
      UnknownConfig exceptno i.spsel (args 0) (args 1)) ∧
    (∀ array off len, hookException core exceptno i args pc = .error (.outOfBounds array off len) →
      Unchecked exceptno i.spsel (args 0) (args 1)) ∧
    (¬UnknownConfig exceptno i.spsel (args 0) (args 1) → ¬Unchecked exceptno i.spsel (args 0) (args 1) →
      PrintsString exceptno i args → WalksBanks exceptno i pc →
        ∃ calls, hookException core exceptno i args pc = .ok calls) := by
  simp only [← fault_eq_some_iff, ← fault_eq_none_iff, hookException_fault, Option.or_eq_some_iff,
    Option.or_eq_none_iff, exceptionFault_eq_none_iff, exceptionFault_spins_iff, hookReadFault_eq_none_iff]
  refine ⟨?_, ?_, ?_⟩
  · constructor
    · rintro (hread | ⟨-, hconfig⟩)
      · rcases hookReadFault_cases hread with ⟨ptr, h⟩ | ⟨ptr, off, h⟩ <;> cases h
      · exact hconfig
    · intro hconfig
      exact .inr ⟨hconfig.prints_walks, hconfig⟩
  · rintro array off len (hread | ⟨-, hcall⟩)
    · rcases hookReadFault_cases hread with ⟨ptr, h⟩ | ⟨ptr, off, h⟩ <;> cases h
    · -- it is a fault, and not the endless loop
      by_contra hchecked
      by_cases hconfig : UnknownConfig exceptno i.spsel (args 0) (args 1)
      · rw [exceptionFault_spins_iff.2 hconfig] at hcall
        cases hcall
      · rw [exceptionFault_eq_none_iff.2 ⟨hconfig, hchecked⟩] at hcall
        cases hcall
  · intro hconfig hchecked hprints hwalks
    exact ⟨⟨hprints, hwalks⟩, hconfig, hchecked⟩

def smcIn : ExceptionIn where
  spsel := 1
  ttbr0 := 0
  ttbr1 := 0
  mem := fun _ _ => 0
  ucMemRead := fun _ => none
  ucRedirect := id
  rand := fun _ => 0
  svc := 0

/-- A call of the monitor, with one argument throughout. -/
def smcArgs (x0 x1 : BitVec 64) : Args := fun j => if j.val = 0 then x0 else x1

/-- Three random bytes, an empty string to print, and an abort with no tables in DRAM. -/
theorem exception_total_checked :
    (∃ calls, hookException 0 1 smcIn (smcArgs 0xC3000005 3) 0 = .ok calls) ∧
      (∃ calls, hookException 0 1 smcIn (smcArgs 0xf00ff00f 0x80000001) 0 = .ok calls) ∧
      ∃ calls, hookException 0 3 smcIn (smcArgs 0 0) 0 = .ok calls := by
  have hempty : hostString smcIn.mem (paddrToAlloc (smcIn.ucRedirect (smcArgs 0xf00ff00f 0x80000001 1))) = some [] := rfl
  have hwalk : ucMmuWalk smcIn.mem smcIn.ttbr0 smcIn.ttbr1 0 = [.ttbr0, .bad 0 0, .ttbr1, .bad 0 0] := rfl
  refine ⟨?_, ?_, ?_⟩
  · exact (exception_total 0 1 smcIn (smcArgs 0xC3000005 3) 0).2.2 (by decide) (by decide)
      (fun _ h => absurd h (by decide)) fun h => absurd h (by decide)
  · exact (exception_total 0 1 smcIn (smcArgs 0xf00ff00f 0x80000001) 0).2.2 (by decide) (by decide)
      (fun _ _ => ⟨[], hempty⟩) fun h => absurd h (by decide)
  · refine (exception_total 0 3 smcIn (smcArgs 0 0) 0).2.2 (by decide) (by decide)
      (fun h => absurd h (by decide)) fun _ ptr off hread => ?_
    rw [hwalk] at hread
    simp at hread

/-- The item 2 of the configuration keeps the hook in its loop. -/
theorem config_item_spins : ¬∃ calls, hookException 0 1 smcIn (smcArgs 0xc3000004 2) 0 = .ok calls := by
  rw [← fault_eq_none_iff, hookException_fault, Option.or_eq_none_iff, exceptionFault_eq_none_iff]
  intro h
  exact h.2.1 (by decide)

end Mooooooo
