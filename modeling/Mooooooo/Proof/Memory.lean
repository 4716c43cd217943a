import Mooooooo.Lib.Flat
import Mooooooo.Proof.Dram
import Mooooooo.Proof.Refinement

/-!
# Guest memory is one array

The host memory that guests see lies in blocks that are mapped and unmapped with every
slice. To the guests all of it, DRAM, IRAM and TZRAM, is one array of bytes that all cores
share (`guest_memory_flat`): no load can tell when or by which engine a byte was stored.

* `guestMap`: what a guest finds mapped; `flatMem`: the array.
* `flatMemory`: the array as a monitor of loads and stores.
-/

namespace Mooooooo

/-! ## The array -/

/-- What the guest of a core has mapped. -/
def guestMap : MemMap := initMap ++ banks

/-- The block behind a backing. -/
def Backing.block : Backing → Option HostBlock
  | .host block => some block
  | .mmio _ => none

theorem guestMap_ownBlocks : Table.OwnBlocks Backing.block guestMap := by
  refine ⟨disjoint_banks, ?_, ?_⟩
  · have hall : ∀ r ∈ guestMap, ∀ r' ∈ guestMap, (Backing.block r.back).isSome = true →
        Backing.block r.back = Backing.block r'.back → r = r' := by decide
    exact hall
  · have hall : ∀ r ∈ guestMap, r.org = r.lo := by decide
    exact hall

/-- The cells of guest addresses. -/
def guestCells : Placement (BitVec 64) (HostBlock × ℕ) :=
  (Table.placement Backing.block guestMap guestMap_ownBlocks).comap BitVec.toNat
    fun _ _ => BitVec.eq_of_toNat_eq

/-- The array of bytes that guests see, `none` at addresses that are not host memory. -/
def flatMem (mem : HostBlock → ℕ → BitVec 8) : BitVec 64 → Option (BitVec 8) :=
  guestCells.view fun c => mem c.1 c.2

/-- The addresses of host memory. DRAM is two banks from its base on and, its base having wrapped, a
third one at address 0. -/
def HostAddr (a : BitVec 64) : Prop :=
  a.toNat < 0x40000000 ∨ 0x40000000 ≤ a.toNat ∧ a.toNat < 0x40040000 ∨
    0x7C010000 ≤ a.toNat ∧ a.toNat < 0x7C020000 ∨ 0x80000000 ≤ a.toNat ∧ a.toNat < 0x100000000

theorem flatMem_isSome_iff (mem : HostBlock → ℕ → BitVec 8) (a : BitVec 64) :
    (flatMem mem a).isSome ↔ HostAddr a := by
  have hcell : (flatMem mem a).isSome = (guestMap.cell Backing.block a.toNat).isSome := Option.isSome_map
  rw [hcell, Table.cell_isSome_iff guestMap_ownBlocks.disjoint]
  simp only [guestMap, initMap, bank, bank2, bank3, List.cons_append, List.nil_append, List.mem_cons,
    List.not_mem_nil, or_false, exists_eq_or_imp, exists_eq_left, Region.Mem, Backing.block, Option.isSome_none,
    Option.isSome_some, Bool.false_eq_true, and_false, and_true, false_or, HostAddr]
  omega

/-- The cells of the first bank. -/
theorem cell_dram (a : BitVec 64) (x : ℕ) :
    guestCells.cell a = some (.dram, x) ↔ 0x80000000 ≤ a.toNat ∧ a.toNat < 0xC0000000 ∧ x = a.toNat - 0x80000000 := by
  have hown : ∀ r ∈ guestMap, Backing.block r.back = some .dram → r = bank := by decide
  have hbank : bank ∈ guestMap := by decide
  have hcell : guestCells.cell a = (guestMap.find a.toNat).bind fun r =>
      (Backing.block r.back).map fun block => (block, a.toNat - r.org) := rfl
  rw [hcell]
  constructor
  · intro h
    obtain ⟨r, hr, hrc⟩ := Option.bind_eq_some_iff.1 h
    obtain ⟨block, hblock, hpair⟩ := Option.map_eq_some_iff.1 hrc
    obtain ⟨rfl, rfl⟩ := Prod.mk.injEq .. ▸ hpair
    obtain ⟨hmem, hin⟩ := (Table.find_iff guestMap_ownBlocks.disjoint a.toNat).1 hr
    obtain rfl := hown r hmem hblock
    exact ⟨hin.1, hin.2, rfl⟩
  · rintro ⟨hlo, hhi, hx⟩
    rw [hx, (Table.find_iff guestMap_ownBlocks.disjoint a.toNat).2 ⟨hbank, hlo, hhi⟩]
    rfl

section Access

variable {h : Host} {core : Core}

theorem readByte_flat (hregs : h.regions core = guestMap) (addr : BitVec 64) :
    h.readByte core addr = flatMem h.mem addr := by
  have hcell : flatMem h.mem addr = ((guestMap.find addr.toNat).bind fun r =>
      (Backing.block r.back).map fun block => (block, addr.toNat - r.org)).map fun c => h.mem c.1 c.2 := rfl
  rw [hcell]
  unfold Host.readByte Host.lookup
  rw [hregs]
  cases guestMap.find addr.toNat with
  | none => rfl
  | some r =>
    dsimp only [Option.map_some, Option.bind_some]
    cases r.back <;> rfl

theorem writeByte_flat (hregs : h.regions core = guestMap) (addr : BitVec 64) (byte : BitVec 8) :
    flatMem (h.writeByte core addr byte).mem = putFlat (flatMem h.mem) addr byte := by
  unfold flatMem
  rw [← guestCells.view_store]
  congr 1
  have hcell : guestCells.cell addr = (guestMap.find addr.toNat).bind fun r =>
      (Backing.block r.back).map fun block => (block, addr.toNat - r.org) := rfl
  unfold Host.writeByte Host.lookup Placement.store
  rw [hregs, hcell]
  cases guestMap.find addr.toNat with
  | none => rfl
  | some r =>
    dsimp only [Option.map_some, Option.bind_some]
    cases r.back with
    | mmio dev => rfl
    | host block =>
      funext c
      dsimp only [Backing.block, Option.map_some]
      by_cases hb : c.1 = block
      · by_cases ho : c.2 = addr.toNat - r.org
        · simp [← hb, ← ho]
        · have hne : c ≠ (block, addr.toNat - r.org) := fun h => ho (by rw [h])
          rw [Function.update_of_ne hne, hb, Function.update_self, Function.update_of_ne ho]
      · have hne : c ≠ (block, addr.toNat - r.org) := fun h => hb (by rw [h])
        rw [Function.update_of_ne hne, Function.update_of_ne hb]

end Access

/-! ## Runs -/

/-- **One array for all cores**: a store sets its byte, a load must return the byte that is there. -/
def flatMemory : Monitor (BitVec 64 → Option (BitVec 8)) Moment where
  next k mo := match mo.call with
    | .store _ addr byte => putFlat k addr byte
    | _ => k
  ok k mo := match mo.call with
    | .load _ addr value => value = k addr
    | _ => True

/-- A call that neither loads nor stores. -/
theorem flatMemory_other {mo : Moment} (h : mo.call.phase ≠ .emu ∨ ∃ core, mo.call = .emuStart core) :
    flatMemory.Ignores mo := by
  intro k
  obtain ⟨call, host⟩ := mo
  cases call with
  | load c addr value => simp [RunCall.phase] at h
  | store c addr byte => simp [RunCall.phase] at h
  | _ => exact ⟨rfl, trivial⟩

/-- In a slice, with the array being `k`. -/
def SliceFlat (core : Core) (h : Host) (k : BitVec 64 → Option (BitVec 8)) : Prop :=
  h.regions core = guestMap ∧ flatMem h.mem = k

theorem guestStep_flat (core : Core) (act : GuestAct) :
    Triple flatMemory (SliceFlat core) (guestStep core act) (SliceFlat core) := by
  rintro h k ⟨hregs, hk⟩
  have hregs' : (guestStep core act h).1.regions core = guestMap := by rw [guestStep_regions]; exact hregs
  cases act with
  | load addr => exact ⟨⟨(readByte_flat hregs addr).trans (congrFun hk addr), trivial⟩, hregs', hk⟩
  | store addr byte =>
    refine ⟨⟨trivial, trivial⟩, hregs', ?_⟩
    show flatMem (h.writeByte core addr byte).mem = putFlat k addr byte
    rw [writeByte_flat hregs, hk]
  | gic a => exact ⟨⟨trivial, trivial⟩, hregs', hk⟩
  | smcCpuOn cpu => exact ⟨⟨trivial, trivial⟩, hregs', hk⟩
  | quit => exact ⟨⟨trivial, trivial⟩, hregs', hk⟩

theorem slice_flat (core : Core) (x : Slice) :
    Triple flatMemory (fun h k => h.Idle ∧ flatMem h.mem = k) (ucCoreRunSlice core x)
      (fun h k => h.Idle ∧ flatMem h.mem = k) := by
  rintro h k ⟨hi, hk⟩
  obtain ⟨hacc, -, hend⟩ := Triple.forEach (guestStep_flat core) x.acts
    (h.withBanks core banks) k ⟨by simp [Host.withBanks, guestMap], hk⟩
  rw [slice_eq core x hi]
  dsimp only
  have hpre : flatMemory.Accepts k (beforeGuest core h) ∧ flatMemory.run k (beforeGuest core h) = k :=
    Monitor.Ignores.list (fun mo hmo => flatMemory_other (by
      revert mo
      simp [beforeGuest, RunCall.phase])) k
  have hpost : ∀ k h', flatMemory.Accepts k (afterGuest core x h') ∧
      flatMemory.run k (afterGuest core x h') = k :=
    fun k h' => Monitor.Ignores.list (fun mo hmo => flatMemory_other (by
      revert mo
      simp [afterGuest, RunCall.phase])) k
  rw [Monitor.accepts_append, Monitor.accepts_append, Monitor.run_append, Monitor.run_append, hpre.2,
    (hpost _ _).2, afterSlice_mem]
  exact ⟨⟨⟨hpre.1, hacc⟩, (hpost _ _).1⟩, idle_withBanks_nil core _, hend⟩

theorem ucRunStuffStep_flat (x : Slice) :
    Triple flatMemory (fun s k => s.host.Idle ∧ flatMem s.host.mem = k) (ucRunStuffStep x)
      (fun s k => s.host.Idle ∧ flatMem s.host.mem = k) := by
  intro s k hs
  rcases step_cases x s with ⟨point, hstep⟩ | ⟨core, -, -, -, hstep⟩
  · rw [hstep]; exact ⟨trivial, hs⟩
  · rw [hstep, runCore_eq]
    obtain ⟨hacc, hend⟩ := slice_flat core x (s.host.inject core) k ⟨hs.1.inject core, hs.2⟩
    exact ⟨⟨trivial, hacc⟩, hend⟩

/-- In every run of `uc_run_stuff`, guest memory is the array. -/
theorem run_flat (mem : HostBlock → ℕ → BitVec 8) (xs : List Slice) :
    flatMemory.Accepts (flatMem mem) (ucRunStuff mem xs).2 ∧
      flatMem (ucRunStuff mem xs).1.host.mem = flatMemory.run (flatMem mem) (ucRunStuff mem xs).2 := by
  have hstart : (RunState.start mem).host.mem = mem := init_mem mem
  obtain ⟨hacc, -, hend⟩ := Triple.forEach ucRunStuffStep_flat xs (RunState.start mem) (flatMem mem)
    ⟨start_idle mem, by rw [hstart]⟩
  exact ⟨hacc, hend⟩

/-- In every run of the emulator likewise. -/
theorem emulate_flat (mem : HostBlock → ℕ → BitVec 8) (reg : Core → Reg → BitVec 64) (xs : List EmuSlice) :
    flatMemory.Accepts (flatMem mem) (moments (emulate mem reg xs).2) := by
  obtain ⟨ys, rest, hys⟩ := run_begins mem reg xs
  have hacc := (run_flat mem ys).1
  rw [← hys, Monitor.accepts_append] at hacc
  exact hacc.1

/-- **Guest memory is one array**, with an entry for each address of host memory, in every run of the
emulator: a load, by whichever core, returns what was last stored at its address by whichever core or hook. -/
theorem guest_memory_flat (mem : HostBlock → ℕ → BitVec 8) (reg : Core → Reg → BitVec 64) (xs : List EmuSlice) :
    (∀ a, (flatMem mem a).isSome ↔ HostAddr a) ∧
      flatMemory.Accepts (flatMem mem) (moments (emulate mem reg xs).2) :=
  ⟨flatMem_isSome_iff mem, emulate_flat mem reg xs⟩

end Mooooooo
