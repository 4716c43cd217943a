import Mooooooo.Proof.Mapping

/-!
# Guest DRAM

Guest DRAM is meant to be three banks from `0x80000000` on, one behind the other. The
base of the third is computed in 32 bits and wraps to 0, on the guest's side
(`uc_core_run_slice`) and on the host's (`paddr_to_alloc`).

* `bank_shared`: **inside a bank that slices map, memory is one memory shared by all
  cores**: a load returns the byte last stored at its address.
* `dram_coherent_iff`: the addresses at which guest DRAM is what it is meant to be.
* `host_guest_agree_iff`: the addresses at which `paddr_to_alloc` agrees with the guest.
-/

namespace Mooooooo

/-! ## What the guest finds at an address -/

theorem lookup_bank {h : Host} {core : Core} (hregs : h.regions core = initMap ++ banks)
    {r : Region ℕ Backing} (hr : r ∈ banks) {a : BitVec 64} (ha : r.Mem a.toNat) :
    h.lookup core a = some (r.back, a.toNat - r.org) := by
  have hfind := (Table.find_iff disjoint_banks a.toNat).2 ⟨List.mem_append_right initMap hr, ha⟩
  unfold Host.lookup
  rw [hregs, hfind]
  rfl

/-- DRAM is found only in a bank that is mapped. -/
theorem bank_of_lookup {h : Host} {core : Core} {ts : MemMap} (hregs : h.regions core = initMap ++ ts)
    {a : BitVec 64} {block : HostBlock} {off : ℕ} (hl : h.lookup core a = some (.host block, off))
    (hd : block.isDram = true) :
    ∃ r ∈ ts, r.Mem a.toNat ∧ r.back = .host block ∧ off = a.toNat - r.org := by
  unfold Host.lookup at hl
  obtain ⟨r, hfind, hr⟩ := Option.map_eq_some_iff.1 hl
  simp only [Prod.mk.injEq] at hr
  have hmem : r ∈ h.regions core := List.mem_of_find?_eq_some hfind
  have ha : r.Mem a.toNat := by simpa using List.find?_some hfind
  rw [hregs] at hmem
  rcases List.mem_append.1 hmem with hi | ht
  · simp [initMap_not_dram hi hr.1] at hd
  · exact ⟨r, ht, ha, hr.1, hr.2.symm⟩

/-- Each bank is backed from its own start by a block of its own. -/
theorem bank_unique {r r' : Region ℕ Backing} (hr : r ∈ banks) (hr' : r' ∈ banks)
    (hb : r.back = r'.back) : r = r' := by
  have hall : ∀ r ∈ banks, ∀ r' ∈ banks, r.back = r'.back → r = r' := by decide
  exact hall r hr r' hr' hb

theorem bank_org {r : Region ℕ Backing} (hr : r ∈ banks) : r.org = r.lo := by
  revert r; decide

theorem bank_isDram {r : Region ℕ Backing} (hr : r ∈ banks) {block : HostBlock}
    (hb : r.back = .host block) : block.isDram = true := by
  simp only [List.mem_cons, List.not_mem_nil, or_false] at hr
  rcases hr with rfl | rfl | rfl <;> (cases hb; rfl)

/-! ## One shared memory -/

/-- The byte at `a` as a memory shared by all cores has it: a store at `a` sets it, a load
at `a` must return it. -/
def shared (a : BitVec 64) : Monitor (BitVec 8) Moment where
  next k mo := match mo.call with
    | .store _ addr byte => if addr = a then byte else k
    | _ => k
  ok k mo := match mo.call with
    | .load _ addr value => addr = a → value = some k
    | _ => True

section Shared

variable {r : Region ℕ Backing} {block : HostBlock} {a : BitVec 64}

/-- Inside a slice, with the byte at `a` being `k`. -/
def SliceByte (core : Core) (r : Region ℕ Backing) (block : HostBlock) (a : BitVec 64) (h : Host) (k : BitVec 8) :
    Prop :=
  h.regions core = initMap ++ banks ∧ h.mem block (a.toNat - r.org) = k

theorem guestStep_shared (hr : r ∈ banks) (hb : r.back = .host block) (ha : r.Mem a.toNat)
    (core : Core) (act : GuestAct) :
    Triple (shared a) (SliceByte core r block a) (guestStep core act) (SliceByte core r block a) := by
  intro h k hk
  obtain ⟨hregs, hbyte⟩ := hk
  have hregs' : (guestStep core act h).1.regions core = initMap ++ banks := by
    rw [guestStep_regions]; exact hregs
  have hla : h.lookup core a = some (.host block, a.toNat - r.org) := by rw [lookup_bank hregs hr ha, hb]
  cases act with
  | load addr =>
    refine ⟨⟨?_, trivial⟩, hregs', hbyte⟩
    intro haddr
    rw [haddr]
    unfold Host.readByte
    rw [hla]
    exact congrArg some hbyte
  | gic g => exact ⟨⟨trivial, trivial⟩, hregs', hbyte⟩
  | smcCpuOn cpu => exact ⟨⟨trivial, trivial⟩, hregs', hbyte⟩
  | quit => exact ⟨⟨trivial, trivial⟩, hregs', hbyte⟩
  | store addr byte =>
    refine ⟨⟨trivial, trivial⟩, hregs', ?_⟩
    show (h.writeByte core addr byte).mem block (a.toNat - r.org) = if addr = a then byte else k
    by_cases haddr : addr = a
    · subst haddr
      rw [if_pos rfl]
      unfold Host.writeByte
      rw [hla]
      simp
    · rw [if_neg haddr]
      unfold Host.writeByte
      split
      · rename_i block' off' hl
        by_cases hbb : block' = block
        · subst hbb
          -- another address of the same bank has another offset
          obtain ⟨r', hr', ha', hb', hoff⟩ := bank_of_lookup hregs hl (bank_isDram hr hb)
          have hrr : r' = r := bank_unique hr' hr (hb'.trans hb.symm)
          subst hrr
          have hne : a.toNat - r'.org ≠ off' := by
            intro heq
            apply haddr
            apply BitVec.eq_of_toNat_eq
            have horg := bank_org hr
            have h1 := ha.1
            have h2 := ha'.1
            omega
          simp [Function.update_of_ne hne, hbyte]
        · simp [Function.update_of_ne (Ne.symm hbb), hbyte]
      · exact hbyte

theorem afterSlice_mem (core : Core) (x : Slice) (h : Host) :
    (afterSlice core x h).mem = (guestRun core x.acts h).1.mem := by
  unfold afterSlice
  dsimp only [Host.withBanks]
  split <;> rfl

theorem slice_shared (hr : r ∈ banks) (hb : r.back = .host block) (ha : r.Mem a.toNat)
    (core : Core) (x : Slice) :
    Triple (shared a) (fun h k => h.Idle ∧ h.mem block (a.toNat - r.org) = k) (ucCoreRunSlice core x)
      (fun h k => h.Idle ∧ h.mem block (a.toNat - r.org) = k) := by
  rintro h k ⟨hi, hk⟩
  obtain ⟨hacc, -, hbyte⟩ := Triple.forEach (guestStep_shared hr hb ha core) x.acts
    (h.withBanks core banks) k ⟨by simp [Host.withBanks], hk⟩
  rw [slice_eq core x hi]
  dsimp only
  -- the calls around the guest leave the monitor alone
  have hpre : (shared a).Accepts k (beforeGuest core h) ∧ (shared a).run k (beforeGuest core h) = k := by
    simp [beforeGuest, shared]
  have hpost : ∀ k h', (shared a).Accepts k (afterGuest core x h') ∧
      (shared a).run k (afterGuest core x h') = k := by
    simp [afterGuest, shared]
  rw [Monitor.accepts_append, Monitor.accepts_append, Monitor.run_append, Monitor.run_append, hpre.2,
    (hpost _ _).2, afterSlice_mem]
  exact ⟨⟨⟨hpre.1, hacc⟩, (hpost _ _).1⟩, idle_withBanks_nil core _, hbyte⟩

theorem init_mem (mem : HostBlock → ℕ → BitVec 8) : (Host.init mem).mem = mem := by
  have h : ∀ (core : Core) (h : Host), (ucInit core h).mem = h.mem := fun _ _ => rfl
  show (ucInit 3 (ucInit 2 (ucInit 1 (ucInit 0 (Host.zero mem))))).mem = mem
  rw [h, h, h, h]
  rfl

/-- **Inside a bank, memory is one memory shared by all cores.** -/
theorem bank_shared (hr : r ∈ banks) (hb : r.back = .host block) (ha : r.Mem a.toNat)
    (mem : HostBlock → ℕ → BitVec 8) (xs : List (Core × Slice)) :
    (shared a).Accepts (mem block (a.toNat - r.org)) (sliceRun mem xs).2 := by
  have hloop := Triple.forEach (fun x : Core × Slice => slice_shared hr hb ha x.1 x.2) xs
  exact (hloop (Host.init mem) _ ⟨idle_init mem, by rw [init_mem]⟩).1

end Shared

/-! ## Guest DRAM as it is meant to be -/

theorem idle_sliceRun (mem : HostBlock → ℕ → BitVec 8) (xs : List (Core × Slice)) :
    (sliceRun mem xs).1.Idle := by
  unfold sliceRun
  exact Cmd.forEach_inv (I := Host.Idle) (fun x _ hi => slice_idle x.1 x.2 hi) xs (idle_init mem)

theorem sliceRun_moment {mem : HostBlock → ℕ → BitVec 8} {xs : List (Core × Slice)} {mo : Moment}
    (hmo : mo ∈ (sliceRun mem xs).2) : ∃ ts, MapsAt mo ts := by
  obtain ⟨pre, x, post, -, hx⟩ := Cmd.mem_forEach hmo
  exact (slice_moment (idle_sliceRun mem pre) hx).2

/-- The moments of a slice that does nothing, run by core 0 on the initial host. -/
theorem one_slice (mem : HostBlock → ℕ → BitVec 8) :
    (sliceRun mem [(0, ⟨[], 0, 0⟩)]).2 = beforeGuest 0 (Host.init mem) ++ (guestRun 0 [] (Host.init mem)).2 ++
      afterGuest 0 ⟨[], 0, 0⟩ (afterSlice 0 ⟨[], 0, 0⟩ (Host.init mem)) := by
  unfold sliceRun
  rw [Cmd.forEach_cons, slice_eq 0 _ (idle_init mem), Cmd.forEach_nil, List.append_nil]

theorem one_slice_emu (mem : HostBlock → ℕ → BitVec 8) :
    ⟨.emuStart 0, (Host.init mem).withBanks 0 banks⟩ ∈ (sliceRun mem [(0, ⟨[], 0, 0⟩)]).2 := by
  rw [one_slice]
  simp [beforeGuest]

/-- The guest addresses of DRAM. -/
def InBanks (a : BitVec 64) : Prop := 0x80000000 ≤ a.toNat ∧ a.toNat < 0x80000000 + 3 * 0x40000000

/-- The bank meant for a guest address. -/
def bankOf (a : BitVec 64) : HostBlock :=
  match (a.toNat - 0x80000000) / 0x40000000 with
  | 0 => .dram
  | 1 => .dram2
  | _ => .dram3

/-- The offset in its bank meant for a guest address. -/
def offOf (a : BitVec 64) : ℕ := (a.toNat - 0x80000000) % 0x40000000

/-- Guest DRAM is what it is meant to be at an address. A guest address of DRAM is
backed by its byte inside every slice, and loads there return what was last stored by
any core; another address is never backed by DRAM. -/
structure CoherentAt (a : BitVec 64) : Prop where
  backed : InBanks a → ∀ mem xs, ∀ mo ∈ (sliceRun mem xs).2, mo.call.phase = .emu →
    mo.host.lookup mo.call.core a = some (.host (bankOf a), offOf a)
  coherent : InBanks a → ∀ mem xs, (shared a).Accepts (mem (bankOf a) (offOf a)) (sliceRun mem xs).2
  outside : ¬InBanks a → ∀ mem xs, ∀ mo ∈ (sliceRun mem xs).2, ∀ c block off,
    mo.host.lookup c a = some (.host block, off) → block.isDram = false

theorem bankOf_isDram (a : BitVec 64) : (bankOf a).isDram = true := by
  unfold bankOf; split <;> rfl

/-- The first two banks are where they are meant to be. -/
theorem bank_of_inBanks {a : BitVec 64} (h : InBanks a) (hlt : a.toNat < 0x100000000) :
    ∃ r ∈ banks, r.Mem a.toNat ∧ r.back = .host (bankOf a) ∧ a.toNat - r.org = offOf a := by
  obtain ⟨h1, h2⟩ := h
  rcases Nat.lt_or_ge a.toNat 0xC0000000 with hlo | hhi
  · have hdiv : (a.toNat - 0x80000000) / 0x40000000 = 0 := by omega
    refine ⟨bank, by simp, ⟨h1, hlo⟩, by simp [bank, bankOf, hdiv], ?_⟩
    simp only [bank, offOf]
    omega
  · have hdiv : (a.toNat - 0x80000000) / 0x40000000 = 1 := by omega
    refine ⟨bank2, by simp, ⟨hhi, hlt⟩, by simp [bank2, bankOf, hdiv], ?_⟩
    simp only [bank2, offOf]
    omega

/-- No bank is mapped from `0x100000000` on. -/
theorem bank_lt {r : Region ℕ Backing} (hr : r ∈ banks) {a : ℕ} (ha : r.Mem a) :
    a < 0x40000000 ∨ 0x80000000 ≤ a ∧ a < 0x100000000 := by
  simp only [List.mem_cons, List.not_mem_nil, or_false] at hr
  rcases hr with rfl | rfl | rfl
  · have h1 : 0x80000000 ≤ a := ha.1
    have h2 : a < 0xC0000000 := ha.2
    omega
  · have h1 : 0xC0000000 ≤ a := ha.1
    have h2 : a < 0x100000000 := ha.2
    omega
  · exact .inl ha.2

/-- **Where guest DRAM is what it is meant to be**: not where the third bank is mapped,
and not where it is missing. -/
theorem dram_coherent_iff (a : BitVec 64) :
    CoherentAt a ↔ ¬a.toNat < 0x40000000 ∧ ¬(0x100000000 ≤ a.toNat ∧ a.toNat < 0x140000000) := by
  have hregs : ∀ h : Host, (h.withBanks 0 banks).regions 0 = initMap ++ banks :=
    fun _ => rfl
  constructor
  · intro h
    refine ⟨?_, fun ⟨hge, hlt⟩ => ?_⟩
    · -- the third bank is mapped there, outside guest DRAM
      intro hlt
      have hl := lookup_bank (hregs (Host.init fun _ _ => 0)) (r := bank3) (by simp) (a := a) ⟨Nat.zero_le _, hlt⟩
      have hout : ¬InBanks a := fun hin => by have := hin.1; omega
      have := h.outside hout _ _ _ (one_slice_emu fun _ _ => 0) 0 .dram3 _ hl
      simp [HostBlock.isDram] at this
    · -- guest DRAM's third bank, where no bank is mapped
      have hin : InBanks a := ⟨by omega, by omega⟩
      have hl := h.backed hin _ _ _ (one_slice_emu fun _ _ => 0) rfl
      obtain ⟨r, hr, ha, -⟩ := bank_of_lookup (hregs _) hl (bankOf_isDram a)
      have := bank_lt hr ha
      omega
  · rintro ⟨h1, h2⟩
    refine ⟨?_, ?_, ?_⟩
    · intro hin mem xs mo hmo hp
      obtain ⟨ts, hts⟩ := sliceRun_moment hmo
      have hr0 := hts.regions mo.call.core
      rw [if_pos rfl, hts.emu hp] at hr0
      obtain ⟨r, hr, ha, hb, hoff⟩ := bank_of_inBanks hin (by have := hin.2; omega)
      rw [lookup_bank hr0 hr ha, hb, hoff]
    · intro hin mem xs
      obtain ⟨r, hr, ha, hb, hoff⟩ := bank_of_inBanks hin (by have := hin.2; omega)
      rw [← hoff]
      exact bank_shared hr hb ha mem xs
    · intro hout mem xs mo hmo c block off hl
      by_contra hd
      obtain ⟨ts, hts⟩ := sliceRun_moment hmo
      have hr0 := hts.regions c
      have hd' : block.isDram = true := by simpa using hd
      have hbank : ∃ r ∈ banks, r.Mem a.toNat := by
        by_cases hc : c = mo.call.core
        · rw [if_pos hc] at hr0
          obtain ⟨r, hr, ha, -⟩ := bank_of_lookup hr0 hl hd'
          exact ⟨r, hts.subset hr, ha⟩
        · rw [if_neg hc, ← List.append_nil initMap] at hr0
          obtain ⟨r, hr, -⟩ := bank_of_lookup hr0 hl hd'
          simp at hr
      obtain ⟨r, hr, ha⟩ := hbank
      have hlt := bank_lt hr ha
      exact hout ⟨by omega, by omega⟩

/-- The first byte of the third bank, `0x100000000`, is not backed in a slice. -/
theorem third_bank_missing : ¬∀ a, CoherentAt a := by
  intro h
  have hregs : ((Host.init fun _ _ => 0).withBanks 0 banks).regions 0 =
      initMap ++ banks := rfl
  have hl := (h 0x100000000).backed ⟨by decide, by decide⟩ _ _ _ (one_slice_emu fun _ _ => 0) rfl
  obtain ⟨r, hr, ha, -⟩ := bank_of_lookup hregs hl (bankOf_isDram _)
  have hlt := bank_lt hr ha
  have : (0x100000000 : BitVec 64).toNat = 0x100000000 := by decide
  omega

/-! ## `paddr_to_alloc` -/

/-- The ranges of `paddr_to_alloc`, with their bounds and offsets evaluated. -/
theorem paddrToAlloc_eq (a : BitVec 64) : paddrToAlloc a =
    if 0x80000000 < a ∧ a ≤ 0xC0000000 then some ⟨.dram, a - 0x80000000⟩
    else if 0 < a ∧ a ≤ 0x40000000 then some ⟨.dram3, a⟩
    else if 0x40000000 < a ∧ a ≤ 0x80000000 then some ⟨.dram4, a - 0x40000000⟩
    else none := by
  have e1 : dramBase.setWidth 64 = 0x80000000 := by decide
  have e2 : (dramBase + dramSize).setWidth 64 = (0xC0000000 : BitVec 64) := by decide
  have e3 : (dramBase + dramSize * 1).setWidth 64 = (0xC0000000 : BitVec 64) := by decide
  have e4 : (dramBase + dramSize * 2).setWidth 64 = (0 : BitVec 64) := by decide
  have e5 : (dramBase + dramSize * 3).setWidth 64 = (0x40000000 : BitVec 64) := by decide
  have e6 : (dramBase + dramSize * 4).setWidth 64 = (0x80000000 : BitVec 64) := by decide
  have e7 : (dramSize * 2).signExtend 64 = (0xFFFFFFFF80000000 : BitVec 64) := by decide
  have e8 : (dramSize * 3).signExtend 64 = (0xFFFFFFFFC0000000 : BitVec 64) := by decide
  have h3 : a - 0x80000000 - 0xFFFFFFFF80000000 = a := by bv_omega
  have h4 : a - 0x80000000 - 0xFFFFFFFFC0000000 = a - 0x40000000 := by bv_omega
  have hempty : ¬(0xC0000000 < a ∧ a ≤ 0) := by bv_omega
  unfold paddrToAlloc
  rw [e1, e2, e3, e4, e5, e6, e7, e8, h3, h4, if_neg hempty]

/-- The map calls of slices: base, size and block. -/
theorem map_call {mem : HostBlock → ℕ → BitVec 8} {xs : List (Core × Slice)} {mo : Moment}
    (hmo : mo ∈ (sliceRun mem xs).2) {c : Core} {addr size : BitVec 64} {block : HostBlock} {ok : Bool}
    (hcall : mo.call = .memMapPtr c addr size block ok) :
    size = 0x40000000 ∧ (addr = 0x80000000 ∧ block = .dram ∨ addr = 0xC0000000 ∧ block = .dram2 ∨
      addr = 0 ∧ block = .dram3) := by
  obtain ⟨pre, x, post, -, hx⟩ := Cmd.mem_forEach hmo
  have hx' : mo ∈ (ucCoreRunSlice x.1 x.2 (sliceRun mem pre).1).2 := hx
  rcases slice_parts (idle_sliceRun mem pre) hx' with hpre | hg | hpost
  · simp only [beforeGuest, List.mem_cons, List.not_mem_nil, or_false] at hpre
    rcases hpre with rfl | rfl | rfl | rfl | rfl
    · simp at hcall
    · cases hcall; exact ⟨by decide, .inl ⟨by decide, rfl⟩⟩
    · cases hcall; exact ⟨by decide, .inr (.inl ⟨by decide, rfl⟩)⟩
    · cases hcall; exact ⟨by decide, .inr (.inr ⟨by decide, rfl⟩)⟩
    · simp at hcall
  · have hphase := (guest_moment hg).2.2
    rw [hcall] at hphase
    simp [RunCall.phase] at hphase
  · simp only [afterGuest, List.mem_cons, List.not_mem_nil, or_false] at hpost
    rcases hpost with rfl | rfl | rfl | rfl | rfl <;> simp at hcall

/-- Every slice maps the three banks. -/
theorem map_call_exists (mem : HostBlock → ℕ → BitVec 8) {addr : BitVec 64} {block : HostBlock}
    (h : addr = 0x80000000 ∧ block = .dram ∨ addr = 0xC0000000 ∧ block = .dram2 ∨ addr = 0 ∧ block = .dram3) :
    ∃ mo ∈ (sliceRun mem [(0, ⟨[], 0, 0⟩)]).2, mo.call = .memMapPtr 0 addr 0x40000000 block true := by
  rw [one_slice]
  have hin : ∀ mo ∈ beforeGuest 0 (Host.init mem), mo ∈ beforeGuest 0 (Host.init mem) ++
      (guestRun 0 [] (Host.init mem)).2 ++ afterGuest 0 ⟨[], 0, 0⟩ (afterSlice 0 ⟨[], 0, 0⟩ (Host.init mem)) :=
    fun mo hmo => List.mem_append_left _ (List.mem_append_left _ hmo)
  rcases h with ⟨rfl, rfl⟩ | ⟨rfl, rfl⟩ | ⟨rfl, rfl⟩
  · exact ⟨_, hin ⟨_, (Host.init mem).withBanks 0 [bank]⟩ (.tail _ (.head _)), rfl⟩
  · exact ⟨_, hin ⟨_, (Host.init mem).withBanks 0 [bank, bank2]⟩ (.tail _ (.tail _ (.head _))), rfl⟩
  · exact ⟨_, hin ⟨_, (Host.init mem).withBanks 0 banks⟩ (.tail _ (.tail _ (.tail _ (.head _)))), rfl⟩

/-- `paddr_to_alloc` and the guest's mappings agree at an address: in a range that a
slice maps, it is the pointer to the byte behind the address, and a pointer it returns is
inside its bank. -/
structure AgreeAt (a : BitVec 64) : Prop where
  mapped : ∀ mem xs, ∀ mo ∈ (sliceRun mem xs).2, ∀ c addr size block,
    mo.call = .memMapPtr c addr size block true → addr.toNat ≤ a.toNat →
    a.toNat < addr.toNat + size.toNat → paddrToAlloc a = some ⟨block, a - addr⟩
  inside : ∀ p, paddrToAlloc a = some p → p.off.toNat < dramSize.toNat

/-- **Where `paddr_to_alloc` agrees with the guest's mappings**: not at the first byte of
the two lower banks, not one past a bank's end, and nowhere in the second bank. -/
theorem host_guest_agree_iff (a : BitVec 64) : AgreeAt a ↔
    a ≠ 0 ∧ a ≠ 0x40000000 ∧ a ≠ 0x80000000 ∧ ¬(0xC0000000 ≤ a ∧ a ≤ 0xFFFFFFFF) := by
  have hsize : dramSize.toNat = 0x40000000 := by decide
  have hmapped : ∀ {addr block}, AgreeAt a → (addr = 0x80000000 ∧ block = HostBlock.dram ∨
      addr = 0xC0000000 ∧ block = .dram2 ∨ addr = 0 ∧ block = .dram3) → addr.toNat ≤ a.toNat →
      a.toNat < addr.toNat + 0x40000000 → paddrToAlloc a = some ⟨block, a - addr⟩ := by
    intro addr block h hb hlo hhi
    obtain ⟨mo, hmo, hcall⟩ := map_call_exists (fun _ _ => 0) hb
    exact h.mapped _ _ mo hmo 0 addr _ block hcall hlo hhi
  constructor
  · intro h
    refine ⟨?_, ?_, ?_, ?_⟩
    · rintro rfl
      have := hmapped h (.inr (.inr ⟨rfl, rfl⟩)) (by decide) (by decide)
      exact absurd this (by decide)
    · rintro rfl
      have := h.inside ⟨.dram3, 0x40000000⟩ (by decide)
      exact absurd this (by decide)
    · rintro rfl
      have := hmapped h (.inl ⟨rfl, rfl⟩) (by decide) (by decide)
      exact absurd this (by decide)
    · rintro ⟨hlo, hhi⟩
      have := hmapped h (.inr (.inl ⟨rfl, rfl⟩)) (by bv_omega) (by bv_omega)
      rw [paddrToAlloc_eq] at this
      split at this
      · simp at this
      · rw [if_neg (by bv_omega), if_neg (by bv_omega)] at this
        simp at this
  · rintro ⟨h0, h1, h2, h3⟩
    refine ⟨?_, ?_⟩
    · intro mem xs mo hmo c addr size block hcall hlo hhi
      obtain ⟨rfl, ⟨rfl, rfl⟩ | ⟨rfl, rfl⟩ | ⟨rfl, rfl⟩⟩ := map_call hmo hcall
      · rw [paddrToAlloc_eq, if_pos (by bv_omega)]
      · exact absurd ⟨by bv_omega, by bv_omega⟩ h3
      · rw [paddrToAlloc_eq, if_neg (by bv_omega), if_pos (by bv_omega)]
        simp
    · intro p hp
      rw [paddrToAlloc_eq] at hp
      rw [hsize]
      split at hp
      · cases hp; dsimp only; bv_omega
      · split at hp
        · cases hp; dsimp only; bv_omega
        · split at hp
          · cases hp; dsimp only; bv_omega
          · simp at hp

/-- At the first byte of the first bank `paddr_to_alloc` points behind the end of the fourth. -/
theorem first_byte_disagrees : ¬∀ a, AgreeAt a := by
  intro h
  have := (h 0x80000000).inside ⟨.dram4, 0x40000000⟩ (by decide)
  exact absurd this (by decide)

end Mooooooo
