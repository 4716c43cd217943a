import Mooooooo.Proof.Hooks
import Mooooooo.Proof.Machine
import Mooooooo.Proof.WalkMemory

/-!
# What the hooks read in memory

`hook_code` stops an engine for the words that it reads in memory, and others print the page
tables that they find there. Memory is what all cores and the hooks themselves have stored.

* `Fetch`: the array of bytes, and where the stopping of one core stands.
* `core_stops`: **a core stops at the words that memory holds**, in every run.
* `tables_walked`: **the tables that are walked are those of the guests**, in every run.
-/

namespace Mooooooo

/-! ## Words of the array -/

/-- The word at an address of the array, if all its bytes are memory. -/
def flatWord (flat : BitVec 64 → Option (BitVec 8)) (addr : BitVec 64) : Option (BitVec 32) :=
  ucMemRead (fun a => if a < 2 ^ 64 then flat (BitVec.ofNat 64 a) else none) addr

theorem ucMemRead_flat {h : Host} {core : Core} (hregs : h.regions core = guestMap) (addr : BitVec 64) :
    ucMemRead (h.engineMem core) addr = flatWord (flatMem h.mem) addr := by
  unfold flatWord
  congr 1
  funext a
  exact engineMem_flat hregs a

/-! ## Reading the records -/

/-- The array of bytes, and of one core: a `SEVL` that no `WFE` has used up, and whether it is to stop. -/
structure Fetch where
  flat : BitVec 64 → Option (BitVec 8)
  sevled : Bool
  stopping : Bool

def Fetch.next (c : Core) (k : Fetch) : EmuRec → Fetch
  | .host ⟨.store _ addr byte, _⟩ => { k with flat := putFlat k.flat addr byte }
  | .code e _ =>
    if e.core = c then { k with
      sevled := decide (e.insn = some sevl) || (decide (e.insn ≠ some wfe) && k.sevled)
      stopping := decide (e.insn = some wfe) && !k.sevled }
    else k
  | _ => k

/-- A call of `hook_code` reads the word that is there, and stops core `c` where that is due. -/
def Fetch.stops (c : Core) (k : Fetch) : EmuRec → Prop
  | .code e calls =>
    (∀ word, flatWord k.flat e.address = some word → e.insn = some word) ∧
      (.emuStop c ∈ calls ↔ e.core = c ∧ k.stopping = true)
  | _ => True

/-- A walk whose tables the array has in the first bank of DRAM is the walk of these. -/
def WalksFlat (flat : BitVec 64 → Option (BitVec 8)) : EmuRec → Prop
  | .walk _ _ ttbr addr calls =>
    TablesInDram (flatDram flat) (ttbr.1 &&& 0xFFFFFFFF) → TablesInDram (flatDram flat) (ttbr.2 &&& 0xFFFFFFFF) →
      calls = ucMmuWalk (flatDram flat) ttbr.1 ttbr.2 addr
  | _ => True

/-- What `hook_code` does to core `c`. -/
def stops (c : Core) : Monitor Fetch EmuRec := ⟨Fetch.next c, Fetch.stops c⟩

/-- What is walked. -/
def walked : Monitor (BitVec 64 → Option (BitVec 8)) EmuRec where
  next k o := match o with
    | .host ⟨.store _ addr byte, _⟩ => putFlat k addr byte
    | _ => k
  ok := WalksFlat

/-- Both. -/
def fetches (c : Core) : Monitor Fetch EmuRec := ⟨Fetch.next c, fun k o => k.stops c o ∧ WalksFlat k.flat o⟩

section Rule

variable {c : Core}

/-- What the records must tell of the state. -/
def Emulator.fetch (c : Core) (s : Emulator) : Fetch := ⟨flatMem s.host.mem, s.gHasSevl c, s.gShouldStop c⟩

/-- Under the guest of a core. -/
def Fetches (c core : Core) (s : Emulator) (k : Fetch) : Prop := s.host.regions core = guestMap ∧ s.fetch c = k

/-- A moment that is no store. -/
theorem host_unfetched {mo : Moment} (h : ∀ core addr byte, mo.call ≠ .store core addr byte) :
    (fetches c).Ignores (.host mo) := by
  intro k
  obtain ⟨call, host⟩ := mo
  cases call with
  | store core addr byte => exact absurd rfl (h core addr byte)
  | _ => exact ⟨rfl, trivial, trivial⟩

/-- An effect on the host that is no store. -/
theorem act_fetches (core : Core) {act : GuestAct} (hact : ∀ addr byte, act ≠ .store addr byte) :
    Triple (fetches c) (Fetches c core) (guestAct core act) (Fetches c core) := by
  cases act with
  | store addr byte => exact absurd rfl (hact addr byte)
  | _ =>
    refine .quiet (fun _ _ hs => hs) fun s o ho => ?_
    rw [List.mem_singleton.1 ho]
    exact host_unfetched (by rintro core' addr byte ⟨⟩)

theorem store_fetches (core : Core) (addr : BitVec 64) (byte : BitVec 8) :
    Triple (fetches c) (Fetches c core) (guestAct core (.store addr byte)) (Fetches c core) := by
  rintro s k ⟨hregs, rfl⟩
  refine ⟨⟨⟨trivial, trivial⟩, trivial⟩, ?_, ?_⟩
  · show (guestStep core (.store addr byte) s.host).1.regions core = guestMap
    rw [guestStep_regions]
    exact hregs
  · show Fetch.mk (flatMem (s.host.writeByte core addr byte).mem) _ _ =
      Fetch.mk (putFlat (flatMem s.host.mem) addr byte) _ _
    rw [writeByte_flat hregs]
    rfl

/-! ## Events -/

/-- **A call of `hook_code`** reads memory, stops its engine and moves the two flags of its core. -/
theorem code_fetches (core : Core) (address : BitVec 64) (insn : Option (BitVec 32)) :
    Triple (fetches c) (Fetches c core) (emuCode core address insn) (Fetches c core) := by
  intro s k hs
  let e : CodeCall := ⟨core, address, (ucMemRead (s.host.engineMem core) address).or insn⟩
  have hread : ∀ word, flatWord k.flat address = some word → e.insn = some word := by
    intro word hword
    obtain ⟨hregs, rfl⟩ := hs
    show (ucMemRead (s.host.engineMem core) address).or insn = some word
    rw [ucMemRead_flat hregs]
    exact congrArg (Option.or · insn) hword
  have hcall : ∀ call, Triple (fetches c) (Fetches c core) (hookCallEffect core call) (Fetches c core) := by
    intro call
    cases call with
    | emuStop c' => exact .skip
    | hang c' a => exact act_fetches core (by simp)
  refine Triple.andThen (R := fun s' k' => s' = s ∧ k' = k) ?_ (.forEach hcall _) s k ⟨rfl, rfl⟩
  rintro s' k' ⟨rfl, rfl⟩
  obtain ⟨hregs, rfl⟩ := hs
  refine ⟨⟨⟨⟨hread, hookCode_emuStop e s'.hookState c⟩, trivial⟩, trivial⟩, hregs, ?_⟩
  show Fetch.mk _ ((hookCode e s'.hookState).1.gHasSevl c) ((hookCode e s'.hookState).1.gShouldStop c) =
    (s'.fetch c).next c (.code e (hookCode e s'.hookState).2)
  rw [hookCode_eq]
  unfold Fetch.next
  by_cases hc : core = c
  · subst hc
    simp [e, Emulator.fetch, Emulator.hookState]
  · have hne : e.core ≠ c := hc
    dsimp only
    rw [if_neg hne, Function.update_of_ne (Ne.symm hc), Function.update_of_ne (Ne.symm hc)]
    rfl

theorem engineCall_fetches (core : Core) (call : EngineCall) :
    Triple (fetches c) (Fetches c core) (engineCall core call) (Fetches c core) := by
  cases call with
  | regWrite engine reg val => exact .quiet (fun _ _ hs => hs) (.emit fun _ _ => ⟨rfl, trivial, trivial⟩)
  | memWrite addr word =>
    refine .guard ?_
    unfold wordStores
    rw [List.mapIdx_eq_zipIdx_map, Cmd.forEach_map]
    exact .forEach (fun _ => store_fetches core _ _) _
  | setOnline cpu => exact act_fetches core (by simp)
  | setQuit => exact act_fetches core (by simp)

theorem exception_fetches (core : Core) (exceptno : BitVec 32) (i : ExceptionIn) :
    Triple (fetches c) (Fetches c core) (emuException core exceptno i) (Fetches c core) := by
  intro s k hs
  unfold emuException
  split
  · refine Triple.andThen (R := Fetches c core) (.quiet (fun _ _ hs => hs) (.emit ?_))
      (.forEach (engineCall_fetches core) _) s k hs
    exact fun _ _ => ⟨rfl, trivial, trivial⟩
  · exact ⟨⟨⟨trivial, trivial⟩, trivial⟩, hs⟩

/-- **A walk** reads the tables that the guests see, whatever else is read. -/
theorem reads_fetches {core : Core} {cmd : Cmd Emulator EmuRec} (h : Reads core cmd) :
    Triple (fetches c) (Fetches c core) cmd (Fetches c core) := by
  refine .stays (fun s k hs => ?_) fun s k hs o ho => ?_
  · obtain ⟨f, hend⟩ := (h s).1
    rw [hend]
    exact hs
  · rcases (h s).2 o ho with ⟨engine, ttbr, addr, rfl⟩ | ⟨ptr, rfl⟩
    · obtain ⟨-, rfl⟩ := hs
      refine ⟨rfl, trivial, fun h0 h1 => ?_⟩
      -- these tables are in the first bank, so the walk does not fault
      rw [walk_agrees s.host.mem addr h0 h1]
      exact walkReached_of_tables h0 h1
    · exact ⟨rfl, trivial, trivial⟩

theorem event_fetches (core : Core) (e : GuestEvent) :
    Triple (fetches c) (Fetches c core) (guestEvent core e) (Fetches c core) := by
  cases e with
  | regs reg => exact .quiet (fun _ _ hs => hs) (.emit fun _ _ => ⟨rfl, trivial, trivial⟩)
  | load addr => exact act_fetches core (by simp)
  | store addr byte => exact store_fetches core addr byte
  | read addr size timeUs =>
    exact .read (m := fetches c) (fun _ _ _ _ _ _ _ => ⟨rfl, trivial, trivial⟩)
      (fun _ => act_fetches core (by simp)) addr size timeUs
  | write addr data size =>
    exact .write (m := fetches c) (fun _ _ _ _ _ _ _ => ⟨rfl, trivial, trivial⟩)
      (fun _ _ _ _ => ⟨rfl, trivial, trivial⟩) (fun _ => act_fetches core (by simp))
      (fun _ _ _ _ hs => hs) addr data size
  | code address insn => exact code_fetches core address insn
  | exception exceptno i =>
    exact (reads_fetches (hook_reads core exceptno i)).andThen (.guard (exception_fetches core exceptno i))
  | invalid type address ttbr => exact reads_fetches (invalid_reads core type address ttbr)

/-! ## Slices -/

theorem fetchesRule : EmuRule (fetches c) (fun s k => s.host.Idle ∧ s.fetch c = k)
    (fun _ s k => s.host.Idle ∧ s.fetch c = k) (fun core s k => s.host.InSlice core ∧ s.fetch c = k) where
  inject core := by
    rintro s k ⟨⟨hi, rfl⟩, -, -⟩
    exact ⟨⟨⟨trivial, trivial⟩, trivial⟩, hi.inject core, rfl⟩
  enter core := by
    rintro s k ⟨hi, rfl⟩
    unfold enterSlice onHost
    rw [Cmd.andThen_apply, enterCalls_eq core hi]
    refine ⟨?_, fun c => rfl, ?_⟩
    · simp [beforeGuest, fetches, Fetch.stops, WalksFlat]
    · simp [beforeGuest, fetches, Fetch.next, Emulator.fetch, Host.withBanks]
  event core e := by
    rintro s k ⟨-, hin, hs⟩
    obtain ⟨hacc, -, hend⟩ := event_fetches core e s k ⟨(hin core).trans (if_pos rfl), hs⟩
    refine ⟨hacc, fun c => ?_, hend⟩
    rw [event_regions]
    exact hin c
  leave core x := by
    rintro s k ⟨-, hin, rfl⟩
    unfold leaveSlice onHost
    rw [leaveCalls_eq core ⟨[], x.err, x.ret⟩ hin]
    have hmem : (s.host.returned x.err).mem = s.host.mem := by
      unfold Host.returned
      split <;> rfl
    refine ⟨?_, idle_withBanks_nil core _, ?_⟩
    · simp [afterGuest, fetches, Fetch.stops, WalksFlat]
    · simp [afterGuest, fetches, Fetch.next, Emulator.fetch, Host.withBanks, hmem]

theorem run_fetches (mem : HostBlock → ℕ → BitVec 8) (reg : Core → Reg → BitVec 64) (xs : List EmuSlice) (c : Core) :
    (fetches c).Accepts ⟨flatMem mem, false, false⟩ (emulate mem reg xs).2 := by
  have hstart : (Emulator.start mem reg).fetch c = ⟨flatMem mem, false, false⟩ := by
    have hmem : (Emulator.start mem reg).host.mem = mem := init_mem mem
    unfold Emulator.fetch
    rw [hmem]
    rfl
  exact (fetchesRule.run mem reg ⟨start_idle mem, hstart⟩ xs).1

end Rule

/-- **A core stops at the words that memory holds.** In every run, `hook_code` reads the word that was last stored at
its address, by whichever core or hook, or was there in the beginning. It stops the engine of a core exactly at the
call after one that read a `WFE` with no `SEVL` read on that core since the `WFE` before. -/
theorem core_stops (mem : HostBlock → ℕ → BitVec 8) (reg : Core → Reg → BitVec 64) (xs : List EmuSlice) (c : Core) :
    (stops c).Accepts ⟨flatMem mem, false, false⟩ (emulate mem reg xs).2 := by
  have hok : ∀ k o, (fetches c).ok k o → (stops c).ok k o := fun _ _ h => h.1
  have hnext : ∀ k o, (stops c).next k o = (fetches c).next k o := fun _ _ => rfl
  exact (run_fetches mem reg xs c).map id hnext hok

/-- **The tables that are walked are those of the guests.** In every run, what `uc_mmu_walk` reads and prints, for a
missing access or a prefetch abort, is the walk of the tables that the guests have in memory at that moment, by
whichever core they were stored, as long as all of them are in the first bank of DRAM. -/
theorem tables_walked (mem : HostBlock → ℕ → BitVec 8) (reg : Core → Reg → BitVec 64) (xs : List EmuSlice) :
    walked.Accepts (flatMem mem) (emulate mem reg xs).2 := by
  refine (run_fetches mem reg xs 0).map (m := fetches 0) Fetch.flat (fun k o => ?_) fun _ _ h => h.2
  cases o with
  | host mo =>
    obtain ⟨call, host⟩ := mo
    cases call <;> rfl
  | code e calls =>
    show k.flat = (if e.core = _ then _ else k : Fetch).flat
    split <;> rfl
  | _ => rfl

end Mooooooo
