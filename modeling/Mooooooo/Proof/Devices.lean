import Mooooooo.Proof.Refinement
import Mooooooo.Proof.Uart

/-!
# The windows, over whole runs

* `accesses_decoded`: **the windows are where they are**, for every core and at every moment:
  an access reaches the device whose window its address is in, at the offset there.
* `uart_output`: what the emulator prints for a UART is what all cores together sent it.
* `mc_shared`: the memory controller is one set of registers for all cores.
-/

namespace Mooooooo

/-! ## Hooks and windows -/

/-- A record of an access to a window. -/
def EmuRec.OfWindow : EmuRec → Prop
  | .read _ _ _ _ _ | .write _ _ _ _ _ | .uart _ => True
  | _ => False

/-- The registers behind the windows, apart from the interrupt controller's. -/
def Emulator.devices (s : Emulator) : Fifos × McRegs := (s.fifos, s.mc)

theorem onHost_leaves (c : Cmd Host Moment) : Leaves (fun o => ¬o.OfWindow) (onHost c) := by
  intro s o ho
  obtain ⟨mo, -, rfl⟩ := List.mem_map.1 ho
  exact id

theorem onHost_keeps (c : Cmd Host Moment) : Keeps Emulator.devices (onHost c) := fun _ => rfl

theorem hookCall_apart (core : Core) (call : HookCall) :
    Keeps Emulator.devices (hookCallEffect core call) ∧ Leaves (fun o => ¬o.OfWindow) (hookCallEffect core call) := by
  cases call with
  | emuStop c => exact ⟨.skip, .skip⟩
  | hang c address => exact ⟨onHost_keeps _, onHost_leaves _⟩

theorem engineCall_apart (core : Core) (call : EngineCall) :
    Keeps Emulator.devices (engineCall core call) ∧ Leaves (fun o => ¬o.OfWindow) (engineCall core call) := by
  cases call with
  | regWrite engine reg val => exact ⟨fun _ => rfl, .emit fun _ => id⟩
  | memWrite addr word =>
    exact ⟨.guard (.forEach (fun _ => onHost_keeps _) _), .guard (.forEach (fun _ => onHost_leaves _) _)⟩
  | setOnline cpu => exact ⟨onHost_keeps _, onHost_leaves _⟩
  | setQuit => exact ⟨onHost_keeps _, onHost_leaves _⟩

theorem code_apart (core : Core) (address : BitVec 64) (insn : Option (BitVec 32)) :
    Keeps Emulator.devices (emuCode core address insn) ∧ Leaves (fun o => ¬o.OfWindow) (emuCode core address insn) := by
  constructor
  · intro s
    exact Keeps.andThen (fun _ => rfl) (.forEach (fun call => (hookCall_apart core call).1) _) s
  · intro s
    exact Leaves.andThen (.emit fun _ => id) (.forEach (fun call => (hookCall_apart core call).2) _) s

theorem exception_apart (core : Core) (exceptno : BitVec 32) (i : ExceptionIn) :
    Keeps Emulator.devices (emuException core exceptno i) ∧
      Leaves (fun o => ¬o.OfWindow) (emuException core exceptno i) := by
  constructor
  · intro s
    unfold emuException
    split
    · exact Keeps.andThen (fun _ => rfl) (.forEach (fun call => (engineCall_apart core call).1) _) s
    · rfl
  · intro s o ho
    unfold emuException at ho
    split at ho
    · exact Leaves.andThen (.emit fun _ => id) (.forEach (fun call => (engineCall_apart core call).2) _) s o ho
    · rw [List.mem_singleton] at ho
      subst ho
      exact id

/-- What a read leaves behind, wherever it goes. -/
theorem readTarget_apart (core : Core) (target : Option (Device × BitVec 64)) (size : BitVec 32) :
    Keeps Emulator.devices (readTarget core size target) ∧
      Leaves (fun o => ¬o.OfWindow) (readTarget core size target) := by
  rcases readTarget_cases core size target with h | ⟨off, h⟩ | ⟨off, h⟩
  · rw [h]; exact ⟨.skip, .skip⟩
  · rw [h]; exact ⟨onHost_keeps _, onHost_leaves _⟩
  · rw [h]; exact ⟨onHost_keeps _, onHost_leaves _⟩

theorem reads_apart {core : Core} {c : Cmd Emulator EmuRec} (h : Reads core c) :
    Keeps Emulator.devices c ∧ Leaves (fun o => ¬o.OfWindow) c :=
  ⟨h.keeps fun _ _ => rfl, h.leaves (fun _ _ _ _ => id) fun _ _ => id⟩

/-- **Only accesses to windows reach the devices.** -/
theorem event_apart (core : Core) (e : GuestEvent) :
    (Keeps Emulator.devices (guestEvent core e) ∧ Leaves (fun o => ¬o.OfWindow) (guestEvent core e)) ∨
      (∃ addr size timeUs, e = .read addr size timeUs) ∨ ∃ addr data size, e = .write addr data size := by
  cases e with
  | regs reg => exact .inl ⟨fun _ => rfl, .emit fun _ => id⟩
  | load addr => exact .inl ⟨onHost_keeps _, onHost_leaves _⟩
  | store addr byte => exact .inl ⟨onHost_keeps _, onHost_leaves _⟩
  | read addr size timeUs => exact .inr (.inl ⟨addr, size, timeUs, rfl⟩)
  | write addr data size => exact .inr (.inr ⟨addr, data, size, rfl⟩)
  | code address insn => exact .inl (code_apart core address insn)
  | exception exceptno i =>
    obtain ⟨hkeeps, hleaves⟩ := reads_apart (hook_reads core exceptno i)
    obtain ⟨hkeeps', hleaves'⟩ := exception_apart core exceptno i
    exact .inl ⟨hkeeps.andThen (.guard hkeeps'), .andThen hleaves (.guard hleaves')⟩
  | invalid type address ttbr => exact .inl (reads_apart (invalid_reads core type address ttbr))

/-! ## Where the windows are -/

/-- The address that a window is mapped at. -/
def Device.base : Device → BitVec 64
  | .timer => 0x60005000
  | .host1x => 0x50000000
  | .system => 0x6000C000
  | .mselect => 0x50060000
  | .gicd => 0x50041000
  | .gicc => 0x50042000
  | .mc => 0x70019000
  | .mc0 => 0x7001C000
  | .mc1 => 0x7001D000
  | .car => 0x60006000
  | .pinmux => 0x70003000
  | .uart => 0x70006000

def Device.size : Device → BitVec 64
  | .timer => 0x400
  | .host1x => 0x40000
  | .system => 0x800
  | .gicc => 0x2000
  | _ => 0x1000

/-- The address is in the window of the device, at the offset. -/
def Device.Decodes (dev : Device) (addr off : BitVec 64) : Prop :=
  addr = dev.base + off ∧ off < dev.size

/-- The line status registers of the UARTs. -/
def uartLsr : List (BitVec 64) := [0x14, 0x54, 0x214, 0x314, 0x414]

/-- What a window returns at an offset if that is always the same. A UART is always ready. -/
def Device.constant (off : BitVec 64) : Device → Option (BitVec 64)
  | .gicd | .gicc | .mc => none
  | .timer => if off = timerusCntr1us0 then none else some 0
  | .uart => some (if off ∈ uartLsr then 0x40 else 0)
  | _ => some 0

/-- An access goes to the device whose window its address is in, if there is one; a read returns what that has. -/
def EmuRec.Decoded : EmuRec → Prop
  | .read _ addr _ target value => (∀ dev off, target = some (dev, off) ↔ dev.Decodes addr off) ∧
    value.isSome = target.isSome ∧ ∀ dev off const, target = some (dev, off) → dev.constant off = some const →
      value = some const
  | .write _ addr _ _ target => ∀ dev off, target = some (dev, off) ↔ dev.Decodes addr off
  | _ => True

/-- The windows in the map of a guest. -/
theorem window_region {r : Region ℕ Backing} (hr : r ∈ initMap ++ banks) {dev : Device} (hb : r.back = .mmio dev) :
    r.lo = dev.base.toNat ∧ r.org = dev.base.toNat ∧ r.hi = dev.base.toNat + dev.size.toNat := by
  have hall : ∀ r ∈ initMap ++ banks, ∀ dev ∈ [Device.timer, .host1x, .system, .mselect, .gicd, .gicc, .mc, .mc0, .mc1,
      .car, .pinmux, .uart], r.back = .mmio dev →
      r.lo = dev.base.toNat ∧ r.org = dev.base.toNat ∧ r.hi = dev.base.toNat + dev.size.toNat := by decide
  exact hall r hr dev (by cases dev <;> simp) hb

/-- Each device has its window in the map of a guest. -/
theorem region_window (dev : Device) : ⟨dev.base.toNat, dev.base.toNat + dev.size.toNat, dev.base.toNat, .mmio dev⟩ ∈
    initMap ++ banks := by
  cases dev <;> decide

theorem Device.room (dev : Device) : dev.base.toNat + dev.size.toNat < 2 ^ 64 := by
  cases dev <;> decide

theorem Device.Decodes.toNat {dev : Device} {addr off : BitVec 64} (hd : dev.Decodes addr off) :
    addr.toNat = dev.base.toNat + off.toNat ∧ off.toNat < dev.size.toNat := by
  obtain ⟨haddr, hoff⟩ := hd
  rw [BitVec.lt_def] at hoff
  have hroom := dev.room
  refine ⟨?_, hoff⟩
  rw [haddr, BitVec.toNat_add]
  omega

/-- **Under a guest, its engine has every window where it is.** -/
theorem window_iff {h : Host} {core : Core} (hin : h.InSlice core) (addr off : BitVec 64) (dev : Device) :
    h.window core addr = some (dev, off) ↔ dev.Decodes addr off := by
  have hfind := fun r => Table.find_iff (r := r) disjoint_banks addr.toNat
  unfold Host.window Host.lookup
  rw [hin core, if_pos rfl]
  constructor
  · intro h
    split at h
    · rename_i dev' off' hl
      obtain ⟨r, hr, hback⟩ := Option.map_eq_some_iff.1 hl
      obtain ⟨hmem, hlo, hhi⟩ := (hfind r).1 hr
      simp only [Prod.mk.injEq, Option.some.injEq] at hback h
      obtain ⟨rfl, rfl⟩ := h
      obtain ⟨hrlo, hrorg, hrhi⟩ := window_region hmem hback.1
      have hlt := addr.isLt
      have hoff := hback.2
      refine ⟨BitVec.eq_of_toNat_eq ?_, ?_⟩
      · rw [BitVec.toNat_add, BitVec.toNat_ofNat]
        omega
      · rw [BitVec.lt_def, BitVec.toNat_ofNat]
        omega
    · simp at h
  · intro hd
    obtain ⟨haddr, hoff⟩ := hd.toNat
    have hr := (hfind _).2 ⟨region_window dev, by dsimp only [Region.Mem]; omega⟩
    rw [hr]
    simp [haddr]

theorem decoded_of_apart {o : EmuRec} (ho : ¬o.OfWindow) : o.Decoded := by
  cases o <;> first | trivial | exact absurd trivial ho

theorem writeTarget_decoded (core : Core) (target : Option (Device × BitVec 64)) (data : BitVec 64) (size : BitVec 32) :
    Leaves EmuRec.Decoded (writeTarget core data size target) := by
  intro s o ho
  rcases writeTarget_cases core data size target with ⟨a, h⟩ | h
  · rw [h] at ho
    exact decoded_of_apart (onHost_leaves _ s o ho)
  · obtain ⟨out, rfl⟩ := (h s).2 o ho
    trivial

theorem mmioUartRead_eq (off : BitVec 64) : mmioUartRead off = if off ∈ uartLsr then 0x40 else 0 := by
  have hlsr : off - uartOffsets (mmioUartAddrToId off) = 0x14 ↔ off ∈ uartLsr := by
    unfold mmioUartAddrToId uartLsr
    simp only [List.mem_cons, List.not_mem_nil, or_false]
    split_ifs <;> simp only [uartOffsets] <;> bv_omega
  unfold mmioUartRead
  dsimp only
  rw [if_congr hlsr rfl rfl]
  rfl

theorem readDevice_constant (core : Core) (s : Emulator) {dev : Device} {off const : BitVec 64} (size : BitVec 32)
    (timeUs : BitVec 64) (h : dev.constant off = some const) : s.readDevice core dev off size timeUs = const := by
  cases dev
  case timer =>
    obtain ⟨hoff, hconst⟩ := Option.ite_none_left_eq_some.1 h
    exact (if_neg hoff).trans (Option.some.inj hconst)
  case uart => exact (mmioUartRead_eq off).trans (Option.some.inj h)
  all_goals first | exact Option.some.inj h | exact absurd h (by simp [Device.constant])

theorem event_decoded (core : Core) (e : GuestEvent) (s : Emulator) (hin : s.host.InSlice core) :
    ∀ o ∈ (guestEvent core e s).2, o.Decoded := by
  rcases event_apart core e with ⟨-, h⟩ | ⟨addr, size, timeUs, rfl⟩ | ⟨addr, data, size, rfl⟩
  · exact fun o ho => decoded_of_apart (h s o ho)
  · intro o ho
    rcases List.mem_append.1 ho with ho | ho
    · rw [List.mem_singleton.1 ho]
      refine ⟨fun dev off => window_iff hin addr off dev, Option.isSome_map, fun dev off const htarget hconst => ?_⟩
      rw [htarget]
      exact congrArg some (readDevice_constant core s size timeUs hconst)
    · exact decoded_of_apart ((readTarget_apart core _ size).2 _ o ho)
  · intro o ho
    rcases List.mem_append.1 ho with ho | ho
    · rw [List.mem_singleton.1 ho]
      exact fun dev off => window_iff hin addr off dev
    · exact writeTarget_decoded core _ data size _ o ho

/-- All records are decoded, as long as the maps are those of the run loop. -/
theorem decodedRule : EmuRule (.always EmuRec.Decoded) (fun s _ => s.host.Idle ∧ True) (fun _ s _ => s.host.Idle ∧ True)
    (fun core s _ => s.host.InSlice core ∧ True) :=
  EmuRule.offHost (R := fun _ _ => True) (fun _ _ _ _ => trivial) (fun _ _ => ⟨rfl, trivial⟩)
    (fun _ _ _ _ => ⟨⟨trivial, trivial⟩, trivial⟩)
    fun core e s _ hs => ⟨Monitor.always_accepts.2 (event_decoded core e s hs.1), trivial⟩

/-- **An access goes to the device whose window its address is in**, in every run: the windows are the
same for every core at every moment, whatever is mapped besides. Those with nothing behind them always read the
same, whatever was written. -/
theorem accesses_decoded (mem : HostBlock → ℕ → BitVec 8) (reg : Core → Reg → BitVec 64) (xs : List EmuSlice) :
    (Monitor.always EmuRec.Decoded).Accepts () (emulate mem reg xs).2 :=
  (decodedRule.run mem reg ⟨start_idle mem, trivial⟩ xs).1

/-! ## The UARTs -/

/-- The UARTs, as a component of the emulator. -/
def uartView : Component Emulator EmuRec Fifos UartWrite UartOutput where
  part := Emulator.fifos
  inp
    | .write _ _ data size (some (.uart, off)) => [⟨off, data, size⟩]
    | _ => []
  out
    | .uart o => [o]
    | _ => []
  step := mmioUartWrite

theorem uartView_apart {c : Cmd Emulator EmuRec}
    (h : Keeps Emulator.devices c ∧ Leaves (fun o => ¬o.OfWindow) c) : uartView.Sees c := by
  refine .quiet (fun s => congrArg Prod.fst (h.1 s)) fun s o ho => ?_
  have hapart := h.2 s o ho
  cases o <;> first | exact ⟨rfl, rfl⟩ | exact absurd trivial hapart

theorem onHost_uart (c : Cmd Host Moment) : uartView.Sees (onHost c) := uartView_apart ⟨onHost_keeps c, onHost_leaves c⟩

/-- A write to the window of the UARTs, as the component sees it. -/
theorem writeDevice_uart (core : Core) (addr off data : BitVec 64) (size : BitVec 32) :
    uartView.Sees (Cmd.andThen (Cmd.emit id fun _ => .write core addr data size (some (.uart, off)))
      (writeDevice core .uart off data size)) := by
  intro s
  have houts : ∀ os : List UartOutput, uartView.inputs (os.map .uart) = [] ∧ uartView.outputs (os.map .uart) = os := by
    intro os
    unfold Component.inputs Component.outputs
    rw [List.flatMap_map, List.flatMap_map]
    exact ⟨List.flatMap_eq_nil_iff.2 fun _ _ => rfl, List.flatMap_singleton' os⟩
  have hwrite : Cmd.andThen (Cmd.emit id fun _ => .write core addr data size (some (.uart, off)))
      (writeDevice core .uart off data size) s = ({ s with fifos := (mmioUartWrite ⟨off, data, size⟩ s.fifos).1 },
        [.write core addr data size (some (.uart, off))] ++
          (mmioUartWrite ⟨off, data, size⟩ s.fifos).2.map .uart) := rfl
  rw [hwrite]
  dsimp only
  rw [uartView.inputs_append, uartView.outputs_append, (houts _).1, (houts _).2]
  have hone := Cmd.forEach_cons mmioUartWrite ⟨off, data, size⟩ [] s.fifos
  rw [Cmd.forEach_nil, List.append_nil] at hone
  exact hone

theorem write_uart (core : Core) (addr data : BitVec 64) (size : BitVec 32) :
    uartView.Sees (emuWrite core addr data size) := by
  have hrecord : ∀ dev off, dev ≠ .uart →
      uartView.Sees (Cmd.emit id fun _ => .write core addr data size (some (dev, off))) := by
    intro dev off hne
    refine .quiet (fun _ => rfl) (.emit fun _ => ⟨?_, rfl⟩)
    cases dev <;> first | rfl | exact absurd rfl hne
  intro s
  unfold emuWrite
  dsimp only
  cases s.host.window core addr with
  | none => exact Component.Sees.andThen (.quiet (fun _ => rfl) (.emit fun _ => ⟨rfl, rfl⟩)) .skip s
  | some t =>
    obtain ⟨dev, off⟩ := t
    cases dev
    case uart => exact writeDevice_uart core addr off data size s
    case gicd => exact (hrecord .gicd off (by simp)).andThen (onHost_uart _) s
    case gicc => exact (hrecord .gicc off (by simp)).andThen (onHost_uart _) s
    all_goals rfl

theorem event_uart (core : Core) (e : GuestEvent) : uartView.Sees (guestEvent core e) := by
  rcases event_apart core e with h | ⟨addr, size, timeUs, rfl⟩ | ⟨addr, data, size, rfl⟩
  · exact uartView_apart h
  · intro s
    exact Component.Sees.andThen (.quiet (fun _ => rfl) (.emit fun _ => ⟨rfl, rfl⟩))
      (uartView_apart (readTarget_apart core (s.host.window core addr) size)) s
  · exact write_uart core addr data size

/-- The character that a write sends to UART `k`, by the address on the bus. -/
def EmuRec.uartChar (k : UartId) : EmuRec → Option (BitVec 8)
  | .write _ addr data _ _ =>
    if addr = Device.uart.base + uartOffsets k ∧ data.setWidth 8 ≤ (0x7F : BitVec 8) then some (data.setWidth 8)
    else none
  | _ => none

/-- The characters that the cores send to UART `k`, oldest first. -/
def uartChars (k : UartId) (os : List EmuRec) : List (BitVec 8) := os.filterMap (EmuRec.uartChar k)

/-- What is printed for UART `k`. -/
def uartLines (k : UartId) (os : List EmuRec) : List (List (BitVec 8)) := printed k (uartView.outputs os)

theorem uartOffsets_lt (k : UartId) : uartOffsets k < Device.uart.size := by
  revert k
  decide

/-- The component gets the character of a record, and no other. -/
theorem uartChar_decoded {o : EmuRec} (ho : o.Decoded) (k : UartId) :
    (uartView.inp o).filterMap (fun w => w.thr k) = (o.uartChar k).toList := by
  cases o with
  | write core addr data size target =>
    by_cases ht : ∃ off, target = some (.uart, off)
    · obtain ⟨off, rfl⟩ := ht
      have haddr : addr = Device.uart.base + off := ((ho .uart off).1 rfl).1
      have hoff : off = uartOffsets k ↔ addr = Device.uart.base + uartOffsets k := by
        rw [haddr]
        constructor <;> intro h <;> bv_omega
      have hchar : UartWrite.thr ⟨off, data, size⟩ k =
          EmuRec.uartChar k (.write core addr data size (some (.uart, off))) := by
        unfold UartWrite.thr EmuRec.uartChar UartWrite.val
        simp only [hoff]
      show [(⟨off, data, size⟩ : UartWrite)].filterMap (fun w => w.thr k) = _
      rw [← hchar]
      cases h : UartWrite.thr ⟨off, data, size⟩ k <;> simp [h]
    · -- an address of another window is not the UART's
      have hinp : uartView.inp (.write core addr data size target) = [] := by
        cases target with
        | none => rfl
        | some t =>
          obtain ⟨dev, off⟩ := t
          cases dev <;> first | rfl | exact absurd ⟨off, rfl⟩ ht
      have hnone : EmuRec.uartChar k (.write core addr data size target) = none :=
        if_neg fun h => ht ⟨uartOffsets k, (ho .uart _).2 ⟨h.1, uartOffsets_lt k⟩⟩
      rw [hinp, hnone]
      rfl
  | _ => rfl

theorem uartChars_decoded {os : List EmuRec} (hos : ∀ o ∈ os, o.Decoded) (k : UartId) :
    thrStream k (uartView.inputs os) = uartChars k os := by
  induction os with
  | nil => rfl
  | cons o os ih =>
    have hcons : uartView.inputs (o :: os) = uartView.inp o ++ uartView.inputs os := List.flatMap_cons
    have htail := ih fun o' ho' => hos o' (List.mem_cons_of_mem _ ho')
    unfold thrStream uartChars at *
    rw [hcons, List.filterMap_append, uartChar_decoded (hos o List.mem_cons_self) k, htail]
    cases h : o.uartChar k <;> simp [h]

/-- **What is printed is what was sent.** In every run, the lines printed for a UART are the complete lines
of all that the cores together sent to its address, up to a zero, and its buffer has the rest. -/
theorem uart_output (mem : HostBlock → ℕ → BitVec 8) (reg : Core → Reg → BitVec 64) (xs : List EmuSlice) (k : UartId) :
    uartLines k (emulate mem reg xs).2 = (Lines.complete newline (uartChars k (emulate mem reg xs).2)).map cStr ∧
      (emulate mem reg xs).1.emu.fifos k = Lines.last newline (uartChars k (emulate mem reg xs).2) := by
  have hrun : uartRun (uartView.inputs (emulate mem reg xs).2) =
      ((emulate mem reg xs).1.emu.fifos, uartView.outputs (emulate mem reg xs).2) :=
    Component.OffHost.emulate_sees ⟨fun _ _ => rfl, fun _ => rfl, fun _ => rfl⟩
      (fun core => .quiet (fun _ => rfl) (.emit fun _ => ⟨rfl, rfl⟩)) event_uart mem reg xs
  have hdecoded := (decodedRule.run mem reg (k := ()) ⟨start_idle mem, trivial⟩ xs).1
  obtain ⟨hbuffer, hlines⟩ := uart_lines (uartView.inputs (emulate mem reg xs).2) k
  rw [hrun, uartChars_decoded (Monitor.always_accepts.1 hdecoded)] at hbuffer hlines
  exact ⟨hlines, hbuffer⟩

/-! ## The memory controller -/

/-- The registers of the memory controller that keep what is written, by offset. -/
def mcCells : List (BitVec 64) :=
  [mcIntstatus0, mcSmmuPtbAsid0, mcSmmuPtbData0, mcSmmuConfig0, mcSmmuTlbFlush0, mcSmmuPtcFlush0]

/-- The register at an offset. -/
def McRegs.get (s : McRegs) (off : BitVec 64) : BitVec 32 := (mmioMcRead off s).setWidth 32

theorem mmioMcRead_cell (s : McRegs) {off : BitVec 64} (hc : off ∈ mcCells) :
    mmioMcRead off s = (s.get off).setWidth 64 := by
  unfold McRegs.get mmioMcRead
  simp only [mcCells, List.mem_cons, List.not_mem_nil, or_false] at hc
  rcases hc with rfl | rfl | rfl | rfl | rfl | rfl <;>
    simp [mcIntstatus0, mcSmmuPtbAsid0, mcSmmuPtbData0, mcSmmuConfig0, mcSmmuTlbFlush0, mcSmmuPtcFlush0]

/-- What is not such a register reads the same, whatever was written. -/
theorem mmioMcRead_other (s : McRegs) {off : BitVec 64} (hc : off ∉ mcCells) :
    mmioMcRead off s = if off = mcEmemCfg0 then 0x1000 else 0 := by
  simp only [mcCells, List.mem_cons, List.not_mem_nil, or_false, not_or] at hc
  simp only [mmioMcRead, hc, if_false]

/-- **A write changes the register at its offset and no other.** -/
theorem get_mmioMcWrite (off data : BitVec 64) (s : McRegs) {cell : BitVec 64} (hc : cell ∈ mcCells) :
    (mmioMcWrite off data s).get cell = if off = cell then data.setWidth 32 else s.get cell := by
  have hcells : ∀ cell ∈ mcCells, ∀ off ∈ mcCells,
      (mmioMcWrite off data s).get cell = if off = cell then data.setWidth 32 else s.get cell := by
    intro cell hc off ho
    simp only [mcCells, List.mem_cons, List.not_mem_nil, or_false] at hc ho
    rcases hc with rfl | rfl | rfl | rfl | rfl | rfl <;> rcases ho with rfl | rfl | rfl | rfl | rfl | rfl <;>
      simp [McRegs.get, mmioMcRead, mmioMcWrite, mcIntstatus0, mcSmmuPtbAsid0, mcSmmuPtbData0, mcSmmuConfig0,
        mcSmmuTlbFlush0, mcSmmuPtcFlush0]
  by_cases ho : off ∈ mcCells
  · exact hcells cell hc off ho
  · have hne : off ≠ cell := fun h => ho (h ▸ hc)
    rw [if_neg hne]
    simp only [mcCells, List.mem_cons, List.not_mem_nil, or_false, not_or] at ho
    simp only [mmioMcWrite, ho, if_false]

/-- What the memory controller returns at an offset, `last` being the word last written there. -/
def mcValue (off : BitVec 64) (last : BitVec 32) : BitVec 64 :=
  if off ∈ mcCells then last.setWidth 64 else if off = mcEmemCfg0 then 0x1000 else 0

/-- **One set of registers for all cores**: the words last written at the addresses of the bus, by any core, and
what a read of the memory controller returns, to any core. -/
def mcBus : Monitor (BitVec 64 → BitVec 32) EmuRec where
  next k o := match o with
    | .write _ addr data _ _ => Function.update k addr (data.setWidth 32)
    | _ => k
  ok k o := match o with
    | .read _ addr _ _ value => ∀ off, Device.mc.Decodes addr off → value = some (mcValue off (k addr))
    | _ => True

/-- The registers have the words last written at their addresses. -/
def McAgrees (s : Emulator) (k : BitVec 64 → BitVec 32) : Prop :=
  ∀ cell ∈ mcCells, s.mc.get cell = k (Device.mc.base + cell)

/-- Records of anything but the access itself. -/
theorem mcBus_ignores {o : EmuRec} (h : ¬o.OfWindow ∨ ∃ out, o = .uart out) : mcBus.Ignores o := by
  intro k
  cases o with
  | read core addr size target value => simp [EmuRec.OfWindow] at h
  | write core addr data size target => simp [EmuRec.OfWindow] at h
  | _ => exact ⟨rfl, trivial⟩

theorem apart_mc {c : Cmd Emulator EmuRec} (h : Keeps Emulator.devices c ∧ Leaves (fun o => ¬o.OfWindow) c) :
    Triple mcBus McAgrees c McAgrees := by
  refine .quiet (fun s k hs cell hc => ?_) fun s o ho => mcBus_ignores (.inl (h.2 s o ho))
  have hmc : (c s).1.mc = s.mc := congrArg Prod.snd (h.1 s)
  rw [hmc]
  exact hs cell hc

theorem read_mc (core : Core) (addr : BitVec 64) (size : BitVec 32) (timeUs : BitVec 64) (s : Emulator)
    (k : BitVec 64 → BitVec 32) (hin : s.host.InSlice core) (hs : McAgrees s k) :
    mcBus.Accepts k (emuRead core addr size timeUs s).2 ∧
      McAgrees (emuRead core addr size timeUs s).1 (mcBus.run k (emuRead core addr size timeUs s).2) := by
  obtain ⟨hacc, hend⟩ := apart_mc (readTarget_apart core (s.host.window core addr) size) s k hs
  refine ⟨⟨?_, hacc⟩, hend⟩
  intro off hd
  have ht := (window_iff hin addr off .mc).2 hd
  rw [ht]
  show some (mmioMcRead off s.mc) = some (mcValue off (k addr))
  unfold mcValue
  by_cases hc : off ∈ mcCells
  · rw [if_pos hc, mmioMcRead_cell s.mc hc, hs off hc, ← hd.1]
  · rw [if_neg hc, mmioMcRead_other s.mc hc]

/-- What a write callback does to the memory controller. -/
theorem writeDevice_mc (core : Core) (dev : Device) (off data : BitVec 64) (size : BitVec 32) (s : Emulator) :
    (writeDevice core dev off data size s).1.mc = (if dev = .mc then mmioMcWrite off data s.mc else s.mc) ∧
      ∀ o ∈ (writeDevice core dev off data size s).2, ¬o.OfWindow ∨ ∃ out, o = .uart out := by
  cases dev
  case gicd => exact ⟨rfl, fun o ho => .inl (onHost_leaves _ s o ho)⟩
  case gicc => exact ⟨rfl, fun o ho => .inl (onHost_leaves _ s o ho)⟩
  case uart =>
    refine ⟨rfl, fun o ho => .inr ?_⟩
    obtain ⟨out, -, rfl⟩ := List.mem_map.1 ho
    exact ⟨out, rfl⟩
  all_goals exact ⟨rfl, fun o ho => by simp [writeDevice] at ho⟩

theorem mcCells_lt {cell : BitVec 64} (hc : cell ∈ mcCells) : cell < Device.mc.size := by
  simp only [mcCells, List.mem_cons, List.not_mem_nil, or_false] at hc
  rcases hc with rfl | rfl | rfl | rfl | rfl | rfl <;> decide

theorem emuWrite_window {core : Core} {addr off : BitVec 64} {dev : Device} {s : Emulator}
    (ht : s.host.window core addr = some (dev, off)) (data : BitVec 64) (size : BitVec 32) :
    emuWrite core addr data size s = ((writeDevice core dev off data size s).1,
      .write core addr data size (some (dev, off)) :: (writeDevice core dev off data size s).2) := by
  unfold emuWrite
  rw [ht]
  rfl

theorem emuWrite_none {core : Core} {addr : BitVec 64} {s : Emulator} (ht : s.host.window core addr = none)
    (data : BitVec 64) (size : BitVec 32) :
    emuWrite core addr data size s = (s, [.write core addr data size none]) := by
  unfold emuWrite
  rw [ht]
  rfl

theorem write_mc (core : Core) (addr data : BitVec 64) (size : BitVec 32) (s : Emulator)
    (k : BitVec 64 → BitVec 32) (hin : s.host.InSlice core) (hs : McAgrees s k) :
    mcBus.Accepts k (emuWrite core addr data size s).2 ∧
      McAgrees (emuWrite core addr data size s).1 (mcBus.run k (emuWrite core addr data size s).2) := by
  -- the write changes the word of a register only where its address is the register's
  have hother : (∀ off, s.host.window core addr ≠ some (.mc, off)) → ∀ cell ∈ mcCells,
      s.mc.get cell = Function.update k addr (data.setWidth 32) (Device.mc.base + cell) := by
    intro hne cell hc
    have haddr : Device.mc.base + cell ≠ addr := fun h =>
      hne cell ((window_iff hin addr cell .mc).2 ⟨h.symm, mcCells_lt hc⟩)
    rw [Function.update_of_ne haddr]
    exact hs cell hc
  cases ht : s.host.window core addr with
  | none =>
    rw [emuWrite_none ht]
    exact ⟨⟨trivial, trivial⟩, hother (by simp [ht])⟩
  | some t =>
    obtain ⟨dev, off⟩ := t
    obtain ⟨hmc, hquiet⟩ := writeDevice_mc core dev off data size s
    obtain ⟨hacc, hrun⟩ := Monitor.Ignores.list (fun o ho => mcBus_ignores (hquiet o ho))
      (Function.update k addr (data.setWidth 32))
    rw [emuWrite_window ht]
    refine ⟨⟨trivial, hacc⟩, fun cell hc => ?_⟩
    show (writeDevice core dev off data size s).1.mc.get cell =
      mcBus.run (Function.update k addr (data.setWidth 32)) (writeDevice core dev off data size s).2 _
    rw [hrun, hmc]
    by_cases hdev : dev = .mc
    · subst hdev
      have haddr : addr = Device.mc.base + off := ((window_iff hin addr off .mc).1 ht).1
      rw [if_pos rfl, get_mmioMcWrite off data s.mc hc]
      by_cases hoff : off = cell
      · rw [if_pos hoff, ← hoff, ← haddr, Function.update_self]
      · have hne : Device.mc.base + cell ≠ addr := by
          rw [haddr]
          intro h
          apply hoff
          bv_omega
        rw [if_neg hoff, Function.update_of_ne hne]
        exact hs cell hc
    · rw [if_neg hdev]
      exact hother (by simp [ht, hdev]) cell hc

/-- **The memory controller is shared.** In every run, a read of it by any core returns what was last written
at that address by any core, and the size of the memory where that is asked. -/
theorem mc_shared (mem : HostBlock → ℕ → BitVec 8) (reg : Core → Reg → BitVec 64) (xs : List EmuSlice) :
    mcBus.Accepts (fun _ => 0) (emulate mem reg xs).2 := by
  have hrule := EmuRule.offHost (m := mcBus) (R := McAgrees) (fun _ _ _ h => h) (fun _ _ => ⟨rfl, trivial⟩)
    (fun core s k hs => ⟨⟨trivial, trivial⟩, hs⟩) fun core e s k hs => by
      rcases event_apart core e with h | ⟨addr, size, timeUs, rfl⟩ | ⟨addr, data, size, rfl⟩
      · exact apart_mc h s k hs.2
      · exact read_mc core addr size timeUs s k hs.1 hs.2
      · exact write_mc core addr data size s k hs.1 hs.2
  refine (hrule.run mem reg ⟨start_idle mem, ?_⟩ xs).1
  intro cell hc
  simp only [mcCells, List.mem_cons, List.not_mem_nil, or_false] at hc
  rcases hc with rfl | rfl | rfl | rfl | rfl | rfl <;> rfl

end Mooooooo
