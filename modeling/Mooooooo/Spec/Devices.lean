import Mooooooo.Spec.Memory
import Mooooooo.Spec.Uart

/-!
# The devices behind the other windows

The callbacks of `mmio/*.cpp` apart from the interrupt controller's: the memory
controller, the timer, the reads of the UARTs, and the windows that nothing is behind.
The registers of the memory controller are globals, one set for all cores. What
`gettimeofday` says is an input.
-/

namespace Mooooooo

/-! ## The memory controller -/

/-- The globals of `mmio/mc.cpp`. -/
structure McRegs where
  ptbAsid : BitVec 32
  ptbData : BitVec 32
  smmuConfig : BitVec 32
  intstatus : BitVec 32
  smmuTlbFlush : BitVec 32
  smmuPtcFlush : BitVec 32
deriving DecidableEq, Repr

def McRegs.zero : McRegs := ⟨0, 0, 0, 0, 0, 0⟩

def mcIntstatus0 : BitVec 64 := 0x0
def mcSmmuConfig0 : BitVec 64 := 0x10
def mcSmmuPtbAsid0 : BitVec 64 := 0x1c
def mcSmmuPtbData0 : BitVec 64 := 0x20
def mcSmmuTlbFlush0 : BitVec 64 := 0x30
def mcSmmuPtcFlush0 : BitVec 64 := 0x34
def mcEmemCfg0 : BitVec 64 := 0x50

def mmioMcRead (addr : BitVec 64) (s : McRegs) : BitVec 64 :=
  if addr = mcIntstatus0 then s.intstatus.setWidth 64
  else if addr = mcSmmuPtbAsid0 then s.ptbAsid.setWidth 64
  else if addr = mcSmmuPtbData0 then s.ptbData.setWidth 64
  else if addr = mcSmmuConfig0 then s.smmuConfig.setWidth 64
  else if addr = mcSmmuTlbFlush0 then s.smmuTlbFlush.setWidth 64
  else if addr = mcSmmuPtcFlush0 then s.smmuPtcFlush.setWidth 64
  else if addr = mcEmemCfg0 then 0x1000
  else 0

def mmioMcWrite (addr data : BitVec 64) (s : McRegs) : McRegs :=
  if addr = mcIntstatus0 then { s with intstatus := data.setWidth 32 }
  else if addr = mcSmmuPtbAsid0 then { s with ptbAsid := data.setWidth 32 }
  else if addr = mcSmmuPtbData0 then { s with ptbData := data.setWidth 32 }
  else if addr = mcSmmuConfig0 then { s with smmuConfig := data.setWidth 32 }
  else if addr = mcSmmuTlbFlush0 then { s with smmuTlbFlush := data.setWidth 32 }
  else if addr = mcSmmuPtcFlush0 then { s with smmuPtcFlush := data.setWidth 32 }
  else s

/-! ## The timer and the UARTs -/

def timerusCntr1us0 : BitVec 64 := 0x010

/-- `timeUs` is what `time_us()` returns. -/
def mmioTimerRead (addr timeUs : BitVec 64) : BitVec 64 := if addr = timerusCntr1us0 then timeUs else 0

def mmioUartRead (addr : BitVec 64) : BitVec 64 :=
  let id := mmioUartAddrToId addr
  let addrShifted := addr - uartOffsets id
  if addrShifted = 0x14 then 1 <<< 6 else 0

/-! ## Windows with nothing behind them -/

/-- A read callback without cases. -/
def readNothing (_addr : BitVec 64) : BitVec 64 := 0

def mmioMc0Read : BitVec 64 → BitVec 64 := readNothing
def mmioMc1Read : BitVec 64 → BitVec 64 := readNothing
def mmioHost1xRead : BitVec 64 → BitVec 64 := readNothing
def mmioSystemRead : BitVec 64 → BitVec 64 := readNothing
def mmioMselectRead : BitVec 64 → BitVec 64 := readNothing
def mmioCarRead : BitVec 64 → BitVec 64 := readNothing
def mmioPinmuxRead : BitVec 64 → BitVec 64 := readNothing

end Mooooooo
