import Mooooooo.Lib.Cmd

/-!
# The UARTs

`mmio/uart.cpp`: one window of 0x1000 bytes for the five UARTs, and a buffer of
characters for each. `std::string` is a list of bytes, which may contain zeros; `%s` of
its `c_str()` prints what comes before the first one. A printed line is recorded with the
UART whose buffer it is, which the text does not say.
-/

namespace Mooooooo

abbrev UartId := Fin 5

/-- `UART_OFFSETS`. -/
def uartOffsets : UartId → BitVec 64
  | 0 => 0
  | 1 => 0x40
  | 2 => 0x200
  | 3 => 0x300
  | 4 => 0x400

def uartThrDlab00 : BitVec 64 := 0x0

/-- The static `fifos`. -/
abbrev Fifos := UartId → List (BitVec 8)

/-- `printf(">>> mmio uart output: %s\n", ...)`, with what `%s` prints. -/
structure UartOutput where
  id : UartId
  payload : List (BitVec 8)
deriving DecidableEq, Repr

/-- A call of `mmio_uart_write`. -/
structure UartWrite where
  addr : BitVec 64
  data : BitVec 64
  size : BitVec 32
deriving DecidableEq, Repr

def mmioUartAddrToId (addr : BitVec 64) : UartId :=
  if addr ≥ 0x400 then 4
  else if addr ≥ 0x300 then 3
  else if addr ≥ 0x200 then 2
  else if addr ≥ 0x40 then 1
  else 0

/-- What `%s` prints of `str.c_str()`. -/
def cStr (str : List (BitVec 8)) : List (BitVec 8) := str.takeWhile fun b => b ≠ 0

def newline : BitVec 8 := 0x0A

/-- `char val = (char)data`. -/
def UartWrite.val (w : UartWrite) : BitVec 8 := w.data.setWidth 8

def mmioUartWrite (w : UartWrite) : Cmd Fifos UartOutput := fun fifos =>
  let id := mmioUartAddrToId w.addr
  let addrShifted := w.addr - uartOffsets id
  if addrShifted = uartThrDlab00 then
    if w.val > 0x7F then (fifos, [])
    else if w.val ≠ newline then (Function.update fifos id (fifos id ++ [w.val]), [])
    else (Function.update fifos id [], [⟨id, cStr (fifos id)⟩])
  else (fifos, [])

/-- The run of the writes to the window, in the order in which they come. -/
def uartRun (ws : List UartWrite) : Fifos × List UartOutput := Cmd.forEach mmioUartWrite ws fun _ => []

end Mooooooo
