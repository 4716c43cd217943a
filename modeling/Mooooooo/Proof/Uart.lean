import Mathlib.Data.List.TakeWhile
import Mooooooo.Lib.Lines
import Mooooooo.Spec.Uart

/-!
# What the UARTs print

* `mmioUartWrite_eq`: a write is a character of one UART, or nothing.
* `uart_lines`: for any writes to the window, a UART prints what `%s` makes of the complete
  lines of its own characters, and buffers what follows the last newline.
* `uart_faithful_iff`: **the lines come out unchanged exactly if none has a zero byte.**
-/

namespace Mooooooo

theorem mmioUartAddrToId_offset (k : UartId) : mmioUartAddrToId (uartOffsets k) = k := by
  revert k
  decide

/-- The character that a write sends to UART `k`, if it sends one. -/
def UartWrite.thr (w : UartWrite) (k : UartId) : Option (BitVec 8) :=
  if w.addr = uartOffsets k ∧ w.val ≤ 0x7F then some w.val else none

/-- The characters written to the THR of UART `k`, oldest first. -/
def thrStream (k : UartId) (ws : List UartWrite) : List (BitVec 8) := ws.filterMap fun w => w.thr k

/-- The payloads printed for UART `k`. -/
def printed (k : UartId) (os : List UartOutput) : List (List (BitVec 8)) :=
  (os.filter fun o => o.id = k).map UartOutput.payload

/-- The range search finds the UART of a THR. -/
theorem thr_addr_iff (w : UartWrite) (k : UartId) :
    w.addr = uartOffsets k ↔
      mmioUartAddrToId w.addr = k ∧ w.addr - uartOffsets (mmioUartAddrToId w.addr) = uartThrDlab00 := by
  have hsub : ∀ k, w.addr - uartOffsets k = uartThrDlab00 ↔ w.addr = uartOffsets k := by
    intro k
    unfold uartThrDlab00
    bv_omega
  rw [hsub]
  constructor
  · intro h
    rw [h, mmioUartAddrToId_offset]
    exact ⟨rfl, rfl⟩
  · rintro ⟨rfl, h⟩
    exact h

/-- **What a write does to one UART**: nothing, or one more character of it. -/
theorem mmioUartWrite_eq (w : UartWrite) (fifos : Fifos) (k : UartId) :
    ((mmioUartWrite w fifos).1 k, printed k (mmioUartWrite w fifos).2) =
      match w.thr k with
      | none => (fifos k, [])
      | some b => if b = newline then ([], [cStr (fifos k)]) else (fifos k ++ [b], []) := by
  have haddr := thr_addr_iff w k
  unfold mmioUartWrite
  dsimp only
  by_cases hthr : w.addr - uartOffsets (mmioUartAddrToId w.addr) = uartThrDlab00
  · rw [if_pos hthr]
    by_cases hval : w.val > 0x7F
    · have hnone : w.thr k = none := if_neg fun h => BitVec.not_le.2 hval h.2
      rw [if_pos hval, hnone]
      rfl
    · rw [if_neg hval]
      by_cases hid : mmioUartAddrToId w.addr = k
      · have hsome : w.thr k = some w.val := if_pos ⟨haddr.2 ⟨hid, hthr⟩, BitVec.not_lt.1 hval⟩
        rw [hsome, hid]
        dsimp only
        by_cases hnl : w.val = newline
        · rw [if_neg (not_not.2 hnl), if_pos hnl]
          simp [printed]
        · rw [if_pos hnl, if_neg hnl]
          simp [printed]
      · -- the character is another UART's
        have hnone : w.thr k = none := if_neg fun h => hid (haddr.1 h.1).1
        rw [hnone]
        by_cases hnl : w.val = newline
        · rw [if_neg (not_not.2 hnl)]
          simp [printed, hid, Function.update_of_ne (Ne.symm hid)]
        · rw [if_pos hnl]
          simp [printed, Function.update_of_ne (Ne.symm hid)]
  · have hnone : w.thr k = none := if_neg fun h => hthr (haddr.1 h.1).2
    rw [if_neg hthr, hnone]
    rfl

theorem thrStream_concat (k : UartId) (ws : List UartWrite) (w : UartWrite) :
    thrStream k (ws ++ [w]) = thrStream k ws ++ (w.thr k).toList := by
  unfold thrStream
  rw [List.filterMap_append]
  cases h : w.thr k <;> simp [h]

theorem printed_append (k : UartId) (os os' : List UartOutput) :
    printed k (os ++ os') = printed k os ++ printed k os' := by
  simp [printed]

/-- **The buffer machine is the splitting into lines**, up to what `%s` prints of a line. -/
theorem uart_lines (ws : List UartWrite) (k : UartId) :
    (uartRun ws).1 k = Lines.last newline (thrStream k ws) ∧
      printed k (uartRun ws).2 = (Lines.complete newline (thrStream k ws)).map cStr := by
  induction ws using List.reverseRecOn with
  | nil => exact ⟨rfl, rfl⟩
  | append_singleton ws w ih =>
    obtain ⟨hfifo, hprinted⟩ := ih
    have hrun : uartRun (ws ++ [w]) =
        ((mmioUartWrite w (uartRun ws).1).1, (uartRun ws).2 ++ (mmioUartWrite w (uartRun ws).1).2) := by
      unfold uartRun
      rw [Cmd.forEach_concat]
    have hw := mmioUartWrite_eq w (uartRun ws).1 k
    rw [hrun, thrStream_concat, printed_append, hprinted]
    cases hthr : w.thr k with
    | none =>
      rw [hthr, Prod.mk.injEq] at hw
      rw [hw.1, hw.2, hfifo, Option.toList_none, List.append_nil, List.append_nil]
      exact ⟨rfl, rfl⟩
    | some b =>
      rw [hthr] at hw
      dsimp only at hw
      rw [Option.toList_some]
      by_cases hb : b = newline
      · rw [if_pos hb, Prod.mk.injEq] at hw
        obtain ⟨hcomplete, hlast⟩ := Lines.split_newline newline (thrStream k ws)
        rw [hw.1, hw.2, hb, hcomplete, hlast, hfifo, List.map_append, List.map_singleton]
        exact ⟨rfl, rfl⟩
      · rw [if_neg hb, Prod.mk.injEq] at hw
        obtain ⟨hcomplete, hlast⟩ := Lines.split_char newline (thrStream k ws) hb
        rw [hw.1, hw.2, hcomplete, hlast, hfifo, List.append_nil]
        exact ⟨rfl, rfl⟩

theorem cStr_eq_self_iff (str : List (BitVec 8)) : cStr str = str ↔ 0 ∉ str := by
  unfold cStr
  rw [List.takeWhile_eq_self_iff]
  constructor
  · intro h h0
    simpa using h 0 h0
  · intro h b hb
    exact decide_eq_true fun h0 => h (h0 ▸ hb)

/-- What is printed for UART `k` are the complete lines of the characters written to its
THR, and its buffer is the unfinished one. -/
def Faithful (ws : List UartWrite) (k : UartId) : Prop :=
  printed k (uartRun ws).2 = Lines.complete newline (thrStream k ws) ∧
    (uartRun ws).1 k = Lines.last newline (thrStream k ws)

/-- **Output is faithful exactly without zero bytes**: `%s` prints a line up to the first. -/
theorem uart_faithful_iff (ws : List UartWrite) (k : UartId) :
    Faithful ws k ↔ ∀ line ∈ Lines.complete newline (thrStream k ws), 0 ∉ line := by
  obtain ⟨hfifo, hprinted⟩ := uart_lines ws k
  have hmap : (Lines.complete newline (thrStream k ws)).map cStr = Lines.complete newline (thrStream k ws) ↔
      ∀ line ∈ Lines.complete newline (thrStream k ws), cStr line = line := by
    nth_rewrite 2 [← List.map_id (Lines.complete newline (thrStream k ws))]
    rw [List.map_inj_left]
    rfl
  unfold Faithful
  rw [hprinted, hmap]
  constructor
  · rintro ⟨h, -⟩ line hline
    exact (cStr_eq_self_iff line).1 (h line hline)
  · intro h
    exact ⟨fun line hline => (cStr_eq_self_iff line).2 (h line hline), hfifo⟩

/-- The bytes `a`, zero, `b`, newline for the first UART: it prints `a` only. -/
theorem zero_byte_cuts_line : ¬Faithful [⟨0, 0x61, 4⟩, ⟨0, 0, 4⟩, ⟨0, 0x62, 4⟩, ⟨0, 0x0A, 4⟩] 0 := by
  rintro ⟨h, -⟩
  revert h
  decide

end Mooooooo
