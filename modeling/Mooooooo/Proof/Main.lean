import Mooooooo.Proof.Loader
import Mooooooo.Proof.Memory
import Mooooooo.Spec.Main

/-!
# The memory that the guests start with

`mem_init` reads both files into the first bank of DRAM, up to 16 MiB each, and the second
one starts inside what the first one may take. The guests then run on the array that
`bootImage` describes (`boot_image`): the processes over the kernel over what was there.
-/

namespace Mooooooo

/-! ## Files in the array -/

/-- Bytes stored in the first bank lie over the array from there on. -/
theorem flatMem_store (mem : HostMem) (off : ℕ) (bytes : List (BitVec 8)) (hfit : off + bytes.length ≤ 0x40000000)
    (a : BitVec 64) : flatMem (mem.store off bytes) a =
      (if 0x80000000 + off ≤ a.toNat then bytes[a.toNat - (0x80000000 + off)]? else none).or (flatMem mem a) := by
  have hview : ∀ m : HostMem, flatMem m a = (guestCells.cell a).map fun c => m c.1 c.2 := fun _ => rfl
  by_cases hin : 0x80000000 + off ≤ a.toNat ∧ a.toNat < 0x80000000 + off + bytes.length
  · -- the address is in the file
    have hk : a.toNat - (0x80000000 + off) < bytes.length := by omega
    have hx : a.toNat - 0x80000000 = off + (a.toNat - (0x80000000 + off)) := by omega
    rw [hview, (cell_dram a _).2 ⟨by omega, by omega, rfl⟩, if_pos hin.1, List.getElem?_eq_getElem hk]
    dsimp only [Option.map_some, Option.some_or]
    rw [store_dram, hx, Bytes.place_apply _ _ _ hk]
  · have hnone : (if 0x80000000 + off ≤ a.toNat then bytes[a.toNat - (0x80000000 + off)]? else none) = none := by
      by_cases hlo : 0x80000000 + off ≤ a.toNat
      · rw [if_pos hlo, List.getElem?_eq_none (by omega)]
      · rw [if_neg hlo]
    rw [hnone, Option.none_or, hview, hview]
    cases hc : guestCells.cell a with
    | none => rfl
    | some c =>
      obtain ⟨block, x⟩ := c
      dsimp only [Option.map_some]
      rw [store_outside]
      rintro ⟨rfl, hstored⟩
      obtain ⟨hlo, -, hx⟩ := (cell_dram a x).1 hc
      omega

/-! ## The image -/

/-- The byte of a file that is read to `base`, where there is one. -/
def fileByte (base : BitVec 32) (file : List (BitVec 8)) (a : BitVec 64) : Option (BitVec 8) :=
  if base.toNat ≤ a.toNat then (file.take fileSize)[a.toNat - base.toNat]? else none

/-- **What the guests find in memory**: the processes, else the kernel, else what was there. -/
def bootImage (hos proc : List (BitVec 8)) (mem : HostMem) (a : BitVec 64) : Option (BitVec 8) :=
  ((fileByte paddress800 proc a).or (fileByte kaddress800 hos a)).or (flatMem mem a)

/-- A file that is read to an address in the first bank, with room for it. -/
theorem freadFile_eq {addr : BitVec 32} {off : ℕ} (haddr : addr.toNat = 0x80000000 + off)
    (halloc : paddrToAlloc (addr.setWidth 64) = some ⟨.dram, BitVec.ofNat 64 off⟩) (hfit : off + fileSize ≤ 0x40000000)
    (file : List (BitVec 8)) (mem : HostMem) :
    ∃ mem', freadFile addr (some file) mem = some mem' ∧
      flatMem mem' = fun a => (fileByte addr file a).or (flatMem mem a) := by
  have hlen : off + (file.take fileSize).length ≤ 0x40000000 := by
    have htake : (file.take fileSize).length ≤ fileSize := List.length_take_le ..
    omega
  have hsize : 0 < fileSize := by decide
  refine ⟨mem.store off (file.take fileSize), ?_, ?_⟩
  · unfold freadFile
    rw [Option.bind_some, halloc, hostStore_dram (by omega) hlen, Nat.add_zero]
  · funext a
    rw [flatMem_store mem off _ hlen]
    unfold fileByte
    rw [haddr]

theorem memInit_eq (hos proc : List (BitVec 8)) (mem : HostMem) :
    ∃ mem', memInit (some hos) (some proc) mem = some mem' ∧ flatMem mem' = bootImage hos proc mem := by
  have hkernel : paddrToAlloc (kaddress800.setWidth 64) = some ⟨.dram, BitVec.ofNat 64 0x60000⟩ := by
    rw [paddrToAlloc_eq]
    decide
  obtain ⟨mem1, hread1, hflat1⟩ := freadFile_eq rfl hkernel (by decide) hos mem
  obtain ⟨mem2, hread2, hflat2⟩ := freadFile_eq rfl ini_eq (by decide) proc mem1
  refine ⟨mem2, ?_, ?_⟩
  · unfold memInit
    rw [hread1]
    exact hread2
  · funext a
    rw [hflat2, hflat1]
    unfold bootImage
    rw [Option.or_assoc]

/-- **The guests run on the boot image.** Whatever the two files hold and whatever was in memory, `main` starts, and in
every run a load, by whichever core, returns what was last stored at its address, or else the byte of the image. -/
theorem boot_image (hos proc : List (BitVec 8)) (mem : HostMem) (reg : Core → Reg → BitVec 64) (xs : List EmuSlice) :
    ∃ r, main (some hos) (some proc) mem reg xs = some r ∧
      flatMemory.Accepts (bootImage hos proc mem) (moments r.2) := by
  obtain ⟨mem', hinit, hflat⟩ := memInit_eq hos proc mem
  refine ⟨emulate mem' reg xs, ?_, ?_⟩
  · unfold main
    rw [hinit]
    rfl
  · rw [← hflat]
    exact emulate_flat mem' reg xs

end Mooooooo
