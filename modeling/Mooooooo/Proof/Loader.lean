import Mooooooo.Proof.Dram
import Mooooooo.Spec.Loader

/-!
# The image that the loader builds

`load_processes` keeps the header at `PADDRESS_800` and stores the files from `PADDRESS` on,
at the offset that the header has as its size.

* `Loaded`: the invariant of the loop over the files, and `loaded_run`, that a run keeps it
  or runs past the end of the block.
* `load_processes_iff`: **when the loader builds the image**: the files are stored far
  behind the header, so only where guest memory had the image already.
* `one_byte_not_loaded`: a file of one byte is not in the image.
-/

namespace Mooooooo

/-! ## Stores -/

/-- `PADDRESS_800 - DRAM`, where the header is in its block. -/
def iniOffset : ℕ := 0xF5000

/-- `PADDRESS - DRAM`, where the offsets of the files are counted from. -/
def kipsOffset : ℕ := 0x14080000

theorem ini_eq : ini = some ⟨.dram, BitVec.ofNat 64 iniOffset⟩ := by
  unfold ini
  rw [paddrToAlloc_eq]
  decide

theorem kips_eq : paddrToAlloc (paddress.setWidth 64) = some ⟨.dram, BitVec.ofNat 64 kipsOffset⟩ := by
  rw [paddrToAlloc_eq]
  decide

/-- The memory with bytes stored in the first bank of guest DRAM. -/
def HostMem.store (mem : HostMem) (a : ℕ) (bytes : List (BitVec 8)) : HostMem :=
  Function.update mem .dram (Bytes.place (mem .dram) a bytes)

theorem store_dram (mem : HostMem) (a : ℕ) (bytes : List (BitVec 8)) :
    mem.store a bytes .dram = Bytes.place (mem .dram) a bytes := Function.update_self ..

theorem store_other (mem : HostMem) (a : ℕ) (bytes : List (BitVec 8)) {block : HostBlock} (h : block ≠ .dram) :
    mem.store a bytes block = mem block := Function.update_of_ne h ..

theorem store_outside (mem : HostMem) (a : ℕ) (bytes : List (BitVec 8)) {block : HostBlock} {x : ℕ}
    (h : ¬(block = .dram ∧ a ≤ x ∧ x < a + bytes.length)) : mem.store a bytes block x = mem block x := by
  by_cases hb : block = .dram
  · subst hb
    have hx : ¬(a ≤ x ∧ x < a + bytes.length) := fun hx => h ⟨rfl, hx⟩
    rw [store_dram, Bytes.place_outside _ _ _ (by omega)]
  · rw [store_other _ _ _ hb]

/-- A store in the first bank that stays in it. -/
theorem hostStore_dram {base off : ℕ} (hbase : base < 0x40000000) {bytes : List (BitVec 8)}
    (hfit : base + off + bytes.length ≤ 0x40000000) (mem : HostMem) :
    hostStore (some ⟨.dram, BitVec.ofNat 64 base⟩) off bytes mem = some (mem.store (base + off) bytes) := by
  have hoff : (BitVec.ofNat 64 base).toNat = base := Nat.mod_eq_of_lt (by omega)
  have hsize : HostBlock.dram.size = 0x40000000 := by decide
  unfold hostStore
  dsimp only
  rw [hoff, hsize, if_pos hfit]
  by_cases hnil : bytes = []
  · rw [if_pos hnil, hnil]
    unfold HostMem.store
    rw [Bytes.place_nil, Function.update_eq_self]
  · rw [if_neg hnil]
    rfl

/-- A store that runs past its end. -/
theorem hostStore_past {base off : ℕ} (hbase : base < 0x40000000) {bytes : List (BitVec 8)}
    (hnil : bytes ≠ []) (hpast : 0x40000000 < base + off + bytes.length) (mem : HostMem) :
    hostStore (some ⟨.dram, BitVec.ofNat 64 base⟩) off bytes mem = none := by
  have hoff : (BitVec.ofNat 64 base).toNat = base := Nat.mod_eq_of_lt (by omega)
  have hsize : HostBlock.dram.size = 0x40000000 := by decide
  unfold hostStore
  dsimp only
  rw [if_neg hnil, hoff, hsize, if_neg (by omega)]

/-! ## The header -/

/-- Where a member of the header is in the block. -/
def iniAt (f : IniField) : ℕ := iniOffset + fieldOffset f

theorem iniAt_lt (f : IniField) : iniOffset ≤ iniAt f ∧ iniAt f + 4 ≤ iniOffset + sizeofIniHeader := by
  cases f <;> decide

theorem iniAt_disjoint {f g : IniField} (h : f ≠ g) : iniAt f + 4 ≤ iniAt g ∨ iniAt g + 4 ≤ iniAt f := by
  revert h
  cases f <;> cases g <;> decide

theorem iniGet_eq (f : IniField) (mem : HostMem) : iniGet f mem = Bytes.word fun k => mem .dram (iniAt f + k) := by
  unfold iniGet
  rw [ini_eq]
  rfl

theorem iniSet_eq (f : IniField) (val : BitVec 32) (mem : HostMem) :
    iniSet f val mem = some (mem.store (iniAt f) (Bytes.bytes val)) := by
  have hlt := (iniAt_lt f).2
  have hend : iniOffset + sizeofIniHeader ≤ 0x40000000 := by decide
  unfold iniSet
  rw [ini_eq, hostStore_dram (by decide) (by rw [Bytes.length_bytes]; exact hlt.trans hend)]
  rfl

theorem iniGet_congr {f : IniField} {mem mem' : HostMem} (h : ∀ k < 4, mem .dram (iniAt f + k) = mem' .dram (iniAt f + k)) :
    iniGet f mem = iniGet f mem' := by
  rw [iniGet_eq, iniGet_eq]
  apply Bytes.eq_of_byte
  intro k hk
  rw [Bytes.byte_word _ k hk, Bytes.byte_word _ k hk, h k hk]

/-- A member that is stored is read back. -/
theorem iniGet_store_self (f : IniField) (val : BitVec 32) (mem : HostMem) :
    iniGet f (mem.store (iniAt f) (Bytes.bytes val)) = val := by
  rw [iniGet_eq]
  apply Bytes.eq_of_byte
  intro k hk
  have hbyte := Bytes.getElem?_bytes val k hk
  obtain ⟨hlen, hget⟩ := List.getElem?_eq_some_iff.1 hbyte
  rw [Bytes.byte_word _ k hk, store_dram, Bytes.place_apply _ _ _ hlen, hget]

/-- A store elsewhere leaves a member as it is. -/
theorem iniGet_store (f : IniField) {a : ℕ} {bytes : List (BitVec 8)}
    (h : iniAt f + 4 ≤ a ∨ a + bytes.length ≤ iniAt f) (mem : HostMem) :
    iniGet f (mem.store a bytes) = iniGet f mem := by
  apply iniGet_congr
  intro k hk
  exact store_outside _ _ _ (by omega)

theorem iniGet_store_other {f g : IniField} (h : f ≠ g) (val : BitVec 32) (mem : HostMem) :
    iniGet f (mem.store (iniAt g) (Bytes.bytes val)) = iniGet f mem :=
  iniGet_store f (iniAt_disjoint h) mem

theorem iniStore_outside {f : IniField} {val : BitVec 32} {mem : HostMem} {block : HostBlock} {x : ℕ}
    (h : ¬(block = .dram ∧ iniOffset ≤ x ∧ x < iniOffset + sizeofIniHeader)) :
    mem.store (iniAt f) (Bytes.bytes val) block x = mem block x := by
  have hf := iniAt_lt f
  apply store_outside
  rw [Bytes.length_bytes]
  rintro ⟨hb, hlo, hhi⟩
  exact h ⟨hb, by omega, by omega⟩

/-! ## The loop over the files -/

/-- The first address of the files in the block. -/
def payloadOffset : ℕ := kipsOffset + sizeofIniHeader

/-- **The invariant of the loop**: the header counts the files that are stored, in one piece,
from `PADDRESS + 16` on, and all other bytes are as they were. -/
structure Loaded (mem mem' : HostMem) (files : List (List (BitVec 8))) : Prop where
  magic : iniGet .magic mem' = 0x31494E49
  size : (iniGet .size mem').toNat = sizeofIniHeader + files.flatten.length
  count : iniGet .count mem' = BitVec.ofNat 32 files.length
  payload : ∀ i (hi : i < files.flatten.length), mem' .dram (payloadOffset + i) = files.flatten[i]
  frame : ∀ block x, ¬(block = .dram ∧ (iniOffset ≤ x ∧ x < iniOffset + sizeofIniHeader ∨
    payloadOffset ≤ x ∧ x < payloadOffset + files.flatten.length)) → mem' block x = mem block x

/-- The files are behind the header, in the same block. -/
theorem payloadOffset_bounds : iniOffset + sizeofIniHeader ≤ payloadOffset ∧ payloadOffset ≤ 0x40000000 := by decide

/-- The header before the first file. -/
theorem loaded_nil (mem : HostMem) : Loaded mem
    (((mem.store (iniAt .magic) (Bytes.bytes 0x31494E49)).store (iniAt .size)
      (Bytes.bytes (BitVec.ofNat 32 sizeofIniHeader))).store (iniAt .count) (Bytes.bytes 0)) [] := by
  refine ⟨?_, ?_, ?_, ?_, ?_⟩
  · rw [iniGet_store_other (by decide), iniGet_store_other (by decide), iniGet_store_self]
  · rw [iniGet_store_other (by decide), iniGet_store_self]
    rfl
  · rw [iniGet_store_self]
    rfl
  · intro i hi
    exact absurd hi (Nat.not_lt_zero i)
  · intro block x hx
    have hheader : ¬(block = .dram ∧ iniOffset ≤ x ∧ x < iniOffset + sizeofIniHeader) :=
      fun h => hx ⟨h.1, .inl h.2⟩
    rw [iniStore_outside hheader, iniStore_outside hheader, iniStore_outside hheader]

section Loop

variable {mem m : HostMem} {files : List (List (BitVec 8))}

theorem length_flatten_concat (files : List (List (BitVec 8))) (file : List (BitVec 8)) :
    (files ++ [file]).flatten.length = files.flatten.length + file.length := by
  rw [List.flatten_append, List.flatten_singleton, List.length_append]

/-- The memory after a file and the two members of the header are stored. -/
def kipStored (m : HostMem) (off : ℕ) (file : List (BitVec 8)) : HostMem :=
  ((m.store off file).store (iniAt .size)
    (Bytes.bytes (iniGet .size m + BitVec.ofNat 32 file.length))).store (iniAt .count)
      (Bytes.bytes (iniGet .count m + 1))

/-- The body of the loop, for a file that fits. -/
theorem loadKip_eq (m : HostMem) (path : String) {file : List (BitVec 8)} (hlo : 16 ≤ (iniGet .size m).toNat)
    (hfit : kipsOffset + (iniGet .size m).toNat + file.length ≤ 0x40000000) :
    loadKip m ⟨path, some file⟩ = some (kipStored m (kipsOffset + (iniGet .size m).toNat) file) := by
  have hfar : ∀ f, iniAt f + 4 ≤ kipsOffset + (iniGet .size m).toNat := by
    intro f
    have hf := iniAt_lt f
    have hoffsets := payloadOffset_bounds.1
    unfold payloadOffset at hoffsets
    have h16 : sizeofIniHeader = 16 := by decide
    omega
  -- the file is stored behind the header, which is read back as it was
  unfold loadKip kipStored
  dsimp only
  rw [kips_eq, hostStore_dram (by decide) hfit, Option.bind_eq_bind, Option.bind_some, iniSet_eq, Option.bind_some,
    iniSet_eq, iniGet_store_other (by decide), iniGet_store _ (.inl (hfar _)), iniGet_store _ (.inl (hfar _))]

/-- **A file is stored behind those before it.** -/
theorem Loaded.step (h : Loaded mem m files) (path : String) {file : List (BitVec 8)}
    (hfit : payloadOffset + (files ++ [file]).flatten.length ≤ 0x40000000) :
    ∃ m', loadKip m ⟨path, some file⟩ = some m' ∧ Loaded mem m' (files ++ [file]) := by
  have hsize := h.size
  have hlen := length_flatten_concat files file
  have hoff : kipsOffset + (iniGet .size m).toNat = payloadOffset + files.flatten.length := by
    unfold payloadOffset
    omega
  have h16 : sizeofIniHeader = 16 := by decide
  have hheader := payloadOffset_bounds.1
  have hpayload : 0x14080010 = payloadOffset := by decide
  refine ⟨_, loadKip_eq m path (by omega) (by omega), ?_⟩
  rw [hoff]
  unfold kipStored
  have hfar : ∀ f, iniAt f + 4 ≤ payloadOffset + files.flatten.length := by
    intro f
    have hf := iniAt_lt f
    omega
  refine ⟨?_, ?_, ?_, ?_, ?_⟩
  · rw [iniGet_store_other (by decide), iniGet_store_other (by decide), iniGet_store _ (.inl (hfar _)), h.magic]
  · rw [iniGet_store_other (by decide), iniGet_store_self, hlen, BitVec.toNat_add, BitVec.toNat_ofNat]
    omega
  · rw [iniGet_store_self, h.count, List.length_append, List.length_singleton, BitVec.ofNat_add]
    rfl
  · intro i hi
    have hflat : (files ++ [file]).flatten = files.flatten ++ file := by
      rw [List.flatten_append, List.flatten_singleton]
    rw [iniStore_outside (by omega), iniStore_outside (by omega), store_dram]
    simp only [hflat]
    by_cases hold : i < files.flatten.length
    · rw [Bytes.place_outside _ _ _ (.inl (by omega)), List.getElem_append_left hold, h.payload i hold]
    · obtain ⟨k, rfl⟩ := Nat.exists_eq_add_of_le (Nat.le_of_not_lt hold)
      rw [← Nat.add_assoc, Bytes.place_apply _ _ _ (by omega), List.getElem_append_right (by omega)]
      simp only [Nat.add_sub_cancel_left]
  · intro block x hx
    have hbehind : ¬(block = .dram ∧ iniOffset ≤ x ∧ x < iniOffset + sizeofIniHeader) :=
      fun h => hx ⟨h.1, .inl h.2⟩
    rw [iniStore_outside hbehind, iniStore_outside hbehind, store_outside, h.frame]
    · rintro ⟨hb, hx' | hx'⟩
      · exact hx ⟨hb, .inl hx'⟩
      · exact hx ⟨hb, .inr (by omega)⟩
    · rintro ⟨hb, hx'⟩
      exact hx ⟨hb, .inr (by omega)⟩

/-- A file that does not fit. -/
theorem Loaded.step_past (h : Loaded mem m files) (path : String) {file : List (BitVec 8)}
    (hfits : payloadOffset + files.flatten.length ≤ 0x40000000)
    (hpast : 0x40000000 < payloadOffset + (files ++ [file]).flatten.length) :
    loadKip m ⟨path, some file⟩ = none := by
  -- an empty file is not stored at all
  have hnil : file ≠ [] := by
    rintro rfl
    rw [List.flatten_append, List.flatten_singleton, List.append_nil] at hpast
    omega
  have hlen : kipsOffset + (iniGet .size m).toNat + file.length = payloadOffset + (files ++ [file]).flatten.length := by
    rw [h.size, length_flatten_concat]
    unfold payloadOffset
    omega
  unfold loadKip
  dsimp only
  rw [kips_eq, hostStore_past (by decide) hnil (by omega)]
  rfl

/-- **The run of the loop** keeps the invariant, or runs past the end of the block. -/
theorem loaded_run (kips : List Kip) (h : Loaded mem m files)
    (hfits : payloadOffset + files.flatten.length ≤ 0x40000000) :
    kips.foldlM loadKip m = none ∧
        0x40000000 < payloadOffset + (files ++ kips.filterMap Kip.content).flatten.length ∨
      ∃ m', kips.foldlM loadKip m = some m' ∧ Loaded mem m' (files ++ kips.filterMap Kip.content) ∧
        payloadOffset + (files ++ kips.filterMap Kip.content).flatten.length ≤ 0x40000000 := by
  induction kips generalizing m files with
  | nil =>
    rw [List.filterMap_nil, List.append_nil]
    exact .inr ⟨m, rfl, h, hfits⟩
  | cons kip kips ih =>
    obtain ⟨path, content⟩ := kip
    rw [List.foldlM_cons]
    cases content with
    | none =>
      rw [List.filterMap_cons_none rfl]
      exact ih h hfits
    | some file =>
      have hsplit : files ++ (⟨path, some file⟩ :: kips).filterMap Kip.content =
          files ++ [file] ++ kips.filterMap Kip.content := by
        rw [List.filterMap_cons_some (f := Kip.content) rfl, List.append_assoc]
        rfl
      rw [hsplit]
      by_cases hfit : payloadOffset + (files ++ [file]).flatten.length ≤ 0x40000000
      · obtain ⟨m', hstep, hloaded⟩ := h.step path hfit
        rw [hstep]
        exact ih hloaded hfit
      · rw [h.step_past path hfits (by omega)]
        refine .inl ⟨rfl, ?_⟩
        rw [List.flatten_append, List.length_append]
        omega

end Loop

/-! ## The image -/

/-- The contents of the files that are loaded, in the order of their paths. -/
def kipFiles (kips : List Kip) : List (List (BitVec 8)) := (kipsSort kips).filterMap Kip.content

/-- The image of files: the header, the files behind it without gap or overlap, and no
other byte changed. -/
structure IniImage (mem mem' : HostMem) (files : List (List (BitVec 8))) : Prop where
  magic : iniGet .magic mem' = 0x31494E49
  size : (iniGet .size mem').toNat = sizeofIniHeader + files.flatten.length
  count : (iniGet .count mem').toNat = files.length
  payload : ∀ i (hi : i < files.flatten.length), mem' .dram (iniOffset + sizeofIniHeader + i) = files.flatten[i]
  frame : ∀ block x, ¬(block = .dram ∧ iniOffset ≤ x ∧ x < iniOffset + sizeofIniHeader + files.flatten.length) →
    mem' block x = mem block x

/-- Where guest memory has the files in both places beforehand, as far as storing them from
`PADDRESS + 16` on does not put them behind the header. -/
structure InPlace (dram : ℕ → BitVec 8) (payload : List (BitVec 8)) : Prop where
  behind : ∀ i (hi : i < payload.length), iniOffset + sizeofIniHeader + i < payloadOffset →
    dram (iniOffset + sizeofIniHeader + i) = payload[i]
  shifted : ∀ i (hi : i < payload.length) j (hj : j < payload.length),
    iniOffset + sizeofIniHeader + i = payloadOffset + j → payload[i] = payload[j]
  beyond : ∀ i (hi : i < payload.length), iniOffset + sizeofIniHeader + payload.length ≤ payloadOffset + i →
    dram (payloadOffset + i) = payload[i]

theorem inPlace_nil (dram : ℕ → BitVec 8) : InPlace dram [] :=
  ⟨fun _ hi => absurd hi (Nat.not_lt_zero _), fun _ hi => absurd hi (Nat.not_lt_zero _),
    fun _ hi => absurd hi (Nat.not_lt_zero _)⟩

section Image

variable {mem mem' : HostMem} {files : List (List (BitVec 8))}

/-- **What was loaded is the image** exactly where the files were in place. -/
theorem Loaded.image_iff (h : Loaded mem mem' files) :
    IniImage mem mem' files ↔ files.length < 2 ^ 32 ∧ InPlace (mem .dram) files.flatten := by
  have hheader := payloadOffset_bounds.1
  constructor
  · intro himage
    refine ⟨?_, ?_, ?_, ?_⟩
    · rw [← himage.count]
      exact (iniGet .count mem').isLt
    · -- nothing is stored between the header and the files
      intro i hi hlt
      rw [← himage.payload i hi, h.frame]
      omega
    · -- byte `j` of the files is stored where byte `i` of the image is
      intro i hi j hj heq
      rw [← himage.payload i hi, heq, h.payload j hj]
    · -- what is stored behind the image must not be a change
      intro i hi hle
      rw [← h.payload i hi, himage.frame]
      omega
  · rintro ⟨hcount, hplace⟩
    refine ⟨h.magic, h.size, ?_, ?_, ?_⟩
    · rw [h.count, BitVec.toNat_ofNat, Nat.mod_eq_of_lt hcount]
    · intro i hi
      by_cases hlt : iniOffset + sizeofIniHeader + i < payloadOffset
      · rw [h.frame _ _ (by omega), hplace.behind i hi hlt]
      · obtain ⟨j, hj⟩ := Nat.exists_eq_add_of_le (Nat.le_of_not_lt hlt)
        rw [hj, h.payload j (by omega), hplace.shifted i hi j (by omega) hj]
    · intro block x hx
      by_cases hpayload : block = .dram ∧ payloadOffset ≤ x ∧ x < payloadOffset + files.flatten.length
      · obtain ⟨rfl, hlo, hhi⟩ := hpayload
        obtain ⟨i, rfl⟩ := Nat.exists_eq_add_of_le hlo
        have hout : ¬(iniOffset ≤ payloadOffset + i ∧
            payloadOffset + i < iniOffset + sizeofIniHeader + files.flatten.length) := fun h => hx ⟨rfl, h⟩
        rw [h.payload i (by omega), hplace.beyond i (by omega) (by omega)]
      · apply h.frame
        rintro ⟨hb, hin | hin⟩
        · exact hx ⟨hb, by omega, by omega⟩
        · exact hpayload ⟨hb, hin⟩

end Image

/-- Where the loader builds the image: the header does not overflow, the files end in the
block, and they were in place. -/
structure Loads (kips : List Kip) (mem : HostMem) : Prop where
  count : kips.length < 2 ^ 32
  header : kips = [] → iniGet .magic mem = 0x31494E49 ∧ (iniGet .size mem).toNat = sizeofIniHeader ∧
    iniGet .count mem = 0
  fits : payloadOffset + (kipFiles kips).flatten.length ≤ 0x40000000
  inPlace : InPlace (mem .dram) (kipFiles kips).flatten

/-- The files of a directory whose files can all be opened. -/
theorem length_kipFiles {kips : List Kip} (hopen : ∀ kip ∈ kips, kip.content.isSome) :
    (kipFiles kips).length = kips.length := by
  unfold kipFiles
  rw [List.filterMap_length_eq_length.2]
  · exact List.length_mergeSort kips
  · intro kip hkip
    exact hopen kip (List.mem_mergeSort.1 hkip)

/-- Memory that is not changed is the image of no files where the header is there. -/
theorem image_nil (mem : HostMem) : IniImage mem mem [] ↔
    iniGet .magic mem = 0x31494E49 ∧ (iniGet .size mem).toNat = sizeofIniHeader ∧ iniGet .count mem = 0 := by
  constructor
  · intro h
    exact ⟨h.magic, h.size, BitVec.eq_of_toNat_eq h.count⟩
  · rintro ⟨hmagic, hsize, hcount⟩
    refine ⟨hmagic, hsize, ?_, fun i hi => absurd hi (Nat.not_lt_zero i), fun _ _ _ => rfl⟩
    rw [hcount]
    rfl

/-- The loader, for a directory that does have files. -/
theorem loadProcesses_eq {kips : List Kip} (hpos : BitVec.ofNat 32 kips.length ≠ 0) (mem : HostMem) :
    loadProcesses kips mem = none ∧ 0x40000000 < payloadOffset + (kipFiles kips).flatten.length ∨
      ∃ mem', loadProcesses kips mem = some mem' ∧ Loaded mem mem' (kipFiles kips) ∧
        payloadOffset + (kipFiles kips).flatten.length ≤ 0x40000000 := by
  have hrun := loaded_run (kipsSort kips) (loaded_nil mem) payloadOffset_bounds.2
  rw [List.nil_append] at hrun
  unfold loadProcesses
  dsimp only
  rw [if_neg hpos, iniSet_eq, Option.bind_eq_bind, Option.bind_some, iniSet_eq, Option.bind_some, iniSet_eq,
    Option.bind_some]
  exact hrun

/-- **When the loader builds the image.** The files end up `PADDRESS - PADDRESS_800` behind
where the header says, so memory must have had the image there before. -/
theorem load_processes_iff (kips : List Kip) (mem : HostMem) (hopen : ∀ kip ∈ kips, kip.content.isSome) :
    (∃ mem', loadProcesses kips mem = some mem' ∧ IniImage mem mem' (kipFiles kips)) ↔ Loads kips mem := by
  have hlen := length_kipFiles hopen
  by_cases hpos : BitVec.ofNat 32 kips.length = 0
  · -- the count of the files is 0 in 32 bits, and nothing is loaded
    have hzero : kips.length % 2 ^ 32 = 0 := congrArg BitVec.toNat hpos
    have hload : loadProcesses kips mem = some mem := if_pos hpos
    by_cases hnil : kips = []
    · subst hnil
      have hfiles : kipFiles [] = [] := by simp [kipFiles, kipsSort]
      constructor
      · rintro ⟨mem', hload', himage⟩
        obtain rfl := Option.some.inj (hload.symm.trans hload')
        rw [hfiles] at himage
        refine ⟨by decide, fun _ => (image_nil mem).1 himage, ?_, ?_⟩
        · rw [hfiles]
          exact payloadOffset_bounds.2
        · rw [hfiles]
          exact inPlace_nil _
      · intro h
        refine ⟨mem, hload, ?_⟩
        rw [hfiles]
        exact (image_nil mem).2 (h.header rfl)
    · have hlarge : ¬kips.length < 2 ^ 32 := by
        have := List.length_pos_of_ne_nil hnil
        omega
      constructor
      · rintro ⟨mem', -, himage⟩
        have hcount := (iniGet .count mem').isLt
        rw [himage.count, hlen] at hcount
        exact absurd hcount hlarge
      · intro h
        exact absurd h.count hlarge
  · have hne : kips ≠ [] := by
      rintro rfl
      exact hpos rfl
    constructor
    · rintro ⟨mem', hload, himage⟩
      rcases loadProcesses_eq hpos mem with ⟨hnone, -⟩ | ⟨mem'', hsome, hloaded, hfits⟩
      · rw [hnone] at hload
        cases hload
      · obtain rfl := Option.some.inj (hsome.symm.trans hload)
        obtain ⟨hcount, hplace⟩ := hloaded.image_iff.1 himage
        exact ⟨by omega, fun h => absurd h hne, hfits, hplace⟩
    · intro h
      rcases loadProcesses_eq hpos mem with ⟨-, hpast⟩ | ⟨mem', hsome, hloaded, -⟩
      · have := h.fits
        omega
      · exact ⟨mem', hsome, hloaded.image_iff.2 ⟨by have := h.count; omega, h.inPlace⟩⟩

/-- Two files, listed in the other order. -/
def twoKips : List Kip := [⟨"kips/b.kip", some [3]⟩, ⟨"kips/a.kip", some [1, 2]⟩]

/-- Zeroes, but for the bytes of the files behind the header and where they are stored. -/
def twoPlaces : HostMem := fun _ x =>
  if 0xF5010 ≤ x ∧ x < 0xF5013 then BitVec.ofNat 8 (x - 0xF500F)
  else if 0x14080010 ≤ x ∧ x < 0x14080013 then BitVec.ofNat 8 (x - 0x1408000F)
  else 0

/-- The loader builds the image of the two files, in the order of their paths. -/
theorem load_processes_two : ∃ mem', loadProcesses twoKips twoPlaces = some mem' ∧
    IniImage twoPlaces mem' (kipFiles twoKips) := by
  have hfiles : kipFiles twoKips = [[1, 2], [3]] := by
    have hab : ¬("kips/b.kip" ≤ "kips/a.kip") := by decide
    simp [kipFiles, kipsSort, twoKips, List.mergeSort, List.MergeSort.Internal.splitInTwo, hab]
  refine (load_processes_iff twoKips twoPlaces (by decide)).2 ⟨by decide, by simp [twoKips], ?_, ?_⟩
  · rw [hfiles]
    decide
  · rw [hfiles]
    refine ⟨?_, ?_, ?_⟩
    · decide
    · -- the two places are far apart
      intro i hi j hj
      change i < 3 at hi
      change j < 3 at hj
      have hfar : payloadOffset = 0x14080010 := by decide
      have hnear : iniOffset + sizeofIniHeader = 0xF5010 := by decide
      omega
    · intro i hi _
      revert i
      decide +kernel
/-- A file of one byte, over zeroes. -/
theorem one_byte_not_loaded : ¬∀ kips mem, (∀ kip ∈ kips, kip.content.isSome) →
    iniOffset + sizeofIniHeader + (kipFiles kips).flatten.length ≤ 0x40000000 →
    ∃ mem', loadProcesses kips mem = some mem' ∧ IniImage mem mem' (kipFiles kips) := by
  intro h
  have hfiles : kipFiles [⟨"kips/one.kip", some [1]⟩] = [[1]] := by simp [kipFiles, kipsSort]
  obtain ⟨mem', hload, himage⟩ := h [⟨"kips/one.kip", some [1]⟩] (fun _ _ => 0) (by simp)
    (by rw [hfiles]; decide)
  have hpos : BitVec.ofNat 32 [(⟨"kips/one.kip", some [1]⟩ : Kip)].length ≠ 0 := by decide
  rcases loadProcesses_eq hpos (fun _ _ => 0) with ⟨hnone, -⟩ | ⟨mem'', hsome, hloaded, -⟩
  · rw [hnone] at hload
    cases hload
  · obtain rfl := Option.some.inj (hsome.symm.trans hload)
    rw [hfiles] at himage hloaded
    have hplace := (hloaded.image_iff.1 himage).2
    exact absurd (hplace.behind 0 (by decide) (by decide)) (by decide)

end Mooooooo
