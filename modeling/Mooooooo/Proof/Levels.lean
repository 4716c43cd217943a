import Mooooooo.Proof.Walk
import Mooooooo.Spec.Levels

/-!
# The addresses that the walk computes

* `ucMmuLevelSteps_eq`: the recursion of the source ends, at the third level, and is a walk
  over tables.
* `ucMmuLevelIterate_calls`: what the walk reads and prints are the calls at these steps.
* `walk_exhaustive`: the walk visits all entries of every table that it comes to.
* `walk_addresses`: **the address of an entry is the concatenation of its indices**, and the
  entries of the lowest level come in the order of their addresses.
-/

namespace Mooooooo

/-! ## The recursion as a walk -/

/-- A table of the walk: its address, the base of its entries' addresses, and the indices
that lead to it. -/
structure LevelTable where
  addr : BitVec 64
  base : BitVec 64
  path : List ℕ

section Walker

variable (read : Option HostPtr → ℕ → BitVec 64)

/-- What is computed for entry `i` of a table. -/
def LevelTable.visit (level : ℕ) (t : LevelTable) (i : ℕ) : TtbVisit :=
  ⟨level, t.path, i, paddrToAlloc t.addr, t.base, entryVaddr level t.base i, read (paddrToAlloc t.addr) (i * 8)⟩

/-- The recursion of the source as a walk over tables. -/
def levelWalker : Tables.Walker LevelTable LevelStep where
  width := ttbEntries
  opens t := decide ¬(t.addr - dramBase.setWidth 64 > dramSize.signExtend 64)
  refuse n t := [.bad (2 - n) t.addr]
  visit n t i := [.visit (t.visit read (2 - n) i)]
  child n t i :=
    let v := t.visit read (2 - n) i
    if v.val ≠ 0 ∧ (v.val &&& ttbEntryTypeMask).setWidth 8 = (3 : BitVec 8) then
      some ⟨v.val &&& ttbEntryAddrMask, v.vaddr, t.path ++ [i]⟩
    else none

theorem mapM_eq_some {α β : Type} {f : α → Option β} {g : α → β} {l : List α} (h : ∀ a ∈ l, f a = some (g a)) :
    l.mapM f = some (l.map g) := by
  induction l with
  | nil => rfl
  | cons a l ih =>
    rw [List.mapM_cons, h a List.mem_cons_self, ih fun b hb => h b (List.mem_cons_of_mem _ hb)]
    rfl

/-- A table that is not refused, by what its entries lead to. -/
theorem steps_open {addr : BitVec 64} (hopen : ¬(addr - dramBase.setWidth 64 > dramSize.signExtend 64))
    (fuel level : ℕ) (base : BitVec 64) (path : List ℕ) (below : ℕ → List LevelStep)
    (hbelow : ∀ i, (if read (paddrToAlloc addr) (i * 8) ≠ 0 ∧
        (read (paddrToAlloc addr) (i * 8) &&& ttbEntryTypeMask).setWidth 8 = (3 : BitVec 8) ∧ level < 2 then
        ucMmuLevelSteps read fuel (read (paddrToAlloc addr) (i * 8) &&& ttbEntryAddrMask) (entryVaddr level base i)
          (level + 1) (path ++ [i])
      else some []) = some (below i)) :
    ucMmuLevelSteps read (fuel + 1) addr base level path =
      some ((List.range ttbEntries).flatMap fun i =>
        .visit (LevelTable.visit read level ⟨addr, base, path⟩ i) :: below i) := by
  rw [ucMmuLevelSteps, if_neg hopen, mapM_eq_some (g := fun i =>
    .visit (LevelTable.visit read level ⟨addr, base, path⟩ i) :: below i)]
  · rw [List.flatMap_def]
    rfl
  · intro i _
    have hi := hbelow i
    by_cases hdescend : read (paddrToAlloc addr) (i * 8) ≠ 0 ∧
        (read (paddrToAlloc addr) (i * 8) &&& ttbEntryTypeMask).setWidth 8 = (3 : BitVec 8) ∧ level < 2
    · rw [if_pos hdescend] at hi
      unfold entryVaddr at hi
      dsimp only
      rw [if_pos hdescend, hi]
      rfl
    · rw [if_neg hdescend] at hi
      dsimp only
      rw [if_neg hdescend, ← Option.some.inj hi]
      rfl

/-- A table that is refused. -/
theorem steps_refused {t : LevelTable} (hbad : t.addr - dramBase.setWidth 64 > dramSize.signExtend 64)
    (fuel n : ℕ) :
    ucMmuLevelSteps read (fuel + 1) t.addr t.base (2 - n) t.path = some ((levelWalker read).walk n t) := by
  have hopens : ¬(levelWalker read).opens t = true := fun h => of_decide_eq_true h hbad
  rw [ucMmuLevelSteps, if_pos hbad, Tables.Walker.walk_refused hopens]
  rfl

/-- **The recursion ends**: with `n` levels below it goes no deeper than these. -/
theorem ucMmuLevelSteps_eq {n : ℕ} (hn : n ≤ 2) {fuel : ℕ} (hfuel : n < fuel) (t : LevelTable) :
    ucMmuLevelSteps read fuel t.addr t.base (2 - n) t.path = some ((levelWalker read).walk n t) := by
  induction n generalizing fuel t with
  | zero =>
    obtain ⟨fuel, rfl⟩ : ∃ fuel', fuel = fuel' + 1 := ⟨fuel - 1, by omega⟩
    by_cases hbad : t.addr - dramBase.setWidth 64 > dramSize.signExtend 64
    · exact steps_refused read hbad fuel 0
    · have hopens : (levelWalker read).opens t = true := decide_eq_true hbad
      have hlowest : ucMmuLevelSteps read (fuel + 1) t.addr t.base 2 t.path =
          some ((List.range ttbEntries).flatMap fun i => [.visit (t.visit read 2 i)]) := by
        apply steps_open read hbad
        intro i
        exact if_neg fun h => absurd h.2.2 (by omega)
      rw [hlowest, Tables.Walker.walk_zero, if_pos hopens]
      rfl
  | succ n ih =>
    obtain ⟨fuel, rfl⟩ : ∃ fuel', fuel = fuel' + 1 := ⟨fuel - 1, by omega⟩
    by_cases hbad : t.addr - dramBase.setWidth 64 > dramSize.signExtend 64
    · exact steps_refused read hbad fuel (n + 1)
    · have hopens : (levelWalker read).opens t = true := decide_eq_true hbad
      rw [Tables.Walker.walk_succ, if_pos hopens]
      apply steps_open read hbad fuel (2 - (n + 1)) t.base t.path fun i =>
        ((levelWalker read).child (n + 1) t i).elim [] ((levelWalker read).walk n)
      intro i
      -- one level further down is one level less below
      have hlevel : 2 - (n + 1) + 1 = 2 - n := by omega
      by_cases hdescend : read (paddrToAlloc t.addr) (i * 8) ≠ 0 ∧
          (read (paddrToAlloc t.addr) (i * 8) &&& ttbEntryTypeMask).setWidth 8 = (3 : BitVec 8)
      · have hchild : (levelWalker read).child (n + 1) t i =
            some ⟨read (paddrToAlloc t.addr) (i * 8) &&& ttbEntryAddrMask,
              entryVaddr (2 - (n + 1)) t.base i, t.path ++ [i]⟩ := if_pos hdescend
        rw [if_pos ⟨hdescend.1, hdescend.2, by omega⟩, hchild, Option.elim_some, hlevel]
        exact ih (by omega) (by omega) ⟨_, _, _⟩
      · have hchild : (levelWalker read).child (n + 1) t i = none := if_neg hdescend
        rw [if_neg (fun h => hdescend ⟨h.1, h.2.1⟩), hchild]
        rfl

end Walker

/-- What the printing walk has of a table. -/
def LevelTable.ttb (t : LevelTable) : TtbTable := (t.addr, t.base)

/-- What the walk reads and prints at a step. -/
def LevelStep.calls (check : BitVec 64) : LevelStep → List WalkCall
  | .bad level addr => [.bad level addr]
  | .visit v => .read v.ptr (v.idx * 8) ::
    if v.val ≠ 0 ∧ Tested check v.vaddr then [.line (ttbLine v.level v.idx v.vaddr v.val)] else []

/-- **What the walk reads and prints** are the calls at these steps, where the words are
those of host memory. -/
theorem ucMmuLevelIterate_calls (mem : HostBlock → ℕ → BitVec 8) (check root : BitVec 64) :
    ucMmuLevelIterate mem check 2 root 0 =
      ((levelWalker (hostRead mem)).walk 2 ⟨root, 0, []⟩).flatMap (LevelStep.calls check) := by
  rw [ucMmuLevelIterate_eq mem check le_rfl]
  have hmap : ∀ n t, (ttbWalker mem check).walk n (LevelTable.ttb t) =
      ((levelWalker (hostRead mem)).walk n t).flatMap (LevelStep.calls check) := by
    apply Tables.Walker.walk_map LevelTable.ttb (LevelStep.calls check) rfl (fun _ => rfl) (fun _ _ => rfl)
    · intro n t i
      unfold levelWalker
      rw [List.flatMap_singleton]
      rfl
    · intro n t i
      unfold ttbWalker levelWalker
      dsimp only
      rw [apply_ite (Option.map LevelTable.ttb)]
      rfl
  exact hmap 2 ⟨root, 0, []⟩

/-! ## Addresses -/

/-- The address of the entry at an index path, within the upper half. -/
def pathOffset (path : List ℕ) : ℕ := path.getD 0 0 * 2 ^ 30 + path.getD 1 0 * 2 ^ 21 + path.getD 2 0 * 2 ^ 12

/-- A further index, at the level that the length of the path says. -/
theorem pathOffset_concat {path : List ℕ} (hlen : path.length ≤ 2) (i : ℕ) :
    pathOffset (path ++ [i]) = pathOffset path + (ttbVaddrSizes path.length).toNat * i := by
  unfold pathOffset
  rcases path with _ | ⟨i0, _ | ⟨i1, _ | ⟨i2, path⟩⟩⟩
  · simp [ttbVaddrSizes]
    omega
  · simp [ttbVaddrSizes]
    omega
  · simp [ttbVaddrSizes]
    omega
  · simp at hlen

/-- A table of the walk: its indices, the base of its entries, and that they fit. -/
structure LevelTable.Placed (n : ℕ) (t : LevelTable) : Prop where
  depth : n ≤ 2
  length : t.path.length = 2 - n
  lt : ∀ i ∈ t.path, i < ttbEntries
  -- 0 for the root table, and in the upper half for all others
  base : t.base.toNat = pathOffset t.path ∨ t.base.toNat = upperHalf + pathOffset t.path
  fits : pathOffset t.path + (ttbVaddrSizes (2 - n)).toNat * ttbEntries ≤ 2 ^ 39

namespace LevelTable

variable {read : Option HostPtr → ℕ → BitVec 64} {n i : ℕ} {t t' : LevelTable}

theorem placed_root (root : BitVec 64) : Placed 2 ⟨root, 0, []⟩ :=
  ⟨le_rfl, rfl, by simp, .inl (by simp [pathOffset]), by simp [pathOffset, ttbVaddrSizes, ttbEntries]⟩

theorem Placed.entry_le (h : t.Placed n) (hi : i < ttbEntries) :
    pathOffset t.path + (ttbVaddrSizes (2 - n)).toNat * i + (ttbVaddrSizes (2 - n)).toNat ≤ 2 ^ 39 := by
  have hfits := h.fits
  have hle := Nat.mul_le_mul_left (ttbVaddrSizes (2 - n)).toNat hi
  rw [Nat.succ_eq_add_one, Nat.mul_add_one] at hle
  omega

variable (read) in
/-- The address that is computed for an entry. -/
theorem Placed.vaddr (h : t.Placed n) (hi : i < ttbEntries) :
    (t.visit read (2 - n) i).vaddr.toNat =
      upperHalf + (pathOffset t.path + (ttbVaddrSizes (2 - n)).toNat * i) := by
  have hend := h.entry_le hi
  have hpos := ttbVaddrSizes_pos (2 - n)
  exact entryVaddr_toNat h.base (by omega) hi

/-- The entries of a table of one level are as far apart as the tables of the next are long. -/
theorem sizes_succ : n ≤ 1 → (ttbVaddrSizes (2 - n)).toNat * ttbEntries = (ttbVaddrSizes (2 - (n + 1))).toNat := by
  intro hn
  have hcases : n = 0 ∨ n = 1 := by omega
  rcases hcases with rfl | rfl
  · decide
  · decide

theorem Placed.child (h : t.Placed (n + 1)) (hi : i < ttbEntries)
    (hchild : (levelWalker read).child (n + 1) t i = some t') :
    t'.Placed n ∧ pathOffset t'.path = pathOffset t.path + (ttbVaddrSizes (2 - (n + 1))).toNat * i := by
  have hdepth := h.depth
  have hlen := h.length
  have hchild' : (if _ then some (⟨_, (t.visit read (2 - (n + 1)) i).vaddr, t.path ++ [i]⟩ : LevelTable) else none) =
      some t' := hchild
  obtain ⟨-, hsome⟩ := Option.ite_none_right_eq_some.1 hchild'
  obtain rfl := Option.some.inj hsome
  have hoff : pathOffset (t.path ++ [i]) = pathOffset t.path + (ttbVaddrSizes (2 - (n + 1))).toNat * i := by
    rw [pathOffset_concat (by omega), hlen]
  refine ⟨⟨by omega, ?_, ?_, .inr ?_, ?_⟩, hoff⟩
  · rw [List.length_append, hlen, List.length_singleton]
    omega
  · intro k hk
    rcases List.mem_append.1 hk with hk | hk
    · exact h.lt k hk
    · rw [List.mem_singleton.1 hk]
      exact hi
  · dsimp only
    rw [h.vaddr read hi, hoff]
  · have hend := h.entry_le hi
    dsimp only
    rw [hoff, sizes_succ (by omega)]
    exact hend

/-- Every table that the walk comes to is placed. -/
theorem Placed.reach {m : ℕ} (h : t.Placed n) (hreach : (levelWalker read).Reach n t m t') : t'.Placed m := by
  induction hreach with
  | root => exact h
  | child _ _ hi hchild ih => exact (ih.child hi hchild).1

end LevelTable

/-- **An entry has the address that its indices say.** `noCarry` reads the indices back off
the address; `noWrap` is the sum that the source computes. -/
structure TtbVisit.Concatenated (v : TtbVisit) : Prop where
  level : v.level ≤ 2
  length : v.path.length = v.level
  lt : ∀ i ∈ v.path ++ [v.idx], i < ttbEntries
  vaddr : v.vaddr.toNat = 0xffffff8000000000 + pathOffset (v.path ++ [v.idx])
  noCarry : v.vaddr.toNat / 2 ^ 30 % 512 = (v.path ++ [v.idx]).getD 0 0 ∧
    v.vaddr.toNat / 2 ^ 21 % 512 = (v.path ++ [v.idx]).getD 1 0 ∧
    v.vaddr.toNat / 2 ^ 12 % 512 = (v.path ++ [v.idx]).getD 2 0
  noWrap : v.base.toNat + (ttbVaddrSizes v.level).toNat * v.idx < 2 ^ 64

section Addresses

variable {read : Option HostPtr → ℕ → BitVec 64} {n : ℕ} {t : LevelTable}

theorem getD_lt {path : List ℕ} (hlt : ∀ i ∈ path, i < ttbEntries) (k : ℕ) : path.getD k 0 < 512 := by
  rw [List.getD_eq_getElem?_getD]
  cases hk : path[k]? with
  | none => simp
  | some i => exact hlt i (List.mem_of_getElem? hk)

/-- The fields of an address do not carry into each other. -/
theorem fields_of_pathOffset {path : List ℕ} (hlt : ∀ i ∈ path, i < ttbEntries) {a : ℕ}
    (ha : a = 0xffffff8000000000 + pathOffset path) :
    a / 2 ^ 30 % 512 = path.getD 0 0 ∧ a / 2 ^ 21 % 512 = path.getD 1 0 ∧ a / 2 ^ 12 % 512 = path.getD 2 0 := by
  have h0 := getD_lt hlt 0
  have h1 := getD_lt hlt 1
  have h2 := getD_lt hlt 2
  unfold pathOffset at ha
  omega

/-- Entries of one level have different addresses if they have different indices. -/
theorem TtbVisit.Concatenated.path_eq {v v' : TtbVisit} (h : v.Concatenated) (h' : v'.Concatenated)
    (hlevel : v.level = v'.level) (heq : v.vaddr = v'.vaddr) : v.path ++ [v.idx] = v'.path ++ [v'.idx] := by
  have hlen : (v.path ++ [v.idx]).length = (v'.path ++ [v'.idx]).length := by
    rw [List.length_append, List.length_append, h.length, h'.length, hlevel]
    rfl
  have hthree : (v.path ++ [v.idx]).length ≤ 3 := by
    have := h.level
    rw [List.length_append, h.length, List.length_singleton]
    omega
  have hfields := h.noCarry
  rw [heq] at hfields
  obtain ⟨h0, h1, h2⟩ := hfields
  obtain ⟨h0', h1', h2'⟩ := h'.noCarry
  -- an index is a field of the address, which is the same
  apply List.ext_getElem hlen
  intro k hk hk'
  have hgetD : ∀ {path : List ℕ} (h : k < path.length), path[k] = path.getD k 0 := fun h => by simp [h]
  rw [hgetD hk, hgetD hk']
  have hcases : k = 0 ∨ k = 1 ∨ k = 2 := by omega
  rcases hcases with rfl | rfl | rfl
  · exact h0.symm.trans h0'
  · exact h1.symm.trans h1'
  · exact h2.symm.trans h2'

theorem LevelTable.Placed.concatenated (h : t.Placed n) {i : ℕ} (hi : i < ttbEntries) :
    (t.visit read (2 - n) i).Concatenated := by
  have hlen := h.length
  have hvaddr := h.vaddr read hi
  have hlt : ∀ k ∈ t.path ++ [i], k < ttbEntries := by
    intro k hk
    rcases List.mem_append.1 hk with hk | hk
    · exact h.lt k hk
    · rw [List.mem_singleton.1 hk]
      exact hi
  have hpath : (t.visit read (2 - n) i).vaddr.toNat = 0xffffff8000000000 + pathOffset (t.path ++ [i]) := by
    rw [hvaddr, pathOffset_concat (by omega), hlen]
    rfl
  refine ⟨Nat.sub_le 2 n, hlen, hlt, hpath, fields_of_pathOffset hlt hpath, ?_⟩
  have hend := h.entry_le hi
  have hpos := ttbVaddrSizes_pos (2 - n)
  have hupper : upperHalf = 0xffffff8000000000 := rfl
  change t.base.toNat + (ttbVaddrSizes (2 - n)).toNat * i < 2 ^ 64
  rcases h.base with hbase | hbase
  · omega
  · omega

/-- What is recorded at a placed table: it is refused, or its entries have their addresses. -/
theorem placed_records {s : LevelStep} (hs : s ∈ (levelWalker read).records n t) :
    s = .bad (2 - n) t.addr ∨ ∃ i < ttbEntries, s = .visit (t.visit read (2 - n) i) := by
  unfold Tables.Walker.records at hs
  split at hs
  · obtain ⟨i, hi, hs⟩ := List.mem_flatMap.1 hs
    exact .inr ⟨i, List.mem_range.1 hi, List.mem_singleton.1 hs⟩
  · exact .inl (List.mem_singleton.1 hs)

/-- The addresses recorded from an entry on lie before those of the next entry. -/
theorem below_range {v : TtbVisit} {i : ℕ} (h : t.Placed n) (hi : i < ttbEntries)
    (hv : .visit v ∈ (levelWalker read).below n t i) :
    upperHalf + (pathOffset t.path + (ttbVaddrSizes (2 - n)).toNat * i) ≤ v.vaddr.toNat ∧
      v.vaddr.toNat < upperHalf + (pathOffset t.path + (ttbVaddrSizes (2 - n)).toNat * (i + 1)) := by
  induction n generalizing t i with
  | zero =>
    obtain rfl := LevelStep.visit.inj (List.mem_singleton.1 hv)
    have hvaddr := h.vaddr read hi
    have hpos := ttbVaddrSizes_pos (2 - 0)
    rw [Nat.mul_add_one]
    omega
  | succ n ih =>
    rw [Nat.mul_add_one]
    rcases List.mem_append.1 hv with hv | hv
    · obtain rfl := LevelStep.visit.inj (List.mem_singleton.1 hv)
      have hvaddr := h.vaddr read hi
      have hpos := ttbVaddrSizes_pos (2 - (n + 1))
      omega
    · cases hchild : (levelWalker read).child (n + 1) t i with
      | none =>
        rw [hchild] at hv
        exact absurd hv List.not_mem_nil
      | some t' =>
        rw [hchild, Option.elim_some] at hv
        obtain ⟨hplaced, hoff⟩ := h.child hi hchild
        have hdepth := h.depth
        have hsizes := LevelTable.sizes_succ (n := n) (by omega)
        by_cases hopens : (levelWalker read).opens t' = true
        · rw [Tables.Walker.walk_of_opens hopens] at hv
          obtain ⟨j, hj, hv⟩ := List.mem_flatMap.1 hv
          have hj : j < ttbEntries := List.mem_range.1 hj
          have hrange := ih hplaced hj hv
          -- the last entry of the lower table ends where this entry does
          have hend := Nat.mul_le_mul_left (ttbVaddrSizes (2 - n)).toNat hj
          rw [Nat.succ_eq_add_one] at hend
          omega
        · rw [Tables.Walker.walk_refused hopens] at hv
          cases List.mem_singleton.1 hv

/-- Of two entries of the lowest level, the one that comes first has the lower address. -/
def LevelStep.InOrder (s s' : LevelStep) : Prop :=
  ∀ v v', s = .visit v → s' = .visit v' → v.level = 2 → v'.level = 2 → v.vaddr < v'.vaddr

/-- **The lowest entries come in the order of their addresses.** -/
theorem walk_inOrder (h : t.Placed n) : ((levelWalker read).walk n t).Pairwise LevelStep.InOrder := by
  apply Tables.Walker.walk_pairwise LevelTable.Placed h
  · intro n t _
    exact List.pairwise_singleton _ _
  · intro n t i _
    exact List.pairwise_singleton _ _
  · intro n t t' i ht hi hchild
    exact (ht.child hi hchild).1
  · intro n t i ht s hs s' _ v v' hv _ hlevel
    -- an entry above other entries is not of the lowest level
    obtain rfl := LevelStep.visit.inj (hv.symm.trans (List.mem_singleton.1 hs))
    have hlevel : 2 - (n + 1) = 2 := hlevel
    omega
  · intro n t i j ht hij hj s hs s' hs' v v' hv hv' _ _
    rw [hv] at hs
    rw [hv'] at hs'
    have hj : j < ttbEntries := hj
    have hrange := below_range ht (by omega) hs
    have hrange' := below_range ht hj hs'
    have hle : (ttbVaddrSizes (2 - n)).toNat * (i + 1) ≤ (ttbVaddrSizes (2 - n)).toNat * j :=
      Nat.mul_le_mul_left _ hij
    rw [BitVec.lt_def]
    omega

end Addresses

/-- The walk has come to a table at an index path: it refuses the address, or it visits all entries. -/
def Entered (steps : List LevelStep) (level : ℕ) (addr : BitVec 64) (path : List ℕ) : Prop :=
  if addr - dramBase.setWidth 64 > dramSize.signExtend 64 then .bad level addr ∈ steps
  else ∀ i < ttbEntries, ∃ v, .visit v ∈ steps ∧ v.level = level ∧ v.ptr = paddrToAlloc addr ∧ v.path = path ∧ v.idx = i

/-- **The walk leaves nothing out**: it comes to the root table, and to the table of every entry above the
lowest level that is one. -/
structure Exhaustive (root : BitVec 64) (steps : List LevelStep) : Prop where
  root : Entered steps 0 root []
  below : ∀ v, .visit v ∈ steps → v.val ≠ 0 → (v.val &&& ttbEntryTypeMask).setWidth 8 = (3 : BitVec 8) → v.level < 2 →
    Entered steps (v.level + 1) (v.val &&& ttbEntryAddrMask) (v.path ++ [v.idx])

section Exhaustive

variable {read : Option HostPtr → ℕ → BitVec 64} {n m : ℕ} {t u : LevelTable}

theorem reach_entered (h : (levelWalker read).Reach n t m u) :
    Entered ((levelWalker read).walk n t) (2 - m) u.addr u.path := by
  unfold Entered
  split
  · rename_i hbad
    have hopens : ¬(levelWalker read).opens u = true := fun ho => of_decide_eq_true ho hbad
    refine Tables.Walker.mem_walk.2 ⟨m, u, h, ?_⟩
    unfold Tables.Walker.records
    rw [if_neg hopens]
    exact List.mem_singleton_self _
  · rename_i hopen
    have hopens : (levelWalker read).opens u = true := decide_eq_true hopen
    intro i hi
    refine ⟨u.visit read (2 - m) i, Tables.Walker.mem_walk.2 ⟨m, u, h, ?_⟩, rfl, rfl, rfl, rfl⟩
    unfold Tables.Walker.records
    rw [if_pos hopens]
    exact List.mem_flatMap.2 ⟨i, List.mem_range.2 hi, List.mem_singleton_self _⟩

theorem walk_exhaustive (read : Option HostPtr → ℕ → BitVec 64) (root : BitVec 64) :
    Exhaustive root ((levelWalker read).walk 2 ⟨root, 0, []⟩) := by
  refine ⟨reach_entered .root, fun v hv hval htype hlevel => ?_⟩
  obtain ⟨m, u, hreach, hrec⟩ := Tables.Walker.mem_walk.1 hv
  obtain ⟨hopens, i, hi, hvisit⟩ := (Tables.Walker.mem_records (by simp [levelWalker])).1 hrec
  obtain rfl := LevelStep.visit.inj (List.mem_singleton.1 hvisit)
  -- above the lowest level there is a level below
  have hm : m ≠ 0 := by
    rintro rfl
    exact absurd hlevel (by simp [LevelTable.visit])
  obtain ⟨m, rfl⟩ := Nat.exists_eq_succ_of_ne_zero hm
  have hdepth := ((LevelTable.placed_root root).reach hreach).depth
  have hchild : (levelWalker read).child (m + 1) u i = some ⟨_, _, _⟩ := if_pos ⟨hval, htype⟩
  have hnext := reach_entered (hreach.child hopens hi hchild)
  have hlevels : 2 - (m + 1) + 1 = 2 - m := by omega
  show Entered _ (2 - (m + 1) + 1) _ _
  rw [hlevels]
  exact hnext

end Exhaustive

/-- **The walk computes the addresses that its index paths say.** -/
structure WellAddressed (steps : List LevelStep) : Prop where
  level : ∀ level addr, .bad level addr ∈ steps → level ≤ 2
  entry : ∀ v, .visit v ∈ steps → v.Concatenated
  order : steps.Pairwise LevelStep.InOrder
  distinct : ∀ v v', .visit v ∈ steps → .visit v' ∈ steps → v.level = 2 → v'.level = 2 →
    v.path ++ [v.idx] ≠ v'.path ++ [v'.idx] → v.vaddr ≠ v'.vaddr

/-- **The walk of any tables ends, and computes the addresses that its index paths say**, for all entries of all
tables that it comes to. Where the words are those of host memory, `uc_mmu_level_iterate` reads and prints
at these steps. -/
theorem walk_addresses (read : Option HostPtr → ℕ → BitVec 64) (root : BitVec 64) :
    ∃ steps, (∀ fuel ≥ 3, ucMmuLevelSteps read fuel root 0 0 [] = some steps) ∧ WellAddressed steps ∧
      Exhaustive root steps ∧
      ∀ mem check, read = hostRead mem → ucMmuLevelIterate mem check 2 root 0 = steps.flatMap (LevelStep.calls check) := by
  have hplaced := LevelTable.placed_root root
  have hstep : ∀ s ∈ (levelWalker read).walk 2 ⟨root, 0, []⟩, (∃ n t, s = .bad (2 - n) t) ∨
      ∃ v, s = .visit v ∧ v.Concatenated := by
    intro s hs
    obtain ⟨m, t, hreach, hs⟩ := Tables.Walker.mem_walk.1 hs
    have ht := hplaced.reach hreach
    rcases placed_records hs with hbad | ⟨i, hi, hvisit⟩
    · exact .inl ⟨m, t.addr, hbad⟩
    · exact .inr ⟨_, hvisit, ht.concatenated hi⟩
  have hentry : ∀ v, .visit v ∈ (levelWalker read).walk 2 ⟨root, 0, []⟩ → v.Concatenated := by
    intro v hv
    rcases hstep _ hv with ⟨n, addr, hbad⟩ | ⟨v', hvisit, hv'⟩
    · cases hbad
    · rw [LevelStep.visit.inj hvisit]
      exact hv'
  refine ⟨_, fun fuel hfuel => ucMmuLevelSteps_eq read le_rfl hfuel ⟨root, 0, []⟩,
    ⟨?_, hentry, walk_inOrder hplaced, ?_⟩, walk_exhaustive read root, ?_⟩
  · intro level addr hbad
    rcases hstep _ hbad with ⟨n, addr', hlevel⟩ | ⟨v, hvisit, -⟩
    · rw [(LevelStep.bad.inj hlevel).1]
      exact Nat.sub_le 2 n
    · cases hvisit
  · intro v v' hv hv' hlevel hlevel' hne heq
    exact hne ((hentry v hv).path_eq (hentry v' hv') (hlevel.trans hlevel'.symm) heq)
  · rintro mem check rfl
    exact ucMmuLevelIterate_calls mem check root

end Mooooooo
