import LinuxEvfs.Lib.Scan
import LinuxEvfs.Lib.Word

/-! # `evfs_inode_iter`

The next inode in use from a number on. The number has 64 bits, and the loop variable 32.

* `Next`: what is asked of a call; `Returns`: what it returns, if its loop ends.
* `iterLoop_scan`: the loop is a scan, up to the point where its variable is `s_inodes_count`. The test `i <= total`
  does not fail if that is the last 32-bit number, and the scan begins again at 0.
* `inode_iter_iff`: a call is right exactly if neither the number nor the variable is cut to 32 bits in a way that
  matters; to go on until 0 is returned visits all inodes in use only if there are fewer than `2 ^ 32 - 1` inodes.
* `evfsInodeIter_restarts`: calls that begin again at the first inode. -/

namespace LinuxEvfs.Inodes.Iter

open LinuxEvfs.Lib.Word LinuxEvfs.Lib.Scan

/-- The inode bitmaps that can be read; there is none behind the last group. -/
structure InodeMap where
  groupsCount : ℕ
  inodesPerGroup : ℕ
  bitmap : ℕ → Option (ℕ → Bool)
  ipg_pos : 0 < inodesPerGroup
  inodes_lt : groupsCount * inodesPerGroup < 2 ^ 32
  missing : ∀ group, groupsCount ≤ group → bitmap group = none

/-- `s_inodes_count`, which the mount has compared with the product. -/
def InodeMap.inodesCount (m : InodeMap) : ℕ := m.groupsCount * m.inodesPerGroup

variable (m : InodeMap)

/-- The loop with the variable `i`; `none` while it runs. -/
def iterLoop : ℕ → ℕ → Option ℕ
  | 0, _ => none
  | fuel + 1, i =>
    if m.inodesCount < i then some 0
    else
      let group := sub32 i 1 / m.inodesPerGroup
      let offset := sub32 i 1 % m.inodesPerGroup
      match m.bitmap group with
      | none => iterLoop fuel (add32 i 1)
      | some bitmap => if bitmap offset then some i else iterLoop fuel (add32 i 1)

/-- `evfs_inode_iter`: the value of `out.ino_num`. -/
def evfsInodeIter (fuel start : ℕ) : Option ℕ := iterLoop m fuel (start % 2 ^ 32)

/-- The call is repeated from the number behind the last result, until it returns 0. -/
def enumerate (fuel : ℕ) : ℕ → ℕ → Option (List ℕ)
  | 0, _ => none
  | calls + 1, start =>
    match evfsInodeIter m fuel start with
    | none => none
    | some r => if r = 0 then some [] else (enumerate fuel calls (r + 1)).map (r :: ·)

/-! ### What is asked -/

/-- The bit of an inode in the bitmap of its group. -/
def inUse (i : ℕ) : Bool :=
  0 < i && (m.bitmap ((i - 1) / m.inodesPerGroup)).any fun bitmap => bitmap ((i - 1) % m.inodesPerGroup)

/-- The inodes in use of the groups that can be read. -/
def InUse : Set ℕ := {i | inUse m i = true ∧ i ≤ m.inodesCount}

/-- **The next inode in use**, or 0 if there is none. -/
def Next (start r : ℕ) : Prop :=
  (r = 0 ∧ ∀ i ∈ InUse m, ¬ start ≤ i) ∨ IsLeast {i | i ∈ InUse m ∧ start ≤ i} r

def Returns (start r : ℕ) : Prop := ∃ fuel, evfsInodeIter m fuel start = some r

/-- The inodes visited one after the other. -/
def Visits (start : ℕ) (l : List ℕ) : Prop := ∃ fuel calls, enumerate m fuel calls start = some l

variable {m} {i r start fuel : ℕ}

/-! ### The loop -/

theorem inUse_le (h : inUse m i = true) : i ≤ m.inodesCount := by
  simp only [inUse, Bool.and_eq_true, decide_eq_true_eq] at h
  by_contra hlt
  have hgroup : m.groupsCount ≤ (i - 1) / m.inodesPerGroup := by
    rw [Nat.le_div_iff_mul_le m.ipg_pos]
    unfold InodeMap.inodesCount at hlt
    omega
  rw [m.missing _ hgroup] at h
  exact absurd h.2 (by simp)

theorem mem_inUse : i ∈ InUse m ↔ inUse m i = true := ⟨fun h => h.1, fun h => ⟨h, inUse_le h⟩⟩

theorem pos_of_inUse (h : i ∈ InUse m) : i ≠ 0 := by
  rintro rfl
  exact absurd h.1 (by simp [inUse])

/-- One round. The number 0 stands for the bit before the first, in a group that does not exist. -/
theorem iterLoop_succ (hi : i ≤ m.inodesCount) (fuel : ℕ) :
    iterLoop m (fuel + 1) i = if inUse m i then some i else iterLoop m fuel (add32 i 1) := by
  have hlt := m.inodes_lt
  rw [iterLoop, if_neg (Nat.not_lt.mpr hi)]
  rcases Nat.eq_zero_or_pos i with rfl | hpos
  · have hgroup : m.groupsCount ≤ sub32 0 1 / m.inodesPerGroup := by
      rw [Nat.le_div_iff_mul_le m.ipg_pos, sub32_of_lt Nat.zero_lt_one]
      omega
    simp [inUse, m.missing _ hgroup]
  · have hsub : sub32 i 1 = i - 1 := sub32_of_le hpos (by unfold InodeMap.inodesCount at hi; omega)
    simp only [hsub, inUse, hpos, decide_true, Bool.true_and]
    cases m.bitmap ((i - 1) / m.inodesPerGroup) <;> simp

/-- **The loop is a scan** of the numbers up to `s_inodes_count`. -/
theorem iterLoop_scan (fuel n : ℕ) : ∀ i < 2 ^ 32, i + n ≤ m.inodesCount + 1 →
    iterLoop m (fuel + n) i =
      if scan (inUse m) n i < i + n then some (scan (inUse m) n i) else iterLoop m fuel ((i + n) % 2 ^ 32) := by
  have hlt : m.inodesCount < 2 ^ 32 := m.inodes_lt
  induction n with
  | zero =>
    intro i hi _
    rw [if_neg (by simp [scan])]
    simp only [Nat.add_zero, Nat.mod_eq_of_lt hi]
  | succ n ih =>
    intro i hi hle
    rw [← Nat.add_assoc fuel, iterLoop_succ (by omega)]
    cases huse : inUse m i with
    | true =>
      rw [scan_succ_of huse, if_pos rfl, if_pos (by omega)]
    | false =>
      rw [scan_succ_of_not huse, if_neg Bool.false_ne_true, ← Nat.add_assoc i, Nat.add_right_comm i]
      rcases Nat.eq_or_lt_of_le (Nat.succ_le_of_lt hi) with hend | hend
      · -- the variable wraps, and this was the last number
        obtain rfl : n = 0 := by omega
        have hend' : i + 1 = 2 ^ 32 := hend
        rw [if_neg (by simp [scan]), Nat.add_zero, Nat.add_zero, add32]
      · rw [add32_of_lt hend]
        exact ih (i + 1) hend (by omega)

/-- A result does not depend on the fuel. -/
theorem iterLoop_mono (h : iterLoop m fuel i = some r) (k : ℕ) : iterLoop m (fuel + k) i = some r := by
  induction fuel generalizing i with
  | zero => cases h
  | succ fuel ih =>
    rw [Nat.add_right_comm]
    unfold iterLoop at h ⊢
    split_ifs at h ⊢ with hend
    · exact h
    · dsimp only at h ⊢
      cases hb : m.bitmap (sub32 i 1 / m.inodesPerGroup) with
      | none =>
        rw [hb] at h
        exact ih h
      | some bitmap =>
        rw [hb] at h
        dsimp only at h ⊢
        split_ifs at h ⊢
        · exact h
        · exact ih h

theorem Returns.unique {r' : ℕ} (h : Returns m start r) (h' : Returns m start r') : r = r' := by
  obtain ⟨fuel, h⟩ := h
  obtain ⟨fuel', h'⟩ := h'
  have h1 := iterLoop_mono h fuel'
  have h2 := iterLoop_mono h' fuel
  rw [Nat.add_comm] at h2
  exact Option.some.inj (h1.symm.trans h2)

/-! ### What the loop returns -/

/-- An inode in use from the variable on is found. -/
theorem iterLoop_found (hi : i < 2 ^ 32) (h : ∃ j ∈ InUse m, i ≤ j) :
    ∃ r, IsLeast {j | j ∈ InUse m ∧ i ≤ j} r ∧
      ∀ fuel, iterLoop m (fuel + (m.inodesCount + 1 - i)) i = some r := by
  obtain ⟨j, hj, hij⟩ := h
  have hok := scan_ok (inUse m) (m.inodesCount + 1 - i) i
  have hjle := hj.2
  have hk : scan (inUse m) (m.inodesCount + 1 - i) i < i + (m.inodesCount + 1 - i) := by
    by_contra hge
    have := hok.before j hij (by omega)
    rw [hj.1] at this
    cases this
  refine ⟨_, ⟨⟨mem_inUse.mpr (hok.hit hk), hok.ge⟩, fun x hx => ?_⟩, fun fuel => ?_⟩
  · by_contra hlt
    have := hok.before x hx.2 (Nat.not_le.mp hlt)
    rw [hx.1.1] at this
    cases this
  · rw [iterLoop_scan fuel _ i hi (by omega), if_pos hk]

/-- Where there is none, the variable goes behind `s_inodes_count`, or to 0. -/
theorem iterLoop_past (hi : i ≤ m.inodesCount + 1) (hi32 : i < 2 ^ 32) (h : ∀ j ∈ InUse m, ¬ i ≤ j) (fuel : ℕ) :
    iterLoop m (fuel + (m.inodesCount + 1 - i)) i = iterLoop m fuel ((m.inodesCount + 1) % 2 ^ 32) := by
  have hok := scan_ok (inUse m) (m.inodesCount + 1 - i) i
  rw [iterLoop_scan fuel _ i hi32 (by omega), if_neg fun hk => h _ (mem_inUse.mpr (hok.hit hk)) hok.ge,
    Nat.add_sub_of_le hi]

/-- If the number of inodes is not the last 32-bit number, the loop ends. -/
theorem iterLoop_next (hfew : m.inodesCount + 1 < 2 ^ 32) (hi : i < 2 ^ 32) :
    ∃ r, Next m i r ∧ iterLoop m (m.inodesCount + 2) i = some r := by
  by_cases h : ∃ j ∈ InUse m, i ≤ j
  · obtain ⟨r, hr, hloop⟩ := iterLoop_found hi h
    obtain ⟨j, hj, hij⟩ := h
    have := hj.2
    have hfuel : m.inodesCount + 2 = (i + 1) + (m.inodesCount + 1 - i) := by omega
    exact ⟨r, .inr hr, by rw [hfuel, hloop]⟩
  · push Not at h
    refine ⟨0, .inl ⟨rfl, fun j hj => Nat.not_le.mpr (h j hj)⟩, ?_⟩
    rcases Nat.lt_or_ge (m.inodesCount + 1) i with hgt | hle
    · rw [iterLoop, if_pos (by omega)]
    · have hfuel : m.inodesCount + 2 = (i + 1) + (m.inodesCount + 1 - i) := by omega
      rw [hfuel, iterLoop_past hle hi (fun j hj => Nat.not_le.mpr (h j hj)), Nat.mod_eq_of_lt hfew, iterLoop,
        if_pos (Nat.lt_succ_self _)]

/-- If it is, the loop does not end without an inode in use. -/
theorem iterLoop_full (hfull : m.inodesCount + 1 = 2 ^ 32) (hi : i < 2 ^ 32) (h : iterLoop m fuel i = some r) :
    r ∈ InUse m := by
  induction fuel generalizing i with
  | zero => cases h
  | succ fuel ih =>
    rw [iterLoop_succ (by omega)] at h
    split_ifs at h with huse
    · cases h
      exact mem_inUse.mpr huse
    · exact ih (add32_lt i 1) h

/-! ### All inodes -/

theorem enumerate_full (hfull : m.inodesCount + 1 = 2 ^ 32) (fuel calls : ℕ) :
    ∀ start, enumerate m fuel calls start = none := by
  induction calls with
  | zero => exact fun _ => rfl
  | succ calls ih =>
    intro start
    rw [enumerate]
    cases hr : evfsInodeIter m fuel start with
    | none => rfl
    | some r =>
      have huse : r ∈ InUse m := iterLoop_full hfull (Nat.mod_lt _ (by decide)) hr
      simp only [if_neg (pos_of_inUse huse), ih, Option.map_none]

/-- Every call but the last goes on behind the inode it has found. -/
theorem enumerate_few (hfew : m.inodesCount + 1 < 2 ^ 32) (calls : ℕ) :
    ∀ start < 2 ^ 32, m.inodesCount + 2 ≤ start + (calls + 1) →
      ∃ l, enumerate m (m.inodesCount + 2) (calls + 1) start = some l ∧ Enumerates (InUse m) start l := by
  induction calls with
  | zero =>
    intro start hstart hcalls
    obtain ⟨r, hnext, hr⟩ := iterLoop_next hfew hstart
    have hnone : ∀ i ∈ InUse m, ¬ start ≤ i := fun i hi hle => by
      have := hi.2
      omega
    have hzero : r = 0 := by
      rcases hnext with ⟨rfl, -⟩ | hleast
      · rfl
      · exact absurd hleast.1.2 (hnone r hleast.1.1)
    refine ⟨[], ?_, .nil hnone⟩
    rw [enumerate, evfsInodeIter, Nat.mod_eq_of_lt hstart, hr]
    simp only [hzero, if_true]
  | succ calls ih =>
    intro start hstart hcalls
    obtain ⟨r, hnext, hr⟩ := iterLoop_next hfew hstart
    rw [enumerate, evfsInodeIter, Nat.mod_eq_of_lt hstart, hr]
    rcases hnext with ⟨rfl, hnone⟩ | hleast
    · exact ⟨[], rfl, .nil hnone⟩
    · have hle := hleast.1.1.2
      have hge := hleast.1.2
      obtain ⟨l, hl, hall⟩ := ih (r + 1) (by omega) (by omega)
      refine ⟨r :: l, ?_, hall.cons hleast⟩
      simp only [if_neg (pos_of_inUse hleast.1.1), hl, Option.map_some]

/-! ### The property -/

/-- The loop ends, and it begins where it should, or behind the inodes in use. -/
def Ends (m : InodeMap) (start : ℕ) : Prop :=
  m.inodesCount + 1 < 2 ^ 32 ∧ (start < 2 ^ 32 ∨ ∀ i ∈ InUse m, i < start % 2 ^ 32)

/-- The inputs on which a call is right: with the largest number of inodes there has to be one to find. -/
def Fits (m : InodeMap) (start : ℕ) : Prop := Ends m start ∨ (start < 2 ^ 32 ∧ ∃ i ∈ InUse m, start ≤ i)

theorem next_iff_fits (m : InodeMap) (start : ℕ) : (∃ r, Returns m start r ∧ Next m start r) ↔ Fits m start := by
  have hcount : m.inodesCount < 2 ^ 32 := m.inodes_lt
  have hcut : start % 2 ^ 32 < 2 ^ 32 := Nat.mod_lt _ (by decide)
  constructor
  · rintro ⟨r, ⟨fuel, hr⟩, hnext⟩
    rcases Nat.eq_or_lt_of_le (Nat.succ_le_of_lt hcount) with hfull | hfew
    · have huse : r ∈ InUse m := iterLoop_full hfull hcut hr
      rcases hnext with ⟨rfl, -⟩ | hleast
      · exact absurd rfl (pos_of_inUse huse)
      · have := huse.2
        have := hleast.1.2
        exact .inr ⟨by omega, r, huse, hleast.1.2⟩
    · refine .inl ⟨hfew, ?_⟩
      rcases Nat.lt_or_ge start (2 ^ 32) with hstart | hstart
      · exact .inl hstart
      -- a number of more than 32 bits is behind all inodes
      · refine .inr fun i hi => Nat.not_le.mp fun hle => ?_
        obtain ⟨r', hleast, hr'⟩ := iterLoop_found hcut ⟨i, hi, hle⟩
        obtain rfl : r = r' := Returns.unique ⟨fuel, hr⟩ ⟨_, hr' 0⟩
        rcases hnext with ⟨rfl, -⟩ | hnext
        · exact pos_of_inUse hleast.1.1 rfl
        · have := hnext.1.1.2
          have := hnext.1.2
          omega
  · rintro (⟨hfew, hstart | hbelow⟩ | ⟨hstart, hex⟩)
    · obtain ⟨r, hnext, hr⟩ := iterLoop_next hfew hstart
      exact ⟨r, ⟨_, by rw [evfsInodeIter, Nat.mod_eq_of_lt hstart, hr]⟩, hnext⟩
    · obtain ⟨r, hnext, hr⟩ := iterLoop_next hfew hcut
      refine ⟨r, ⟨_, hr⟩, ?_⟩
      rcases hnext with ⟨rfl, -⟩ | hleast
      · refine .inl ⟨rfl, fun i hi hle => ?_⟩
        have := hbelow i hi
        have := Nat.mod_le start (2 ^ 32)
        omega
      · exact absurd hleast.1.2 (Nat.not_le.mpr (hbelow r hleast.1.1))
    · obtain ⟨r, hleast, hr⟩ := iterLoop_found hstart hex
      exact ⟨r, ⟨_, by rw [evfsInodeIter, Nat.mod_eq_of_lt hstart, hr 0]⟩, .inr hleast⟩

/-- From a number of more than 32 bits on no inode is visited. -/
theorem visits_large (hstart : 2 ^ 32 ≤ start) :
    (∃ l, Visits m start l ∧ Enumerates (InUse m) start l) ↔ Ends m start := by
  have hcount : m.inodesCount < 2 ^ 32 := m.inodes_lt
  have hnone : ∀ i ∈ InUse m, ¬ start ≤ i := fun i hi hle => by
    have := hi.2
    omega
  have hends : (∃ r, Returns m start r ∧ Next m start r) ↔ Ends m start :=
    (next_iff_fits m start).trans (or_iff_left fun h => absurd h.1 (Nat.not_lt.mpr hstart))
  rw [← hends]
  constructor
  · rintro ⟨l, ⟨fuel, calls, hl⟩, hall⟩
    obtain rfl : l = [] := List.eq_nil_iff_forall_not_mem.mpr fun i hi =>
      hnone i ((hall.mem_iff i).mp hi).1 ((hall.mem_iff i).mp hi).2
    cases calls with
    | zero => cases hl
    | succ calls =>
      rw [enumerate] at hl
      cases hr : evfsInodeIter m fuel start with
      | none =>
        rw [hr] at hl
        cases hl
      | some r =>
        simp only [hr] at hl
        split_ifs at hl with hzero
        · exact ⟨r, ⟨fuel, hr⟩, .inl ⟨hzero, hnone⟩⟩
        · simp at hl
  · rintro ⟨r, ⟨fuel, hr⟩, hnext⟩
    have hzero : r = 0 := by
      rcases hnext with ⟨rfl, -⟩ | hleast
      · rfl
      · exact absurd hleast.1.2 (hnone r hleast.1.1)
    refine ⟨[], ⟨fuel, 1, ?_⟩, .nil hnone⟩
    rw [enumerate, hr]
    simp only [hzero, if_true]

/-- **Iteration over the inodes.** -/
theorem inode_iter_iff (m : InodeMap) (start : ℕ) :
    ((∃ r, Returns m start r ∧ Next m start r) ↔ Fits m start) ∧
      ((∃ l, Visits m start l ∧ Enumerates (InUse m) start l) ↔ Ends m start) := by
  refine ⟨next_iff_fits m start, ?_⟩
  rcases Nat.lt_or_ge start (2 ^ 32) with hstart | hstart
  · constructor
    · rintro ⟨l, ⟨fuel, calls, hl⟩, -⟩
      rcases Nat.eq_or_lt_of_le (Nat.succ_le_of_lt m.inodes_lt) with hfull | hfew
      · rw [enumerate_full hfull] at hl
        cases hl
      · exact ⟨hfew, .inl hstart⟩
    · rintro ⟨hfew, -⟩
      obtain ⟨l, hl, hall⟩ := enumerate_few hfew (m.inodesCount + 1) start hstart (by omega)
      exact ⟨l, ⟨_, _, hl⟩, hall⟩
  · exact visits_large hstart

/-- One group of 24 inodes, of which one is in use. -/
def smallMap : InodeMap where
  groupsCount := 1
  inodesPerGroup := 24
  bitmap group := if group = 0 then some (· == 10) else none
  ipg_pos := by decide
  inodes_lt := by decide
  missing group h := if_neg (Nat.ne_of_gt h)

/-- As many inodes as there can be; the first is in use. -/
def fullMap : InodeMap where
  groupsCount := 65537
  inodesPerGroup := 65535
  bitmap group := if group < 65537 then some fun offset => group == 0 && offset == 0 else none
  ipg_pos := by decide
  inodes_lt := by decide
  missing group h := if_neg (Nat.not_lt.mpr h)

/-- **Calls that begin again.** From `2 ^ 32` on there is no inode, and the call returns the inode 11; from the last
inode on there is none in use, and the call returns the first. -/
theorem evfsInodeIter_restarts :
    (evfsInodeIter smallMap 13 (2 ^ 32) = some 11 ∧ ¬ Next smallMap (2 ^ 32) 11) ∧
      (evfsInodeIter fullMap 3 (2 ^ 32 - 1) = some 1 ∧ ¬ Next fullMap (2 ^ 32 - 1) 1) := by
  refine ⟨⟨by decide, ?_⟩, by decide, ?_⟩
  · rintro (⟨h, -⟩ | h)
    · cases h
    · exact absurd h.1.2 (by decide)
  · rintro (⟨h, -⟩ | h)
    · cases h
    · exact absurd h.1.2 (by decide)

end LinuxEvfs.Inodes.Iter
