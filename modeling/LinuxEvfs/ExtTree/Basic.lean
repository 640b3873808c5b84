import LinuxEvfs.Lib.Word
import Mathlib.Data.Nat.Bitwise

/-! # Extents as the disk holds them

`struct ext4_extent`: `ee_len` is the raw 16-bit length, where a value above `EXT_INIT_MAX_LEN`
marks an unwritten extent, and the two halves of the physical start are one number of 48 bits.

* `ext4CanExtentsBeMerged`, `mergeExtents`: the test and the update of one round of
  `ext4_ext_try_to_merge_right`.
* `Legal`: what `ext4_valid_extent` asks of an extent; every non-zero raw length is then a length
  of `1..32768`, or `1..32767` when unwritten (`Legal.len_pos`, `Legal.len_le`). -/

namespace LinuxEvfs.ExtTree.Basic

open LinuxEvfs.Lib.Word

/-- The longest written extent. -/
def EXT_INIT_MAX_LEN : ℕ := 32768

/-- The longest unwritten extent. -/
def EXT_UNWRITTEN_MAX_LEN : ℕ := 32767

/-- The number of logical blocks of a file, and the block number that stands for none. -/
def EXT_MAX_BLOCKS : ℕ := 0xffffffff

/-- `struct ext4_extent`. -/
structure Extent where
  eeBlock : ℕ
  eeLen : ℕ
  eeStart : ℕ
deriving DecidableEq, Repr, Inhabited

def ext4ExtIsUnwritten (ex : Extent) : Bool := decide (EXT_INIT_MAX_LEN < ex.eeLen)

def ext4ExtGetActualLen (ex : Extent) : ℕ :=
  if ex.eeLen ≤ EXT_INIT_MAX_LEN then ex.eeLen else ex.eeLen - EXT_INIT_MAX_LEN

def ext4ExtMarkUnwritten (ex : Extent) : Extent := { ex with eeLen := ex.eeLen ||| EXT_INIT_MAX_LEN }

def ext4ExtPblock (ex : Extent) : ℕ := ex.eeStart

/-- The low 32 and the next 16 bits are stored, the rest is dropped. -/
def ext4ExtStorePblock (ex : Extent) (pb : ℕ) : Extent := { ex with eeStart := pb % 2 ^ 48 }

/-- The logical block behind the extent. -/
def Extent.last (ex : Extent) : ℕ := ex.eeBlock + ext4ExtGetActualLen ex

/-- What a leaf block that passed its check holds: a raw length that is not zero, no wrap of the
logical range, and a physical start of 48 bits. -/
structure Legal (ex : Extent) : Prop where
  len_ne : ex.eeLen ≠ 0
  len_lt : ex.eeLen < 2 ^ 16
  last_le : ex.last ≤ EXT_MAX_BLOCKS
  start_lt : ex.eeStart < 2 ^ 48

instance (ex : Extent) : Decidable (Legal ex) :=
  decidable_of_iff (ex.eeLen ≠ 0 ∧ ex.eeLen < 2 ^ 16 ∧ ex.last ≤ EXT_MAX_BLOCKS ∧
      ex.eeStart < 2 ^ 48)
    ⟨fun ⟨h1, h2, h3, h4⟩ => ⟨h1, h2, h3, h4⟩, fun h => ⟨h.1, h.2, h.3, h.4⟩⟩

theorem len_pos_of_ne {ex : Extent} (h : ex.eeLen ≠ 0) : 0 < ext4ExtGetActualLen ex := by
  unfold ext4ExtGetActualLen EXT_INIT_MAX_LEN
  split_ifs <;> omega

theorem Legal.len_pos {ex : Extent} (h : Legal ex) : 0 < ext4ExtGetActualLen ex :=
  len_pos_of_ne h.len_ne

theorem Legal.block_lt_last {ex : Extent} (h : Legal ex) : ex.eeBlock < ex.last := by
  have := h.len_pos
  unfold Extent.last; omega

/-- The end of a legal extent does not wrap. -/
theorem Legal.end_eq {ex : Extent} (h : Legal ex) : add32 ex.eeBlock (ext4ExtGetActualLen ex) = ex.last := by
  have := h.last_le
  unfold Extent.last EXT_MAX_BLOCKS at this
  exact add32_of_lt (by omega)

/-- Storing a physical start keeps the extent legal. -/
theorem Legal.store {ex : Extent} (h : Legal ex) (pb : ℕ) : Legal (ext4ExtStorePblock ex pb) :=
  ⟨h.len_ne, h.len_lt, h.last_le, Nat.mod_lt _ (by decide)⟩

/-- The lengths are `1..32768`, and `1..32767` when unwritten. -/
theorem Legal.len_le {ex : Extent} (h : Legal ex) :
    ext4ExtGetActualLen ex ≤ EXT_INIT_MAX_LEN ∧
      (ext4ExtIsUnwritten ex = true → ext4ExtGetActualLen ex ≤ EXT_UNWRITTEN_MAX_LEN) := by
  have := h.len_lt
  unfold ext4ExtGetActualLen ext4ExtIsUnwritten EXT_INIT_MAX_LEN EXT_UNWRITTEN_MAX_LEN
  simp only [decide_eq_true_eq]
  split_ifs <;> omega

/-! ### Writing a length -/

/-- The extent with the length `len` and the state of `unwritten`: `ee_len = cpu_to_le16(len)`,
followed by `ext4_ext_mark_unwritten` where the extent was unwritten. -/
def setLen (ex : Extent) (len : ℕ) (unwritten : Bool) : Extent :=
  let ex' := { ex with eeLen := len % 2 ^ 16 }
  if unwritten then ext4ExtMarkUnwritten ex' else ex'

theorem lor_initMaxLen {n : ℕ} (h : n < 32768) : n ||| 32768 = n + 32768 := by
  have hor : 32768 + n = 32768 ||| n := Nat.two_pow_add_eq_or_of_lt (i := 15) (b := n) h 1
  rw [Nat.lor_comm, ← hor, Nat.add_comm]

section setLen
variable {e : Extent} {n : ℕ} {u : Bool}

theorem setLen_eeBlock : (setLen e n u).eeBlock = e.eeBlock := by
  unfold setLen; split_ifs <;> rfl

theorem setLen_eeStart : (setLen e n u).eeStart = e.eeStart := by
  unfold setLen; split_ifs <;> rfl

/-- A length within the limits of the state is read back, with its state. -/
theorem setLen_spec (h0 : 0 < n) (h1 : n ≤ EXT_INIT_MAX_LEN)
    (h2 : u = true → n ≤ EXT_UNWRITTEN_MAX_LEN) :
    ext4ExtGetActualLen (setLen e n u) = n ∧ ext4ExtIsUnwritten (setLen e n u) = u ∧
      (setLen e n u).eeLen ≠ 0 ∧ (setLen e n u).eeLen < 2 ^ 16 := by
  unfold EXT_INIT_MAX_LEN at h1
  unfold EXT_UNWRITTEN_MAX_LEN at h2
  have hmod : n % 2 ^ 16 = n := Nat.mod_eq_of_lt (by omega)
  unfold setLen ext4ExtMarkUnwritten
  cases u with
  | true =>
    have := h2 rfl
    simp only [if_true, hmod, ext4ExtGetActualLen, ext4ExtIsUnwritten, EXT_INIT_MAX_LEN,
      decide_eq_true_eq, lor_initMaxLen (show n < 32768 by omega)]
    refine ⟨?_, by omega, by omega, by omega⟩
    rw [if_neg (by omega)]
    omega
  | false =>
    simp only [hmod, ext4ExtGetActualLen, ext4ExtIsUnwritten, EXT_INIT_MAX_LEN,
      decide_eq_false_iff_not, Bool.false_eq_true, if_false]
    refine ⟨?_, by omega, by omega, by omega⟩
    rw [if_pos h1]

end setLen

/-! ### Merging -/

def ext4CanExtentsBeMerged (ex1 ex2 : Extent) : Bool :=
  if ext4ExtIsUnwritten ex1 != ext4ExtIsUnwritten ex2 then false
  else if add32 ex1.eeBlock (ext4ExtGetActualLen ex1) ≠ ex2.eeBlock then false
  else if ext4ExtGetActualLen ex1 + ext4ExtGetActualLen ex2 > EXT_INIT_MAX_LEN then false
  else if ext4ExtIsUnwritten ex1 = true ∧
      ext4ExtGetActualLen ex1 + ext4ExtGetActualLen ex2 > EXT_UNWRITTEN_MAX_LEN then false
  else decide (ext4ExtPblock ex1 + ext4ExtGetActualLen ex1 = ext4ExtPblock ex2)

/-- `ex1` takes over the blocks of its right neighbour `ex2`. -/
def mergeExtents (ex1 ex2 : Extent) : Extent :=
  setLen ex1 (ext4ExtGetActualLen ex1 + ext4ExtGetActualLen ex2) (ext4ExtIsUnwritten ex1)

theorem canMerge_spec {a b : Extent} (h : ext4CanExtentsBeMerged a b = true) :
    ext4ExtIsUnwritten a = ext4ExtIsUnwritten b ∧
      add32 a.eeBlock (ext4ExtGetActualLen a) = b.eeBlock ∧
      ext4ExtGetActualLen a + ext4ExtGetActualLen b ≤ EXT_INIT_MAX_LEN ∧
      (ext4ExtIsUnwritten a = true →
        ext4ExtGetActualLen a + ext4ExtGetActualLen b ≤ EXT_UNWRITTEN_MAX_LEN) ∧
      a.eeStart + ext4ExtGetActualLen a = b.eeStart := by
  unfold ext4CanExtentsBeMerged ext4ExtPblock at h
  split_ifs at h with h1 h2 h3 h4
  refine ⟨by simpa using h1, not_ne_iff.mp h2, not_lt.mp h3, fun hu => ?_, by simpa using h⟩
  by_contra hlt
  exact h4 ⟨hu, not_le.mp hlt⟩

/-- Merging two legal neighbours gives a legal extent over both ranges. -/
theorem mergeExtents_spec {a b : Extent} (ha : Legal a) (hb : Legal b)
    (h : ext4CanExtentsBeMerged a b = true) :
    a.last = b.eeBlock ∧ (mergeExtents a b).eeBlock = a.eeBlock ∧
      (mergeExtents a b).eeStart = a.eeStart ∧ Legal (mergeExtents a b) ∧
      ext4ExtGetActualLen (mergeExtents a b) = ext4ExtGetActualLen a + ext4ExtGetActualLen b ∧
      ext4ExtIsUnwritten (mergeExtents a b) = ext4ExtIsUnwritten a := by
  obtain ⟨-, hadj, hlen, hun, -⟩ := canMerge_spec h
  have hla := ha.last_le
  have hlb := hb.last_le
  unfold Extent.last EXT_MAX_BLOCKS at hla hlb
  rw [add32_of_lt (by omega)] at hadj
  obtain ⟨h1, h2, h3, h4⟩ := setLen_spec (e := a) (u := ext4ExtIsUnwritten a)
    (Nat.add_pos_left ha.len_pos _) hlen hun
  have hblk : (mergeExtents a b).eeBlock = a.eeBlock := setLen_eeBlock
  have hst : (mergeExtents a b).eeStart = a.eeStart := setLen_eeStart
  refine ⟨hadj, hblk, hst, ⟨h3, h4, ?_, ?_⟩, h1, h2⟩
  · have hlm : ext4ExtGetActualLen (mergeExtents a b) = _ := h1
    unfold Extent.last EXT_MAX_BLOCKS
    rw [hblk, hlm]
    omega
  · rw [hst]; exact ha.start_lt

end LinuxEvfs.ExtTree.Basic
