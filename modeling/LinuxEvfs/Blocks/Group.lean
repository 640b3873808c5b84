import Mathlib.Algebra.Order.BigOperators.Group.Finset
import LinuxEvfs.Blocks.Model

/-! # One block group

* `group_lt`, `offset_lt`: the group and the cluster of a block of the file system.
* `CallOk`: the calls that keep the count of a group, told from the group before the call.
* `locked_spec`: such a call changes the count of its group as it changes the bitmap. -/

namespace LinuxEvfs.Blocks

open Finset Lib.Word

variable {geo : Geometry}

/-! ### Numbers of the geometry -/

theorem Layout.ratio_pos (geo : Layout) : 0 < geo.ratio := Nat.two_pow_pos _

theorem blocksPerGroup_pos (geo : Geometry) : 0 < geo.blocksPerGroup :=
  Nat.mul_pos geo.clusters_pos geo.ratio_pos

theorem sub64_div_lt {b : ℕ} (h : InRange geo b) :
    sub64 b geo.firstDataBlock / geo.blocksPerGroup < geo.groupsCount := by
  have hp := blocksPerGroup_pos geo
  rw [sub64_of_le h.1 (h.2.trans geo.count_lt)]
  unfold Layout.groupsCount
  rw [Nat.div_lt_iff_lt_mul hp]
  have hle : geo.blocksCount - geo.firstDataBlock ≤
      (geo.blocksCount - geo.firstDataBlock + geo.blocksPerGroup - 1) / geo.blocksPerGroup *
        geo.blocksPerGroup := by
    have := Nat.lt_div_mul_add (a := geo.blocksCount - geo.firstDataBlock +
      geo.blocksPerGroup - 1) hp
    omega
  have := h.1
  have := h.2
  omega

theorem group_lt {b : ℕ} (h : InRange geo b) : (groupNoAndOffset geo b).1 < geo.groupsCount :=
  lt_of_le_of_lt (Nat.mod_le _ _) (sub64_div_lt h)

theorem offset_lt (geo : Geometry) (b : ℕ) : (groupNoAndOffset geo b).2 < geo.clustersPerGroup := by
  simp only [groupNoAndOffset]
  rw [Nat.div_lt_iff_lt_mul geo.ratio_pos]
  exact Nat.mod_lt _ (blocksPerGroup_pos geo)

/-- Rounding one block up gives one cluster. -/
theorem numB2C_one (geo : Geometry) : numB2C geo 1 = 1 := by
  have hp := geo.ratio_pos
  have hle : geo.ratio ≤ geo.blocksPerGroup := Nat.le_mul_of_pos_left _ geo.clusters_pos
  have hlt := geo.blocks_lt
  unfold numB2C add32
  rcases Nat.lt_or_ge (1 + geo.ratio) (2 ^ 32) with h | h
  · rw [Nat.mod_eq_of_lt h, sub32_of_le (by omega) h, Nat.add_sub_cancel_left, Nat.div_self hp]
  · -- the largest ratio: the sum wraps to zero, and back
    have h32 : 1 + geo.ratio = 2 ^ 32 := by omega
    rw [h32, Nat.mod_self, sub32_of_lt (by omega)]
    have : 0 + 2 ^ 32 - 1 = geo.ratio := by omega
    rw [this, Nat.div_self hp]

/-! ### Bitmaps -/

theorem clearBits_le (geo : Geometry) (f : ℕ → Bool) : clearBits geo f ≤ geo.clustersPerGroup := by
  refine (card_filter_le _ _).trans ?_
  rw [card_range]

theorem clearBits_set {f : ℕ → Bool} {i : ℕ} (hi : i < geo.clustersPerGroup) (h : f i = false) :
    clearBits geo (Function.update f i true) + 1 = clearBits geo f := by
  have hmem : i ∈ ({j ∈ range geo.clustersPerGroup | f j = false} : Finset ℕ) :=
    mem_filter.mpr ⟨mem_range.mpr hi, h⟩
  have heq : ({j ∈ range geo.clustersPerGroup | Function.update f i true j = false} : Finset ℕ) =
      ({j ∈ range geo.clustersPerGroup | f j = false} : Finset ℕ).erase i := by
    ext j
    rcases eq_or_ne j i with rfl | hj <;> simp [*]
  unfold clearBits
  rw [heq, card_erase_add_one hmem]

theorem clearBits_clear {f : ℕ → Bool} {i : ℕ} (hi : i < geo.clustersPerGroup) (h : f i = true) :
    clearBits geo (Function.update f i false) = clearBits geo f + 1 := by
  have h' := clearBits_set (f := Function.update f i false) hi (Function.update_self ..)
  rw [Function.update_idem, ← h, Function.update_eq_self] at h'
  exact h'.symm

/-! ### One group -/

/-- A call that keeps the counts: it is refused, or clusters are blocks and the group is not
initialised by the call, or to the count that is right then. -/
def CallOk (geo : Geometry) (op : Op) (group offset : ℕ) (gr : Group) : Prop :=
  match op with
  | .alloc => gr.bitmap offset = true ∨ geo.ratio = 1 ∧
      ((geo.groupDescCsum && gr.blockUninit) = true →
        clearBits geo gr.bitmap = geo.freeClustersAfterInit group + 1)
  | .free => gr.bitmap offset = false ∨ geo.ratio = 1

/-- The clusters a call gives back. -/
def Op.delta : Op → ℤ
  | .alloc => -1
  | .free => 1

theorem mod_width {n : ℕ} (h : n ≤ geo.clustersPerGroup) : n % 2 ^ geo.countWidth = n :=
  Nat.mod_eq_of_lt (h.trans_lt geo.clusters_lt)

theorem lt_word {n : ℕ} (h : n ≤ geo.clustersPerGroup) : n < 2 ^ 32 :=
  (h.trans_lt geo.clusters_lt).trans_le (Nat.pow_le_pow_right (by decide) geo.width_le)

theorem numB2C_of_ratio {n : ℕ} (hr : geo.ratio = 1) (hn : n < 2 ^ 32) : numB2C geo n = n := by
  unfold numB2C add32
  rw [hr, Nat.div_one]
  unfold sub32
  omega

theorem c2b_of_ratio {n : ℕ} (hr : geo.ratio = 1) (hn : n < 2 ^ 32) : c2b geo n = n := by
  unfold c2b
  rw [hr, Nat.mul_one, Nat.mod_eq_of_lt hn]

theorem alloc_bitmap {group offset : ℕ} {gr gr' : Group}
    (h : allocLocked geo group offset gr = some gr') :
    gr.bitmap offset = false ∧ gr'.bitmap = Function.update gr.bitmap offset true := by
  unfold allocLocked at h
  by_cases hb : gr.bitmap offset = true
  · rw [if_pos hb] at h; cases h
  · rw [if_neg hb] at h
    cases h
    refine ⟨Bool.eq_false_iff.mpr hb, ?_⟩
    unfold initGroup Group.setFree Group.setBit
    split_ifs <;> rfl

theorem alloc_free {group offset : ℕ} {gr gr' : Group} (hr : geo.ratio = 1)
    (ho : offset < geo.clustersPerGroup) (hf : gr.free = clearBits geo gr.bitmap)
    (h : allocLocked geo group offset gr = some gr') :
    gr'.free = if (geo.groupDescCsum && gr.blockUninit) = true then
      geo.freeClustersAfterInit group else gr.free - 1 := by
  have hb := (alloc_bitmap h).1
  unfold allocLocked at h
  rw [if_neg (by rw [hb]; decide)] at h
  cases h
  have hle : gr.free ≤ geo.clustersPerGroup := hf ▸ clearBits_le geo _
  have hpos : 1 ≤ gr.free := by have := clearBits_set ho hb; omega
  have hw := lt_word hle
  unfold initGroup Group.setFree Group.setBit
  by_cases hu : (geo.groupDescCsum && gr.blockUninit) = true
  · simp only [hu, if_true]
    exact mod_width (geo.afterInit_le group)
  · simp only [hu, if_false, Bool.false_eq_true]
    rw [c2b_of_ratio hr hw, sub32_of_le hpos hw, numB2C_of_ratio hr (by omega)]
    exact mod_width (by omega)

theorem free_spec {offset : ℕ} {gr gr' : Group} (h : freeLocked geo offset gr = some gr') :
    gr.bitmap offset = true ∧ gr'.bitmap = Function.update gr.bitmap offset false ∧
      (geo.ratio = 1 → offset < geo.clustersPerGroup → gr.free = clearBits geo gr.bitmap →
        gr'.free = gr.free + 1) := by
  unfold freeLocked at h
  by_cases hb : gr.bitmap offset = true
  · rw [if_pos hb] at h
    cases h
    refine ⟨hb, rfl, fun hr ho hf => ?_⟩
    have hle : gr.free + 1 ≤ geo.clustersPerGroup := by
      rw [hf, ← clearBits_clear ho hb]
      exact clearBits_le geo _
    have hw := lt_word hle
    unfold Group.setFree Group.setBit
    dsimp only
    rw [c2b_of_ratio hr (by omega), add32_of_lt hw, numB2C_of_ratio hr hw]
    exact mod_width hle
  · rw [if_neg hb] at h; cases h

/-- **The group lock.** -/
theorem locked_spec {op : Op} {group offset : ℕ} {gr gr' : Group}
    (ho : offset < geo.clustersPerGroup) (hf : gr.free = clearBits geo gr.bitmap)
    (hok : CallOk geo op group offset gr) (h : locked geo op group offset gr = some gr') :
    geo.ratio = 1 ∧ gr'.free = clearBits geo gr'.bitmap ∧ (gr'.free : ℤ) = gr.free + op.delta := by
  cases op with
  | alloc =>
    obtain ⟨hb, hset⟩ := alloc_bitmap h
    have hc := clearBits_set ho hb
    rcases hok with hok | ⟨hr, hu⟩
    · rw [hb] at hok; cases hok
    have hfree := alloc_free hr ho hf h
    rw [hset]
    have hd : Op.alloc.delta = -1 := rfl
    by_cases hg : (geo.groupDescCsum && gr.blockUninit) = true
    · rw [if_pos hg] at hfree
      have := hu hg
      exact ⟨hr, by omega, by omega⟩
    · rw [if_neg hg] at hfree
      exact ⟨hr, by omega, by omega⟩
  | free =>
    obtain ⟨hb, hset, hfree⟩ := free_spec h
    rcases hok with hok | hr
    · rw [hb] at hok; cases hok
    have hc := clearBits_clear ho hb
    rw [hset, hfree hr ho hf]
    have hd : Op.free.delta = 1 := rfl
    exact ⟨hr, by omega, by omega⟩

theorem callOk_of_none {op : Op} {group offset : ℕ} {gr : Group}
    (h : locked geo op group offset gr = none) : CallOk geo op group offset gr := by
  cases op with
  | alloc =>
    refine Or.inl ?_
    by_contra hbit
    simp only [locked, allocLocked] at h
    rw [if_neg hbit] at h
    cases h
  | free =>
    refine Or.inl ?_
    by_contra hbit
    simp only [locked, freeLocked] at h
    rw [if_pos (eq_true_of_ne_false hbit)] at h
    cases h

end LinuxEvfs.Blocks
