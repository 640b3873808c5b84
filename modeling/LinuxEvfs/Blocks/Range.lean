import LinuxEvfs.Errno
import LinuxEvfs.Blocks.Counts

/-! # Blocks that the file system does not have

Neither call compares the number of the block with the size of the file system. Here a call is followed from its
first to its last line, with the value it returns.

* `Rejected`: what is asked of a call on a block out of range.
* `rejected_iff`: it is the bitmap, if there is one for the group, that rejects a call or does not.
* `block_range_iff`: so an allocation behind the end is rejected as long as the number of the group fits into 32 bits,
  and a release only behind the last group.
* `groupNoAndOffset_inj`: blocks in range do not share a bit.
* `evfsBlockFree_padding`: a release behind the end, and an allocation whose group number wraps. -/

namespace LinuxEvfs.Blocks

open Lib.Word Errno

variable {geo : Geometry}

/-- The answers of the calls that may fail; there is no bitmap to read behind the last group. -/
structure Answers (geo : Geometry) where
  readBitmap : ℕ → Option Errno
  missing : ∀ group, geo.groupsCount ≤ group → (readBitmap group).isSome
  groupDesc : Bool
  journalStart : Option Errno
  bitmapAccess : Option Errno
  descAccess : Option Errno
  descDirty : Option Errno
  bitmapDirty : Option Errno
  journalStop : Option Errno

/-- The value returned for the answers, of which the first failure counts. -/
def firstError : List (Option Errno) → ℤ
  | [] => 0
  | some err :: _ => err.ret
  | none :: rest => firstError rest

/-- From the write access to the buffers to the label `stop_journal`. -/
def inHandle (geo : Geometry) (ans : Answers geo) (op : Op) (group offset : ℕ) (s : State) : State × ℤ :=
  match ans.bitmapAccess with
  | some err => (s, err.ret)
  | none =>
    match ans.descAccess with
    | some err => (s, err.ret)
    | none =>
      match locked geo op group offset (s.groups group) with
      | none => (s, EEXIST.ret)
      | some _ => (callAt geo op group offset s, firstError [ans.descDirty, ans.bitmapDirty])

/-- The common course of `evfs_block_alloc` and `evfs_block_free`. -/
def blockCall (geo : Geometry) (ans : Answers geo) (op : Op) (bindex : ℕ) (s : State) : State × ℤ :=
  let group := (groupNoAndOffset geo bindex).1
  let offset := (groupNoAndOffset geo bindex).2
  match ans.readBitmap group with
  | some err => (s, err.ret)
  | none =>
    if ans.groupDesc = false then (s, EINVAL.ret)
    else
      match ans.journalStart with
      | some err => (s, err.ret)
      | none =>
        let r := inHandle geo ans op group offset s
        (r.1, ans.journalStop.elim r.2 Errno.ret)

def evfsBlockAlloc (geo : Geometry) (ans : Answers geo) : ℕ → State → State × ℤ := blockCall geo ans .alloc

def evfsBlockFree (geo : Geometry) (ans : Answers geo) : ℕ → State → State × ℤ := blockCall geo ans .free

/-- An error, with all bitmaps and counts as they were. -/
structure Rejected (geo : Geometry) (s : State) (r : State × ℤ) : Prop where
  ret : r.2 < 0
  bitmaps : ∀ g < geo.groupsCount, (r.1.groups g).bitmap = (s.groups g).bitmap
  counts : ∀ g < geo.groupsCount, (r.1.groups g).free = (s.groups g).free
  clusters : r.1.freeClusters = s.freeClusters
  blocks : r.1.freeBlocks = s.freeBlocks

/-- The bits past the end of the last group are set. -/
def Padded (geo : Geometry) (s : State) : Prop :=
  ∀ g < geo.groupsCount, ∀ o < geo.clustersPerGroup,
    geo.blocksCount - geo.firstDataBlock ≤ g * geo.blocksPerGroup + o * geo.ratio → (s.groups g).bitmap o = true

/-- A call before the group lock fails on the group. -/
def Answers.fails (ans : Answers geo) (group : ℕ) : Bool :=
  (ans.readBitmap group).isSome || !ans.groupDesc || ans.journalStart.isSome || ans.bitmapAccess.isSome ||
    ans.descAccess.isSome

/-- The number of the group of a block, before it is stored in 32 bits. -/
def quotient (geo : Geometry) (bindex : ℕ) : ℕ := sub64 bindex geo.firstDataBlock / geo.blocksPerGroup

/-! ### One call -/

theorem locked_eq_none_iff (geo : Geometry) (op : Op) (group offset : ℕ) (gr : Group) :
    locked geo op group offset gr = none ↔ gr.bitmap offset = decide (op = .alloc) := by
  cases op <;> simp [locked, allocLocked, freeLocked]

theorem locked_bitmap_ne {op : Op} {group offset : ℕ} {gr gr' : Group} (h : locked geo op group offset gr = some gr') :
    gr'.bitmap ≠ gr.bitmap := by
  intro heq
  cases op with
  | alloc =>
    obtain ⟨hb, hset⟩ := alloc_bitmap h
    rw [heq] at hset
    have := congrFun hset offset
    rw [hb, Function.update_self] at this
    cases this
  | free =>
    obtain ⟨hb, hset, -⟩ := free_spec h
    rw [heq] at hset
    have := congrFun hset offset
    rw [hb, Function.update_self] at this
    cases this

theorem rejected_self {s : State} {ret : ℤ} (h : ret < 0) : Rejected geo s (s, ret) :=
  ⟨h, fun _ _ => rfl, fun _ _ => rfl, rfl, rfl⟩

theorem elim_ret_neg {o : Option Errno} {ret : ℤ} (h : ret < 0) : o.elim ret Errno.ret < 0 := by
  cases o with
  | none => exact h
  | some err => exact err.ret_neg

/-- What a call does: nothing, with an error, or it changes the bitmap. -/
theorem blockCall_cases (ans : Answers geo) (op : Op) (bindex : ℕ) (s : State) :
    (∃ ret < 0, blockCall geo ans op bindex s = (s, ret) ∧
      (ans.fails (groupNoAndOffset geo bindex).1 = true ∨
        locked geo op (groupNoAndOffset geo bindex).1 (groupNoAndOffset geo bindex).2
          (s.groups (groupNoAndOffset geo bindex).1) = none)) ∨
    ((blockCall geo ans op bindex s).1 = callAlone geo op bindex s ∧
      ans.fails (groupNoAndOffset geo bindex).1 = false ∧
      ∃ gr, locked geo op (groupNoAndOffset geo bindex).1 (groupNoAndOffset geo bindex).2
        (s.groups (groupNoAndOffset geo bindex).1) = some gr) := by
  unfold blockCall inHandle callAlone
  generalize (groupNoAndOffset geo bindex).1 = group
  generalize (groupNoAndOffset geo bindex).2 = offset
  dsimp only
  cases hread : ans.readBitmap group with
  | some err => exact .inl ⟨_, err.ret_neg, rfl, .inl (by simp [Answers.fails, hread])⟩
  | none =>
    cases hdesc : ans.groupDesc with
    | false => exact .inl ⟨_, EINVAL.ret_neg, rfl, .inl (by simp [Answers.fails, hdesc])⟩
    | true =>
      cases hstart : ans.journalStart with
      | some err => exact .inl ⟨_, err.ret_neg, rfl, .inl (by simp [Answers.fails, hstart])⟩
      | none =>
        cases hbit : ans.bitmapAccess with
        | some err =>
          exact .inl ⟨_, elim_ret_neg err.ret_neg, rfl, .inl (by simp [Answers.fails, hbit])⟩
        | none =>
          cases hacc : ans.descAccess with
          | some err =>
            exact .inl ⟨_, elim_ret_neg err.ret_neg, rfl, .inl (by simp [Answers.fails, hacc])⟩
          | none =>
            have hfails : ans.fails group = false := by simp [Answers.fails, hread, hdesc, hstart, hbit, hacc]
            cases hl : locked geo op group offset (s.groups group) with
            | none => exact .inl ⟨_, elim_ret_neg EEXIST.ret_neg, rfl, .inr rfl⟩
            | some gr => exact .inr ⟨rfl, hfails, gr, rfl⟩

theorem group_lt_of_not_fails {ans : Answers geo} {group : ℕ} (h : ans.fails group = false) :
    group < geo.groupsCount := by
  by_contra hge
  have hsome := ans.missing group (not_lt.mp hge)
  unfold Answers.fails at h
  rw [hsome] at h
  cases h

/-- **One call** is rejected by a failure before the lock or by the bitmap. -/
theorem rejected_iff (ans : Answers geo) (op : Op) (bindex : ℕ) (s : State) :
    Rejected geo s (blockCall geo ans op bindex s) ↔
      ans.fails (groupNoAndOffset geo bindex).1 = true ∨
        (s.groups (groupNoAndOffset geo bindex).1).bitmap (groupNoAndOffset geo bindex).2 = decide (op = .alloc) := by
  rw [← locked_eq_none_iff geo op (groupNoAndOffset geo bindex).1]
  rcases blockCall_cases ans op bindex s with ⟨ret, hneg, hcall, hwhy⟩ | ⟨hcall, hfails, gr, hl⟩
  · rw [hcall]
    exact iff_of_true (rejected_self hneg) hwhy
  · rw [hfails, hl]
    refine iff_of_false (fun h => ?_) (by simp)
    have hbit := h.bitmaps _ (group_lt_of_not_fails hfails)
    rw [hcall] at hbit
    unfold callAlone callAt at hbit
    rw [hl] at hbit
    simp only [Function.update_self] at hbit
    exact locked_bitmap_ne hl hbit

/-! ### Where the blocks are -/

/-- The number of a block that is out of range is behind the end, also where the subtraction wraps. -/
theorem le_sub64_of_not_inRange {b : ℕ} (h64 : b < 2 ^ 64) (h : ¬ InRange geo b) :
    geo.blocksCount - geo.firstDataBlock ≤ sub64 b geo.firstDataBlock := by
  have hcount := geo.count_lt
  unfold InRange at h
  unfold sub64
  omega

theorem ratio_dvd (geo : Geometry) : geo.ratio ∣ geo.blocksPerGroup := Nat.dvd_mul_left _ _

/-- A block is its group, its cluster and the rest. -/
theorem quotient_mul_add (geo : Geometry) (b : ℕ) :
    quotient geo b * geo.blocksPerGroup + (groupNoAndOffset geo b).2 * geo.ratio +
      sub64 b geo.firstDataBlock % geo.ratio = sub64 b geo.firstDataBlock := by
  have hdiv := Nat.div_add_mod' (sub64 b geo.firstDataBlock) geo.blocksPerGroup
  have hmod := Nat.div_add_mod' (sub64 b geo.firstDataBlock % geo.blocksPerGroup) geo.ratio
  rw [Nat.mod_mod_of_dvd _ (ratio_dvd geo)] at hmod
  unfold quotient groupNoAndOffset
  dsimp only
  omega

/-- The cluster of a block behind the end is behind it as a whole, where the end is that of a cluster. -/
theorem le_cluster_of_dvd {b : ℕ} (hdvd : geo.ratio ∣ geo.blocksCount - geo.firstDataBlock)
    (h : geo.blocksCount - geo.firstDataBlock ≤ sub64 b geo.firstDataBlock) :
    geo.blocksCount - geo.firstDataBlock ≤
      quotient geo b * geo.blocksPerGroup + (groupNoAndOffset geo b).2 * geo.ratio := by
  have hsum := quotient_mul_add geo b
  have hmod := Nat.mod_lt (sub64 b geo.firstDataBlock) geo.ratio_pos
  have hstart : geo.ratio ∣ quotient geo b * geo.blocksPerGroup + (groupNoAndOffset geo b).2 * geo.ratio :=
    Nat.dvd_add (Dvd.dvd.mul_left (ratio_dvd geo) _) (Nat.dvd_mul_left _ _)
  obtain ⟨m, hm⟩ := hdvd
  obtain ⟨n, hn⟩ := hstart
  rw [hm] at h ⊢
  rw [hn] at hsum ⊢
  refine Nat.mul_le_mul_left _ (Nat.lt_succ_iff.mp ?_)
  refine Nat.lt_of_mul_lt_mul_left (a := geo.ratio) ?_
  rw [Nat.mul_succ]
  omega

/-- Blocks in range do not share a bit. -/
theorem groupNoAndOffset_inj (hr : geo.ratio = 1) {b b' : ℕ} (hb : InRange geo b) (hb' : InRange geo b')
    (h : groupNoAndOffset geo b = groupNoAndOffset geo b') : b = b' := by
  have hq : ∀ c, InRange geo c → (groupNoAndOffset geo c).1 = quotient geo c := fun c hc =>
    Nat.mod_eq_of_lt (lt_trans (sub64_div_lt hc) geo.groups_lt)
  have hsum := quotient_mul_add geo b
  have hsum' := quotient_mul_add geo b'
  rw [← hq b hb, h, hr, Nat.mod_one] at hsum
  rw [← hq b' hb', hr, Nat.mod_one] at hsum'
  have heq := hsum.symm.trans hsum'
  rw [sub64_of_le hb.1 (hb.2.trans geo.count_lt), sub64_of_le hb'.1 (hb'.2.trans geo.count_lt)] at heq
  have := hb.1
  have := hb'.1
  omega

/-- What rejects a call on a block that is out of range. Where the group number fits into 32 bits and the file system
ends with a cluster, the bits addressed are those of the padding, which are set; otherwise any bit may be addressed. -/
def KeptOut (geo : Geometry) (s : State) (op : Op) (bindex : ℕ) : Prop :=
  if quotient geo bindex < 2 ^ 32 ∧ geo.ratio ∣ geo.blocksCount - geo.firstDataBlock then
    op = .alloc ∨ geo.groupsCount ≤ quotient geo bindex
  else
    geo.groupsCount ≤ quotient geo bindex % 2 ^ 32 ∨
      (s.groups (quotient geo bindex % 2 ^ 32)).bitmap (groupNoAndOffset geo bindex).2 = decide (op = .alloc)

/-- **Out of range.** On a block that is out of range a call is rejected exactly if it fails before the lock or the
block is kept out; and blocks in range never address the same bit. -/
theorem block_range_iff (geo : Geometry) (s : State) (hpad : Padded geo s) :
    (∀ (ans : Answers geo) (op : Op) (b : ℕ), b < 2 ^ 64 → ¬ InRange geo b →
      (Rejected geo s (blockCall geo ans op b s) ↔
        ans.fails (groupNoAndOffset geo b).1 = true ∨ KeptOut geo s op b)) ∧
    (geo.ratio = 1 → ∀ b b', InRange geo b → InRange geo b' → b ≠ b' →
      groupNoAndOffset geo b ≠ groupNoAndOffset geo b') := by
  refine ⟨fun ans op b h64 hout => ?_, fun hr b b' hb hb' hne h => hne (groupNoAndOffset_inj hr hb hb' h)⟩
  rw [rejected_iff]
  by_cases hfails : ans.fails (groupNoAndOffset geo b).1 = true
  · exact iff_of_true (.inl hfails) (.inl hfails)
  have hlt := group_lt_of_not_fails (Bool.eq_false_iff.mpr hfails)
  rw [or_iff_right hfails, or_iff_right hfails]
  have hgroup : (groupNoAndOffset geo b).1 = quotient geo b % 2 ^ 32 := rfl
  unfold KeptOut
  split_ifs with hfit
  · have hq : (groupNoAndOffset geo b).1 = quotient geo b := Nat.mod_eq_of_lt hfit.1
    have hset : (s.groups (groupNoAndOffset geo b).1).bitmap (groupNoAndOffset geo b).2 = true := by
      refine hpad _ hlt _ (offset_lt geo b) ?_
      rw [hq]
      exact le_cluster_of_dvd hfit.2 (le_sub64_of_not_inRange h64 hout)
    rw [hset, or_iff_left (not_le.mpr (hq ▸ hlt))]
    cases op <;> simp
  · rw [hgroup, or_iff_right (not_le.mpr (hgroup ▸ hlt))]

/-! ### A file system whose last group is not full -/

/-- Two groups of four blocks, the second with two of them. -/
def oddGeometry : Geometry :=
  { tinyGeometry 0 false with
    blocksCount := 6
    count_lt := by decide
    groups_lt := by decide }

/-- The first block of the first group is used, and the padding of the second is set. -/
def oddState : State where
  groups g := if g = 0 then ⟨(· == 0), 3, false⟩ else ⟨(2 ≤ ·), 2, false⟩
  freeClusters := 5
  freeBlocks := 5
  calls := []

/-- Nothing fails but reading the bitmap of a group that does not exist. -/
def succeeding (geo : Geometry) : Answers geo where
  readBitmap g := if geo.groupsCount ≤ g then some EFSCORRUPTED else none
  missing g h := by rw [if_pos h]; rfl
  groupDesc := true
  journalStart := none
  bitmapAccess := none
  descAccess := none
  descDirty := none
  bitmapDirty := none
  journalStop := none

theorem oddState_padded : Padded oddGeometry oddState := by
  unfold Padded
  decide

/-- **Blocks that do not exist.** Block 6 is behind the end and can be released, which clears a bit of the padding;
block `2 ^ 34 + 1` is allocated as block 1. -/
theorem evfsBlockFree_padding :
    (Padded oddGeometry oddState ∧ ¬ InRange oddGeometry 6 ∧
      (evfsBlockFree oddGeometry (succeeding oddGeometry) 6 oddState).2 = 0 ∧
      ((evfsBlockFree oddGeometry (succeeding oddGeometry) 6 oddState).1.groups 1).bitmap 2 = false ∧
      ¬ Rejected oddGeometry oddState (evfsBlockFree oddGeometry (succeeding oddGeometry) 6 oddState)) ∧
    (¬ InRange oddGeometry (2 ^ 34 + 1) ∧
      (evfsBlockAlloc oddGeometry (succeeding oddGeometry) (2 ^ 34 + 1) oddState).2 = 0 ∧
      ((evfsBlockAlloc oddGeometry (succeeding oddGeometry) (2 ^ 34 + 1) oddState).1.groups 0).bitmap 1 = true ∧
      ¬ Rejected oddGeometry oddState
        (evfsBlockAlloc oddGeometry (succeeding oddGeometry) (2 ^ 34 + 1) oddState)) := by
  have hfree : (evfsBlockFree oddGeometry (succeeding oddGeometry) 6 oddState).2 = 0 := by decide
  have halloc : (evfsBlockAlloc oddGeometry (succeeding oddGeometry) (2 ^ 34 + 1) oddState).2 = 0 := by decide
  refine ⟨⟨oddState_padded, by decide, hfree, by decide, fun h => ?_⟩, by decide, halloc, by decide, fun h => ?_⟩
  · have := h.ret
    rw [hfree] at this
    exact absurd this (by decide)
  · have := h.ret
    rw [halloc] at this
    exact absurd this (by decide)

/-- Block 6 is not allocated, and block 8 is not released. -/
theorem block_range_behind :
    Rejected oddGeometry oddState (evfsBlockAlloc oddGeometry (succeeding oddGeometry) 6 oddState) ∧
      Rejected oddGeometry oddState (evfsBlockFree oddGeometry (succeeding oddGeometry) 8 oddState) ∧
      groupNoAndOffset oddGeometry 3 ≠ groupNoAndOffset oddGeometry 4 := by
  obtain ⟨hcall, hinj⟩ := block_range_iff oddGeometry oddState oddState_padded
  refine ⟨(hcall _ .alloc 6 (by decide) (by decide)).mpr (.inr ?_),
    (hcall _ .free 8 (by decide) (by decide)).mpr (.inl (by decide)),
    hinj (by decide) 3 4 (by decide) (by decide) (by decide)⟩
  exact (if_pos (by decide)).mpr (.inl rfl)

end LinuxEvfs.Blocks
