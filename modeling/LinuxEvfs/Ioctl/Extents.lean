import LinuxEvfs.Ioctl.Structs

/-! # Kernel memory in `EXT4_EVFS_EXT_READ`

The loop of `evfs_extent_read` takes the next block to look up from the entry behind the one it has just
written.

* `readLoop_wanders`: so the number of entries depends on the memory before, wherever there is a second
  lookup.
* `extRead_blind_iff`: where there is none, the padding of the first entry, or its first byte if nothing is
  found, is the first one that is not written. -/

namespace LinuxEvfs.Ioctl.Extents

open LinuxEvfs.Errno LinuxEvfs.Lib.Bytes LinuxEvfs.Lib.Word
open LinuxEvfs.ExtTree.Basic LinuxEvfs.ExtTree.Tree LinuxEvfs.ExtMove.Model LinuxEvfs.Ioctl.Model
open LinuxEvfs.Ioctl.Structs

/-- The first lookup of `evfs_extent_read` finds an extent that it writes out. -/
def finds (a : ExtRead) : Bool :=
  (a.find 0).isNone &&
    match pExt a.tree (ext4FindExtent a.tree 0) with
    | none => false
    | some ex => 0 < add32 ex.eeBlock (ext4ExtGetActualLen ex)

/-- The loop comes to a second lookup, of a block that is read from the memory before. -/
def wanders (a : ExtRead) : Bool := 2 ≤ a.maxNumExts && finds a && (a.find 1).isNone

def ExtRead.Sealed (a : ExtRead) : Prop :=
  a.user.copyIn = false ∨ a.user.kmalloc = false ∨ a.user.num = 0 ∨
    (a.iget = none ∧ wanders a = false ∧
      (a.user.num < 4 ∨ min a.user.exts (EXT_SIZE * a.maxNumExts) ≤ if finds a then 4 else 0))

/-! ### Copies -/

theorem blind_copyExts_iff {user : Room} {size : ℕ} {ret : ℤ} {f g : Prior → Buf} :
    Blind (fun m => some (copyExts user size ret (f m) (g m))) ↔
      (∀ i < min user.num 4, Blind fun m => f m i) ∧
        (4 ≤ user.num → ∀ i < min user.exts size, Blind fun m => g m i) := by
  unfold copyExts copyToUser
  by_cases hnum : user.num < 4
  · simp only [if_pos hnum, Blind, Option.some.injEq, Reply.mk.injEq, List.cons.injEq, and_true,
      true_and, take_eq_iff]
    exact ⟨fun h => ⟨fun i hi m m' => h m m' i hi, fun h4 => absurd hnum (not_lt.mpr h4)⟩,
      fun h m m' i hi => h.1 i hi m m'⟩
  · simp only [if_neg hnum, Blind, Option.some.injEq, Reply.mk.injEq, List.cons.injEq, and_true,
      true_and, take_eq_iff]
    exact ⟨fun h => ⟨fun i hi m m' => (h m m').1 i hi, fun _ i hi m m' => (h m m').2 i hi⟩,
      fun h m m' => ⟨fun i hi => h.1 i hi m m', fun i hi => h.2 (not_lt.mp hnum) i hi m m'⟩⟩

/-- Copies of a length and an array of which no byte was written. -/
theorem blind_copyExts_untouched_iff {user : Room} {size : ℕ} {ret : ℤ} {f g : Prior → Buf}
    (hf : ∀ x, f (constPrior x) 0 = x) :
    (Blind fun m : Prior => some (copyExts user size ret (f m) (g m))) ↔ user.num = 0 := by
  rw [blind_copyExts_iff]
  constructor
  · intro h
    by_contra hnum
    exact not_blind (fun x => ⟨constPrior x, hf x⟩) (h.1 0 (lt_min (Nat.pos_of_ne_zero hnum) (by decide)))
  · intro hnum
    exact ⟨fun i hi => by omega, fun h4 => by omega⟩

/-- A number that is written whole. -/
theorem blind_put_num {f : Prior → Buf} {v i : ℕ} (hi : i < 4) : Blind fun m => (f m).put 0 (le 4 v) i := by
  intro m m'
  have hi' : i < 0 + (le 4 v).length := by simpa using hi
  show (f m).put 0 (le 4 v) i = (f m').put 0 (le 4 v) i
  rw [put_inside (Nat.zero_le i) hi', put_inside (Nat.zero_le i) hi']

/-! ### The loop -/

theorem covered_extWrites (off log phy len i : ℕ) :
    covered (extWrites off log phy len) i = true ↔
      off ≤ i ∧ (i < off + 4 ∨ (off + 8 ≤ i ∧ i < off + 20)) := by
  simp [extWrites, Write.covers]
  omega

theorem num_puts_extWrites {off log phy len o : ℕ} (h : off + 20 ≤ o) (heap : Buf) (n : ℕ) :
    (heap.puts (extWrites off log phy len)).num o n = heap.num o n := by
  refine num_puts_of_not_covered fun i hi _ => ?_
  rw [← Bool.not_eq_true, covered_extWrites]
  omega

/-- Nothing is found: the array stays as it is. -/
theorem readLoop_none {a : ExtRead} (h : a.maxNumExts = 0 ∨ finds a = false) (heap : Buf) :
    readLoop a.find a.tree a.maxNumExts 0 0 heap = (heap, 0) := by
  rcases h with h | h
  · rw [h, readLoop]
  cases hmax : a.maxNumExts with
  | zero => rw [readLoop]
  | succ n =>
    unfold readLoop
    unfold finds at h
    cases hf : a.find 0 with
    | some err => rfl
    | none =>
      simp only [hf, Option.isNone_none, Bool.true_and] at h
      dsimp only
      cases hp : pExt a.tree (ext4FindExtent a.tree 0) with
      | none => rfl
      | some ex =>
        simp only [hp, decide_eq_false_iff_not, not_lt] at h
        exact if_pos h

/-- One pass that writes an entry: the next block is read from memory that is not written yet. -/
theorem readLoop_succ {find : ℕ → Option Errno} {t : ExtRoot} {count block : ℕ} {ex : Extent}
    (hf : find count = none) (hp : pExt t (ext4FindExtent t block) = some ex)
    (hlt : block < add32 ex.eeBlock (ext4ExtGetActualLen ex)) (room : ℕ) (heap : Buf) :
    readLoop find t (room + 1) count block heap =
      readLoop find t room (count + 1)
        (add32 (heap.num (EXT_SIZE * (count + 1)) 4) (heap.num (EXT_SIZE * (count + 1) + 16) 4))
        (heap.puts
          (extWrites (EXT_SIZE * count) ex.eeBlock (ext4ExtPblock ex) (ext4ExtGetActualLen ex))) := by
  have hoff : EXT_SIZE * count + 20 ≤ EXT_SIZE * (count + 1) := by
    unfold EXT_SIZE
    omega
  conv_lhs => unfold readLoop
  simp only [hf, hp, if_neg (not_le.mpr hlt)]
  rw [num_puts_extWrites hoff, num_puts_extWrites (Nat.le_add_right_of_le hoff)]

/-- No extent ends behind the last block. -/
theorem readLoop_last (find : ℕ → Option Errno) (t : ExtRoot) (room count : ℕ) (heap : Buf) :
    readLoop find t room count (2 ^ 32 - 1) heap = (heap, count) := by
  cases room with
  | zero => rw [readLoop]
  | succ room =>
    unfold readLoop
    cases find count with
    | some err => rfl
    | none =>
      dsimp only
      cases pExt t (ext4FindExtent t (2 ^ 32 - 1)) with
      | none => rfl
      | some ex => exact if_pos (Nat.le_sub_one_of_lt (add32_lt _ _))

theorem finds_iff {a : ExtRead} :
    finds a = true ↔ a.find 0 = none ∧ ∃ ex, pExt a.tree (ext4FindExtent a.tree 0) = some ex ∧
      0 < add32 ex.eeBlock (ext4ExtGetActualLen ex) := by
  unfold finds
  rw [Bool.and_eq_true, Option.isNone_iff_eq_none]
  cases pExt a.tree (ext4FindExtent a.tree 0) with
  | none => simp
  | some ex => simp

/-- One extent and no second lookup. -/
theorem readLoop_one {a : ExtRead} (h : finds a = true) (hpos : 0 < a.maxNumExts)
    (hw : wanders a = false) :
    ∃ log phy len, ∀ heap : Buf,
      readLoop a.find a.tree a.maxNumExts 0 0 heap = (heap.puts (extWrites 0 log phy len), 1) := by
  obtain ⟨hf, ex, hp, hlt⟩ := finds_iff.mp h
  refine ⟨ex.eeBlock, ext4ExtPblock ex, ext4ExtGetActualLen ex, fun heap => ?_⟩
  obtain ⟨n, hn⟩ := Nat.exists_eq_succ_of_ne_zero (Nat.pos_iff_ne_zero.mp hpos)
  rw [hn, readLoop_succ hf hp hlt]
  cases n with
  | zero => rw [readLoop]; rfl
  | succ n =>
    unfold wanders at hw
    rw [hn, h] at hw
    cases hf1 : a.find 1 with
    | none => simp [hf1] at hw
    | some err =>
      unfold readLoop
      rw [hf1]
      rfl

/-- Behind the first entry the memory names the last block of a file. -/
def stopAt1 : Buf := fun i => if i % EXT_SIZE < 4 then 255 else 0

/-- The same behind the second one, and the first block behind the first. -/
def stopAt2 : Buf := fun i => if i < 48 then 0 else stopAt1 i

/-- The number of entries is a matter of the memory before. -/
theorem readLoop_wanders {a : ExtRead} (hw : wanders a = true) :
    (readLoop a.find a.tree a.maxNumExts 0 0 stopAt1).2 = 1 ∧
      (readLoop a.find a.tree a.maxNumExts 0 0 stopAt2).2 = 2 := by
  unfold wanders at hw
  rw [Bool.and_eq_true, Bool.and_eq_true, decide_eq_true_eq, Option.isNone_iff_eq_none] at hw
  obtain ⟨⟨hmax, h⟩, hf1⟩ := hw
  obtain ⟨hf, ex, hp, hlt⟩ := finds_iff.mp h
  obtain ⟨n, hn⟩ := Nat.exists_eq_add_of_le' hmax
  rw [hn, readLoop_succ hf hp hlt, readLoop_succ hf hp hlt]
  have h1 : add32 (stopAt1.num (EXT_SIZE * (0 + 1)) 4) (stopAt1.num (EXT_SIZE * (0 + 1) + 16) 4)
      = 2 ^ 32 - 1 := by decide
  have h2 : add32 (stopAt2.num (EXT_SIZE * (0 + 1)) 4) (stopAt2.num (EXT_SIZE * (0 + 1) + 16) 4)
      = 0 := by decide
  have h3 : add32 (stopAt2.num (EXT_SIZE * (1 + 1)) 4) (stopAt2.num (EXT_SIZE * (1 + 1) + 16) 4)
      = 2 ^ 32 - 1 := by decide
  rw [h1, h2, readLoop_last, readLoop_succ hf1 hp hlt]
  rw [num_puts_extWrites (by decide), num_puts_extWrites (by decide), Nat.zero_add, h3, readLoop_last]
  exact ⟨rfl, rfl⟩

/-- The first bytes of the array of `evfs_extent_read`, where there is no second lookup. -/
theorem readLoop_blind_iff {a : ExtRead} (hw : wanders a = false) :
    (∀ i < min a.user.exts (EXT_SIZE * a.maxNumExts),
        Blind fun m : Prior => (readLoop a.find a.tree a.maxNumExts 0 0 m.heap).1 i) ↔
      min a.user.exts (EXT_SIZE * a.maxNumExts) ≤ if finds a then 4 else 0 := by
  by_cases hmax : a.maxNumExts = 0
  · rw [hmax, Nat.mul_zero, Nat.min_zero]
    exact ⟨fun _ => Nat.zero_le _, fun _ i hi => absurd hi (Nat.not_lt_zero i)⟩
  by_cases hfind : finds a = true
  · obtain ⟨log, phy, len, hloop⟩ := readLoop_one hfind (Nat.pos_of_ne_zero hmax) hw
    simp only [hloop, hfind, if_true]
    simp only [blind_puts_iff (f := Prior.heap) fun y => ⟨constPrior y, rfl⟩, covered_extWrites]
    constructor
    · intro h
      by_contra hlt
      have := h 4 (not_le.mp hlt)
      omega
    · intro h i hi
      omega
  · simp only [readLoop_none (.inr (Bool.eq_false_iff.mpr hfind)), hfind]
    constructor
    · intro h
      by_contra hlt
      exact not_blind (f := Prior.heap) (fun x => ⟨constPrior x, rfl⟩) (h 0 (not_le.mp hlt))
    · intro h i hi
      exact absurd (lt_of_lt_of_le hi h) (Nat.not_lt_zero i)

theorem extRead_blind_iff (a : ExtRead) : Blind a.reply ↔ ExtRead.Sealed a := by
  unfold ExtRead.Sealed ExtRead.reply
  refine blind_guard_iff fun _ => blind_guard_iff fun _ => ?_
  unfold evfsExtentRead
  cases a.iget with
  | some err =>
    refine (blind_copyExts_untouched_iff fun _ => rfl).trans ⟨Or.inl, ?_⟩
    rintro (h | ⟨h, -⟩)
    · exact h
    · cases h
  | none =>
    dsimp only
    rw [blind_copyExts_iff]
    cases hw : wanders a with
    | true =>
      -- the counts 1 and 2 differ in their first byte
      obtain ⟨h1, h2⟩ := readLoop_wanders hw
      constructor
      · intro h
        left
        by_contra hnum
        have h12 := h.1 0 (lt_min (Nat.pos_of_ne_zero hnum) (by decide))
          { constPrior 0 with heap := stopAt1 } { constPrior 0 with heap := stopAt2 }
        dsimp only at h12
        rw [h1, h2] at h12
        exact absurd h12 (by decide)
      · rintro (h | ⟨-, h, -⟩)
        · exact ⟨fun i hi => by omega, fun h4 => by omega⟩
        · cases h
    | false =>
      have hcount : ∃ c, ∀ heap, (readLoop a.find a.tree a.maxNumExts 0 0 heap).2 = c := by
        by_cases hnone : a.maxNumExts = 0 ∨ finds a = false
        · exact ⟨0, fun heap => by rw [readLoop_none hnone]⟩
        · rw [not_or, Bool.not_eq_false] at hnone
          obtain ⟨log, phy, len, hloop⟩ := readLoop_one hnone.2 (Nat.pos_of_ne_zero hnone.1) hw
          exact ⟨1, fun heap => by rw [hloop]⟩
      obtain ⟨c, hc⟩ := hcount
      simp only [hc]
      rw [readLoop_blind_iff hw]
      constructor
      · rintro ⟨-, h⟩
        right
        refine ⟨trivial, trivial, ?_⟩
        by_cases h4 : a.user.num < 4
        · exact .inl h4
        · exact .inr (h (not_lt.mp h4))
      · intro h
        refine ⟨fun i hi => blind_put_num (lt_min_iff.mp hi).2, fun h4 => ?_⟩
        rcases h with h | ⟨-, -, h | h⟩
        · omega
        · omega
        · exact h

end LinuxEvfs.Ioctl.Extents
