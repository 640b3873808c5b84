import LinuxEvfs.Ioctl.Model

/-! # Kernel memory in `EXT4_EVFS_INO_READ` and `EXT4_EVFS_DEN_READ`

The outputs that are one structure. Of each, how many bytes are written from the start on.

* `inoRead_blind_iff`, `denRead_blind_iff`: the reply does not depend on the memory before exactly if user
  memory ends before the first byte that is not written. -/

namespace LinuxEvfs.Ioctl.Structs

open LinuxEvfs.Errno LinuxEvfs.Lib.Bytes LinuxEvfs.Ioctl.Model
open LinuxEvfs.Namespace.Dir LinuxEvfs.Namespace.Block LinuxEvfs.Namespace.View
open LinuxEvfs.Namespace.Model (Fs ext4Iget)
open LinuxEvfs.Namespace.Edits (iget_cached)

/-! ### Copies -/

/-- Every memory holds one value. -/
def constPrior (x : UInt8) : Prior := ⟨fun _ => x, fun _ => x, fun _ => x, fun _ => x⟩

theorem blind_const {α : Type} (x : α) : Blind fun _ : Prior => x := fun _ _ => rfl

/-- A test that does not look at the memory, with an answer of its own. -/
theorem blind_guard_iff {c Q : Prop} [Decidable c] {r : Option Reply} {f : Prior → Option Reply}
    (h : ¬ c → (Blind f ↔ Q)) : (Blind fun m => if c then r else f m) ↔ c ∨ Q := by
  by_cases hc : c
  · simp only [if_pos hc]
    exact ⟨fun _ => .inl hc, fun _ => blind_const _⟩
  · simp only [if_neg hc]
    rw [or_iff_right hc]
    exact h hc

theorem blind_copyOut_iff {room size : ℕ} {ret : ℤ} {f : Prior → Buf} :
    Blind (fun m => some (copyOut room size ret (f m))) ↔
      ∀ i < min room size, Blind fun m => f m i := by
  simp only [Blind, copyOut, copyToUser, Option.some.injEq, Reply.mk.injEq, List.cons.injEq, and_true,
    true_and, take_eq_iff]
  exact ⟨fun h i hi m m' => h m m' i hi, fun h m m' i hi => h i hi m m'⟩

/-- An output to which nothing was written. -/
theorem blind_copyOut_kArgs_iff {room size : ℕ} (ret : ℤ) (hsize : 0 < size) :
    (Blind fun m : Prior => some (copyOut room size ret m.kArgs)) ↔ room = 0 := by
  rw [blind_copyOut_iff]
  constructor
  · intro h
    by_contra hroom
    exact not_blind (f := Prior.kArgs) (fun x => ⟨constPrior x, rfl⟩)
      (h 0 (lt_min (Nat.pos_of_ne_zero hroom) hsize))
  · intro hroom i hi
    rw [hroom, Nat.zero_min] at hi
    exact absurd hi (Nat.not_lt_zero i)

/-! ### `EXT4_EVFS_INO_READ` -/

/-- `est_rdev` is written for devices only, `__pad1` never. -/
def statPrefix (iget : Except Errno Attr) : ℕ :=
  match iget with
  | .error _ => 0
  | .ok a => if a.isDevice then 60 else 32

def InoRead.Sealed (a : InoRead) : Prop := a.copyIn = false ∨ a.room ≤ statPrefix a.iget

theorem covered_statWrites (a : Attr) (i : ℕ) :
    covered (statWrites a) i = true ↔
      i < 32 ∨ (a.isDevice = true ∧ 32 ≤ i ∧ i < 40) ∨ (40 ≤ i ∧ i < 60) ∨ (64 ≤ i ∧ i < 120) := by
  unfold statWrites
  cases a.isDevice <;> simp [Write.covers] <;> omega

/-- The prefix is the part before the first byte that is not written. -/
theorem statPrefix_iff (a : Attr) (n : ℕ) :
    (∀ i < n, covered (statWrites a) i = true) ↔ n ≤ statPrefix (.ok a) := by
  simp only [covered_statWrites]
  unfold statPrefix
  dsimp only
  constructor
  · intro h
    by_contra hlt
    have := h _ (not_le.mp hlt)
    cases hd : a.isDevice <;> simp [hd] at this
  · intro h i hi
    cases hd : a.isDevice <;> simp [hd] at h ⊢ <;> omega

/-- Below its size the output is the memory of `stat`. -/
theorem out_eq_stat (a : Attr) {i : ℕ} (hi : i < INO_READ_SIZE) (m : Prior) :
    m.kArgs.put 0 ((m.stat.puts (statWrites a)).take INO_READ_SIZE) i = m.stat.puts (statWrites a) i := by
  rw [put_inside (Nat.zero_le i) (by simpa using hi), Nat.sub_zero, take_getElem? hi, Option.getD_some]

theorem inoRead_blind_iff (a : InoRead) : Blind a.reply ↔ InoRead.Sealed a := by
  unfold InoRead.Sealed InoRead.reply
  refine blind_guard_iff fun _ => ?_
  cases a.iget with
  | error err =>
    exact (blind_copyOut_kArgs_iff err.ret (by decide)).trans Nat.le_zero.symm
  | ok x =>
    unfold evfsInodeRead
    dsimp only
    have hp : statPrefix (.ok x) < INO_READ_SIZE := by
      unfold statPrefix INO_READ_SIZE
      dsimp only
      split_ifs <;> decide
    have hmin : a.room ≤ statPrefix (.ok x) ↔ min a.room INO_READ_SIZE ≤ statPrefix (.ok x) := by omega
    rw [blind_copyOut_iff, hmin, ← statPrefix_iff]
    refine forall₂_congr fun i hi => ?_
    simp only [out_eq_stat x (lt_min_iff.mp hi).2]
    exact blind_puts_iff (f := Prior.stat) fun y => ⟨constPrior y, rfl⟩

/-! ### `EXT4_EVFS_DEN_READ` -/

/-- The name up to its length, and the last byte of its array. -/
def dentryPrefix (x : DentryOut) : ℕ :=
  if x.inoNum = 0 then 11
  else if x.name.length < 254 then 10 + x.name.length
  else max (10 + x.name.length) 265

/-- The directory can be loaded. -/
def loads (a : DenRead) : Bool := (ext4Iget a.sb (a.calls.env .igetDir) a.fs a.dirInoNum).isOk

/-- Its first block can be read. -/
def opens (a : DenRead) : Bool :=
  loads a && a.fs.isDir a.dirInoNum && (a.calls.env .bread).isNone &&
    !((a.fs.ino a.dirInoNum).dir.block 0).isEmpty

/-- What that block has for the index. -/
def entryAt (a : DenRead) : DentryOut :=
  let b := (a.fs.ino a.dirInoNum).dir.block 0
  ((nthLive a.sb 0 a.targetDentryIndex b).bind fun k => (b[k]?).map readOut).getD notFound

/-- The last case is a directory that is locked for good: there is no reply. -/
def DenRead.Sealed (a : DenRead) : Prop :=
  a.copyIn = false ∨ min a.room DEN_READ_SIZE ≤ (if opens a then dentryPrefix (entryAt a) else 0) ∨
    (loads a = true ∧ a.fs.held a.dirInoNum = true)

theorem covered_dentryWrites (x : DentryOut) (i : ℕ) :
    covered (dentryWrites x) i = true ↔
      if x.inoNum = 0 then i < 11 else i < 10 + x.name.length ∨ i = 264 := by
  unfold dentryWrites
  by_cases h : x.inoNum = 0
  · simp [h, Write.covers]
    omega
  · simp [h, Write.covers]
    omega

theorem dentryPrefix_iff (x : DentryOut) {n : ℕ} (hn : n ≤ DEN_READ_SIZE) :
    (∀ i < n, covered (dentryWrites x) i = true) ↔ n ≤ dentryPrefix x := by
  simp only [covered_dentryWrites]
  unfold dentryPrefix
  unfold DEN_READ_SIZE at hn
  constructor
  · intro h
    by_contra hlt
    rw [not_le] at hlt
    have := h _ hlt
    split_ifs at this hlt <;> omega
  · intro h i hi
    split_ifs at h ⊢ <;> omega

/-- `evfs_dentry_read` waits for the lock of a directory it has loaded, or writes the entry of its first
block. -/
theorem dentryRead_cases (a : DenRead) :
    (loads a = true ∧ a.fs.held a.dirInoNum = true ∧
        evfsDentryRead a.sb a.calls a.fs a.dirInoNum a.targetDentryIndex = .hang) ∨
      (¬ (loads a = true ∧ a.fs.held a.dirInoNum = true) ∧ ∃ s ret,
        evfsDentryRead a.sb a.calls a.fs a.dirInoNum a.targetDentryIndex =
          .ret s ret (if opens a then some (entryAt a) else none)) := by
  unfold evfsDentryRead opens loads
  cases hi : ext4Iget a.sb (a.calls.env .igetDir) a.fs a.dirInoNum with
  | error err => exact .inr ⟨nofun, a.fs, err.ret, rfl⟩
  | ok s =>
    obtain ⟨⟨x, rfl⟩, -⟩ := iget_cached hi
    have hisDir : ({ a.fs with cached := x } : Fs).isDir a.dirInoNum = a.fs.isDir a.dirInoNum := rfl
    dsimp only
    rw [hisDir]
    by_cases hheld : a.fs.held a.dirInoNum = true
    · exact .inl ⟨rfl, hheld, if_pos hheld⟩
    refine .inr ⟨fun h => hheld h.2, ?_⟩
    rw [if_neg hheld]
    cases a.fs.isDir a.dirInoNum with
    | false => exact ⟨_, _, rfl⟩
    | true =>
      cases a.calls.env .bread with
      | some err => exact ⟨_, _, rfl⟩
      | none =>
        unfold entryAt
        cases (a.fs.ino a.dirInoNum).dir.block 0 with
        | nil => exact ⟨_, _, rfl⟩
        | cons de b => exact ⟨_, _, rfl⟩

theorem denRead_blind_iff (a : DenRead) : Blind a.reply ↔ DenRead.Sealed a := by
  unfold DenRead.Sealed DenRead.reply
  refine blind_guard_iff fun _ => ?_
  obtain ⟨hloads, hheld, hread⟩ | ⟨hstuck, s, ret, hread⟩ := dentryRead_cases a
  · rw [hread]
    exact ⟨fun _ => .inr ⟨hloads, hheld⟩, fun _ => blind_const _⟩
  rw [hread, or_iff_left hstuck]
  cases opens a with
  | false =>
    refine (blind_copyOut_kArgs_iff ret (by decide)).trans ?_
    rw [if_neg Bool.false_ne_true, Nat.le_zero, Nat.min_eq_zero_iff, or_iff_left (by decide)]
  | true =>
    simp only [if_true]
    rw [blind_copyOut_iff, ← dentryPrefix_iff _ (Nat.min_le_right _ _)]
    exact forall₂_congr fun i _ => blind_puts_iff (f := Prior.kArgs) fun y => ⟨constPrior y, rfl⟩

end LinuxEvfs.Ioctl.Structs
