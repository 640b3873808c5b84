import LinuxEvfs.Namespace.Counts
import LinuxEvfs.Namespace.Ledger
import LinuxEvfs.Namespace.Model
import Mathlib.Algebra.Order.BigOperators.Group.Finset

/-! # The accounts of a file system

The account of each inode in a state of the model, and how the changes of the state show in it.

* `entries`: the number of live entries of all directories that name an inode.
* `entries_setDir`: a directory that is written changes it by what it holds before and after.
* `Good`: an inode not in use has no link and no contents and is not cached; the tracker holds numbers
  that it has a place for. -/

namespace LinuxEvfs.Namespace.Accounts

open LinuxEvfs.Errno LinuxEvfs.Namespace.Dir LinuxEvfs.Namespace.Entries LinuxEvfs.Namespace.Counts
open LinuxEvfs.Namespace.Model LinuxEvfs.Namespace.Ledger

variable {sb : Sb} {s s' : Fs} {i j p n : ℕ}

/-- The live entries of the directory `d` that name `i`. -/
def share (s : Fs) (i d : ℕ) : ℕ := if s.isDir d then count i (s.ino d).dir else 0

/-- The number of live entries that name `i`. -/
def entries (sb : Sb) (s : Fs) (i : ℕ) : ℕ := ∑ d ∈ Finset.range (sb.inodesCount + 1), share s i d

/-- The account of the inode `i`. -/
def acct (sb : Sb) (s : Fs) (i : ℕ) : Acct where
  bit := s.bitmap i
  dir := s.isDir i
  nlink := (s.ino i).nlink
  tracked := s.tracked i
  entries := entries sb s i

/-- What does not depend on the counts. -/
structure Good (sb : Sb) (s : Fs) : Prop where
  tracked_cap : ∀ i, s.tracked i = true → inCapacity sb i = true
  cached_bit : ∀ i, s.cached i = true → s.bitmap i = true
  unused : ∀ i, s.bitmap i = false → (s.ino i).nlink = 0 ∧ (s.ino i).dir.blocks = []
  file_index : ∀ i, s.isDir i = false → (s.ino i).dir.index = false

/-! ### Fields after a change -/

theorem setIno_self (x : Inode) : (s.setIno i x).ino i = x := Function.update_self _ _ _

theorem setIno_ne (x : Inode) (h : j ≠ i) : (s.setIno i x).ino j = s.ino j :=
  Function.update_of_ne h _ _

theorem setNlink_nlink_self : ((s.setNlink i n).ino i).nlink = n := by
  rw [Fs.setNlink, setIno_self]

theorem setNlink_nlink_ne (h : j ≠ i) : ((s.setNlink i n).ino j).nlink = (s.ino j).nlink := by
  rw [Fs.setNlink, setIno_ne _ h]

@[simp] theorem setNlink_dir : ((s.setNlink i n).ino j).dir = (s.ino j).dir := by
  by_cases h : j = i
  · rw [h, Fs.setNlink, setIno_self]
  · rw [Fs.setNlink, setIno_ne _ h]

@[simp] theorem setNlink_type : ((s.setNlink i n).ino j).type = (s.ino j).type := by
  by_cases h : j = i
  · rw [h, Fs.setNlink, setIno_self]
  · rw [Fs.setNlink, setIno_ne _ h]

@[simp] theorem setNlink_isDir : (s.setNlink i n).isDir j = s.isDir j := by
  simp only [Fs.isDir, setNlink_type]

theorem setDir_dir_self (d : Dir) : ((s.setDir i d).ino i).dir = d := by
  rw [Fs.setDir, setIno_self]

theorem setDir_dir_ne (d : Dir) (h : j ≠ i) : ((s.setDir i d).ino j).dir = (s.ino j).dir := by
  rw [Fs.setDir, setIno_ne _ h]

@[simp] theorem setDir_nlink (d : Dir) : ((s.setDir i d).ino j).nlink = (s.ino j).nlink := by
  by_cases h : j = i
  · rw [h, Fs.setDir, setIno_self]
  · rw [Fs.setDir, setIno_ne _ h]

@[simp] theorem setDir_isDir (d : Dir) : (s.setDir i d).isDir j = s.isDir j := by
  by_cases h : j = i
  · rw [h, Fs.isDir, Fs.setDir, setIno_self]
    rfl
  · rw [Fs.isDir, Fs.setDir, setIno_ne _ h]
    rfl

theorem setBit_self (x : Bool) : (s.setBit i x).bitmap i = x := Function.update_self _ _ _

theorem setBit_ne (x : Bool) (h : j ≠ i) : (s.setBit i x).bitmap j = s.bitmap j :=
  Function.update_of_ne h _ _

theorem setTracked_self (x : Bool) : (s.setTracked i x).tracked i = x := Function.update_self _ _ _

theorem setTracked_ne (x : Bool) (h : j ≠ i) : (s.setTracked i x).tracked j = s.tracked j :=
  Function.update_of_ne h _ _

theorem setCached_self (x : Bool) : (s.setCached i x).cached i = x := Function.update_self _ _ _

theorem setCached_ne (x : Bool) (h : j ≠ i) : (s.setCached i x).cached j = s.cached j :=
  Function.update_of_ne h _ _

theorem setDir_setDir (d d' : Dir) : (s.setDir i d).setDir i d' = s.setDir i d' := by
  simp only [Fs.setDir, Fs.setIno, Function.update_self, Function.update_idem]

/-- A count set to what it is. -/
theorem setNlink_eq (h : (s.ino i).nlink = n) : s.setNlink i n = s := by
  subst h
  simp only [Fs.setNlink, Fs.setIno, Function.update_eq_self]

theorem setNlink_setNlink (m : ℕ) : (s.setNlink i m).setNlink i n = s.setNlink i n := by
  simp only [Fs.setNlink, Fs.setIno, Function.update_self, Function.update_idem]

theorem setNlink_setDir_comm (d : Dir) (h : j ≠ i) :
    (s.setDir j d).setNlink i n = (s.setNlink i n).setDir j d := by
  simp only [Fs.setNlink, Fs.setDir, Fs.setIno, Function.update_of_ne h, Function.update_of_ne h.symm]
  rw [Function.update_comm h]

/-! ### The number of entries -/

/-- Two sums that differ at one place. -/
theorem sum_change {f g : ℕ → ℕ} {t : Finset ℕ} (hp : p ∈ t) (h : ∀ x ∈ t, x ≠ p → g x = f x) :
    ∑ x ∈ t, g x + f p = ∑ x ∈ t, f x + g p := by
  have hsum : ∑ x ∈ t.erase p, g x = ∑ x ∈ t.erase p, f x :=
    Finset.sum_congr rfl fun x hx => h x (Finset.mem_of_mem_erase hx) (Finset.ne_of_mem_erase hx)
  rw [← Finset.add_sum_erase t g hp, ← Finset.add_sum_erase t f hp, hsum]
  omega

theorem count_congr {d d' : Dir} (h : d'.blocks = d.blocks) : count i d' = count i d := by
  simp only [count, h]

/-- The entries are a matter of the contents of the directories. -/
theorem entries_congr (h : ∀ d, share s' i d = share s i d) : entries sb s' i = entries sb s i :=
  Finset.sum_congr rfl fun d _ => h d

@[simp] theorem entries_setNlink : entries sb (s.setNlink j n) i = entries sb s i :=
  entries_congr fun d => by simp only [share, setNlink_isDir, setNlink_dir]

theorem share_setDir_ne {d : Dir} (h : j ≠ p) : share (s.setDir p d) i j = share s i j := by
  simp only [share, setDir_isDir, setDir_dir_ne d h]

/-- **Writing a directory.** -/
theorem entries_setDir (d : Dir) (hp : p ≤ sb.inodesCount) (hd : s.isDir p = true) (i : ℕ) :
    entries sb (s.setDir p d) i + count i (s.ino p).dir = entries sb s i + count i d := by
  have h := sum_change (f := share s i) (g := share (s.setDir p d) i)
    (Finset.mem_range.mpr (Nat.lt_succ_of_le hp)) fun x _ hx => share_setDir_ne hx
  have hs : share s i p = count i (s.ino p).dir := if_pos hd
  have hs' : share (s.setDir p d) i p = count i d := by
    rw [share, setDir_isDir, if_pos hd, setDir_dir_self]
  rw [hs, hs'] at h
  exact h

/-- A directory that loses what it holds. -/
theorem entries_setDir_le {d : Dir} (h : count i d ≤ count i (s.ino p).dir) :
    entries sb (s.setDir p d) i ≤ entries sb s i := by
  refine Finset.sum_le_sum fun x _ => ?_
  by_cases hx : x = p
  · subst hx
    unfold share
    rw [setDir_isDir, setDir_dir_self]
    split_ifs
    · exact h
    · exact Nat.le_refl _
  · rw [share_setDir_ne hx]

theorem entries_setDir_eq {d : Dir} (h : s.isDir p = true → count i d = count i (s.ino p).dir) :
    entries sb (s.setDir p d) i = entries sb s i := by
  refine entries_congr fun x => ?_
  by_cases hx : x = p
  · subst hx
    unfold share
    rw [setDir_isDir, setDir_dir_self]
    split_ifs with hd
    · exact h hd
    · rfl
  · exact share_setDir_ne hx

/-- A live entry of a directory counts. -/
theorem count_le_entries (hp : p ≤ sb.inodesCount) (hd : s.isDir p = true) :
    count i (s.ino p).dir ≤ entries sb s i := by
  have h : share s i p ≤ entries sb s i :=
    Finset.single_le_sum (fun _ _ => Nat.zero_le _) (Finset.mem_range.mpr (Nat.lt_succ_of_le hp))
  rwa [share, if_pos hd] at h

/-- What counts is a live record of a directory. -/
theorem exists_entry (h : 0 < entries sb s i) :
    ∃ p ≤ sb.inodesCount, s.isDir p = true ∧ ∃ b ∈ (s.ino p).dir.blocks, ∃ de ∈ b,
      de.inode ≠ 0 ∧ de.inode = i := by
  obtain ⟨p, hp, hshare⟩ := Finset.exists_ne_zero_of_sum_ne_zero h.ne'
  unfold share at hshare
  split_ifs at hshare with hd
  · obtain ⟨x, hx, hx0⟩ := List.exists_mem_ne_zero_of_sum_ne_zero hshare
    obtain ⟨b, hb, rfl⟩ := List.mem_map.mp hx
    obtain ⟨y, hy, hy0⟩ := List.exists_mem_ne_zero_of_sum_ne_zero hx0
    obtain ⟨de, hde, rfl⟩ := List.mem_map.mp hy
    refine ⟨p, Nat.le_of_lt_succ (Finset.mem_range.mp hp), hd, b, hb, de, hde, ?_⟩
    by_contra hne
    exact hy0 (if_neg hne)
  · exact absurd rfl hshare

/-- An inode that holds nothing becomes one that is no directory. -/
theorem entries_setIno {x : Inode} (h : (s.ino p).dir.blocks = []) (hx : x.type ≠ .dir) :
    entries sb (s.setIno p x) i = entries sb s i := by
  refine entries_congr fun d => ?_
  unfold share Fs.isDir
  by_cases hd : d = p
  · subst hd
    have hc : count i (s.ino d).dir = 0 := by simp [count, h]
    rw [setIno_self, hc, if_neg (by simpa using hx), ite_self]
  · rw [setIno_ne _ hd]

/-! ### Accounts after a change -/

theorem acct_setNlink_self : acct sb (s.setNlink i n) i = { acct sb s i with nlink := n } := by
  simp only [acct, setNlink_isDir, setNlink_nlink_self, entries_setNlink]
  rfl

theorem acct_setNlink_ne (h : i ≠ j) : acct sb (s.setNlink j n) i = acct sb s i := by
  simp only [acct, setNlink_isDir, setNlink_nlink_ne h, entries_setNlink]
  rfl

theorem acct_setDir (d : Dir) :
    acct sb (s.setDir p d) i = { acct sb s i with entries := entries sb (s.setDir p d) i } := by
  simp only [acct, setDir_isDir, setDir_nlink]
  rfl

theorem acct_setTracked_self (x : Bool) :
    acct sb (s.setTracked i x) i = { acct sb s i with tracked := x } := by
  simp only [acct, Fs.setTracked, Function.update_self]
  rfl

theorem acct_setTracked_ne (x : Bool) (h : i ≠ j) : acct sb (s.setTracked j x) i = acct sb s i := by
  simp only [acct, Fs.setTracked, Function.update_of_ne h]
  rfl

theorem acct_setBit_self (x : Bool) : acct sb (s.setBit i x) i = { acct sb s i with bit := x } := by
  simp only [acct, Fs.setBit, Function.update_self]
  rfl

theorem acct_setBit_ne (x : Bool) (h : i ≠ j) : acct sb (s.setBit j x) i = acct sb s i := by
  simp only [acct, Fs.setBit, Function.update_of_ne h]
  rfl

@[simp] theorem acct_hold : acct sb (s.hold j) i = acct sb s i := rfl

end LinuxEvfs.Namespace.Accounts
