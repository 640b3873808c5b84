import LinuxEvfs.Namespace.Exits

/-! # The attempts of `__ext4_link`

Each attempt raises the count of the child, and drops it again where `ext4_add_entry` fails. It is repeated for want
of space, also where the entry has been made and only the inode could not be stored.

* `ext4Link_nlink`: the count of a file afterwards, with the links that the attempts have made.
* `ext4Link_dx_le`: with an index it goes back to 1 and never passes the limit.
* `add_exit`: `evfs_dentry_add` has called `__ext4_link`, or read inodes only. -/

namespace LinuxEvfs.Namespace.Attempts

open LinuxEvfs.Errno LinuxEvfs.Namespace.Dir LinuxEvfs.Namespace.Entries LinuxEvfs.Namespace.Model
open LinuxEvfs.Namespace.Accounts LinuxEvfs.Namespace.Refine LinuxEvfs.Namespace.Steps
open LinuxEvfs.Namespace.Edits LinuxEvfs.Namespace.Exits

variable {sb : Sb} {c : Calls} {s s' : Fs} {i dir child : ℕ} {name : Name} {env : Env} {ret : ℤ}

section made
variable (sb) (dir child : ℕ) (name : Name)

/-- An attempt of `__ext4_link` makes a link: `ext4_add_entry` succeeds. -/
def Inserts (env : Env) (s : Fs) : Prop :=
  env .journalStart = none ∧ (ext4AddEntry sb env (newEntry sb s child name) (s.ino dir).dir).2 = none

instance (env : Env) (s : Fs) : Decidable (Inserts sb dir child name env s) :=
  inferInstanceAs (Decidable (_ ∧ _))

/-- The links that the attempts make. -/
def made : List Env → Env → Fs → ℕ
  | [], env, s => if Inserts sb dir child name env s then 1 else 0
  | env' :: again, env, s =>
    (if Inserts sb dir child name env s then 1 else 0) +
      if (linkOnce sb env s dir child name).2 = some ENOSPC then
        made again env' (linkOnce sb env s dir child name).1
      else 0

end made

/-! ### One attempt -/

theorem linkOnce_nlink_ne (hi : i ≠ child) :
    ((linkOnce sb env s dir child name).1.ino i).nlink = (s.ino i).nlink := by
  unfold linkOnce
  split
  · rfl
  dsimp only
  split
  · rw [setDir_nlink, setNlink_nlink_ne hi]
  · rw [setNlink_nlink_ne hi, setDir_nlink, setNlink_nlink_ne hi]

/-- The count of the child after an attempt. -/
theorem linkOnce_nlink_self :
    ((linkOnce sb env s dir child name).1.ino child).nlink =
      if Inserts sb dir child name env s then ext4IncCount sb (s.ino child)
      else if env .journalStart = none then dropNlink (ext4IncCount sb (s.ino child))
      else (s.ino child).nlink := by
  unfold linkOnce
  split
  · next err hstart => rw [if_neg (fun h => by simp [h.1] at hstart), if_neg (by simp [hstart])]
  next hstart =>
  dsimp only
  split
  · next hadd => rw [if_pos ⟨hstart, hadd⟩, setDir_nlink, setNlink_nlink_self]
  · next err hadd =>
    rw [if_neg (fun h => by simp [h.2] at hadd), if_pos hstart, setNlink_nlink_self, setDir_nlink, setNlink_nlink_self]

/-- Of a file, which has no index. -/
theorem linkOnce_nlink (hdx : isDx sb (s.ino child).dir = false) (h32 : (s.ino child).nlink < 2 ^ 32) :
    ((linkOnce sb env s dir child name).1.ino child).nlink =
      ((s.ino child).nlink + if Inserts sb dir child name env s then 1 else 0) % 2 ^ 32 := by
  have hinc : ext4IncCount sb (s.ino child) = incNlink (s.ino child).nlink := by
    simp [ext4IncCount, hdx]
  rw [linkOnce_nlink_self, hinc, dropNlink_incNlink h32]
  split_ifs
  · rfl
  · exact (Nat.mod_eq_of_lt h32).symm
  · exact (Nat.mod_eq_of_lt h32).symm

/-- With an index the count goes back to 1. -/
theorem linkOnce_dx_le (hdx : isDx sb (s.ino child).dir = true) (hle : (s.ino child).nlink ≤ EXT4_LINK_MAX) :
    ((linkOnce sb env s dir child name).1.ino child).nlink ≤ EXT4_LINK_MAX := by
  have hinc : 1 ≤ ext4IncCount sb (s.ino child) ∧ ext4IncCount sb (s.ino child) ≤ EXT4_LINK_MAX := by
    unfold ext4IncCount incNlink EXT4_LINK_MAX at *
    simp only [hdx, true_and]
    split_ifs <;> omega
  rw [linkOnce_nlink_self]
  unfold dropNlink EXT4_LINK_MAX at *
  split_ifs <;> omega

theorem linkOnce_isDx (hne : child ≠ dir) :
    isDx sb ((linkOnce sb env s dir child name).1.ino child).dir = isDx sb (s.ino child).dir := by
  rw [(linkOnce_frame sb env s dir child name).others child hne]

/-! ### All attempts -/

section link
variable (sb) (dir child : ℕ) (name : Name)

theorem ext4Link_nlink_ne {i : ℕ} (hi : i ≠ child) (again : List Env) (env : Env) (s : Fs) :
    ((ext4Link sb again env s dir child name).1.ino i).nlink = (s.ino i).nlink :=
  ext4Link_invariant (I := fun t => (t.ino i).nlink = (s.ino i).nlink) (fun h => (linkOnce_nlink_ne hi).trans h)
    again env rfl

/-- The count of a file after all attempts. -/
theorem ext4Link_nlink (hne : child ≠ dir) : ∀ (again : List Env) (env : Env) (s : Fs),
    isDx sb (s.ino child).dir = false → (s.ino child).nlink < 2 ^ 32 →
      ((ext4Link sb again env s dir child name).1.ino child).nlink =
        ((s.ino child).nlink + made sb dir child name again env s) % 2 ^ 32
  | [], env, s, hdx, h32 => linkOnce_nlink hdx h32
  | env' :: again, env, s, hdx, h32 => by
    have hone : ((linkOnce sb env s dir child name).1.ino child).nlink = _ := linkOnce_nlink hdx h32
    unfold ext4Link made
    dsimp only
    split
    · have h32' : ((linkOnce sb env s dir child name).1.ino child).nlink < 2 ^ 32 := by
        rw [hone]
        exact Nat.mod_lt _ (by decide)
      rw [ext4Link_nlink hne again env' _ (by rwa [linkOnce_isDx hne]) h32', hone, Nat.mod_add_mod, Nat.add_assoc]
    · exact hone

theorem ext4Link_dx_le (hne : child ≠ dir) (again : List Env) (env : Env) (s : Fs)
    (hdx : isDx sb (s.ino child).dir = true) (hle : (s.ino child).nlink ≤ EXT4_LINK_MAX) :
    ((ext4Link sb again env s dir child name).1.ino child).nlink ≤ EXT4_LINK_MAX :=
  (ext4Link_invariant (I := fun t => isDx sb (t.ino child).dir = true ∧ (t.ino child).nlink ≤ EXT4_LINK_MAX)
    (fun h => ⟨(linkOnce_isDx hne).trans h.1, linkOnce_dx_le h.1 h.2⟩) again env ⟨hdx, hle⟩).2

end link

/-! ### `evfs_dentry_add` -/

/-- The insertion gets as far as `__ext4_link`. -/
structure Reaches (sb : Sb) (c : Calls) (s : Fs) (parent child : ℕ) (name : Name) : Prop where
  nameLen : ¬ (name.length = 0 ∨ 255 < name.length)
  igetDir : refusal sb (c.env .igetDir) s parent = none
  free : s.held parent = false
  isDir : s.isDir parent = true
  hasAlias : c.env .findAnyAlias = none
  igetChild : refusal sb (c.env .igetChild) (s.setCached parent true) child = none
  freeChild : s.held child = false
  ne : child ≠ parent
  dAlloc : c.env .dAlloc = none
  dquot : c.env .dquotInitDir = none

/-- The state with the directory and the child read. -/
def opened (s : Fs) (parent child : ℕ) : Fs := (s.setCached parent true).setCached child true

/-- Where an insertion returns, it has called `__ext4_link`, or read inodes only. -/
theorem add_exit {parent : ℕ} (h : evfsDentryAdd sb c s parent child name = .ret s' ret) :
    (Reaches sb c s parent child name ∧
      s' = (ext4Link sb c.again c.env (opened s parent child) parent child name).1) ∨
    (¬ Reaches sb c s parent child name ∧ s'.ino = s.ino) := by
  have hkept : ∀ {a : Fs} {x : ℤ}, Outcome.ret a x = .ret s' ret → a.ino = s.ino →
      ¬ Reaches sb c s parent child name →
      (Reaches sb c s parent child name ∧
        s' = (ext4Link sb c.again c.env (opened s parent child) parent child name).1) ∨
      (¬ Reaches sb c s parent child name ∧ s'.ino = s.ino) :=
    fun h ha hnot => .inr ⟨hnot, by rw [ret_state h, ha]⟩
  unfold evfsDentryAdd at h
  by_cases hlen : name.length = 0 ∨ 255 < name.length
  · rw [if_pos hlen] at h
    exact hkept h rfl fun hr => hr.nameLen hlen
  rw [if_neg hlen, iget_eq] at h
  cases higet : refusal sb (c.env .igetDir) s parent with
  | some err =>
    rw [higet] at h
    exact hkept h rfl fun hr => absurd (higet.symm.trans hr.igetDir) (Option.some_ne_none err)
  | none =>
    rw [higet] at h
    dsimp only [Option.elim] at h
    rw [iget_eq] at h
    split_ifs at h with hheld hdir halias
    · exact hkept h rfl fun hr => absurd (hdir.symm.trans hr.isDir) (by decide)
    · exact hkept h rfl fun hr => by simp [hr.hasAlias] at halias
    cases hchild : refusal sb (c.env .igetChild) (s.setCached parent true) child with
    | some err =>
      rw [hchild] at h
      exact hkept h rfl fun hr => absurd (hchild.symm.trans hr.igetChild) (Option.some_ne_none err)
    | none =>
      rw [hchild] at h
      dsimp only [Option.elim] at h
      split_ifs at h with hheld'
      rw [not_or] at hheld'
      cases hd : c.env .dAlloc with
      | some err =>
        rw [hd] at h
        exact hkept h rfl fun hr => absurd (hd.symm.trans hr.dAlloc) (Option.some_ne_none err)
      | none =>
        cases hq : c.env .dquotInitDir with
        | some err =>
          rw [hd, hq] at h
          exact hkept h rfl fun hr => absurd (hq.symm.trans hr.dquot) (Option.some_ne_none err)
        | none =>
          rw [hd, hq] at h
          exact .inl ⟨⟨hlen, higet, by simpa using hheld, by simpa using hdir, by simpa using halias, hchild,
            by simpa using hheld'.1, hheld'.2, hd, hq⟩, ret_state h⟩

end LinuxEvfs.Namespace.Attempts
