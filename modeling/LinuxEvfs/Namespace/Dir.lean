import LinuxEvfs.Errno
import Mathlib.Algebra.BigOperators.Group.List.Lemmas
import Mathlib.Algebra.Order.BigOperators.Group.List
import Mathlib.Algebra.Order.Group.Nat
import Mathlib.Tactic.Ring

/-! # Directory blocks

A block of a directory is the list of its records, each starting where the one before it ends. A record
with inode number 0 is dead. The functions of `namei.c` that work on one block, and what they do to the
live records, counted with any weight (`total`):

* `total_insertAt`: `ext4_insert_dentry` adds one record.
* `total_delete`: `ext4_generic_delete_entry` removes the record it is given.
* `total_modify`: `evfs_dentry_update` gives a record another inode number.

`ext4_check_dir_entry` is in `dir.c`; it is the parameter `checkDirEntry`, true for a bad record. The
hash of a name (`hash.c`) and the leaves that the index blocks give for a name are parameters too. -/

namespace LinuxEvfs.Namespace.Dir

open LinuxEvfs.Errno

/-- The bytes of a name. -/
abbrev Name := List UInt8

/-- `EXT4_FT_*`, the type of a file in a record and in `i_mode`. -/
inductive FileType where
  | unknown | regFile | dir | chrdev | blkdev | fifo | sock | symlink
deriving DecidableEq

/-- `struct ext4_dir_entry_2`; `name_len` is the length of `name`. -/
structure DirEntry where
  inode : ℕ
  recLen : ℕ
  name : Name
  fileType : FileType
deriving DecidableEq

/-- A block; a hole of the directory has no record. -/
abbrev DirBlock := List DirEntry

/-- What the directory functions read of the super block, and the functions of other files. -/
structure Sb where
  blocksize : ℕ
  /-- `ext4_has_metadata_csum`. -/
  metadataCsum : Bool
  /-- `ext4_has_feature_filetype`. -/
  filetype : Bool
  /-- `ext4_has_feature_dir_index`. -/
  dirIndex : Bool
  /-- `s_inodes_count`. -/
  inodesCount : ℕ
  inodesPerGroup : ℕ
  /-- The numbers `ext4_iget` takes. -/
  legal : ℕ → Bool
  /-- `ext4_check_dir_entry`: buffer size, offset and record. -/
  checkDirEntry : ℕ → ℕ → DirEntry → Bool
  /-- `ext4fs_dirhash`. -/
  hash : Name → ℕ
  /-- The leaf blocks that `dx_probe` and `ext4_htree_next_block` find for a name, in order; `none` for
  `ERR_BAD_DX_DIR`. -/
  leaves : List DirBlock → Name → Option (List ℕ)
  count_lt : inodesCount < 2 ^ 32
  group_ge : 8 ≤ inodesPerGroup
  legal_le : ∀ i, legal i = true → 0 < i ∧ i ≤ inodesCount

variable (sb : Sb)

/-- `sizeof(struct ext4_dir_entry_tail)`, when there is one. -/
def Sb.csumSize : ℕ := if sb.metadataCsum then 12 else 0

/-- The part of a block that holds records. -/
def Sb.bufSize : ℕ := sb.blocksize - sb.csumSize

/-- `ext4_dir_rec_len`: 8 bytes and the name, rounded up to four. -/
def ext4DirRecLen (nameLen : ℕ) : ℕ := (nameLen + 8 + 3) / 4 * 4

/-- `ext4_match`. -/
def ext4Match (name : Name) (de : DirEntry) : Bool := de.inode ≠ 0 && de.name = name

/-- What `ext4_search_dir` returns: 1 and the record, 0, or -1. -/
inductive Search where
  | found (k : ℕ)
  | none
  | bad
deriving DecidableEq

def Search.next : Search → Search
  | .found k => .found (k + 1)
  | .none => .none
  | .bad => .bad

/-- `ext4_search_dir`, from the record at `offset` on. -/
def ext4SearchDir (name : Name) : ℕ → DirBlock → Search
  | _, [] => .none
  | offset, de :: rest =>
    if sb.blocksize ≤ offset + 8 then .none
    else if offset + 8 + de.name.length ≤ sb.blocksize ∧ ext4Match name de then
      if sb.checkDirEntry sb.blocksize offset de then .bad else .found 0
    else if de.recLen = 0 then .bad
    else (ext4SearchDir name (offset + de.recLen) rest).next

/-- `ext4_find_dest_de`: the first record with room for the name. -/
def ext4FindDestDe (name : Name) : ℕ → DirBlock → Except Errno ℕ
  | _, [] => .error ENOSPC
  | offset, de :: rest =>
    if sb.bufSize < offset + ext4DirRecLen name.length then .error ENOSPC
    else if sb.checkDirEntry sb.bufSize offset de then .error EFSCORRUPTED
    else if ext4Match name de then .error EEXIST
    else if ext4DirRecLen name.length
        + (if de.inode ≠ 0 then ext4DirRecLen de.name.length else 0) ≤ de.recLen then .ok 0
    else (ext4FindDestDe name (offset + de.recLen) rest).map (· + 1)

/-- `ext4_insert_dentry`: a live record is cut behind its name, a dead one is used as it is. -/
def ext4InsertDentry (e de : DirEntry) : DirBlock :=
  if de.inode ≠ 0 then
    [{ de with recLen := ext4DirRecLen de.name.length },
      { e with recLen := de.recLen - ext4DirRecLen de.name.length }]
  else [{ e with recLen := de.recLen }]

/-- The insertion at the record number `k`. -/
def insertAt (e : DirEntry) : ℕ → DirBlock → DirBlock
  | _, [] => []
  | 0, de :: rest => ext4InsertDentry e de ++ rest
  | k + 1, de :: rest => de :: insertAt e k rest

/-- A record wiped up to its length. -/
def wiped (recLen : ℕ) : DirEntry := ⟨0, recLen, [], .unknown⟩

/-- The loop of `ext4_generic_delete_entry` behind the first record: `pde` is the record before. -/
def deleteBehind : ℕ → ℕ → DirEntry → DirBlock → Except Errno DirBlock
  | _, _, _, [] => .error ENOENT
  | k, offset, pde, de :: rest =>
    if sb.bufSize ≤ offset then .error ENOENT
    else if sb.checkDirEntry sb.blocksize offset de then .error EFSCORRUPTED
    else
      match k with
      | 0 => .ok ({ pde with recLen := pde.recLen + de.recLen } :: rest)
      | k + 1 => (deleteBehind k (offset + de.recLen) de rest).map (pde :: ·)

/-- `ext4_generic_delete_entry` of the record number `k`. -/
def ext4GenericDeleteEntry (k : ℕ) : DirBlock → Except Errno DirBlock
  | [] => .error ENOENT
  | de :: rest =>
    if sb.bufSize = 0 then .error ENOENT
    else if sb.checkDirEntry sb.blocksize 0 de then .error EFSCORRUPTED
    else
      match k with
      | 0 => .ok (wiped de.recLen :: rest)
      | k + 1 => deleteBehind sb k de.recLen de rest

/-- The walk of `evfs_dentry_read` and `evfs_dentry_update`: the live record number `index`. -/
def nthLive : ℕ → ℕ → DirBlock → Option ℕ
  | _, _, [] => none
  | offset, index, de :: rest =>
    if sb.bufSize ≤ offset then none
    else if de.recLen = 0 then none
    else if de.inode ≠ 0 then
      match index with
      | 0 => some 0
      | index + 1 => (nthLive (offset + de.recLen) index rest).map (· + 1)
    else (nthLive (offset + de.recLen) index rest).map (· + 1)

/-- `curr_dentry->inode = cpu_to_le32(new)` at the record number `k`. -/
def retarget (new : ℕ) (k : ℕ) (b : DirBlock) : DirBlock :=
  b.modify k fun de => { de with inode := new % 2 ^ 32 }

/-! ### Live records -/

/-- 1 for a live record that names `i`. -/
def names (i : ℕ) (de : DirEntry) : ℕ := if de.inode ≠ 0 ∧ de.inode = i then 1 else 0

/-- The number of live records that name `i`. -/
def liveCount (i : ℕ) (b : DirBlock) : ℕ := (b.map (names i)).sum

/-- What a record counts for, where its inode number and name do: a dead one for nothing. -/
def weigh (w : ℕ → Name → ℕ) (de : DirEntry) : ℕ := if de.inode ≠ 0 then w de.inode de.name else 0

/-- What the records of a block count for. -/
def total (w : ℕ → Name → ℕ) (b : DirBlock) : ℕ := (b.map (weigh w)).sum

/-- Counting the records that name `i`. -/
def naming (i : ℕ) : ℕ → Name → ℕ := fun j _ => if j = i then 1 else 0

theorem names_eq_weigh (i : ℕ) (de : DirEntry) : names i de = weigh (naming i) de := by
  unfold names weigh naming
  split_ifs <;> simp_all

theorem liveCount_eq_total (i : ℕ) (b : DirBlock) : liveCount i b = total (naming i) b := by
  unfold liveCount total
  rw [funext (names_eq_weigh i)]

section Counts

variable {i : ℕ} {w : ℕ → Name → ℕ} {b : DirBlock}

/-- The length and the name of a record do not count. -/
theorem names_congr {de de' : DirEntry} (h : de.inode = de'.inode) : names i de = names i de' := by
  simp only [names, h]

theorem names_self {de : DirEntry} (h : de.inode ≠ 0) : names de.inode de = 1 := if_pos ⟨h, rfl⟩

theorem names_of_ne {de : DirEntry} (h : de.inode ≠ i) : names i de = 0 := if_neg fun hi => h hi.2

theorem names_le_one (de : DirEntry) : names i de ≤ 1 := by
  unfold names
  split_ifs
  · exact Nat.le_refl 1
  · exact Nat.zero_le 1

theorem weigh_dead {de : DirEntry} (h : de.inode = 0) : weigh w de = 0 := if_neg fun hne => hne h

theorem weigh_live {de : DirEntry} (h : de.inode ≠ 0) : weigh w de = w de.inode de.name := if_pos h

theorem weigh_le_total {de : DirEntry} (h : de ∈ b) : weigh w de ≤ total w b :=
  List.single_le_sum (by simp) _ (List.mem_map_of_mem h)

/-- A live record of a block counts for the inode it names. -/
theorem liveCount_pos {k : ℕ} {de : DirEntry} (hk : b[k]? = some de) (hde : de.inode ≠ 0) :
    0 < liveCount de.inode b := by
  have h := weigh_le_total (w := naming de.inode) (List.mem_of_getElem? hk)
  rw [← names_eq_weigh, names_self hde, ← liveCount_eq_total] at h
  exact h

@[simp] theorem total_nil : total w [] = 0 := rfl

@[simp] theorem total_cons (de : DirEntry) : total w (de :: b) = weigh w de + total w b :=
  List.sum_cons

@[simp] theorem total_append (b' : DirBlock) :
    total w (b ++ b') = total w b + total w b' := by
  simp [total]

theorem total_perm {b' : DirBlock} (h : b.Perm b') : total w b = total w b' :=
  (h.map _).sum_eq

theorem total_insertDentry (e de : DirEntry) :
    total w (ext4InsertDentry e de) = weigh w de + weigh w e := by
  unfold ext4InsertDentry
  by_cases h : de.inode ≠ 0
  · simp [if_pos h, weigh]
  · have h0 : de.inode = 0 := not_not.mp h
    simp [weigh, h0]

theorem total_insertAt (e : DirEntry) :
    ∀ (k : ℕ) (b : DirBlock), k < b.length →
      total w (insertAt e k b) = total w b + weigh w e
  | _, [], h => absurd h (Nat.not_lt_zero _)
  | 0, de :: rest, _ => by
    simp only [insertAt, total_append, total_insertDentry, total_cons]
    ring
  | k + 1, de :: rest, h => by
    have ih := total_insertAt e k rest (Nat.lt_of_succ_lt_succ h)
    simp only [insertAt, total_cons, ih]
    ring

theorem total_deleteBehind :
    ∀ (k offset : ℕ) (pde : DirEntry) (b b' : DirBlock), deleteBehind sb k offset pde b = .ok b' →
      ∃ de, b[k]? = some de ∧ ∀ w, weigh w pde + total w b = total w b' + weigh w de
  | _, _, _, [], _, h => by simp [deleteBehind] at h
  | 0, offset, pde, de :: rest, b', h => by
    simp only [deleteBehind] at h
    split_ifs at h
    obtain rfl := Except.ok.inj h
    refine ⟨de, rfl, fun w => ?_⟩
    simp only [total_cons, weigh]
    ring
  | k + 1, offset, pde, de :: rest, b', h => by
    simp only [deleteBehind] at h
    split_ifs at h
    cases hrec : deleteBehind sb k (offset + de.recLen) de rest with
    | error e => rw [hrec] at h; cases h
    | ok b'' =>
      rw [hrec] at h
      obtain rfl := Except.ok.inj h
      obtain ⟨de', hde', hcount⟩ := total_deleteBehind k _ _ _ _ hrec
      refine ⟨de', hde', fun w => ?_⟩
      have := hcount w
      simp only [total_cons]
      omega

/-- A deletion takes away the record it is given. -/
theorem total_delete {k : ℕ} {b b' : DirBlock} (h : ext4GenericDeleteEntry sb k b = .ok b') :
    ∃ de, b[k]? = some de ∧ ∀ w, total w b = total w b' + weigh w de := by
  cases b with
  | nil => simp [ext4GenericDeleteEntry] at h
  | cons de rest =>
    simp only [ext4GenericDeleteEntry] at h
    split_ifs at h
    cases k with
    | zero =>
      obtain rfl := Except.ok.inj h
      refine ⟨de, rfl, fun w => ?_⟩
      have hw : weigh w (wiped de.recLen) = 0 := weigh_dead rfl
      simp only [total_cons, hw]
      omega
    | succ k =>
      obtain ⟨de', hde', hcount⟩ := total_deleteBehind sb k _ _ _ _ h
      exact ⟨de', hde', fun w => by rw [total_cons, hcount w]⟩

theorem total_modify {f : DirEntry → DirEntry} :
    ∀ {k : ℕ} {b : DirBlock} {de : DirEntry}, b[k]? = some de →
      total w (b.modify k f) + weigh w de = total w b + weigh w (f de)
  | _, [], _, h => by simp at h
  | 0, d :: rest, de, h => by
    obtain rfl : d = de := by simpa using h
    simp only [List.modify_zero_cons, total_cons]
    omega
  | k + 1, d :: rest, de, h => by
    have hde : rest[k]? = some de := by simpa using h
    have ih := total_modify (f := f) hde
    simp only [List.modify_succ_cons, total_cons]
    omega

end Counts

/-! ### What the searches return -/

theorem ext4SearchDir_found {name : Name} :
    ∀ {offset : ℕ} {b : DirBlock} {k : ℕ}, ext4SearchDir sb name offset b = .found k →
      ∃ de, b[k]? = some de ∧ ext4Match name de = true
  | _, [], _, h => by simp [ext4SearchDir] at h
  | offset, de :: rest, k, h => by
    simp only [ext4SearchDir] at h
    split_ifs at h with _ hm
    · obtain rfl := Search.found.inj h
      exact ⟨de, rfl, hm.2⟩
    · cases hrec : ext4SearchDir sb name (offset + de.recLen) rest with
      | found k' =>
        rw [hrec] at h
        obtain rfl := Search.found.inj h
        obtain ⟨de', hde', hm⟩ := ext4SearchDir_found hrec
        exact ⟨de', by simpa using hde', hm⟩
      | none => rw [hrec] at h; cases h
      | bad => rw [hrec] at h; cases h

theorem ext4FindDestDe_lt {name : Name} :
    ∀ {offset : ℕ} {b : DirBlock} {k : ℕ}, ext4FindDestDe sb name offset b = .ok k → k < b.length
  | _, [], _, h => by simp [ext4FindDestDe] at h
  | offset, de :: rest, k, h => by
    simp only [ext4FindDestDe] at h
    split_ifs at h
    all_goals try (obtain rfl := Except.ok.inj h; exact Nat.succ_pos _)
    all_goals
      cases hrec : ext4FindDestDe sb name (offset + de.recLen) rest with
      | error e => rw [hrec] at h; cases h
      | ok k' =>
        rw [hrec] at h
        obtain rfl := Except.ok.inj h
        exact Nat.succ_lt_succ (ext4FindDestDe_lt hrec)

theorem nthLive_some :
    ∀ {offset index : ℕ} {b : DirBlock} {k : ℕ}, nthLive sb offset index b = some k →
      ∃ de, b[k]? = some de ∧ de.inode ≠ 0
  | _, _, [], _, h => by simp [nthLive] at h
  | offset, index, de :: rest, k, h => by
    have hrec : ∀ j, (nthLive sb (offset + de.recLen) j rest).map (· + 1) = some k →
        ∃ de', (de :: rest)[k]? = some de' ∧ de'.inode ≠ 0 := by
      intro j hj
      obtain ⟨k', hk', rfl⟩ := Option.map_eq_some_iff.mp hj
      obtain ⟨de', hde', hlive⟩ := nthLive_some hk'
      exact ⟨de', by simpa using hde', hlive⟩
    unfold nthLive at h
    split_ifs at h with _ _ hlive
    · cases index with
      | zero =>
        obtain rfl := Option.some.inj h
        exact ⟨de, rfl, hlive⟩
      | succ j => exact hrec j h
    · exact hrec index h

theorem ext4Match_inode {name : Name} {de : DirEntry} (h : ext4Match name de = true) :
    de.inode ≠ 0 := by
  simp only [ext4Match, Bool.and_eq_true, decide_eq_true_eq] at h
  exact h.1

end LinuxEvfs.Namespace.Dir
