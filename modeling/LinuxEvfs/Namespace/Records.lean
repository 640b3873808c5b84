import LinuxEvfs.Namespace.Edits

/-! # The records of a directory

A condition on the number, the name and the type of the live records of a directory (`Says`). The functions of
`namei.c` move records between blocks, cut them and merge them, and never write to what a record says:

* `says_addEntry`: what holds of the live records and of the entry added holds of the live records afterwards, also
  where `ext4_add_entry` fails with blocks already changed.
* `says_genericDelete`: a deletion leaves some of the records.
* `says_retarget`: what `evfs_dentry_update` writes is true of the record it writes to, or it is not. -/

namespace LinuxEvfs.Namespace.Records

open LinuxEvfs.Errno LinuxEvfs.Namespace.Dir LinuxEvfs.Namespace.Entries LinuxEvfs.Namespace.Counts
open LinuxEvfs.Namespace.Model LinuxEvfs.Namespace.Accounts LinuxEvfs.Namespace.Edits

variable {sb : Sb} {env : Env} {q : ℕ → Name → FileType → Prop} {e de : DirEntry} {b b' : DirBlock} {d : Dir}

/-! ### Blocks -/

/-- A record is dead, or `q` holds of its number, its name and its type. -/
def Says (q : ℕ → Name → FileType → Prop) (de : DirEntry) : Prop := de.inode ≠ 0 → q de.inode de.name de.fileType

/-- `q` holds of the live records of a block. -/
def BlockSays (q : ℕ → Name → FileType → Prop) (b : DirBlock) : Prop := ∀ de ∈ b, Says q de

@[simp] theorem says_recLen (n : ℕ) : Says q { de with recLen := n } ↔ Says q de := Iff.rfl

@[simp] theorem says_wiped (n : ℕ) : Says q (wiped n) := fun h => absurd rfl h

@[simp] theorem blockSays_nil : BlockSays q [] := fun _ h => absurd h List.not_mem_nil

@[simp] theorem blockSays_cons : BlockSays q (de :: b) ↔ Says q de ∧ BlockSays q b := List.forall_mem_cons

@[simp] theorem blockSays_append : BlockSays q (b ++ b') ↔ BlockSays q b ∧ BlockSays q b' :=
  List.forall_mem_append

theorem BlockSays.subset (h : BlockSays q b) (hsub : b' ⊆ b) : BlockSays q b' := fun de hde => h de (hsub hde)

theorem says_insertDentry (he : Says q e) (h : Says q de) : BlockSays q (ext4InsertDentry e de) := by
  unfold ext4InsertDentry
  split_ifs <;> simp [he, h]

theorem says_insertAt (he : Says q e) : ∀ (k : ℕ) {b : DirBlock}, BlockSays q b → BlockSays q (insertAt e k b)
  | _, [], h => by rwa [insertAt]
  | 0, de :: rest, h => by
    rw [blockSays_cons] at h
    exact blockSays_append.mpr ⟨says_insertDentry he h.1, h.2⟩
  | k + 1, de :: rest, h => by
    rw [blockSays_cons] at h
    exact blockSays_cons.mpr ⟨h.1, says_insertAt he k h.2⟩

theorem says_deleteBehind : ∀ (k offset : ℕ) (pde : DirEntry) (b : DirBlock) {b' : DirBlock},
    deleteBehind sb k offset pde b = .ok b' → Says q pde → BlockSays q b → BlockSays q b'
  | _, _, _, [], _, h, _, _ => by simp [deleteBehind] at h
  | 0, offset, pde, de :: rest, b', h, hp, hb => by
    simp only [deleteBehind] at h
    split_ifs at h
    obtain rfl := Except.ok.inj h
    exact blockSays_cons.mpr ⟨hp, (blockSays_cons.mp hb).2⟩
  | k + 1, offset, pde, de :: rest, b', h, hp, hb => by
    simp only [deleteBehind] at h
    split_ifs at h
    rw [blockSays_cons] at hb
    cases hrec : deleteBehind sb k (offset + de.recLen) de rest with
    | error err => rw [hrec] at h; cases h
    | ok b'' =>
      rw [hrec] at h
      obtain rfl := Except.ok.inj h
      exact blockSays_cons.mpr ⟨hp, says_deleteBehind k _ _ _ hrec hb.1 hb.2⟩

theorem says_genericDelete {k : ℕ} (h : ext4GenericDeleteEntry sb k b = .ok b') (hb : BlockSays q b) :
    BlockSays q b' := by
  cases b with
  | nil => simp [ext4GenericDeleteEntry] at h
  | cons de rest =>
    rw [blockSays_cons] at hb
    simp only [ext4GenericDeleteEntry] at h
    split_ifs at h
    cases k with
    | zero =>
      obtain rfl := Except.ok.inj h
      exact blockSays_cons.mpr ⟨says_wiped _, hb.2⟩
    | succ k => exact says_deleteBehind k _ _ _ h hb.1 hb.2

/-- A record is given another inode number, and keeps its type. -/
theorem says_retarget {new k : ℕ} (hb : BlockSays q b) (hk : b[k]? = some de) :
    BlockSays q (retarget new k b) ↔ Says q { de with inode := new % 2 ^ 32 } := by
  have hat : ∀ j, (retarget new k b)[j]? = (fun x => if k = j then { x with inode := new % 2 ^ 32 } else x) <$> b[j]? :=
    fun j => List.getElem?_modify _ _ _ _
  constructor
  · intro h
    have hmem := hat k
    rw [hk] at hmem
    simpa using h _ (List.mem_of_getElem? hmem)
  · intro h x hx
    obtain ⟨j, hj⟩ := List.getElem?_of_mem hx
    rw [hat j] at hj
    obtain ⟨y, hy, rfl⟩ := Option.map_eq_some_iff.mp hj
    by_cases hkj : k = j
    · subst hkj
      obtain rfl := Option.some.inj (hk.symm.trans hy)
      simpa using h
    · simpa [hkj] using hb y (List.mem_of_getElem? hy)

theorem says_addDirentToBuf (he : Says q e) (k : Option ℕ) (hb : BlockSays q b) :
    BlockSays q (addDirentToBuf sb env e k b).1 := by
  unfold addDirentToBuf
  split
  · exact hb
  · split
    · exact hb
    · exact says_insertAt he _ hb

theorem says_addToNewBlock (he : Says q e) : BlockSays q (addToNewBlock sb env e).1 :=
  says_addDirentToBuf he _ (by simp)

theorem says_addToBlock (he : Says q e) (hb : BlockSays q b) : BlockSays q (addToBlock sb env e b).1 := by
  unfold addToBlock
  split_ifs
  · exact says_addToNewBlock he
  · exact says_addDirentToBuf he none hb

theorem says_addToBlocks (he : Says q e) : ∀ {bs : List DirBlock}, (∀ b ∈ bs, BlockSays q b) →
    ∀ b ∈ (addToBlocks sb env e bs).1, BlockSays q b
  | [], h => h
  | b :: bs, h => by
    rw [List.forall_mem_cons] at h
    unfold addToBlocks
    dsimp only
    split_ifs
    · exact List.forall_mem_cons.mpr ⟨says_addToBlock he h.1, says_addToBlocks he h.2⟩
    · exact List.forall_mem_cons.mpr ⟨says_addToBlock he h.1, h.2⟩

theorem says_pack : ∀ (size : ℕ) {b : DirBlock}, BlockSays q b → BlockSays q (pack size b)
  | _, [], _ => by simp [pack]
  | _, [_], h => by simpa [pack] using h
  | size, e :: e' :: rest, h => by
    rw [blockSays_cons] at h
    rw [pack]
    · exact blockSays_cons.mpr ⟨h.1, says_pack _ h.2⟩
    · exact List.cons_ne_nil _ _

theorem says_stretch (size : ℕ) : ∀ (offset : ℕ) {b : DirBlock}, BlockSays q b →
    BlockSays q (stretch size offset b)
  | _, [], _ => by simp [stretch]
  | _, [_], h => by simpa [stretch] using h
  | offset, e :: e' :: rest, h => by
    rw [blockSays_cons] at h
    rw [stretch]
    · exact blockSays_cons.mpr ⟨h.1, says_stretch size _ h.2⟩
    · exact List.cons_ne_nil _ _

theorem sortMap_subset : ((sortMap sb b).map Prod.fst) ⊆ b :=
  fun _ h => List.mem_of_mem_filter ((sortMap_perm sb b).subset h)

theorem says_splitLeaf (hb : BlockSays q b) :
    BlockSays q (splitLeaf sb b).1 ∧ BlockSays q (splitLeaf sb b).2 := by
  have hmap : BlockSays q ((sortMap sb b).map Prod.fst) := hb.subset sortMap_subset
  unfold splitLeaf
  refine ⟨says_pack _ (hmap.subset ?_), says_pack _ (hmap.subset ?_)⟩
  · exact List.map_subset _ fun _ h => List.take_subset _ _ ((List.mergeSort_perm _ _).subset h)
  · exact List.map_subset _ (List.drop_subset _ _)

/-! ### Directories -/

/-- `q` holds of the live records of a directory. -/
def DirSays (q : ℕ → Name → FileType → Prop) (d : Dir) : Prop := ∀ b ∈ d.blocks, BlockSays q b

theorem DirSays.block (h : DirSays q d) (k : ℕ) : BlockSays q (d.block k) := by
  unfold Dir.block
  cases hk : d.blocks[k]? with
  | none => exact blockSays_nil
  | some b => exact h b (List.mem_of_getElem? hk)

theorem DirSays.setBlock (h : DirSays q d) (k : ℕ) (hb : BlockSays q b) : DirSays q (d.setBlock k b) := by
  intro x hx
  rcases List.mem_or_eq_of_mem_set hx with hx | rfl
  · exact h x hx
  · exact hb

theorem DirSays.grow (h : DirSays q d) (hb : BlockSays q b) :
    DirSays q { d with blocks := d.blocks ++ [b] } := by
  intro x hx
  rcases List.mem_append.mp hx with hx | hx
  · exact h x hx
  · obtain rfl := List.mem_singleton.mp hx
    exact hb

theorem dirSays_pair {b b' : DirBlock} (hb : BlockSays q b) (hb' : BlockSays q b') :
    DirSays q { d with blocks := [b, b'], index := true } := by
  intro x hx
  simp only [List.mem_cons, List.not_mem_nil, or_false] at hx
  rcases hx with rfl | rfl
  · exact hb
  · exact hb'

theorem says_splitDir (h : DirSays q d) (k : ℕ) : DirSays q (splitDir sb d k) :=
  (h.setBlock k (says_splitLeaf (h.block k)).1).grow (says_splitLeaf (h.block k)).2

theorem says_doSplit (sb : Sb) (env : Env) (name : Name) (h : DirSays q d) (k : ℕ) :
    DirSays q (doSplit sb env name d k).1 := by
  unfold doSplit
  split
  · exact h
  dsimp only
  split
  · exact h.grow blockSays_nil
  split
  · exact h.grow blockSays_nil
  split
  · exact says_splitDir h k
  · exact says_splitDir h k

theorem says_splitAndAdd (he : Says q e) (h : DirSays q d) (k : ℕ) :
    DirSays q (splitAndAdd sb env e d k).1 := by
  have hs := says_doSplit sb env e.name h k
  unfold splitAndAdd
  split
  · next heq => rwa [heq] at hs
  · next heq =>
    rw [heq] at hs
    exact hs.setBlock _ (says_addDirentToBuf he _ (hs.block _))

theorem says_lostRoot (h : DirSays q d) : DirSays q (lostRoot env d).1 := by
  unfold lostRoot
  split
  · exact h
  · exact dirSays_pair ((h.block 0).subset (List.take_subset _ _)) (by simp)

theorem says_makeIndexedDir (he : Says q e) (h : DirSays q d) : DirSays q (makeIndexedDir sb env e d).1 := by
  unfold makeIndexedDir
  split
  · exact h
  split
  · next dot dotdot rest heq =>
    have hb := h.block 0
    rw [heq, blockSays_cons, blockSays_cons] at hb
    obtain ⟨hdot, hdotdot, hrest⟩ := hb
    dsimp only
    split
    · exact says_lostRoot h
    split
    · exact h
    split
    · exact h
    split
    · exact dirSays_pair (by simp [hdot, hdotdot]) hrest
    have hroot := dirSays_pair (d := d) (b := [dot, { dotdot with recLen := sb.blocksize - 12 }])
      (by simp [hdot, hdotdot]) (says_stretch sb.bufSize 0 hrest)
    split
    · exact hroot
    · exact says_splitAndAdd he hroot 1
  · exact says_lostRoot h

theorem says_linearAdd (he : Says q e) (h : DirSays q d) (fallback : Bool) :
    DirSays q (linearAdd sb env fallback e d).1 := by
  unfold linearAdd
  split
  · exact h
  have hadd : DirSays q { d with blocks := (addToBlocks sb env e d.blocks).1 } := says_addToBlocks he h
  dsimp only
  split
  · exact hadd
  split
  · exact says_makeIndexedDir he hadd
  split
  · exact hadd
  · exact hadd.grow (says_addToNewBlock he)

theorem says_dxAddEntry {r : Dir × Option Errno} (he : Says q e) (h : DirSays q d)
    (hr : ext4DxAddEntry sb env e d = some r) : DirSays q r.1 := by
  have hadd : ∀ k, DirSays q (d.setBlock k (addDirentToBuf sb env e none (d.block k)).1) :=
    fun k => h.setBlock k (says_addDirentToBuf he none (h.block k))
  unfold ext4DxAddEntry at hr
  split at hr
  · cases hr
  dsimp only at hr
  split at hr
  · obtain rfl := Option.some.inj hr
    exact h
  split at hr
  · obtain rfl := Option.some.inj hr
    exact h
  split at hr
  · obtain rfl := Option.some.inj hr
    exact hadd _
  split at hr
  · obtain rfl := Option.some.inj hr
    exact hadd _
  · obtain rfl := Option.some.inj hr
    exact says_splitAndAdd he (hadd _) _

/-- **An insertion.** -/
theorem says_addEntry (sb : Sb) (env : Env) (he : Says q e) (h : DirSays q d) :
    DirSays q (ext4AddEntry sb env e d).1 := by
  unfold ext4AddEntry
  split
  · exact h
  split
  · split
    · next heq => exact says_dxAddEntry he h heq
    split
    · exact h
    dsimp only
    split
    · exact h
    · exact says_linearAdd (d := { d with index := false }) he h true
  · exact says_linearAdd he h false

/-! ### `__ext4_link` -/

section link
variable {s : Fs} {dir child : ℕ} {name : Name}

theorem linkOnce_says (env : Env) (he : Says q (newEntry sb s child name)) (h : DirSays q (s.ino dir).dir) :
    DirSays q ((linkOnce sb env s dir child name).1.ino dir).dir := by
  have hadd := says_addEntry sb env he h
  unfold linkOnce
  split
  · exact h
  dsimp only
  split
  · rw [setDir_dir_self]
    exact hadd
  · rw [setNlink_dir, setDir_dir_self]
    exact hadd

theorem ext4Link_says (sb : Sb) (dir child : ℕ) (name : Name) (q : ℕ → Name → FileType → Prop) (again : List Env)
    (env : Env) (s : Fs) (he : Says q (newEntry sb s child name)) (h : DirSays q (s.ino dir).dir) :
    DirSays q ((ext4Link sb again env s dir child name).1.ino dir).dir := by
  refine (ext4Link_invariant (I := fun t => Says q (newEntry sb t child name) ∧ DirSays q (t.ino dir).dir)
    (fun {env t} ht => ⟨?_, linkOnce_says env ht.1 ht.2⟩) again env ⟨he, h⟩).2
  rw [(linkOnce_frame sb env t dir child name).newEntry_eq]
  exact ht.1

end link

end LinuxEvfs.Namespace.Records
