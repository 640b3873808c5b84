import LinuxEvfs.Namespace.Records

/-! # The entry that an insertion makes

Where `ext4_add_entry` succeeds, the entry is in the directory, whichever way it got there: into a record with room,
into a new block, or into a leaf that was split for it (`makes_addEntry`). With `says_addEntry` nothing else is new:

* `add_created`: an insertion that returns 0 has made an entry with the number and the name it was given, and no
  other. -/

namespace LinuxEvfs.Namespace.Insertion

open LinuxEvfs.Errno LinuxEvfs.Namespace.Dir LinuxEvfs.Namespace.Entries LinuxEvfs.Namespace.Counts
open LinuxEvfs.Namespace.Model LinuxEvfs.Namespace.Accounts LinuxEvfs.Namespace.Steps LinuxEvfs.Namespace.Edits
open LinuxEvfs.Namespace.Records

variable {sb : Sb} {env : Env} {e : DirEntry} {b : DirBlock} {d : Dir} {k : ℕ}

/-! ### Blocks -/

/-- The block holds the entry, in a record of some length. -/
def BlockHas (e : DirEntry) (b : DirBlock) : Prop := ∃ n, { e with recLen := n } ∈ b

/-- A function that succeeds has put the entry into the block. -/
def BlockMakes (e : DirEntry) (r : DirBlock × Option Errno) : Prop := r.2 = none → BlockHas e r.1

theorem has_insertAt : ∀ (k : ℕ) {b : DirBlock}, k < b.length → BlockHas e (insertAt e k b)
  | _, [], h => absurd h (Nat.not_lt_zero _)
  | 0, de :: rest, _ => by
    rw [insertAt, ext4InsertDentry]
    split_ifs
    · exact ⟨_, List.mem_append_left _ (List.mem_cons_of_mem _ List.mem_cons_self)⟩
    · exact ⟨_, List.mem_append_left _ List.mem_cons_self⟩
  | k + 1, de :: rest, h => by
    obtain ⟨n, hn⟩ := has_insertAt k (Nat.lt_of_succ_lt_succ h)
    exact ⟨n, List.mem_cons_of_mem _ hn⟩

theorem makes_addDirentToBuf {o : Option ℕ} (ho : ∀ k, o = some k → k < b.length) :
    BlockMakes e (addDirentToBuf sb env e o b) := by
  unfold addDirentToBuf
  split
  · nofun
  next k hk =>
  split
  · nofun
  refine fun _ => has_insertAt k ?_
  cases o with
  | none => exact ext4FindDestDe_lt sb hk
  | some k' => exact ho k (congrArg some (Except.ok.inj hk))

theorem makes_addToNewBlock : BlockMakes e (addToNewBlock sb env e) :=
  makes_addDirentToBuf fun k hk => by
    obtain rfl := Option.some.inj hk
    exact Nat.one_pos

theorem makes_addToBlock : BlockMakes e (addToBlock sb env e b) := by
  unfold addToBlock
  split
  · exact makes_addToNewBlock
  · exact makes_addDirentToBuf nofun

theorem has_addToBlocks : ∀ {bs : List DirBlock}, (addToBlocks sb env e bs).2 = none →
    ∃ b ∈ (addToBlocks sb env e bs).1, BlockHas e b
  | [], h => by cases h
  | b :: bs, h => by
    unfold addToBlocks at h ⊢
    dsimp only at h ⊢
    split_ifs at h ⊢
    · obtain ⟨b', hb', hhas⟩ := has_addToBlocks h
      exact ⟨b', List.mem_cons_of_mem _ hb', hhas⟩
    · exact ⟨_, List.mem_cons_self, makes_addToBlock h⟩

/-! ### Directories -/

/-- A function that succeeds has put the entry into a block of the directory. -/
def Makes (e : DirEntry) (r : Dir × Option Errno) : Prop := r.2 = none → ∃ b ∈ r.1.blocks, BlockHas e b

theorem makes_setBlock {r : DirBlock × Option Errno} (hk : k < d.blocks.length) (h : BlockMakes e r) :
    Makes e (d.setBlock k r.1, r.2) :=
  fun hr => ⟨r.1, List.mem_set hk _, h hr⟩

/-- The two halves of a leaf have records. -/
theorem splitDir_block {k' : ℕ} (hk : k < d.blocks.length) (hk' : k' = d.blocks.length ∨ k' = k) :
    k' < (splitDir sb d k).blocks.length ∧ (splitDir sb d k).block k' ≠ [] := by
  have hlen : (splitDir sb d k).blocks.length = d.blocks.length + 1 := by simp [splitDir]
  rcases hk' with rfl | rfl
  · refine ⟨by omega, ?_⟩
    simp [splitDir, Dir.block, splitLeaf, pack_ne_nil]
  · refine ⟨by omega, ?_⟩
    simp [splitDir, Dir.block, splitLeaf, List.getElem?_append_left, hk, pack_ne_nil]

/-- The leaf that gets the entry has records. -/
theorem doSplit_block {d' : Dir} {k' : ℕ} {name : Name} (hk : k < d.blocks.length)
    (h : doSplit sb env name d k = (d', .ok k')) : k' < d'.blocks.length ∧ d'.block k' ≠ [] := by
  unfold doSplit at h
  split at h
  · cases h
  dsimp only at h
  split at h
  · cases h
  split at h
  · cases h
  split at h
  · cases h
  obtain ⟨rfl, hk'⟩ := Prod.mk.inj h
  have hside := Except.ok.inj hk'
  refine splitDir_block hk ?_
  split_ifs at hside
  · exact .inl hside.symm
  · exact .inr hside.symm

theorem makes_splitAndAdd (hk : k < d.blocks.length) : Makes e (splitAndAdd sb env e d k) := by
  unfold splitAndAdd
  split
  · nofun
  next d' k' hd =>
  obtain ⟨hlt, hne⟩ := doSplit_block hk hd
  refine makes_setBlock hlt (makes_addDirentToBuf fun j hj => ?_)
  obtain rfl := Option.some.inj hj
  exact Nat.sub_one_lt fun h0 => hne (List.eq_nil_of_length_eq_zero h0)

theorem makes_lostRoot : Makes e (lostRoot env d) := by
  unfold lostRoot
  split <;> nofun

theorem makes_makeIndexedDir : Makes e (makeIndexedDir sb env e d) := by
  unfold makeIndexedDir
  split
  · nofun
  split
  · dsimp only
    split
    · exact makes_lostRoot
    split
    · nofun
    split
    · nofun
    split
    · nofun
    split
    · nofun
    · exact makes_splitAndAdd (Nat.lt_succ_self 1)
  · exact makes_lostRoot

theorem makes_linearAdd {fallback : Bool} : Makes e (linearAdd sb env fallback e d) := by
  unfold linearAdd
  split
  · nofun
  dsimp only
  split
  · exact fun h => has_addToBlocks h
  split
  · exact makes_makeIndexedDir
  split
  · nofun
  · exact fun h => ⟨_, List.mem_append_right _ List.mem_cons_self, makes_addToNewBlock h⟩

theorem makes_dxAddEntry {r : Dir × Option Errno} (hr : ext4DxAddEntry sb env e d = some r) : Makes e r := by
  unfold ext4DxAddEntry at hr
  split at hr
  · cases hr
  dsimp only at hr
  split at hr
  · obtain rfl := Option.some.inj hr
    nofun
  split at hr
  · obtain rfl := Option.some.inj hr
    nofun
  next hne =>
  have hlt := lt_length_of_block hne
  split at hr
  · obtain rfl := Option.some.inj hr
    exact makes_setBlock hlt (makes_addDirentToBuf nofun)
  split at hr
  · obtain rfl := Option.some.inj hr
    nofun
  · obtain rfl := Option.some.inj hr
    exact makes_splitAndAdd (by simpa [Dir.setBlock] using hlt)

/-- **The entry is there.** -/
theorem makes_addEntry : Makes e (ext4AddEntry sb env e d) := by
  unfold ext4AddEntry
  split
  · nofun
  split
  · split
    · next hr => exact makes_dxAddEntry hr
    split
    · nofun
    dsimp only
    split
    · nofun
    · exact makes_linearAdd
  · exact makes_linearAdd

/-! ### `evfs_dentry_add` -/

section add
variable {c : Calls} {s s' : Fs} {dir child : ℕ} {name : Name}

theorem linkOnce_makes (sb : Sb) (env : Env) (s : Fs) (dir child : ℕ) (name : Name) :
    Makes (newEntry sb s child name)
      (((linkOnce sb env s dir child name).1.ino dir).dir, (linkOnce sb env s dir child name).2) := by
  unfold linkOnce
  split
  · nofun
  dsimp only
  split
  · next hadd =>
    rw [setDir_dir_self]
    exact fun _ => makes_addEntry hadd
  · nofun

theorem ext4Link_makes (sb : Sb) (dir child : ℕ) (name : Name) : ∀ (again : List Env) (env : Env) (s : Fs),
    Makes (newEntry sb s child name)
      (((ext4Link sb again env s dir child name).1.ino dir).dir, (ext4Link sb again env s dir child name).2)
  | [], env, s => linkOnce_makes sb env s dir child name
  | env' :: again, env, s => by
    unfold ext4Link
    dsimp only
    split
    · rw [← (linkOnce_frame sb env s dir child name).newEntry_eq]
      exact ext4Link_makes sb dir child name again env' _
    · exact linkOnce_makes sb env s dir child name

/-- A record of the directory has this number and this name. -/
def Named (d : Dir) (i : ℕ) (name : Name) : Prop := ∃ b ∈ d.blocks, ∃ de ∈ b, de.inode = i ∧ de.name = name

/-- The entry created is that of `child`, with the name: it is there, and any other live entry was there before. -/
structure Created (child : ℕ) (name : Name) (d d' : Dir) : Prop where
  present : Named d' child name
  only : DirSays (fun i n _ => i = child ∧ n = name ∨ Named d i n) d'

/-- **The entry created.** -/
theorem add_created (h : evfsDentryAdd sb c s dir child name = .ret s' 0) :
    Created child name (s.ino dir).dir (s'.ino dir).dir := by
  obtain ⟨x, ⟨-, hret⟩ | ⟨-, -, -, -, rfl, hret⟩⟩ := add_cases h
  · exact absurd rfl hret
  constructor
  · obtain ⟨b, hb, n, hn⟩ := ext4Link_makes sb dir child name c.again c.env _ (retOf_zero hret.symm)
    exact ⟨b, hb, _, hn, rfl, rfl⟩
  · refine ext4Link_says sb dir child name _ c.again c.env _ (fun _ => .inl ⟨rfl, rfl⟩) ?_
    exact fun b hb de hde _ => .inr ⟨b, hb, de, hde, rfl, rfl⟩

end add

end LinuxEvfs.Namespace.Insertion
