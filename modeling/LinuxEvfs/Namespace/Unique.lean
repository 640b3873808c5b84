import LinuxEvfs.Lib.Runs
import LinuxEvfs.Namespace.Block
import LinuxEvfs.Namespace.Edits
import LinuxEvfs.Namespace.Reclaim

/-! # Names in a linear directory

`evfs_dentry_add` has no lookup before it: a name that is there already is noticed by `ext4_find_dest_de`
alone, which looks at the records up to the first one with room, block after block.

* `evfsDentry_names_unique`: names stay unique in every run in which each name added is new or is met
  before any room for it (`refuses`); where nothing outside fails, exactly then.
* `evfsDentryAdd_duplicates`: the name is behind a gap, and is added a second time. -/

namespace LinuxEvfs.Namespace.Unique

open LinuxEvfs.Errno LinuxEvfs.Lib.Runs LinuxEvfs.Namespace.Dir LinuxEvfs.Namespace.Entries
open LinuxEvfs.Namespace.Counts LinuxEvfs.Namespace.Model LinuxEvfs.Namespace.Accounts
open LinuxEvfs.Namespace.Update LinuxEvfs.Namespace.Edits LinuxEvfs.Namespace.Block
open LinuxEvfs.Namespace.Reclaim

variable {sb : Sb} {c : Calls} {s s' : Fs} {env : Env} {d : Dir} {e : DirEntry} {parent child : ℕ}
  {name : Name} {ret : ℤ}

/-- The names of the live records. -/
def liveNames (d : Dir) : List Name :=
  (d.blocks.flatten.filter fun de => de.inode ≠ 0).map DirEntry.name

/-- In every directory the live records have different names. -/
def UniqueNames (s : Fs) : Prop := ∀ i, s.isDir i = true → (liveNames (s.ino i).dir).Nodup

/-- The scan of `ext4_add_entry` ends at a record it takes offence at, the name itself or a bad one: the
blocks before have no room, this one is no hole. -/
def refuses (sb : Sb) (name : Name) : List DirBlock → Bool
  | [] => false
  | b :: bs =>
    b ≠ [] &&
      match ext4FindDestDe sb name 0 b with
      | .ok _ => false
      | .error err => err ≠ ENOSPC || refuses sb name bs

/-- The operations on entries, of directories without an index. -/
def OnLinear (sb : Sb) (s : Fs) (e : Event) : Prop :=
  match e.op with
  | .dentryAdd dir _ _ | .dentryDelete dir _ | .dentryUpdate dir _ _ => isDx sb (s.ino dir).dir = false
  | _ => False

/-- A name added is new, or the scan meets it. -/
def Admits (sb : Sb) (d : Dir) (name : Name) : Prop :=
  name ∉ liveNames d ∨ refuses sb name d.blocks = true

/-- The condition on a call. -/
def StepAdmits (sb : Sb) (s : Fs) (e : Event) : Prop :=
  match e.op with
  | .dentryAdd parent _ name => (Quiet e.calls.env ∧ ∀ x ∈ e.calls.again, Quiet x) ∧
      Admits sb (s.ino parent).dir name
  | _ => True

/-! ### Counting names -/

/-- Counting the records with a name. -/
def called (name : Name) : ℕ → Name → ℕ := fun _ n => if n = name then 1 else 0

theorem count_names (b : DirBlock) :
    ((b.filter fun de => de.inode ≠ 0).map DirEntry.name).count name = total (called name) b := by
  induction b with
  | nil => rfl
  | cons de rest ih =>
    by_cases h : de.inode = 0
    · simpa [h, weigh_dead] using ih
    · rw [total_cons, weigh_live h, ← ih]
      simp [h, called, List.count_cons, Nat.add_comm]

theorem count_liveNames (d : Dir) : (liveNames d).count name = tally (called name) d := by
  unfold liveNames tally
  induction d.blocks with
  | nil => rfl
  | cons b bs ih =>
    rw [List.flatten_cons, List.filter_append, List.map_append, List.count_append, ih, count_names]
    rfl

theorem nodup_iff : (liveNames d).Nodup ↔ ∀ name, tally (called name) d ≤ 1 := by
  rw [List.nodup_iff_count_le_one]
  simp only [count_liveNames]

theorem notMem_iff : name ∉ liveNames d ↔ tally (called name) d = 0 := by
  rw [← List.count_eq_zero, count_liveNames]

/-- Names stay unique where every name is borne by as many records as before, or fewer. -/
theorem nodup_of_le {d' : Dir} (h : ∀ name, tally (called name) d' ≤ tally (called name) d)
    (hd : (liveNames d).Nodup) : (liveNames d').Nodup :=
  nodup_iff.mpr fun name => (h name).trans (nodup_iff.mp hd name)

/-- Only the directory named by the frame has to be looked at. -/
theorem UniqueNames.of_frame {dir : ℕ} (hu : UniqueNames s) (hf : Frame dir s s')
    (h : (liveNames (s.ino dir).dir).Nodup → (liveNames (s'.ino dir).dir).Nodup) : UniqueNames s' := by
  intro i hi
  rw [hf.isDir] at hi
  by_cases hid : i = dir
  · rw [hid] at hi ⊢
    exact h (hu dir hi)
  · rw [hf.others i hid]
    exact hu i hi

/-! ### The scan -/

/-- A scan that takes offence adds nothing. -/
theorem addToBlocks_refused (env : Env) :
    ∀ {bs : List DirBlock}, refuses sb e.name bs = true →
      ∃ err, err ≠ ENOSPC ∧ addToBlocks sb env e bs = (bs, some err)
  | [], h => by cases h
  | b :: bs, h => by
    simp only [refuses, Bool.and_eq_true, decide_eq_true_eq] at h
    have hadd : addToBlock sb env e b = addDirentToBuf sb env e none b := if_neg h.1
    cases hf : ext4FindDestDe sb e.name 0 b with
    | ok k => simp [hf] at h
    | error err =>
      have hb : addToBlock sb env e b = (b, some err) := by simp [hadd, addDirentToBuf, hf]
      unfold addToBlocks
      rw [hb]
      dsimp only
      by_cases hsp : err = ENOSPC
      · have hrest : refuses sb e.name bs = true := by simpa [hf, hsp] using h.2
        obtain ⟨err', hne, hrec⟩ := addToBlocks_refused env hrest
        exact ⟨err', hne, by rw [if_pos (by rw [hsp]), hrec]⟩
      · exact ⟨err, hsp, if_neg fun h => hsp (Option.some.inj h)⟩

/-- A scan that does not, over well-formed blocks one of which has the name, adds the record. -/
theorem addToBlocks_accepted (hq : Quiet env) :
    ∀ {bs : List DirBlock}, (∀ b ∈ bs, b = [] ∨ Formed sb 0 b) → refuses sb e.name bs = false →
      (∃ b ∈ bs, ∃ de ∈ b, ext4Match e.name de = true) → (addToBlocks sb env e bs).2 = none
  | [], _, _, ⟨_, hb, _⟩ => absurd hb List.not_mem_nil
  | b :: bs, hf, h, ⟨x, hx, de, hde, hm⟩ => by
    unfold addToBlocks
    by_cases hnil : b = []
    · have hb : (addToBlock sb env e b).2 = none := by
        rw [addToBlock, if_pos hnil]
        exact (addToNewBlock_spec sb hq e).1
      rw [if_neg (by rw [hb]; decide)]
      exact hb
    · have hadd : addToBlock sb env e b = addDirentToBuf sb env e none b := if_neg hnil
      cases hdest : ext4FindDestDe sb e.name 0 b with
      | ok k =>
        have hb : (addToBlock sb env e b).2 = none := by
          simp [hadd, addDirentToBuf, hdest, hq .dirAccess rfl, hq .dirDirty rfl, hq .dirInodeDirty rfl]
        rw [if_neg (by rw [hb]; decide)]
        exact hb
      | error err =>
        simp only [refuses, hdest, Bool.and_eq_false_iff, decide_eq_false_iff_not, not_not, hnil,
          Bool.or_eq_false_iff, false_or] at h
        obtain ⟨rfl, hrest⟩ := h
        have hb : (addToBlock sb env e b).2 = some ENOSPC := by simp [hadd, addDirentToBuf, hdest]
        rw [if_pos hb]
        refine addToBlocks_accepted hq (fun y hy => hf y (List.mem_cons_of_mem _ hy)) hrest ?_
        -- the name is not in a block that is passed over
        rcases List.mem_cons.mp hx with rfl | hx
        · have hformed := (hf x List.mem_cons_self).resolve_left hnil
          exact absurd hm (by rw [ext4FindDestDe_full hformed hdest de hde]; decide)
        · exact ⟨x, hx, de, hde, hm⟩

/-- Without an index, an attempt that is refused fails and is not repeated. -/
theorem ext4Link_refused (hq : Quiet env) (hdx : isDx sb (s.ino parent).dir = false)
    (h : refuses sb name (s.ino parent).dir.blocks = true) (again : List Env) :
    (ext4Link sb again env s parent child name).2 ≠ none := by
  have hadd : ∃ err, err ≠ ENOSPC ∧
      (ext4AddEntry sb env (newEntry sb s child name) (s.ino parent).dir).2 = some err := by
    unfold ext4AddEntry
    rw [if_neg (by rw [hdx]; decide : ¬ isDx sb (s.ino parent).dir = true)]
    by_cases hname : (newEntry sb s child name).name = []
    · exact ⟨EINVAL, by decide, by rw [if_pos hname]⟩
    · obtain ⟨err, hne, hblocks⟩ :=
        addToBlocks_refused (e := newEntry sb s child name) env h
      refine ⟨err, hne, ?_⟩
      rw [if_neg hname, linearAdd, hq .readDirblock rfl]
      dsimp only
      rw [hblocks, if_pos fun he => hne (Option.some.inj he)]
  obtain ⟨err, hne, hadd⟩ := hadd
  have hone : (linkOnce sb env s parent child name).2 = some err := by
    unfold linkOnce
    rw [hq .journalStart rfl]
    dsimp only
    rw [hadd]
  have hsp : ¬ (linkOnce sb env s parent child name).2 = some ENOSPC := by
    rw [hone]
    exact fun he => hne (Option.some.inj he)
  have heq : ext4Link sb again env s parent child name = linkOnce sb env s parent child name := by
    cases again with
    | nil => rfl
    | cons env' again => exact if_neg hsp
  rw [heq, hone]
  exact nofun

/-! ### One call -/

theorem add_unique (hq : Quiet c.env) (hagain : ∀ x ∈ c.again, Quiet x)
    (hdx : isDx sb (s.ino parent).dir = false) (hok : Admits sb (s.ino parent).dir name)
    (h : evfsDentryAdd sb c s parent child name = .ret s' ret) (hu : UniqueNames s) : UniqueNames s' := by
  obtain ⟨hf, ⟨-, hle⟩ | ⟨hret, -, -, -, -, hadds⟩⟩ := add_edit hq hagain h
  · exact hu.of_frame hf (nodup_of_le fun n => hle _)
  · rcases hok with hnew | hrefused
    · refine hu.of_frame hf fun hnd => nodup_iff.mpr fun n => ?_
      have hle := hadds.le (called n)
      rw [if_pos rfl] at hle
      refine hle.trans ?_
      by_cases hn : name = n
      · subst hn
        rw [notMem_iff.mp hnew, Nat.zero_add]
        unfold weigh called
        split_ifs <;> omega
      · have hw : weigh (called n) (newEntry sb s child name) = 0 := by
          simp [weigh, called, newEntry, hn]
        rw [hw]
        exact nodup_iff.mp hnd n
    · obtain ⟨x, ⟨-, hne⟩ | ⟨-, -, -, -, -, hret'⟩⟩ := add_cases h
      · exact absurd hret hne
      · exact absurd (Steps.retOf_zero (hret'.symm.trans hret))
          (ext4Link_refused (s := { s with cached := x }) hq hdx hrefused _)

theorem delete_unique {dir : ℕ} (h : evfsDentryDelete sb c s dir name = .ret s' ret)
    (hu : UniqueNames s) : UniqueNames s' := by
  obtain ⟨hf, hd, -⟩ := delete_edit h
  refine hu.of_frame hf (nodup_of_le fun n => ?_)
  rcases hd.tally with ⟨hblocks, -⟩ | ⟨de, -, -, htally⟩
  · exact (tally_congr hblocks _).le
  · have := htally (called n)
    omega

theorem update_unique {dir index new : ℕ} (h : evfsDentryUpdate sb c s dir index new = .ret s' ret)
    (hu : UniqueNames s) : UniqueNames s' := by
  obtain ⟨hf, hd, -⟩ := update_edit h
  refine hu.of_frame hf (nodup_of_le fun n => ?_)
  cases hd with
  | kept hd => rw [hd]
  | @changed k de _ hde hlive hlegal hd =>
    -- a live record keeps its name and stays live
    have hnew : new % 2 ^ 32 ≠ 0 := by
      have := sb.legal_le _ hlegal
      have := sb.count_lt
      omega
    have hr := tally_retarget hde new (called n)
    have hlive' : ({ de with inode := new % 2 ^ 32 } : DirEntry).inode ≠ 0 := hnew
    have hw : weigh (called n) { de with inode := new % 2 ^ 32 } = weigh (called n) de := by
      rw [weigh_live hlive, weigh_live hlive']
      rfl
    rw [hd, rewritten]
    omega

theorem step_unique {e : Event} (h : Step sb s e s') (hlin : OnLinear sb s e)
    (hok : StepAdmits sb s e) (hu : UniqueNames s) : UniqueNames s' := by
  obtain ⟨op, c, ret⟩ := e
  cases op with
  | dentryAdd parent child name => exact add_unique hok.1.1 hok.1.2 hlin hok.2 h hu
  | dentryDelete dir name => exact delete_unique h hu
  | dentryUpdate dir index new => exact update_unique h hu
  | _ => exact hlin.elim

/-- A name in the list is that of a record. -/
theorem exists_match (h : name ∈ liveNames d) :
    ∃ b ∈ d.blocks, ∃ de ∈ b, ext4Match name de = true := by
  simp only [liveNames, List.mem_map, List.mem_filter, List.mem_flatten, decide_eq_true_eq] at h
  obtain ⟨de, ⟨⟨b, hb, hde⟩, hlive⟩, hname⟩ := h
  exact ⟨b, hb, de, hde, by simp [ext4Match, hlive, hname]⟩

/-- Without an index, an entry that one of the blocks takes is added at the first attempt. -/
theorem ext4Link_of_addToBlocks (hcalls : ∀ x, env x = none) (hname : name ≠ [])
    (hdx : isDx sb (s.ino parent).dir = false)
    (hblocks : (addToBlocks sb env (newEntry sb s child name) (s.ino parent).dir.blocks).2 = none)
    (again : List Env) : (ext4Link sb again env s parent child name).2 = none := by
  have hadd : (ext4AddEntry sb env (newEntry sb s child name) (s.ino parent).dir).2 = none := by
    have hne : (newEntry sb s child name).name ≠ [] := hname
    unfold ext4AddEntry
    rw [if_neg hne, if_neg (by rw [hdx]; decide : ¬ isDx sb (s.ino parent).dir = true), linearAdd,
      hcalls .readDirblock]
    dsimp only
    rw [if_pos (by rw [hblocks]; decide)]
    exact hblocks
  have hone : (linkOnce sb env s parent child name).2 = none := by
    unfold linkOnce
    rw [hcalls .journalStart, hcalls .linkInodeDirty]
    dsimp only
    rw [hadd]
  have hsp : ¬ (linkOnce sb env s parent child name).2 = some ENOSPC := by
    rw [hone]
    decide
  have heq : ext4Link sb again env s parent child name = linkOnce sb env s parent child name := by
    cases again with
    | nil => rfl
    | cons env' again => exact if_neg hsp
  rw [heq, hone]

/-- A name that is there and is not met. -/
theorem ext4Link_accepted (hcalls : ∀ x, env x = none) (hname : name ≠ [])
    (hdx : isDx sb (s.ino parent).dir = false)
    (hformed : ∀ b ∈ (s.ino parent).dir.blocks, b = [] ∨ Formed sb 0 b)
    (hmem : name ∈ liveNames (s.ino parent).dir)
    (hscan : refuses sb name (s.ino parent).dir.blocks = false) (again : List Env) :
    (ext4Link sb again env s parent child name).2 = none :=
  ext4Link_of_addToBlocks hcalls hname hdx
    (addToBlocks_accepted (fun x _ => hcalls x) hformed hscan (exists_match hmem)) again

/-- A name that is there and is not met is there twice afterwards. -/
theorem add_duplicates (h : Ready sb c s parent child name) (hdx : isDx sb (s.ino parent).dir = false)
    (hformed : ∀ b ∈ (s.ino parent).dir.blocks, b = [] ∨ Formed sb 0 b)
    (hok : ¬ Admits sb (s.ino parent).dir name)
    (hadd : evfsDentryAdd sb c s parent child name = .ret s' ret) : ¬ UniqueNames s' := by
  have hq : Quiet c.env := fun x _ => h.calls x
  have hne : name ≠ [] := List.length_pos_iff.mp h.length.1
  obtain ⟨hmem, hscan⟩ := not_or.mp hok
  have hmem : name ∈ liveNames (s.ino parent).dir := not_not.mp hmem
  obtain ⟨x, hx⟩ := h.add_eq
  have hret : ret = 0 := by
    have haccepted : (ext4Link sb c.again c.env { s with cached := x } parent child name).2 = none :=
      ext4Link_accepted (s := { s with cached := x }) h.calls hne hdx hformed hmem
        (by simpa using hscan) c.again
    rw [Steps.ret_value (hx.symm.trans hadd), haccepted]
    rfl
  obtain ⟨hf, ⟨hne0, -⟩ | ⟨-, hdir, -, hclegal, -, hadds⟩⟩ := add_edit hq h.again hadd
  · exact absurd hret hne0
  intro hu
  have hdup := nodup_iff.mp (hu parent (by rw [hf.isDir]; exact hdir)) name
  have hheeds : ∀ b ∈ (s.ino parent).dir.blocks, Heeds (called name) b := by
    intro b _ de _ hnil
    simp [weigh, called, hnil, hne.symm]
  have hw : weigh (called name) (newEntry sb s child name) = 1 := by
    have hchild : child ≠ 0 := (sb.legal_le _ hclegal).1.ne'
    simp [weigh, called, newEntry, hchild]
  have heq := hadds.eq rfl _ hheeds
  have hpos : tally (called name) (s.ino parent).dir ≠ 0 := fun h0 => notMem_iff.mpr h0 hmem
  dsimp only at heq
  omega

/-- The root holds `b` behind a gap, and the file 14 is in use. -/
def gapFs : Fs where
  ino i :=
    if i = 2 then
      ⟨.dir, 2, ⟨[[entry 2 12 [46], entry 2 24 [46, 46], entry 15 988 [98]]], false, 0⟩⟩
    else if i = 14 ∨ i = 15 then ⟨.regFile, 1, Dir.empty⟩
    else ⟨.regFile, 0, Dir.empty⟩
  bitmap i := i = 2 || i = 14 || i = 15
  tracked _ := false
  cached _ := false
  held _ := false

theorem gapFs_dir {i : ℕ} (h : gapFs.isDir i = true) : i = 2 := by
  by_contra h2
  have : (gapFs.ino i).type = .regFile := by
    simp only [gapFs, if_neg h2]
    split_ifs <;> rfl
  simp [Fs.isDir, this] at h

theorem gapFs_unique : UniqueNames gapFs := by
  intro i hi
  rw [gapFs_dir hi]
  decide

/-- Another name is added, and the one that was there moved to another file. -/
def tidy : List Event := [succeeds (.dentryAdd 2 14 [97]), succeeds (.dentryUpdate 2 3 14)]

theorem gapFs_formed : ∀ b ∈ (gapFs.ino 2).dir.blocks, b = [] ∨ Formed smallSb 0 b := by
  intro b hb
  obtain rfl := List.mem_singleton.mp hb
  exact .inr ⟨⟨by decide, by decide, by decide⟩, ⟨by decide, by decide, by decide⟩,
    ⟨by decide, by decide, by decide⟩, rfl⟩

theorem gapFs_ready : Ready smallSb quietCalls gapFs 2 14 [97] where
  calls _ := rfl
  again := nofun
  unlocked _ := rfl
  readParent := ⟨by decide, .inr (by decide)⟩
  readChild := ⟨by decide, .inr (by decide)⟩
  isDir := by decide
  ne := by decide
  length := by decide

end LinuxEvfs.Namespace.Unique
