import LinuxEvfs.Htree.Add

/-! # From one block to an index

A directory begins as one block with `.`, `..` and its entries. `make_indexed_dir` moves the entries to a leaf of their
own when the block is full, and splits that leaf for the new entry.

* `valid_newRoot`: the root over one leaf is a valid index.
* `makeIndexedDir_spec`: the entries are those of before, with the new one.
* `addEntry_spec`: `ext4_add_entry` on either form of a directory. -/

namespace LinuxEvfs.Htree.Convert

open LinuxEvfs.Errno LinuxEvfs.Lib.PagedIndex LinuxEvfs.Lib.Routing LinuxEvfs.Namespace.Dir LinuxEvfs.Namespace.Block
open LinuxEvfs.Namespace.Entries (Dir addDirentToBuf addToBlock addToBlocks anyBad stretch)
open LinuxEvfs.Htree.Model LinuxEvfs.Htree.Leaves LinuxEvfs.Htree.Split LinuxEvfs.Htree.Index LinuxEvfs.Htree.Change
open LinuxEvfs.Htree.Grow LinuxEvfs.Htree.Add

/-- A file system with `dir_index`, blocks of 2048 bytes at least and a hash that is not taken from the records. -/
structure Mounted (sb : DxSb) : Prop where
  usual : Usual sb
  large : 2048 ≤ sb.blocksize
  dirIndex : sb.dirIndex = true
  version : sb.defHashVersion ≤ DX_HASH_TEA

/-- The block of a directory without an index. -/
structure IsFirst (sb : DxSb) (dot dotdot : DirEntry) (rest : DirBlock) : Prop where
  leaf : IsLeaf sb (dot :: dotdot :: rest)
  dotLen : dot.recLen = 12
  dotLive : dot.inode ≠ 0
  dotName : dot.name = [46]
  dotdotName : dotdot.name = [46, 46]

/-- A directory with the entries `l` besides `.` and `..`. -/
def Holds (sb : DxSb) (l : List DirEntry) : HDir → Prop
  | .linear d => ∃ dot dotdot rest, d.blocks = [dot :: dotdot :: rest] ∧ IsFirst sb dot dotdot rest ∧
      (liveRecs rest).Perm l
  | .indexed d => ∃ info, Valid sb info d ∧ info.hashVersion = sb.defHashVersion ∧ (entries info d).Perm l

/-- The number of blocks. -/
def size : HDir → ℕ
  | .linear d => d.blocks.length
  | .indexed d => d.length

/-- The entry is in the directory, or the entries are those of before; then an error is returned. -/
def HAdded (sb : DxSb) (env : DxEnv) (e : DirEntry) (l : List DirEntry) (hd : HDir) (r : Option Errno) : Prop :=
  (Holds sb (bare e :: l) hd ∧ r = late env) ∨ (Holds sb l hd ∧ ∃ err, r = some err ∧ Known env err)

variable {sb : DxSb} {env : DxEnv} {d : Dir} {e dot dotdot : DirEntry} {rest recs : DirBlock} {l : List DirEntry}

theorem Holds.perm {l' : List DirEntry} {hd : HDir} (h : Holds sb l hd) (hl : l.Perm l') : Holds sb l' hd := by
  cases hd with
  | linear d =>
    obtain ⟨dot, dotdot, rest, hd, hf, hperm⟩ := h
    exact ⟨dot, dotdot, rest, hd, hf, hperm.trans hl⟩
  | indexed d =>
    obtain ⟨info, hvalid, hversion, hperm⟩ := h
    exact ⟨info, hvalid, hversion, hperm.trans hl⟩

theorem IsFirst.live (h : IsFirst sb dot dotdot rest) : ∀ de ∈ dotdot :: rest, de.inode ≠ 0 := h.leaf.rest

/-! ### The new root -/

/-- The header that `make_indexed_dir` writes. -/
def newInfo (sb : DxSb) : DxRootInfo := ⟨sb.defHashVersion, 8, 0, 0⟩

theorem newRoot_at (dot dotdot : DirEntry) (recs : DirBlock) :
    At (index [newRoot sb dot dotdot, .leaf recs]) 1 0 0 [(0, 0)] [] (0, 1) [] :=
  @At.node _ _ 0 0 0 [] [] (0, 1) (0, 1) [] [] [] rfl (.leaf 0 1)

theorem dxRootLimit_ge (hm : Mounted sb) : 2 ≤ sb.dxRootLimit 8 := by
  have := hm.large
  unfold DxSb.dxRootLimit ext4DirRecLen
  split_ifs <;> omega

theorem newRoot_room (hm : Mounted sb) : full [newRoot sb dot dotdot, .leaf recs] (0, 0) = false := by
  have hnode : nodeAt [newRoot sb dot dotdot, .leaf recs] 0 = some ⟨sb.dxRootLimit 8, [⟨0, 1⟩]⟩ := rfl
  have := dxRootLimit_ge hm
  rw [full_eq hnode, decide_eq_false_iff_not]
  simp only [List.length_singleton]
  omega

/-- **The root over one leaf.** -/
theorem valid_newRoot (hm : Mounted sb) (hf : IsFirst sb dot dotdot rest) (hrecs : IsLeaf sb recs) :
    Valid sb (newInfo sb) [newRoot sb dot dotdot, .leaf recs] ∧
      entries (newInfo sb) [newRoot sb dot dotdot, .leaf recs] = liveRecs recs := by
  have hleaves : leaves (newInfo sb) [newRoot sb dot dotdot, .leaf recs] = [(0, 1)] := rfl
  have hblocks : indexBlocks (newInfo sb) [newRoot sb dot dotdot, .leaf recs] = [0] := rfl
  have hlevels : 0 < sb.htreeLevel := by
    unfold DxSb.htreeLevel
    split_ifs <;> decide
  refine ⟨⟨⟨_, _, _, rfl, hf.dotName, hf.dotdotName⟩, hm.version, rfl, hlevels, ?_, ?_, ?_, ?_, ?_, ?_⟩, ?_⟩
  · intro b hb
    rw [hblocks] at hb
    obtain rfl := List.mem_singleton.mp hb
    exact ⟨_, rfl, List.cons_ne_nil _ _, Nat.le_of_succ_le (dxRootLimit_ge hm), rfl⟩
  · intro y hy
    rw [hleaves] at hy
    obtain rfl := List.mem_singleton.mp hy
    exact ⟨recs, rfl, hrecs⟩
  · rw [hblocks]
    exact List.nodup_singleton 0
  · rw [hleaves]
    exact List.nodup_singleton 1
  · intro y hy
    rw [hleaves] at hy
    obtain rfl := List.mem_singleton.mp hy
    decide
  · rw [hleaves]
    refine ⟨List.pairwise_singleton _ _, fun a ha k _ => ?_⟩
    obtain rfl := List.mem_singleton.mp ha
    exact Nat.zero_le _
  · exact List.append_nil _

/-! ### `make_indexed_dir` -/

theorem anyBad_false {limit : ℕ} (hsb : Usual sb) : ∀ {b : DirBlock} {offset : ℕ}, (∀ de ∈ b, Sound sb de) →
    offset + used b + 12 ≤ limit → anyBad sb.toSb limit offset b = false
  | [], _, _, _ => rfl
  | de :: b, offset, hb, hle => by
    rw [List.forall_mem_cons] at hb
    rw [used_cons] at hle
    rw [anyBad, hsb.accepts limit offset de hb.1 (.inr (by omega)), anyBad_false hsb hb.2 (by omega)]
    simp

/-- What a full block has besides `.` and `..`. -/
theorem full_rest (hm : Mounted sb) (hf : IsFirst sb dot dotdot rest) (he : Addable sb e)
    (hfull : ∀ de ∈ dot :: dotdot :: rest, de.recLen < ext4DirRecLen e.name.length + taken de) :
    2 ≤ (liveRecs rest).length ∧ 12 + dotdot.recLen + used rest = sb.bufSize ∧ 12 ≤ used rest := by
  have hsound := hf.leaf.sound
  have htiles := hf.leaf.tiles
  have hlive := hf.live
  rw [used_cons, used_cons, hf.dotLen] at htiles
  rw [List.forall_mem_cons, List.forall_mem_cons] at hfull hsound
  have hbuf := hm.usual.bufSize
  have hlarge := hm.large
  have hrec := ext4DirRecLen_le he.le
  have hdotdot : taken dotdot = 12 := by
    rw [taken, if_pos (hlive dotdot List.mem_cons_self), hf.dotdotName]
    rfl
  have hcount := used_le_of_full hsound.2.2 (fun de hde => hlive de (List.mem_cons_of_mem _ hde)) he.le hfull.2.2
  have hdd := hfull.2.1
  refine ⟨?_, by omega, by omega⟩
  by_contra hlt
  have : (liveRecs rest).length ≤ 1 := by omega
  have : 528 * (liveRecs rest).length ≤ 528 := by omega
  omega

/-- The records that are moved are the entries, and no check refuses them. -/
theorem moved_leaf (hm : Mounted sb) (hf : IsFirst sb dot dotdot rest) (hne : rest ≠ [])
    (htiles : 12 + dotdot.recLen + used rest = sb.bufSize) :
    anyBad sb.toSb (sb.bufSize - (12 + dotdot.recLen)) 0 rest.dropLast = false ∧
      IsLeaf sb (stretch sb.bufSize 0 rest) ∧ liveRecs (stretch sb.bufSize 0 rest) = liveRecs rest := by
  have hsound : ∀ de ∈ rest, Sound sb de := fun de hde => hf.leaf.sound de (by simp [hde])
  have hlive : ∀ de ∈ rest, de.inode ≠ 0 := fun de hde => hf.live de (List.mem_cons_of_mem _ hde)
  obtain ⟨hleaf, hrecs⟩ := stretch_leaf hm.usual hne (fun de hde => ⟨hsound de hde, hlive de hde⟩) (by omega)
  refine ⟨anyBad_false hm.usual (fun de hde => hsound de (List.mem_of_mem_dropLast hde)) ?_, hleaf, ?_⟩
  · have hused : used rest = used rest.dropLast + (rest.getLast hne).recLen := by
      conv_lhs => rw [← List.dropLast_append_getLast hne]
      simp
    have := (hsound _ (List.getLast_mem hne)).twelve
    omega
  · rw [hrecs, live_of_forall hlive]

/-- **`make_indexed_dir`** of a full block. -/
theorem makeIndexedDir_spec (env : DxEnv) (hm : Mounted sb) (hd : d.blocks = [dot :: dotdot :: rest])
    (hf : IsFirst sb dot dotdot rest) (he : Addable sb e)
    (hfull : ∀ de ∈ dot :: dotdot :: rest, de.recLen < ext4DirRecLen e.name.length + taken de)
    (hl : (liveRecs rest).Perm l) :
    ∃ hd' r, makeIndexedDir sb env e d = .ret hd' r ∧ size hd' ≤ 3 ∧ HAdded sb env e l hd' r := by
  obtain ⟨h2, htiles, htwelve⟩ := full_rest hm hf he hfull
  have hne : rest ≠ [] := by
    rintro rfl
    simp at h2
  obtain ⟨hgood, hleaf, hrecs⟩ := moved_leaf hm hf hne htiles
  have hsame (err : Errno) (hknown : Known env err) : HAdded sb env e l (.linear d) (some err) :=
    .inr ⟨⟨dot, dotdot, rest, hd, hf, hl⟩, err, rfl, hknown⟩
  have hlen : size (.linear d) ≤ 3 := by simp [size, hd]
  have hblock : d.block 0 = dot :: dotdot :: rest := by simp [Dir.block, hd]
  have hstart : ¬ sb.blocksize ≤ 12 + dotdot.recLen := by
    have := hm.usual.bufSize_ge
    omega
  unfold makeIndexedDir
  cases haccess : env.calls .rootAccess with
  | some err => exact ⟨_, _, rfl, hlen, hsame err (known_call _ haccess)⟩
  | none =>
    simp only [hblock, hf.dotLen, ne_eq, not_true_eq_false, if_false, if_neg hstart]
    cases happend : env.calls .rootAppend with
    | some err => exact ⟨_, _, rfl, hlen, hsame err (known_call _ happend)⟩
    | none =>
      obtain ⟨hvalid, hentries⟩ := valid_newRoot hm hf hleaf
      simp only [hgood, Bool.false_eq_true, if_false]
      cases hdirty : env.calls .rootDirty with
      | some err =>
        refine ⟨_, _, rfl, by simp [size], .inr ⟨⟨newInfo sb, hvalid, rfl, ?_⟩, err, rfl, known_call _ hdirty⟩⟩
        rwa [hentries, hrecs]
      | none =>
        have h2' : 2 ≤ (liveRecs (leafAt [newRoot sb dot dotdot, .leaf (stretch sb.bufSize 0 rest)] 1)).length := by
          rw [leafAt_eq rfl, hrecs]
          exact h2
        obtain ⟨d', r, hs, info', hvalid', hversion, hlen', hadded⟩ := splitAndAdd_spec env hm.usual hm.large hvalid he rfl
          (newRoot_at dot dotdot _) (newRoot_room hm) h2' (by simp) (Nat.zero_le _) (by simp)
        rw [hentries, hrecs] at hadded
        have hs' : splitAndAdd sb env e (sb.hinfoVersion sb.defHashVersion)
            [newRoot sb dot dotdot, .leaf (stretch sb.bufSize 0 rest)] (0, 0) 1 = .ret d' r := hs
        simp only [hs']
        refine ⟨_, _, rfl, by simpa [size] using hlen', ?_⟩
        rcases hadded with ⟨hperm, hr⟩ | ⟨hperm, hr⟩
        · exact .inl ⟨⟨info', hvalid', hversion, hperm.trans (hl.cons _)⟩, hr⟩
        · exact .inr ⟨⟨info', hvalid', hversion, hperm.trans hl⟩, hr⟩

/-! ### `ext4_add_entry` -/

/-- Another block that begins with `.` and `..`. -/
theorem IsFirst.change {dotdot' : DirEntry} {rest' : DirBlock} (hf : IsFirst sb dot dotdot rest)
    (hb : IsLeaf sb (dot :: dotdot' :: rest')) (hbare : bare dotdot' = bare dotdot) : IsFirst sb dot dotdot' rest' :=
  ⟨hb, hf.dotLen, hf.dotLive, hf.dotName, (congrArg DirEntry.name hbare).trans hf.dotdotName⟩

theorem IsFirst.live_eq (hf : IsFirst sb dot dotdot rest) :
    liveRecs (dot :: dotdot :: rest) = bare dot :: bare dotdot :: liveRecs rest := by
  rw [live_cons_live hf.dotLive, live_cons_live (hf.live dotdot List.mem_cons_self)]

/-- An entry put into the block. There is no room at `.`, which has twelve bytes. -/
theorem IsFirst.insert {k : ℕ} {de : DirEntry} (hf : IsFirst sb dot dotdot rest) (he : Addable sb e)
    (hk : (dot :: dotdot :: rest)[k]? = some de) (hroom : ext4DirRecLen e.name.length + taken de ≤ de.recLen) :
    ∃ dotdot' rest', insertAt e k (dot :: dotdot :: rest) = dot :: dotdot' :: rest' ∧ IsFirst sb dot dotdot' rest' ∧
      (liveRecs rest').Perm (bare e :: liveRecs rest) := by
  obtain ⟨hleaf, hperm⟩ := hf.leaf.insert he hk hroom
  obtain ⟨dotdot', rest', heq, hbare⟩ : ∃ dotdot' rest',
      insertAt e k (dot :: dotdot :: rest) = dot :: dotdot' :: rest' ∧ bare dotdot' = bare dotdot := by
    rcases k with _ | _ | k
    · obtain rfl := Option.some.inj hk
      have hpos := ext4DirRecLen_ge he.pos
      have htaken : taken dot = 12 := by
        rw [taken, if_pos hf.dotLive, hf.dotName]
        rfl
      have := hf.dotLen
      omega
    · refine ⟨{ dotdot with recLen := ext4DirRecLen dotdot.name.length },
        { e with recLen := dotdot.recLen - ext4DirRecLen dotdot.name.length } :: rest, ?_, rfl⟩
      rw [insertAt, insertAt, ext4InsertDentry, if_pos (hf.live dotdot List.mem_cons_self)]
      rfl
    · exact ⟨dotdot, insertAt e k rest, rfl, rfl⟩
  rw [heq] at hleaf hperm
  have hf' := hf.change hleaf hbare
  refine ⟨dotdot', rest', heq, hf', ?_⟩
  rw [hf.live_eq, hf'.live_eq, hbare] at hperm
  have hswap : (bare e :: bare dot :: bare dotdot :: liveRecs rest).Perm
      (bare dot :: bare dotdot :: bare e :: liveRecs rest) :=
    (List.Perm.swap _ _ _).trans ((List.Perm.swap _ _ _).cons _)
  exact ((hperm.trans hswap).cons_inv).cons_inv

/-- **`ext4_add_entry`** on a directory of one block. -/
theorem linearAdd_spec (hm : Mounted sb) (hhon : Honest env) (hd : d.blocks = [dot :: dotdot :: rest])
    (hf : IsFirst sb dot dotdot rest) (he : Addable sb e) (hl : (liveRecs rest).Perm l) :
    ∃ hd' r, linearAdd sb env false e d = .ret hd' r ∧ size hd' ≤ 3 ∧ HAdded sb env e l hd' r := by
  have hsame (err : Errno) (hknown : Known env err) : HAdded sb env e l (.linear d) (some err) :=
    .inr ⟨⟨dot, dotdot, rest, hd, hf, hl⟩, err, rfl, hknown⟩
  unfold linearAdd
  cases hread : env.calls .readDirblock with
  | some err => exact ⟨_, _, rfl, by simp [size, hd], hsame err (known_call _ hread)⟩
  | none =>
    have hblock : addToBlock sb.toSb env.calls e (dot :: dotdot :: rest) =
        addDirentToBuf sb.toSb env.calls e none (dot :: dotdot :: rest) := if_neg (List.cons_ne_nil _ _)
    obtain ⟨hbuf, hnospc⟩ := addDirentToBuf_search e hm.usual hhon hf.leaf
    by_cases hres : (addDirentToBuf sb.toSb env.calls e none (dot :: dotdot :: rest)).2 = some ENOSPC
    · obtain ⟨hrecs, hfull⟩ := hnospc hres
      have hadd : addToBlocks sb.toSb env.calls e d.blocks = ([dot :: dotdot :: rest], some ENOSPC) := by
        simp only [hd, addToBlocks, hblock, if_pos hres, hrecs]
      simp only [hadd, ne_eq, not_true_eq_false, if_false]
      rw [if_pos ⟨by simp [hd], trivial, hm.dirIndex⟩]
      exact makeIndexedDir_spec env hm rfl hf he hfull hl
    · have hadd : addToBlocks sb.toSb env.calls e d.blocks =
          ([(addDirentToBuf sb.toSb env.calls e none (dot :: dotdot :: rest)).1],
            (addDirentToBuf sb.toSb env.calls e none (dot :: dotdot :: rest)).2) := by
        simp only [hd, addToBlocks, hblock, if_neg hres]
      simp only [hadd, ne_eq, hres, not_false_eq_true, if_true]
      refine ⟨_, _, rfl, by simp [size], ?_⟩
      rcases hbuf with ⟨k, de, hk, hroom, hrecs, hr⟩ | ⟨hrecs, herr⟩
      · obtain ⟨dotdot', rest', heq, hf', hperm⟩ := hf.insert he hk hroom
        exact .inl ⟨⟨dot, dotdot', rest', by rw [hrecs, heq], hf', hperm.trans (hl.cons _)⟩, hr⟩
      · exact .inr ⟨⟨dot, dotdot, rest, by rw [hrecs], hf, hl⟩, herr⟩

/-- The calls of a pass answer as they should: see `Honest`; and `ERR_BAD_DX_DIR` is no error of theirs. -/
structure Sane (env : DxEnv) : Prop extends Honest env where
  known : ¬ Known env ERR_BAD_DX_DIR

/-- **`ext4_add_entry`** ends, and leaves the entry added or the entries as they were. -/
theorem addEntry_spec {envs : ℕ → DxEnv} {hd : HDir} {fuel : ℕ} (hm : Mounted sb) (hsane : ∀ n, Sane (envs n))
    (he : Addable sb e) (h : Holds sb l hd) (hfuel : 3 < fuel) (hsize : size hd + 4 < 2 ^ 28) :
    ∃ n hd' r, Model.ext4AddEntry sb envs fuel e hd = .ret hd' r ∧ size hd' ≤ size hd + 5 ∧
      HAdded sb (envs n) e l hd' r := by
  cases hd with
  | linear d =>
    obtain ⟨dot, dotdot, rest, hd, hf, hl⟩ := h
    obtain ⟨hd', r, hadd, hlen, hadded⟩ := linearAdd_spec hm (hsane 0).toHonest hd hf he hl
    exact ⟨0, hd', r, hadd, by omega, hadded⟩
  | indexed d =>
    obtain ⟨info, hvalid, hversion, hl⟩ := h
    have hwork := work_le hvalid (sb.dirhash (sb.hinfoVersion info.hashVersion) e.name)
    have hlevel : sb.htreeLevel ≤ 3 := by
      unfold DxSb.htreeLevel
      split_ifs <;> decide
    obtain ⟨n, d', r, hadd, info', hvalid', hversion', hlen, hperm⟩ := dxAddEntry_spec hm.usual hm.large
      (fun n => (hsane n).toHonest) he fuel 0 3 hvalid (by omega) hfuel (by simp only [size] at hsize; omega)
    have hgood : r ≠ some ERR_BAD_DX_DIR := by
      rintro rfl
      rcases hperm with ⟨-, hr⟩ | ⟨-, err, herr, hknown⟩
      · refine (hsane n).known ?_
        rw [late] at hr
        cases hdirty : (envs n).calls .dirDirty with
        | some err =>
          rw [hdirty] at hr
          exact known_call _ (hdirty.trans hr.symm)
        | none =>
          rw [hdirty] at hr
          exact known_call _ hr.symm
      · obtain rfl := Option.some.inj herr
        exact (hsane n).known hknown
    refine ⟨n, .indexed d', r, ?_, hlen, ?_⟩
    · simp only [Model.ext4AddEntry, hadd, if_neg hgood]
    · rcases hperm with ⟨hperm, hr⟩ | ⟨hperm, hr⟩
      · exact .inl ⟨⟨info', hvalid', hversion'.trans hversion, hperm.trans (hl.cons _)⟩, hr⟩
      · exact .inr ⟨⟨info', hvalid', hversion'.trans hversion, hperm.trans hl⟩, hr⟩

end LinuxEvfs.Htree.Convert
