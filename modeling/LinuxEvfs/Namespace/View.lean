import LinuxEvfs.Namespace.Block
import LinuxEvfs.Namespace.Reclaim
import LinuxEvfs.Namespace.Rewrite

/-! # The index view of a directory

A directory of one well-formed block without an index (`OneBlock`), read entry by entry with
`evfs_dentry_read`, and what the three edits do to the list that is read:

* `reads_iff`: it is the list of the live records in block order.
* `update_iff`: `evfs_dentry_update` changes the number of one element and the two link counts, unless the
  new or the old inode is the directory itself, a link count wraps, or the tracker has no slot for the old
  inode when it loses its last link.
* `delete_view`, `add_view`: a successful deletion removes one element with the name, a successful addition
  that fits inserts one.

`evfsDentry_view` collects them. `evfsDentryUpdate_hangs`: the entry `.` of a directory is the element number
0, and an update of it waits for the lock of the directory. -/

namespace LinuxEvfs.Namespace.View

open LinuxEvfs.Errno LinuxEvfs.Namespace.Dir LinuxEvfs.Namespace.Entries LinuxEvfs.Namespace.Counts
open LinuxEvfs.Namespace.Model LinuxEvfs.Namespace.Accounts LinuxEvfs.Namespace.Refine
open LinuxEvfs.Namespace.Steps LinuxEvfs.Namespace.Update LinuxEvfs.Namespace.Edits
open LinuxEvfs.Namespace.Rewrite LinuxEvfs.Namespace.Block LinuxEvfs.Namespace.Reclaim

/-- How `evfs_dentry_read` ends; `none` where nothing is written to `out`. -/
inductive ReadOutcome where
  | ret (s : Fs) (ret : ℤ) (out : Option DentryOut)
  | hang

/-- What is written where there is no entry with the index. -/
def notFound : DentryOut := ⟨0, .unknown, []⟩

/-- `evfs_dentry_read`. -/
def evfsDentryRead (sb : Sb) (c : Calls) (s : Fs) (dir index : ℕ) : ReadOutcome :=
  match ext4Iget sb (c.env .igetDir) s dir with
  | .error err => .ret s err.ret none
  | .ok s =>
    if s.held dir then .hang
    else if s.isDir dir = false then .ret s ENOTDIR.ret none
    else
      match c.env .bread with
      | some err => .ret s err.ret none
      | none =>
        let b := (s.ino dir).dir.block 0
        if b = [] then .ret s EIO.ret none
        else
          .ret s 0 (some (((nthLive sb 0 index b).bind fun k => (b[k]?).map readOut).getD notFound))

/-- A directory of one well-formed block, without an index. -/
structure OneBlock (sb : Sb) (s : Fs) (dir : ℕ) (b : DirBlock) : Prop where
  isDir : s.isDir dir = true
  linear : isDx sb (s.ino dir).dir = false
  blocks : (s.ino dir).dir.blocks = [b]
  ne_nil : b ≠ []
  formed : Formed sb 0 b

/-- The elements read for 0, 1, 2, … up to the first index that is not found. -/
structure Reads (sb : Sb) (c : Calls) (s : Fs) (dir : ℕ) (v : List DentryOut) : Prop where
  found : ∀ i x, v[i]? = some x →
    x.inoNum ≠ 0 ∧ ∃ s', evfsDentryRead sb c s dir i = .ret s' 0 (some x)
  ends : ∃ s', evfsDentryRead sb c s dir v.length = .ret s' 0 (some notFound)

variable {sb : Sb} {c : Calls} {s s' : Fs} {dir index new child : ℕ} {b : DirBlock} {name : Name} {ret : ℤ}

theorem OneBlock.block (h : OneBlock sb s dir b) : (s.ino dir).dir.block 0 = b := by
  rw [Dir.block, h.blocks]
  rfl

theorem OneBlock.of_frame {b' : DirBlock} (h : OneBlock sb s dir b) (hf : Frame dir s s')
    (hindex : (s'.ino dir).dir.index = (s.ino dir).dir.index)
    (hblocks : (s'.ino dir).dir.blocks = [b']) (hne : b' ≠ []) (hformed : Formed sb 0 b') :
    OneBlock sb s' dir b' where
  isDir := by rw [hf.isDir]; exact h.isDir
  linear := by
    have := h.linear
    unfold isDx at this ⊢
    rw [hindex]
    exact this
  blocks := hblocks
  ne_nil := hne
  formed := hformed

/-! ### Reading -/

theorem read_eq (hb : OneBlock sb s dir b) (hq : Quiet c.env) (hr : Available sb s dir)
    (hheld : s.held dir = false) (index : ℕ) :
    ∃ s', evfsDentryRead sb c s dir index = .ret s' 0 (some (((view b)[index]?).getD notFound)) := by
  obtain ⟨x, hx, -, -⟩ := iget_available hr
  refine ⟨{ s with cached := x }, ?_⟩
  have hdir : Fs.isDir { s with cached := x } dir = true := hb.isDir
  unfold evfsDentryRead
  rw [hq .igetDir rfl, hx]
  dsimp only
  rw [hheld, if_neg (by decide), if_neg (by rw [hdir]; decide), hq .bread rfl]
  dsimp only
  rw [hb.block, if_neg hb.ne_nil, nthLive_view hb.formed]

theorem view_inoNum_ne {x : DentryOut} {i : ℕ} (h : (view b)[i]? = some x) : x.inoNum ≠ 0 := by
  have hmem := List.mem_of_getElem? h
  simp only [view, List.mem_map, List.mem_filter, decide_eq_true_eq] at hmem
  obtain ⟨de, ⟨-, hlive⟩, rfl⟩ := hmem
  exact hlive

/-- **The view.** What is read is the list of the live records. -/
theorem reads_iff (hb : OneBlock sb s dir b) (hq : Quiet c.env) (hr : Available sb s dir)
    (hheld : s.held dir = false) (v : List DentryOut) : Reads sb c s dir v ↔ v = view b := by
  have hread := read_eq hb hq hr hheld
  constructor
  · rintro ⟨hfound, hends⟩
    -- the lists agree up to the end of `v`, and there `view b` ends too
    have hget : ∀ i, i < v.length → v[i]? = (view b)[i]? := by
      intro i hi
      obtain ⟨hne, s₁, h₁⟩ := hfound i v[i] (List.getElem?_eq_getElem hi)
      obtain ⟨s₂, h₂⟩ := hread i
      have hx : v[i] = ((view b)[i]?).getD notFound := by
        rw [h₁] at h₂
        injection h₂ with _ _ h
        exact Option.some.inj h
      rw [List.getElem?_eq_getElem hi]
      cases hv : (view b)[i]? with
      | none =>
        rw [hv] at hx
        rw [hx] at hne
        exact absurd rfl hne
      | some x => rw [hx, hv]; rfl
    have hlen : (view b)[v.length]? = none := by
      obtain ⟨s₁, h₁⟩ := hends
      obtain ⟨s₂, h₂⟩ := hread v.length
      rw [h₁] at h₂
      injection h₂ with _ _ h
      cases hv : (view b)[v.length]? with
      | none => rfl
      | some x =>
        rw [hv] at h
        have hx : notFound = x := Option.some.inj h
        exact absurd rfl (hx ▸ view_inoNum_ne hv : notFound.inoNum ≠ 0)
    refine List.ext_getElem? fun i => ?_
    by_cases hi : i < v.length
    · exact hget i hi
    · have hle : (view b).length ≤ i :=
        (List.getElem?_eq_none_iff.mp hlen).trans (not_lt.mp hi)
      rw [List.getElem?_eq_none (not_lt.mp hi), List.getElem?_eq_none hle]
  · rintro rfl
    refine ⟨fun i x hx => ⟨view_inoNum_ne hx, ?_⟩, ?_⟩
    · obtain ⟨s', hs'⟩ := hread i
      exact ⟨s', by rw [hs', hx]; rfl⟩
    · obtain ⟨s', hs'⟩ := hread (view b).length
      exact ⟨s', by rw [hs', List.getElem?_eq_none le_rfl]; rfl⟩

/-! ### Update -/

/-- A call of `evfs_dentry_update` in which no call outside fails, for an entry of `old`. -/
structure Updating (sb : Sb) (c : Calls) (s : Fs) (dir index new old : ℕ) (b : DirBlock) : Prop
    extends Calm sb c s dir new old where
  /-- Link counts have 32 bits. -/
  width : ∀ i, (s.ino i).nlink < 2 ^ 32
  entry : ∃ x, (view b)[index]? = some x ∧ x.inoNum = old

/-- The element has the new number, and a link has gone from the old inode to the new one. -/
structure Updated (sb : Sb) (s s' : Fs) (dir index new old : ℕ) (b : DirBlock) : Prop where
  block : ∃ b', OneBlock sb s' dir b' ∧
    view b' = (view b).modify index fun x => { x with inoNum := new }
  counts : ∀ i, (s'.ino i).nlink + (if i = old then 1 else 0)
    = (s.ino i).nlink + if i = new then 1 else 0

/-- The condition for an update to do that. -/
def UpdateOk (sb : Sb) (s : Fs) (dir new old : ℕ) : Prop :=
  new ≠ dir ∧ old ≠ dir ∧
    (new = old ∨ ((s.ino new).nlink + 1 < 2 ^ 32 ∧ 0 < (s.ino old).nlink ∧
      ((s.ino old).nlink = 1 → inCapacity sb old = true)))

section Update

variable {old k : ℕ}

theorem Updating.record (h : Updating sb c s dir index new old b) (hb : OneBlock sb s dir b) :
    ∃ k de, nthLive sb 0 index b = some k ∧ b[k]? = some de ∧ de.inode = old := by
  obtain ⟨x, hx, hold⟩ := h.entry
  have hv : _ = (view b)[index]? := nthLive_view hb.formed
  rw [hx] at hv
  obtain ⟨k, hk, hde⟩ := Option.bind_eq_some_iff.mp hv
  obtain ⟨de, hde, hout⟩ := Option.map_eq_some_iff.mp hde
  exact ⟨k, de, hk, hde, by rw [← hold, ← hout]; rfl⟩

/-- The counts after an update: both changes are of one inode, or neither count wraps. -/
theorem counts_iff {x : ℕ → Bool} (hw : ∀ i, (s.ino i).nlink < 2 ^ 32)
    (hn : ∀ i, (s'.ino i).nlink = (((raised s new x).setNlink old
      (dropNlink ((raised s new x).ino old).nlink)).ino i).nlink) :
    (∀ i, (s'.ino i).nlink + (if i = old then 1 else 0)
        = (s.ino i).nlink + if i = new then 1 else 0) ↔
      (new = old ∨ ((s.ino new).nlink + 1 < 2 ^ 32 ∧ 0 < (s.ino old).nlink)) := by
  have hraised : ((raised s new x).ino new).nlink = incNlink (s.ino new).nlink := setNlink_nlink_self
  have hkept : ∀ i, i ≠ new → ((raised s new x).ino i).nlink = (s.ino i).nlink := fun i hi =>
    setNlink_nlink_ne hi
  have hold : (s'.ino old).nlink = dropNlink ((raised s new x).ino old).nlink :=
    (hn old).trans setNlink_nlink_self
  have hother : ∀ i, i ≠ old → (s'.ino i).nlink = ((raised s new x).ino i).nlink := fun i hi =>
    (hn i).trans (setNlink_nlink_ne hi)
  have hwo := hw old
  have hwn := hw new
  by_cases heq : new = old
  · subst heq
    refine ⟨fun _ => .inl rfl, fun _ i => ?_⟩
    by_cases hi : i = new
    · subst hi
      rw [hold, hraised]
      unfold dropNlink incNlink
      omega
    · rw [hother i hi, hkept i hi]
  · have hne : old ≠ new := fun h => heq h.symm
    constructor
    · intro h
      have hnew := h new
      have holdc := h old
      rw [hother new heq, hraised, if_neg heq, if_pos rfl] at hnew
      rw [hold, hkept old hne, if_pos rfl, if_neg hne] at holdc
      unfold incNlink at hnew
      unfold dropNlink at holdc
      exact .inr ⟨by omega, by omega⟩
    · rintro (h | ⟨hmax, hpos⟩) i
      · exact absurd h heq
      by_cases hio : i = old
      · subst hio
        rw [hold, hkept i hne, if_pos rfl, if_neg hne]
        unfold dropNlink
        omega
      by_cases hin : i = new
      · subst hin
        rw [hother i hio, hraised, if_neg hio, if_pos rfl]
        unfold incNlink
        omega
      · rw [hother i hio, hkept i hin, if_neg hio, if_neg hin]

/-- The last link of the old inode. -/
theorem last_link {x : ℕ → Bool} (hne : new ≠ old) (hpos : 0 < (s.ino old).nlink)
    (hw : (s.ino old).nlink < 2 ^ 32) :
    dropNlink ((raised s new x).ino old).nlink = 0 ↔ (s.ino old).nlink = 1 := by
  have hkept : ((raised s new x).ino old).nlink = (s.ino old).nlink :=
    setNlink_nlink_ne fun h => hne h.symm
  rw [hkept]
  unfold dropNlink
  omega

theorem modify_eq_self {v : List DentryOut} {x : DentryOut} (hx : v[index]? = some x)
    (hnew : x.inoNum = new) : (v.modify index fun x => { x with inoNum := new }) = v := by
  refine List.ext_getElem? fun i => ?_
  by_cases hi : index = i
  · subst hi
    simp [hx, ← hnew]
  · simp [hi]

/-- **Update.** -/
theorem update_iff (hb : OneBlock sb s dir b) (h : Updating sb c s dir index new old b) :
    (∃ s' ret, evfsDentryUpdate sb c s dir index new = .ret s' ret ∧
      Updated sb s s' dir index new old b) ↔ UpdateOk sb s dir new old := by
  obtain ⟨k, de, hk, hde, hold⟩ := h.record hb
  obtain ⟨e, he, heold⟩ := h.entry
  rw [← hb.block] at hk hde
  obtain ⟨hhang, hgo⟩ := h.toCalm.update_eq hb.isDir hk hde hold
  rw [hb.block] at hk hde
  by_cases hlock : new = dir ∨ old = dir
  · rw [hhang hlock]
    constructor
    · rintro ⟨s', ret, hret, -⟩
      cases hret
    · rintro ⟨hnew, holdd, -⟩
      exact (hlock.elim hnew holdd).elim
  obtain ⟨hnewd, holdd⟩ := not_or.mp hlock
  obtain ⟨x, hx⟩ := hgo hnewd holdd
  obtain ⟨s', hs', hframe, hnlink, hdir⟩ := updateRecord_eq sb h.calls (raised s new x) dir new old k
  have hframe : Frame dir s s' :=
    ((frame_setNlink _).trans (frame_cached x)).trans hframe
  have hdirs : ((raised s new x).ino dir).dir = (s.ino dir).dir := setNlink_dir
  rw [hdirs] at hdir
  have hcounts := counts_iff (x := x) h.width hnlink
  have hmod : new % 2 ^ 32 = new := by
    have := sb.legal_le _ h.readNew.legal
    have := sb.count_lt
    exact Nat.mod_eq_of_lt (by omega)
  rw [hx, hs']
  constructor
  · rintro ⟨s'', ret, hret, ⟨b', hb', hview⟩, hc⟩
    obtain rfl := ret_state hret
    refine ⟨hnewd, holdd, ?_⟩
    by_cases heq : new = old
    · exact .inl heq
    obtain ⟨hmax, hpos⟩ := (hcounts.mp hc).resolve_left heq
    refine .inr ⟨hmax, hpos, fun hone => ?_⟩
    -- a record left alone keeps its number, which is not the new one
    by_contra hcap
    rw [if_pos ⟨(last_link heq hpos (h.width old)).mpr hone, by simpa using hcap⟩] at hdir
    have hsame : b' = b := by
      have := hb'.blocks
      rw [hdir, hb.blocks] at this
      exact (List.singleton_inj.mp this).symm
    rw [hsame] at hview
    have hat : some e = some { e with inoNum := new } := by
      simpa [he] using congrArg (·[index]?) hview
    have hnum : e.inoNum = new := congrArg DentryOut.inoNum (Option.some.inj hat)
    exact heq (hnum.symm.trans heold)
  · rintro ⟨-, -, hcond⟩
    refine ⟨s', 0, rfl, ?_, hcounts.mpr (hcond.imp_right fun hc => ⟨hc.1, hc.2.1⟩)⟩
    by_cases hskip : dropNlink ((raised s new x).ino old).nlink = 0 ∧ inCapacity sb old = false
    · -- then the number is the old one
      have heq : new = old := by
        by_contra hne
        obtain ⟨-, hpos, hcap⟩ := hcond.resolve_left hne
        have hone := (last_link hne hpos (h.width old)).mp hskip.1
        exact absurd ((hcap hone).symm.trans hskip.2) (by decide)
      rw [if_pos hskip] at hdir
      refine ⟨b, hb.of_frame hframe (by rw [hdir]) (by rw [hdir, hb.blocks]) hb.ne_nil hb.formed, ?_⟩
      exact (modify_eq_self he (heold.trans heq.symm)).symm
    · rw [if_neg hskip] at hdir
      have hnew0 : new % 2 ^ 32 ≠ 0 := by
        rw [hmod]
        exact (sb.legal_le _ h.readNew.legal).1.ne'
      have hlive : ∀ de', b[k]? = some de' → de'.inode ≠ 0 := by
        obtain ⟨de', hde', hlive⟩ := nthLive_some sb hk
        intro de'' hde''
        rwa [Option.some.inj (hde''.symm.trans hde')]
      refine ⟨retarget new k b, hb.of_frame hframe ?_ ?_ ?_ (formed_retarget hb.formed hlive), ?_⟩
      · rw [hdir]
        rfl
      · rw [hdir, rewritten, Dir.setBlock, hb.block, hb.blocks]
        rfl
      · exact hb.formed.ne_nil hb.ne_nil (formed_retarget hb.formed hlive)
      · rw [view_retarget hnew0 hk, hmod]

end Update

/-! ### Deletion and addition -/

/-- **Deletion.** An element with the name goes. -/
theorem delete_view (hb : OneBlock sb s dir b) (h : evfsDentryDelete sb c s dir name = .ret s' 0) :
    ∃ b', OneBlock sb s' dir b' ∧
      ∃ l₁ x l₂, view b = l₁ ++ x :: l₂ ∧ x.name = name ∧ view b' = l₁ ++ l₂ := by
  obtain ⟨hf, hd, -⟩ := delete_edit h
  cases hd with
  | kept _ _ hret => exact absurd rfl hret
  | @gone n k de b' hde hname _ hdel hblocks hindex =>
    have hn : n = 0 := by
      have hlt : n < (s.ino dir).dir.blocks.length :=
        lt_length_of_block fun hnil => by simp [hnil] at hde
      rw [hb.blocks] at hlt
      exact Nat.lt_one_iff.mp hlt
    subst hn
    rw [hb.block] at hde hdel
    have hformed := formed_delete hb.formed hdel
    refine ⟨b', hb.of_frame hf hindex (by rw [hblocks, hb.blocks]; rfl)
      (hb.formed.ne_nil hb.ne_nil hformed) hformed, ?_⟩
    obtain ⟨b₁, de', b₂, hsplit, hlen, hview⟩ := view_delete hdel
    obtain rfl : de = de' := by
      rw [hsplit, ← hlen] at hde
      simpa using hde.symm
    have hlive : de.inode ≠ 0 := ext4Match_inode hname
    refine ⟨view b₁, readOut de, view b₂, ?_, ?_, hview⟩
    · rw [hsplit, view_append, view_cons_live hlive]
    · have hmem : de ∈ b := List.mem_of_getElem? hde
      rw [readOut_name (hb.formed.fits de hmem) hlive]
      simpa [ext4Match, hlive] using hname

/-- An entry that fits goes into the block, at the first attempt. -/
theorem ext4Link_fits {k : ℕ} (hb : OneBlock sb s dir b) (hq : Quiet c.env) (hname : name ≠ [])
    (hk : ext4FindDestDe sb name 0 b = .ok k) :
    (ext4Link sb c.again c.env s dir child name).1
      = (s.setNlink child (ext4IncCount sb (s.ino child))).setDir dir
          { (s.ino dir).dir with blocks := [insertAt (newEntry sb s child name) k b] } := by
  have hadd : ext4AddEntry sb c.env (newEntry sb s child name) (s.ino dir).dir
      = ({ (s.ino dir).dir with blocks := [insertAt (newEntry sb s child name) k b] }, none) := by
    have hne : (newEntry sb s child name).name ≠ [] := hname
    have hblock : addToBlock sb c.env (newEntry sb s child name) b
        = (insertAt (newEntry sb s child name) k b, none) := by
      have hk' : ext4FindDestDe sb (newEntry sb s child name).name 0 b = .ok k := hk
      rw [addToBlock, if_neg hb.ne_nil, addDirentToBuf, hk']
      simp [hq .dirAccess rfl, hq .dirDirty rfl, hq .dirInodeDirty rfl]
    unfold ext4AddEntry
    rw [if_neg hne, if_neg (by rw [hb.linear]; decide), linearAdd, hq .readDirblock rfl]
    simp [hb.blocks, addToBlocks, hblock]
  have hone : linkOnce sb c.env s dir child name
      = ((s.setNlink child (ext4IncCount sb (s.ino child))).setDir dir
          { (s.ino dir).dir with blocks := [insertAt (newEntry sb s child name) k b] }, none) := by
    unfold linkOnce
    rw [hq .journalStart rfl, hq .linkInodeDirty rfl]
    dsimp only
    rw [hadd]
  cases hagain : c.again with
  | nil => rw [ext4Link, hone]
  | cons env' again =>
    rw [ext4Link]
    dsimp only
    rw [hone, if_neg (by simp)]

/-- **Addition.** An entry that fits is one more element. -/
theorem add_view {k : ℕ} (hb : OneBlock sb s dir b) (hq : Quiet c.env) (hlen : name.length ≤ 254)
    (hk : ext4FindDestDe sb name 0 b = .ok k)
    (h : evfsDentryAdd sb c s dir child name = .ret s' 0) :
    ∃ b', OneBlock sb s' dir b' ∧ ∃ l₁ x l₂, x.inoNum = child ∧ x.name = name ∧
      view b = l₁ ++ l₂ ∧ view b' = l₁ ++ x :: l₂ := by
  have hname : name ≠ [] := by
    rintro rfl
    exact (ret_early h).2 rfl
  obtain ⟨x, ⟨-, hne⟩ | ⟨-, hlegal, -, -, hs', -⟩⟩ := add_cases h
  · exact absurd rfl hne
  have hb' : OneBlock sb { s with cached := x } dir b := ⟨hb.isDir, hb.linear, hb.blocks, hb.ne_nil,
    hb.formed⟩
  rw [ext4Link_fits hb' hq hname hk] at hs'
  have hchild : child ≠ 0 := (sb.legal_le _ hlegal).1.ne'
  generalize he : newEntry sb { s with cached := x } child name = e at hs'
  have heinode : e.inode = child := by rw [← he]; rfl
  have hename : e.name = name := by rw [← he]; rfl
  have hrange : 1 ≤ e.name.length ∧ e.name.length ≤ 254 := by
    rw [hename]
    exact ⟨List.length_pos_iff.mpr hname, hlen⟩
  have hroom : ∀ de, b[k]? = some de → ext4DirRecLen e.name.length
      + (if de.inode ≠ 0 then ext4DirRecLen de.name.length else 0) ≤ de.recLen := by
    obtain ⟨de, hde, hroom⟩ := ext4FindDestDe_room hk
    intro de' hde'
    rw [hename, Option.some.inj (hde'.symm.trans hde)]
    exact hroom
  have hformed := formed_insertAt hrange hb.formed hroom
  have hframe : Frame dir s s' := by
    rw [hs']
    exact ((frame_cached x).trans (frame_setNlink _)).trans (frame_setDir _)
  refine ⟨insertAt e k b, hb.of_frame hframe ?_ ?_ (hb.formed.ne_nil hb.ne_nil hformed) hformed, ?_⟩
  · rw [hs', setDir_dir_self]
  · rw [hs', setDir_dir_self]
  · have he0 : e.inode ≠ 0 := by rw [heinode]; exact hchild
    obtain ⟨l₁, l₂, hv, hv'⟩ := view_insertAt he0 (ext4FindDestDe_lt sb hk)
    refine ⟨l₁, readOut e, l₂, heinode, ?_, hv, hv'⟩
    rw [readOut_of_length hrange.2, hename]

/-- **The index view.** For a directory of one well-formed block, when the calls of `ext4_iget`, the journal
and the disk succeed. -/
theorem evfsDentry_view (hb : OneBlock sb s dir b) (hq : Quiet c.env) (hdir : Available sb s dir)
    (hheld : s.held dir = false) :
    (∀ v, Reads sb c s dir v ↔ v = view b) ∧
    (∀ index new old, Updating sb c s dir index new old b →
      ((∃ s' ret, evfsDentryUpdate sb c s dir index new = .ret s' ret ∧
        Updated sb s s' dir index new old b) ↔ UpdateOk sb s dir new old)) ∧
    (∀ name s', evfsDentryDelete sb c s dir name = .ret s' 0 → ∃ b', OneBlock sb s' dir b' ∧
      ∃ l₁ x l₂, view b = l₁ ++ x :: l₂ ∧ x.name = name ∧ view b' = l₁ ++ l₂) ∧
    ∀ child name k s', name.length ≤ 254 → ext4FindDestDe sb name 0 b = .ok k →
      evfsDentryAdd sb c s dir child name = .ret s' 0 → ∃ b', OneBlock sb s' dir b' ∧
        ∃ l₁ x l₂, x.inoNum = child ∧ x.name = name ∧ view b = l₁ ++ l₂ ∧ view b' = l₁ ++ x :: l₂ :=
  ⟨reads_iff hb hq hdir hheld, fun _ _ _ => update_iff hb, fun _ _ => delete_view hb,
    fun _ _ _ _ hlen hk => add_view hb hq hlen hk⟩

/-! ### The entries of a small root -/

/-- The block of the root of `treeFs`. -/
def rootBlock : DirBlock := [entry 2 12 [46], entry 2 12 [46, 46], entry 12 1000 [100]]

theorem rootBlock_one : OneBlock smallSb treeFs 2 rootBlock where
  isDir := by decide
  linear := by decide
  blocks := rfl
  ne_nil := by decide
  formed := ⟨⟨by decide, by decide, by decide⟩, ⟨by decide, by decide, by decide⟩,
    ⟨by decide, by decide, by decide⟩, rfl⟩

theorem treeFs_available {i : ℕ} (h : smallSb.legal i = true) (hn : (treeFs.ino i).nlink ≠ 0) :
    Available smallSb treeFs i := ⟨h, .inr hn⟩

theorem rootBlock_updating {index new old : ℕ} (hnew : Available smallSb treeFs new)
    (hold : Available smallSb treeFs old)
    (hentry : ∃ x, (view rootBlock)[index]? = some x ∧ x.inoNum = old) :
    Updating smallSb quietCalls treeFs 2 index new old rootBlock where
  calls _ _ := rfl
  unlocked _ := rfl
  readDir := treeFs_available (by decide) (by decide)
  readNew := hnew
  readOld := hold
  width i := (treeFs_sound.small i).trans (by decide)
  entry := hentry

/-- **The condition is needed.** The element number 0 is the entry `.`; its update does not return. -/
theorem evfsDentryUpdate_hangs :
    OneBlock smallSb treeFs 2 rootBlock ∧
      Updating smallSb quietCalls treeFs 2 0 13 2 rootBlock ∧
      evfsDentryUpdate smallSb quietCalls treeFs 2 0 13 = .hang :=
  ⟨rootBlock_one,
    rootBlock_updating (treeFs_available (by decide) (by decide))
      (treeFs_available (by decide) (by decide)) ⟨_, rfl, rfl⟩,
    rfl⟩

theorem evfsDentry_view_root :
    Reads smallSb quietCalls treeFs 2 (view rootBlock) ∧
      (∃ s' ret, evfsDentryUpdate smallSb quietCalls treeFs 2 2 13 = .ret s' ret ∧
        Updated smallSb treeFs s' 2 2 13 12 rootBlock) ∧
      (∃ s' b', evfsDentryDelete smallSb quietCalls treeFs 2 [100] = .ret s' 0 ∧
        OneBlock smallSb s' 2 b') ∧
      ∃ s' b', evfsDentryAdd smallSb quietCalls treeFs 2 13 [102] = .ret s' 0 ∧
        OneBlock smallSb s' 2 b' := by
  obtain ⟨hread, hupdate, hdelete, hadd⟩ := evfsDentry_view (c := quietCalls) rootBlock_one
    (fun _ _ => rfl) (treeFs_available (by decide) (by decide)) rfl
  have hdel : Step smallSb treeFs (succeeds (.dentryDelete 2 [100])) _ := step_next (by decide)
  have hins : Step smallSb treeFs (succeeds (.dentryAdd 2 13 [102])) _ := step_next (by decide)
  refine ⟨(hread _).mpr rfl, (hupdate 2 13 12 ?_).mpr ?_, ?_, ?_⟩
  · exact rootBlock_updating (treeFs_available (by decide) (by decide))
      (treeFs_available (by decide) (by decide)) ⟨_, rfl, rfl⟩
  · exact ⟨by decide, by decide, .inr ⟨by decide, by decide, by decide⟩⟩
  · obtain ⟨b', hb', -⟩ := hdelete [100] _ hdel
    exact ⟨_, b', hdel, hb'⟩
  · obtain ⟨b', hb', -⟩ := hadd 13 [102] 2 _ (by decide) rfl hins
    exact ⟨_, b', hins, hb'⟩

end LinuxEvfs.Namespace.View
