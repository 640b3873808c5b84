import LinuxEvfs.ExtTree.Split
import LinuxEvfs.Lib.IndexRewrite

/-! # Inserting an extent

`ext4_ext_insert_extent` in full: before it looks for room it tries to append the new extent to one that is there or to
prepend it, and in the end it merges. With `EXT4_GET_BLOCKS_PRE_IO` it does neither.

* `joinLeaf`: the new extent made part of one in the leaf of the path.
* `insertExtent_behind`: the tree gets the cells of the new extent, whichever way it goes. -/

namespace LinuxEvfs.ExtTree.Insert

open LinuxEvfs.Errno LinuxEvfs.Lib.Word LinuxEvfs.Lib.IndexTree LinuxEvfs.Lib.IndexInsert LinuxEvfs.Lib.IndexFrame
open LinuxEvfs.Lib.IndexRewrite
open LinuxEvfs.ExtTree.Basic LinuxEvfs.ExtTree.Cells LinuxEvfs.ExtTree.Tree LinuxEvfs.ExtTree.Split

/-! ### The function -/

/-- `newext` put before `ex`. -/
def prependExtent (newext ex : Extent) : Extent :=
  setLen (ext4ExtStorePblock { ex with eeBlock := newext.eeBlock } (ext4ExtPblock newext))
    (ext4ExtGetActualLen ex + ext4ExtGetActualLen newext) (ext4ExtIsUnwritten ex)

/-- Appending to the extent at a position of the leaf. -/
def tryAppend (newext : Extent) (es : List Extent) (j : ℕ) : Option (List Extent × ℕ) :=
  es[j]?.bind fun ex => if ext4CanExtentsBeMerged ex newext then some (es.set j (mergeExtents ex newext), j) else none

/-- Prepending to it. -/
def tryPrepend (newext : Extent) (es : List Extent) (j : ℕ) : Option (List Extent × ℕ) :=
  es[j]?.bind fun ex => if ext4CanExtentsBeMerged newext ex then some (es.set j (prependExtent newext ex), j) else none

/-- The attempt to make `newext` part of an extent of the leaf, the path standing at position `i`: the new leaf, and the
position from which on to merge. -/
def joinLeaf (newext : Extent) (es : List Extent) (i : ℕ) : Option (List Extent × ℕ) :=
  match es[i]? with
  | none => none
  | some ex =>
    if i + 1 < es.length ∧ add32 ex.eeBlock (ext4ExtGetActualLen ex) < newext.eeBlock then tryPrepend newext es (i + 1)
    else
      let j := if 0 < i ∧ add32 newext.eeBlock (ext4ExtGetActualLen newext) < ex.eeBlock then i - 1 else i
      (tryAppend newext es j).or (tryPrepend newext es j)

/-- The leaf with `newext` made part of it and merged. -/
def joinBlock (newext : Extent) (lf : Block Extent) (q : Option ℕ) : Block Extent :=
  { lf with entries := (q.bind (joinLeaf newext lf.entries)).elim lf.entries fun r => mergeLeaf r.1 r.2 }

/-- `newext` can be made part of an extent of the leaf. -/
def joins (newext : Extent) (t : ExtRoot) (path : Path t.1) : Bool :=
  ((leaf t.1 t.2 path).bind fun lf => (Path.last t.1 path).bind (joinLeaf newext lf.entries)).isSome

/-- `ext4_ext_insert_extent` where no call fails, `extend` being the answer of `ext4_journal_extend`. -/
def insertExtent (blocksize : ℕ) (preIo extend : Bool) (newext : Extent) (t : ExtRoot) (path : Path t.1) : ExtRoot :=
  if preIo then ext4ExtInsertExtent blocksize newext t path
  else if joins newext t path then
    ext4ExtTryToMergeUp extend ⟨t.1, (rewrite Extent.eeBlock (joinBlock newext) t.1 t.2 path).1⟩
  else
    let t' := ext4ExtInsertExtent blocksize newext t path
    ext4ExtTryToMerge extend t' (ext4FindExtent t' newext.eeBlock)

/-! ### Joining -/

variable {newext a b : Extent} {l r l0 r0 : List Extent}

theorem prependExtent_eq (hstart : newext.eeStart < 2 ^ 48) (h : ext4CanExtentsBeMerged newext b = true) :
    prependExtent newext b = mergeExtents newext b := by
  obtain ⟨hstate, -⟩ := canMerge_spec h
  unfold prependExtent mergeExtents setLen ext4ExtStorePblock ext4ExtPblock ext4ExtMarkUnwritten
  rw [Nat.mod_eq_of_lt hstart, hstate, Nat.add_comm]

/-- Two extents next to each other in a valid map, made one. -/
theorem join_pair (hv : ValidMap (l ++ a :: b :: r)) (h : ext4CanExtentsBeMerged a b = true) :
    ValidMap (l ++ mergeExtents a b :: r) ∧ cells (l ++ mergeExtents a b :: r) = cells (l ++ a :: b :: r) := by
  have ha := hv.legal a (by simp)
  have hb := hv.legal b (by simp)
  have hj := joins_of_canMerge ha hb h
  exact ⟨ValidMap.join hj (mergeExtents_spec ha hb h).2.2.2.1 hv, hj.cells_eq.symm⟩

/-- What a leaf around the position may become: a valid map with the cells that it has with `newext`. -/
structure Joined (l0 r0 es' full : List Extent) (first : Option ℕ) : Prop where
  valid : ValidMap (l0 ++ es' ++ r0)
  cells_eq : cells (l0 ++ es' ++ r0) = cells (l0 ++ full ++ r0)
  ne_nil : es' ≠ []
  head : es'.head?.map Extent.eeBlock = first

/-- **Joining behind** the extent of the path. -/
theorem joinLeaf_behind {l1 r1 es' : List Extent} {j : ℕ}
    (hv : ValidMap (l0 ++ (l1 ++ a :: newext :: r1) ++ r0))
    (h : joinLeaf newext (l1 ++ a :: r1) l1.length = some (es', j)) :
    Joined l0 r0 es' (l1 ++ a :: newext :: r1) ((l1 ++ a :: r1).head?.map Extent.eeBlock) := by
  have hv' : ValidMap ((l0 ++ l1) ++ a :: newext :: (r1 ++ r0)) := by simpa using hv
  obtain ⟨-, hvr, -⟩ := validMap_append.mp hv'
  obtain ⟨ha, hvn, han⟩ := validMap_cons.mp hvr
  obtain ⟨hn, -, -⟩ := validMap_cons.mp hvn
  have hlast := han newext List.mem_cons_self
  have hab := ha.block_lt_last
  have hnb := hn.block_lt_last
  have hget : (l1 ++ a :: r1)[l1.length]? = some a := by simp
  unfold joinLeaf at h
  rw [hget] at h
  simp only [ha.end_eq, hn.end_eq] at h
  split_ifs at h with hgap hleft
  · -- prepended to the extent behind
    obtain ⟨b, r2, rfl⟩ : ∃ b r2, r1 = b :: r2 := by
      refine List.exists_cons_of_ne_nil fun h0 => ?_
      subst h0
      simp at hgap
    have hget1 : (l1 ++ a :: b :: r2)[l1.length + 1]? = some b := by simp
    simp only [tryPrepend, hget1, Option.bind_some] at h
    split_ifs at h with hm
    obtain ⟨rfl, rfl⟩ := Prod.mk.inj (Option.some.inj h)
    have hset : (l1 ++ a :: b :: r2).set (l1.length + 1) (prependExtent newext b) =
        l1 ++ a :: mergeExtents newext b :: r2 := by
      rw [prependExtent_eq hn.start_lt hm]
      simp
    have hv2 : ValidMap ((l0 ++ l1 ++ [a]) ++ newext :: b :: (r2 ++ r0)) := by simpa using hv
    obtain ⟨hj, hc⟩ := join_pair hv2 hm
    rw [hset]
    exact ⟨by simpa using hj, by simpa using hc, by simp, by cases l1 <;> simp⟩
  · omega
  · have happ : tryAppend newext (l1 ++ a :: r1) l1.length = some (es', j) := by
      -- it cannot be prepended to the extent before it
      have hpre : tryPrepend newext (l1 ++ a :: r1) l1.length = none := by
        simp only [tryPrepend, hget, Option.bind_some]
        refine if_neg fun hm => ?_
        have := (canMerge_spec hm).2.1
        rw [hn.end_eq] at this
        omega
      rwa [hpre, Option.or_none] at h
    simp only [tryAppend, hget, Option.bind_some] at happ
    split_ifs at happ with hm
    obtain ⟨rfl, rfl⟩ := Prod.mk.inj (Option.some.inj happ)
    rw [set_mid]
    obtain ⟨hj, hc⟩ := join_pair hv' hm
    refine ⟨by simpa using hj, by simpa using hc, by simp, ?_⟩
    have hblock : (mergeExtents a newext).eeBlock = a.eeBlock := setLen_eeBlock
    cases l1 <;> simp [hblock]

/-- The leaf joined and merged. -/
theorem Joined.merge {es' full : List Extent} {first : Option ℕ} (h : Joined l0 r0 es' full first) (j : ℕ) :
    Joined l0 r0 (mergeLeaf es' j) full first := by
  obtain ⟨hv, hc⟩ := mergeLeaf_regroups es' j l0 r0 h.valid
  have hhead := mergeLeaf_head es' j
  refine ⟨hv, hc.trans h.cells_eq, fun h0 => ?_, hhead.trans h.head⟩
  rw [h0] at hhead
  obtain ⟨x, xs, hx⟩ := List.exists_cons_of_ne_nil h.ne_nil
  rw [hx] at hhead
  cases hhead

/-! ### Insertion -/

variable {t : ExtRoot} {path : Path t.1}

/-- A new extent at the path of the one before it, not joined. -/
theorem insert_behind (blocksize : ℕ) (h : WellFormed t) (hat : At t.1 t.2 path l (some a) r)
    (hv : ValidMap (l ++ a :: newext :: r)) :
    WellFormed (ext4ExtInsertExtent blocksize newext t path) ∧
      exts (ext4ExtInsertExtent blocksize newext t path) = l ++ a :: newext :: r := by
  obtain ⟨hi, hit⟩ := insert_spec (ext4ExtSpaceBlock blocksize) hat h.indexed hv.starts
  have hit' : exts (ext4ExtInsertExtent blocksize newext t path) = _ := hit
  exact ⟨⟨hi, hit'.symm ▸ hv⟩, hit'⟩

/-- **The insertion** of an extent at the path of the one before it. -/
theorem insertExtent_behind (blocksize : ℕ) (preIo extend : Bool) (h : WellFormed t)
    (hat : At t.1 t.2 path l (some a) r) (hv : ValidMap (l ++ a :: newext :: r)) :
    WellFormed (insertExtent blocksize preIo extend newext t path) ∧
      cells (exts (insertExtent blocksize preIo extend newext t path)) = cells (l ++ a :: newext :: r) := by
  obtain ⟨hw, hex⟩ := insert_behind blocksize h hat hv
  unfold insertExtent
  split_ifs with hpre hjoin
  · exact ⟨hw, by rw [hex]⟩
  · obtain ⟨lf, l0, l1, r1, r0, hleaf, hlast, hlf, rfl, rfl, hit, hrest⟩ :=
      At.rewrite_spec (f := joinBlock newext) hat h.indexed
    rw [joins, hleaf, Option.bind_some, hlast, Option.bind_some, hlf, Option.isSome_iff_exists] at hjoin
    obtain ⟨⟨es', j⟩, hj⟩ := hjoin
    have hv' : ValidMap (l0 ++ (l1 ++ a :: newext :: r1) ++ r0) := by simpa using hv
    have hm := (joinLeaf_behind hv' hj).merge j
    have hblock : (joinBlock newext lf (some l1.length)).entries = mergeLeaf es' j := by
      simp only [joinBlock, Option.bind_some, hlf, hj, Option.elim_some]
    rw [hblock] at hit hrest
    obtain ⟨hi, -⟩ := hrest hm.ne_nil fun _ => by rw [hm.head, hlf]
    have hit' : exts ⟨t.1, (rewrite Extent.eeBlock (joinBlock newext) t.1 t.2 path).1⟩ = _ := hit
    obtain ⟨hw', he⟩ := tryToMergeUp_spec extend
      (t := ⟨t.1, (rewrite Extent.eeBlock (joinBlock newext) t.1 t.2 path).1⟩) ⟨hi, hit'.symm ▸ hm.valid⟩
    refine ⟨hw', ?_⟩
    rw [he, hit', hm.cells_eq]
    simp
  · have hex' : exts (ext4ExtInsertExtent blocksize newext t path) = (l ++ [a]) ++ newext :: r := by
      rw [hex]
      simp
    obtain ⟨hw', hc⟩ := tryToMerge_spec extend hw (find_start hw hex')
    exact ⟨hw', by rw [hc, hex]⟩

end LinuxEvfs.ExtTree.Insert
