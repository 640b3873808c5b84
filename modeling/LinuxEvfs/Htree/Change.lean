import LinuxEvfs.Htree.Index
import LinuxEvfs.Htree.Split

/-! # Changes of an indexed directory

What writing a block does to the blocks read, and the changes that keep a directory valid.

* `valid_append`: a block that the index does not lead to.
* `valid_setLeaf`: other records in a leaf.
* `valid_reindex`: another index over the same leaves.
* `valid_insertLeaf`: a leaf cut in two, with an entry for the second half. -/

namespace LinuxEvfs.Htree.Change

open LinuxEvfs.Lib.PagedIndex LinuxEvfs.Lib.Routing
open LinuxEvfs.Namespace.Dir LinuxEvfs.Htree.Model LinuxEvfs.Htree.Leaves LinuxEvfs.Htree.Index
open LinuxEvfs.Htree.Split

variable {sb : DxSb} {info info' : DxRootInfo} {d d' : List DxBlock} {x x' : DxNode} {recs recs' : DirBlock}
variable {block : DxBlock} {b p q nb i k hash : ℕ} {path up : Path ℕ} {bef aft : List (ℕ × ℕ)} {cur y : ℕ × ℕ}
variable {e : DirEntry}

/-! ### Blocks -/

theorem lt_of_nodeAt (h : nodeAt d b = some x) : b < d.length := by
  obtain ⟨block, hget, -⟩ := getElem?_of_nodeAt h
  exact (List.getElem?_eq_some_iff.mp hget).1

theorem nodeAt_set (hb : d[b]? = some (.leaf recs)) (recs' : DirBlock) (q : ℕ) :
    nodeAt (d.set b (.leaf recs')) q = nodeAt d q := by
  by_cases hq : b = q
  · subst hq
    rw [nodeAt_leaf hb, nodeAt, List.getElem?_set_self (List.getElem?_eq_some_iff.mp hb).1]
    rfl
  · rw [nodeAt, nodeAt, List.getElem?_set_ne hq]

theorem nodeAt_append (hq : q ≠ d.length) : nodeAt (d ++ [block]) q = nodeAt d q := by
  rw [nodeAt, nodeAt]
  rcases Nat.lt_or_gt_of_ne hq with hq | hq
  · rw [List.getElem?_append_left hq]
  · rw [List.getElem?_eq_none (by simp; omega), List.getElem?_eq_none (by omega)]

theorem nodeAt_append_self : nodeAt (d ++ [block]) d.length = block.node? := by
  rw [nodeAt, List.getElem?_concat_length]
  rfl

theorem nodeAt_length : nodeAt d d.length = none := by
  rw [nodeAt, List.getElem?_eq_none le_rfl]
  rfl

theorem node?_setNode (h : block.node? = some x) : (block.setNode x').node? = some x' := by
  cases block with
  | root => rfl
  | node => rfl
  | leaf => cases h

theorem nodeAt_modify (h : nodeAt d p = some x) (q : ℕ) :
    nodeAt (d.modify p (DxBlock.setNode x')) q = if q = p then some x' else nodeAt d q := by
  rw [nodeAt, List.getElem?_modify]
  by_cases hq : p = q
  · subst hq
    obtain ⟨block, hget, hnode⟩ := getElem?_of_nodeAt h
    simp [hget, node?_setNode hnode]
  · simp [hq, Ne.symm hq, nodeAt]

/-- The leaves are not changed with the index. -/
theorem getElem?_modify_leaf (p : ℕ) (x' : DxNode) (hb : d[b]? = some (.leaf recs)) :
    (d.modify p (DxBlock.setNode x'))[b]? = some (.leaf recs) := by
  rw [List.getElem?_modify, hb]
  by_cases hp : p = b
  · simp [hp, DxBlock.setNode]
  · simp [hp]

theorem nodeAt_dxInsertBlock (i hash nb : ℕ) (h : nodeAt d p = some x) (q : ℕ) :
    nodeAt (dxInsertBlock d (p, i) hash nb) q = if q = p then
      some { x with entries := x.entries.take (i + 1) ++ ⟨hash, nb⟩ :: x.entries.drop (i + 1) }
    else nodeAt d q := by
  rw [dxInsertBlock]
  simp only [h]
  exact nodeAt_modify h q

theorem getElem?_dxInsertBlock_leaf {frame : ℕ × ℕ} (hb : d[b]? = some (.leaf recs)) :
    (dxInsertBlock d frame hash nb)[b]? = some (.leaf recs) := by
  rw [dxInsertBlock]
  cases hn : nodeAt d frame.1 with
  | none => exact hb
  | some x => exact getElem?_modify_leaf _ _ hb

@[simp] theorem length_dxInsertBlock (frame : ℕ × ℕ) (hash nb : ℕ) :
    (dxInsertBlock d frame hash nb).length = d.length := by
  rw [dxInsertBlock]
  cases hn : nodeAt d frame.1 with
  | none => rfl
  | some x => exact List.length_modify _ _ _

/-- **`dx_insert_block`**, in the entries as they are read. -/
theorem index_insert {e : ℕ × ℕ} (h : nodeAt d p = some x)
    (h' : nodeAt d' p = some { x with entries := x.entries.take (i + 1) ++ ⟨hash, nb⟩ :: x.entries.drop (i + 1) })
    (he : (index d p)[i]? = some e) (hnb : nb < 2 ^ 28) :
    ∃ l r, index d p = l ++ e :: r ∧ l.length = i ∧ index d' p = l ++ e :: (hash, nb) :: r := by
  obtain ⟨hi, rfl⟩ := List.getElem?_eq_some_iff.mp he
  refine ⟨(index d p).take i, (index d p).drop (i + 1), ?_, ?_, ?_⟩
  · rw [← List.drop_eq_getElem_cons hi, List.take_append_drop]
  · rw [List.length_take]
    omega
  · rw [index_eq h', List.map_append, List.map_cons, List.map_take, List.map_drop, ← index_eq h]
    have hblock : dxGetBlock ⟨hash, nb⟩ = nb := Nat.mod_eq_of_lt hnb
    rw [hblock, List.take_succ_eq_append_getElem hi, List.append_assoc]
    rfl

/-! ### The root -/

theorem hasRoot_append (h : HasRoot info d) : HasRoot info (d ++ [block]) := by
  obtain ⟨dot, dotdot, x, hx, hdots⟩ := h
  exact ⟨dot, dotdot, x, by rw [List.getElem?_append_left (List.getElem?_eq_some_iff.mp hx).1, hx], hdots⟩

theorem hasRoot_set (h : HasRoot info d) (hb : d[b]? = some (.leaf recs)) : HasRoot info (d.set b block) := by
  obtain ⟨dot, dotdot, x, hx, hdots⟩ := h
  refine ⟨dot, dotdot, x, ?_, hdots⟩
  rw [List.getElem?_set_ne (fun h0 => ?_), hx]
  rw [h0, hx] at hb
  cases hb

theorem hasRoot_modify (h : HasRoot info d) : HasRoot info (d.modify p (DxBlock.setNode x')) := by
  obtain ⟨dot, dotdot, x, hx, hdots⟩ := h
  rw [HasRoot, List.getElem?_modify, hx]
  by_cases hp : p = 0
  · exact ⟨dot, dotdot, x', by simp [hp, DxBlock.setNode], hdots⟩
  · exact ⟨dot, dotdot, x, by simp [hp], hdots⟩

theorem hasRoot_insert {frame : ℕ × ℕ} (h : HasRoot info d) : HasRoot info (dxInsertBlock d frame hash nb) := by
  rw [dxInsertBlock]
  cases hn : nodeAt d frame.1 with
  | none => exact h
  | some x => exact hasRoot_modify h

/-! ### Another index over the same leaves -/

theorem isNode_congr (h : IsNode sb info d b x) (hinfo : info'.infoLength = info.infoLength)
    (hsame : nodeAt d' b = nodeAt d b) : IsNode sb info' d' b x :=
  ⟨hsame.trans h.nodeAt, h.ne_nil, h.count, by rw [h.limit, hinfo]⟩

theorem index_congr (h : nodeAt d' q = nodeAt d q) : index d' q = index d q := by
  rw [index, index, h]

/-- The directory `d'` has another index over the leaves of `d`. -/
structure Reindexed (sb : DxSb) (info : DxRootInfo) (d : List DxBlock) (info' : DxRootInfo) (d' : List DxBlock) :
    Prop where
  valid : Valid sb info' d'
  version : info'.hashVersion = info.hashVersion
  leaves : leaves info' d' = leaves info d
  same : ∀ y ∈ Index.leaves info d, d'[y.2]? = d[y.2]?

theorem Reindexed.leafAt (h : Reindexed sb info d info' d') (hy : y ∈ Index.leaves info d) :
    Model.leafAt d' y.2 = Model.leafAt d y.2 := by
  rw [Model.leafAt, Model.leafAt, h.same y hy]

theorem Reindexed.entries (h : Reindexed sb info d info' d') : entries info' d' = entries info d := by
  rw [Index.entries, Index.entries, h.leaves]
  exact List.flatMap_congr fun y hy => by rw [h.leafAt hy]

theorem valid_refl (h : Valid sb info d) : Reindexed sb info d info d := ⟨h, rfl, rfl, fun _ _ => rfl⟩

/-- **Another index over the same leaves** keeps a directory valid. -/
theorem valid_reindex (h : Valid sb info d) (hroot : HasRoot info' d')
    (hversion : info'.hashVersion = info.hashVersion) (hflags : info'.unusedFlags = info.unusedFlags)
    (hlevels : info'.indirectLevels < sb.htreeLevel)
    (hnode : ∀ b ∈ indexBlocks info' d', ∃ x, IsNode sb info' d' b x) (hnd : (indexBlocks info' d').Nodup)
    (hleaves : leaves info' d' = leaves info d) (hsame : ∀ y ∈ leaves info d, d'[y.2]? = d[y.2]?) :
    Reindexed sb info d info' d' := by
  have hhashes : ∀ (version : ℕ), ∀ y ∈ leaves info d, hashes sb version d' y.2 = hashes sb version d y.2 :=
    fun version y hy => by rw [hashes, hashes, leafAt, leafAt, hsame y hy]
  refine ⟨⟨hroot, by rw [hversion]; exact h.version, by rw [hflags]; exact h.flags, hlevels, hnode, ?_, hnd, ?_, ?_, ?_⟩,
    hversion, hleaves, hsame⟩
  · intro y hy
    rw [hleaves] at hy
    rw [hsame y hy]
    exact h.leaf y hy
  · rw [hleaves]
    exact h.leaves_nodup
  · rw [hleaves]
    exact h.bound
  · rw [hleaves, hversion]
    exact h.routed.mono fun y hy k hk => by rwa [hhashes _ y hy] at hk

/-- **A block that the index does not lead to.** -/
theorem valid_append (h : Valid sb info d) (block : DxBlock) : Reindexed sb info d info (d ++ [block]) := by
  have hnodeAt : ∀ q ∈ indexBlocks info d, nodeAt (d ++ [block]) q = nodeAt d q := fun q hq => by
    obtain ⟨x, hx⟩ := h.node q hq
    exact nodeAt_append (lt_of_nodeAt hx.nodeAt).ne
  have hindex : ∀ q ∈ indexBlocks info d, index (d ++ [block]) q = index d q := fun q hq =>
    index_congr (hnodeAt q hq)
  have hblocks : indexBlocks info (d ++ [block]) = indexBlocks info d := nodes_congr hindex
  refine valid_reindex h (hasRoot_append h.root) rfl rfl h.levels ?_ (hblocks ▸ h.nodes_nodup) (flat_congr hindex) ?_
  · intro q hq
    rw [hblocks] at hq
    obtain ⟨x, hx⟩ := h.node q hq
    exact ⟨x, isNode_congr hx rfl (hnodeAt q hq)⟩
  · intro y hy
    obtain ⟨recs, hget, -⟩ := h.leaf y hy
    exact List.getElem?_append_left (List.getElem?_eq_some_iff.mp hget).1

/-! ### Other records in a leaf -/

theorem leafAt_set (hb : d[b]? = some (.leaf recs)) (recs' : DirBlock) : leafAt (d.set b (.leaf recs')) b = recs' :=
  leafAt_eq (List.getElem?_set_self (List.getElem?_eq_some_iff.mp hb).1)

theorem leafAt_set_ne (hq : b ≠ q) : leafAt (d.set b block) q = leafAt d q := by
  rw [leafAt, leafAt, List.getElem?_set_ne hq]

/-- The records written as they are. -/
theorem set_leafAt (hb : d[b]? = some (.leaf recs)) : d.set b (.leaf (leafAt d b)) = d := by
  obtain ⟨hlt, hget⟩ := List.getElem?_eq_some_iff.mp hb
  rw [leafAt_eq hb, ← hget, List.set_getElem_self]

theorem index_set (hb : d[b]? = some (.leaf recs)) (recs' : DirBlock) : index (d.set b (.leaf recs')) = index d :=
  funext fun q => index_congr (nodeAt_set hb recs' q)

theorem entries_cut (hcut : leaves info d = bef ++ y :: aft) : entries info d =
    (bef.flatMap fun z => liveRecs (leafAt d z.2)) ++ (liveRecs (leafAt d y.2) ++
      aft.flatMap fun z => liveRecs (leafAt d z.2)) := by
  rw [entries, hcut, List.flatMap_append, List.flatMap_cons]

/-- The other leaves have other numbers. -/
theorem ne_of_cut (h : Valid sb info d) (hcut : leaves info d = bef ++ y :: aft) : ∀ z ∈ bef ++ aft, y.2 ≠ z.2 := by
  have hnd := h.leaves_nodup
  rw [hcut, List.map_append, List.map_cons, List.nodup_middle, List.nodup_cons, ← List.map_append] at hnd
  exact fun z hz h0 => hnd.1 (List.mem_map.mpr ⟨z, hz, h0.symm⟩)

/-- **Other records in a leaf**, with hashes that belong there. -/
theorem valid_setLeaf (h : Valid sb info d) (hcut : leaves info d = bef ++ y :: aft) (hrecs : IsLeaf sb recs')
    (hrouted : Routed (hashes sb (sb.hinfoVersion info.hashVersion) (d.set y.2 (.leaf recs'))) (leaves info d)) :
    Valid sb info (d.set y.2 (.leaf recs')) ∧ leaves info (d.set y.2 (.leaf recs')) = leaves info d ∧
      entries info (d.set y.2 (.leaf recs')) = (bef.flatMap fun z => liveRecs (leafAt d z.2)) ++ (liveRecs recs' ++
        aft.flatMap fun z => liveRecs (leafAt d z.2)) := by
  have hne := ne_of_cut h hcut
  obtain ⟨recs, hget, -⟩ := h.leaf y (by rw [hcut]; simp)
  have hindex := index_set hget recs'
  have hleaves : leaves info (d.set y.2 (.leaf recs')) = leaves info d := by rw [leaves, leaves, hindex]
  have hblocks : indexBlocks info (d.set y.2 (.leaf recs')) = indexBlocks info d := by
    rw [indexBlocks, indexBlocks, hindex]
  refine ⟨⟨hasRoot_set h.root hget, h.version, h.flags, h.levels, ?_, ?_, hblocks ▸ h.nodes_nodup,
    hleaves ▸ h.leaves_nodup, hleaves ▸ h.bound, hleaves ▸ hrouted⟩, hleaves, ?_⟩
  · intro q hq
    rw [hblocks] at hq
    obtain ⟨x, hx⟩ := h.node q hq
    exact ⟨x, isNode_congr hx rfl (nodeAt_set hget recs' q)⟩
  · intro z hz
    rw [hleaves] at hz
    by_cases hyz : y.2 = z.2
    · refine ⟨recs', ?_, hrecs⟩
      rw [← hyz]
      exact List.getElem?_set_self (List.getElem?_eq_some_iff.mp hget).1
    · rw [List.getElem?_set_ne hyz]
      exact h.leaf z hz
  · rw [entries_cut (hleaves.trans hcut), leafAt_set hget]
    refine congrArg₂ _ (List.flatMap_congr fun z hz => ?_) (congrArg₂ _ rfl (List.flatMap_congr fun z hz => ?_))
    · rw [leafAt_set_ne (hne z (List.mem_append_left _ hz))]
    · rw [leafAt_set_ne (hne z (List.mem_append_right _ hz))]

/-- **An entry put** where its hash belongs. -/
theorem valid_addLeaf (h : Valid sb info d) (hcut : leaves info d = bef ++ y :: aft)
    (hhash : sb.dirhash (sb.hinfoVersion info.hashVersion) e.name = hash) (hle : y.1 ≤ hash + 1)
    (hlt : ∀ z ∈ aft, hash < z.1) (hrecs : IsLeaf sb recs')
    (hperm : (liveRecs recs').Perm (bare e :: liveRecs (leafAt d y.2))) :
    Valid sb info (d.set y.2 (.leaf recs')) ∧
      (entries info (d.set y.2 (.leaf recs'))).Perm (bare e :: entries info d) := by
  have hne := ne_of_cut h hcut
  obtain ⟨recs, hget, -⟩ := h.leaf y (by rw [hcut]; simp)
  have hrouted : Routed (hashes sb (sb.hinfoVersion info.hashVersion) (d.set y.2 (.leaf recs'))) (leaves info d) := by
    rw [hcut]
    refine Routed.insert (hcut ▸ h.routed) hle hlt (fun z hz => ?_) fun k hk => ?_
    · rw [hashes, hashes, leafAt_set_ne (hne z hz)]
    · rw [hashes, leafAt_set hget] at hk
      obtain ⟨z, hz, rfl⟩ := List.mem_map.mp hk
      rcases List.mem_cons.mp (hperm.mem_iff.mp hz) with rfl | hz
      · exact .inl hhash
      · exact .inr (List.mem_map.mpr ⟨z, hz, rfl⟩)
  obtain ⟨hvalid, -, hentries⟩ := valid_setLeaf h hcut hrecs hrouted
  refine ⟨hvalid, ?_⟩
  rw [hentries, entries_cut hcut]
  refine (List.Perm.append_left _ (hperm.append_right _)).trans ?_
  exact List.perm_middle

/-- **An entry taken away.** -/
theorem valid_delLeaf (h : Valid sb info d) (hcut : leaves info d = bef ++ y :: aft) (hrecs : IsLeaf sb recs')
    (hperm : (liveRecs (leafAt d y.2)).Perm (bare e :: liveRecs recs')) :
    Valid sb info (d.set y.2 (.leaf recs')) ∧
      (entries info d).Perm (bare e :: entries info (d.set y.2 (.leaf recs'))) := by
  have hne := ne_of_cut h hcut
  obtain ⟨recs, hget, -⟩ := h.leaf y (by rw [hcut]; simp)
  have hrouted : Routed (hashes sb (sb.hinfoVersion info.hashVersion) (d.set y.2 (.leaf recs'))) (leaves info d) := by
    refine h.routed.mono fun z hz k hk => ?_
    by_cases hyz : y.2 = z.2
    · rw [hashes, ← hyz, leafAt_set hget] at hk
      obtain ⟨w, hw, rfl⟩ := List.mem_map.mp hk
      rw [← hyz]
      exact List.mem_map.mpr ⟨w, hperm.mem_iff.mpr (List.mem_cons_of_mem _ hw), rfl⟩
    · rwa [hashes, leafAt_set_ne hyz] at hk
  obtain ⟨hvalid, -, hentries⟩ := valid_setLeaf h hcut hrecs hrouted
  refine ⟨hvalid, ?_⟩
  rw [hentries, entries_cut hcut]
  refine (List.Perm.append_left _ (hperm.append_right _)).trans ?_
  exact List.perm_middle

/-! ### A leaf cut in two -/

/-- The blocks behind the cut of a leaf: the index has one entry more, and the other leaves are as before. -/
theorem insertLeaf_blocks {fst snd : DirBlock} {m : ℕ} (h : Valid sb info d)
    (hat : At (index d) (info.indirectLevels + 1) 0 0 ((p, i) :: up) bef cur aft) (hx : nodeAt d p = some x)
    (hlen : d.length < 2 ^ 28)
    (hd' : d' = dxInsertBlock (d.set cur.2 (.leaf fst) ++ [.leaf snd]) (p, i) m d.length) :
    leaves info d' = bef ++ cur :: (m, d.length) :: aft ∧ indexBlocks info d' = indexBlocks info d ∧
      HasRoot info d' ∧ (∀ q ≠ p, nodeAt d' q = nodeAt d q) ∧
      nodeAt d' p = some { x with entries := x.entries.take (i + 1) ++ ⟨m, d.length⟩ :: x.entries.drop (i + 1) } ∧
      d'[cur.2]? = some (.leaf fst) ∧ d'[d.length]? = some (.leaf snd) ∧ ∀ z ∈ bef ++ aft, d'[z.2]? = d[z.2]? := by
  have hcut : leaves info d = bef ++ cur :: aft := hat.flat_eq
  have hne := ne_of_cut h hcut
  obtain ⟨recs, hget, -⟩ := h.leaf cur (by rw [hcut]; simp)
  have hcur := (List.getElem?_eq_some_iff.mp hget).1
  have hset : (d.set cur.2 (.leaf fst)).length = d.length := List.length_set
  have hnode₁ : ∀ q, nodeAt (d.set cur.2 (.leaf fst) ++ [.leaf snd]) q = nodeAt d q := fun q => by
    by_cases hq : q = d.length
    · rw [hq, nodeAt_length, ← hset, nodeAt_append_self]
      rfl
    · rw [nodeAt_append (hset.symm ▸ hq), nodeAt_set hget]
  have hx₁ := (hnode₁ p).trans hx
  have hnode : ∀ q, nodeAt d' q = _ := fun q => by rw [hd', nodeAt_dxInsertBlock i m d.length hx₁ q]
  have hother : ∀ q ≠ p, nodeAt d' q = nodeAt d q := fun q hq => by rw [hnode, if_neg hq, hnode₁]
  have hnew : nodeAt d' p = some { x with entries := x.entries.take (i + 1) ++ ⟨m, d.length⟩ :: x.entries.drop (i + 1) } := by
    rw [hnode, if_pos rfl]
  obtain ⟨e, he⟩ := hat.getElem? (p, i) List.mem_cons_self
  obtain ⟨l, r, hp, hi, hp'⟩ := index_insert hx hnew he hlen
  obtain ⟨hat', hblocks⟩ := hat.insert h.nodes_nodup (fun q _ hq => index_congr (hother q hq)) hp hi hp'
  refine ⟨hat'.flat_eq, hblocks, ?_, hother, hnew, ?_, ?_, fun z hz => ?_⟩
  · rw [hd']
    exact hasRoot_insert (hasRoot_append (hasRoot_set h.root hget))
  · rw [hd']
    refine getElem?_dxInsertBlock_leaf ?_
    rw [List.getElem?_append_left (by rw [hset]; exact hcur), List.getElem?_set_self hcur]
  · rw [hd']
    refine getElem?_dxInsertBlock_leaf ?_
    rw [← hset, List.getElem?_concat_length]
  · have hz' : z ∈ leaves info d := by
      rw [hcut]
      rcases List.mem_append.mp hz with hz | hz <;> simp [hz]
    obtain ⟨recs', hget', -⟩ := h.leaf z hz'
    rw [hget', hd']
    refine getElem?_dxInsertBlock_leaf ?_
    rw [List.getElem?_append_left (by rw [hset]; exact (List.getElem?_eq_some_iff.mp hget').1),
      List.getElem?_set_ne (hne z hz), hget']

/-- **A leaf cut in two**, with an entry for the second half behind its own. -/
theorem valid_insertLeaf {halves : Halves} (h : Valid sb info d)
    (hat : At (index d) (info.indirectLevels + 1) 0 0 ((p, i) :: up) bef cur aft)
    (hsplit : SplitOK sb (sb.hinfoVersion info.hashVersion) (leafAt d cur.2) halves) (hx : nodeAt d p = some x)
    (hroom : x.entries.length < x.limit) (hlen : d.length < 2 ^ 28)
    (hd' : d' = dxInsertBlock (d.set cur.2 (.leaf halves.fst) ++ [.leaf halves.snd]) (p, i)
      (halves.hash2 + halves.continued.toNat) d.length) :
    Valid sb info d' ∧ (entries info d').Perm (entries info d) ∧
      leaves info d' = bef ++ cur :: (halves.hash2 + halves.continued.toNat, d.length) :: aft ∧
      d'[cur.2]? = some (.leaf halves.fst) ∧ d'[d.length]? = some (.leaf halves.snd) := by
  obtain ⟨hleaves, hblocks, hroot, hother, hp, hfst, hsnd, hsame⟩ := insertLeaf_blocks h hat hx hlen hd'
  have hcut : leaves info d = bef ++ cur :: aft := hat.flat_eq
  have hleafAt : ∀ z ∈ bef ++ aft, leafAt d' z.2 = leafAt d z.2 := fun z hz => by
    rw [leafAt, leafAt, hsame z hz]
  have hmem : ∀ z ∈ bef ++ aft, z ∈ leaves info d := fun z hz => by
    rw [hcut]
    rcases List.mem_append.mp hz with hz | hz <;> simp [hz]
  have hmiddle : (leaves info d').Perm ((halves.hash2 + halves.continued.toNat, d.length) :: leaves info d) := by
    rw [hleaves, hcut]
    exact (List.Perm.append_left bef (List.Perm.swap _ _ _)).trans List.perm_middle
  have hfstAt := leafAt_eq hfst
  have hsndAt := leafAt_eq hsnd
  refine ⟨⟨hroot, h.version, h.flags, h.levels, ?_, ?_, hblocks ▸ h.nodes_nodup, ?_, ?_, ?_⟩, ?_, hleaves, hfst,
    hsnd⟩
  · intro q hq
    rw [hblocks] at hq
    obtain ⟨y, hy⟩ := h.node q hq
    by_cases hqp : q = p
    · subst hqp
      obtain rfl := Option.some.inj (hx.symm.trans hy.nodeAt)
      refine ⟨_, hp, by simp, ?_, hy.limit⟩
      simp only [List.length_append, List.length_cons, List.length_take, List.length_drop]
      omega
    · exact ⟨y, isNode_congr hy rfl (hother q hqp)⟩
  · intro z hz
    rw [hleaves, List.mem_append, List.mem_cons, List.mem_cons] at hz
    rcases hz with hz | rfl | rfl | hz
    · rw [hsame z (List.mem_append_left _ hz)]
      exact h.leaf z (hmem z (List.mem_append_left _ hz))
    · exact ⟨_, hfst, hsplit.fst⟩
    · exact ⟨_, hsnd, hsplit.snd⟩
    · rw [hsame z (List.mem_append_right _ hz)]
      exact h.leaf z (hmem z (List.mem_append_right _ hz))
  · rw [(hmiddle.map Prod.snd).nodup_iff, List.map_cons, List.nodup_cons]
    refine ⟨fun hm => ?_, h.leaves_nodup⟩
    obtain ⟨z, hz, hlen'⟩ := List.mem_map.mp hm
    obtain ⟨recs, hget, -⟩ := h.leaf z hz
    exact (List.getElem?_eq_some_iff.mp hget).1.ne hlen'
  · intro z hz
    rcases List.mem_cons.mp (hmiddle.mem_iff.mp hz) with rfl | hz
    · obtain ⟨w, hw⟩ := List.exists_mem_of_ne_nil _ hsplit.snd_ne
      have := hsplit.above w hw
      have := sb.dirhash_lt (sb.hinfoVersion info.hashVersion) w.name
      have := halves.continued.toNat_le
      simp only
      omega
    · exact h.bound z hz
  · rw [hleaves]
    have hhash : ∀ {half : DirBlock} {q k : ℕ}, leafAt d' q = half →
        (∀ w ∈ liveRecs half, w ∈ liveRecs (leafAt d cur.2)) →
        k ∈ hashes sb (sb.hinfoVersion info.hashVersion) d' q →
          k ∈ hashes sb (sb.hinfoVersion info.hashVersion) d cur.2 ∧
            ∃ w ∈ liveRecs half, sb.dirhash (sb.hinfoVersion info.hashVersion) w.name = k := by
      intro half q k hq hsub hk
      rw [hashes, hq] at hk
      obtain ⟨w, hw, rfl⟩ := List.mem_map.mp hk
      exact ⟨List.mem_map.mpr ⟨w, hsub w hw, rfl⟩, w, hw, rfl⟩
    refine Routed.split (hcut ▸ h.routed) (fun z hz => ?_) (fun k hk => ?_) (fun k hk => ?_) ?_ ?_
    · rw [hashes, hashes, hleafAt z hz]
    · obtain ⟨hold, w, hw, rfl⟩ := hhash hfstAt
        (fun w hw => hsplit.perm.mem_iff.mp (List.mem_append_left _ hw)) hk
      exact ⟨hold, hsplit.below w hw⟩
    · obtain ⟨hold, w, hw, rfl⟩ := hhash hsndAt
        (fun w hw => hsplit.perm.mem_iff.mp (List.mem_append_right _ hw)) hk
      have := hsplit.above w hw
      have := halves.continued.toNat_le
      exact ⟨hold, by omega⟩
    · rw [hashes, hfstAt]
      exact fun h0 => hsplit.fst_ne (List.map_eq_nil_iff.mp h0)
    · rw [hashes, hsndAt]
      exact fun h0 => hsplit.snd_ne (List.map_eq_nil_iff.mp h0)
  · rw [entries_cut hleaves, entries_cut hcut, hfstAt, List.flatMap_cons, hsndAt, ← List.append_assoc (liveRecs _)]
    refine List.Perm.append (List.Perm.of_eq ?_) (hsplit.perm.append (List.Perm.of_eq ?_))
    · exact List.flatMap_congr fun z hz => by rw [hleafAt z (List.mem_append_left _ hz)]
    · exact List.flatMap_congr fun z hz => by rw [hleafAt z (List.mem_append_right _ hz)]

end LinuxEvfs.Htree.Change
