import LinuxEvfs.Htree.Change

/-! # Splits of the index

`ext4_dx_add_entry` where the deepest index block is full: up to the first block with room, whose last full block below
is cut in two, or a level put in below the root where every block is full.

* `cutIndex_spec`, `growIndex_spec`: the leaves stay as they are, and neither half is full.
* `splitFull_spec`: the directory stays valid whatever fails; where the function starts again, fewer blocks at the end of
  the path are full. -/

namespace LinuxEvfs.Htree.Grow

open LinuxEvfs.Errno LinuxEvfs.Lib.PagedIndex LinuxEvfs.Namespace.Dir LinuxEvfs.Htree.Model LinuxEvfs.Htree.Leaves
open LinuxEvfs.Htree.Index LinuxEvfs.Htree.Change
open LinuxEvfs.Namespace.Entries (Call)

variable {sb : DxSb} {info : DxRootInfo} {d d' : List DxBlock} {x z : DxNode} {recs : DirBlock}
variable {b p q i j : ℕ} {path deep up : Path ℕ} {bef aft : List (ℕ × ℕ)} {cur : ℕ × ℕ} {frame : ℕ × ℕ}

/-! ### Limits -/

theorem dxNodeLimit_ge (hsb : Usual sb) : 100 ≤ sb.dxNodeLimit := by
  have := hsb.blocksize
  unfold DxSb.dxNodeLimit ext4DirRecLen
  split_ifs <;> omega

theorem dxRootLimit_lt (hsb : Usual sb) (n : ℕ) : sb.dxRootLimit n < sb.dxNodeLimit := by
  have := hsb.blocksize
  unfold DxSb.dxRootLimit DxSb.dxNodeLimit ext4DirRecLen
  split_ifs <;> omega

theorem full_eq (h : nodeAt d frame.1 = some x) : full d frame = decide (x.limit ≤ x.entries.length) := by
  rw [full, h]
  rfl

/-! ### A block cut in two -/

/-- What the cut of the block `p` below `q` does to every block. -/
theorem cutIndex_blocks {m : ℕ} (hp : nodeAt d p = some x) (hq : nodeAt d q = some z) (hpq : p ≠ q)
    (hm : x.entries.length / 2 = m) (hd' : d' = cutIndex sb d (p, i) (q, j)) :
    nodeAt d' p = some { x with entries := x.entries.take m } ∧
      nodeAt d' d.length = some ⟨sb.dxNodeLimit, x.entries.drop m⟩ ∧
      nodeAt d' q = some { z with entries := z.entries.take (j + 1) ++
        ⟨(x.entries[m]?).elim 0 DxEntry.hash, d.length⟩ :: z.entries.drop (j + 1) } ∧
      (∀ c, c ≠ p → c ≠ q → c ≠ d.length → nodeAt d' c = nodeAt d c) ∧ d'.length = d.length + 1 := by
  have hlp := lt_of_nodeAt hp
  have hlq := lt_of_nodeAt hq
  set d₀ := d.modify p (DxBlock.setNode { x with entries := x.entries.take m }) with hd₀
  have hlen₀ : d₀.length = d.length := List.length_modify _ _ _
  have hnode₀ : ∀ c, nodeAt d₀ c = if c = p then some { x with entries := x.entries.take m } else nodeAt d c :=
    nodeAt_modify hp
  set d₁ := d₀ ++ [.node ⟨sb.dxNodeLimit, x.entries.drop m⟩] with hd₁
  have hnode₁ : ∀ c, c ≠ d.length → nodeAt d₁ c = nodeAt d₀ c := fun c hc => nodeAt_append (hlen₀.symm ▸ hc)
  have hq₁ : nodeAt d₁ q = some z := by rw [hnode₁ q hlq.ne, hnode₀, if_neg hpq.symm, hq]
  have hcut : d' = dxInsertBlock d₁ (q, j) ((x.entries[m]?).elim 0 DxEntry.hash) d.length := by
    rw [hd', cutIndex]
    simp only [hp, hm]
    rfl
  have hnode : ∀ c, nodeAt d' c = _ := fun c => by rw [hcut, nodeAt_dxInsertBlock _ _ _ hq₁ c]
  refine ⟨?_, ?_, by rw [hnode, if_pos rfl], fun c hcp hcq hcl => ?_, ?_⟩
  · rw [hnode, if_neg hpq, hnode₁ p hlp.ne, hnode₀, if_pos rfl]
  · rw [hnode, if_neg hlq.ne', ← hlen₀, nodeAt_append_self]
    rfl
  · rw [hnode, if_neg hcq, hnode₁ c hcl, hnode₀, if_neg hcp]
  · rw [hcut, length_dxInsertBlock, List.length_append, hlen₀]
    rfl

/-- The leaves and the root are as before. -/
theorem cutIndex_leaf {above : ℕ × ℕ} (hb : d[b]? = some (.leaf recs)) :
    (cutIndex sb d frame above)[b]? = some (.leaf recs) := by
  rw [cutIndex]
  cases hn : nodeAt d frame.1 with
  | none => exact hb
  | some x =>
    refine getElem?_dxInsertBlock_leaf ?_
    have hget := getElem?_modify_leaf frame.1 { x with entries := x.entries.take (x.entries.length / 2) } hb
    rw [List.getElem?_append_left (List.getElem?_eq_some_iff.mp hget).1, hget]

theorem cutIndex_root {above : ℕ × ℕ} (h : HasRoot info d) : HasRoot info (cutIndex sb d frame above) := by
  rw [cutIndex]
  cases hn : nodeAt d frame.1 with
  | none => exact h
  | some x => exact hasRoot_insert (hasRoot_append (hasRoot_modify h))

/-- A block of the path that has another one above it. -/
theorem ne_of_above (h : Valid sb info d)
    (hat : At (index d) (info.indirectLevels + 1) 0 0 (deep ++ (p, i) :: (q, j) :: up) bef cur aft) :
    p ≠ q ∧ p ≠ 0 := by
  have hnd := hat.nodup h.nodes_nodup
  obtain ⟨front, k, hlast⟩ := hat.getLast
  rw [List.map_append, List.nodup_append] at hnd
  have hp := (List.nodup_cons.mp hnd.2.1).1
  have hroot : (0, k) ∈ (q, j) :: up := by
    have hl := congrArg List.getLast? hlast
    rw [List.getLast?_append_cons, List.getLast?_cons_cons, List.getLast?_concat] at hl
    exact List.mem_of_getLast? hl
  refine ⟨fun h0 => hp ?_, fun h0 => hp ?_⟩
  · simp [h0]
  · rw [h0]
    exact List.mem_map.mpr ⟨(0, k), hroot, rfl⟩

/-- **A block cut in two** below one with room leaves the leaves as they are, and neither half is full. -/
theorem cutIndex_spec {m : ℕ} (hsb : Usual sb) (h : Valid sb info d)
    (hat : At (index d) (info.indirectLevels + 1) 0 0 (deep ++ (p, i) :: (q, j) :: up) bef cur aft)
    (hfull : full d (p, i) = true) (hroom : full d (q, j) = false) (hlen : d.length < 2 ^ 28)
    (hm : (index d p).length / 2 = m) (hd' : d' = cutIndex sb d (p, i) (q, j)) :
    Reindexed sb info d info d' ∧ d'.length = d.length + 1 ∧
      At (index d') (info.indirectLevels + 1) 0 0 (cutPath deep up p q d.length m i j) bef cur aft ∧
      ∀ k, full d' (p, k) = false ∧ full d' (d.length, k) = false := by
  obtain ⟨hpq, hp0⟩ := ne_of_above h hat
  have hmemp := hat.mem_nodes (p, i) (by simp)
  have hmemq := hat.mem_nodes (q, j) (by simp)
  obtain ⟨x, hx⟩ := h.node p hmemp
  obtain ⟨z, hz⟩ := h.node q hmemq
  rw [index_eq hx.nodeAt, List.length_map] at hm
  obtain ⟨hp', hnb', hq', hother, hlen'⟩ := cutIndex_blocks hx.nodeAt hz.nodeAt hpq hm hd'
  -- the block is full, so it has as many entries as an index block below the root can have
  have hlimit : x.limit = sb.dxNodeLimit := by rw [hx.limit, if_neg hp0]
  have hcount : x.entries.length = sb.dxNodeLimit := by
    rw [full_eq hx.nodeAt, decide_eq_true_eq] at hfull
    have := hx.count
    omega
  have hlarge := dxNodeLimit_ge hsb
  have hmlt : m < x.entries.length := by omega
  have hzroom : z.entries.length < z.limit := by
    rw [full_eq hz.nodeAt, decide_eq_false_iff_not] at hroom
    omega
  have hkey : (x.entries[m]?).elim 0 DxEntry.hash = x.entries[m].hash := by
    rw [List.getElem?_eq_getElem hmlt]
    rfl
  rw [hkey] at hq'
  have hhalved : Halved (index d) (index d') p d.length m x.entries[m].hash := by
    refine ⟨dxGetBlock x.entries[m], (index d p).take m, (index d p).drop (m + 1), ?_, ?_, ?_, ?_, ?_⟩
    · rw [index_eq hx.nodeAt]
      exact List.ne_nil_of_length_pos (by rw [List.length_take, List.length_map]; omega)
    · rw [index_eq hx.nodeAt, List.length_take, List.length_map]
      omega
    · have hget : m < (index d p).length := by rw [index_eq hx.nodeAt, List.length_map]; exact hmlt
      have hentry : (index d p)[m] = (x.entries[m].hash, dxGetBlock x.entries[m]) := by
        simp only [index_eq hx.nodeAt, List.getElem_map]
      rw [← hentry, ← List.drop_eq_getElem_cons hget, List.take_append_drop]
    · rw [index_eq hp', index_eq hx.nodeAt, List.map_take]
    · rw [index_eq hnb', index_eq hx.nodeAt, ← List.map_drop, List.drop_eq_getElem_cons hmlt, List.map_cons]
  have hlinked : Linked (index d) (index d') q d.length j x.entries[m].hash := by
    obtain ⟨e, he⟩ := hat.getElem? (q, j) (by simp)
    obtain ⟨l, r, hl, hj, hr⟩ := index_insert hz.nodeAt hq' he hlen
    exact ⟨e, l, r, hl, hj, hr⟩
  have hlt : ∀ c ∈ indexBlocks info d, c ≠ d.length := fun c hc => by
    obtain ⟨y, hy⟩ := h.node c hc
    exact (lt_of_nodeAt hy.nodeAt).ne
  obtain ⟨hat', hperm⟩ := hat.split h.nodes_nodup
    (fun c hc hcp hcq => index_congr (hother c hcp hcq (hlt c hc))) hhalved hlinked
  refine ⟨valid_reindex h (hd' ▸ cutIndex_root h.root) rfl rfl h.levels (fun c hc => ?_) ?_ ?_ ?_, hlen', hat',
    fun k => ⟨?_, ?_⟩⟩
  · rcases List.mem_cons.mp (hperm.mem_iff.mp hc) with rfl | hc
    · refine ⟨_, hnb', ?_, ?_, ?_⟩
      · exact List.ne_nil_of_length_pos (by rw [List.length_drop]; omega)
      · simp only [List.length_drop]
        omega
      · rw [if_neg]
        exact fun h0 => hlt 0 List.mem_cons_self h0.symm
    · by_cases hcp : c = p
      · subst hcp
        refine ⟨_, hp', ?_, ?_, hx.limit⟩
        · exact List.ne_nil_of_length_pos (by rw [List.length_take]; omega)
        · simp only [List.length_take]
          omega
      · by_cases hcq : c = q
        · subst hcq
          refine ⟨_, hq', by simp, ?_, hz.limit⟩
          simp only [List.length_append, List.length_cons, List.length_take, List.length_drop]
          omega
        · obtain ⟨y, hy⟩ := h.node c hc
          exact ⟨y, isNode_congr hy rfl (hother c hcp hcq (hlt c hc))⟩
  · rw [indexBlocks, hperm.nodup_iff, List.nodup_cons]
    exact ⟨fun hc => hlt _ hc rfl, h.nodes_nodup⟩
  · exact hat'.flat_eq.trans hat.flat_eq.symm
  · intro y hy
    obtain ⟨recs, hget, -⟩ := h.leaf y hy
    rw [hget, hd']
    exact cutIndex_leaf hget
  · rw [full_eq hp', decide_eq_false_iff_not]
    simp only [List.length_take]
    omega
  · rw [full_eq hnb', decide_eq_false_iff_not]
    simp only [List.length_drop]
    omega

/-! ### A new level -/

/-- What a new level does to every block. -/
theorem growIndex_blocks (h : HasRoot info d) (hx : nodeAt d 0 = some x) (hd' : d' = growIndex sb d) :
    HasRoot { info with indirectLevels := info.indirectLevels + 1 } d' ∧
      nodeAt d' 0 = some { x with entries := [⟨(x.entries.headD ⟨0, 0⟩).hash, d.length⟩] } ∧
      nodeAt d' d.length = some ⟨sb.dxNodeLimit, x.entries⟩ ∧
      (∀ c, c ≠ 0 → c ≠ d.length → nodeAt d' c = nodeAt d c) ∧
      (∀ b, b ≠ 0 → b < d.length → d'[b]? = d[b]?) ∧ d'.length = d.length + 1 := by
  obtain ⟨dot, dotdot, x', hroot, hdots⟩ := h
  cases d with
  | nil => cases hroot
  | cons block rest =>
    obtain rfl : block = .root dot dotdot info x' := Option.some.inj hroot
    obtain rfl : x' = x := Option.some.inj hx
    have hget : ∀ b, b ≠ 0 → b < rest.length + 1 → d'[b]? = (DxBlock.root dot dotdot info x' :: rest)[b]? := by
      intro b h0 hb
      obtain ⟨c, rfl⟩ := Nat.exists_eq_succ_of_ne_zero h0
      rw [hd', growIndex, List.cons_append, List.getElem?_cons_succ, List.getElem?_cons_succ,
        List.getElem?_append_left (by omega)]
    refine ⟨⟨dot, dotdot, _, by rw [hd']; rfl, hdots⟩, by rw [hd']; rfl, ?_, fun c h0 hc => ?_, hget, by rw [hd']; simp [growIndex]⟩
    · rw [hd', growIndex]
      exact nodeAt_append_self
    · rcases Nat.lt_or_gt_of_ne hc with hc | hc
      · rw [nodeAt, nodeAt, hget c h0 hc]
      · rw [nodeAt, nodeAt, List.getElem?_eq_none hc.le, List.getElem?_eq_none]
        rw [hd', growIndex]
        simp only [List.length_cons, List.cons_append, List.length_append, List.length_nil] at hc ⊢
        omega

/-- **A new level** below the root leaves the leaves as they are, and the new block is not full. -/
theorem growIndex_spec (hsb : Usual sb) (h : Valid sb info d)
    (hat : At (index d) (info.indirectLevels + 1) 0 0 (deep ++ [(0, i)]) bef cur aft) (hlen : d.length < 2 ^ 28)
    (hlevels : info.indirectLevels + 1 < sb.htreeLevel) (hd' : d' = growIndex sb d) :
    Reindexed sb info d { info with indirectLevels := info.indirectLevels + 1 } d' ∧ d'.length = d.length + 1 ∧
      At (index d') (info.indirectLevels + 2) 0 0 (deep ++ [(d.length, i), (0, 0)]) bef cur aft ∧
      ∀ k, full d' (d.length, k) = false := by
  have hmem : 0 ∈ indexBlocks info d := List.mem_cons_self
  obtain ⟨x, hx⟩ := h.node 0 hmem
  obtain ⟨hroot, h0', hnb', hother, hget, hlen'⟩ := growIndex_blocks h.root hx.nodeAt hd'
  have hcount := hx.count
  have hlimit : x.limit = sb.dxRootLimit info.infoLength := by rw [hx.limit, if_pos rfl]
  have hless := dxRootLimit_lt hsb info.infoLength
  have hpos := List.length_pos_iff.mpr hx.ne_nil
  have hlt : ∀ c ∈ indexBlocks info d, c ≠ d.length := fun c hc => by
    obtain ⟨y, hy⟩ := h.node c hc
    exact (lt_of_nodeAt hy.nodeAt).ne
  have hroot' : index d' 0 = [((x.entries.headD ⟨0, 0⟩).hash, d.length)] := by
    rw [index_eq h0', List.map_singleton]
    have hblock : dxGetBlock ⟨(x.entries.headD ⟨0, 0⟩).hash, d.length⟩ = d.length := Nat.mod_eq_of_lt hlen
    rw [hblock]
  obtain ⟨hat', hperm⟩ := hat.grow h.nodes_nodup (fun c hc hc0 => index_congr (hother c hc0 (hlt c hc))) hroot'
    ((index_eq hnb').trans (index_eq hx.nodeAt).symm)
  refine ⟨valid_reindex h hroot rfl rfl hlevels (fun c hc => ?_) ?_ (hat'.flat_eq.trans hat.flat_eq.symm) ?_, hlen', hat',
    fun k => ?_⟩
  · rcases List.mem_cons.mp (hperm.mem_iff.mp hc) with rfl | hc
    · refine ⟨_, hnb', hx.ne_nil, by simp only; omega, ?_⟩
      rw [if_neg]
      exact fun h0 => hlt 0 hmem h0.symm
    · by_cases hc0 : c = 0
      · subst hc0
        refine ⟨_, h0', by simp, ?_, hx.limit⟩
        simp only [List.length_singleton]
        omega
      · obtain ⟨y, hy⟩ := h.node c hc
        exact ⟨y, isNode_congr hy rfl (hother c hc0 (hlt c hc))⟩
  · rw [indexBlocks, hperm.nodup_iff, List.nodup_cons]
    exact ⟨fun hc => hlt _ hc rfl, h.nodes_nodup⟩
  · intro y hy
    obtain ⟨recs, hleaf, -⟩ := h.leaf y hy
    refine hget y.2 (fun h0 => ?_) (List.getElem?_eq_some_iff.mp hleaf).1
    have hroot := hx.nodeAt
    rw [nodeAt_leaf (h0 ▸ hleaf)] at hroot
    cases hroot
  · rw [full_eq hnb', decide_eq_false_iff_not]
    simp only
    omega

/-! ### `ext4_dx_add_entry` where the deepest index block is full -/

/-- How many blocks at the end of a path are full. -/
def fullRun (d : List DxBlock) (path : Path ℕ) : ℕ := (path.takeWhile (full d)).length

theorem fullRun_le_of_not_full (h : full d frame = false) : fullRun d (deep ++ frame :: up) ≤ deep.length := by
  rw [fullRun]
  induction deep with
  | nil => simp [h]
  | cons f deep ih =>
    rw [List.cons_append, List.takeWhile_cons]
    split_ifs
    · simpa using ih
    · exact Nat.zero_le _

theorem lt_fullRun_of_full (hdeep : ∀ f ∈ deep, full d f = true) (h : full d frame = true) :
    deep.length < fullRun d (deep ++ frame :: up) := by
  rw [fullRun, List.takeWhile_append_of_pos hdeep, List.takeWhile_cons_of_pos h]
  simp

/-- The climb over full blocks. -/
theorem climbFull_spec : ∀ (up : Path ℕ) {frame : ℕ × ℕ} (restart : Bool), full d frame = true →
    ∃ deep frame' above, climbFull d frame up restart = (frame', above, restart || !deep.isEmpty) ∧
      frame :: up = deep ++ frame' :: above ∧ (∀ f ∈ deep, full d f = true) ∧ full d frame' = true ∧
      ∀ q rest, above = q :: rest → full d q = false
  | [], frame, restart, hfull => ⟨[], frame, [], by simp [climbFull], rfl, by simp, hfull, by simp⟩
  | p :: up, frame, restart, hfull => by
    rw [climbFull]
    cases hp : full d p with
    | false =>
      refine ⟨[], frame, p :: up, by simp, rfl, by simp, hfull, fun q rest hq => ?_⟩
      obtain ⟨rfl, -⟩ := List.cons.inj hq
      exact hp
    | true =>
      obtain ⟨deep, frame', above, hc, heq, hdeep, hframe, habove⟩ := climbFull_spec up true hp
      refine ⟨frame :: deep, frame', above, ?_, by rw [heq]; rfl, ?_, hframe, habove⟩
      · simp [hc]
      · intro f hf
        rcases List.mem_cons.mp hf with rfl | hf
        · exact hfull
        · exact hdeep f hf

/-- The errors that an addition can return: those of the calls, an entry that is there, and no room. -/
def Known (env : DxEnv) (err : Errno) : Prop :=
  err = EEXIST ∨ err = ENOSPC ∨ (∃ c, env.calls c = some err) ∨ (∃ b, env.read b = some err) ∨
    env.indexAppend = some err ∨ env.indexAccess = some err ∨ env.indexDirty = some err

theorem known_call {env : DxEnv} {err : Errno} (c : Call) (h : env.calls c = some err) : Known env err :=
  .inr (.inr (.inl ⟨c, h⟩))

theorem known_read {env : DxEnv} {err : Errno} (b : ℕ) (h : env.read b = some err) : Known env err :=
  .inr (.inr (.inr (.inl ⟨b, h⟩)))

theorem known_index {env : DxEnv} {err : Errno}
    (h : env.indexAppend = some err ∨ env.indexAccess = some err ∨ env.indexDirty = some err) : Known env err :=
  .inr (.inr (.inr (.inr h)))

/-- What the split of the index leaves behind, with the path to the leaf `cur`. -/
def IndexOK (sb : DxSb) (env : DxEnv) (info : DxRootInfo) (d : List DxBlock) (path : Path ℕ) (bef : List (ℕ × ℕ)) (cur : ℕ × ℕ)
    (aft : List (ℕ × ℕ)) : IndexEnd → Prop
  | .done d' r => (∃ err, r = some err ∧ Known env err) ∧ d'.length ≤ d.length + 1 ∧ ∃ info', Reindexed sb info d info' d'
  | .again d' => ∃ info' path', Reindexed sb info d info' d' ∧ d'.length = d.length + 1 ∧
      At (index d') (info'.indirectLevels + 1) 0 0 path' bef cur aft ∧ fullRun d' path' < fullRun d path
  | .split d' frame => ∃ up, Reindexed sb info d info d' ∧ d'.length = d.length + 1 ∧
      At (index d') (info.indirectLevels + 1) 0 0 (frame :: up) bef cur aft ∧ full d' frame = false

/-- A path behind a cut begins with as many blocks, and goes on with one that is not full. -/
theorem cutPath_cases {m : ℕ} (hhalf : ∀ k, full d' (p, k) = false ∧ full d' (b, k) = false) :
    ∃ frame up', cutPath deep up p q b m i j = deep ++ frame :: up' ∧ full d' frame = false ∧
      frame = if m ≤ i then (b, i - m) else (p, i) := by
  rw [cutPath]
  by_cases hi : i < m
  · rw [if_pos hi, if_neg (by omega)]
    exact ⟨_, _, rfl, (hhalf i).1, rfl⟩
  · rw [if_neg hi, if_pos (by omega)]
    exact ⟨_, _, rfl, (hhalf (i - m)).2, rfl⟩

/-- **The split of the index**: the leaves stay as they are, whatever fails. -/
theorem splitFull_spec (env : DxEnv) (hsb : Usual sb) (h : Valid sb info d)
    (hat : At (index d) (info.indirectLevels + 1) 0 0 (frame :: up) bef cur aft) (hfull : full d frame = true)
    (hlen : d.length < 2 ^ 28) : IndexOK sb env info d (frame :: up) bef cur aft (splitFull sb env d frame up) := by
  have hlevels : up.length + 1 = info.indirectLevels + 1 := hat.length
  obtain ⟨deep, ⟨p, i⟩, above, hclimb, hpath, hdeep, hframe, habove⟩ := climbFull_spec up false hfull
  rw [hpath] at hat ⊢
  rw [splitFull]
  simp only [hclimb]
  cases above with
  | nil =>
    simp only
    by_cases hmax : up.length + 1 = sb.htreeLevel
    · rw [if_pos hmax]
      exact ⟨⟨_, rfl, .inr (.inl rfl)⟩, Nat.le_succ _, info, valid_refl h⟩
    · rw [if_neg hmax]
      cases henv : env.indexAppend with
      | some err => exact ⟨⟨err, rfl, known_index (.inl henv)⟩, Nat.le_succ _, info, valid_refl h⟩
      | none =>
        cases henv' : env.indexAccess with
        | some err => exact ⟨⟨err, rfl, known_index (.inr (.inl henv'))⟩, by simp, info, valid_append h _⟩
        | none =>
          obtain ⟨front, k, hlast⟩ := hat.getLast
          obtain ⟨rfl, heq⟩ := List.append_inj' hlast rfl
          obtain ⟨rfl, rfl⟩ := Prod.mk.inj (List.cons.inj heq).1
          have hmore : info.indirectLevels + 1 < sb.htreeLevel := by
            have := h.levels
            omega
          obtain ⟨hre, hlen', hat', hnot⟩ := growIndex_spec hsb h hat hlen hmore rfl
          cases hdirty : env.indexDirty with
          | some err => exact ⟨⟨err, rfl, known_index (.inr (.inr hdirty))⟩, hlen'.le, _, hre⟩
          | none =>
            refine ⟨_, _, hre, hlen', hat', ?_⟩
            exact (fullRun_le_of_not_full (hnot i)).trans_lt (lt_fullRun_of_full hdeep hframe)
  | cons above rest =>
    obtain ⟨q, j⟩ := above
    simp only
    cases henv : env.indexAppend with
    | some err => exact ⟨⟨err, rfl, known_index (.inl henv)⟩, Nat.le_succ _, info, valid_refl h⟩
    | none =>
      cases henv' : env.indexAccess with
      | some err => exact ⟨⟨err, rfl, known_index (.inr (.inl henv'))⟩, by simp, info, valid_append h _⟩
      | none =>
        obtain ⟨hre, hlen', hat', hhalf⟩ := cutIndex_spec hsb h hat hframe (habove _ _ rfl) hlen rfl rfl
        obtain ⟨frame', up', hcut, hnot, hframe'⟩ := cutPath_cases hhalf
        rw [hcut] at hat'
        cases hdirty : env.indexDirty with
        | some err => exact ⟨⟨err, rfl, known_index (.inr (.inr hdirty))⟩, hlen'.le, info, hre⟩
        | none =>
          cases deep with
          | nil =>
            rw [← hframe']
            exact ⟨up', hre, hlen', hat', hnot⟩
          | cons f deep =>
            refine ⟨info, _, hre, hlen', hat', ?_⟩
            exact (fullRun_le_of_not_full hnot).trans_lt (lt_fullRun_of_full hdeep hframe)

end LinuxEvfs.Htree.Grow
