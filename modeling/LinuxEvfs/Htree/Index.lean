import LinuxEvfs.Htree.Leaves
import LinuxEvfs.Lib.Routing

/-! # Searching an index

What a directory with an index looks like (`Valid`), and the search in it.

* `dxProbe_spec`: `dx_probe` takes the path to the last leaf whose bound is not above the hash.
* `nextBlock_spec`: `ext4_htree_next_block` goes on to the next leaf, or stops where that does not go on with the hash.
* `dxFindEntry_spec`: `ext4_dx_find_entry` finds a name if and only if a leaf has it. -/

namespace LinuxEvfs.Htree.Index

open LinuxEvfs.Errno LinuxEvfs.Lib.BinSearch LinuxEvfs.Lib.PagedIndex LinuxEvfs.Lib.Routing
open LinuxEvfs.Namespace.Dir LinuxEvfs.Htree.Model LinuxEvfs.Htree.Leaves

/-! ### Directories -/

/-- The leaves in the order of the index, with their bounds. -/
def leaves (info : DxRootInfo) (d : List DxBlock) : List (ℕ × ℕ) := flat (index d) (info.indirectLevels + 1) 0 0

/-- The index blocks. -/
def indexBlocks (info : DxRootInfo) (d : List DxBlock) : List ℕ := nodes (index d) (info.indirectLevels + 1) 0

/-- The hashes of the names in the leaf number `b`. -/
def hashes (sb : DxSb) (version : ℕ) (d : List DxBlock) (b : ℕ) : List ℕ :=
  (liveRecs (leafAt d b)).map fun x => sb.dirhash version x.name

/-- The live records of a directory. -/
def entries (info : DxRootInfo) (d : List DxBlock) : List DirEntry :=
  (leaves info d).flatMap fun x => liveRecs (leafAt d x.2)

/-- An index block with the entries `x`. -/
structure IsNode (sb : DxSb) (info : DxRootInfo) (d : List DxBlock) (b : ℕ) (x : DxNode) : Prop where
  nodeAt : nodeAt d b = some x
  ne_nil : x.entries ≠ []
  count : x.entries.length ≤ x.limit
  limit : x.limit = if b = 0 then sb.dxRootLimit info.infoLength else sb.dxNodeLimit

/-- Block 0 is a root with the header `info`, and begins with `.` and `..`. -/
def HasRoot (info : DxRootInfo) (d : List DxBlock) : Prop :=
  ∃ dot dotdot x, d[(0 : ℕ)]? = some (.root dot dotdot info x) ∧ dot.name = [46] ∧ dotdot.name = [46, 46]

/-- The blocks `d` are an index with the root `info` and its leaves. Blocks that the index does not lead to may be
anything. -/
structure Valid (sb : DxSb) (info : DxRootInfo) (d : List DxBlock) : Prop where
  root : HasRoot info d
  version : info.hashVersion ≤ DX_HASH_TEA
  flags : info.unusedFlags % 2 = 0
  levels : info.indirectLevels < sb.htreeLevel
  node : ∀ b ∈ indexBlocks info d, ∃ x, IsNode sb info d b x
  leaf : ∀ x ∈ leaves info d, ∃ recs, d[x.2]? = some (.leaf recs) ∧ IsLeaf sb recs
  nodes_nodup : (indexBlocks info d).Nodup
  leaves_nodup : ((leaves info d).map Prod.snd).Nodup
  bound : ∀ x ∈ leaves info d, x.1 < 2 ^ 32 - 1
  routed : Routed (hashes sb (sb.hinfoVersion info.hashVersion) d) (leaves info d)

variable {sb : DxSb} {env : DxEnv} {info : DxRootInfo} {d : List DxBlock} {x : DxNode} {recs : DirBlock}
variable {b i n lo hash : ℕ} {path up : Path ℕ} {bef aft : List (ℕ × ℕ)} {cur : ℕ × ℕ} {name : Name}

theorem index_eq (h : nodeAt d b = some x) : index d b = x.entries.map fun e => (e.hash, dxGetBlock e) := by
  rw [index, h]
  rfl

theorem leafAt_eq (h : d[b]? = some (.leaf recs)) : leafAt d b = recs := by
  rw [leafAt, h]

theorem nodeAt_leaf (h : d[b]? = some (.leaf recs)) : nodeAt d b = none := by
  rw [nodeAt, h]
  rfl

theorem getElem?_of_nodeAt (h : nodeAt d b = some x) : ∃ block, d[b]? = some block ∧ block.node? = some x :=
  Option.bind_eq_some_iff.mp h

theorem IsNode.index_ne (h : IsNode sb info d b x) : index d b ≠ [] := by
  rw [index_eq h.nodeAt]
  exact fun h0 => h.ne_nil (List.map_eq_nil_iff.mp h0)

theorem Valid.filled (h : Valid sb info d) : Filled (index d) (info.indirectLevels + 1) 0 := fun q hq => by
  obtain ⟨x, hx⟩ := h.node q hq
  exact hx.index_ne

theorem Valid.isLeaf (h : Valid sb info d) {y : ℕ × ℕ} (hy : y ∈ leaves info d) : IsLeaf sb (leafAt d y.2) := by
  obtain ⟨recs, hget, hleaf⟩ := h.leaf y hy
  rwa [leafAt_eq hget]

theorem Valid.length_leaves_le (h : Valid sb info d) : (leaves info d).length ≤ d.length := by
  have hsub : (leaves info d).map Prod.snd ⊆ List.range d.length := fun b hb => by
    obtain ⟨y, hy, rfl⟩ := List.mem_map.mp hb
    obtain ⟨recs, hget, -⟩ := h.leaf y hy
    exact List.mem_range.mpr (List.getElem?_eq_some_iff.mp hget).1
  have := (List.subperm_of_subset h.leaves_nodup hsub).length_le
  rwa [List.length_map, List.length_range] at this

/-! ### Errors of reads -/

/-- The result is one with the property, unless a block could not be read. -/
def OrRead {α : Type} (env : DxEnv) (r : Except Errno α) (P : α → Prop) : Prop :=
  (∃ a, r = .ok a ∧ P a) ∨ ∃ b err, env.read b = some err ∧ r = .error err

theorem OrRead.map {α β : Type} {r : Except Errno α} {P : α → Prop} {Q : β → Prop} {f : α → β} (h : OrRead env r P)
    (hf : ∀ a, P a → Q (f a)) : OrRead env (r.map f) Q := by
  rcases h with ⟨a, rfl, ha⟩ | ⟨b, err, hb, rfl⟩
  · exact .inl ⟨f a, rfl, hf a ha⟩
  · exact .inr ⟨b, err, hb, rfl⟩

theorem readIndex_spec (env : DxEnv) (h : nodeAt d b = some x) : OrRead env (readIndex env d b) (· = x) := by
  obtain ⟨block, hget, hnode⟩ := getElem?_of_nodeAt h
  rw [readIndex, hget]
  cases hr : env.read b with
  | some err => exact .inr ⟨b, err, hr, rfl⟩
  | none => exact .inl ⟨x, by simp only [hnode, Option.elim_some], rfl⟩

theorem readLeaf_spec (env : DxEnv) (hsb : Usual sb) (h : d[b]? = some (.leaf recs)) (hleaf : IsLeaf sb recs) :
    OrRead env (readLeaf env d b) (· = recs) := by
  rw [readLeaf, h]
  cases hr : env.read b with
  | some err => exact .inr ⟨b, err, hr, rfl⟩
  | none => exact .inl ⟨recs, if_neg (hleaf.ne_nil hsb), rfl⟩

/-! ### `dx_probe` -/

theorem lastLe_index (h : nodeAt d b = some x) (hash : ℕ) :
    lastLe DxEntry.hash hash x.entries = lastLe Prod.fst hash (index d b) := by
  rw [index_eq h, lastLe, lastLe, List.length_map]
  refine bsearch_congr (fun j _ => ?_) _ _ _ le_rfl
  rw [List.getElem?_map, Option.map_map]
  rfl

/-- **The loop of `dx_probe`** takes the path of the search. The blocks passed are index blocks that are not met again,
and the leaf is none of them. -/
theorem probeLoop_spec : ∀ {n lo b : ℕ} {blocks : List ℕ} {up : Path ℕ} {x : DxNode} {bef aft : List (ℕ × ℕ)},
    At (index d) (n + 1) lo b (probe (index d) hash (n + 1) b) bef cur aft → nodeAt d cur.2 = none →
    IsNode sb info d b x → (∀ q ∈ nodes (index d) (n + 1) b, ∃ x, IsNode sb info d q x) →
    (nodes (index d) (n + 1) b).Nodup → 0 ∈ blocks →
    (∀ q ∈ blocks, nodeAt d q ≠ none ∧ q ∉ nodesAll (index d) n (index d b)) →
      OrRead env (probeLoop sb env d hash n blocks up b x)
        fun r => r.1 :: r.2 = probe (index d) hash (n + 1) b ++ up := by
  intro n
  induction n with
  | zero =>
    intro lo b blocks up x bef aft hat hcur hx hnodes hnd h0 hblocks
    obtain ⟨l, e, r, k, bef', aft', hb, hlast, hk, hpath, hat'⟩ := hat.probe_cases
    cases hat'
    have hlast' := (lastLe_index hx.nodeAt hash).trans hlast
    rw [index_eq hx.nodeAt, List.getElem?_map] at hk
    obtain ⟨y, hy, hye⟩ := Option.map_eq_some_iff.mp hk
    have hblock : dxGetBlock y = e.2 := (Prod.mk.inj hye).2
    have hmem : e.2 ∉ blocks := fun hm => (hblocks _ hm).1 hcur
    refine .inl ⟨((b, l.length), up), ?_, by rw [hpath]; rfl⟩
    unfold probeLoop
    rw [if_neg (not_or.mpr ⟨hx.ne_nil, Nat.not_lt.mpr hx.count⟩), hlast']
    simp only [hy, Option.elim_some, hblock, if_neg hmem]
  | succ n ih =>
    intro lo b blocks up x bef aft hat hcur hx hnodes hnd h0 hblocks
    obtain ⟨l, e, r, k, bef', aft', hb, hlast, hk, hpath, hat'⟩ := hat.probe_cases
    have hlast' := (lastLe_index hx.nodeAt hash).trans hlast
    rw [index_eq hx.nodeAt, List.getElem?_map] at hk
    obtain ⟨y, hy, hye⟩ := Option.map_eq_some_iff.mp hk
    have hblock : dxGetBlock y = e.2 := (Prod.mk.inj hye).2
    have hbelow : ∀ q ∈ nodes (index d) (n + 1) e.2, q ∈ nodesAll (index d) (n + 1) (index d b) := fun q hq => by
      rw [← nodesAll_bounds _ _ lo, hb, nodesAll_append, nodesAll_cons]
      simp [hq]
    have hself : e.2 ∈ nodes (index d) (n + 1) e.2 := List.mem_cons_self
    have hmem : e.2 ∉ blocks := fun hm => (hblocks _ hm).2 (hbelow _ hself)
    have hne0 : e.2 ≠ 0 := fun h => hmem (h ▸ h0)
    have hnodes' : ∀ q ∈ nodes (index d) (n + 1) e.2, ∃ x, IsNode sb info d q x := fun q hq =>
      hnodes q (List.mem_cons_of_mem _ (hbelow q hq))
    obtain ⟨hnd', -, -, -⟩ := apart hnd hb
    obtain ⟨x', hx'⟩ := hnodes' e.2 hself
    unfold probeLoop
    rw [if_neg (not_or.mpr ⟨hx.ne_nil, Nat.not_lt.mpr hx.count⟩), hlast']
    simp only [hy, Option.elim_some, hblock, if_neg hmem]
    rcases readIndex_spec env hx'.nodeAt with ⟨y', hread, hy'⟩ | ⟨q, err, hq, hread⟩
    · rw [hy'] at hread
      have hlimit : x'.limit = sb.dxNodeLimit := by rw [hx'.limit, if_neg hne0]
      rw [hread]
      simp only [hlimit, ne_eq, not_true_eq_false, if_false]
      have hblocks' : ∀ q ∈ e.2 :: blocks, nodeAt d q ≠ none ∧ q ∉ nodesAll (index d) n (index d e.2) := by
        intro q hq
        rcases List.mem_cons.mp hq with rfl | hq
        · exact ⟨by simp [hx'.nodeAt], (List.nodup_cons.mp hnd').1⟩
        · exact ⟨(hblocks q hq).1, fun hq' => (hblocks q hq).2 (hbelow q (List.mem_cons_of_mem _ hq'))⟩
      rw [hpath, List.append_assoc]
      exact ih hat' hcur hx' hnodes' hnd' (List.mem_cons_of_mem _ h0) hblocks'
    · rw [hread]
      exact .inr ⟨q, err, hq, rfl⟩

/-- The leaf that a hash leads to: the last one whose bound is not above it. -/
structure Leads (info : DxRootInfo) (d : List DxBlock) (hash : ℕ) (path : Path ℕ) (bef : List (ℕ × ℕ)) (cur : ℕ × ℕ)
    (aft : List (ℕ × ℕ)) : Prop where
  at_ : At (index d) (info.indirectLevels + 1) 0 0 path bef cur aft
  le : cur.1 ≤ hash
  lt : ∀ y ∈ aft, hash < y.1

theorem Leads.mem (h : Leads info d hash path bef cur aft) : cur ∈ leaves info d := by
  rw [leaves, h.at_.flat_eq]
  simp

theorem Valid.leads (h : Valid sb info d) (hash : ℕ) :
    ∃ bef cur aft, Leads info d hash (probe (index d) hash (info.indirectLevels + 1) 0) bef cur aft := by
  obtain ⟨bef, cur, aft, hat, hcur, haft⟩ := probe_at hash h.filled h.routed.ordered (Nat.zero_le _)
  exact ⟨bef, cur, aft, hat, hcur, haft⟩

/-- **`dx_probe`** takes the path to the leaf of the hash. -/
theorem dxProbe_spec (env : DxEnv) (h : Valid sb info d) (hashOf : ℕ → ℕ) :
    OrRead env (dxProbe sb env d hashOf) fun r => r.version = sb.hinfoVersion info.hashVersion ∧
      ∃ bef cur aft, Leads info d (hashOf r.version) (r.frame :: r.up) bef cur aft := by
  obtain ⟨dot, dotdot, x, hroot, -⟩ := h.root
  have hat : nodeAt d 0 = some x := by
    rw [nodeAt, hroot]
    rfl
  have hmem : (0 : ℕ) ∈ indexBlocks info d := List.mem_cons_self
  obtain ⟨x', hx⟩ := h.node 0 hmem
  obtain rfl : x = x' := Option.some.inj (hat.symm.trans hx.nodeAt)
  have hversion : ¬ (info.hashVersion ≠ DX_HASH_TEA ∧ info.hashVersion ≠ DX_HASH_HALF_MD4 ∧
      info.hashVersion ≠ DX_HASH_LEGACY) := by
    have := h.version
    unfold DX_HASH_TEA DX_HASH_HALF_MD4 DX_HASH_LEGACY at *
    omega
  unfold dxProbe
  rw [hroot]
  cases hr : env.read 0 with
  | some err => exact .inr ⟨0, err, hr, rfl⟩
  | none =>
    have hlimit : ¬ x.limit ≠ sb.dxRootLimit info.infoLength := not_not.mpr (by rw [hx.limit, if_pos rfl])
    have hlevels := h.levels
    have hflags := h.flags
    simp only
    rw [if_neg hversion, if_neg (by omega), if_neg (by omega), if_neg hlimit]
    obtain ⟨bef, cur, aft, hleads⟩ := h.leads (hashOf (sb.hinfoVersion info.hashVersion))
    obtain ⟨recs, hleaf, -⟩ := h.leaf cur hleads.mem
    refine (probeLoop_spec hleads.at_ (nodeAt_leaf hleaf) hx h.node h.nodes_nodup List.mem_cons_self ?_).map ?_
    · intro q hq
      obtain rfl := List.mem_singleton.mp hq
      exact ⟨by simp [hat], (List.nodup_cons.mp h.nodes_nodup).1⟩
    · intro r hr
      refine ⟨rfl, bef, cur, aft, ?_⟩
      rw [List.append_nil] at hr
      rw [hr]
      exact hleads

/-! ### `ext4_htree_next_block` -/

theorem frameBlock_eq {e : ℕ × ℕ} (h : (index d b)[i]? = some e) : frameBlock d ((b, i) :: up) = e.2 := by
  rw [frameBlock, h]
  rfl

theorem frameHash_eq {e : ℕ × ℕ} (h : (index d b)[i]? = some e) : frameHash d ((b, i) :: up) = e.1 := by
  rw [frameHash, h]
  rfl

/-- The block of the deepest frame is the leaf of the path. -/
theorem frameBlock_at (h : At (index d) (n + 1) lo b path bef cur aft) : frameBlock d path = cur.2 := by
  rcases h.head with ⟨rfl, -⟩ | ⟨p, i, up, k, rfl, hk⟩
  · exact absurd h.length (by simp)
  · rw [frameBlock_eq hk]

/-- The blocks down to the next leaf are read. -/
theorem readDown_spec : ∀ {n b i : ℕ} {up : Path ℕ} {e : ℕ × ℕ}, (index d b)[i]? = some e →
    (∀ f ∈ descend (index d) n ((b, i) :: up), ∃ x, IsNode sb info d f.1 x) →
      OrRead env (readDown env d n ((b, i) :: up)) (· = descend (index d) n ((b, i) :: up))
  | 0, _, _, _, _, _, _ => .inl ⟨_, rfl, rfl⟩
  | n + 1, b, i, up, e, he, hnodes => by
    rw [descend, he] at hnodes ⊢
    simp only at hnodes ⊢
    obtain ⟨x, hx⟩ := hnodes (e.2, 0) (mem_descend List.mem_cons_self)
    rw [readDown, frameBlock_eq he]
    rcases readIndex_spec env hx.nodeAt with ⟨y, hread, -⟩ | ⟨q, err, hq, hread⟩
    · rw [hread]
      cases hix : index d e.2 with
      | nil => exact absurd hix hx.index_ne
      | cons e' rest => exact readDown_spec (e := e') (by rw [hix]; rfl) hnodes
    · rw [hread]
      exact .inr ⟨q, err, hq, rfl⟩

/-- **`ext4_htree_next_block`**: there is no leaf behind the last one; with an even hash the next one counts only where
it goes on with that hash. -/
theorem nextBlock_spec (env : DxEnv) (hash : ℕ) (h : Valid sb info d) (hat : At (index d) (info.indirectLevels + 1) 0 0 path bef cur aft) :
    (aft = [] → ext4HtreeNextBlock env d hash path = (.ok none, none)) ∧
    ∀ y rest, aft = y :: rest →
      (ext4HtreeNextBlock env d hash path).2 = some y.1 ∧
      (hash % 2 = 0 ∧ y.1 / 2 * 2 ≠ hash → (ext4HtreeNextBlock env d hash path).1 = .ok none) ∧
      (¬ (hash % 2 = 0 ∧ y.1 / 2 * 2 ≠ hash) → OrRead env (ext4HtreeNextBlock env d hash path).1
        fun r => ∃ path', r = some path' ∧
          At (index d) (info.indirectLevels + 1) 0 0 path' (bef ++ [cur]) y rest) := by
  obtain ⟨hnil, hcons⟩ := hat.climb h.filled
  refine ⟨fun h0 => ?_, fun y rest h0 => ?_⟩
  · rw [ext4HtreeNextBlock, hnil h0]
  · obtain ⟨k, b', i, up, z, hc, hz, hat'⟩ := hcons y rest h0
    rw [ext4HtreeNextBlock, hc]
    simp only [frameHash_eq hz]
    refine ⟨?_, fun hstop => by rw [if_pos hstop], fun hgo => ?_⟩
    · split_ifs <;> rfl
    · rw [if_neg hgo]
      have hnodes : ∀ f ∈ descend (index d) k ((b', i) :: up), ∃ x, IsNode sb info d f.1 x := fun f hf =>
        h.node _ (hat'.mem_nodes f hf)
      refine (readDown_spec hz hnodes).map fun r hr => ⟨r, rfl, ?_⟩
      rw [hr]
      exact hat'

/-! ### `ext4_dx_find_entry` -/

/-- What the search for a name finds among some leaves: the place of a record, or that there is none. -/
def Finds (d : List DxBlock) (name : Name) (ls : List (ℕ × ℕ)) : Option (ℕ × ℕ) → Prop
  | some r => ∃ y ∈ ls, y.2 = r.1 ∧ ∃ de, (leafAt d r.1)[r.2]? = some de ∧ ext4Match name de = true
  | none => ∀ y ∈ ls, ∀ de ∈ leafAt d y.2, ext4Match name de = false

/-- The search of one leaf: it ends the loop, or the loop goes on to the next block. -/
theorem findLoop_leaf (env : DxEnv) (name : Name) (hash fuel : ℕ) (hsb : Usual sb) (h : Valid sb info d)
    (hat : At (index d) (info.indirectLevels + 1) 0 0 path bef cur aft) :
    (∃ r, findLoop sb env d name hash (fuel + 1) path = some r ∧ OrRead env r fun r =>
      ∃ k de, r = some (cur.2, k) ∧ (leafAt d cur.2)[k]? = some de ∧ ext4Match name de = true) ∨
    (∀ de ∈ leafAt d cur.2, ext4Match name de = false) ∧
      (∀ err, (ext4HtreeNextBlock env d hash path).1 = .error err →
        findLoop sb env d name hash (fuel + 1) path = some (.error err)) ∧
      ((ext4HtreeNextBlock env d hash path).1 = .ok none →
        findLoop sb env d name hash (fuel + 1) path = some (.ok none)) ∧
      ∀ path', (ext4HtreeNextBlock env d hash path).1 = .ok (some path') →
        findLoop sb env d name hash (fuel + 1) path = findLoop sb env d name hash fuel path' := by
  have hmem : cur ∈ leaves info d := by
    rw [leaves, hat.flat_eq]
    simp
  obtain ⟨recs, hget, hleaf⟩ := h.leaf cur hmem
  rw [findLoop, frameBlock_at hat, leafAt_eq hget]
  rcases readLeaf_spec env hsb hget hleaf with ⟨recs', hread, hrecs⟩ | ⟨q, err, hq, hread⟩
  · rw [hrecs] at hread
    rw [hread]
    simp only
    cases hs : ext4SearchDir sb.toSb name 0 recs with
    | found k =>
      obtain ⟨de, hk, hmatch⟩ := ext4SearchDir_found sb.toSb hs
      exact .inl ⟨_, rfl, .inl ⟨_, rfl, k, de, rfl, hk, hmatch⟩⟩
    | bad => exact absurd hs (search_ne_bad hsb hleaf)
    | none =>
      refine .inr ⟨search_none hsb hleaf hs, fun err hn => ?_, fun hn => ?_, fun path' hn => ?_⟩ <;> simp only [hn]
  · rw [hread]
    exact .inl ⟨_, rfl, .inr ⟨q, err, hq, rfl⟩⟩

theorem Finds.cons {y : ℕ × ℕ} {ls : List (ℕ × ℕ)} {r : Option (ℕ × ℕ)} (h : Finds d name ls r)
    (hy : ∀ de ∈ leafAt d y.2, ext4Match name de = false) : Finds d name (y :: ls) r := by
  cases r with
  | none =>
    intro z hz
    rcases List.mem_cons.mp hz with rfl | hz
    · exact hy
    · exact h z hz
  | some r =>
    obtain ⟨z, hz, hrest⟩ := h
    exact ⟨z, List.mem_cons_of_mem _ hz, hrest⟩

/-- **The loop of `ext4_dx_find_entry`** looks into the leaf it is at and those behind that go on with the hash. -/
theorem findLoop_spec (hsb : Usual sb) (h : Valid sb info d) (heven : hash % 2 = 0) :
    ∀ {aft : List (ℕ × ℕ)} {fuel : ℕ} {path : Path ℕ} {bef : List (ℕ × ℕ)} {cur : ℕ × ℕ},
      At (index d) (info.indirectLevels + 1) 0 0 path bef cur aft → aft.length < fuel →
      ∃ r, findLoop sb env d name hash fuel path = some r ∧ OrRead env r (Finds d name (chain hash cur aft))
  | _, 0, _, _, _, _, hfuel => absurd hfuel (Nat.not_lt_zero _)
  | aft, fuel + 1, path, bef, cur, hat, hfuel => by
    rcases findLoop_leaf env name hash fuel hsb h hat with ⟨r, hr, hfind⟩ | ⟨hnone, herr, hend, hnext⟩
    · refine ⟨r, hr, ?_⟩
      rcases hfind with ⟨a, rfl, k, de, rfl, hk, hmatch⟩ | hread
      · exact .inl ⟨_, rfl, cur, List.mem_cons_self, rfl, de, hk, hmatch⟩
      · exact .inr hread
    · -- the leaf does not have the name
      have hcur : Finds d name [cur] none := Finds.cons (fun y hy => absurd hy List.not_mem_nil) hnone
      obtain ⟨hlast, hbehind⟩ := nextBlock_spec env hash h hat
      cases aft with
      | nil => exact ⟨_, hend (by rw [hlast rfl]), .inl ⟨none, rfl, hcur⟩⟩
      | cons y rest =>
        obtain ⟨-, hstop, hgo⟩ := hbehind y rest rfl
        by_cases hy : y.1 / 2 * 2 = hash
        · rw [chain_go hy]
          rcases hgo (fun hn => hn.2 hy) with ⟨_, hn, path', rfl, hat'⟩ | ⟨q, err, hq, hn⟩
          · obtain ⟨r, hr, hfind⟩ := findLoop_spec hsb h heven hat' (Nat.lt_of_succ_lt_succ hfuel)
            refine ⟨r, (hnext path' hn).trans hr, ?_⟩
            rcases hfind with ⟨a, rfl, ha⟩ | hread
            · exact .inl ⟨a, rfl, ha.cons hnone⟩
            · exact .inr hread
          · exact ⟨_, herr err hn, .inr ⟨q, err, hq, rfl⟩⟩
        · rw [chain_stop hy]
          exact ⟨_, hend (hstop ⟨heven, hy⟩), .inl ⟨none, rfl, hcur⟩⟩

theorem mem_hashes {de : DirEntry} (version : ℕ) (hde : de ∈ leafAt d b) (hmatch : ext4Match name de = true) :
    sb.dirhash version name ∈ hashes sb version d b := by
  simp only [ext4Match, Bool.and_eq_true, decide_eq_true_eq] at hmatch
  exact List.mem_map.mpr ⟨bare de, mem_live hde hmatch.1, by rw [← hmatch.2]; rfl⟩

/-- **`ext4_dx_find_entry`** finds the place of a name if a leaf has it, and says that there is none if no leaf does,
unless a block cannot be read. -/
theorem dxFindEntry_spec {fuel : ℕ} (env : DxEnv) (name : Name) (hsb : Usual sb) (h : Valid sb info d)
    (hfuel : (leaves info d).length ≤ fuel) :
    ∃ r, ext4DxFindEntry sb env fuel name d = some r ∧ OrRead env r (Finds d name (leaves info d)) := by
  unfold ext4DxFindEntry
  rcases dxProbe_spec env h fun version => sb.dirhash version name with
    ⟨r, hr, hversion, bef, cur, aft, hleads⟩ | ⟨q, err, hq, hr⟩
  · rw [hr]
    simp only
    have hflat : leaves info d = bef ++ cur :: aft := hleads.at_.flat_eq
    have hlen : aft.length < fuel := by
      rw [hflat, List.length_append, List.length_cons] at hfuel
      omega
    have heven := sb.dirhash_even r.version name
    obtain ⟨r', hr', hfind⟩ := findLoop_spec hsb h heven hleads.at_ hlen
    refine ⟨r', hr', ?_⟩
    rcases hfind with ⟨a, rfl, ha⟩ | hread
    · refine .inl ⟨a, rfl, ?_⟩
      have hmem : ∀ y ∈ leaves info d, sb.dirhash r.version name ∈ hashes sb r.version d y.2 →
          y ∈ chain (sb.dirhash r.version name) cur aft := fun y hy hk =>
        Routed.mem_chain (hflat ▸ hversion ▸ h.routed) heven hleads.le hleads.lt (hflat ▸ hy) hk
      cases a with
      | none =>
        intro y hy de hde
        by_contra hmatch
        rw [Bool.not_eq_false] at hmatch
        have := ha y (hmem y hy (mem_hashes r.version hde hmatch)) de hde
        rw [hmatch] at this
        cases this
      | some r =>
        obtain ⟨y, hy, hrest⟩ := ha
        refine ⟨y, ?_, hrest⟩
        rw [hflat]
        rcases List.mem_cons.mp hy with rfl | hy
        · simp
        · exact List.mem_append_right _ (List.mem_cons_of_mem _ ((List.takeWhile_sublist _).mem hy))
    · exact .inr hread
  · rw [hr]
    exact ⟨_, rfl, .inr ⟨q, err, hq, rfl⟩⟩

end LinuxEvfs.Htree.Index
