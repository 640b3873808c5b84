import LinuxEvfs.ExtTree.Cells
import LinuxEvfs.Lib.IndexTree

/-! # The extent tree of an inode

The tree below an inode is an index tree of extents keyed by `ee_block`: the root block lies in
`i_data`, the others in blocks of their own. `exts t` is the list of its extents.

* `ext4FindExtent`, `ext4ExtNextAllocatedBlock`: the lookups, read off `exts t` (`find_cases`,
  `nextAllocated_eq`).
* `ext4ExtTryToMerge`: merging an extent with its neighbours in the leaf, and a tree of one leaf into
  the inode.
* `Regroups`: other extents for the same cells, wherever they stand; merging regroups a leaf
  (`mergeLeaf_regroups`), so it keeps the tree well formed with the same cells
  (`tryToMerge_spec`). -/

namespace LinuxEvfs.ExtTree.Tree

open LinuxEvfs.Lib.IndexTree LinuxEvfs.Lib.BinSearch
open LinuxEvfs.ExtTree.Basic LinuxEvfs.ExtTree.Cells

/-- The tree below an inode: `ext_depth(inode)` and the root block. -/
abbrev ExtRoot := (d : ℕ) × Tree Extent d

/-- The extents of the tree, leaf after leaf. -/
def exts (t : ExtRoot) : List Extent := items t.1 t.2

/-- **A well-formed extent tree**: every index key is the first block below it, and the extents are
legal, sorted and disjoint. -/
structure WellFormed (t : ExtRoot) : Prop where
  indexed : Indexed Extent.eeBlock t.1 t.2
  valid : ValidMap (exts t)

/-- Entries of the root in `i_data`: 60 bytes, a header of 12 and entries of 12. -/
def ext4ExtSpaceRoot : ℕ := (60 - 12) / 12

/-- Entries of a tree block. -/
def ext4ExtSpaceBlock (blocksize : ℕ) : ℕ := (blocksize - 12) / 12

/-! ### Lookup -/

def ext4FindExtent (t : ExtRoot) (block : ℕ) : Path t.1 := search Extent.eeBlock block t.1 t.2

/-- `path[depth].p_ext`. -/
def pExt (t : ExtRoot) (path : Path t.1) : Option Extent := item t.1 t.2 path

def ext4ExtNextAllocatedBlock (t : ExtRoot) (path : Path t.1) : ℕ :=
  (next Extent.eeBlock t.1 t.2 path).getD EXT_MAX_BLOCKS

theorem WellFormed.sorted {t : ExtRoot} (h : WellFormed t) :
    Sorted Extent.eeBlock (items t.1 t.2) := h.valid.starts

theorem WellFormed.legal {t : ExtRoot} (h : WellFormed t) {l r : List Extent} {e : Extent} (hex : exts t = l ++ e :: r) :
    Legal e := h.valid.legal e (by rw [hex]; simp)

theorem exts_of_at {t : ExtRoot} {path : Path t.1} {l r : List Extent} {e : Extent}
    (hat : At t.1 t.2 path l (some e) r) : exts t = l ++ e :: r := by
  rw [exts, hat.items_eq]
  simp

/-- **The lookup of a block**: no extent at all, or the last one not above it, or the first. -/
theorem find_cases {t : ExtRoot} (h : WellFormed t) (block : ℕ) :
    (exts t = [] ∧ pExt t (ext4FindExtent t block) = none) ∨
    ∃ l e r, At t.1 t.2 (ext4FindExtent t block) l (some e) r ∧ exts t = l ++ e :: r ∧
      pExt t (ext4FindExtent t block) = some e ∧
      (∀ c ∈ r, block < c.eeBlock) ∧ (e.eeBlock ≤ block ∨ l = []) := by
  rcases search_at block t.1 t.2 h.indexed h.sorted with ⟨h0, hat⟩ | ⟨l, e, r, hat, hr, he⟩
  · exact .inl ⟨h0, hat.item_eq⟩
  · refine .inr ⟨l, e, r, hat, ?_, hat.item_eq, hr, he⟩
    rw [exts, hat.items_eq]
    simp

/-- The lookup of the start of an extent finds it. -/
theorem find_start {t : ExtRoot} (hw : WellFormed t) {l r : List Extent} {e : Extent}
    (hex : exts t = l ++ e :: r) : At t.1 t.2 (ext4FindExtent t e.eeBlock) l (some e) r := by
  refine search_eq hw.indexed hw.sorted hex (fun b hb => ?_) (.inl (Nat.le_refl _))
  have hs := hw.valid.starts
  rw [hex] at hs
  exact (List.pairwise_cons.mp (List.pairwise_append.mp hs).2.1).1 b hb

theorem nextAllocated_eq {t : ExtRoot} (h : WellFormed t) {path : Path t.1} {l r : List Extent}
    {o : Option Extent} (hat : At t.1 t.2 path l o r) :
    ext4ExtNextAllocatedBlock t path = (r.head?.map Extent.eeBlock).getD EXT_MAX_BLOCKS := by
  rw [ext4ExtNextAllocatedBlock, hat.next_eq h.indexed]

/-! ### Writing through `p_ext` -/

/-- The extent at the path is overwritten. -/
def updExt (g : Extent → Extent) (t : ExtRoot) (path : Path t.1) : ExtRoot :=
  ⟨t.1, updItem g t.1 t.2 path⟩

theorem updExt_exts {g : Extent → Extent} {t : ExtRoot} {path : Path t.1} {l r : List Extent}
    {e : Extent} (hat : At t.1 t.2 path l (some e) r) :
    exts (updExt g t path) = l ++ g e :: r := by
  rw [exts, updExt, (hat.updItem (g := g)).items_eq]
  simp

/-- Storing a physical start: the extents around it stay, and the tree stays well formed. -/
theorem store_spec {t : ExtRoot} (h : WellFormed t) {path : Path t.1} {l r : List Extent}
    {e : Extent} (hat : At t.1 t.2 path l (some e) r) (pb : ℕ) :
    WellFormed (updExt (ext4ExtStorePblock · pb) t path) ∧
      exts (updExt (ext4ExtStorePblock · pb) t path) = l ++ ext4ExtStorePblock e pb :: r := by
  have he := updExt_exts (g := (ext4ExtStorePblock · pb)) hat
  refine ⟨⟨updItem_indexed (g := (ext4ExtStorePblock · pb)) (fun _ => rfl) path h.indexed, ?_⟩, he⟩
  rw [he]
  refine ValidMap.store ?_ pb
  have := h.valid
  rwa [exts, hat.items_eq, List.append_assoc] at this

/-! ### Regrouping -/

/-- `es'` are other extents for the cells of `es`, wherever `es` stands in a valid map. -/
def Regroups (es es' : List Extent) : Prop :=
  ∀ l r, ValidMap (l ++ es ++ r) →
    ValidMap (l ++ es' ++ r) ∧ cells (l ++ es' ++ r) = cells (l ++ es ++ r)

theorem Regroups.refl (es : List Extent) : Regroups es es := fun _ _ h => ⟨h, rfl⟩

theorem Regroups.trans {es es' es'' : List Extent} (h1 : Regroups es es')
    (h2 : Regroups es' es'') : Regroups es es'' := fun l r h => by
  obtain ⟨hv, hc⟩ := h1 l r h
  obtain ⟨hv', hc'⟩ := h2 l r hv
  exact ⟨hv', hc'.trans hc⟩

theorem Regroups.around {es es' : List Extent} (h : Regroups es es') (a b : List Extent) :
    Regroups (a ++ es ++ b) (a ++ es' ++ b) := fun l r hv => by
  have := h (l ++ a) (b ++ r) (by simpa only [List.append_assoc] using hv)
  simpa only [List.append_assoc] using this

/-- Regrouping the leaf of a path. -/
theorem Regroups.leaf {t : ExtRoot} (h : WellFormed t) {f : List Extent → ℕ → List Extent}
    (hf : ∀ es i, Regroups es (f es i))
    (hhead : ∀ es i, (f es i).head?.map Extent.eeBlock = es.head?.map Extent.eeBlock)
    {path : Path t.1} {l r : List Extent} {e : Extent} (hat : At t.1 t.2 path l (some e) r) :
    let t' : ExtRoot := ⟨t.1, updLeaf
      (fun lf q => { lf with entries := q.elim lf.entries (f lf.entries) }) t.1 t.2 path⟩
    WellFormed t' ∧ cells (exts t') = cells (exts t) := by
  intro t'
  obtain ⟨lf, l0, l1, r1, r0, -, hlf, rfl, rfl, hit⟩ := hat.leaf_split
    (f := fun lf q => { lf with entries := q.elim lf.entries (f lf.entries) })
  have ht : exts t = l0 ++ lf.entries ++ r0 := by
    rw [exts, hat.items_eq, hlf]
    simp
  have ht' : exts t' = l0 ++ f lf.entries l1.length ++ r0 := hit
  obtain ⟨hv, hc⟩ := hf lf.entries l1.length l0 r0 (ht ▸ h.valid)
  refine ⟨⟨updLeaf_indexed (fun lf q => ?_) path h.indexed, ht' ▸ hv⟩, by rw [ht', ht, hc]⟩
  cases q with
  | none => rfl
  | some i => exact hhead lf.entries i

/-! ### Merging -/

/-- The loop of `ext4_ext_try_to_merge_right`: `ex` takes over its right neighbours one by one. -/
def mergeRight (ex : Extent) : List Extent → List Extent
  | [] => [ex]
  | ex1 :: r =>
    if ext4CanExtentsBeMerged ex ex1 then mergeRight (mergeExtents ex ex1) r else ex :: ex1 :: r

/-- Merging towards the right from position `i` of a leaf; the flag says that it did merge. -/
def ext4ExtTryToMergeRight (es : List Extent) (i : ℕ) : List Extent × Bool :=
  match es.drop i with
  | ex :: ex1 :: r => (es.take i ++ mergeRight ex (ex1 :: r), ext4CanExtentsBeMerged ex ex1)
  | _ => (es, false)

/-- Merging from the left neighbour of position `i` on, if there is one in the leaf. -/
def mergeLeft (es : List Extent) (i : ℕ) : List Extent × Bool :=
  if 0 < i then ext4ExtTryToMergeRight es (i - 1) else (es, false)

/-- The leaf's part of `ext4_ext_try_to_merge`: into the left neighbour first. -/
def mergeLeaf (es : List Extent) (i : ℕ) : List Extent :=
  let m := mergeLeft es i
  if m.2 then m.1 else (ext4ExtTryToMergeRight m.1 i).1

/-- A tree of one leaf that fits into the root is moved there, when `ext4_journal_extend` grants the
credits to free its block. -/
def ext4ExtTryToMergeUp (extend : Bool) (t : ExtRoot) : ExtRoot :=
  match t with
  | ⟨1, (root : Block (ℕ × Block Extent))⟩ =>
    match root.entries with
    | [(_, lf)] =>
      if lf.entries.length ≤ ext4ExtSpaceRoot ∧ extend then
        ⟨0, ({ cap := ext4ExtSpaceRoot, entries := lf.entries } : Block Extent)⟩
      else ⟨1, root⟩
    | _ => ⟨1, root⟩
  | t => t

def ext4ExtTryToMerge (extend : Bool) (t : ExtRoot) (path : Path t.1) : ExtRoot :=
  ext4ExtTryToMergeUp extend ⟨t.1, updLeaf
    (fun lf q => { lf with entries := q.elim lf.entries (mergeLeaf lf.entries) }) t.1 t.2 path⟩

theorem joins_of_canMerge {a b : Extent} (ha : Legal a) (hb : Legal b)
    (h : ext4CanExtentsBeMerged a b = true) : Joins a b (mergeExtents a b) := by
  obtain ⟨hstate, -, -, -, hp⟩ := canMerge_spec h
  obtain ⟨hadj, hblk, hst, -, hlen, hun⟩ := mergeExtents_spec ha hb h
  exact ⟨⟨hblk, hst, hlen, hun.symm, by rw [hun, hstate], hadj.symm⟩, hp.symm⟩

theorem mergeRight_regroups : ∀ (r : List Extent) (ex : Extent),
    Regroups (ex :: r) (mergeRight ex r)
  | [], ex => Regroups.refl _
  | ex1 :: r, ex => by
    unfold mergeRight
    split_ifs with hm
    · refine Regroups.trans (fun l r0 hv => ?_) (mergeRight_regroups r (mergeExtents ex ex1))
      have hv' : ValidMap (l ++ ex :: ex1 :: (r ++ r0)) := by simpa using hv
      have ha := hv'.legal ex (by simp)
      have hb := hv'.legal ex1 (by simp)
      have hj := joins_of_canMerge ha hb hm
      have hv2 := ValidMap.join hj (mergeExtents_spec ha hb hm).2.2.2.1 hv'
      have hc := hj.cells_eq (l := l) (r := r ++ r0)
      exact ⟨by simpa using hv2, by simpa using hc.symm⟩
    · exact Regroups.refl _

theorem mergeRight_head (ex : Extent) : ∀ (r : List Extent) (e : Extent), e.eeBlock = ex.eeBlock →
    (mergeRight e r).head?.map Extent.eeBlock = some ex.eeBlock
  | [], e, h => by simp [mergeRight, h]
  | ex1 :: r, e, h => by
    unfold mergeRight
    split_ifs
    · exact mergeRight_head ex r _ (setLen_eeBlock.trans h)
    · simp [h]

theorem tryToMergeRight_regroups (es : List Extent) (i : ℕ) :
    Regroups es (ext4ExtTryToMergeRight es i).1 := by
  unfold ext4ExtTryToMergeRight
  split
  · rename_i ex ex1 r hd
    have h := (mergeRight_regroups (ex1 :: r) ex).around (es.take i) []
    rw [List.append_nil, List.append_nil, ← hd, List.take_append_drop] at h
    exact h
  · exact Regroups.refl _

theorem tryToMergeRight_head (es : List Extent) (i : ℕ) :
    (ext4ExtTryToMergeRight es i).1.head?.map Extent.eeBlock = es.head?.map Extent.eeBlock := by
  unfold ext4ExtTryToMergeRight
  split
  · rename_i ex ex1 r hd
    cases i with
    | zero =>
      rw [List.drop_zero] at hd
      rw [hd, List.take_zero, List.nil_append, mergeRight_head ex _ _ rfl]
      rfl
    | succ i => cases es <;> simp at hd ⊢
  · rfl

theorem mergeLeft_spec (es : List Extent) (i : ℕ) : Regroups es (mergeLeft es i).1 ∧
    (mergeLeft es i).1.head?.map Extent.eeBlock = es.head?.map Extent.eeBlock := by
  unfold mergeLeft
  split_ifs
  · exact ⟨tryToMergeRight_regroups es (i - 1), tryToMergeRight_head es (i - 1)⟩
  · exact ⟨Regroups.refl _, rfl⟩

theorem mergeLeaf_regroups (es : List Extent) (i : ℕ) : Regroups es (mergeLeaf es i) := by
  have hm := (mergeLeft_spec es i).1
  unfold mergeLeaf
  simp only
  split_ifs
  · exact hm
  · exact hm.trans (tryToMergeRight_regroups _ i)

theorem mergeLeaf_head (es : List Extent) (i : ℕ) :
    (mergeLeaf es i).head?.map Extent.eeBlock = es.head?.map Extent.eeBlock := by
  have hm := (mergeLeft_spec es i).2
  unfold mergeLeaf
  simp only
  split_ifs
  · exact hm
  · exact (tryToMergeRight_head _ i).trans hm

theorem tryToMergeUp_spec (extend : Bool) {t : ExtRoot} (h : WellFormed t) :
    WellFormed (ext4ExtTryToMergeUp extend t) ∧ exts (ext4ExtTryToMergeUp extend t) = exts t := by
  unfold ext4ExtTryToMergeUp
  split
  · rename_i root
    split
    · rename_i k lf hroot
      split_ifs
      · have he : exts ⟨1, root⟩ = lf.entries := by
          change below 0 root.entries = _
          rw [hroot]
          exact List.append_nil _
        exact ⟨⟨trivial, he ▸ h.valid⟩, he.symm⟩
      · exact ⟨h, rfl⟩
    · exact ⟨h, rfl⟩
  · exact ⟨h, rfl⟩

/-- **Merging** keeps the tree well formed and every cell as it is. -/
theorem tryToMerge_spec (extend : Bool) {t : ExtRoot} (h : WellFormed t) {path : Path t.1}
    {l r : List Extent} {e : Extent} (hat : At t.1 t.2 path l (some e) r) :
    WellFormed (ext4ExtTryToMerge extend t path) ∧
      cells (exts (ext4ExtTryToMerge extend t path)) = cells (exts t) := by
  obtain ⟨hw, hc⟩ := Regroups.leaf h mergeLeaf_regroups mergeLeaf_head hat
  obtain ⟨hw', he⟩ := tryToMergeUp_spec extend hw
  exact ⟨hw', by rw [ext4ExtTryToMerge, he, hc]⟩

end LinuxEvfs.ExtTree.Tree
