import LinuxEvfs.ExtTree.Split
import LinuxEvfs.Lib.TreeBuffers

/-! # Splits and merges inside the leaves

As long as the leaves have room, splitting and merging change the leaves only: every lookup goes to the leaf it went to
before.

* `Kept P t0 t`: the tree `t` has come from `t0` in this way; its leaves have the extents' starts of those of `t0`,
  and maybe some of the points `P` at which extents of theirs are cut.
* `Kept.room`: if every leaf of `t0` has room for its cuts, there is room for a split where `t0` had a start, or at a
  point.
* `Kept.insertBehind`, `Kept.merge`: both operations. -/

namespace LinuxEvfs.ExtTree.Leaves

open LinuxEvfs.Errno LinuxEvfs.Lib.IndexTree LinuxEvfs.Lib.IndexInsert LinuxEvfs.Lib.IndexFrame
open LinuxEvfs.ExtTree.Basic LinuxEvfs.ExtTree.Cells LinuxEvfs.ExtTree.Tree LinuxEvfs.ExtTree.Split

/-- The first blocks of extents. -/
def starts (es : List Extent) : List ℕ := es.map Extent.eeBlock

/-- The points at which extents of a leaf are cut. -/
def cuts (P : List ℕ) (es : List Extent) : List ℕ := P.filter fun x => es.any fun e => e.eeBlock < x && x < e.last

/-- **The same tree up to its leaves.** -/
structure Kept {d : ℕ} (P : List ℕ) (t0 t : Tree Extent d) : Prop where
  lookup : ∀ x, spine d (search Extent.eeBlock x d t) = spine d (search Extent.eeBlock x d t0)
  width_eq : width d t = width d t0
  leaf : ∀ q lf, leafAt d t q = some lf →
    ∃ lf0, leafAt d t0 q = some lf0 ∧ lf.cap = lf0.cap ∧ starts lf.entries ⊆ starts lf0.entries ++ cuts P lf0.entries

variable {d : ℕ} {P : List ℕ} {t0 t : Tree Extent d} {p : Path d} {l r : List Extent} {e : Extent} {x : ℕ}

theorem Kept.refl (P : List ℕ) (t : Tree Extent d) : Kept P t t :=
  ⟨fun _ => rfl, rfl, fun _ lf h => ⟨lf, h, rfl, List.subset_append_left _ _⟩⟩

/-- Rewriting a leaf, with starts that were there at first, or points. -/
theorem Kept.updLeaf (h : Kept P t0 t) {f : Block Extent → Option ℕ → Block Extent}
    (hcap : ∀ lf q, (f lf q).cap = lf.cap)
    (hstarts : ∀ lf lf0, leafAt d t (spine d p) = some lf → leafAt d t0 (spine d p) = some lf0 →
      starts (f lf (Path.last d p)).entries ⊆ starts lf.entries ++ (starts lf0.entries ++ cuts P lf0.entries)) :
    Kept P t0 (updLeaf f d t p) where
  lookup x := (spine_search_updLeaf x t p).trans (h.lookup x)
  width_eq := (width_updLeaf t p).trans h.width_eq
  leaf q lf' hlf' := by
    rw [leafAt_updLeaf] at hlf'
    split_ifs at hlf' with hq
    · subst hq
      obtain ⟨lf, hlf, rfl⟩ := Option.map_eq_some_iff.mp hlf'
      obtain ⟨lf0, hlf0, hc, hsub⟩ := h.leaf _ lf hlf
      refine ⟨lf0, hlf0, (hcap _ _).trans hc, fun y hy => ?_⟩
      rcases List.mem_append.mp (hstarts lf lf0 hlf hlf0 hy) with hy | hy
      · exact hsub hy
      · exact hy
    · exact h.leaf q lf' hlf'

/-! ### Extents of a leaf -/

theorem leafAt_sublist : ∀ {d : ℕ} {t : Tree Extent d} {q : List ℕ} {lf : Block Extent},
    leafAt d t q = some lf → lf.entries.Sublist (items d t)
  | 0, t, [], lf, h => by
    cases h
    exact List.Sublist.refl _
  | 0, _, _ :: _, _, h => by simp [leafAt] at h
  | d + 1, _, [], _, h => by simp [leafAt] at h
  | d + 1, (t : Block (ℕ × Tree Extent d)), i :: q, lf, h => by
    simp only [leafAt] at h
    obtain ⟨e, he, hlf⟩ := Option.bind_eq_some_iff.mp h
    exact (leafAt_sublist hlf).trans (items_sublist_below (List.mem_of_getElem? he))

/-- The leaf of a path that stands on an extent. -/
theorem At.leafAt_eq (hat : At d t p l (some e) r) :
    ∃ lf, leafAt d t (spine d p) = some lf ∧ e ∈ lf.entries := by
  obtain ⟨lf, l0, l1, r1, r0, hlf, hent, -⟩ := hat.leaf_split (f := fun lf _ => lf)
  rw [leaf_eq_leafAt] at hlf
  exact ⟨lf, hlf, by rw [hent]; simp⟩

theorem starts_nodup (hw : WellFormed ⟨d, t⟩) {q : List ℕ} {lf : Block Extent} (h : leafAt d t q = some lf) :
    (starts lf.entries).Nodup := by
  have hs : Sorted Extent.eeBlock lf.entries := hw.sorted.sublist (leafAt_sublist h)
  exact (List.pairwise_map.mpr hs).imp Nat.ne_of_lt

/-- No extent starts inside another. -/
theorem not_start_inside (hv : ValidMap (l ++ e :: r)) (h1 : e.eeBlock < x) (h2 : x < e.last) :
    x ∉ starts (l ++ e :: r) := by
  intro hx
  obtain ⟨a, ha, rfl⟩ := List.mem_map.mp hx
  have hla := (hv.legal a ha).block_lt_last
  obtain ⟨-, hvr, hlr⟩ := validMap_append.mp hv
  rcases List.mem_append.mp ha with ha | ha
  · have := hlr a ha e (by simp)
    omega
  · rcases List.mem_cons.mp ha with rfl | ha
    · omega
    · have := (validMap_cons.mp hvr).2.2 a ha
      omega

/-- A mapped block starts an extent if the block before it belongs to none, or to an extent that ends there. -/
theorem start_of_end {es : List Extent} (hv : ValidMap es) (hm : Mapped es x)
    (hpred : ∀ y, y + 1 = x → Mapped es y → ∃ a ∈ es, a.eeBlock ≤ y ∧ a.last = x) : x ∈ starts es := by
  obtain ⟨b, hb, h1, h2⟩ := hm
  rcases Nat.eq_or_lt_of_le h1 with rfl | hlt
  · exact List.mem_map_of_mem hb
  · obtain ⟨a, ha, hay, hax⟩ := hpred (x - 1) (by omega) ⟨b, hb, by omega, by omega⟩
    have hab : a = b := hv.eq_of_covers (L := x - 1) ha hb (by omega) (by omega)
    subst hab
    omega

/-- All blocks of an extent have one path. -/
theorem find_eq (hw : WellFormed ⟨d, t⟩) (hat : At d t p l (some e) r) (h1 : e.eeBlock ≤ x) (h2 : x < e.last) :
    ext4FindExtent ⟨d, t⟩ x = p := by
  have hex : items d t = l ++ e :: r := by rw [hat.items_eq]; simp
  have hv : ValidMap (l ++ e :: r) := hex ▸ hw.valid
  refine At.path_unique (search_eq hw.indexed hw.sorted hex (fun a ha => ?_) (.inl h1)) hat
  have := (validMap_cons.mp (validMap_append.mp hv).2.1).2.2 a ha
  omega

/-- The starts of the tree are those of `t0`, and points. -/
theorem Kept.mem_starts (h : Kept P t0 t) (hw : WellFormed ⟨d, t⟩) (hx : x ∈ starts (exts ⟨d, t⟩)) :
    x ∈ starts (exts ⟨d, t0⟩) ++ P := by
  obtain ⟨e, he, rfl⟩ := List.mem_map.mp hx
  obtain ⟨l, r, hex⟩ := List.append_of_mem he
  have hat : At d t (search Extent.eeBlock e.eeBlock d t) l (some e) r := find_start hw hex
  obtain ⟨lf, hlf, hmem⟩ := At.leafAt_eq hat
  obtain ⟨lf0, hlf0, -, hsub⟩ := h.leaf _ lf hlf
  rcases List.mem_append.mp (hsub (List.mem_map_of_mem hmem)) with hy | hy
  · exact List.mem_append_left _ (((leafAt_sublist hlf0).map _).subset hy)
  · exact List.mem_append_right _ (List.mem_of_mem_filter hy)

/-! ### Room for a split -/

/-- Every leaf has room for its cuts. -/
def Roomy (P : List ℕ) (t : Tree Extent d) : Prop :=
  ∀ q lf, leafAt d t q = some lf → lf.entries.length + (cuts P lf.entries).length ≤ lf.cap

/-- A block of an extent, which is a start of `t0` or a point, in the leaf that its lookup goes to. -/
theorem Kept.mem_leaf (h : Kept P t0 t) (hw0 : WellFormed ⟨d, t0⟩) (hx : x ∈ starts (exts ⟨d, t0⟩) ++ P)
    (hm : Mapped (exts ⟨d, t0⟩) x) {lf0 : Block Extent}
    (hlf0 : leafAt d t0 (spine d (search Extent.eeBlock x d t)) = some lf0) :
    x ∈ starts lf0.entries ++ cuts P lf0.entries := by
  obtain ⟨e, he, h1, h2⟩ := hm
  obtain ⟨l, r, hex⟩ := List.append_of_mem he
  have hat : At d t0 (search Extent.eeBlock e.eeBlock d t0) l (some e) r := find_start hw0 hex
  obtain ⟨lf, hlf, hmem⟩ := At.leafAt_eq hat
  have hfind : search Extent.eeBlock x d t0 = search Extent.eeBlock e.eeBlock d t0 := find_eq hw0 hat h1 h2
  rw [h.lookup, hfind] at hlf0
  cases hlf0.symm.trans hlf
  rcases Nat.eq_or_lt_of_le h1 with rfl | hlt
  · exact List.mem_append_left _ (List.mem_map_of_mem hmem)
  · rcases List.mem_append.mp hx with hx | hx
    · exact absurd hx (hex ▸ not_start_inside (hex ▸ hw0.valid) hlt h2)
    · refine List.mem_append_right _ (List.mem_filter.mpr ⟨hx, List.any_eq_true.mpr ⟨e, hmem, ?_⟩⟩)
      simp [hlt, h2]

theorem Kept.room (h : Kept P t0 t) (hroomy : Roomy P t0) (hw : WellFormed ⟨d, t⟩)
    (hat : At d t p l (some e) r) (h1 : e.eeBlock < x) (h2 : x < e.last)
    (hx : ∀ lf0, leafAt d t0 (spine d p) = some lf0 → x ∈ starts lf0.entries ++ cuts P lf0.entries) :
    leafFull d t p = false := by
  obtain ⟨lf, hlf, -⟩ := At.leafAt_eq hat
  obtain ⟨lf0, hlf0, hcap, hsub⟩ := h.leaf _ lf hlf
  have hex : exts ⟨d, t⟩ = l ++ e :: r := exts_of_at hat
  have hnot : x ∉ starts lf.entries := fun hmem =>
    not_start_inside (hex ▸ hw.valid) h1 h2 (hex ▸ ((leafAt_sublist hlf).map _).subset hmem)
  -- the new start would be one more of the starts there may be
  have hnodup : (x :: starts lf.entries).Nodup := List.nodup_cons.mpr ⟨hnot, starts_nodup hw hlf⟩
  have hle := (List.subperm_of_subset hnodup (List.cons_subset.mpr ⟨hx lf0 hlf0, hsub⟩)).length_le
  have hroom := hroomy _ lf0 hlf0
  simp only [starts, List.length_cons, List.length_append, List.length_map] at hle
  simp only [leafFull, leaf_eq_leafAt, hlf, Option.elim_some, decide_eq_false_iff_not]
  omega

/-! ### The two operations -/

theorem starts_modify {g : Extent → Extent} (hg : ∀ e, (g e).eeBlock = e.eeBlock) (es : List Extent) (i : ℕ) :
    starts (es.modify i g) = starts es := by
  refine List.ext_getElem (by simp [starts]) fun j h1 h2 => ?_
  simp only [starts, List.getElem_map, List.getElem_modify]
  split_ifs
  · exact hg _
  · rfl

theorem Kept.updItem (h : Kept P t0 t) {g : Extent → Extent} (hg : ∀ e, (g e).eeBlock = e.eeBlock) (p : Path d) :
    Kept P t0 (updItem g d t p) := by
  refine Kept.updLeaf h (fun _ _ => rfl) fun lf lf0 _ _ => ?_
  cases Path.last d p with
  | none => exact List.subset_append_left _ _
  | some i =>
    simp only [Option.elim_some, starts_modify hg]
    exact List.subset_append_left _ _

/-- The second half of an extent behind the first. -/
theorem Kept.insertBehind (h : Kept P t0 t) {b : Extent}
    (hx : ∀ lf0, leafAt d t0 (spine d p) = some lf0 → b.eeBlock ∈ starts lf0.entries ++ cuts P lf0.entries) :
    Kept P t0 (Lib.IndexTree.updLeaf (Lib.IndexFrame.insertBehind b) d t p) := by
  refine Kept.updLeaf h (fun _ _ => rfl) fun lf lf0 _ hlf0 y hy => ?_
  obtain ⟨a, ha, rfl⟩ := List.mem_map.mp hy
  rcases List.eq_or_mem_of_mem_insertIdx ha with rfl | ha
  · exact List.mem_append_right _ (hx lf0 hlf0)
  · exact List.mem_append_left _ (List.mem_map_of_mem ha)

theorem mergeRight_starts : ∀ (r : List Extent) (ex : Extent), (starts (mergeRight ex r)).Sublist (starts (ex :: r))
  | [], ex => List.Sublist.refl _
  | ex1 :: r, ex => by
    unfold mergeRight
    split_ifs
    · have h := mergeRight_starts r (mergeExtents ex ex1)
      have hblk : (mergeExtents ex ex1).eeBlock = ex.eeBlock := setLen_eeBlock
      simp only [starts, List.map_cons, hblk] at h ⊢
      exact h.trans ((List.sublist_cons_self _ _).cons_cons _)
    · exact List.Sublist.refl _

theorem tryToMergeRight_starts (es : List Extent) (i : ℕ) :
    (starts (ext4ExtTryToMergeRight es i).1).Sublist (starts es) := by
  unfold ext4ExtTryToMergeRight
  split
  · rename_i ex ex1 r hd
    have h := mergeRight_starts (ex1 :: r) ex
    rw [← hd] at h
    have h' := (List.Sublist.refl (starts (es.take i))).append h
    simp only [starts, ← List.map_append, List.take_append_drop] at h' ⊢
    exact h'
  · exact List.Sublist.refl _

theorem mergeLeaf_starts (es : List Extent) (i : ℕ) : (starts (mergeLeaf es i)).Sublist (starts es) := by
  have hleft : (starts (mergeLeft es i).1).Sublist (starts es) := by
    unfold mergeLeft
    split_ifs
    · exact tryToMergeRight_starts es (i - 1)
    · exact List.Sublist.refl _
  unfold mergeLeaf
  simp only
  split_ifs
  · exact hleft
  · exact (tryToMergeRight_starts _ i).trans hleft

/-- Merging moves nothing into the inode where the root has not exactly one leaf. -/
theorem tryToMergeUp_of_width (extend : Bool) (t : Tree Extent d) (h : d = 1 → width d t ≠ 1) :
    ext4ExtTryToMergeUp extend ⟨d, t⟩ = ⟨d, t⟩ := by
  unfold ext4ExtTryToMergeUp
  split
  · rename_i root heq
    cases heq
    split
    · rename_i k lf hroot
      have hone : root.entries.length = 1 := by rw [hroot]; rfl
      exact absurd hone (h rfl)
    · rfl
  · rfl

/-- **A store and its merge.** -/
theorem Kept.merge (h : Kept P t0 t) (extend : Bool) (hup : d = 1 → width d t0 ≠ 1) (p : Path d) :
    ∃ t', ext4ExtTryToMerge extend ⟨d, t⟩ p = ⟨d, t'⟩ ∧ Kept P t0 t' := by
  have hk : Kept P t0 (Lib.IndexTree.updLeaf
      (fun lf q => { lf with entries := q.elim lf.entries (mergeLeaf lf.entries) }) d t p) := by
    refine Kept.updLeaf h (fun _ _ => rfl) fun lf lf0 _ _ => ?_
    cases Path.last d p with
    | none => exact List.subset_append_left _ _
    | some i => exact fun y hy => List.mem_append_left _ ((mergeLeaf_starts lf.entries i).subset hy)
  refine ⟨_, tryToMergeUp_of_width extend _ fun hd => ?_, hk⟩
  rw [hk.width_eq]
  exact hup hd

end LinuxEvfs.ExtTree.Leaves
