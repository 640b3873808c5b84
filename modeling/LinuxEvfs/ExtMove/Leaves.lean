import Mathlib.Data.Set.Card
import LinuxEvfs.ExtMove.Credits
import LinuxEvfs.ExtMove.Exact
import LinuxEvfs.ExtTree.Leaves

/-! # The leaves a move hands over

On a tree whose leaves have room for the cuts, every pass that stores or splits hands over the leaf of the cursor and
nothing else, and all lookups go to the leaves they went to before the move. So the buffers of a move from an exact
position are the leaves of the mapped blocks in its range.

* `splitPass_quiet`, `storePass_quiet`: one pass; `quiet_inside`: one call of `__evfs_extent_map`.
* `moveLoop_leaves`, `move_hands`: all calls. -/

namespace LinuxEvfs.ExtMove.Leaves

open LinuxEvfs.Errno LinuxEvfs.Lib.Word LinuxEvfs.Lib.IndexTree LinuxEvfs.Lib.IndexInsert LinuxEvfs.Lib.IndexFrame
open LinuxEvfs.Lib.TreeJournal LinuxEvfs.Lib.TreeBuffers LinuxEvfs.Lib.Credits LinuxEvfs.Lib.Holes
open LinuxEvfs.ExtTree.Basic LinuxEvfs.ExtTree.Cells LinuxEvfs.ExtTree.Tree LinuxEvfs.ExtTree.Split
open LinuxEvfs.ExtTree.Leaves
open LinuxEvfs.ExtMove.Model LinuxEvfs.ExtMove.Cursor LinuxEvfs.ExtMove.Refine LinuxEvfs.ExtMove.Loop
open LinuxEvfs.ExtMove.Exact LinuxEvfs.ExtMove.Journal LinuxEvfs.ExtMove.Credits

/-- The buffer of a leaf; the root lies in the inode. -/
def pathBuf (d : ℕ) (nums : Nums) (p : Path d) : Buf := (leafNo d none nums p).elim .itable .tree

/-- The buffer of the leaf a lookup goes to. -/
def leafBuf (t : ExtRoot) (nums : Nums) (x : ℕ) : Buf := pathBuf t.1 nums (ext4FindExtent t x)

variable {d : ℕ} {P : List ℕ} {t0 t : Tree Extent d} {nums : Nums} {l r : List Extent} {e : Extent} {x c : ℕ}

theorem leafBuf_kept (h : Kept P t0 t) (nums : Nums) (x : ℕ) : leafBuf ⟨d, t⟩ nums x = leafBuf ⟨d, t0⟩ nums x := by
  simp only [leafBuf, pathBuf, ext4FindExtent, leafNo_eq, h.lookup]

theorem pathBuf_eq (hd : d ≠ 0) (nums : Nums) (p : Path d) : pathBuf d nums p = .tree (nums (spine d p)) := by
  rw [pathBuf, leafNo_eq, if_neg hd, Option.elim_some]

/-- The leaf, or the inode. -/
theorem leaf_bufs (nums : Nums) (p : Path d) :
    (leafNo d none nums p).toFinset.image .tree ∪ topBufs (d == 0) = {pathBuf d nums p} := by
  rw [pathBuf, leafNo_eq]
  by_cases hd : d = 0
  · subst hd
    rfl
  · simp [hd, topBufs]

/-! ### One pass -/

/-- What the move starts from: no call fails, the leaves have room for the cuts, and none moves into the inode. -/
structure Start (env : Env) (P : List ℕ) (t0 : Tree Extent d) : Prop where
  succeeds : Succeeds env
  wf : WellFormed ⟨d, t0⟩
  roomy : Roomy P t0
  wide : d = 1 → width d t0 ≠ 1

/-- What the passes keep. -/
structure Now (P : List ℕ) (t0 t : Tree Extent d) : Prop where
  wf : WellFormed ⟨d, t⟩
  kept : Kept P t0 t
  dom_eq : dom (cells (exts ⟨d, t⟩)) = dom (cells (exts ⟨d, t0⟩))

section pass
variable (blocksize : ℕ) (env : Env) (bl : BlockEnv) (sp : SpaceEnv) (curr : EvfsExt) (calls len : ℕ)

theorem leafFull_updItem (g : Extent → Extent) (t : Tree Extent d) (p : Path d) :
    leafFull d (updItem g d t p) p = leafFull d t p := by
  simp only [leafFull, leaf_eq_leafAt, updItem, leafAt_updLeaf, if_true]
  cases leafAt d t (spine d p) with
  | none => rfl
  | some lf => cases Path.last d p <;> simp

theorem splitTail_eeBlock (e : Extent) (x : ℕ) (unwritten : Bool) : (splitTail e x unwritten).eeBlock = x :=
  setLen_eeBlock

/-- The tree after a split at `x` in a leaf with room. -/
def halved (e : Extent) (x : ℕ) (t : Tree Extent d) (p : Path d) : Tree Extent d :=
  updLeaf (insertBehind (splitTail e x (ext4ExtIsUnwritten e))) d
    (updItem (setLen · (x - e.eeBlock) (ext4ExtIsUnwritten e)) d t p) p

theorem Kept.halved (hk : Kept P t0 t) {p : Path d}
    (hx : ∀ lf0, leafAt d t0 (spine d p) = some lf0 → x ∈ starts lf0.entries ++ cuts P lf0.entries) :
    Kept P t0 (halved e x t p) := by
  have hshort : Kept P t0 (updItem (setLen · (x - e.eeBlock) (ext4ExtIsUnwritten e)) d t p) :=
    hk.updItem (fun _ => setLen_eeBlock) _
  exact hshort.insertBehind (by rwa [splitTail_eeBlock])

/-- The pass that splits in a leaf with room. -/
theorem splitPass_room (hsplit : env.split calls = .ok) (hw : WellFormed ⟨d, t⟩)
    (hat : At d t (ext4FindExtent ⟨d, t⟩ c) l (some e) r) (h1 : e.eeBlock < x) (h2 : x < e.last)
    (hroom : leafFull d t (ext4FindExtent ⟨d, t⟩ c) = false) (nums : Nums) :
    splitPass blocksize env curr ⟨⟨d, t⟩, calls⟩ c len x =
        .cont ⟨⟨d, halved e x t (ext4FindExtent ⟨d, t⟩ c)⟩, calls + 1⟩ c len ∧
      splitPassStep blocksize env bl sp ⟨⟨d, t⟩, calls⟩ nums c x = ⟨0, {leafBuf ⟨d, t⟩ nums c}⟩ ∧
      (splitPassJ blocksize env bl ⟨⟨d, t⟩, calls⟩ nums c x).1 = nums := by
  have he : pExt ⟨d, t⟩ (ext4FindExtent ⟨d, t⟩ c) = some e := hat.item_eq
  have hin : ¬ (x < e.eeBlock ∨ add32 e.eeBlock (ext4ExtGetActualLen e) ≤ x) := by
    rw [(hw.legal (exts_of_at hat)).end_eq]
    omega
  have hne : x ≠ e.eeBlock := by omega
  have hlt : (setLen e (x - e.eeBlock) (ext4ExtIsUnwritten e)).eeBlock <
      (splitTail e x (ext4ExtIsUnwritten e)).eeBlock := by
    rwa [setLen_eeBlock, splitTail_eeBlock]
  obtain ⟨hins, hnums, hhand, hmade, htop⟩ := insert_room hlt
    (hat.updItem (g := (setLen · (x - e.eeBlock) (ext4ExtIsUnwritten e)))) ((leafFull_updItem _ t _).trans hroom)
    (ext4ExtSpaceBlock blocksize) (bl.alloc calls) nums
  refine ⟨?_, ?_, ?_⟩
  · rw [splitPass, hsplit, forceSplit_eq blocksize hw hat h1 h2 .ok]
    simp only [ext4ExtInsertExtent, updExt, hins, halved]
  · simp only [splitPassStep, splitPassJ, ext4ForceSplitExtentAtJ, ext4SplitExtentAtJ, splitTop, he, hsplit,
      if_neg hin, if_neg hne, Option.elim_some, treeBufs, handed_append, made_append, handed_touch, made_touch, updExt,
      hhand, hmade, htop, Finset.union_self, Bool.or_self]
    simpa [SpaceEnv.bufs, leafBuf] using leaf_bufs nums (ext4FindExtent ⟨d, t⟩ c)
  · simp only [splitPassJ, ext4ForceSplitExtentAtJ, ext4SplitExtentAtJ, he, hsplit, if_neg hin, if_neg hne, updExt,
      hnums]

/-- **A split** at a start of the first tree, or at a point. -/
theorem splitPass_quiet (hs : Start env P t0) (hn : Now P t0 t)
    (hat : At d t (ext4FindExtent ⟨d, t⟩ c) l (some e) r) (h1 : e.eeBlock < x) (h2 : x < e.last)
    (hx : x ∈ starts (exts ⟨d, t0⟩) ++ P) (nums : Nums) :
    ∃ t', splitPass blocksize env curr ⟨⟨d, t⟩, calls⟩ c len x = .cont ⟨⟨d, t'⟩, calls + 1⟩ c len ∧
      splitPassStep blocksize env bl sp ⟨⟨d, t⟩, calls⟩ nums c x = ⟨0, {leafBuf ⟨d, t0⟩ nums c}⟩ ∧
      (splitPassJ blocksize env bl ⟨⟨d, t⟩, calls⟩ nums c x).1 = nums ∧ Now P t0 t' ∧
      ∃ a b, exts ⟨d, t'⟩ = l ++ a :: b :: r ∧ b.eeBlock = x ∧ Halves a b e := by
  obtain ⟨hw, hk, hdom⟩ := hn
  have hm : x ∈ dom (cells (exts ⟨d, t0⟩)) := by
    rw [← hdom]
    exact mem_dom_cells.mpr ⟨e, by rw [exts_of_at hat]; simp, h1.le, h2⟩
  have hleaf : ∀ lf0, leafAt d t0 (spine d (ext4FindExtent ⟨d, t⟩ c)) = some lf0 →
      x ∈ starts lf0.entries ++ cuts P lf0.entries := fun lf0 hlf0 =>
    hk.mem_leaf hs.wf hx (mem_dom_cells.mp hm) ((congrArg _ (congrArg _ (find_eq hw hat h1.le h2))).trans hlf0)
  obtain ⟨hpass, hstep, hJ⟩ := splitPass_room blocksize env bl sp curr calls len (hs.succeeds.split calls) hw hat h1 h2
    (hk.room hs.roomy hw hat h1 h2 hleaf) nums
  rw [leafBuf_kept hk] at hstep
  obtain ⟨-, t1, a, b, hwt, hext, hb, hh, hkeep, hp⟩ | ⟨hfail, -⟩ :=
    splitPass_eq blocksize env curr (s := ⟨⟨d, t⟩, calls⟩) len hw hat h1 h2
  · obtain rfl : t1 = ⟨d, halved e x t _⟩ := congrArg St.tree (Pass.cont.inj (hp.symm.trans hpass)).1
    exact ⟨_, hpass, hstep, hJ, ⟨hwt, Kept.halved hk hleaf, (dom_eq_of_shape (Keeps.shape_eq hkeep)).trans hdom⟩,
      a, b, hext, hb, hh⟩
  · exact absurd (hs.succeeds.split calls) hfail

theorem store_eeBlock (ex : Extent) (pb : ℕ) : (ext4ExtStorePblock ex pb).eeBlock = ex.eeBlock := rfl

/-- **A store.** -/
theorem storePass_quiet (hs : Start env P t0) (hn : Now P t0 t) (hex : exts ⟨d, t⟩ = l ++ e :: r)
    (hc : e.eeBlock = curr.logStart) (hend : curr.logStart + curr.len < 2 ^ 32)
    (hle : e.last ≤ curr.logStart + curr.len) (nums : Nums) :
    ∃ t', storePass env curr ⟨⟨d, t⟩, calls⟩ e curr.logStart (ext4ExtGetActualLen e) =
        .done ⟨⟨d, t'⟩, calls + 1⟩ 0 (EvfsExt.of curr.logStart e.eeStart (ext4ExtGetActualLen e))
          (if ext4ExtGetActualLen e < curr.len then
            EvfsExt.of (curr.logStart + ext4ExtGetActualLen e)
              (add64 curr.phyStart (ext4ExtGetActualLen e)) (curr.len - ext4ExtGetActualLen e)
          else EvfsExt.zero) ∧
      storePassStep env sp curr ⟨⟨d, t⟩, calls⟩ nums curr.logStart = ⟨0, {leafBuf ⟨d, t0⟩ nums curr.logStart}⟩ ∧
      Now P t0 t' := by
  obtain ⟨hw, hk, hdom⟩ := hn
  obtain ⟨t1, hw1, hcells, hpass⟩ := storePass_eq env (s := ⟨⟨d, t⟩, calls⟩) hw hex hc hend hle
  have hstore := hk.updItem (g := (ext4ExtStorePblock · (sub64 (add64 curr.phyStart curr.logStart) curr.logStart)))
    (fun ex => store_eeBlock ex _) (ext4FindExtent ⟨d, t⟩ curr.logStart)
  obtain ⟨t', ht', hk'⟩ := hstore.merge (env.extend calls) hs.wide (ext4FindExtent ⟨d, t⟩ curr.logStart)
  have htree : t1 = ⟨d, t'⟩ := by
    have hdef := hpass
    simp only [storePass, updExt, ht', hs.succeeds.dirty] at hdef
    exact (congrArg St.tree (Pass.done.inj hdef).1).symm
  subst htree
  rw [hs.succeeds.dirty] at hpass
  refine ⟨t', hpass, ?_, hw1, hk', ?_⟩
  · have hset : treeBufs ((leafNo d none nums (ext4FindExtent ⟨d, t⟩ curr.logStart)).elim [] fun no =>
        [.change no, .dirty no]) ∪ topBufs (d == 0) = {leafBuf ⟨d, t0⟩ nums curr.logStart} := by
      rw [← leafBuf_kept hk, leafBuf, ← leaf_bufs, treeBufs]
      cases leafNo d none nums (ext4FindExtent ⟨d, t⟩ curr.logStart) <;> rfl
    simp only [storePassStep, storePassJ, updExt, ht', lt_irrefl, if_false]
    rw [hset]
  · rw [← hdom]
    refine dom_eq_of_shape ?_
    rw [hcells, remap_shape]

end pass

/-! ### One call -/

section call
variable {blocksize fuel calls k : ℕ} {env : Env} {bl : BlockEnv} {sp : SpaceEnv} {curr : EvfsExt} {E : ℕ}

/-- The next cursor behind a swap of `k` blocks. -/
def nextBehind (curr : EvfsExt) (k : ℕ) : EvfsExt :=
  if k < curr.len then EvfsExt.of (curr.logStart + k) (add64 curr.phyStart k) (curr.len - k) else EvfsExt.zero

/-- What a lookup leads to: the split at the cursor, the split at the end of the range, or the store. -/
theorem mapPass_steps (blocksize : ℕ) (bl : BlockEnv) (sp : SpaceEnv) (nums : Nums) (st : St)
    (hf : env.find st.calls = none) (hl : Legal e) (h1 : e.eeBlock ≤ curr.logStart) (h2 : curr.logStart < e.last)
    (hat : At st.tree.1 st.tree.2 (ext4FindExtent st.tree curr.logStart) l (some e) r) (h0 : 0 < curr.len)
    (hend : curr.logStart + curr.len < 2 ^ 32) :
    mapPassStep blocksize env bl sp curr st nums curr.logStart curr.len =
        (if e.eeBlock < curr.logStart then
          splitPassStep blocksize env bl sp ⟨st.tree, st.calls + 1⟩ nums curr.logStart curr.logStart
        else if curr.logStart + curr.len < e.last then
          splitPassStep blocksize env bl sp ⟨st.tree, st.calls + 1⟩ nums curr.logStart (curr.logStart + curr.len)
        else storePassStep env sp curr ⟨st.tree, st.calls + 1⟩ nums curr.logStart) ∧
      mapPassJ blocksize env bl curr st nums curr.logStart curr.len =
        (if e.eeBlock < curr.logStart then
          splitPassJ blocksize env bl ⟨st.tree, st.calls + 1⟩ nums curr.logStart curr.logStart
        else if curr.logStart + curr.len < e.last then
          splitPassJ blocksize env bl ⟨st.tree, st.calls + 1⟩ nums curr.logStart (curr.logStart + curr.len)
        else storePassJ env curr ⟨st.tree, st.calls + 1⟩ nums curr.logStart) := by
  have hp : pExt st.tree (ext4FindExtent st.tree curr.logStart) = some e := hat.item_eq
  have hnle : ¬ curr.logStart + curr.len ≤ curr.logStart := by omega
  have hsub : sub32 (curr.logStart + curr.len) curr.logStart = curr.len := by
    rw [sub32_of_le (by omega) hend]
    omega
  simp only [mapPassStep, mapPassJ, insidePassStep, insidePassJ, hf, hp, if_neg (Nat.not_lt.mpr h1), hl.end_eq,
    if_neg (Nat.not_le.mpr h2), add32_of_lt hend, if_neg hnle, hsub]
  by_cases hgt : curr.logStart + curr.len < e.last
  · have hnlt : ¬ e.last < curr.logStart + curr.len := by omega
    simp only [if_neg hnlt, add32_of_lt hend, if_pos hgt, and_self]
  · -- the length is cut to the extent
    have hcut : ¬ add32 curr.logStart
        (if e.last < curr.logStart + curr.len then sub32 e.last curr.logStart else curr.len) < e.last := by
      split_ifs with hlt
      · rw [sub32_of_le h2.le (by omega), add32_of_lt (by omega)]
        omega
      · rwa [add32_of_lt hend]
    simp only [if_neg hcut, if_neg hgt, and_self]

/-- The `k` blocks from `c` on are mapped and in one leaf, and a mapped block behind them starts an extent, or is a
point. -/
structure Piece (P : List ℕ) (t0 : Tree Extent d) (nums : Nums) (c k : ℕ) : Prop where
  pos : 0 < k
  mapped : ∀ x, c ≤ x → x < c + k → x ∈ dom (cells (exts ⟨d, t0⟩))
  leaf : ∀ x, c ≤ x → x < c + k → leafBuf ⟨d, t0⟩ nums x = leafBuf ⟨d, t0⟩ nums c
  behind : c + k ∈ dom (cells (exts ⟨d, t0⟩)) → c + k ∈ starts (exts ⟨d, t0⟩) ++ P

/-- An extent of a later tree is a piece. -/
theorem Now.piece (hn : Now P t0 t) (hex : exts ⟨d, t⟩ = l ++ e :: r) (nums : Nums) :
    Piece P t0 nums e.eeBlock (ext4ExtGetActualLen e) := by
  have hmem : e ∈ exts ⟨d, t⟩ := by rw [hex]; simp
  have hl : Legal e := hn.wf.valid.legal e hmem
  refine ⟨hl.len_pos, fun x h1 h2 => ?_, fun x h1 h2 => ?_, fun hdom => ?_⟩
  · rw [← hn.dom_eq]
    exact mem_dom_cells.mpr ⟨e, hmem, h1, h2⟩
  · rw [← leafBuf_kept hn.kept, ← leafBuf_kept hn.kept, leafBuf, leafBuf, find_eq hn.wf (find_start hn.wf hex) h1 h2]
  · rw [← hn.dom_eq] at hdom
    refine hn.kept.mem_starts hn.wf (start_of_end hn.wf.valid (mem_dom_cells.mp hdom) fun y hy _ => ?_)
    have := hl.len_pos
    exact ⟨e, hmem, by omega, rfl⟩

/-- **A call that moves a piece at the cursor** and hands over its leaf alone. -/
structure Quiet (blocksize : ℕ) (env : Env) (bl : BlockEnv) (sp : SpaceEnv) (curr : EvfsExt) (P : List ℕ)
    (t0 : Tree Extent d) (nums : Nums) (fuel : ℕ) (st : St) : Prop where
  returns : ∃ t' calls' rep k, mapLoop blocksize env curr fuel st curr.logStart curr.len =
      .ret (⟨⟨d, t'⟩, calls'⟩, 0, rep, nextBehind curr k) ∧
    Now P t0 t' ∧ Piece P t0 nums curr.logStart k ∧ k ≤ curr.len
  nums_eq : (mapLoopJ blocksize env bl curr fuel st nums curr.logStart curr.len).1 = nums
  gain : ∀ s ∈ mapLoopSteps blocksize env bl sp curr fuel st nums curr.logStart curr.len, s.gain = 0
  buffers_eq : buffers (mapLoopSteps blocksize env bl sp curr fuel st nums curr.logStart curr.len) =
    {leafBuf ⟨d, t0⟩ nums curr.logStart}

/-- A split comes before the rest of the call. -/
theorem Quiet.cons {st st' : St} (hpass : mapPass blocksize env curr st curr.logStart curr.len =
      .cont st' curr.logStart curr.len)
    (hstep : mapPassStep blocksize env bl sp curr st nums curr.logStart curr.len =
      ⟨0, {leafBuf ⟨d, t0⟩ nums curr.logStart}⟩)
    (hJ : (mapPassJ blocksize env bl curr st nums curr.logStart curr.len).1 = nums)
    (h : Quiet blocksize env bl sp curr P t0 nums fuel st') :
    Quiet blocksize env bl sp curr P t0 nums (fuel + 1) st where
  returns := by
    simp only [mapLoop, hpass]
    exact h.returns
  nums_eq := by
    simp only [mapLoopJ, hpass, hJ]
    exact h.nums_eq
  gain := by
    simp only [mapLoopSteps, hpass, hJ, hstep]
    exact List.forall_mem_cons.mpr ⟨rfl, h.gain⟩
  buffers_eq := by
    simp only [mapLoopSteps, hpass, hJ, hstep, buffers, h.buffers_eq, Finset.union_self]

/-- The last pass: the extent is the part of it to be stored. -/
theorem quiet_store (hs : Start env P t0) (hn : Now P t0 t) (hex : exts ⟨d, t⟩ = l ++ e :: r)
    (hc : e.eeBlock = curr.logStart) (h0 : 0 < curr.len) (hend : curr.logStart + curr.len < 2 ^ 32)
    (hle : e.last ≤ curr.logStart + curr.len) (nums : Nums) :
    Quiet blocksize env bl sp curr P t0 nums (fuel + 1) ⟨⟨d, t⟩, calls⟩ := by
  have hl : Legal e := hn.wf.legal hex
  have hlast : e.last = curr.logStart + ext4ExtGetActualLen e := by rw [Extent.last, hc]
  have hat : At d t (ext4FindExtent ⟨d, t⟩ curr.logStart) l (some e) r := hc ▸ find_start hn.wf hex
  have hf := hs.succeeds.find calls
  obtain ⟨t', hstore, hstep, hn'⟩ := storePass_quiet env sp curr (calls + 1) hs hn hex hc hend hle nums
  obtain ⟨hst, hJ⟩ := mapPass_steps blocksize bl sp nums ⟨⟨d, t⟩, calls⟩ hf hl hc.le
    (hc ▸ hl.block_lt_last) hat h0 hend
  have hpass : mapPass blocksize env curr ⟨⟨d, t⟩, calls⟩ curr.logStart curr.len = _ :=
    mapPass_mapped blocksize hf hl hc.le (hc ▸ hl.block_lt_last) hat h0 hend
  rw [if_neg (by omega), if_neg (by omega), hstore] at hpass
  rw [if_neg (by omega), if_neg (by omega), hstep] at hst
  rw [if_neg (by omega), if_neg (by omega)] at hJ
  refine ⟨⟨t', calls + 2, EvfsExt.of curr.logStart e.eeStart (ext4ExtGetActualLen e), ext4ExtGetActualLen e, ?_, hn',
    hc ▸ hn.piece hex nums, by omega⟩, ?_, ?_, ?_⟩
  · simp only [mapLoop, hpass, nextBehind]
  · simp only [mapLoopJ, hpass, hJ, storePassJ]
  · simp only [mapLoopSteps, hpass, hst, List.mem_singleton, forall_eq]
  · simp only [mapLoopSteps, hpass, hst, buffers, Finset.union_empty]

/-- The pass that cuts the extent at the end of the range. -/
theorem quiet_right (hs : Start env P t0) (hn : Now P t0 t) (hex : exts ⟨d, t⟩ = l ++ e :: r)
    (hc : e.eeBlock = curr.logStart) (h0 : 0 < curr.len) (hend : curr.logStart + curr.len < 2 ^ 32)
    (hgt : curr.logStart + curr.len < e.last) (hE : curr.logStart + curr.len ∈ P) (nums : Nums) :
    Quiet blocksize env bl sp curr P t0 nums (fuel + 2) ⟨⟨d, t⟩, calls⟩ := by
  have hl : Legal e := hn.wf.legal hex
  have hat : At d t (ext4FindExtent ⟨d, t⟩ curr.logStart) l (some e) r := hc ▸ find_start hn.wf hex
  have hf := hs.succeeds.find calls
  obtain ⟨t', hsplit, hstep, hsJ, hn', a, b, hext, hb, hh⟩ :=
    splitPass_quiet blocksize env bl sp curr (calls + 1) curr.len hs hn hat (x := curr.logStart + curr.len)
      (by omega) hgt (List.mem_append_right _ hE) nums
  obtain ⟨hst, hJ⟩ := mapPass_steps blocksize bl sp nums ⟨⟨d, t⟩, calls⟩ hf hl hc.le
    (hc ▸ hl.block_lt_last) hat h0 hend
  have hnlt : ¬ e.eeBlock < curr.logStart := by omega
  rw [if_neg hnlt, if_pos hgt] at hst hJ
  have hac : a.eeBlock = curr.logStart := by rw [← hh.block, hc]
  have hlast : a.last = curr.logStart + curr.len := by rw [← hh.adj, hb]
  have hrest : Quiet blocksize env bl sp curr P t0 nums (fuel + 1) ⟨⟨d, t'⟩, calls + 2⟩ :=
    quiet_store hs hn' hext hac h0 hend hlast.le nums
  refine Quiet.cons ?_ (hst.trans hstep) (hJ ▸ hsJ) hrest
  rw [mapPass_mapped blocksize hf hl hc.le (by omega) hat h0 hend, if_neg hnlt, if_pos hgt]
  exact hsplit

/-- **A call at a mapped block.** -/
theorem quiet_inside (hs : Start env P t0) (hn : Now P t0 t) (hc : curr.logStart ∈ dom (cells (exts ⟨d, t0⟩)))
    (hstart : curr.logStart ∈ starts (exts ⟨d, t0⟩) ++ P) (h0 : 0 < curr.len)
    (hend : curr.logStart + curr.len < 2 ^ 32) (hE : curr.logStart + curr.len ∈ P) (nums : Nums) :
    Quiet blocksize env bl sp curr P t0 nums (fuel + 3) ⟨⟨d, t⟩, calls⟩ := by
  rw [← hn.dom_eq] at hc
  obtain ⟨l, e, r, hex, h1, h2, hat⟩ := find_inside hn.wf hc
  have hl : Legal e := hn.wf.legal hex
  have hf := hs.succeeds.find calls
  rcases Nat.lt_or_eq_of_le h1 with hlt | heq
  · obtain ⟨t', hsplit, hstep, hsJ, hn', a, b, hext, hb, hh⟩ :=
      splitPass_quiet blocksize env bl sp curr (calls + 1) curr.len hs hn hat hlt h2 hstart nums
    obtain ⟨hst, hJ⟩ := mapPass_steps blocksize bl sp nums ⟨⟨d, t⟩, calls⟩ hf hl h1 h2 hat h0 hend
    rw [if_pos hlt] at hst hJ
    have hext' : exts ⟨d, t'⟩ = (l ++ [a]) ++ b :: r := by simpa using hext
    have hrest : Quiet blocksize env bl sp curr P t0 nums (fuel + 2) ⟨⟨d, t'⟩, calls + 2⟩ := by
      by_cases hgt : curr.logStart + curr.len < b.last
      · exact quiet_right hs hn' hext' hb h0 hend hgt hE nums
      · exact quiet_store hs hn' hext' hb h0 hend (Nat.not_lt.mp hgt) nums
    refine Quiet.cons ?_ (hst.trans hstep) (hJ ▸ hsJ) hrest
    rw [mapPass_mapped blocksize hf hl h1 h2 hat h0 hend, if_pos hlt]
    exact hsplit
  · by_cases hgt : curr.logStart + curr.len < e.last
    · exact quiet_right hs hn hex heq h0 hend hgt hE nums
    · exact quiet_store hs hn hex heq h0 hend (Nat.not_lt.mp hgt) nums

/-- A call that ends in its first pass and hands nothing over. -/
theorem mapLoop_nothing (fuel : ℕ) {st st' : St} {ret : ℤ} {rep next : EvfsExt}
    (hpass : mapPass blocksize env curr st curr.logStart curr.len = .done st' ret rep next)
    (hstep : mapPassStep blocksize env bl sp curr st nums curr.logStart curr.len = nothing)
    (hJ : (mapPassJ blocksize env bl curr st nums curr.logStart curr.len).1 = nums) :
    evfsExtentMap blocksize env (fuel + 1) curr st = .ret (st', ret, rep, next) ∧
      mapLoopSteps blocksize env bl sp curr (fuel + 1) st nums curr.logStart curr.len = [nothing] ∧
      (mapLoopJ blocksize env bl curr (fuel + 1) st nums curr.logStart curr.len).1 = nums := by
  simp only [evfsExtentMap, mapLoop, mapLoopSteps, mapLoopJ, hpass, hstep, hJ, and_self]

/-- A lookup in a hole. -/
theorem mapPass_hole_steps (blocksize : ℕ) (env : Env) (bl : BlockEnv) (sp : SpaceEnv) (nums : Nums) (st : St)
    (hw : WellFormed st.tree) (hc : curr.logStart ∉ dom (cells (exts st.tree))) :
    mapPassStep blocksize env bl sp curr st nums curr.logStart curr.len = nothing ∧
      (mapPassJ blocksize env bl curr st nums curr.logStart curr.len).1 = nums := by
  unfold mapPassStep mapPassJ
  cases env.find st.calls with
  | some err => exact ⟨rfl, rfl⟩
  | none =>
    rcases find_cases hw curr.logStart with ⟨-, hp⟩ | ⟨l, e, r, -, hex, hp, -, -⟩
    · simp only [hp, and_self]
    · have hmem : e ∈ exts st.tree := by rw [hex]; simp
      have hout : ¬ (e.eeBlock ≤ curr.logStart ∧ curr.logStart < e.last) := fun h =>
        hc (mem_dom_cells.mpr ⟨e, hmem, h⟩)
      simp only [hp, (hw.valid.legal e hmem).end_eq]
      by_cases hlt : curr.logStart < e.eeBlock
      · simp only [if_pos hlt, and_self]
      · have hle : e.last ≤ curr.logStart := by omega
        simp only [if_neg hlt, if_pos hle, and_self]

/-- A lookup at a mapped block with a range that wraps. -/
theorem mapPass_wrapped_steps (blocksize : ℕ) (bl : BlockEnv) (sp : SpaceEnv) (nums : Nums) {st : St}
    (hs : Succeeds env) (hw : WellFormed st.tree)
    (hc : curr.logStart ∈ dom (cells (exts st.tree))) (hend : 2 ^ 32 ≤ curr.logStart + curr.len) :
    mapPass blocksize env curr st curr.logStart curr.len = .done ⟨st.tree, st.calls + 1⟩ eof curr EvfsExt.zero ∧
      mapPassStep blocksize env bl sp curr st nums curr.logStart curr.len = nothing ∧
      (mapPassJ blocksize env bl curr st nums curr.logStart curr.len).1 = nums := by
  obtain ⟨l, e, r, hex, h1, h2, hat⟩ := find_inside hw hc
  have hl : Legal e := hw.legal hex
  have hp : pExt st.tree (ext4FindExtent st.tree curr.logStart) = some e := hat.item_eq
  have hwrap := add32_wraps curr hend
  refine ⟨mapPass_wrapped blocksize (hs.find _) hw hc hend, ?_, ?_⟩
  · simp only [mapPassStep, hs.find, hp, hl.end_eq, if_neg (Nat.not_lt.mpr h1), if_neg (Nat.not_le.mpr h2),
      insidePassStep, if_pos hwrap]
  · simp only [mapPassJ, hs.find, hp, hl.end_eq, if_neg (Nat.not_lt.mpr h1), if_neg (Nat.not_le.mpr h2),
      insidePassJ, if_pos hwrap]

end call

/-! ### All calls -/

section loop
variable {blocksize fuel room : ℕ} {env : Env} {bl : BlockEnv} {sp : SpaceEnv} {curr : EvfsExt} {E : ℕ} {st : St}

/-- The mapped blocks from `c` to `E`. -/
def inRange (t : ExtRoot) (c E : ℕ) : Set ℕ := { x | x ∈ mapped (exts t) ∧ c ≤ x ∧ x < E }

/-- Nothing is gained, and the buffers are those of the set. -/
structure Hands (steps : List (Step Buf)) (S : Set Buf) : Prop where
  gain : ∀ s ∈ steps, s.gain = 0
  buffers_eq : (buffers steps : Set Buf) = S

theorem hands_nil : Hands [] ∅ := ⟨by simp, by simp [buffers]⟩

theorem Hands.nothing {steps : List (Step Buf)} {S : Set Buf} (h : Hands steps S) : Hands (nothing :: steps) S :=
  ⟨List.forall_mem_cons.mpr ⟨rfl, h.gain⟩, by rw [buffers, Credits.nothing, Finset.empty_union, h.buffers_eq]⟩

theorem Hands.append {steps steps' : List (Step Buf)} {S S' : Set Buf} (h : Hands steps S) (h' : Hands steps' S') :
    Hands (steps ++ steps') (S ∪ S') where
  gain s hs := (List.mem_append.mp hs).elim (h.gain s) (h'.gain s)
  buffers_eq := by rw [buffers_append, Finset.coe_union, h.buffers_eq, h'.buffers_eq]

theorem inRange_empty {t : ExtRoot} (h : E ≤ c) : inRange t c E = ∅ :=
  Set.eq_empty_of_forall_notMem fun x hx => by
    have := hx.2
    omega

/-- The range begins behind a hole. -/
theorem inRange_next {t : ExtRoot} {N : ℕ} (h : Next (dom (cells (exts t))) c N) : inRange t c E = inRange t N E := by
  ext x
  constructor
  · rintro ⟨hx, h1, h2⟩
    exact ⟨hx, Nat.not_lt.mp fun hlt => h.free x h1 hlt (mem_dom_cells.mpr hx), h2⟩
  · rintro ⟨hx, h1, h2⟩
    exact ⟨hx, h.lt.le.trans h1, h2⟩

theorem moveLoop_zero (h0 : curr.len = 0) (room : ℕ) (st : St) :
    moveLoopSteps blocksize env bl sp fuel room st nums curr = [] := by
  cases room with
  | zero => rfl
  | succ room => rw [moveLoopSteps, if_pos h0]

/-- One round of the loop around a call that returns zero or more. -/
theorem moveLoop_succ {st' : St} {err : ℤ} {rep next : EvfsExt} (h0 : 0 < curr.len)
    (hcall : evfsExtentMap blocksize env fuel curr st = .ret (st', err, rep, next)) (herr : 0 ≤ err)
    (hJ : (mapLoopJ blocksize env bl curr fuel st nums curr.logStart curr.len).1 = nums) :
    moveLoopSteps blocksize env bl sp fuel (room + 1) st nums curr =
      mapLoopSteps blocksize env bl sp curr fuel st nums curr.logStart curr.len ++
        moveLoopSteps blocksize env bl sp fuel room st' nums next := by
  rw [moveLoopSteps, if_neg h0.ne']
  simp only [hcall, hJ, if_neg (Int.not_lt.mpr herr)]

/-- A cursor on a mapped block whose range wraps. -/
theorem moveLoop_wrapped (hs : Succeeds env) (hw : WellFormed st.tree) (hc : curr.logStart ∈ dom (cells (exts st.tree)))
    (hend : 2 ^ 32 ≤ curr.logStart + curr.len) :
    Hands (moveLoopSteps blocksize env bl sp (fuel + 1) room st nums curr) ∅ := by
  cases room with
  | zero => exact hands_nil
  | succ room =>
    have h0 : 0 < curr.len := by have := curr.log_lt; omega
    obtain ⟨hpass, hstep, hJ⟩ := mapPass_wrapped_steps blocksize bl sp nums hs hw hc hend
    obtain ⟨hcall, hsteps, hJ'⟩ := mapLoop_nothing fuel hpass hstep hJ
    rw [moveLoop_succ h0 hcall (by decide) hJ', hsteps, moveLoop_zero rfl]
    exact hands_nil.nothing

/-- A mapped block behind a hole starts an extent. -/
theorem next_start {N : ℕ} (hw : WellFormed ⟨d, t0⟩) (h : Next (dom (cells (exts ⟨d, t0⟩))) c N) :
    N ∈ starts (exts ⟨d, t0⟩) := by
  refine start_of_end hw.valid (mem_dom_cells.mp h.mem) fun y hy hmap => ?_
  have := h.lt
  exact absurd (mem_dom_cells.mpr hmap) (h.free y (by omega) (by omega))

/-- The buffers of a piece and of what comes behind it. -/
theorem Piece.image {k : ℕ} (h : Piece P t0 nums c k) (hle : c + k ≤ E) :
    {leafBuf ⟨d, t0⟩ nums c} ∪ leafBuf ⟨d, t0⟩ nums '' inRange ⟨d, t0⟩ (c + k) E =
      leafBuf ⟨d, t0⟩ nums '' inRange ⟨d, t0⟩ c E := by
  have hpos := h.pos
  ext b
  constructor
  · rintro (rfl | ⟨x, ⟨hx, h1, h2⟩, rfl⟩)
    · exact ⟨c, ⟨mem_dom_cells.mp (h.mapped c (Nat.le_refl _) (by omega)), Nat.le_refl _, by omega⟩, rfl⟩
    · exact ⟨x, ⟨hx, by omega, h2⟩, rfl⟩
  · rintro ⟨x, ⟨hx, h1, h2⟩, rfl⟩
    by_cases hlt : x < c + k
    · exact .inl (h.leaf x h1 hlt)
    · exact .inr ⟨x, ⟨hx, Nat.not_lt.mp hlt, h2⟩, rfl⟩

/-- What is left of the request is handed over as it should be. -/
def Rest (blocksize fuel : ℕ) (env : Env) (bl : BlockEnv) (sp : SpaceEnv) (P : List ℕ) (t0 : Tree Extent d)
    (nums : Nums) (E room : ℕ) : Prop :=
  ∀ (t : Tree Extent d) (calls : ℕ) (curr : EvfsExt), Now P t0 t →
    Exact (dom (cells (exts ⟨d, t0⟩))) curr.logStart →
    (curr.logStart ∈ dom (cells (exts ⟨d, t0⟩)) → curr.logStart ∈ starts (exts ⟨d, t0⟩) ++ P) →
    curr.logStart + curr.len = E → curr.len ≤ room →
    Hands (moveLoopSteps blocksize env bl sp (fuel + 3) room ⟨⟨d, t⟩, calls⟩ nums curr)
      (leafBuf ⟨d, t0⟩ nums '' inRange ⟨d, t0⟩ curr.logStart E)

/-- A round at a mapped block. -/
theorem moveLoop_inside (hs : Start env P t0) (hE : E ∈ P) (hE32 : E < 2 ^ 32) {calls : ℕ} (hn : Now P t0 t)
    (hc : curr.logStart ∈ dom (cells (exts ⟨d, t0⟩))) (hstart : curr.logStart ∈ starts (exts ⟨d, t0⟩) ++ P)
    (h0 : 0 < curr.len) (hend : curr.logStart + curr.len = E) (hroom : curr.len ≤ room + 1)
    (ih : Rest blocksize fuel env bl sp P t0 nums E room) :
    Hands (moveLoopSteps blocksize env bl sp (fuel + 3) (room + 1) ⟨⟨d, t⟩, calls⟩ nums curr)
      (leafBuf ⟨d, t0⟩ nums '' inRange ⟨d, t0⟩ curr.logStart E) := by
  have hq : Quiet blocksize env bl sp curr P t0 nums (fuel + 3) ⟨⟨d, t⟩, calls⟩ :=
    quiet_inside hs hn hc hstart h0 (by omega) (hend ▸ hE) nums
  obtain ⟨t', calls', rep, k, hcall, hn', hpiece, hk⟩ := hq.returns
  have hpos := hpiece.pos
  rw [moveLoop_succ h0 hcall (Int.le_refl 0) hq.nums_eq, ← hpiece.image (by omega : curr.logStart + k ≤ E)]
  refine Hands.append ⟨hq.gain, by rw [hq.buffers_eq, Finset.coe_singleton]⟩ ?_
  unfold nextBehind
  split_ifs with hlt
  · have hlog : (EvfsExt.of (curr.logStart + k) (add64 curr.phyStart k) (curr.len - k)).logStart =
        curr.logStart + k := of_log (by omega)
    have hlen : (EvfsExt.of (curr.logStart + k) (add64 curr.phyStart k) (curr.len - k)).len = curr.len - k :=
      of_len (by have := curr.len_lt; omega)
    have hlast := hpiece.mapped (curr.logStart + k - 1) (by omega) (by omega)
    have hex := exact_of_pred hlast
    rw [Nat.sub_add_cancel (by omega)] at hex
    have h := ih t' calls' _ hn' (hlog.symm ▸ hex) (by rw [hlog]; exact hpiece.behind) (by rw [hlog, hlen]; omega)
      (by rw [hlen]; omega)
    rwa [hlog] at h
  · rw [moveLoop_zero zero_len, inRange_empty (by omega), Set.image_empty]
    exact hands_nil

/-- A round in a hole. -/
theorem moveLoop_hole (hs : Start env P t0) (hE32 : E < 2 ^ 32) {calls : ℕ} (hn : Now P t0 t)
    (hx : Exact (dom (cells (exts ⟨d, t0⟩))) curr.logStart) (hc : curr.logStart ∉ dom (cells (exts ⟨d, t0⟩)))
    (h0 : 0 < curr.len) (hend : curr.logStart + curr.len = E) (hroom : curr.len ≤ room + 1)
    (ih : Rest blocksize fuel env bl sp P t0 nums E room) :
    Hands (moveLoopSteps blocksize env bl sp (fuel + 3) (room + 1) ⟨⟨d, t⟩, calls⟩ nums curr)
      (leafBuf ⟨d, t0⟩ nums '' inRange ⟨d, t0⟩ curr.logStart E) := by
  have hM : Log32 (cells (exts ⟨d, t0⟩)) := WellFormed.log32 hs.wf
  rw [← hn.dom_eq] at hc
  obtain ⟨hstep, hJ⟩ := mapPass_hole_steps blocksize env bl sp nums ⟨⟨d, t⟩, calls⟩ hn.wf hc
  rcases mapPass_hole blocksize curr (s := ⟨⟨d, t⟩, calls⟩) curr.len hn.wf (hs.succeeds.find _) hc with
    ⟨hall, hpass⟩ | ⟨j, hj, -, hpass⟩
  · obtain ⟨hcall, hsteps, hJ'⟩ := mapLoop_nothing (fuel + 2) hpass hstep hJ
    have hempty : inRange ⟨d, t0⟩ curr.logStart E = ∅ := Set.eq_empty_of_forall_notMem fun x hx => by
      have := hall x (hn.dom_eq ▸ mem_dom_cells.mpr hx.1)
      have := hx.2
      omega
    rw [moveLoop_succ h0 hcall (by decide) hJ', hsteps, moveLoop_zero zero_len, hempty, Set.image_empty]
    exact hands_nil.nothing
  · rw [retJmp] at hpass
    obtain ⟨hcall, hsteps, hJ'⟩ := mapLoop_nothing (fuel + 2) hpass hstep hJ
    rw [hn.dom_eq] at hj
    have hnext : Next (dom (cells (exts ⟨d, t0⟩))) curr.logStart (curr.logStart + j) := hx.next hj
    rw [moveLoop_succ h0 hcall (Int.le_refl 0) hJ', hsteps]
    refine Hands.nothing ?_
    by_cases hle : j ≤ curr.len
    · have hah := skip_ahead hle (by omega : curr.logStart + curr.len < 2 ^ 32)
      have h := ih t (calls + 1) _ hn (hah.log.symm ▸ exact_of_mem hnext.mem)
        (fun _ => hah.log.symm ▸ List.mem_append_left _ (next_start hs.wf hnext)) ((hah.end_eq hle).trans hend)
        (by rw [hah.len]; have := hj.pos; omega)
      rwa [hah.log, ← inRange_next hnext] at h
    · -- the jump goes over the end of the request, which then wraps
      have hlt := hM _ hnext.mem
      have hlog : (EvfsExt.of (add32 curr.logStart j) (add64 curr.phyStart j) (sub32 curr.len j)).logStart =
          curr.logStart + j := by
        rw [add32_of_lt hlt, of_log hlt]
      rw [inRange_next hnext, inRange_empty (by omega), Set.image_empty]
      refine moveLoop_wrapped hs.succeeds hn.wf ?_ ?_
      · rw [hlog, hn.dom_eq]
        exact hnext.mem
      · rw [hlog, of_len (sub32_lt _ _), sub32_of_lt (by omega)]
        omega

/-- **The passes of a loop from an exact position** hand over the leaves of the mapped blocks in the range. -/
theorem moveLoop_leaves (blocksize fuel : ℕ) (bl : BlockEnv) (sp : SpaceEnv) (nums : Nums) (hs : Start env P t0)
    (hE : E ∈ P) (hE32 : E < 2 ^ 32) : ∀ room, Rest blocksize fuel env bl sp P t0 nums E room
  | 0, t, calls, curr, _, _, _, hend, hroom => by
    rw [inRange_empty (by omega), Set.image_empty]
    exact hands_nil
  | room + 1, t, calls, curr, hn, hx, hstart, hend, hroom => by
    rcases Nat.eq_zero_or_pos curr.len with h0 | h0
    · rw [moveLoop_zero h0, inRange_empty (by omega), Set.image_empty]
      exact hands_nil
    · have ih := moveLoop_leaves blocksize fuel bl sp nums hs hE hE32 room
      by_cases hc : curr.logStart ∈ dom (cells (exts ⟨d, t0⟩))
      · exact moveLoop_inside hs hE hE32 hn hc (hstart hc) h0 hend hroom ih
      · exact moveLoop_hole hs hE32 hn hx hc h0 hend hroom ih

end loop

/-! ### The move -/

/-- No leaf of the tree moves into the inode, and every leaf has room for the cuts at both ends of the range. -/
structure Open (t : ExtRoot) (c E : ℕ) : Prop where
  roomy : Roomy [c, E] t.2
  wide : t.1 = 1 → width t.1 t.2 ≠ 1

/-- **The buffers of a move from an exact position.** -/
theorem move_hands {blocksize fuel : ℕ} {env : Env} {ino : Inode} {args : MvIn} (bl : BlockEnv) (sp : SpaceEnv)
    (nums : Nums) (hs : Succeeds env) (hv : args.expIver = evfsIver ino) (hfuel : 3 ≤ fuel)
    (hw : WellFormed ino.tree) (ho : Open ino.tree args.ext.logStart (args.ext.logStart + args.ext.len))
    (hx : Exact (mapped (exts ino.tree)) args.ext.logStart)
    (hend : args.ext.logStart + args.ext.len < 2 ^ 32) :
    Hands (evfsExtentMoveSteps blocksize env bl sp fuel ino nums args)
      (leafBuf ino.tree nums '' inRange ino.tree args.ext.logStart (args.ext.logStart + args.ext.len)) := by
  obtain ⟨fuel, rfl⟩ : ∃ k, fuel = k + 3 := ⟨fuel - 3, by omega⟩
  have hstart : Start env [args.ext.logStart, args.ext.logStart + args.ext.len] ino.tree.2 :=
    ⟨hs, hw, ho.roomy, ho.wide⟩
  simp only [evfsExtentMoveSteps, hs.iget, hv, ne_eq, not_true_eq_false, if_false, hs.start]
  refine moveLoop_leaves blocksize fuel bl sp nums hstart (by simp) hend args.ext.len ino.tree.2 0 args.ext
    ⟨hw, Kept.refl _ _, rfl⟩ ?_ (fun _ => by simp) rfl (Nat.le_refl _)
  rw [dom_cells]
  exact hx

end LinuxEvfs.ExtMove.Leaves
