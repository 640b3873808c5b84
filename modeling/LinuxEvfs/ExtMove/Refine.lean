import LinuxEvfs.ExtMove.Cursor

/-! # The code's loop refines the machine on cells

Each pass of `__evfs_extent_map` on a well-formed tree, read off the list of its extents, and from it
the whole function: a call that returns zero or more is one `Turn` on the cells of the tree,
and so `evfs_extent_move` is a `Run` (`ExtMove.Loop`).

* `mapPass_hole`, `mapPass_inside`: what the lookup finds. `mapPass_mapped`: the pass at a mapped block cuts the extent
  or stores.
* `splitPoints`: where an extent has to be cut before its physical start can be replaced. The loop
  makes these cuts one by one, looking the extent up again behind each (`mapLoop_inside`). -/

namespace LinuxEvfs.ExtMove.Refine

open LinuxEvfs.Errno LinuxEvfs.Lib.Word LinuxEvfs.Lib.IndexTree LinuxEvfs.Lib.Holes
open LinuxEvfs.ExtTree.Basic LinuxEvfs.ExtTree.Cells LinuxEvfs.ExtTree.Tree LinuxEvfs.ExtTree.Split
open LinuxEvfs.ExtMove.Model LinuxEvfs.ExtMove.Cursor

section pass
variable {blocksize : ℕ} {env : Env} {curr : EvfsExt} {st : St} {c n : ℕ}

theorem mapped_lt {l r : List Extent} {e : Extent} (hv : ValidMap (l ++ e :: r)) {x : ℕ}
    (hx : Mapped l x) : x < e.eeBlock := by
  obtain ⟨a, ha, h1, h2⟩ := hx
  have := (validMap_append.mp hv).2.2 a ha e (by simp)
  omega

/-- **The lookup in a hole**: nothing behind the cursor, or a jump by the length of the hole. -/
theorem mapPass_hole (blocksize : ℕ) (curr : EvfsExt) {s : St} (n : ℕ) (hw : WellFormed s.tree)
    (hf : env.find s.calls = none) (hc : c ∉ dom (cells (exts s.tree))) :
    ((∀ x ∈ dom (cells (exts s.tree)), x < c) ∧
      mapPass blocksize env curr s c n = .done ⟨s.tree, s.calls + 1⟩ eof curr EvfsExt.zero) ∨
    ∃ j, Skip (dom (cells (exts s.tree))) c j ∧ j < 2 ^ 32 ∧
      mapPass blocksize env curr s c n = retJmp ⟨s.tree, s.calls + 1⟩ curr j := by
  rcases find_cases hw c with ⟨h0, hp⟩ | ⟨l, e, r, hat, hex, hp, hr, he⟩
  · refine .inl ⟨fun x hx => ?_, by simp only [mapPass, hf, hp]⟩
    rw [h0, mem_dom_cells] at hx
    obtain ⟨e, he, -⟩ := hx
    simp at he
  have hv := hw.valid
  rw [hex] at hv
  have hle : Legal e := hv.legal e (by simp)
  have hlast := hle.last_le
  have hlt := hle.block_lt_last
  unfold EXT_MAX_BLOCKS at hlast
  simp only [hex, mem_dom_cells] at hc ⊢
  have hmr : ∀ x, Mapped r x → c < x := by
    rintro x ⟨a, ha, h1, -⟩
    have := hr a ha
    omega
  have hce : ¬ (e.eeBlock ≤ c ∧ c < e.last) := fun h => hc (mapped_split.mpr (.inr (.inl h)))
  by_cases hlt' : c < e.eeBlock
  · -- the cursor is before the first extent
    have hl : l = [] := he.resolve_left (by omega)
    subst hl
    have hnot : ∀ x, Mapped ([] ++ e :: r) x → e.eeBlock ≤ x := by
      intro x hx
      rcases mapped_split.mp hx with ⟨a, ha, -⟩ | h | ⟨a, ha, h1, -⟩
      · simp at ha
      · exact h.1
      · have := (validMap_cons.mp hv).2.2 a ha
        omega
    refine .inr ⟨e.eeBlock - c, ⟨c, e.eeBlock, ⟨Nat.le_refl _, ?_, .inr ⟨rfl, ?_⟩⟩, ⟨?_, hlt', ?_⟩,
      by omega⟩, by omega, ?_⟩
    · intro x h1 h2 hx
      have := hnot x (mem_dom_cells.mp hx)
      omega
    · intro x hx
      have := hnot x (mem_dom_cells.mp hx)
      omega
    · exact mem_dom_cells.mpr (mapped_split.mpr (.inr (.inl ⟨Nat.le_refl _, hlt⟩)))
    · intro x h1 h2 hx
      have := hnot x (mem_dom_cells.mp hx)
      omega
    · simp only [mapPass, hf, hp, if_pos hlt', sub32_of_le hlt'.le (by omega)]
  · have hec : e.last ≤ c := by omega
    have hnext := nextAllocated_eq hw hat
    cases r with
    | nil =>
      refine .inl ⟨fun x hx => ?_, ?_⟩
      · rcases mapped_split.mp hx with h | h | ⟨a, ha, -⟩
        · have := mapped_lt hv h
          omega
        · omega
        · simp at ha
      · simp only [List.head?_nil, Option.map_none, Option.getD_none] at hnext
        simp only [mapPass, hf, hp, if_neg hlt', hle.end_eq, if_pos hec, hnext, le_refl, if_true]
    | cons a r =>
      have hla : Legal a := hv.legal a (by simp)
      have halt := hla.block_lt_last
      have hamax := hla.last_le
      unfold EXT_MAX_BLOCKS at hamax
      have hca : c < a.eeBlock := hr a (by simp)
      have hfree : ∀ x, e.last ≤ x → x < a.eeBlock → x ∉ dom (cells (l ++ e :: a :: r)) := by
        intro x h1 h2 hx
        rcases mapped_split.mp (mem_dom_cells.mp hx) with h | h | ⟨b, hb, h3, -⟩
        · have := mapped_lt hv h
          omega
        · omega
        · rcases List.mem_cons.mp hb with rfl | hb
          · omega
          · have hvr := (validMap_cons.mp (validMap_append.mp hv).2.1).2.1
            have := (validMap_cons.mp hvr).2.2 b hb
            omega
      refine .inr ⟨a.eeBlock - e.last, ⟨e.last, a.eeBlock, ⟨hec, ?_, .inl ⟨e.last - 1, ?_, ?_⟩⟩,
        ⟨?_, hca, ?_⟩, by omega⟩, by omega, ?_⟩
      · exact fun x h1 h2 => hfree x h1 (by omega)
      · exact mem_dom_cells.mpr (mapped_split.mpr (.inr (.inl ⟨by omega, by omega⟩)))
      · omega
      · refine mem_dom_cells.mpr (mapped_split.mpr (.inr (.inr ⟨a, by simp, Nat.le_refl _, halt⟩)))
      · exact fun x h1 h2 => hfree x (by omega) h2
      · simp only [List.head?_cons, Option.map_some, Option.getD_some] at hnext
        have hmax : ¬ EXT_MAX_BLOCKS ≤ a.eeBlock := by unfold EXT_MAX_BLOCKS; omega
        have hjump : sub32 a.eeBlock e.last = a.eeBlock - e.last := sub32_of_le (by omega) (by omega)
        simp only [mapPass, hf, hp, if_neg hlt', hle.end_eq, if_pos hec, hnext, if_neg hmax, hjump]
        rw [if_pos (by omega)]

/-- **The lookup at a mapped block** finds the extent that covers it. -/
theorem find_inside {t : ExtRoot} (hw : WellFormed t) (hc : c ∈ dom (cells (exts t))) :
    ∃ l e r, exts t = l ++ e :: r ∧ e.eeBlock ≤ c ∧ c < e.last ∧
      At t.1 t.2 (ext4FindExtent t c) l (some e) r := by
  rcases find_cases hw c with ⟨h0, -⟩ | ⟨l, e, r, hat, hex, hp, hr, he⟩
  · rw [h0, mem_dom_cells] at hc
    obtain ⟨e, he, -⟩ := hc
    simp at he
  have hv := hw.valid
  rw [hex] at hv
  rw [hex, mem_dom_cells] at hc
  refine ⟨l, e, r, hex, ?_⟩
  rcases mapped_split.mp hc with h | h | ⟨a, ha, h1, -⟩
  · have := mapped_lt hv h
    rcases he with he | rfl
    · omega
    · obtain ⟨a, ha, -⟩ := h
      simp at ha
  · exact ⟨h.1, h.2, hat⟩
  · have := hr a ha
    omega

theorem mapPass_inside (hf : env.find st.calls = none) {l r : List Extent} {e : Extent}
    (hle : Legal e) (h1 : e.eeBlock ≤ c) (h2 : c < e.last)
    (hat : At st.tree.1 st.tree.2 (ext4FindExtent st.tree c) l (some e) r) :
    mapPass blocksize env curr st c n =
      insidePass blocksize env curr ⟨st.tree, st.calls + 1⟩ e c n := by
  have hp : pExt st.tree (ext4FindExtent st.tree c) = some e := hat.item_eq
  simp only [mapPass, hf, hp, if_neg (Nat.not_lt.mpr h1), hle.end_eq,
    if_neg (Nat.not_le.mpr h2)]

end pass

/-! ### Inside an extent -/

/-- Where the extent `e` has to be cut to become the part of it in `[c, c + n)`, from `c` on. -/
def splitPoints (e : Extent) (c n : ℕ) : List ℕ :=
  (if e.eeBlock < c then [c] else []) ++ (if c + n < e.last then [c + n] else [])

section inside
variable {blocksize : ℕ} {env : Env} {curr : EvfsExt} {s : St}
  {l r : List Extent} {e : Extent}

/-- Storing: the new tree, the entry reported and the next cursor. -/
theorem storePass_eq (env : Env) {s : St} (hw : WellFormed s.tree) (hex : exts s.tree = l ++ e :: r)
    (hc : e.eeBlock = curr.logStart) (hend : curr.logStart + curr.len < 2 ^ 32)
    (hle : e.last ≤ curr.logStart + curr.len) :
    ∃ t, WellFormed t ∧
      cells (exts t) = (cells (exts s.tree)).map
        (remap curr.logStart (ext4ExtGetActualLen e) (curr.phyStart % 2 ^ 48)) ∧
      storePass env curr s e curr.logStart (ext4ExtGetActualLen e) =
        match env.dirty s.calls with
        | some err => .done ⟨t, s.calls + 1⟩ err.ret curr EvfsExt.zero
        | none => .done ⟨t, s.calls + 1⟩ 0
          (EvfsExt.of curr.logStart e.eeStart (ext4ExtGetActualLen e))
          (if ext4ExtGetActualLen e < curr.len then
            EvfsExt.of (curr.logStart + ext4ExtGetActualLen e)
              (add64 curr.phyStart (ext4ExtGetActualLen e)) (curr.len - ext4ExtGetActualLen e)
          else EvfsExt.zero) := by
  have hl : Legal e := hw.legal hex
  have hat : At s.tree.1 s.tree.2 (ext4FindExtent s.tree curr.logStart) l (some e) r := hc ▸ find_start hw hex
  have hphy : sub64 (add64 curr.phyStart curr.logStart) curr.logStart = curr.phyStart := by
    have h1 := curr.phy_lt
    have h2 := curr.log_lt
    unfold sub64 add64
    omega
  obtain ⟨hw1, he1⟩ := store_spec hw hat curr.phyStart
  obtain ⟨hw2, hc2⟩ := tryToMerge_spec (env.extend s.calls) hw1
    (hat.updItem (g := (ext4ExtStorePblock · curr.phyStart)))
  refine ⟨_, hw2, ?_, ?_⟩
  · rw [hc2, he1, hex, cells_store (hex ▸ hw.valid), hc]
  · have hlast : e.last = curr.logStart + ext4ExtGetActualLen e := by rw [Extent.last, hc]
    simp only [storePass]
    rw [hphy]
    cases env.dirty s.calls with
    | some err => rfl
    | none =>
      have hsub : sub32 (curr.logStart + curr.len) (curr.logStart + ext4ExtGetActualLen e) =
          curr.len - ext4ExtGetActualLen e := by
        rw [sub32_of_le (by omega) hend]; omega
      simp only [hl.end_eq, add32_of_lt hend, hlast, hsub, ext4ExtPblock, Nat.add_lt_add_iff_left]

/-- The cells `cs'` are those of `cs` with the `k` blocks from the cursor on moved to its new range;
they were the physical blocks from `q` on. -/
def Swapped (cs : List Cell) (curr : EvfsExt) (k q : ℕ) (cs' : List Cell) : Prop :=
  0 < k ∧ k ≤ curr.len ∧ q < 2 ^ 48 ∧ ∃ mid, Keeps cs mid ∧
    (∀ i < k, ∃ w, (curr.logStart + i, q + i, w) ∈ mid) ∧
    cs' = mid.map (remap curr.logStart k (curr.phyStart % 2 ^ 48))

/-- **How the loop ends at a mapped block**, when `cuts` splits are still to be made and `calls` calls
have been made: a lookup fails, a split fails, or the extent is stored and marked dirty. -/
inductive Inside (env : Env) (cs : List Cell) (curr : EvfsExt) :
    ℕ → ℕ → Outcome (St × ℤ × EvfsExt × EvfsExt) → Prop
  | oops {calls cuts : ℕ} (hf : env.find calls ≠ none) : Inside env cs curr calls cuts .oops
  | cut {calls cuts : ℕ} {o : Outcome (St × ℤ × EvfsExt × EvfsExt)} (hf : env.find calls = none)
      (hs : env.split (calls + 1) = .ok) (h : Inside env cs curr (calls + 2) cuts o) :
      Inside env cs curr calls (cuts + 1) o
  | fail {calls cuts x : ℕ} {t : ExtRoot} {st : St} {err : Errno} (hf : env.find calls = none)
      (hs : env.split (calls + 1) ≠ .ok) (hw : WellFormed t) (hk : Keeps cs (cells (exts t)))
      (hx : curr.logStart ≤ x) (hm : Mapped (exts t) x)
      (h : SplitFail (env.split (calls + 1)) t st.tree x) :
      Inside env cs curr calls (cuts + 1) (.ret (st, err.ret, curr, EvfsExt.zero))
  | dirty {calls k q : ℕ} {st : St} {err : Errno} (hf : env.find calls = none)
      (hd : env.dirty (calls + 1) ≠ none) (hw : WellFormed st.tree)
      (h : Swapped cs curr k q (cells (exts st.tree))) :
      Inside env cs curr calls 0 (.ret (st, err.ret, curr, EvfsExt.zero))
  | store {calls k q : ℕ} {st : St} (hf : env.find calls = none)
      (hd : env.dirty (calls + 1) = none) (hcalls : st.calls = calls + 2) (hw : WellFormed st.tree)
      (h : Swapped cs curr k q (cells (exts st.tree))) :
      Inside env cs curr calls 0 (.ret (st, 0, EvfsExt.of curr.logStart q k,
        if k < curr.len then
          EvfsExt.of (curr.logStart + k) (add64 curr.phyStart k) (curr.len - k)
        else EvfsExt.zero))

variable {cs : List Cell} {fuel : ℕ}

/-- **The pass at a mapped block**: the extent found is cut at the cursor, or at the end of the range, or stored. -/
theorem mapPass_mapped (blocksize : ℕ) (hf : env.find s.calls = none) (hl : Legal e) (h1 : e.eeBlock ≤ curr.logStart)
    (h2 : curr.logStart < e.last) (hat : At s.tree.1 s.tree.2 (ext4FindExtent s.tree curr.logStart) l (some e) r)
    (h0 : 0 < curr.len) (hend : curr.logStart + curr.len < 2 ^ 32) :
    mapPass blocksize env curr s curr.logStart curr.len =
      if e.eeBlock < curr.logStart then
        splitPass blocksize env curr ⟨s.tree, s.calls + 1⟩ curr.logStart curr.len curr.logStart
      else if curr.logStart + curr.len < e.last then
        splitPass blocksize env curr ⟨s.tree, s.calls + 1⟩ curr.logStart curr.len (curr.logStart + curr.len)
      else storePass env curr ⟨s.tree, s.calls + 1⟩ e curr.logStart (ext4ExtGetActualLen e) := by
  have hsub : sub32 (curr.logStart + curr.len) curr.logStart = curr.len := by
    rw [sub32_of_le (by omega) hend]; omega
  have hnle : ¬ curr.logStart + curr.len ≤ curr.logStart := by omega
  rw [mapPass_inside hf hl h1 h2 hat]
  simp only [insidePass, add32_of_lt hend, if_neg hnle, hsub, hl.end_eq]
  by_cases hlt : e.eeBlock < curr.logStart
  · rw [if_pos hlt, if_pos hlt]
  rw [if_neg hlt, if_neg hlt]
  have hlast : e.last = curr.logStart + ext4ExtGetActualLen e := by rw [Extent.last]; omega
  by_cases hgt : curr.logStart + curr.len < e.last
  · have hnlt : ¬ e.last < curr.logStart + curr.len := by omega
    simp only [if_neg hnlt, add32_of_lt hend, if_pos hgt]
  · -- the length is cut to the extent
    have hlen : (if e.last < curr.logStart + curr.len then sub32 e.last curr.logStart else curr.len) =
        ext4ExtGetActualLen e := by
      split_ifs with h
      · rw [sub32_of_le (by omega) (by omega)]; omega
      · omega
    rw [if_neg hgt, hlen, add32_of_lt (by omega), if_neg (by omega)]

/-- The end of the range wraps to a block at or before the cursor. -/
theorem add32_wraps (curr : EvfsExt) (hend : 2 ^ 32 ≤ curr.logStart + curr.len) :
    add32 curr.logStart curr.len ≤ curr.logStart := by
  have := curr.log_lt
  have := curr.len_lt
  unfold add32
  omega

/-- The pass at a mapped block with a range that wraps. -/
theorem mapPass_wrapped (blocksize : ℕ) (hf : env.find s.calls = none) (hw : WellFormed s.tree)
    (hc : curr.logStart ∈ dom (cells (exts s.tree))) (hend : 2 ^ 32 ≤ curr.logStart + curr.len) :
    mapPass blocksize env curr s curr.logStart curr.len = .done ⟨s.tree, s.calls + 1⟩ eof curr EvfsExt.zero := by
  obtain ⟨l, e, r, hex, h1, h2, hat⟩ := find_inside hw hc
  rw [mapPass_inside hf (hw.legal hex) h1 h2 hat]
  simp only [insidePass, if_pos (add32_wraps curr hend)]

/-- The last pass: the extent is the part of it to be stored. -/
theorem mapLoop_store (hw : WellFormed s.tree) (hex : exts s.tree = l ++ e :: r)
    (hc : e.eeBlock = curr.logStart) (h0 : 0 < curr.len)
    (hend : curr.logStart + curr.len < 2 ^ 32) (hle : e.last ≤ curr.logStart + curr.len)
    (hk : Keeps cs (cells (exts s.tree))) :
    Inside env cs curr s.calls 0
      (mapLoop blocksize env curr (fuel + 1) s curr.logStart curr.len) := by
  have hl : Legal e := hw.legal hex
  have hlast : e.last = curr.logStart + ext4ExtGetActualLen e := by rw [Extent.last, hc]
  have hsw : ∀ t : ExtRoot, cells (exts t) = (cells (exts s.tree)).map
      (remap curr.logStart (ext4ExtGetActualLen e) (curr.phyStart % 2 ^ 48)) →
      Swapped cs curr (ext4ExtGetActualLen e) e.eeStart (cells (exts t)) := fun t ht => by
    refine ⟨hl.len_pos, by omega, hl.start_lt, _, hk, fun i hi => ?_, ht⟩
    refine ⟨ext4ExtIsUnwritten e, mem_cells.mpr ⟨e, by rw [hex]; simp, ?_⟩⟩
    rw [hc]
    exact ⟨by omega, by omega, by omega, rfl⟩
  cases hf : env.find s.calls with
  | some err =>
    simp only [mapLoop, mapPass, hf]
    exact .oops (by simp [hf])
  | none =>
    obtain ⟨t, hwt, hct, hst⟩ := storePass_eq env (s := ⟨s.tree, s.calls + 1⟩) hw hex hc hend hle
    rw [mapLoop, mapPass_mapped blocksize hf hl hc.le (hc ▸ hl.block_lt_last) (hc ▸ find_start hw hex) h0 hend,
      if_neg (by omega), if_neg (by omega), hst]
    cases hd : env.dirty (s.calls + 1) with
    | some err =>
      simp only
      exact .dirty hf (by simp [hd]) hwt (hsw t hct)
    | none =>
      simp only
      exact .store hf hd rfl hwt (hsw t hct)

/-- A forced split at an inner point of the extent found. -/
theorem splitPass_eq (blocksize : ℕ) (env : Env) (curr : EvfsExt) {s : St} {c x : ℕ} (n : ℕ) (hw : WellFormed s.tree)
    (hat : At s.tree.1 s.tree.2 (ext4FindExtent s.tree c) l (some e) r)
    (h1 : e.eeBlock < x) (h2 : x < e.last) :
    (env.split s.calls = .ok ∧ ∃ t a b, WellFormed t ∧ exts t = l ++ a :: b :: r ∧ b.eeBlock = x ∧
      Halves a b e ∧ Keeps (cells (exts s.tree)) (cells (exts t)) ∧
      splitPass blocksize env curr s c n x = .cont ⟨t, s.calls + 1⟩ c n) ∨
    (env.split s.calls ≠ .ok ∧ ∃ st' err, SplitFail (env.split s.calls) s.tree st'.tree x ∧
      splitPass blocksize env curr s c n x = .done st' (Errno.ret err) curr EvfsExt.zero) := by
  by_cases hs : env.split s.calls = .ok
  · obtain ⟨t, a, b, hf, hwt, hex, hb, hh, hk⟩ := forceSplit_ok blocksize hw hat h1 h2
    refine .inl ⟨hs, t, a, b, hwt, hex, hb, hh, hk, ?_⟩
    simp only [splitPass, hs, hf]
  · obtain ⟨t, err, hf, hc⟩ := forceSplit_fail blocksize hw hat h1 h2 hs
    refine .inr ⟨hs, ⟨t, s.calls + 1⟩, err, hc, ?_⟩
    simp only [splitPass, hf]

/-- The pass that cuts the extent at the end of the range. -/
theorem mapLoop_right (hw : WellFormed s.tree) (hex : exts s.tree = l ++ e :: r)
    (hc : e.eeBlock = curr.logStart) (h0 : 0 < curr.len)
    (hend : curr.logStart + curr.len < 2 ^ 32) (hgt : curr.logStart + curr.len < e.last)
    (hk : Keeps cs (cells (exts s.tree))) :
    Inside env cs curr s.calls 1
      (mapLoop blocksize env curr (fuel + 2) s curr.logStart curr.len) := by
  have hl : Legal e := hw.legal hex
  cases hf : env.find s.calls with
  | some err =>
    simp only [mapLoop, mapPass, hf]
    exact .oops (by simp [hf])
  | none =>
    have hat : At s.tree.1 s.tree.2 (ext4FindExtent s.tree curr.logStart) l (some e) r := hc ▸ find_start hw hex
    rw [mapLoop, mapPass_mapped blocksize hf hl hc.le (by omega) hat h0 hend, if_neg (by omega), if_pos hgt]
    rcases splitPass_eq blocksize env curr (s := ⟨s.tree, s.calls + 1⟩)
      curr.len hw hat (x := curr.logStart + curr.len) (by omega) hgt with
      ⟨hs, t, a, b, hwt, hext, hb, hh, hkt, hp⟩ | ⟨hs, st', err, hfail, hp⟩
    · rw [hp]
      have hac : a.eeBlock = curr.logStart := by rw [← hh.block, hc]
      have hlast : a.last = curr.logStart + curr.len := by rw [← hh.adj, hb]
      exact .cut hf hs (mapLoop_store (s := ⟨t, s.calls + 2⟩) hwt hext hac h0 hend hlast.le (hk.trans hkt))
    · rw [hp]
      have hm : Mapped (exts s.tree) (curr.logStart + curr.len) :=
        ⟨e, by rw [hex]; simp, by omega, hgt⟩
      exact .fail hf hs hw hk (by omega) hm hfail

/-- **The loop at a mapped block**, whose range does not wrap. -/
theorem mapLoop_inside (hw : WellFormed s.tree) (hc : curr.logStart ∈ dom (cells (exts s.tree)))
    (h0 : 0 < curr.len) (hend : curr.logStart + curr.len < 2 ^ 32) :
    ∃ e ∈ exts s.tree, e.eeBlock ≤ curr.logStart ∧ curr.logStart < e.last ∧
      Inside env (cells (exts s.tree)) curr s.calls
        (splitPoints e curr.logStart curr.len).length
        (mapLoop blocksize env curr (fuel + 3) s curr.logStart curr.len) := by
  obtain ⟨l, e, r, hex, h1, h2, hat⟩ := find_inside hw hc
  have hmem : e ∈ exts s.tree := by rw [hex]; simp
  have hl : Legal e := hw.valid.legal e hmem
  refine ⟨e, hmem, h1, h2, ?_⟩
  by_cases hlt : e.eeBlock < curr.logStart
  · -- the cut at the cursor comes first, and the extent found then starts there
    cases hf : env.find s.calls with
    | some err =>
      simp only [mapLoop, mapPass, hf]
      exact .oops (by simp [hf])
    | none =>
      rw [mapLoop, mapPass_mapped blocksize hf hl h1 h2 hat h0 hend, if_pos hlt]
      have hlen : (splitPoints e curr.logStart curr.len).length =
          (if curr.logStart + curr.len < e.last then 1 else 0) + 1 := by
        unfold splitPoints
        rw [if_pos hlt]
        split_ifs <;> rfl
      rw [hlen]
      rcases splitPass_eq blocksize env curr (s := ⟨s.tree, s.calls + 1⟩) curr.len hw hat hlt h2 with
        ⟨hs, t, a, b, hwt, hext, hb, hh, hkt, hp⟩ | ⟨hs, st', err, hfail, hp⟩
      · rw [hp]
        have hext' : exts t = (l ++ [a]) ++ b :: r := by simpa using hext
        refine .cut hf hs ?_
        simp only
        split_ifs with hgt
        · exact mapLoop_right (s := ⟨t, s.calls + 2⟩) hwt hext' hb h0 hend
            (hh.last_eq.symm ▸ hgt) hkt
        · exact mapLoop_store (s := ⟨t, s.calls + 2⟩) hwt hext' hb h0 hend
            (hh.last_eq.symm ▸ Nat.not_lt.mp hgt) hkt
      · rw [hp]
        exact .fail hf hs hw (Keeps.refl _) (Nat.le_refl _) ⟨e, hmem, h1, h2⟩ hfail
  · have hce : e.eeBlock = curr.logStart := by omega
    unfold splitPoints
    rw [if_neg hlt]
    split_ifs with hgt
    · exact mapLoop_right hw hex hce h0 hend hgt (Keeps.refl _)
    · exact mapLoop_store hw hex hce h0 hend (Nat.not_lt.mp hgt) (Keeps.refl _)

end inside

/-! ### The whole function -/

/-- **How `__evfs_extent_map` ends** on the tree `t`, after `calls` calls. -/
inductive MapEnd (env : Env) (t : ExtRoot) (calls : ℕ) (curr : EvfsExt) :
    Outcome (St × ℤ × EvfsExt × EvfsExt) → Prop
  | oops (hf : env.find calls ≠ none) : MapEnd env t calls curr .oops
  | eof (hf : env.find calls = none) (h : AtEnd (dom (cells (exts t))) curr) :
      MapEnd env t calls curr (.ret (⟨t, calls + 1⟩, eof, curr, EvfsExt.zero))
  | skip {j : ℕ} (hf : env.find calls = none) (h : Skip (dom (cells (exts t))) curr.logStart j)
      (hj : j < 2 ^ 32) :
      MapEnd env t calls curr (.ret (⟨t, calls + 1⟩, 0,
        EvfsExt.of curr.logStart curr.phyStart j,
        EvfsExt.of (add32 curr.logStart j) (add64 curr.phyStart j) (sub32 curr.len j)))
  | inside {e : Extent} {o : Outcome (St × ℤ × EvfsExt × EvfsExt)} (he : e ∈ exts t)
      (h1 : e.eeBlock ≤ curr.logStart) (h2 : curr.logStart < e.last)
      (hend : curr.logStart + curr.len < 2 ^ 32)
      (h : Inside env (cells (exts t)) curr calls
        (splitPoints e curr.logStart curr.len).length o) : MapEnd env t calls curr o

/-- **`__evfs_extent_map` on a well-formed tree**: three rounds of its loop are enough. -/
theorem map_end {blocksize fuel : ℕ} {env : Env} {curr : EvfsExt} {st : St}
    (hw : WellFormed st.tree) (h0 : 0 < curr.len) (hfuel : 3 ≤ fuel) :
    MapEnd env st.tree st.calls curr (evfsExtentMap blocksize env fuel curr st) := by
  obtain ⟨fuel, rfl⟩ : ∃ k, fuel = k + 3 := ⟨fuel - 3, by omega⟩
  unfold evfsExtentMap
  by_cases hc : curr.logStart ∈ dom (cells (exts st.tree))
  · by_cases hend : curr.logStart + curr.len < 2 ^ 32
    · obtain ⟨e, he, h1, h2, hi⟩ := mapLoop_inside hw hc h0 hend
      exact .inside he h1 h2 hend hi
    · cases hf : env.find st.calls with
      | some err =>
        simp only [mapLoop, mapPass, hf]
        exact .oops (by simp [hf])
      | none =>
        simp only [mapLoop, mapPass_wrapped blocksize hf hw hc (Nat.not_lt.mp hend)]
        exact .eof hf (.inr ⟨hc, by omega⟩)
  · cases hf : env.find st.calls with
    | some err =>
      simp only [mapLoop, mapPass, hf]
      exact .oops (by simp [hf])
    | none =>
      rcases mapPass_hole blocksize curr curr.len hw hf hc with
        ⟨hall, hp⟩ | ⟨j, hs, hj, hp⟩
      · simp only [mapLoop, hp]
        exact .eof hf (.inl hall)
      · simp only [mapLoop, hp, retJmp]
        exact .skip hf hs hj

end LinuxEvfs.ExtMove.Refine
