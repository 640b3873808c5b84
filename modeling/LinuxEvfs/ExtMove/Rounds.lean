import LinuxEvfs.ExtMove.Loop

/-! # The passes of `__evfs_extent_map`

The loop `while (!done)` looks the cursor up, and goes round again only after a forced split. A hole never sends it
round: the next extent is behind the cursor, so there is a jump.

* `Passes`: the passes from one on, by the splits they make. After a split at the cursor the extent found starts there,
  after a split at the end of the range it ends there or before.
* `Passes.ends`: as many passes as there are splits, and one more, bring the loop to `done`.
* `extentMap_done`: on a well-formed tree there is at most one split of each kind, that at the cursor first. -/

namespace LinuxEvfs.ExtMove.Rounds

open LinuxEvfs.Errno LinuxEvfs.Lib.Word LinuxEvfs.Lib.IndexTree
open LinuxEvfs.ExtTree.Basic LinuxEvfs.ExtTree.Cells LinuxEvfs.ExtTree.Tree LinuxEvfs.ExtTree.Split
open LinuxEvfs.ExtMove.Model LinuxEvfs.ExtMove.Cursor LinuxEvfs.ExtMove.Refine LinuxEvfs.ExtMove.Loop

/-- Where a pass splits the extent found: at the cursor, or at the end of the range. -/
inductive Side where
  | left
  | right
deriving DecidableEq, Repr

/-- The extent a lookup finds. -/
def found (t : ExtRoot) (lblk : ℕ) : Option Extent := pExt t (ext4FindExtent t lblk)

/-- A pass sets `done`; behind a lookup that fails the error pointer is followed after that. -/
def Finishes (env : Env) (calls : ℕ) : Pass → Prop
  | .done _ _ _ _ => True
  | .oops => env.find calls ≠ none
  | .cont _ _ _ | .bug => False

/-- **The passes of the loop** with `lblk` and `len`, and the splits they make. -/
inductive Passes (blocksize : ℕ) (env : Env) (curr : EvfsExt) : St → ℕ → ℕ → List Side → Prop
  | finish {st : St} {lblk len : ℕ} (h : Finishes env st.calls (mapPass blocksize env curr st lblk len)) :
      Passes blocksize env curr st lblk len []
  | left {st st' : St} {lblk len len' : ℕ} {e e' : Extent} {sides : List Side}
      (hfound : found st.tree lblk = some e) (h1 : e.eeBlock < lblk) (h2 : lblk < e.last)
      (hpass : mapPass blocksize env curr st lblk len = .cont st' lblk len')
      (hfound' : found st'.tree lblk = some e') (hstart : e'.eeBlock = lblk)
      (h : Passes blocksize env curr st' lblk len' sides) :
      Passes blocksize env curr st lblk len (.left :: sides)
  | right {st st' : St} {lblk len len' : ℕ} {e e' : Extent} {sides : List Side}
      (hfound : found st.tree lblk = some e) (h1 : e.eeBlock = lblk) (h2 : lblk + len' < e.last)
      (hpass : mapPass blocksize env curr st lblk len = .cont st' lblk len')
      (hfound' : found st'.tree lblk = some e') (hend : e'.last ≤ lblk + len')
      (h : Passes blocksize env curr st' lblk len' sides) :
      Passes blocksize env curr st lblk len (.right :: sides)

variable {blocksize : ℕ} {env : Env} {curr : EvfsExt} {st : St} {lblk len : ℕ} {sides : List Side}
  {l r : List Extent} {e : Extent}

/-- The loop is done. -/
def Done (env : Env) : Outcome (St × ℤ × EvfsExt × EvfsExt) → Prop
  | .ret _ => True
  | .oops => ∃ calls, env.find calls ≠ none
  | .bug | .stuck => False

theorem Passes.ends (h : Passes blocksize env curr st lblk len sides) {fuel : ℕ} (hfuel : sides.length < fuel) :
    Done env (mapLoop blocksize env curr fuel st lblk len) := by
  induction h generalizing fuel with
  | @finish st lblk len h =>
    obtain ⟨fuel, rfl⟩ := Nat.exists_eq_succ_of_ne_zero (Nat.ne_of_gt hfuel)
    unfold mapLoop
    cases hpass : mapPass blocksize env curr st lblk len with
    | done st' ret curr' next => trivial
    | oops =>
      rw [hpass] at h
      exact ⟨st.calls, h⟩
    | _ =>
      rw [hpass] at h
      exact h.elim
  | left _ _ _ hpass _ _ _ ih | right _ _ _ hpass _ _ _ ih =>
    obtain ⟨fuel, rfl⟩ := Nat.exists_eq_succ_of_ne_zero (Nat.ne_of_gt (Nat.zero_lt_of_lt hfuel))
    unfold mapLoop
    rw [hpass]
    exact ih (Nat.lt_of_succ_lt_succ hfuel)

/-! ### One pass -/

/-- A lookup that fails finishes the loop. -/
theorem passes_oops (lblk len : ℕ) (hf : env.find st.calls ≠ none) :
    Passes blocksize env curr st lblk len [] := by
  refine .finish ?_
  obtain ⟨err, herr⟩ := Option.ne_none_iff_exists'.mp hf
  have hpass : mapPass blocksize env curr st lblk len = .oops := by simp only [mapPass, herr]
  rw [hpass]
  exact hf

/-- A store finishes the loop, also where the extent cannot be marked dirty. -/
theorem finishes_store (env : Env) (calls : ℕ) (curr : EvfsExt) (st : St) (e : Extent) (lblk len : ℕ) :
    Finishes env calls (storePass env curr st e lblk len) := by
  unfold storePass
  cases env.dirty st.calls with
  | some err => trivial
  | none => trivial

theorem found_start {t : ExtRoot} (hw : WellFormed t) (hex : exts t = l ++ e :: r) :
    found t e.eeBlock = some e := (find_start hw hex).item_eq

/-- The extent found lies in the range. -/
theorem passes_store (hw : WellFormed st.tree) (hex : exts st.tree = l ++ e :: r)
    (hc : e.eeBlock = curr.logStart) (h0 : 0 < curr.len) (hend : curr.logStart + curr.len < 2 ^ 32)
    (hle : e.last ≤ curr.logStart + curr.len) :
    Passes blocksize env curr st curr.logStart curr.len [] := by
  have hl : Legal e := hw.legal hex
  by_cases hf : env.find st.calls = none
  · refine .finish ?_
    rw [mapPass_mapped blocksize hf hl hc.le (hc ▸ hl.block_lt_last) (hc ▸ find_start hw hex) h0 hend,
      if_neg (by omega), if_neg (by omega)]
    exact finishes_store ..
  · exact passes_oops _ _ hf

/-- The extent found goes on behind the range. -/
theorem passes_right (hw : WellFormed st.tree) (hex : exts st.tree = l ++ e :: r)
    (hc : e.eeBlock = curr.logStart) (h0 : 0 < curr.len) (hend : curr.logStart + curr.len < 2 ^ 32)
    (hgt : curr.logStart + curr.len < e.last) :
    ∃ sides, sides.Sublist [.right] ∧ Passes blocksize env curr st curr.logStart curr.len sides := by
  have hl : Legal e := hw.legal hex
  by_cases hf : env.find st.calls = none
  · have hat : At st.tree.1 st.tree.2 (ext4FindExtent st.tree curr.logStart) l (some e) r := hc ▸ find_start hw hex
    have hpass := mapPass_mapped blocksize hf hl hc.le (by omega) hat h0 hend
    rw [if_neg (by omega), if_pos hgt] at hpass
    obtain ⟨-, t, a, b, hwt, hext, hb, hh, -, hp⟩ | ⟨-, st', err, -, hp⟩ :=
      splitPass_eq blocksize env curr (s := ⟨st.tree, st.calls + 1⟩) curr.len hw hat
        (x := curr.logStart + curr.len) (by omega) hgt
    · rw [hp] at hpass
      have hac : a.eeBlock = curr.logStart := by rw [← hh.block, hc]
      have hlast : a.last = curr.logStart + curr.len := by rw [← hh.adj, hb]
      have hfound' : found t a.eeBlock = some a := found_start hwt hext
      rw [hac] at hfound'
      exact ⟨[.right], List.Sublist.refl _, .right hat.item_eq hc hgt hpass hfound' hlast.le
        (passes_store hwt hext hac h0 hend hlast.le)⟩
    · rw [hp] at hpass
      refine ⟨[], List.nil_sublist _, .finish ?_⟩
      rw [hpass]
      trivial
  · exact ⟨[], List.nil_sublist _, passes_oops _ _ hf⟩

/-- The cursor is behind the start of the extent found. -/
theorem passes_left (hw : WellFormed st.tree) (hex : exts st.tree = l ++ e :: r)
    (hat : At st.tree.1 st.tree.2 (ext4FindExtent st.tree curr.logStart) l (some e) r)
    (h1 : e.eeBlock < curr.logStart) (h2 : curr.logStart < e.last) (h0 : 0 < curr.len)
    (hend : curr.logStart + curr.len < 2 ^ 32) :
    ∃ sides, sides.Sublist [.left, .right] ∧ Passes blocksize env curr st curr.logStart curr.len sides := by
  have hl : Legal e := hw.legal hex
  by_cases hf : env.find st.calls = none
  · have hpass := mapPass_mapped blocksize hf hl h1.le h2 hat h0 hend
    rw [if_pos h1] at hpass
    obtain ⟨-, t, a, b, hwt, hext, hb, hh, -, hp⟩ | ⟨-, st', err, -, hp⟩ :=
      splitPass_eq blocksize env curr (s := ⟨st.tree, st.calls + 1⟩) curr.len hw hat h1 h2
    · rw [hp] at hpass
      have hext' : exts t = (l ++ [a]) ++ b :: r := by simpa using hext
      have hfound' : found t b.eeBlock = some b := found_start hwt hext'
      rw [hb] at hfound'
      have hnext : ∃ sides, sides.Sublist [Side.right] ∧
          Passes blocksize env curr ⟨t, st.calls + 2⟩ curr.logStart curr.len sides := by
        by_cases hgt : curr.logStart + curr.len < b.last
        · exact passes_right hwt hext' hb h0 hend hgt
        · exact ⟨[], List.nil_sublist _, passes_store hwt hext' hb h0 hend (Nat.not_lt.mp hgt)⟩
      obtain ⟨sides, hsides, hrest⟩ := hnext
      exact ⟨.left :: sides, hsides.cons_cons _, .left hat.item_eq h1 h2 hpass hfound' hb hrest⟩
    · rw [hp] at hpass
      refine ⟨[], List.nil_sublist _, .finish ?_⟩
      rw [hpass]
      trivial
  · exact ⟨[], List.nil_sublist _, passes_oops _ _ hf⟩

/-- The cursor is at no extent. -/
theorem passes_hole (hw : WellFormed st.tree) (hc : curr.logStart ∉ dom (cells (exts st.tree))) :
    Passes blocksize env curr st curr.logStart curr.len [] := by
  by_cases hf : env.find st.calls = none
  · refine .finish ?_
    obtain ⟨-, hp⟩ | ⟨j, -, -, hp⟩ := mapPass_hole blocksize curr curr.len hw hf hc
    · rw [hp]
      trivial
    · rw [hp]
      trivial
  · exact passes_oops _ _ hf

/-- The end of the range wraps to a block at or before the cursor. -/
theorem passes_wrapped (hw : WellFormed st.tree) (hc : curr.logStart ∈ dom (cells (exts st.tree)))
    (hend : 2 ^ 32 ≤ curr.logStart + curr.len) :
    Passes blocksize env curr st curr.logStart curr.len [] := by
  by_cases hf : env.find st.calls = none
  · refine .finish ?_
    rw [mapPass_wrapped blocksize hf hw hc hend]
    trivial
  · exact passes_oops _ _ hf

/-! ### The loop -/

/-- **The loop of `__evfs_extent_map` reaches `done`.** -/
theorem extentMap_done (blocksize : ℕ) (env : Env) (curr : EvfsExt) (st : St) (hw : WellFormed st.tree)
    (h0 : 1 ≤ curr.len) :
    ∃ sides, sides.Sublist [.left, .right] ∧
      Passes blocksize env curr st curr.logStart curr.len sides ∧
      ∀ fuel, sides.length < fuel → Done env (evfsExtentMap blocksize env fuel curr st) := by
  have hpasses : ∃ sides, sides.Sublist [.left, .right] ∧
      Passes blocksize env curr st curr.logStart curr.len sides := by
    by_cases hc : curr.logStart ∈ dom (cells (exts st.tree))
    · by_cases hend : curr.logStart + curr.len < 2 ^ 32
      · obtain ⟨l, e, r, hex, h1, h2, hat⟩ := find_inside hw hc
        obtain hlt | heq := Nat.lt_or_eq_of_le h1
        · exact passes_left hw hex hat hlt h2 h0 hend
        · by_cases hgt : curr.logStart + curr.len < e.last
          · obtain ⟨sides, hsides, hp⟩ := passes_right hw hex heq h0 hend hgt
            exact ⟨sides, hsides.trans (by simp), hp⟩
          · exact ⟨[], List.nil_sublist _, passes_store hw hex heq h0 hend (Nat.not_lt.mp hgt)⟩
      · exact ⟨[], List.nil_sublist _, passes_wrapped hw hc (Nat.not_lt.mp hend)⟩
    · exact ⟨[], List.nil_sublist _, passes_hole hw hc⟩
  obtain ⟨sides, hsides, hp⟩ := hpasses
  exact ⟨sides, hsides, hp, fun fuel hfuel => hp.ends hfuel⟩

/-- A range inside an extent, which is split on both sides. -/
theorem extentMap_done_inner :
    WellFormed (leafInode [⟨0, 8, 100⟩] 7).tree ∧
      ∃ sides, sides.Sublist [.left, .right] ∧
        Passes 4096 allSucceed (EvfsExt.of 2 200 3) ⟨(leafInode [⟨0, 8, 100⟩] 7).tree, 0⟩ 2 3 sides ∧
        ∀ fuel, sides.length < fuel → Done allSucceed
          (evfsExtentMap 4096 allSucceed fuel (EvfsExt.of 2 200 3) ⟨(leafInode [⟨0, 8, 100⟩] 7).tree, 0⟩) :=
  ⟨leafInode_wellFormed (by decide) 7, extentMap_done 4096 allSucceed (EvfsExt.of 2 200 3)
    ⟨(leafInode [⟨0, 8, 100⟩] 7).tree, 0⟩ (leafInode_wellFormed (by decide) 7) (by decide)⟩

end LinuxEvfs.ExtMove.Rounds
