import LinuxEvfs.ExtMove.Model
import LinuxEvfs.Lib.TreeJournal

/-! # The journal during `evfs_extent_move`

What the move does to the buffers of the tree blocks. The functions ending in `J` go along with those of
`ExtMove.Model`: the same tree and the same answers, with the block numbers and the events on the buffers.

`ext4_split_extent_at` asks for write access to the leaf and marks it dirty, and so does the insertion of the
second half with every block it changes. `__evfs_extent_map` stores the new physical start, and merges, without
asking for access; only `ext4_ext_dirty` follows.

* `moveLoop_known`: if all blocks of the tree are granted at the start, the events are disciplined. -/

namespace LinuxEvfs.ExtMove.Journal

open LinuxEvfs.Errno LinuxEvfs.Lib.Word LinuxEvfs.Lib.IndexTree LinuxEvfs.Lib.Journal
open LinuxEvfs.Lib.TreeJournal LinuxEvfs.ExtTree.Basic LinuxEvfs.ExtTree.Cells LinuxEvfs.ExtTree.Tree
open LinuxEvfs.ExtTree.Split LinuxEvfs.ExtMove.Model

/-- What the answers of `Env` leave open, for the calls of the loop: the numbers of the blocks that are
allocated, and how far an insertion that fails has got. -/
structure BlockEnv where
  alloc : ℕ → ℕ → ℕ → ℕ
  partway : ℕ → ℕ

/-- A change under an access granted before. -/
def again (no : Option ℕ) : List (Ev ℕ) := no.elim [] fun b => [.change b, .dirty b]

section model
variable (blocksize : ℕ) (env : Env) (bl : BlockEnv)

/-- `ext4_split_extent_at`. -/
def ext4SplitExtentAtJ (calls : ℕ) (out : SplitOut) (t : ExtRoot) (nums : Nums) (path : Path t.1) (split : ℕ)
    (unwritten : Bool) : Nums × List (Ev ℕ) :=
  match pExt t path with
  | none => (nums, [])
  | some ex =>
    if split < ex.eeBlock ∨ add32 ex.eeBlock (ext4ExtGetActualLen ex) ≤ split then (nums, [])
    else
      let leaf := leafNo t.1 none nums path
      let short := updExt (setLen · (split - ex.eeBlock) unwritten) t path
      let ins := insertJ Extent.eeBlock (splitTail ex split unwritten) (ext4ExtSpaceBlock blocksize)
        (bl.alloc calls) t.1 nums short.2 path
      match out with
      | .accessErr _ => (nums, [])
      | out =>
        if split = ex.eeBlock then (nums, touch leaf)
        else
          match out with
          -- `fix_extent_len` writes the old length back
          | .dirtyErr _ => (nums, touch leaf ++ again leaf)
          | .insertErr e inserted =>
            (if inserted then ins.1 else nums,
              touch leaf ++ (if inserted then ins.2 else ins.2.take (bl.partway calls)) ++
                if restores e then again leaf else [])
          | _ => (ins.1, touch leaf ++ ins.2)

def ext4ForceSplitExtentAtJ (calls : ℕ) (out : SplitOut) (t : ExtRoot) (nums : Nums) (path : Path t.1)
    (lblk : ℕ) : Nums × List (Ev ℕ) :=
  match pExt t path with
  | none => (nums, [])
  | some ex => ext4SplitExtentAtJ blocksize bl calls out t nums path lblk (ext4ExtIsUnwritten ex)

def splitPassJ (st : St) (nums : Nums) (lblk x : ℕ) : Nums × List (Ev ℕ) :=
  ext4ForceSplitExtentAtJ blocksize bl st.calls (env.split st.calls) st.tree nums
    (ext4FindExtent st.tree lblk) x

/-- The store and the merge. A leaf that was moved into the inode is freed, and `path[depth]` is then the
inode. -/
def storePassJ (curr : EvfsExt) (st : St) (nums : Nums) (lblk : ℕ) : Nums × List (Ev ℕ) :=
  let path := ext4FindExtent st.tree lblk
  let phy := sub64 (add64 curr.phyStart lblk) curr.logStart
  let t := ext4ExtTryToMerge (env.extend st.calls) (updExt (ext4ExtStorePblock · phy) st.tree path) path
  (nums, (leafNo st.tree.1 none nums path).elim [] fun no =>
    [.change no, if t.1 < st.tree.1 then .forget no else .dirty no])

def insidePassJ (curr : EvfsExt) (st : St) (nums : Nums) (ex : Extent) (lblk len : ℕ) :
    Nums × List (Ev ℕ) :=
  let eEnd := add32 ex.eeBlock (ext4ExtGetActualLen ex)
  if add32 curr.logStart len ≤ lblk then (nums, [])
  else
    let len := sub32 (add32 curr.logStart len) lblk
    if ex.eeBlock < lblk then splitPassJ blocksize env bl st nums lblk lblk
    else
      let len := if eEnd < add32 lblk len then sub32 eEnd lblk else len
      if add32 lblk len < eEnd then splitPassJ blocksize env bl st nums lblk (add32 lblk len)
      else storePassJ env curr st nums lblk

def mapPassJ (curr : EvfsExt) (st : St) (nums : Nums) (lblk len : ℕ) : Nums × List (Ev ℕ) :=
  match env.find st.calls with
  | some _ => (nums, [])
  | none =>
    match pExt st.tree (ext4FindExtent st.tree lblk) with
    | none => (nums, [])
    | some ex =>
      if lblk < ex.eeBlock then (nums, [])
      else if add32 ex.eeBlock (ext4ExtGetActualLen ex) ≤ lblk then (nums, [])
      else insidePassJ blocksize env bl curr ⟨st.tree, st.calls + 1⟩ nums ex lblk len

def mapLoopJ (curr : EvfsExt) : ℕ → St → Nums → ℕ → ℕ → Nums × List (Ev ℕ)
  | 0, _, nums, _, _ => (nums, [])
  | fuel + 1, st, nums, lblk, len =>
    let r := mapPassJ blocksize env bl curr st nums lblk len
    match mapPass blocksize env curr st lblk len with
    | .cont st' lblk' len' =>
      let r' := mapLoopJ curr fuel st' r.1 lblk' len'
      (r'.1, r.2 ++ r'.2)
    | _ => r

def moveLoopJ (fuel : ℕ) : ℕ → St → Nums → EvfsExt → List (Ev ℕ)
  | 0, _, _, _ => []
  | room + 1, st, nums, curr =>
    if curr.len = 0 then []
    else
      let r := mapLoopJ blocksize env bl curr fuel st nums curr.logStart curr.len
      match evfsExtentMap blocksize env fuel curr st with
      | .ret (st', err, _, next) => if err < 0 then r.2 else r.2 ++ moveLoopJ fuel room st' r.1 next
      | _ => r.2

/-- The events of `evfs_extent_move` between the start and the stop of its handle. -/
def evfsExtentMoveJ (fuel : ℕ) (ino : Inode) (nums : Nums) (args : MvIn) : List (Ev ℕ) :=
  moveLoopJ blocksize env bl fuel args.ext.len ⟨ino.tree, 0⟩ nums args.ext

end model

/-! ### One pass -/

/-- The state a pass leaves where the move goes on or may still succeed. -/
def goesOn : Pass → Option St
  | .cont st _ _ => some st
  | .done st ret _ _ => if ret < 0 then none else some st
  | _ => none

/-- What is granted before an event list is granted during all of it: the leaf of a split. -/
theorem accessed_again {g : List ℕ} {no : Option ℕ} {evs : List (Ev ℕ)} (h : ∀ e ∈ evs, e.plain = true) :
    Accessed (grants (grants g (touch no)) evs) (again no) := by
  cases no with
  | none => trivial
  | some b =>
    have hb : b ∈ grants (grants g (touch (some b))) evs := subset_grants h (by simp [touch, grant])
    simpa [again, Accessed] using hb

section pass
variable (blocksize : ℕ) (env : Env) (bl : BlockEnv) {g : List ℕ} {nums : Nums}

/-- A split asks for access to everything it changes. -/
theorem split_accessed (calls : ℕ) (out : SplitOut) (t : ExtRoot) (path : Path t.1) (x : ℕ) (u : Bool)
    (g : List ℕ) (nums : Nums) :
    Accessed g (ext4SplitExtentAtJ blocksize bl calls out t nums path x u).2 := by
  unfold ext4SplitExtentAtJ
  cases pExt t path with
  | none => trivial
  | some ex =>
    dsimp only
    by_cases hbug : x < ex.eeBlock ∨ add32 ex.eeBlock (ext4ExtGetActualLen ex) ≤ x
    · rw [if_pos hbug]
      trivial
    rw [if_neg hbug]
    have ht := safe_touch (leafNo t.1 none nums path)
    have hins := (insert_known Extent.eeBlock (splitTail ex x u) (ext4ExtSpaceBlock blocksize)
      (bl.alloc calls) t.1 nums (updExt (setLen · (x - ex.eeBlock) u) t path).2 path).1
    by_cases hx : x = ex.eeBlock
    · cases out <;> first | trivial | (simp only [if_pos hx]; exact ht.accessed g)
    cases out with
    | accessErr e => trivial
    | ok =>
      simp only [if_neg hx]
      exact (ht.append hins).accessed g
    | dirtyErr e =>
      simp only [if_neg hx]
      exact accessed_append.mpr ⟨ht.accessed g, accessed_again (List.forall_mem_nil _)⟩
    | insertErr e inserted =>
      simp only [if_neg hx]
      rw [accessed_append, accessed_append]
      refine ⟨⟨ht.accessed g, ?_⟩, ?_⟩
      · split_ifs
        · exact hins.accessed _
        · exact (hins.accessed _).take _
      · rw [grants_append]
        split_ifs
        · exact accessed_again hins.plain
        · trivial
        · exact accessed_again fun e he => hins.plain e (List.mem_of_mem_take he)
        · trivial

/-- A split that succeeds. -/
theorem split_good {calls : ℕ} {out : SplitOut} {t t' : ExtRoot} {path : Path t.1} {x : ℕ} {u : Bool}
    (h : ext4SplitExtentAt blocksize out t path x u = some (t', none)) :
    Dirtied (ext4SplitExtentAtJ blocksize bl calls out t nums path x u).2 ∧ (Known t.1 nums g →
      Known t'.1 (ext4SplitExtentAtJ blocksize bl calls out t nums path x u).1
        (grants g (ext4SplitExtentAtJ blocksize bl calls out t nums path x u).2)) := by
  unfold ext4SplitExtentAt at h
  unfold ext4SplitExtentAtJ
  cases hp : pExt t path with
  | none => simp [hp] at h
  | some ex =>
    simp only [hp] at h
    dsimp only
    by_cases hbug : x < ex.eeBlock ∨ add32 ex.eeBlock (ext4ExtGetActualLen ex) ≤ x
    · rw [if_pos hbug] at h
      cases h
    rw [if_neg hbug] at h ⊢
    have ht := safe_touch (leafNo t.1 none nums path)
    obtain ⟨hins, hknown⟩ := insert_known Extent.eeBlock (splitTail ex x u) (ext4ExtSpaceBlock blocksize)
      (bl.alloc calls) t.1 nums (updExt (setLen · (x - ex.eeBlock) u) t path).2 path
    by_cases hx : x = ex.eeBlock
    · have htouch : Dirtied (touch (leafNo t.1 none nums path)) ∧ (Known t.1 nums g →
          Known t.1 nums (grants g (touch (leafNo t.1 none nums path)))) :=
        ⟨ht.dirtied, fun hk => hk.mono (ht.keeps g)⟩
      cases out with
      | accessErr e => simp at h
      | dirtyErr e => simp [hx] at h
      | ok =>
        simp only [if_pos hx] at h ⊢
        cases h
        exact htouch
      | insertErr e inserted =>
        simp only [if_pos hx] at h ⊢
        cases h
        exact htouch
    · cases out with
      | accessErr e => simp at h
      | dirtyErr e => simp [hx] at h
      | insertErr e inserted => simp [hx] at h
      | ok =>
        simp only [if_neg hx] at h ⊢
        cases h
        refine ⟨(ht.append hins).dirtied, fun hk => ?_⟩
        rw [grants_append]
        exact hknown _ (hk.mono (ht.keeps g))

theorem splitPass_accessed (st : St) (lblk x : ℕ) (g : List ℕ) :
    Accessed g (splitPassJ blocksize env bl st nums lblk x).2 := by
  unfold splitPassJ ext4ForceSplitExtentAtJ
  cases pExt st.tree (ext4FindExtent st.tree lblk) with
  | none => trivial
  | some ex => exact split_accessed ..

theorem splitPass_good {curr : EvfsExt} {st st' : St} {lblk len x : ℕ}
    (h : goesOn (splitPass blocksize env curr st lblk len x) = some st') :
    Dirtied (splitPassJ blocksize env bl st nums lblk x).2 ∧ (Known st.tree.1 nums g →
      Known st'.tree.1 (splitPassJ blocksize env bl st nums lblk x).1
        (grants g (splitPassJ blocksize env bl st nums lblk x).2)) := by
  unfold splitPass ext4ForceSplitExtentAt at h
  unfold splitPassJ ext4ForceSplitExtentAtJ
  cases hp : pExt st.tree (ext4FindExtent st.tree lblk) with
  | none => simp [hp, goesOn] at h
  | some ex =>
    simp only [hp] at h
    dsimp only
    cases hs : ext4SplitExtentAt blocksize (env.split st.calls) st.tree (ext4FindExtent st.tree lblk) x
        (ext4ExtIsUnwritten ex) with
    | none => simp [hs, goesOn] at h
    | some r =>
      obtain ⟨t, err⟩ := r
      cases err with
      | some e =>
        simp only [hs, goesOn] at h
        rw [if_pos e.ret_neg] at h
        cases h
      | none =>
        simp only [hs, goesOn] at h
        cases h
        exact split_good blocksize bl hs

theorem tryToMergeUp_depth (extend : Bool) (t : ExtRoot) :
    (ext4ExtTryToMergeUp extend t).1 = t.1 ∨ (ext4ExtTryToMergeUp extend t).1 = 0 := by
  unfold ext4ExtTryToMergeUp
  split
  · split
    · split_ifs
      · exact .inr rfl
      · exact .inl rfl
    · exact .inl rfl
  · exact .inl rfl

/-- Merging leaves the depth, or puts everything into the inode. -/
theorem tryToMerge_depth (extend : Bool) (t : ExtRoot) (path : Path t.1) :
    (ext4ExtTryToMerge extend t path).1 = t.1 ∨ (ext4ExtTryToMerge extend t path).1 = 0 :=
  tryToMergeUp_depth extend _

/-- A store into a granted leaf. -/
theorem storePass_known (curr : EvfsExt) (st : St) (ex : Extent) (lblk len : ℕ) (h : Known st.tree.1 nums g) :
    Accessed g (storePassJ env curr st nums lblk).2 ∧ Dirtied (storePassJ env curr st nums lblk).2 ∧
      ∀ st', goesOn (storePass env curr st ex lblk len) = some st' →
        Known st'.tree.1 (storePassJ env curr st nums lblk).1
          (grants g (storePassJ env curr st nums lblk).2) := by
  have htree : ∀ st', goesOn (storePass env curr st ex lblk len) = some st' → st'.tree =
      ext4ExtTryToMerge (env.extend st.calls) (updExt (ext4ExtStorePblock ·
        (sub64 (add64 curr.phyStart lblk) curr.logStart)) st.tree (ext4FindExtent st.tree lblk))
        (ext4FindExtent st.tree lblk) := by
    intro st' hst
    unfold storePass at hst
    cases hd : env.dirty st.calls with
    | some err =>
      simp only [hd, goesOn] at hst
      rw [if_pos err.ret_neg] at hst
      cases hst
    | none =>
      simp only [hd, goesOn] at hst
      cases hst
      rfl
  have hdepth := tryToMerge_depth (env.extend st.calls) (updExt (ext4ExtStorePblock ·
    (sub64 (add64 curr.phyStart lblk) curr.logStart)) st.tree (ext4FindExtent st.tree lblk))
    (ext4FindExtent st.tree lblk)
  unfold storePassJ
  dsimp only
  cases hleaf : leafNo st.tree.1 none nums (ext4FindExtent st.tree lblk) with
  | none =>
    refine ⟨trivial, trivial, fun st' hst => ?_⟩
    rw [htree st' hst]
    rcases hdepth with hd | hd
    · rw [hd]
      exact h
    · rw [hd]
      exact known_zero
  | some no =>
    have hno : no ∈ g := (h.leafNo_mem hleaf).resolve_left (by simp)
    dsimp only [Option.elim]
    split_ifs with hup
    · refine ⟨by simp [Accessed, hno], by simp [Dirtied, Settled], fun st' hst => ?_⟩
      rw [htree st' hst, hdepth.resolve_left (Nat.ne_of_lt hup)]
      exact known_zero
    · refine ⟨by simp [Accessed, hno], by simp [Dirtied, Settled], fun st' hst => ?_⟩
      rw [htree st' hst]
      rcases hdepth with hd | hd
      · rw [hd]
        exact h
      · rw [hd]
        exact known_zero

/-- **One pass** of the loop of `__evfs_extent_map`, on a tree whose blocks are all granted. -/
theorem mapPass_known (curr : EvfsExt) (st : St) (lblk len : ℕ) (h : Known st.tree.1 nums g) :
    Accessed g (mapPassJ blocksize env bl curr st nums lblk len).2 ∧
      ∀ st', goesOn (mapPass blocksize env curr st lblk len) = some st' →
        Dirtied (mapPassJ blocksize env bl curr st nums lblk len).2 ∧
          Known st'.tree.1 (mapPassJ blocksize env bl curr st nums lblk len).1
            (grants g (mapPassJ blocksize env bl curr st nums lblk len).2) := by
  have hsame : ∀ calls, Accessed g (nums, ([] : List (Ev ℕ))).2 ∧ ∀ st', some (⟨st.tree, calls⟩ : St) = some st' →
      Dirtied (nums, ([] : List (Ev ℕ))).2 ∧ Known st'.tree.1 nums g := by
    intro calls
    refine ⟨trivial, fun st' hst => ?_⟩
    cases hst
    exact ⟨trivial, h⟩
  unfold mapPassJ mapPass
  cases env.find st.calls with
  | some err => exact ⟨trivial, nofun⟩
  | none =>
    dsimp only
    cases pExt st.tree (ext4FindExtent st.tree lblk) with
    | none => exact hsame _
    | some ex =>
      dsimp only
      by_cases hbefore : lblk < ex.eeBlock
      · rw [if_pos hbefore, if_pos hbefore]
        exact hsame _
      rw [if_neg hbefore, if_neg hbefore]
      by_cases hbehind : add32 ex.eeBlock (ext4ExtGetActualLen ex) ≤ lblk
      · rw [if_pos hbehind, if_pos hbehind]
        split_ifs <;> exact hsame _
      rw [if_neg hbehind, if_neg hbehind]
      unfold insidePassJ insidePass
      dsimp only
      by_cases hend : add32 curr.logStart len ≤ lblk
      · rw [if_pos hend, if_pos hend]
        exact hsame _
      rw [if_neg hend, if_neg hend]
      by_cases hleft : ex.eeBlock < lblk
      · rw [if_pos hleft, if_pos hleft]
        refine ⟨splitPass_accessed blocksize env bl _ _ _ g, fun st' hst => ?_⟩
        obtain ⟨hd, hk⟩ := splitPass_good blocksize env bl hst
        exact ⟨hd, hk h⟩
      rw [if_neg hleft, if_neg hleft]
      generalize (if add32 ex.eeBlock (ext4ExtGetActualLen ex) < add32 lblk
        (sub32 (add32 curr.logStart len) lblk) then sub32 (add32 ex.eeBlock (ext4ExtGetActualLen ex)) lblk
        else sub32 (add32 curr.logStart len) lblk) = n
      by_cases hright : add32 lblk n < add32 ex.eeBlock (ext4ExtGetActualLen ex)
      · rw [if_pos hright, if_pos hright]
        refine ⟨splitPass_accessed blocksize env bl _ _ _ g, fun st' hst => ?_⟩
        obtain ⟨hd, hk⟩ := splitPass_good blocksize env bl hst
        exact ⟨hd, hk h⟩
      · rw [if_neg hright, if_neg hright]
        obtain ⟨ha, hd, hk⟩ := storePass_known env curr ⟨st.tree, st.calls + 1⟩ ex lblk n h
        exact ⟨ha, fun st' hst => ⟨hd, hk st' hst⟩⟩

/-! ### A whole move -/

/-- The loop of `__evfs_extent_map`. -/
theorem mapLoop_known (curr : EvfsExt) (fuel : ℕ) : ∀ (st : St) (nums : Nums) (lblk len : ℕ) (g : List ℕ),
    Known st.tree.1 nums g →
      Accessed g (mapLoopJ blocksize env bl curr fuel st nums lblk len).2 ∧
        ∀ st' err curr' next, mapLoop blocksize env curr fuel st lblk len = .ret (st', err, curr', next) →
          0 ≤ err → Dirtied (mapLoopJ blocksize env bl curr fuel st nums lblk len).2 ∧
            Known st'.tree.1 (mapLoopJ blocksize env bl curr fuel st nums lblk len).1
              (grants g (mapLoopJ blocksize env bl curr fuel st nums lblk len).2) := by
  induction fuel with
  | zero => exact fun _ _ _ _ _ _ => ⟨trivial, by rintro _ _ _ _ ⟨⟩⟩
  | succ fuel ih =>
    intro st nums lblk len g h
    obtain ⟨ha, hgood⟩ := mapPass_known blocksize env bl curr st lblk len h
    unfold mapLoopJ mapLoop
    cases hpass : mapPass blocksize env curr st lblk len with
    | cont st1 lblk1 len1 =>
      rw [hpass] at hgood
      obtain ⟨hd, hk⟩ := hgood st1 rfl
      obtain ⟨ha', hgood'⟩ := ih st1 _ lblk1 len1 _ hk
      dsimp only
      refine ⟨accessed_append.mpr ⟨ha, ha'⟩, fun st' err curr' next hret herr => ?_⟩
      obtain ⟨hd', hk'⟩ := hgood' st' err curr' next hret herr
      rw [grants_append]
      exact ⟨hd.append hd', hk'⟩
    | done st1 ret curr1 next1 =>
      rw [hpass] at hgood
      refine ⟨ha, fun st' err curr' next hret herr => ?_⟩
      cases hret
      exact hgood _ (if_neg (Int.not_lt.mpr herr))
    | oops => exact ⟨ha, by rintro _ _ _ _ ⟨⟩⟩
    | bug => exact ⟨ha, by rintro _ _ _ _ ⟨⟩⟩

/-- **The loop of `evfs_extent_move`.** Where all blocks of the tree are granted, so is every block it changes,
and if it returns 0 every block changed is marked dirty. -/
theorem moveLoop_known (fuel room : ℕ) : ∀ (st : St) (nums : Nums) (curr : EvfsExt) (g : List ℕ),
    Known st.tree.1 nums g →
      Accessed g (moveLoopJ blocksize env bl fuel room st nums curr) ∧
        ∀ st' out, moveLoop blocksize env fuel room st curr = .ret (st', 0, out) →
          Dirtied (moveLoopJ blocksize env bl fuel room st nums curr) := by
  induction room with
  | zero => exact fun _ _ _ _ _ => ⟨trivial, fun _ _ _ => trivial⟩
  | succ room ih =>
    intro st nums curr g h
    obtain ⟨ha, hgood⟩ := mapLoop_known blocksize env bl curr fuel st nums curr.logStart curr.len g h
    unfold moveLoopJ moveLoop
    by_cases hlen : curr.len = 0
    · rw [if_pos hlen, if_pos hlen]
      exact ⟨trivial, fun _ _ _ => trivial⟩
    rw [if_neg hlen, if_neg hlen]
    cases hmap : evfsExtentMap blocksize env fuel curr st with
    | ret r =>
      obtain ⟨st1, err, curr1, next⟩ := r
      dsimp only
      by_cases herr : err < 0
      · rw [if_pos herr, if_pos herr]
        refine ⟨ha, fun st' out hret => ?_⟩
        cases hret
        exact absurd herr (Int.lt_irrefl 0)
      rw [if_neg herr, if_neg herr]
      obtain ⟨hd, hk⟩ := hgood st1 err curr1 next hmap (Int.not_lt.mp herr)
      obtain ⟨ha', hd'⟩ := ih st1 _ next _ hk
      refine ⟨accessed_append.mpr ⟨ha, ha'⟩, fun st' out hret => ?_⟩
      cases hrest : moveLoop blocksize env fuel room st1 next with
      | ret r =>
        obtain ⟨st2, ret2, out2⟩ := r
        rw [hrest] at hret
        cases hret
        exact hd.append (hd' _ _ hrest)
      | _ => simp [hrest] at hret
    | _ => exact ⟨ha, by rintro _ _ ⟨⟩⟩

end pass

end LinuxEvfs.ExtMove.Journal
