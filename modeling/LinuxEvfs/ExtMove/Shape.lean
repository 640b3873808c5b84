import LinuxEvfs.ExtMove.Loop

/-! # The shape of the map

Whatever the request and whichever calls fail, as long as a failing split leaves the map unchanged: the
mapped blocks and their states stay the same, the extents stay sorted, disjoint and of legal lengths,
and no split is asked for outside its extent (`evfsExtentMove_shape`). -/

namespace LinuxEvfs.ExtMove.Shape

open LinuxEvfs.Errno
open LinuxEvfs.ExtTree.Basic LinuxEvfs.ExtTree.Cells LinuxEvfs.ExtTree.Tree LinuxEvfs.ExtTree.Split
open LinuxEvfs.ExtMove.Model LinuxEvfs.ExtMove.Cursor LinuxEvfs.ExtMove.Refine LinuxEvfs.ExtMove.Loop

/-- Every forced split succeeds or leaves the map unchanged. -/
def CleanSplits (env : Env) : Prop := ∀ n, (env.split n).Clean

/-! ### One call -/

section call
variable {env : Env} {cs : List Cell} {curr rep next : EvfsExt} {t : ExtRoot} {calls cuts : ℕ}
  {o : Outcome (St × ℤ × EvfsExt × EvfsExt)} {st : St} {ret : ℤ}

/-- The tree stays well formed and the shape the same, on errors too. -/
theorem Inside.shape_eq (hc : CleanSplits env)
    (h : Inside env cs curr calls cuts (.ret (st, ret, rep, next))) :
    WellFormed st.tree ∧ shape (cells (exts st.tree)) = shape cs := by
  generalize ho : Outcome.ret (st, ret, rep, next) = o at h
  induction h with
  | oops => cases ho
  | cut _ _ _ ih => exact ih ho
  | fail _ _ _ hk _ _ hfail =>
    cases ho
    obtain ⟨hw, hk'⟩ := hfail.clean (hc _)
    exact ⟨hw, Keeps.shape_eq (hk.trans hk')⟩
  | dirty _ _ hw hs =>
    cases ho
    exact ⟨hw, Swapped.shape_eq hs⟩
  | store _ _ _ hw hs =>
    cases ho
    exact ⟨hw, Swapped.shape_eq hs⟩

theorem MapEnd.shape_eq (hc : CleanSplits env) (hw : WellFormed t)
    (h : MapEnd env t calls curr (.ret (st, ret, rep, next))) :
    WellFormed st.tree ∧ shape (cells (exts st.tree)) = shape (cells (exts t)) := by
  cases h with
  | eof => exact ⟨hw, rfl⟩
  | skip => exact ⟨hw, rfl⟩
  | inside _ _ _ _ h => exact Inside.shape_eq hc h

theorem Inside.find_of_oops (h : Inside env cs curr calls cuts o) (ho : o = .oops) :
    ∃ n, env.find n ≠ none := by
  induction h with
  | oops hf => exact ⟨_, hf⟩
  | cut _ _ _ ih => exact ih ho
  | _ => cases ho

/-- Only a failing lookup ends the function without a return. -/
theorem MapEnd.find_of_oops (h : MapEnd env t calls curr .oops) : ∃ n, env.find n ≠ none := by
  cases h with
  | oops hf => exact ⟨_, hf⟩
  | inside _ _ _ _ h => exact Inside.find_of_oops h rfl

end call

/-! ### The loop -/

/-- What holds of every outcome of the loop. -/
def Shaped (env : Env) (cs : List Cell) (room : ℕ) : Outcome (St × ℤ × List EvfsExt) → Prop
  | .ret (st, _, out) =>
    WellFormed st.tree ∧ shape (cells (exts st.tree)) = shape cs ∧ out.length ≤ room
  | .oops => ∃ n, env.find n ≠ none
  | .bug => False
  | .stuck => False

/-- An entry more, after a call that keeps the shape. -/
theorem Shaped.cons {env : Env} {cs cs1 : List Cell} {room : ℕ} {rep : EvfsExt} :
    ∀ {o : Outcome (St × ℤ × List EvfsExt)}, Shaped env cs1 room o → shape cs1 = shape cs →
    Shaped env cs (room + 1) (consOut rep o)
  | .ret _, ⟨hw, hsh, hlen⟩, h => ⟨hw, hsh.trans h, Nat.succ_le_succ hlen⟩
  | .oops, hf, _ => hf

theorem moveLoop_shaped {blocksize fuel : ℕ} {env : Env} (hfuel : 3 ≤ fuel) (hc : CleanSplits env) :
    ∀ (room : ℕ) {st : St} {curr : EvfsExt}, WellFormed st.tree →
    Shaped env (cells (exts st.tree)) room (moveLoop blocksize env fuel room st curr)
  | 0, st, curr, hw => ⟨hw, rfl, Nat.le_refl _⟩
  | room + 1, st, curr, hw => by
    by_cases h0 : curr.len = 0
    · rw [moveLoop, if_pos h0]
      exact ⟨hw, rfl, Nat.zero_le _⟩
    · obtain ⟨o, hm, ⟨rfl, hl⟩ | ⟨st1, err, rep, next, rfl, hcases⟩⟩ :=
        moveLoop_cases blocksize env hfuel room hw h0
      · rw [hl]
        exact MapEnd.find_of_oops hm
      · obtain ⟨hw1, hsh⟩ := MapEnd.shape_eq hc hw hm
        rcases hcases with ⟨-, hl⟩ | ⟨-, hl⟩
        · rw [hl]
          exact ⟨hw1, hsh, Nat.zero_le _⟩
        · rw [hl]
          exact (moveLoop_shaped hfuel hc room hw1).cons hsh

/-! ### The move -/

/-- The same shape means the same state, or none, for every block. -/
theorem state_eq_of_shape {m m' : List Extent} (h : ValidMap m) (h' : ValidMap m')
    (hs : shape (cells m') = shape (cells m)) (L : ℕ) :
    (blockMap m' L).map Prod.snd = (blockMap m L).map Prod.snd := by
  have hread : ∀ {m : List Extent}, ValidMap m → ∀ w,
      (blockMap m L).map Prod.snd = some w ↔ (L, w) ∈ shape (cells m) := fun hv w => by
    simp only [Option.map_eq_some_iff, Prod.exists, blockMap_eq_some hv, shape, List.mem_map,
      Prod.mk.injEq]
    constructor
    · rintro ⟨p, w', hmem, rfl⟩
      exact ⟨L, p, w', hmem, rfl, rfl⟩
    · rintro ⟨L', p, w', hmem, rfl, rfl⟩
      exact ⟨p, w', hmem, rfl⟩
  refine Option.ext fun w => ?_
  rw [hread h', hread h, hs]

/-- What a move makes of the inode `ino`: the tree stays well formed, every block keeps its state and
none becomes mapped or unmapped; at most `len` entries are written. Only a failing lookup keeps it from
returning, and no `BUG_ON` stops it. -/
def ShapeKept (env : Env) (ino : Inode) (args : MvIn) : Outcome (Inode × ℤ × List EvfsExt) → Prop
  | .ret (ino', _, out) => WellFormed ino'.tree ∧
    (∀ L, (blockMap (exts ino'.tree) L).map Prod.snd = (blockMap (exts ino.tree) L).map Prod.snd) ∧
    out.length ≤ args.ext.len
  | .oops => ∃ n, env.find n ≠ none
  | .bug => False
  | .stuck => False

/-- **The shape of the map under any move.** -/
theorem evfsExtentMove_shape (blocksize : ℕ) (env : Env) (fuel : ℕ) (ino : Inode) (args : MvIn)
    (hfuel : 3 ≤ fuel) (hc : CleanSplits env) (hw : WellFormed ino.tree) :
    ShapeKept env ino args (evfsExtentMove blocksize env fuel ino args) := by
  have hsame : ∀ ret : ℤ, ShapeKept env ino args (.ret (ino, ret, [])) := fun ret =>
    ⟨hw, fun _ => rfl, Nat.zero_le _⟩
  have hl : Shaped env _ _ (moveLoop blocksize env fuel args.ext.len ⟨ino.tree, 0⟩ args.ext) :=
    moveLoop_shaped hfuel hc _ hw
  unfold evfsExtentMove
  split
  · exact hsame _
  split_ifs
  · exact hsame _
  split
  · exact hsame _
  · revert hl
    cases moveLoop blocksize env fuel args.ext.len ⟨ino.tree, 0⟩ args.ext with
    | ret r =>
      obtain ⟨st, ret, out⟩ := r
      rintro ⟨hw', hsh, hlen⟩
      exact ⟨hw', state_eq_of_shape hw.valid hw'.valid hsh, hlen⟩
    | _ => exact id

/-- A request that starts in the first extent, ends beyond `2 ^ 32` and so wraps. -/
theorem evfsExtentMove_shape_wrapped : ∃ ino' out,
    evfsExtentMove 4096 allSucceed 3 (leafInode [⟨0, 4, 100⟩, ⟨4, 32770, 50⟩] 7)
        ⟨7, EvfsExt.of 2 200 4294967295⟩ = .ret (ino', 0, out) ∧
      (blockMap (exts ino'.tree) 5).map Prod.snd = some true := by
  have hw : WellFormed (leafInode [⟨0, 4, 100⟩, ⟨4, 32770, 50⟩] 7).tree :=
    leafInode_wellFormed (by decide) 7
  obtain ⟨ino', out, hret⟩ : ∃ ino' out, evfsExtentMove 4096 allSucceed 3
      (leafInode [⟨0, 4, 100⟩, ⟨4, 32770, 50⟩] 7) ⟨7, EvfsExt.of 2 200 4294967295⟩ =
        .ret (ino', 0, out) := move_ret (Nat.le_refl 3) allSucceed_succeeds hw rfl
  have h := evfsExtentMove_shape 4096 allSucceed 3 (leafInode [⟨0, 4, 100⟩, ⟨4, 32770, 50⟩] 7)
    ⟨7, EvfsExt.of 2 200 4294967295⟩ (Nat.le_refl 3) (fun _ => trivial) hw
  rw [hret] at h
  exact ⟨ino', out, hret, (h.2.1 5).trans (by decide)⟩

end LinuxEvfs.ExtMove.Shape
