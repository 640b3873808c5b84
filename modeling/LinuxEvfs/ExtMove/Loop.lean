import LinuxEvfs.ExtMove.Refine

/-! # The loop of `evfs_extent_move`

From one call of `__evfs_extent_map` to the whole move, for every environment.

* `move_run`: a move that returns zero or more has walked a `Run` of the machine on cells.
* `move_ret`: when no call fails it returns zero.
* `move_cases`: a move that returns fails before its loop or returns what the loop does. -/

namespace LinuxEvfs.ExtMove.Loop

open LinuxEvfs.Errno LinuxEvfs.Lib.Word LinuxEvfs.Lib.Holes
open LinuxEvfs.ExtTree.Basic LinuxEvfs.ExtTree.Cells LinuxEvfs.ExtTree.Tree LinuxEvfs.ExtTree.Split
open LinuxEvfs.ExtMove.Model LinuxEvfs.ExtMove.Cursor LinuxEvfs.ExtMove.Refine

/-- No call fails. -/
structure Succeeds (env : Env) : Prop where
  iget : env.iget = none
  start : env.journalStart = none
  stop : env.journalStop = none
  find : ∀ n, env.find n = none
  split : ∀ n, env.split n = .ok
  dirty : ∀ n, env.dirty n = none

theorem allSucceed_succeeds : Succeeds allSucceed :=
  ⟨rfl, rfl, rfl, fun _ => rfl, fun _ => rfl, fun _ => rfl⟩

theorem leafInode_wellFormed {es : List Extent} (h : ValidMap es) (iver : ℕ) :
    WellFormed (leafInode es iver).tree := ⟨trivial, h⟩

/-! ### One call -/

section call
variable {env : Env} {cs : List Cell} {curr rep next : EvfsExt} {t : ExtRoot} {calls cuts : ℕ}
  {o : Outcome (St × ℤ × EvfsExt × EvfsExt)} {st : St} {ret : ℤ}

theorem Swapped.shape_eq {k q : ℕ} {cs' : List Cell} (h : Swapped cs curr k q cs') :
    shape cs' = shape cs := by
  obtain ⟨-, -, -, mid, hk, -, rfl⟩ := h
  rw [remap_shape, Keeps.shape_eq hk]

/-- A swap that is marked dirty is a turn. -/
theorem Inside.turn (h : Inside env cs curr calls cuts (.ret (st, ret, rep, next))) (hret : 0 ≤ ret)
    (hend : curr.logStart + curr.len < 2 ^ 32) :
    WellFormed st.tree ∧ Turn cs curr (cells (exts st.tree)) rep next := by
  generalize ho : Outcome.ret (st, ret, rep, next) = o at h
  induction h with
  | oops => cases ho
  | cut _ _ _ ih => exact ih ho
  | fail =>
    cases ho
    exact absurd hret (Int.not_le.mpr (Errno.ret_neg _))
  | dirty =>
    cases ho
    exact absurd hret (Int.not_le.mpr (Errno.ret_neg _))
  | store _ _ _ hw hs =>
    cases ho
    obtain ⟨h0, hle, hq, mid, hk, hold, heq⟩ := hs
    exact ⟨hw, heq ▸ Turn.swap h0 hle hend hk hq hold⟩

/-- **A call that returns zero or more is a turn.** -/
theorem MapEnd.turn (hw : WellFormed t) (h : MapEnd env t calls curr (.ret (st, ret, rep, next)))
    (hret : 0 ≤ ret) :
    WellFormed st.tree ∧ Turn (cells (exts t)) curr (cells (exts st.tree)) rep next := by
  cases h with
  | eof _ h => exact ⟨hw, .eof h⟩
  | skip _ h hj => exact ⟨hw, .skip h hj⟩
  | inside _ _ _ hend h => exact Inside.turn h hret hend

theorem Inside.no_bug (h : Inside env cs curr calls cuts o) : o ≠ .bug ∧ o ≠ .stuck := by
  induction h with
  | cut _ _ _ ih => exact ih
  | _ => exact ⟨nofun, nofun⟩

/-- The function never asks for a split outside the extent, nor does it loop for ever. -/
theorem MapEnd.no_bug (h : MapEnd env t calls curr o) : o ≠ .bug ∧ o ≠ .stuck := by
  cases h with
  | inside _ _ _ _ h => exact Inside.no_bug h
  | _ => exact ⟨nofun, nofun⟩

theorem Inside.ret_of_succeeds (hs : Succeeds env) (h : Inside env cs curr calls cuts o) :
    ∃ st ret rep next, o = .ret (st, ret, rep, next) ∧ 0 ≤ ret := by
  induction h with
  | oops hf => exact absurd (hs.find _) hf
  | cut _ _ _ ih => exact ih
  | fail _ hsp => exact absurd (hs.split _) hsp
  | dirty _ hd => exact absurd (hs.dirty _) hd
  | store => exact ⟨_, _, _, _, rfl, Int.le_refl _⟩

/-- With no call failing it returns zero or more. -/
theorem MapEnd.ret_of_succeeds (hs : Succeeds env) (h : MapEnd env t calls curr o) :
    ∃ st ret rep next, o = .ret (st, ret, rep, next) ∧ 0 ≤ ret := by
  cases h with
  | oops hf => exact absurd (hs.find _) hf
  | eof => exact ⟨_, _, _, _, rfl, by decide⟩
  | skip => exact ⟨_, _, _, _, rfl, Int.le_refl _⟩
  | inside _ _ _ _ h => exact Inside.ret_of_succeeds hs h

end call

/-! ### The loop -/

section loop
variable {blocksize fuel : ℕ} {env : Env}

/-- The rest of the loop, with the entry of this round in front. -/
def consOut (rep : EvfsExt) : Outcome (St × ℤ × List EvfsExt) → Outcome (St × ℤ × List EvfsExt)
  | .ret (st, ret, out) => .ret (st, ret, rep :: out)
  | .oops => .oops
  | .bug => .bug
  | .stuck => .stuck

/-- **One round of the loop**: it ends, a call goes wrong, or the loop goes on behind the entry. -/
theorem moveLoop_cases (blocksize : ℕ) (env : Env) (hfuel : 3 ≤ fuel) (room : ℕ) {st : St}
    {curr : EvfsExt} (hw : WellFormed st.tree) (h0 : curr.len ≠ 0) :
    ∃ o, MapEnd env st.tree st.calls curr o ∧
      ((o = .oops ∧ moveLoop blocksize env fuel (room + 1) st curr = .oops) ∨
      ∃ st1 err rep next, o = .ret (st1, err, rep, next) ∧
        ((err < 0 ∧ moveLoop blocksize env fuel (room + 1) st curr = .ret (st1, err, [])) ∨
        (0 ≤ err ∧ moveLoop blocksize env fuel (room + 1) st curr =
          consOut rep (moveLoop blocksize env fuel room st1 next)))) := by
  have hm : MapEnd env st.tree st.calls curr (evfsExtentMap blocksize env fuel curr st) :=
    map_end hw (Nat.pos_of_ne_zero h0) hfuel
  refine ⟨_, hm, ?_⟩
  rw [moveLoop, if_neg h0]
  obtain ⟨hb, hst⟩ := MapEnd.no_bug hm
  cases ho : evfsExtentMap blocksize env fuel curr st with
  | ret r =>
    obtain ⟨st1, err, rep, next⟩ := r
    refine .inr ⟨st1, err, rep, next, rfl, ?_⟩
    by_cases hneg : err < 0
    · exact .inl ⟨hneg, by simp only [if_pos hneg]⟩
    · refine .inr ⟨Int.not_lt.mp hneg, ?_⟩
      simp only [if_neg hneg]
      cases moveLoop blocksize env fuel room st1 next <;> rfl
  | oops => exact .inl ⟨rfl, rfl⟩
  | bug => exact absurd ho hb
  | stuck => exact absurd ho hst

theorem consOut_ret {rep : EvfsExt} {o : Outcome (St × ℤ × List EvfsExt)} {st : St} {ret : ℤ}
    {out : List EvfsExt} (h : consOut rep o = .ret (st, ret, out)) :
    ∃ out', o = .ret (st, ret, out') ∧ out = rep :: out' := by
  cases o with
  | ret r =>
    obtain ⟨st', ret', out'⟩ := r
    simp only [consOut, Outcome.ret.injEq, Prod.mk.injEq] at h
    obtain ⟨rfl, rfl, rfl⟩ := h
    exact ⟨out', rfl, rfl⟩
  | _ => simp [consOut] at h

/-- A loop that returns zero or more is a run. -/
theorem moveLoop_run (hfuel : 3 ≤ fuel) : ∀ (room : ℕ) {st st' : St} {curr : EvfsExt} {ret : ℤ}
    {out : List EvfsExt}, WellFormed st.tree →
    moveLoop blocksize env fuel room st curr = .ret (st', ret, out) → 0 ≤ ret →
    WellFormed st'.tree ∧ Run room (cells (exts st.tree)) curr (cells (exts st'.tree)) out
  | 0, st, st', curr, ret, out, hw, h, _ => by
    simp only [moveLoop, Outcome.ret.injEq, Prod.mk.injEq] at h
    obtain ⟨rfl, -, rfl⟩ := h
    exact ⟨hw, .full _ _⟩
  | room + 1, st, st', curr, ret, out, hw, h, hret => by
    by_cases h0 : curr.len = 0
    · rw [moveLoop, if_pos h0] at h
      simp only [Outcome.ret.injEq, Prod.mk.injEq] at h
      obtain ⟨rfl, -, rfl⟩ := h
      exact ⟨hw, .stop _ h0⟩
    · obtain ⟨o, hm, ⟨-, hl⟩ | ⟨st1, err, rep, next, rfl, ⟨hneg, hl⟩ | ⟨hpos, hl⟩⟩⟩ :=
        moveLoop_cases blocksize env hfuel room hw h0
      · rw [hl] at h
        cases h
      · rw [hl] at h
        simp only [Outcome.ret.injEq, Prod.mk.injEq] at h
        omega
      · rw [hl] at h
        obtain ⟨out', hrest, rfl⟩ := consOut_ret h
        obtain ⟨hw1, hturn⟩ := MapEnd.turn hw hm hpos
        obtain ⟨hw', hrun⟩ := moveLoop_run hfuel room hw1 hrest hret
        exact ⟨hw', .turn h0 hturn hrun⟩

/-- With no call failing the loop returns zero. -/
theorem moveLoop_ret (hfuel : 3 ≤ fuel) (hs : Succeeds env) : ∀ (room : ℕ) {st : St}
    {curr : EvfsExt}, WellFormed st.tree →
    ∃ st' out, moveLoop blocksize env fuel room st curr = .ret (st', 0, out)
  | 0, st, curr, _ => ⟨st, [], rfl⟩
  | room + 1, st, curr, hw => by
    by_cases h0 : curr.len = 0
    · exact ⟨st, [], by rw [moveLoop, if_pos h0]⟩
    · obtain ⟨o, hm, hcases⟩ := moveLoop_cases blocksize env hfuel room hw h0
      obtain ⟨st1, err, rep, next, rfl, hpos⟩ := MapEnd.ret_of_succeeds hs hm
      rcases hcases with ⟨hoops, -⟩ | ⟨st2, err2, rep2, next2, heq, hrest⟩
      · cases hoops
      · cases heq
        rcases hrest with ⟨hneg, -⟩ | ⟨-, hl⟩
        · omega
        · obtain ⟨st', out, hr⟩ := moveLoop_ret hfuel hs room (MapEnd.turn hw hm hpos).1
          exact ⟨st', rep :: out, by rw [hl, hr]; rfl⟩

end loop

/-! ### The move -/

section move
variable {blocksize fuel : ℕ} {env : Env} {ino ino' : Inode} {args : MvIn} {out : List EvfsExt}

/-- The calls before the loop succeed and the version is the expected one. -/
def Enters (env : Env) (ino : Inode) (args : MvIn) : Prop :=
  env.iget = none ∧ evfsIver ino = args.expIver ∧ env.journalStart = none

/-- **A move that returns** fails before its loop, or returns what the loop and the end of the
transaction do. -/
theorem move_cases {ret : ℤ}
    (h : evfsExtentMove blocksize env fuel ino args = .ret (ino', ret, out)) :
    (¬ Enters env ino args ∧ ino' = ino ∧ ret < 0 ∧ out = []) ∨
    (Enters env ino args ∧ ∃ st r,
      moveLoop blocksize env fuel args.ext.len ⟨ino.tree, 0⟩ args.ext = .ret (st, r, out) ∧
      ino' = { ino with tree := st.tree } ∧ ret = env.journalStop.elim r Errno.ret) := by
  unfold Enters
  unfold evfsExtentMove at h
  split at h
  · rename_i err hig
    cases h
    exact .inl ⟨by simp [hig], rfl, Errno.ret_neg _, rfl⟩
  rename_i hig
  split_ifs at h with hv
  · cases h
    exact .inl ⟨fun hE => hv hE.2.1, rfl, Errno.ret_neg _, rfl⟩
  split at h
  · rename_i err hjs
    cases h
    exact .inl ⟨by simp [hjs], rfl, Errno.ret_neg _, rfl⟩
  rename_i hjs
  split at h
  · rename_i st r out' hl
    cases h
    exact .inr ⟨⟨hig, not_not.mp hv, hjs⟩, st, r, hl, rfl, rfl⟩
  all_goals cases h

/-- **A move that returns zero** has walked a run over the cells of the file. -/
theorem move_run (hfuel : 3 ≤ fuel) (hw : WellFormed ino.tree)
    (h : evfsExtentMove blocksize env fuel ino args = .ret (ino', 0, out)) :
    WellFormed ino'.tree ∧
      Run args.ext.len (cells (exts ino.tree)) args.ext (cells (exts ino'.tree)) out := by
  rcases move_cases h with ⟨-, -, hneg, -⟩ | ⟨-, st, r, hl, rfl, hret⟩
  · omega
  · cases hstop : env.journalStop with
    | some err =>
      rw [hstop] at hret
      exact absurd hret (Errno.ret_neg err).ne'
    | none =>
      rw [hstop] at hret
      exact moveLoop_run hfuel _ hw hl hret.le

/-- **With no call failing** and the version as expected, the move returns zero. -/
theorem move_ret (hfuel : 3 ≤ fuel) (hs : Succeeds env) (hw : WellFormed ino.tree)
    (hv : args.expIver = evfsIver ino) :
    ∃ ino' out, evfsExtentMove blocksize env fuel ino args = .ret (ino', 0, out) := by
  obtain ⟨st, out, hl⟩ : ∃ st out, moveLoop blocksize env fuel args.ext.len ⟨ino.tree, 0⟩ args.ext =
      .ret (st, 0, out) := moveLoop_ret hfuel hs _ hw
  refine ⟨{ ino with tree := st.tree }, out, ?_⟩
  simp only [evfsExtentMove, hs.iget, hv, ne_eq, not_true_eq_false, if_false, hs.start, hl, hs.stop,
    Option.elim_none]

end move

end LinuxEvfs.ExtMove.Loop
