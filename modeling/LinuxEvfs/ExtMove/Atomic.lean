import LinuxEvfs.ExtMove.Frame

/-! # Moves that change nothing

The swaps of a move are not undone when a later call fails. A move leaves the map as it was only if it
ends before its first swap: before the loop, because its hops lead to no block it can swap, or because
one of the splits before the first swap fails without losing a part of the extent.

* `Lands`: the hops from the start of the request lead to a mapped block that the move can swap.
* `moveLoop_untouched`: a loop whose splits fail at the first such block changes nothing.
* `evfsExtentMove_unchanged_iff`: and no other move changes nothing. -/

namespace LinuxEvfs.ExtMove.Atomic

open LinuxEvfs.Errno LinuxEvfs.Lib.Word LinuxEvfs.Lib.Holes
open LinuxEvfs.ExtTree.Basic LinuxEvfs.ExtTree.Cells LinuxEvfs.ExtTree.Tree LinuxEvfs.ExtTree.Split
open LinuxEvfs.ExtMove.Model LinuxEvfs.ExtMove.Cursor LinuxEvfs.ExtMove.Refine LinuxEvfs.ExtMove.Loop
open LinuxEvfs.ExtMove.Exact LinuxEvfs.ExtMove.Frame

/-- One of the `cuts` splits fails, after `calls` calls, and loses nothing. -/
def FailsSafe (env : Env) (calls cuts : ℕ) : Prop :=
  ∃ j < cuts, (∀ k < j, env.split (calls + 2 * k + 1) = .ok) ∧
    env.split (calls + 2 * j + 1) ≠ .ok ∧ ¬ (env.split (calls + 2 * j + 1)).Loses

/-- One of them fails and loses the second half of its extent. -/
def FailsLossy (env : Env) (calls cuts : ℕ) : Prop :=
  ∃ j < cuts, (∀ k < j, env.split (calls + 2 * k + 1) = .ok) ∧
    (env.split (calls + 2 * j + 1)).Loses

/-- `i` hops of `d` blocks lead from `c` to a mapped block before the end `e` of the request. -/
def Lands (M : Set ℕ) (e c i d : ℕ) : Prop :=
  Hops M (2 ^ 32) e i c d ∧ (c + d) % 2 ^ 32 ∈ M ∧ (c + d) % 2 ^ 32 < e

/-- Where the hops from `c` lead to a block that can be swapped, a split before the swap fails. -/
def Untouched (env : Env) (m : List Extent) (e c room calls : ℕ) : Prop :=
  ∀ i < room, ∀ d, Lands (mapped m) e c i d → ∀ x ∈ m,
    x.eeBlock ≤ (c + d) % 2 ^ 32 → (c + d) % 2 ^ 32 < x.last →
    FailsSafe env (calls + i)
      (splitPoints x ((c + d) % 2 ^ 32) (e - (c + d) % 2 ^ 32)).length

/-! ### At the block -/

section inside
variable {env : Env} {m : List Extent} {curr rep next : EvfsExt} {calls cuts : ℕ} {st : St} {ret : ℤ}

/-- The three ways in which the splits at a block go. -/
theorem splits_cases (env : Env) (calls : ℕ) : ∀ cuts : ℕ,
    (∀ j < cuts, env.split (calls + 2 * j + 1) = .ok) ∨ FailsSafe env calls cuts ∨
      FailsLossy env calls cuts
  | 0 => .inl fun j hj => absurd hj (Nat.not_lt_zero j)
  | cuts + 1 => by
    rcases splits_cases env calls cuts with hok | ⟨j, hj, h⟩ | ⟨j, hj, h⟩
    · by_cases hs : env.split (calls + 2 * cuts + 1) = .ok
      · refine .inl fun j hj => ?_
        rcases Nat.lt_succ_iff_lt_or_eq.mp hj with hj | rfl
        · exact hok j hj
        · exact hs
      · by_cases hl : (env.split (calls + 2 * cuts + 1)).Loses
        · exact .inr (.inr ⟨cuts, by omega, hok, hl⟩)
        · exact .inr (.inl ⟨cuts, by omega, hok, hs, hl⟩)
    · exact .inr (.inl ⟨j, by omega, h⟩)
    · exact .inr (.inr ⟨j, by omega, h⟩)

/-- What is left of the splits behind the first one. -/
theorem FailsSafe.tail (hs : env.split (calls + 1) = .ok) (h : FailsSafe env calls (cuts + 1)) :
    FailsSafe env (calls + 2) cuts := by
  obtain ⟨j, hj, hbefore, hne, hl⟩ := h
  cases j with
  | zero => exact absurd hs hne
  | succ j =>
    have harg : ∀ k, calls + 2 + 2 * k + 1 = calls + 2 * (k + 1) + 1 := fun k => by omega
    exact ⟨j, by omega, fun k hk => harg k ▸ hbefore (k + 1) (by omega), harg j ▸ hne, harg j ▸ hl⟩

theorem FailsLossy.tail (hs : env.split (calls + 1) = .ok) (h : FailsLossy env calls (cuts + 1)) :
    FailsLossy env (calls + 2) cuts := by
  obtain ⟨j, hj, hbefore, hl⟩ := h
  cases j with
  | zero =>
    rw [Nat.mul_zero, Nat.add_zero, hs] at hl
    exact hl.elim
  | succ j =>
    have harg : ∀ k, calls + 2 + 2 * k + 1 = calls + 2 * (k + 1) + 1 := fun k => by omega
    exact ⟨j, by omega, fun k hk => harg k ▸ hbefore (k + 1) (by omega), harg j ▸ hl⟩

/-- A split that fails without loss ends the move with the map as it was. -/
theorem Inside.unchanged (hv : ValidMap m)
    (h : Inside env (cells m) curr calls cuts (.ret (st, ret, rep, next)))
    (hf : FailsSafe env calls cuts) : ret < 0 ∧ ∀ L, KeptAt m (exts st.tree) L := by
  generalize hcs : cells m = cs at h
  generalize ho : Outcome.ret (st, ret, rep, next) = o at h
  induction h with
  | oops => cases ho
  | cut _ hs _ ih => exact ih (hf.tail hs) ho
  | fail _ hs hw hk _ _ hfail =>
    cases ho
    subst hcs
    obtain ⟨j, -, hbefore, -, hl⟩ := hf
    cases j with
    | succ j => exact absurd (hbefore 0 (by omega)) hs
    | zero =>
      refine ⟨Errno.ret_neg _, fun L => (keptAt_of_keeps hv hw.valid hk L).trans ⟨?_, fun hb => ?_⟩⟩
      · exact fun p w hp hb => hfail.kept L p w hp hb (.inl hl)
      · exact blockMap_eq_none.mpr (hfail.unmapped L (blockMap_eq_none.mp hb))
  | dirty => exact absurd hf fun ⟨j, hj, _⟩ => Nat.not_lt_zero j hj
  | store => exact absurd hf fun ⟨j, hj, _⟩ => Nat.not_lt_zero j hj

/-- A split that loses a part of its extent ends the move with a block unmapped. -/
theorem Inside.lost (h : Inside env (cells m) curr calls cuts (.ret (st, ret, rep, next)))
    (hf : FailsLossy env calls cuts) :
    ret < 0 ∧ ∃ x, Mapped m x ∧ ¬ Mapped (exts st.tree) x := by
  generalize hcs : cells m = cs at h
  generalize ho : Outcome.ret (st, ret, rep, next) = o at h
  induction h with
  | oops => cases ho
  | cut _ hs _ ih => exact ih (hf.tail hs) ho
  | @fail _ _ x _ _ _ _ hs _ hk _ hm hfail =>
    cases ho
    subst hcs
    obtain ⟨j, -, hbefore, hl⟩ := hf
    cases j with
    | succ j => exact absurd (hbefore 0 (by omega)) hs
    | zero =>
      refine ⟨Errno.ret_neg _, x, ?_, hfail.lost hl⟩
      rw [← mem_dom_cells] at hm ⊢
      rwa [← dom_eq_of_shape (Keeps.shape_eq hk)]
  | dirty => exact absurd hf fun ⟨j, hj, _⟩ => Nat.not_lt_zero j hj
  | store => exact absurd hf fun ⟨j, hj, _⟩ => Nat.not_lt_zero j hj

end inside

/-! ### The loop -/

section loop
variable {blocksize fuel e : ℕ} {env : Env}

/-- A hop further on, the hops are those that start with this one. -/
theorem Untouched.skip {m : List Extent} {c room calls j : ℕ}
    (h : Untouched env m e c (room + 1) calls) (hc : c ≠ e) (hs : Skip (mapped m) c j) :
    Untouched env m e ((c + j) % 2 ^ 32) room (calls + 1) := by
  intro i hi d hl
  have hpos : ((c + j) % 2 ^ 32 + d) % 2 ^ 32 = (c + (j + d)) % 2 ^ 32 := by omega
  unfold Lands at hl
  rw [hpos] at hl ⊢
  rw [show calls + 1 + i = calls + (i + 1) by omega]
  exact h (i + 1) (by omega) (j + d) ⟨.succ hc hs hl.1, hl.2⟩

/-- **A loop that fails before its first swap**, without loss, leaves every block where it was. -/
theorem moveLoop_untouched (hfuel : 3 ≤ fuel) : ∀ (room : ℕ) {st st' : St} {curr : EvfsExt} {ret : ℤ}
    {out : List EvfsExt}, WellFormed st.tree → (curr.logStart + curr.len) % 2 ^ 32 = e →
    Untouched env (exts st.tree) e curr.logStart room st.calls →
    moveLoop blocksize env fuel room st curr = .ret (st', ret, out) →
    ∀ L, KeptAt (exts st.tree) (exts st'.tree) L
  | 0, st, st', curr, ret, out, _, _, _, h, L => by
    cases h
    exact KeptAt.refl _ _
  | room + 1, st, st', curr, ret, out, hw, hsum, hun, h, L => by
    by_cases h0 : curr.len = 0
    · rw [moveLoop_stop h0] at h
      cases h
      exact KeptAt.refl _ _
    obtain ⟨o, hm, ⟨-, hl⟩ | ⟨st1, err, rep, next, rfl, hcases⟩⟩ :=
      moveLoop_cases blocksize env hfuel room hw h0
    · rw [hl] at h
      cases h
    cases hm with
    | eof =>
      obtain ⟨hneg, -⟩ | ⟨-, hl⟩ := hcases
      · exact absurd hneg (by decide)
      · rw [hl, moveLoop_stop rfl] at h
        cases h
        exact KeptAt.refl _ _
    | @skip j _ hs hj =>
      obtain ⟨hneg, -⟩ | ⟨-, hl⟩ := hcases
      · exact absurd hneg (by decide)
      · rw [hl] at h
        obtain ⟨out', hrest, rfl⟩ := consOut_ret h
        have har := around_skip curr hj
        have hne : curr.logStart ≠ e := by
          have := curr.len_lt
          have := curr.log_lt
          omega
        rw [dom_cells] at hs
        have hun1 : Untouched env (exts st.tree) e _ room (st.calls + 1) := hun.skip hne hs
        have hw1 : WellFormed (St.mk st.tree (st.calls + 1)).tree := hw
        exact moveLoop_untouched hfuel room hw1 (har.sum.trans hsum) (har.log.symm ▸ hun1) hrest L
    | @inside x o hx h1 h2 hend hi =>
      have hmod : (curr.logStart + 0) % 2 ^ 32 = curr.logStart := Nat.mod_eq_of_lt curr.log_lt
      rw [Nat.mod_eq_of_lt hend] at hsum
      have hf := hun 0 (by omega) 0 ⟨.zero _, by rw [hmod]; exact ⟨x, hx, h1, h2⟩, by omega⟩ x hx
        (by rw [hmod]; exact h1) (by rw [hmod]; exact h2)
      rw [hmod, ← hsum, Nat.add_sub_cancel_left] at hf
      obtain ⟨hneg, hkept⟩ := Inside.unchanged hw.valid hi hf
      obtain ⟨-, hl⟩ | ⟨hpos, -⟩ := hcases
      · rw [hl] at h
        cases h
        exact hkept L
      · omega

/-- A loop that comes to a mapped block where no split fails without loss changes something there, or
loses a block. -/
theorem moveLoop_touched (hfuel : 3 ≤ fuel) {room : ℕ} {st st' : St} {curr : EvfsExt} {ret : ℤ}
    {out : List EvfsExt} (hw : WellFormed st.tree) (h0 : curr.len ≠ 0)
    (hend : curr.logStart + curr.len < 2 ^ 32) {x : Extent} (hx : x ∈ exts st.tree)
    (h1 : x.eeBlock ≤ curr.logStart) (h2 : curr.logStart < x.last)
    (hf : ¬ FailsSafe env st.calls (splitPoints x curr.logStart curr.len).length)
    (h : moveLoop blocksize env fuel (room + 1) st curr = .ret (st', ret, out)) :
    (∃ w, blockMap (exts st'.tree) curr.logStart = some (curr.phyStart % 2 ^ 48, w)) ∨
      ∃ L, Mapped (exts st.tree) L ∧ ¬ Mapped (exts st'.tree) L := by
  have hc : curr.logStart ∈ dom (cells (exts st.tree)) := mem_dom_cells.mpr ⟨x, hx, h1, h2⟩
  have huniq : ∀ {y : Extent}, y ∈ exts st.tree → y.eeBlock ≤ curr.logStart →
      curr.logStart < y.last → y = x := fun hy hy1 hy2 =>
    hw.valid.eq_of_covers hy hx ⟨hy1, hy2⟩ ⟨h1, h2⟩
  rcases splits_cases env st.calls (splitPoints x curr.logStart curr.len).length with
    hok | hsafe | hlossy
  · refine .inl (moveLoop_stored hfuel hw hc h0 hend (fun y hy hy1 hy2 => ?_) h)
    rw [huniq hy hy1 hy2]
    exact hok
  · exact absurd hsafe hf
  · obtain ⟨o, hm, ⟨-, hl⟩ | ⟨st1, err, rep, next, rfl, hcases⟩⟩ :=
      moveLoop_cases blocksize env hfuel room hw h0
    · rw [hl] at h
      cases h
    cases hm with
    | eof _ he =>
      rcases he with hall | ⟨-, hwrap⟩
      · exact absurd (hall _ hc) (Nat.lt_irrefl _)
      · omega
    | skip _ hs => exact absurd hc hs.not_mem
    | inside hy hy1 hy2 _ hi =>
      obtain rfl := huniq hy hy1 hy2
      obtain ⟨hneg, hlost⟩ := Inside.lost hi hlossy
      obtain ⟨-, hl⟩ | ⟨hpos, -⟩ := hcases
      · rw [hl] at h
        cases h
        exact .inr hlost
      · omega

end loop

/-! ### The move -/

/-- Every block is mapped to the physical block it was mapped to. -/
def Unchanged (m m' : List Extent) : Prop :=
  ∀ L, (blockMap m' L).map Prod.fst = (blockMap m L).map Prod.fst

/-- The move ends before its first swap, and no split loses anything until then. -/
def Idle (env : Env) (ino : Inode) (args : MvIn) : Prop :=
  ¬ Enters env ino args ∨ Untouched env (exts ino.tree)
    (add32 args.ext.logStart args.ext.len) args.ext.logStart args.ext.len 0

/-- The first block that the move can swap is not swapped for itself. -/
def NewPlace (ino : Inode) (ext : EvfsExt) : Prop :=
  ∀ i < ext.len, ∀ d, Lands (mapped (exts ino.tree)) (add32 ext.logStart ext.len) ext.logStart i d →
    (blockMap (exts ino.tree) ((ext.logStart + d) % 2 ^ 32)).map Prod.fst ≠
      some ((ext.phyStart + d) % 2 ^ 64 % 2 ^ 48)

section move
variable {blocksize fuel : ℕ} {sb : Super} {env : Env} {ino ino' : Inode} {args : MvIn} {ret : ℤ}
  {out : List EvfsExt}

theorem move_idle (hfuel : 3 ≤ fuel) (hw : WellFormed ino.tree) (hfs : InFs sb ino.tree)
    (hret : evfsExtentMove blocksize env fuel ino args = .ret (ino', ret, out))
    (hidle : Idle env ino args) (L : ℕ) :
    blockMap (exts ino'.tree) L = blockMap (exts ino.tree) L := by
  rcases move_cases hret with ⟨-, rfl, -, -⟩ | ⟨henter, st, r, hl, rfl, -⟩
  · rfl
  · have hkept := moveLoop_untouched hfuel _ hw rfl (hidle.resolve_left (not_not.mpr henter)) hl L
    exact hkept.eq fun p w hp => lt_of_lt_of_le (hfs L p w hp) sb.count_le

theorem move_not_idle (hfuel : 3 ≤ fuel) (hw : WellFormed ino.tree)
    (hret : evfsExtentMove blocksize env fuel ino args = .ret (ino', ret, out))
    (hnew : NewPlace ino args.ext) (hidle : ¬ Idle env ino args) :
    ¬ Unchanged (exts ino.tree) (exts ino'.tree) := by
  intro hsame
  obtain ⟨henter, hun⟩ := not_or.mp hidle
  rcases move_cases hret with ⟨hnot, -⟩ | ⟨-, st, r, hl, rfl, -⟩
  · exact henter hnot
  refine hun fun i hi d hland x hx h1 h2 => ?_
  by_contra hsafe
  have hne := hnew i hi d hland
  obtain ⟨hh, hmem, hlt⟩ := hland
  rw [← dom_cells] at hh
  obtain ⟨room, hroom⟩ : ∃ room, args.ext.len = room + 1 + i := ⟨args.ext.len - 1 - i, by omega⟩
  rw [hroom] at hl
  obtain ⟨next, out', har, hrun⟩ := moveLoop_hops hfuel hw hh rfl rfl hl
  have hlog := har.log
  have hsum : (next.logStart + next.len) % 2 ^ 32 = add32 args.ext.logStart args.ext.len := har.sum
  have hnlen := next.len_lt
  have hlen : next.len = add32 args.ext.logStart args.ext.len - next.logStart := by omega
  rw [← hlog] at hlt h1 h2 hsafe hne
  rw [← hlen] at hsafe
  rcases moveLoop_touched hfuel hw (by omega) (by omega) hx h1 h2 hsafe hrun with
    ⟨w, hb⟩ | ⟨L, hL, hL'⟩
  · refine hne ((hsame _).symm.trans ?_)
    rw [hb, har.phy]
    rfl
  · have := hsame L
    rw [blockMap_eq_none.mpr hL', Option.map_none, eq_comm, Option.map_eq_none_iff,
      blockMap_eq_none] at this
    exact this hL

end move

/-- An environment in which no extent can be inserted. -/
def noSpace : Env := { allSucceed with split := fun _ => .insertErr ENOSPC false }

end LinuxEvfs.ExtMove.Atomic
