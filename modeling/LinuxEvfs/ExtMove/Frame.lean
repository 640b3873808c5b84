import LinuxEvfs.ExtMove.Exact

/-! # What a move leaves alone

The cursor of a move counts in 32 bits. As long as it does not come back to a mapped block before the
start of the request, no block outside the request changes, whichever call fails (`moveLoop_keptAt`),
with one exception: a split that loses the second half of its extent.

* `ComesBack`: hops over holes lead from the cursor to a mapped block before `s`.
* `Run.hops`: a run follows the hops from its cursor.
* `evfsExtentMove_frame_iff`: every move of a range leaves the blocks outside it alone if and only if
  the hops from its start do not come back. -/

namespace LinuxEvfs.ExtMove.Frame

open LinuxEvfs.Errno LinuxEvfs.Lib.Word LinuxEvfs.Lib.Holes
open LinuxEvfs.ExtTree.Basic LinuxEvfs.ExtTree.Cells LinuxEvfs.ExtTree.Tree LinuxEvfs.ExtTree.Split
open LinuxEvfs.ExtMove.Model LinuxEvfs.ExtMove.Cursor LinuxEvfs.ExtMove.Refine LinuxEvfs.ExtMove.Loop
open LinuxEvfs.ExtMove.Exact

/-! ### One block -/

/-- The block `L` is read as before; what is not a physical block of 48 bits is not looked at. -/
def KeptAt (m m' : List Extent) (L : ℕ) : Prop :=
  (∀ p w, p < 2 ^ 48 → blockMap m L = some (p, w) → blockMap m' L = some (p, w)) ∧
    (blockMap m L = none → blockMap m' L = none)

section kept
variable {m m' m'' : List Extent} {L : ℕ}

theorem KeptAt.refl (m : List Extent) (L : ℕ) : KeptAt m m L := ⟨fun _ _ _ h => h, fun h => h⟩

theorem KeptAt.trans (h1 : KeptAt m m' L) (h2 : KeptAt m' m'' L) : KeptAt m m'' L :=
  ⟨fun p w hp h => h2.1 p w hp (h1.1 p w hp h), fun h => h2.2 (h1.2 h)⟩

theorem KeptAt.eq (h : KeptAt m m' L) (h48 : ∀ p w, blockMap m L = some (p, w) → p < 2 ^ 48) :
    blockMap m' L = blockMap m L := by
  cases hm : blockMap m L with
  | none => exact h.2 hm
  | some v => exact h.1 v.1 v.2 (h48 v.1 v.2 hm) hm

theorem keptAt_of_keeps (hv : ValidMap m) (hv' : ValidMap m') (hk : Keeps (cells m) (cells m')) (L : ℕ) :
    KeptAt m m' L := by
  refine ⟨fun p w hp h => ?_, fun h => ?_⟩
  · exact (blockMap_eq_some hv').mpr (hk.mem hp ((blockMap_eq_some hv).mp h))
  · rw [blockMap_eq_none, ← mem_dom_cells] at h ⊢
    rwa [dom_eq_of_shape (Keeps.shape_eq hk)]

/-- Blocks outside the piece that is swapped. -/
theorem keptAt_of_swapped (hv : ValidMap m) (hv' : ValidMap m') {curr : EvfsExt} {k q : ℕ}
    (hs : Swapped (cells m) curr k q (cells m'))
    (hL : ¬ (curr.logStart ≤ L ∧ L < curr.logStart + curr.len)) : KeptAt m m' L := by
  have hshape := Swapped.shape_eq hs
  obtain ⟨-, hle, -, mid, hk, -, heq⟩ := hs
  refine ⟨fun p w hp h => (blockMap_eq_some hv').mpr ?_, fun h => ?_⟩
  · rw [heq]
    have hmem := hk.mem hp ((blockMap_eq_some hv).mp h)
    exact List.mem_map.mpr ⟨_, hmem, remap_outside (by omega)⟩
  · rw [blockMap_eq_none, ← mem_dom_cells] at h ⊢
    rwa [dom_eq_of_shape hshape]

end kept

/-! ### One call -/

section call
variable {env : Env} {m : List Extent} {curr rep next : EvfsExt} {t : ExtRoot} {calls cuts s e L : ℕ}
  {st : St} {ret : ℤ}

/-- The blocks before the request stay; those behind it too, unless a split loses them. -/
def Spared (env : Env) (s e L : ℕ) : Prop := L < s ∨ (e ≤ L ∧ ∀ n, ¬ (env.split n).Loses)

theorem Inside.keptAt (hv : ValidMap m)
    (h : Inside env (cells m) curr calls cuts (.ret (st, ret, rep, next)))
    (hL : Spared env curr.logStart (curr.logStart + curr.len) L) : KeptAt m (exts st.tree) L := by
  generalize hcs : cells m = cs at h
  generalize ho : Outcome.ret (st, ret, rep, next) = o at h
  induction h with
  | oops => cases ho
  | cut _ _ _ ih => exact ih ho
  | fail _ _ hw hk hx _ hfail =>
    cases ho
    subst hcs
    refine (keptAt_of_keeps hv hw.valid hk L).trans ⟨fun p w hp hb => ?_, fun hb => ?_⟩
    · refine hfail.kept L p w hp hb (hL.symm.imp (fun h => h.2 _) fun h => ?_)
      omega
    · exact blockMap_eq_none.mpr (hfail.unmapped L (blockMap_eq_none.mp hb))
  | dirty _ _ hw hs =>
    cases ho
    subst hcs
    exact keptAt_of_swapped hv hw.valid hs (by rcases hL with h | h <;> omega)
  | store _ _ _ hw hs =>
    cases ho
    subst hcs
    exact keptAt_of_swapped hv hw.valid hs (by rcases hL with h | h <;> omega)

theorem Spared.mono {s' : ℕ} (h : Spared env s e L) (hs : s ≤ s') : Spared env s' e L :=
  h.imp_left fun h => h.trans_le hs

/-- **One call** leaves alone what is outside the request, if it does not swap before its start. -/
theorem MapEnd.keptAt (hw : WellFormed t)
    (h : MapEnd env t calls curr (.ret (st, ret, rep, next)))
    (hs : curr.logStart ∈ dom (cells (exts t)) → s ≤ curr.logStart)
    (hsum : (curr.logStart + curr.len) % 2 ^ 32 = e) (hL : Spared env s e L) :
    KeptAt (exts t) (exts st.tree) L := by
  cases h with
  | eof => exact KeptAt.refl _ _
  | skip => exact KeptAt.refl _ _
  | inside he h1 h2 hend h =>
    rw [Nat.mod_eq_of_lt hend] at hsum
    have hle := hs (mem_dom_cells.mpr ⟨_, he, h1, h2⟩)
    exact Inside.keptAt hw.valid h (hsum ▸ hL.mono hle)

end call

/-! ### The loop -/

/-- With `room` turns left, hops lead from `c` to a mapped block before `s`. -/
def ComesBack (M : Set ℕ) (e room s c : ℕ) : Prop :=
  ∃ i < room, ∃ d, Hops M (2 ^ 32) e i c d ∧ (c + d) % 2 ^ 32 ∈ M ∧ (c + d) % 2 ^ 32 < s

section turn
variable {cs cs' : List Cell} {cur rep next : EvfsExt} {room s e : ℕ}

theorem not_comesBack_of_exact {M : Set ℕ} {c : ℕ} (h : Exact M c) (hM : ∀ x ∈ M, x < 2 ^ 32)
    (hc : c < 2 ^ 32) (hs : s ≤ c) : ¬ ComesBack M e room s c := by
  rintro ⟨i, -, d, hh, -, hlt⟩
  have := h.hops_le hM hc hh
  omega

/-- A cursor on a mapped block that does not come back is not before the start. -/
theorem start_le_of_mem (h : ¬ ComesBack (dom cs) e (room + 1) s cur.logStart)
    (hc : cur.logStart ∈ dom cs) : s ≤ cur.logStart := by
  by_contra hlt
  have hmod : (cur.logStart + 0) % 2 ^ 32 = cur.logStart := Nat.mod_eq_of_lt cur.log_lt
  exact h ⟨0, by omega, 0, .zero _, by rw [hmod]; exact hc, by omega⟩

/-- The end of the request, in 32 bits, stays where it is. -/
theorem Turn.sum_eq (ht : Turn cs cur cs' rep next) (h0 : next.len ≠ 0) :
    (next.logStart + next.len) % 2 ^ 32 = (cur.logStart + cur.len) % 2 ^ 32 := by
  cases ht with
  | eof => exact absurd rfl h0
  | @skip j hs hj =>
    rw [of_log (add32_lt _ _), of_len (sub32_lt _ _)]
    exact add32_step _ _ _ hj.le
  | @swap mid k q hk hle hend =>
    split_ifs at h0 ⊢ with hlt
    · rw [of_log (by omega), of_len (by omega)]
      congr 1
      omega
    · exact absurd rfl h0

/-- Behind a swap the cursor is at an exact position. -/
theorem Turn.next_exact (ht : Turn cs cur cs' rep next) (hc : cur.logStart ∈ dom cs)
    (h0 : next.len ≠ 0) : Exact (dom cs) next.logStart ∧ cur.logStart < next.logStart := by
  cases ht with
  | eof => exact absurd rfl h0
  | skip hs => exact absurd hc hs.not_mem
  | @swap mid k q hk hle hend hmid hq hold =>
    split_ifs at h0 ⊢
    · rw [of_log (by omega)]
      exact ⟨exact_of_swap hmid hk hold, by omega⟩
    · exact absurd rfl h0

/-- What does not come back from here does not come back from the next cursor. -/
theorem Turn.not_comesBack (ht : Turn cs cur cs' rep next) (hlen : cur.len ≠ 0)
    (h0 : next.len ≠ 0) (hM : Log32 cs) (hsum : (cur.logStart + cur.len) % 2 ^ 32 = e)
    (h : ¬ ComesBack (dom cs) e (room + 1) s cur.logStart) :
    ¬ ComesBack (dom cs) e room s next.logStart := by
  by_cases hc : cur.logStart ∈ dom cs
  · obtain ⟨hx, hlt⟩ := Turn.next_exact ht hc h0
    have hle := start_le_of_mem h hc
    exact not_comesBack_of_exact hx hM next.log_lt (by omega)
  cases ht with
  | eof => exact absurd rfl h0
  | @skip j hs hj =>
    rw [of_log (add32_lt _ _)]
    rintro ⟨i, hi, d, hh, hmem⟩
    have hpos : (add32 cur.logStart j + d) % 2 ^ 32 = (cur.logStart + (j + d)) % 2 ^ 32 := by
      unfold add32
      omega
    rw [hpos] at hmem
    have hne : cur.logStart ≠ e := by
      have := cur.len_lt
      have := cur.log_lt
      omega
    exact h ⟨i + 1, by omega, j + d, .succ hne hs hh, hmem⟩
  | swap hk _ _ hmid _ hold =>
    obtain ⟨w, hmem⟩ := hold 0 hk
    rw [← dom_eq_of_shape (Keeps.shape_eq hmid)] at hc
    exact absurd ⟨_, hmem, rfl⟩ hc

end turn

section loop
variable {blocksize fuel s e L : ℕ} {env : Env}

theorem moveLoop_stop {room : ℕ} {st : St} {curr : EvfsExt} (h : curr.len = 0) :
    moveLoop blocksize env fuel room st curr = .ret (st, 0, []) := by
  cases room with
  | zero => rfl
  | succ room => rw [moveLoop, if_pos h]

/-- **The loop leaves alone what is outside the request**, whatever fails, if the cursor does not come
back before the start. -/
theorem moveLoop_keptAt (hfuel : 3 ≤ fuel) (hL : Spared env s e L) : ∀ (room : ℕ) {st st' : St}
    {curr : EvfsExt} {ret : ℤ} {out : List EvfsExt}, WellFormed st.tree →
    (curr.logStart + curr.len) % 2 ^ 32 = e →
    ¬ ComesBack (dom (cells (exts st.tree))) e room s curr.logStart →
    moveLoop blocksize env fuel room st curr = .ret (st', ret, out) →
    KeptAt (exts st.tree) (exts st'.tree) L
  | 0, st, st', curr, ret, out, _, _, _, h => by
    cases h
    exact KeptAt.refl _ _
  | room + 1, st, st', curr, ret, out, hw, hsum, hback, h => by
    by_cases h0 : curr.len = 0
    · rw [moveLoop_stop h0] at h
      cases h
      exact KeptAt.refl _ _
    have hin := start_le_of_mem hback
    obtain ⟨o, hm, ⟨-, hl⟩ | ⟨st1, err, rep, next, rfl, ⟨-, hl⟩ | ⟨hpos, hl⟩⟩⟩ :=
      moveLoop_cases blocksize env hfuel room hw h0
    · rw [hl] at h
      cases h
    · rw [hl] at h
      cases h
      exact MapEnd.keptAt hw hm hin hsum hL
    · rw [hl] at h
      obtain ⟨out', hrest, rfl⟩ := consOut_ret h
      obtain ⟨hw1, hturn⟩ := MapEnd.turn hw hm hpos
      refine (MapEnd.keptAt hw hm hin hsum hL).trans ?_
      by_cases hn : next.len = 0
      · rw [moveLoop_stop hn] at hrest
        cases hrest
        exact KeptAt.refl _ _
      · refine moveLoop_keptAt hfuel hL room hw1 ((Turn.sum_eq hturn hn).trans hsum) ?_ hrest
        rw [hturn.dom_eq]
        exact Turn.not_comesBack hturn h0 hn (WellFormed.log32 hw) hsum hback

/-! ### Following the hops -/

/-- The cursor is `d` blocks further on the circle of 32 bits, with the same end of the request. -/
structure Around (cur next : EvfsExt) (d : ℕ) : Prop where
  log : next.logStart = (cur.logStart + d) % 2 ^ 32
  phy : next.phyStart = (cur.phyStart + d) % 2 ^ 64
  sum : (next.logStart + next.len) % 2 ^ 32 = (cur.logStart + cur.len) % 2 ^ 32

theorem Around.refl (cur : EvfsExt) : Around cur cur 0 :=
  ⟨(Nat.mod_eq_of_lt cur.log_lt).symm, (Nat.mod_eq_of_lt cur.phy_lt).symm, rfl⟩

theorem Around.trans {cur next last : EvfsExt} {j d : ℕ} (h1 : Around cur next j)
    (h2 : Around next last d) : Around cur last (j + d) := by
  refine ⟨?_, ?_, h2.sum.trans h1.sum⟩
  · rw [h2.log, h1.log]
    omega
  · rw [h2.phy, h1.phy]
    omega

theorem around_skip (cur : EvfsExt) {j : ℕ} (hj : j < 2 ^ 32) :
    Around cur (EvfsExt.of (add32 cur.logStart j) (add64 cur.phyStart j) (sub32 cur.len j)) j := by
  refine ⟨of_log (add32_lt _ _), of_phy (add64_lt _ _), ?_⟩
  rw [of_log (add32_lt _ _), of_len (sub32_lt _ _)]
  exact add32_step _ _ _ hj.le

/-- **A loop that returns has followed the hops** from its cursor, one call each. -/
theorem moveLoop_hops (hfuel : 3 ≤ fuel) {i c d : ℕ} {t : ExtRoot} {st' : St} {ret : ℤ}
    (hw : WellFormed t) (hh : Hops (dom (cells (exts t))) (2 ^ 32) e i c d) :
    ∀ {room calls : ℕ} {curr : EvfsExt} {out : List EvfsExt}, curr.logStart = c →
    (curr.logStart + curr.len) % 2 ^ 32 = e →
    moveLoop blocksize env fuel (room + i) ⟨t, calls⟩ curr = .ret (st', ret, out) →
    ∃ next out', Around curr next d ∧
      moveLoop blocksize env fuel room ⟨t, calls + i⟩ next = .ret (st', ret, out') := by
  induction hh with
  | zero => exact fun {_ _ curr out} _ _ h => ⟨curr, out, Around.refl _, h⟩
  | @succ i c j d hc hs hh ih =>
    rintro room calls curr out rfl hsum h
    have h0 : curr.len ≠ 0 := fun h0 => by
      rw [h0, Nat.add_zero, Nat.mod_eq_of_lt curr.log_lt] at hsum
      exact hc hsum
    obtain ⟨N, hN, -, -⟩ := hs.next_le
    have hw' : WellFormed (St.mk t calls).tree := hw
    obtain ⟨o, hm, ⟨-, hl⟩ | ⟨st1, err, rep, next, rfl, hcases⟩⟩ :=
      moveLoop_cases blocksize env hfuel (room + i) hw' h0
    · rw [← Nat.add_assoc, hl] at h
      cases h
    cases hm with
    | eof _ he =>
      rcases he with hall | ⟨hmem, -⟩
      · have := hall N hN.mem
        have := hN.lt
        omega
      · exact absurd hmem hs.not_mem
    | @skip j' _ hs' hj =>
      obtain rfl := skip_unique hs hs'
      obtain ⟨hneg, -⟩ | ⟨-, hl⟩ := hcases
      · exact absurd hneg (by decide)
      · rw [← Nat.add_assoc, hl] at h
        obtain ⟨out', hrest, rfl⟩ := consOut_ret h
        have har := around_skip curr hj
        obtain ⟨last, out'', har', hrun⟩ := ih har.log (har.sum.trans hsum) hrest
        refine ⟨last, out'', har.trans har', ?_⟩
        rw [show calls + (i + 1) = calls + 1 + i by omega]
        exact hrun
    | inside he h1 h2 => exact absurd (mem_dom_cells.mpr ⟨_, he, h1, h2⟩) hs.not_mem

/-- With its splits made, a call at a mapped block swaps. -/
theorem Inside.swapped {cs : List Cell} {curr rep next : EvfsExt} {calls cuts : ℕ} {st : St} {ret : ℤ}
    (h : Inside env cs curr calls cuts (.ret (st, ret, rep, next)))
    (hok : ∀ j < cuts, env.split (calls + 2 * j + 1) = .ok) :
    WellFormed st.tree ∧ ∃ k q, Swapped cs curr k q (cells (exts st.tree)) := by
  generalize ho : Outcome.ret (st, ret, rep, next) = o at h
  induction h with
  | oops => cases ho
  | @cut calls cuts o hf hs h ih =>
    refine ih (fun j hj => ?_) ho
    rw [show calls + 2 + 2 * j + 1 = calls + 2 * (j + 1) + 1 by omega]
    exact hok (j + 1) (by omega)
  | @fail calls cuts _ _ _ _ _ hs => exact absurd (hok 0 (by omega)) hs
  | dirty _ _ hw hs =>
    cases ho
    exact ⟨hw, _, _, hs⟩
  | store _ _ _ hw hs =>
    cases ho
    exact ⟨hw, _, _, hs⟩

theorem Swapped.blockMap_eq {m : List Extent} {cs : List Cell} (hv : ValidMap m) {curr : EvfsExt}
    {k q : ℕ} (h : Swapped cs curr k q (cells m)) :
    ∃ w, blockMap m curr.logStart = some (curr.phyStart % 2 ^ 48, w) := by
  obtain ⟨hk, -, -, mid, -, hold, heq⟩ := h
  obtain ⟨w, hmem⟩ := hold 0 hk
  refine ⟨w, (blockMap_eq_some hv).mpr ?_⟩
  rw [heq]
  exact List.mem_map.mpr ⟨_, hmem, by rw [remap_inside (by omega), Nat.add_zero, Nat.sub_self]; rfl⟩

/-- The splits at the cursor, which is on a mapped block, are all made. -/
def SplitsMade (env : Env) (m : List Extent) (curr : EvfsExt) (calls : ℕ) : Prop :=
  ∀ e ∈ m, e.eeBlock ≤ curr.logStart → curr.logStart < e.last →
    ∀ j < (splitPoints e curr.logStart curr.len).length, env.split (calls + 2 * j + 1) = .ok

/-- **A loop that comes to a mapped block** inside its request moves the block to its new place, where
it stays. -/
theorem moveLoop_stored (hfuel : 3 ≤ fuel) {room : ℕ} {st st' : St} {curr : EvfsExt} {ret : ℤ}
    {out : List EvfsExt} (hw : WellFormed st.tree) (hc : curr.logStart ∈ dom (cells (exts st.tree)))
    (h0 : curr.len ≠ 0) (hend : curr.logStart + curr.len < 2 ^ 32)
    (hok : SplitsMade env (exts st.tree) curr st.calls)
    (h : moveLoop blocksize env fuel (room + 1) st curr = .ret (st', ret, out)) :
    ∃ w, blockMap (exts st'.tree) curr.logStart = some (curr.phyStart % 2 ^ 48, w) := by
  obtain ⟨o, hm, ⟨-, hl⟩ | ⟨st1, err, rep, next, rfl, hcases⟩⟩ :=
    moveLoop_cases blocksize env hfuel room hw h0
  · rw [hl] at h
    cases h
  have hsw : WellFormed st1.tree ∧ ∃ k q, Swapped (cells (exts st.tree)) curr k q
      (cells (exts st1.tree)) := by
    cases hm with
    | eof _ he =>
      rcases he with hall | ⟨-, hwrap⟩
      · exact absurd (hall _ hc) (Nat.lt_irrefl _)
      · omega
    | skip _ hs => exact absurd hc hs.not_mem
    | inside he h1 h2 _ h => exact Inside.swapped h (hok _ he h1 h2)
  obtain ⟨hw1, k, q, hs⟩ := hsw
  obtain ⟨w, hb⟩ := Swapped.blockMap_eq hw1.valid hs
  refine ⟨w, ?_⟩
  obtain ⟨-, hl⟩ | ⟨hpos, hl⟩ := hcases
  · rw [hl] at h
    cases h
    exact hb
  rw [hl] at h
  obtain ⟨out', hrest, rfl⟩ := consOut_ret h
  by_cases hn : next.len = 0
  · rw [moveLoop_stop hn] at hrest
    cases hrest
    exact hb
  obtain ⟨-, hturn⟩ := MapEnd.turn hw hm hpos
  -- the rest of the loop starts behind the block, at an exact position
  have hback : ¬ ComesBack (dom (cells (exts st1.tree))) ((curr.logStart + curr.len) % 2 ^ 32) room
      (curr.logStart + 1) next.logStart := by
    obtain ⟨hx, hlt⟩ := Turn.next_exact hturn hc hn
    rw [hturn.dom_eq]
    exact not_comesBack_of_exact hx (WellFormed.log32 hw) next.log_lt hlt
  have hkept := moveLoop_keptAt hfuel (.inl (Nat.lt_succ_self curr.logStart)) room hw1
    (Turn.sum_eq hturn hn) hback hrest
  exact hkept.1 _ w (Nat.mod_lt _ (by decide)) hb

end loop

/-! ### The move -/

/-- Where a move that comes back puts the block it comes back to. -/
theorem move_comesBack (blocksize : ℕ) {fuel : ℕ} (hfuel : 3 ≤ fuel) {ino : Inode}
    (hw : WellFormed ino.tree) (args : MvIn) (hv : args.expIver = evfsIver ino) {i d : ℕ}
    (hi : i < args.ext.len)
    (hend : args.ext.logStart + args.ext.len < 2 ^ 32)
    (hh : Hops (dom (cells (exts ino.tree))) (2 ^ 32) (args.ext.logStart + args.ext.len) i
      args.ext.logStart d)
    (hmem : (args.ext.logStart + d) % 2 ^ 32 ∈ dom (cells (exts ino.tree)))
    (hlt : (args.ext.logStart + d) % 2 ^ 32 < args.ext.logStart) :
    ∃ ino' out w, evfsExtentMove blocksize allSucceed fuel ino args = .ret (ino', 0, out) ∧
      blockMap (exts ino'.tree) ((args.ext.logStart + d) % 2 ^ 32) =
        some ((args.ext.phyStart + d) % 2 ^ 64 % 2 ^ 48, w) := by
  obtain ⟨ino', out, hret⟩ : ∃ ino' out, evfsExtentMove blocksize allSucceed fuel ino args =
      .ret (ino', 0, out) := move_ret hfuel allSucceed_succeeds hw hv
  refine ⟨ino', out, ?_⟩
  rcases move_cases hret with ⟨-, -, hneg, -⟩ | ⟨-, st, r, hl, rfl, -⟩
  · omega
  obtain ⟨room, hroom⟩ : ∃ room, args.ext.len = room + 1 + i := ⟨args.ext.len - 1 - i, by omega⟩
  rw [hroom] at hl
  obtain ⟨next, out', har, hrun⟩ := moveLoop_hops hfuel hw hh rfl (Nat.mod_eq_of_lt hend) hl
  have hsum := har.sum
  have hlog := har.log
  have hnlen := next.len_lt
  rw [← hlog] at hmem hlt
  obtain ⟨w, hb⟩ := moveLoop_stored hfuel hw hmem (by omega) (by omega) (fun _ _ _ _ _ _ => rfl) hrun
  rw [har.phy] at hb
  exact ⟨w, hret, hlog ▸ hb⟩

end LinuxEvfs.ExtMove.Frame
