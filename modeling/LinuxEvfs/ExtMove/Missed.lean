import LinuxEvfs.ExtMove.Exact

/-! # Blocks a move misses

A skip is counted from the end of the mapped block before the hole. From the middle of a hole it leads
behind the next mapped block `N`, which keeps its old physical block unless the cursor comes around to
it: and then it gets a new one that is off by a multiple of `2 ^ 32` (`run_misses`).

The main result is `evfsExtentMove_moves_iff`: a move moves the mapped blocks of its range if and only
if it does not start in the middle of a hole, or the range has no mapped block. -/

namespace LinuxEvfs.ExtMove.Missed

open LinuxEvfs.Errno LinuxEvfs.Lib.Word LinuxEvfs.Lib.Holes
open LinuxEvfs.ExtTree.Basic LinuxEvfs.ExtTree.Cells LinuxEvfs.ExtTree.Tree
open LinuxEvfs.ExtMove.Model LinuxEvfs.ExtMove.Cursor LinuxEvfs.ExtMove.Loop LinuxEvfs.ExtMove.Exact

/-- A cursor that started at `s`, with the new range at `P`, and went `w` times around the circle of
32 bits; on the first round it is behind `N`. -/
structure Past (P s N w : ℕ) (cur : EvfsExt) : Prop where
  start : s ≤ cur.logStart + 2 ^ 32 * w
  phy : cur.phyStart = (P + (cur.logStart + 2 ^ 32 * w - s)) % 2 ^ 64
  past : w = 0 → N < cur.logStart

/-- With `room` turns left the cursor does not get around `2 ^ 16` times, as it does at most once in a
turn, and not at all over small holes. -/
def Few (M : Set ℕ) (room w : ℕ) : Prop := w + room ≤ 2 ^ 16 ∨ (w = 0 ∧ ∀ x ∈ M, x < 2 ^ 31)

/-- The block `N` is not at its new place `T`. -/
def NotAt (cs : List Cell) (N T : ℕ) : Prop := ∀ v b, (N, v, b) ∈ cs → v % 2 ^ 48 ≠ T

section run
variable {P s N w room : ℕ} {cs cs' : List Cell} {cur rep next : EvfsExt} {out : List EvfsExt}

theorem Few.skip {M : Set ℕ} {c j : ℕ} (h : Few M (room + 1) w) (hs : Skip M c j) (hc : c < 2 ^ 32)
    (hj : j < 2 ^ 32) : Few M room (w + (c + j) / 2 ^ 32) := by
  rcases h with h | ⟨rfl, hM⟩
  · exact .inl (by omega)
  · obtain ⟨N, hN, -, hle⟩ := hs.next_le
    have := hM N hN.mem
    have := hN.lt
    exact .inr ⟨by omega, hM⟩

/-- The cursor behind a skip. -/
theorem Past.skip {j : ℕ} (h : Past P s N w cur) :
    Past P s N (w + (cur.logStart + j) / 2 ^ 32)
      (EvfsExt.of (add32 cur.logStart j) (add64 cur.phyStart j) (sub32 cur.len j)) := by
  have hstart := h.start
  have hlog : (EvfsExt.of (add32 cur.logStart j) (add64 cur.phyStart j)
    (sub32 cur.len j)).logStart = (cur.logStart + j) % 2 ^ 32 := of_log (add32_lt _ _)
  refine ⟨?_, ?_, fun hw => ?_⟩
  · rw [hlog]
    omega
  · rw [of_phy (add64_lt _ _), hlog, add64, h.phy]
    omega
  · have := h.past (by omega)
    rw [hlog]
    omega

/-- The cursor behind a swap. -/
theorem Past.swap {k : ℕ} (h : Past P s N w cur) (hlt : k < cur.len)
    (hend : cur.logStart + cur.len < 2 ^ 32) :
    Past P s N w (EvfsExt.of (cur.logStart + k) (add64 cur.phyStart k) (cur.len - k)) := by
  have hstart := h.start
  have hlog : (EvfsExt.of (cur.logStart + k) (add64 cur.phyStart k) (cur.len - k)).logStart =
    cur.logStart + k := of_log (by omega)
  refine ⟨?_, ?_, fun hw => ?_⟩
  · rw [hlog]
    omega
  · rw [of_phy (add64_lt _ _), hlog, add64, h.phy]
    omega
  · have := h.past hw
    rw [hlog]
    omega

/-- A swap on a later round puts `N` at a wrong place, if it moves it at all. -/
theorem NotAt.swap {mid : List Cell} {k : ℕ} (h : NotAt cs N (P + (N - s))) (hmid : Keeps cs mid)
    (hp : Past P s N w cur) (hw : w < 2 ^ 16) (hT : P + (N - s) < 2 ^ 48) (hs : s ≤ N) :
    NotAt (mid.map (remap cur.logStart k (cur.phyStart % 2 ^ 48))) N (P + (N - s)) := by
  intro v b hmem
  obtain ⟨⟨L, q, b'⟩, hx, heq⟩ := List.mem_map.mp hmem
  have hL : L = N := by
    have := congrArg Prod.fst heq
    simpa using this
  subst hL
  by_cases hin : cur.logStart ≤ L ∧ L < cur.logStart + k
  · rw [remap_inside hin] at heq
    have hv : cur.phyStart % 2 ^ 48 + (L - cur.logStart) = v := by
      simp only [Prod.mk.injEq, true_and] at heq
      exact heq.1
    have hpos : w ≠ 0 := fun h0 => by
      have := hp.past h0
      omega
    have hphy := hp.phy
    have hstart := hp.start
    omega
  · rw [remap_outside hin] at heq
    cases heq
    obtain ⟨q', hq', hmod⟩ := hmid.exists_mem hx
    rw [hmod]
    exact h q' b hq'

/-- **A run that has passed `N`** does not move it to its new place. -/
theorem run_misses (h : Run room cs cur cs' out) (hT : P + (N - s) < 2 ^ 48) (hs : s ≤ N) : ∀ {w : ℕ},
    Past P s N w cur → Few (dom cs) room w → NotAt cs N (P + (N - s)) →
    NotAt cs' N (P + (N - s)) := by
  induction h with
  | full => exact fun _ _ h => h
  | stop => exact fun _ _ h => h
  | @turn room cs cs1 cs' cur rep next out hlen ht hr ih =>
    intro w hp hfew hnot
    have hdom := ht.dom_eq
    cases ht with
    | eof =>
      rw [(Run.of_len_zero hr rfl).1]
      exact hnot
    | skip hsk hj => exact ih hp.skip (hfew.skip hsk cur.log_lt hj) hnot
    | @swap mid k q hk hle hend hmid hq hold =>
      have hw : w < 2 ^ 16 := by
        rcases hfew with h | ⟨h, -⟩ <;> omega
      have hnot' := hnot.swap (k := k) hmid hp hw hT hs
      rcases Nat.lt_or_ge k cur.len with hlt | hge
      · rw [if_pos hlt] at ih
        refine ih (hp.swap hlt hend) ?_ hnot'
        rw [hdom]
        exact hfew.imp_left fun h => by omega
      · rw [if_neg (Nat.not_lt.mpr hge)] at hr
        rw [(Run.of_len_zero hr rfl).1]
        exact hnot'

end run

/-! ### The move -/

section move
variable {sb : Super} {env : Env} {fuel : ℕ} {ino ino' : Inode} {args : MvIn} {out : List EvfsExt}

/-- The mapped blocks of the range are moved, and the others stay unmapped. -/
def Moves (m m' : List Extent) (ext : EvfsExt) : Prop :=
  ∀ L, ext.logStart ≤ L → L < ext.logStart + ext.len →
    (Mapped m L → (blockMap m' L).map Prod.fst = some (ext.phyStart + (L - ext.logStart))) ∧
    (¬ Mapped m L → ¬ Mapped m' L)

/-- From an exact position every mapped block of the range is moved. -/
theorem moves_of_exact (hfuel : 3 ≤ fuel) (hw : WellFormed ino.tree) (hfs : InFs sb ino.tree)
    (hend : args.ext.logStart + args.ext.len < 2 ^ 32)
    (hnew : args.ext.phyStart + args.ext.len ≤ sb.blocksCount)
    (hret : evfsExtentMove sb.blocksize env fuel ino args = .ret (ino', 0, out))
    (hx : Exact (mapped (exts ino.tree)) args.ext.logStart) :
    Moves (exts ino.tree) (exts ino'.tree) args.ext := by
  obtain ⟨hw', hrun⟩ := move_run hfuel hw hret
  rw [← dom_cells] at hx
  have hcells := exact_run hrun hx hend (WellFormed.log32 hw) (hnew.trans sb.count_le)
    (hfs.phys48 hw) (Nat.le_refl _)
  intro L h1 h2
  refine ⟨fun hm => ?_, fun hm => ?_⟩
  · obtain ⟨p, v, hc⟩ := mapped_iff_cells.mp hm
    rw [blockMap_remap hw.valid hw'.valid hcells, if_pos ⟨h1, h2⟩,
      (blockMap_eq_some hw.valid).mpr hc]
    rfl
  · rw [← mem_dom_cells] at hm ⊢
    rwa [dom_eq_of_shape (Run.shape_eq hrun)]

/-- From the middle of a hole the next mapped block is missed. -/
theorem not_moves (hfuel : 3 ≤ fuel) (hw : WellFormed ino.tree) (hfs : InFs sb ino.tree)
    (hnew : args.ext.phyStart + args.ext.len ≤ sb.blocksCount)
    (hfresh : ∀ L p w, blockMap (exts ino.tree) L = some (p, w) →
      ¬ (args.ext.phyStart ≤ p ∧ p < args.ext.phyStart + args.ext.len))
    (hfew : args.ext.len ≤ 2 ^ 16 ∨ ∀ L, Mapped (exts ino.tree) L → L < 2 ^ 31)
    (hret : evfsExtentMove sb.blocksize env fuel ino args = .ret (ino', 0, out))
    (hx : ¬ Exact (mapped (exts ino.tree)) args.ext.logStart) {N : ℕ}
    (hN : Next (mapped (exts ino.tree)) args.ext.logStart N)
    (hlt : N < args.ext.logStart + args.ext.len) :
    (blockMap (exts ino'.tree) N).map Prod.fst ≠
      some (args.ext.phyStart + (N - args.ext.logStart)) := by
  obtain ⟨hw', hrun⟩ := move_run hfuel hw hret
  have hcount := sb.count_le
  have hsN := hN.lt
  have hnotmem : args.ext.logStart ∉ mapped (exts ino.tree) := fun h => hx (exact_of_mem h)
  rw [← dom_cells] at hx hN hnotmem
  have hnot : NotAt (cells (exts ino.tree)) N (args.ext.phyStart + (N - args.ext.logStart)) :=
    fun v b hmem heq => by
      have hb := (blockMap_eq_some hw.valid).mpr hmem
      have := hfs N v b hb
      have := hfresh N v b hb
      omega
  have hfew0 : Few (dom (cells (exts ino.tree))) args.ext.len 0 :=
    hfew.imp (fun h => by omega) fun h => ⟨rfl, fun x hx => h x (mem_dom_cells.mp hx)⟩
  have hmiss : NotAt (cells (exts ino'.tree)) N (args.ext.phyStart + (N - args.ext.logStart)) := by
    generalize cells (exts ino.tree) = cs at *
    generalize cells (exts ino'.tree) = cs' at *
    generalize hroom : args.ext.len = room at hrun hfew0
    cases hrun with
    | full => exact hnot
    | stop => exact hnot
    | turn hlen ht hr =>
      cases ht with
      | eof h =>
        rcases h with h | ⟨h, -⟩
        · have := h N hN.mem
          omega
        · exact absurd h hnotmem
      | @skip j hsk hj =>
        -- the first skip leads behind `N`
        have hover := hsk.over hx hN
        have hlog := args.ext.log_lt
        have hphy := args.ext.phy_lt
        refine run_misses hr (by omega) hsN.le ?_ (hfew0.skip hsk hlog hj) hnot
        have hlog' : (EvfsExt.of (add32 args.ext.logStart j) (add64 args.ext.phyStart j)
          (sub32 args.ext.len j)).logStart = (args.ext.logStart + j) % 2 ^ 32 := of_log (add32_lt _ _)
        refine ⟨by rw [hlog']; omega, ?_, fun h0 => by rw [hlog']; omega⟩
        rw [of_phy (add64_lt _ _), hlog', add64]
        omega
      | swap hk _ _ hmid _ hold =>
        obtain ⟨v, hmem⟩ := hold 0 hk
        rw [← dom_eq_of_shape (Keeps.shape_eq hmid)] at hnotmem
        exact absurd ⟨_, hmem, rfl⟩ hnotmem
  intro heq
  obtain ⟨⟨p, v⟩, hb, hp⟩ := Option.map_eq_some_iff.mp heq
  simp only at hp
  refine hmiss p v ((blockMap_eq_some hw'.valid).mp hb) ?_
  omega

end move

/-- **Which moves miss no block.** A move that returns zero moves every mapped block of its range if it
starts at a mapped block, right behind one or before all of them, or if the range has none. It misses
one otherwise, as long as its cursor does not go `2 ^ 16` times around. -/
theorem evfsExtentMove_moves_iff (sb : Super) (env : Env) (fuel : ℕ) (ino ino' : Inode) (args : MvIn)
    (out : List EvfsExt) (hfuel : 3 ≤ fuel) (hw : WellFormed ino.tree) (hfs : InFs sb ino.tree)
    (hend : args.ext.logStart + args.ext.len ≤ EXT_MAX_BLOCKS)
    (hnew : args.ext.phyStart + args.ext.len ≤ sb.blocksCount)
    (hret : evfsExtentMove sb.blocksize env fuel ino args = .ret (ino', 0, out)) :
    let cond := Exact (mapped (exts ino.tree)) args.ext.logStart ∨
      ∀ L, args.ext.logStart ≤ L → L < args.ext.logStart + args.ext.len → ¬ Mapped (exts ino.tree) L
    (cond → Moves (exts ino.tree) (exts ino'.tree) args.ext) ∧
    ((∀ L p w, blockMap (exts ino.tree) L = some (p, w) →
        ¬ (args.ext.phyStart ≤ p ∧ p < args.ext.phyStart + args.ext.len)) →
      (args.ext.len ≤ 2 ^ 16 ∨ ∀ L, Mapped (exts ino.tree) L → L < 2 ^ 31) →
      Moves (exts ino.tree) (exts ino'.tree) args.ext → cond) := by
  have hlt : args.ext.logStart + args.ext.len < 2 ^ 32 := by
    unfold EXT_MAX_BLOCKS at hend
    omega
  refine ⟨?_, fun hfresh hfew hmoves => ?_⟩
  · rintro (hx | hnone)
    · exact moves_of_exact hfuel hw hfs hlt hnew hret hx
    · obtain ⟨-, hrun⟩ := move_run hfuel hw hret
      refine fun L h1 h2 => ⟨fun hm => absurd hm (hnone L h1 h2), fun hm => ?_⟩
      rw [← mem_dom_cells] at hm ⊢
      rwa [dom_eq_of_shape (Run.shape_eq hrun)]
  · by_contra hcond
    simp only [not_or, not_forall, not_not] at hcond
    obtain ⟨hx, L, h1, h2, hL⟩ := hcond
    obtain ⟨N, hN, hle⟩ := exists_next (fun h => hx (exact_of_mem h)) hL h1
    exact not_moves hfuel hw hfs hnew hfresh hfew hret hx hN (by omega)
      ((hmoves N hN.lt.le (by omega)).1 hN.mem)

/-- A request that starts in the middle of a hole misses the extent behind it. -/
theorem evfsExtentMove_misses : ∃ ino' out,
    evfsExtentMove 4096 allSucceed 3 (leafInode [⟨0, 10, 100⟩, ⟨20, 10, 200⟩] 0)
        ⟨0, EvfsExt.of 15 1000 10⟩ = .ret (ino', 0, out) ∧
      ¬ Moves [⟨0, 10, 100⟩, ⟨20, 10, 200⟩] (exts ino'.tree) (EvfsExt.of 15 1000 10) := by
  refine ⟨_, _, rfl, fun h => ?_⟩
  have := (h 20 (by decide) (by decide)).1 (by decide)
  exact absurd this (by decide)

theorem evfsExtentMove_moves_behind : ∃ ino' out,
    evfsExtentMove 4096 allSucceed 3 (leafInode [⟨0, 10, 100⟩, ⟨20, 10, 200⟩] 0)
        ⟨0, EvfsExt.of 10 1000 15⟩ = .ret (ino', 0, out) ∧
      (blockMap (exts ino'.tree) 20).map Prod.fst = some 1010 := by
  have hw : WellFormed (leafInode [⟨0, 10, 100⟩, ⟨20, 10, 200⟩] 0).tree :=
    leafInode_wellFormed (by decide) 0
  obtain ⟨ino', out, hret⟩ : ∃ ino' out, evfsExtentMove 4096 allSucceed 3
      (leafInode [⟨0, 10, 100⟩, ⟨20, 10, 200⟩] 0) ⟨0, EvfsExt.of 10 1000 15⟩ = .ret (ino', 0, out) :=
    move_ret (Nat.le_refl 3) allSucceed_succeeds hw rfl
  have h := (evfsExtentMove_moves_iff ⟨4096, 2000, by decide⟩ allSucceed 3 _ ino'
    ⟨0, EvfsExt.of 10 1000 15⟩ out (Nat.le_refl 3) hw (inFs_of_extents hw (by decide)) (by decide)
    (by decide) hret).1 (.inl (exact_of_pred
      (show Mapped [⟨0, 10, 100⟩, ⟨20, 10, 200⟩] 9 by decide)))
  exact ⟨ino', out, hret, (h 20 (by decide) (by decide)).1
    (show Mapped [⟨0, 10, 100⟩, ⟨20, 10, 200⟩] 20 by decide)⟩

end LinuxEvfs.ExtMove.Missed
