import LinuxEvfs.ExtMove.Loop

/-! # Runs from an exact position

A run whose cursor starts at a mapped block, right behind one, or before all of them never loses its
place: every skip ends at the next mapped block. Such a run moves exactly the mapped blocks of the
request (`exact_run`), and if the request does not end inside a hole that is followed by a mapped
block its entries tile the request (`exact_tiles`).

The main result is the move of a fully mapped range, `evfsExtentMove_mapped`. -/

namespace LinuxEvfs.ExtMove.Exact

open LinuxEvfs.Errno LinuxEvfs.Lib.Word LinuxEvfs.Lib.Holes
open LinuxEvfs.ExtTree.Basic LinuxEvfs.ExtTree.Cells LinuxEvfs.ExtTree.Tree
open LinuxEvfs.ExtMove.Model LinuxEvfs.ExtMove.Cursor LinuxEvfs.ExtMove.Refine LinuxEvfs.ExtMove.Loop

/-! ### Cursors without wrapping -/

section of
variable {a b c : ℕ}

theorem of_log (h : a < 2 ^ 32) : (EvfsExt.of a b c).logStart = a := Nat.mod_eq_of_lt h

theorem of_phy (h : b < 2 ^ 64) : (EvfsExt.of a b c).phyStart = b := Nat.mod_eq_of_lt h

theorem of_len (h : c < 2 ^ 32) : (EvfsExt.of a b c).len = c := Nat.mod_eq_of_lt h

theorem zero_len : EvfsExt.zero.len = 0 := rfl

end of

/-- Every mapped block is one of 32 bits. -/
def Log32 (cs : List Cell) : Prop := ∀ x ∈ dom cs, x < 2 ^ 32

theorem WellFormed.log32 {t : ExtRoot} (h : WellFormed t) : Log32 (cells (exts t)) := fun x hx => by
  obtain ⟨e, he, -, h2⟩ := mem_dom_cells.mp hx
  have := (h.valid.legal e he).last_le
  unfold EXT_MAX_BLOCKS at this
  omega

/-- Consecutive ascending pieces from `c` to `e`. -/
def Tiles : ℕ → ℕ → List EvfsExt → Prop
  | c, e, [] => c = e
  | c, e, r :: out => r.logStart = c ∧ 0 < r.len ∧ Tiles (c + r.len) e out

theorem Tiles.le : ∀ {out : List EvfsExt} {c e : ℕ}, Tiles c e out → c ≤ e
  | [], _, _, h => Nat.le_of_eq h
  | _ :: _, _, _, ⟨_, _, h⟩ => by have := h.le; omega

theorem Tiles.log_le : ∀ {out : List EvfsExt} {c e : ℕ}, Tiles c e out → ∀ r ∈ out, c ≤ r.logStart
  | r :: out, c, e, ⟨h1, _, h⟩, r', hr' => by
    rcases List.mem_cons.mp hr' with rfl | hr'
    · exact h1.ge
    · have := h.log_le r' hr'
      omega

theorem Tiles.end_le : ∀ {out : List EvfsExt} {c e : ℕ}, Tiles c e out →
    ∀ r ∈ out, r.logStart + r.len ≤ e
  | r :: out, c, e, ⟨h1, _, h⟩, r', hr' => by
    rcases List.mem_cons.mp hr' with rfl | hr'
    · have := h.le
      omega
    · exact h.end_le r' hr'

/-- What an entry reports: the old physical blocks of mapped blocks, and the new ones of unmapped
blocks, which the move does not use. -/
def Reported (cs : List Cell) (cur r : EvfsExt) : Prop :=
  ∀ i < r.len, (∃ w, (r.logStart + i, r.phyStart + i, w) ∈ cs) ∨
    (r.logStart + i ∉ dom cs ∧
      r.phyStart + i = cur.phyStart + (r.logStart + i - cur.logStart))

/-- The end of the request is not inside a hole that is followed by a mapped block. -/
def EndFits (M : Set ℕ) (e : ℕ) : Prop := e ∈ M ∨ (∃ p ∈ M, p + 1 = e) ∨ ∀ x ∈ M, x < e

/-! ### Turns from an exact position -/

section turn
variable {cs cs' : List Cell} {cur rep next : EvfsExt} {room : ℕ} {out : List EvfsExt}

/-- The cursor stands where the last entry ended, with what is left of the request. -/
structure Ahead (cur next : EvfsExt) (k : ℕ) : Prop where
  log : next.logStart = cur.logStart + k
  phy : next.phyStart = add64 cur.phyStart k
  len : next.len = cur.len - k

/-- The fields of the cursor behind a skip that stays in the request. -/
theorem skip_ahead {cur : EvfsExt} {j : ℕ} (hle : j ≤ cur.len)
    (hend : cur.logStart + cur.len < 2 ^ 32) :
    Ahead cur (EvfsExt.of (add32 cur.logStart j) (add64 cur.phyStart j) (sub32 cur.len j)) j := by
  have hlt : cur.logStart + j < 2 ^ 32 := by omega
  refine ⟨?_, of_phy (add64_lt _ _), ?_⟩
  · rw [add32_of_lt hlt, of_log hlt]
  · rw [of_len (sub32_lt _ _), sub32_of_le hle cur.len_lt]

theorem swap_ahead {cur : EvfsExt} {k : ℕ} (hlt : k < cur.len)
    (hend : cur.logStart + cur.len < 2 ^ 32) :
    Ahead cur (if k < cur.len then
      EvfsExt.of (cur.logStart + k) (add64 cur.phyStart k) (cur.len - k) else EvfsExt.zero) k := by
  rw [if_pos hlt]
  have := cur.len_lt
  exact ⟨of_log (by omega), of_phy (add64_lt _ _), of_len (by omega)⟩

theorem Ahead.end_eq {cur next : EvfsExt} {k : ℕ} (h : Ahead cur next k) (hle : k ≤ cur.len) :
    next.logStart + next.len = cur.logStart + cur.len := by
  rw [h.log, h.len]
  omega

/-- **A turn from an exact position**, in a request that does not wrap: the request ends behind all
mapped blocks; a skip ends at the next mapped block, within the request or behind it; or blocks are
swapped. -/
theorem Turn.exact_cases (ht : Turn cs cur cs' rep next) (hx : Exact (dom cs) cur.logStart)
    (hend : cur.logStart + cur.len < 2 ^ 32) (hM : Log32 cs) :
    ((∀ x ∈ dom cs, x < cur.logStart) ∧ cs' = cs ∧ rep = cur ∧ next.len = 0) ∨
    (∃ j, 0 < j ∧ j ≤ cur.len ∧ Next (dom cs) cur.logStart (cur.logStart + j) ∧ cs' = cs ∧
      rep = EvfsExt.of cur.logStart cur.phyStart j ∧ Ahead cur next j) ∨
    (∃ j, cur.len < j ∧ Next (dom cs) cur.logStart (cur.logStart + j) ∧ cs' = cs ∧
      next.logStart ∈ dom cs ∧ 2 ^ 32 ≤ next.logStart + next.len) ∨
    ∃ mid k q, 0 < k ∧ k ≤ cur.len ∧ q < 2 ^ 48 ∧ Keeps cs mid ∧
      (∀ i < k, ∃ w, (cur.logStart + i, q + i, w) ∈ mid) ∧
      cs' = mid.map (remap cur.logStart k (cur.phyStart % 2 ^ 48)) ∧
      rep = EvfsExt.of cur.logStart q k ∧ next.len = cur.len - k ∧
      (k < cur.len → Ahead cur next k) := by
  cases ht with
  | eof h =>
    rcases h with h | ⟨-, h⟩
    · exact .inl ⟨h, rfl, rfl, rfl⟩
    · omega
  | @skip j h hj =>
    have hn := hx.next h
    have hlt := hM _ hn.mem
    have hlog : (EvfsExt.of (add32 cur.logStart j) (add64 cur.phyStart j)
        (sub32 cur.len j)).logStart = cur.logStart + j := by
      rw [add32_of_lt hlt, of_log hlt]
    by_cases hle : j ≤ cur.len
    · exact .inr (.inl ⟨j, h.pos, hle, hn, rfl, rfl, skip_ahead hle hend⟩)
    · refine .inr (.inr (.inl ⟨j, by omega, hn, rfl, hlog ▸ hn.mem, ?_⟩))
      rw [hlog, of_len (sub32_lt _ _), sub32_of_lt (by omega)]
      omega
  | @swap mid k q hk hle hend hmid hq hold =>
    refine .inr (.inr (.inr ⟨mid, k, q, hk, hle, hq, hmid, hold, rfl, rfl, ?_, fun hlt =>
      swap_ahead hlt hend⟩))
    split_ifs with hlt
    · exact of_len (by omega)
    · rw [zero_len]; omega

/-- A cursor on a mapped block whose range wraps ends the run. -/
theorem Run.of_wrapped (h : Run room cs cur cs' out) (hc : cur.logStart ∈ dom cs)
    (hw : 2 ^ 32 ≤ cur.logStart + cur.len) : cs' = cs := by
  cases h with
  | full => rfl
  | stop => rfl
  | turn _ ht hr =>
    cases ht with
    | eof => exact (Run.of_len_zero hr rfl).1
    | skip hs => exact absurd hc hs.not_mem
    | swap _ _ hend => omega

end turn

/-! ### Runs from an exact position -/

theorem Next.no_cells {cs : List Cell} {c N : ℕ} (h : Next (dom cs) c N) {k : ℕ} (hk : c + k ≤ N)
    (p : ℕ) : cs.map (remap c k p) = cs :=
  map_remap_eq_self fun x hx hin => h.free x.1 hin.1 (by omega) ⟨x, hx, rfl⟩

theorem Phys48.remap {cs : List Cell} (h : Phys48 cs) {c k p : ℕ} (hp : p + k ≤ 2 ^ 48) :
    Phys48 (cs.map (remap c k p)) := by
  intro y hy
  obtain ⟨x, hx, rfl⟩ := List.mem_map.mp hy
  obtain ⟨L, q, w⟩ := x
  by_cases hin : c ≤ L ∧ L < c + k
  · rw [remap_inside hin]
    simp only
    omega
  · rw [remap_outside hin]
    exact h _ hx

theorem exact_of_swap {cs mid : List Cell} {c k q : ℕ} (hmid : Keeps cs mid) (hk : 0 < k)
    (hold : ∀ i < k, ∃ w, (c + i, q + i, w) ∈ mid) : Exact (dom cs) (c + k) := by
  obtain ⟨w, hmem⟩ := hold (k - 1) (by omega)
  have hp : c + (k - 1) ∈ dom cs := by
    rw [← dom_eq_of_shape (Keeps.shape_eq hmid)]
    exact ⟨_, hmem, rfl⟩
  have := exact_of_pred hp
  rwa [show c + (k - 1) + 1 = c + k by omega] at this

/-- **A run from an exact position** moves exactly the mapped blocks of the request. -/
theorem exact_run : ∀ {room : ℕ} {cs cs' : List Cell} {cur : EvfsExt} {out : List EvfsExt},
    Run room cs cur cs' out → Exact (dom cs) cur.logStart →
    cur.logStart + cur.len < 2 ^ 32 → Log32 cs → cur.phyStart + cur.len ≤ 2 ^ 48 → Phys48 cs →
    cur.len ≤ room → cs' = cs.map (remap cur.logStart cur.len cur.phyStart) := by
  intro room cs cs' cur out h
  have hzero : ∀ {cs : List Cell} {cur : EvfsExt}, cur.len = 0 →
      cs = cs.map (remap cur.logStart cur.len cur.phyStart) := fun h0 => by
    rw [h0]
    exact (map_remap_eq_self fun x _ => by omega).symm
  induction h with
  | full cs cur => exact fun _ _ _ _ _ hroom => hzero (by omega)
  | stop cs h0 => exact fun _ _ _ _ _ _ => hzero h0
  | @turn room cs cs1 cs' cur rep next out hlen ht hr ih =>
    intro hx hend hM hphy h48 hroom
    have hdom := ht.dom_eq
    rcases Turn.exact_cases ht hx hend hM with ⟨hall, rfl, -, h0⟩ | ⟨j, hj, hle, hn, rfl, -, hah⟩ |
      ⟨j, hlt, hn, rfl, hmem, hwrap⟩ | ⟨mid, k, q, hk, hle, -, hmid, hold, rfl, -, hlen', hah⟩
    · rw [(Run.of_len_zero hr h0).1]
      refine (map_remap_eq_self fun x hx' hin => ?_).symm
      have := hall x.1 ⟨x, hx', rfl⟩
      omega
    · have hadd : add64 cur.phyStart j = cur.phyStart + j := add64_of_lt (by omega)
      rw [ih (by rw [hah.log]; exact exact_of_mem hn.mem) (by rw [hah.log, hah.len]; omega) hM
        (by rw [hah.phy, hah.len, hadd]; omega) h48 (by rw [hah.len]; omega),
        hah.log, hah.phy, hah.len, hadd]
      conv_lhs => rw [← Next.no_cells hn (Nat.le_refl _) cur.phyStart]
      rw [List.map_map]
      refine List.map_congr_left fun x _ => ?_
      rw [Function.comp, remap_remap, Nat.add_sub_cancel' hle]
    · rw [Run.of_wrapped hr hmem hwrap]
      exact (Next.no_cells hn (by omega) _).symm
    · have hmod : cur.phyStart % 2 ^ 48 = cur.phyStart := Nat.mod_eq_of_lt (by omega)
      obtain rfl := hmid.eq h48
      rw [hmod] at hr ih hdom
      rcases Nat.lt_or_ge k cur.len with hlt | hge
      · have hadd : add64 cur.phyStart k = cur.phyStart + k := add64_of_lt (by omega)
        have hah := hah hlt
        rw [ih (by rw [hah.log, hdom]; exact exact_of_swap hmid hk hold)
          (by rw [hah.log, hah.len]; omega) (by unfold Log32; rw [hdom]; exact hM)
          (by rw [hah.phy, hah.len, hadd]; omega) (Phys48.remap h48 (by omega))
          (by rw [hah.len]; omega), hah.log, hah.phy, hah.len, hadd, List.map_map]
        refine List.map_congr_left fun x _ => ?_
        rw [Function.comp, remap_remap, Nat.add_sub_cancel' hle]
      · obtain rfl : k = cur.len := by omega
        exact (Run.of_len_zero hr (by omega)).1

/-- A skip over the end of the request is a skip over a hole the request ends in. -/
theorem EndFits.not_over {M : Set ℕ} {c n N : ℕ} (h : EndFits M (c + n)) (hn : 0 < n)
    (hN : Next M c N) : N ≤ c + n := by
  by_contra hlt
  rcases h with h | ⟨p, hp, hpe⟩ | h
  · exact hN.free _ (by omega) (by omega) h
  · exact hN.free p (by omega) (by omega) hp
  · have := h N hN.mem
    omega

/-- What is reported from a cursor further on is reported from here. -/
theorem Reported.of_ahead {cs : List Cell} {cur next r : EvfsExt} {k : ℕ} (hah : Ahead cur next k)
    (hle : next.logStart ≤ r.logStart) (hphy : cur.phyStart + k < 2 ^ 64)
    (h : Reported cs next r) : Reported cs cur r := fun i hi => by
  refine (h i hi).imp_right fun ⟨h1, h2⟩ => ⟨h1, ?_⟩
  have hlog := hah.log
  rw [hah.phy, add64_of_lt hphy] at h2
  omega

/-- A swap of earlier blocks does not show in a later entry. -/
theorem Reported.of_remap {cs : List Cell} {cur r : EvfsExt} {c k p : ℕ} (hle : c + k ≤ r.logStart)
    (h : Reported (cs.map (remap c k p)) cur r) : Reported cs cur r := fun i hi => by
  refine (h i hi).imp (fun ⟨w, hmem⟩ => ⟨w, ?_⟩) fun ⟨h1, h2⟩ => ⟨?_, h2⟩
  · obtain ⟨⟨L, q, v⟩, hx, heq⟩ := List.mem_map.mp hmem
    have hL : L = r.logStart + i := by
      have := congrArg Prod.fst heq
      simpa using this
    rw [remap_outside (by omega)] at heq
    exact heq ▸ hx
  · rwa [dom_eq_of_shape (remap_shape c k p cs)] at h1

/-- **The entries of a run from an exact position** tile the request, if it does not end inside a hole
that is followed by a mapped block. -/
theorem exact_tiles : ∀ {room : ℕ} {cs cs' : List Cell} {cur : EvfsExt} {out : List EvfsExt},
    Run room cs cur cs' out → Exact (dom cs) cur.logStart →
    cur.logStart + cur.len < 2 ^ 32 → Log32 cs → cur.phyStart + cur.len ≤ 2 ^ 48 → Phys48 cs →
    cur.len ≤ room → EndFits (dom cs) (cur.logStart + cur.len) →
    Tiles cur.logStart (cur.logStart + cur.len) out ∧ ∀ r ∈ out, Reported cs cur r := by
  intro room cs cs' cur out h
  induction h with
  | full cs cur =>
    intro _ _ _ _ _ hroom _
    exact ⟨by simp only [Tiles]; omega, by simp⟩
  | stop cs h0 =>
    intro _ _ _ _ _ _ _
    exact ⟨by simp only [Tiles]; omega, by simp⟩
  | @turn room cs cs1 cs' cur rep next out hlen ht hr ih =>
    intro hx hend hM hphy h48 hroom hfit
    have hdom := ht.dom_eq
    rcases Turn.exact_cases ht hx hend hM with ⟨hall, rfl, rfl, h0⟩ | ⟨j, hj, hle, hn, rfl, rfl, hah⟩ |
      ⟨j, hlt, hn, rfl, -, -⟩ | ⟨mid, k, q, hk, hle, hq, hmid, hold, rfl, rfl, hlen', hah⟩
    · rw [(Run.of_len_zero hr h0).2]
      refine ⟨⟨rfl, by omega, rfl⟩, fun r hr' => ?_⟩
      obtain rfl := List.mem_singleton.mp hr'
      refine fun i _ => .inr ⟨fun hmem => ?_, by omega⟩
      have := hall _ hmem
      omega
    · have hadd : add64 cur.phyStart j = cur.phyStart + j := add64_of_lt (by omega)
      have hsum : next.logStart + next.len = cur.logStart + cur.len := by
        rw [hah.log, hah.len]; omega
      obtain ⟨htl, hrep⟩ := ih (by rw [hah.log]; exact exact_of_mem hn.mem) (by omega) hM
        (by rw [hah.phy, hah.len, hadd]; omega) h48 (by rw [hah.len]; omega) (hsum ▸ hfit)
      have hlog : (EvfsExt.of cur.logStart cur.phyStart j).logStart = cur.logStart := of_log cur.log_lt
      have hlenj : (EvfsExt.of cur.logStart cur.phyStart j).len = j := of_len (by have := cur.len_lt; omega)
      refine ⟨⟨hlog, by omega, ?_⟩, fun r hr' => ?_⟩
      · rw [hlenj, ← hah.log, ← hsum]
        exact htl
      · rcases List.mem_cons.mp hr' with rfl | hr'
        · intro i hi
          rw [hlenj] at hi
          rw [hlog, of_phy cur.phy_lt]
          exact .inr ⟨hn.free _ (by omega) (by omega), by omega⟩
        · exact (hrep r hr').of_ahead hah (htl.log_le r hr') (by omega)
    · have := hfit.not_over (by omega) hn
      omega
    · have hmod : cur.phyStart % 2 ^ 48 = cur.phyStart := Nat.mod_eq_of_lt (by omega)
      obtain rfl := hmid.eq h48
      rw [hmod] at hr ih hdom
      have hlog : (EvfsExt.of cur.logStart q k).logStart = cur.logStart := of_log cur.log_lt
      have hlenk : (EvfsExt.of cur.logStart q k).len = k := of_len (by have := cur.len_lt; omega)
      have hrepk : Reported mid cur (EvfsExt.of cur.logStart q k) := fun i hi => by
        rw [hlenk] at hi
        rw [hlog, of_phy (by omega)]
        exact .inl (hold i hi)
      rcases Nat.lt_or_ge k cur.len with hlt | hge
      · have hadd : add64 cur.phyStart k = cur.phyStart + k := add64_of_lt (by omega)
        have hah := hah hlt
        have hsum : next.logStart + next.len = cur.logStart + cur.len := by
          rw [hah.log, hah.len]; omega
        obtain ⟨htl, hrep⟩ := ih (by rw [hah.log, hdom]; exact exact_of_swap hmid hk hold)
          (by omega) (by unfold Log32; rw [hdom]; exact hM)
          (by rw [hah.phy, hah.len, hadd]; omega) (Phys48.remap h48 (by omega))
          (by rw [hah.len]; omega) (by rw [hsum, hdom]; exact hfit)
        refine ⟨⟨hlog, by omega, ?_⟩, fun r hr' => ?_⟩
        · rw [hlenk, ← hah.log, ← hsum]
          exact htl
        · rcases List.mem_cons.mp hr' with rfl | hr'
          · exact hrepk
          · have hle' := htl.log_le r hr'
            exact ((hrep r hr').of_ahead hah hle' (by omega)).of_remap (by rw [← hah.log]; exact hle')
      · obtain rfl : k = cur.len := by omega
        rw [(Run.of_len_zero hr (by omega)).2]
        refine ⟨⟨hlog, by omega, by simp only [Tiles, hlenk]⟩, fun r hr' => ?_⟩
        obtain rfl := List.mem_singleton.mp hr'
        exact hrepk

/-! ### A fully mapped range -/

/-- The blocks of the file are blocks of the file system. -/
def InFs (sb : Super) (t : ExtRoot) : Prop :=
  ∀ L p w, blockMap (exts t) L = some (p, w) → p < sb.blocksCount

theorem InFs.phys48 {sb : Super} {t : ExtRoot} (h : InFs sb t) (hw : WellFormed t) :
    Phys48 (cells (exts t)) := fun ⟨L, p, w⟩ hx =>
  lt_of_lt_of_le (h L p w ((blockMap_eq_some hw.valid).mpr hx)) sb.count_le

theorem inFs_of_extents {sb : Super} {t : ExtRoot} (hw : WellFormed t)
    (h : ∀ e ∈ exts t, e.eeStart + ext4ExtGetActualLen e ≤ sb.blocksCount) : InFs sb t := by
  intro L p w hm
  obtain ⟨e, he, h1, h2, rfl, -⟩ := mem_cells.mp ((blockMap_eq_some hw.valid).mp hm)
  have := h e he
  unfold Extent.last at h2
  omega

/-- **The move of a fully mapped range.** It returns zero; every block of the range is mapped to its
new physical block, every other block and all states stay; and the entries tile the range, each with
the physical blocks its logical blocks had. -/
theorem evfsExtentMove_mapped (sb : Super) (env : Env) (fuel : ℕ) (ino : Inode) (args : MvIn)
    (hfuel : 3 ≤ fuel) (hs : Succeeds env) (hw : WellFormed ino.tree) (hfs : InFs sb ino.tree)
    (hv : args.expIver = evfsIver ino) (hlen : 1 ≤ args.ext.len)
    (hmap : ∀ L, args.ext.logStart ≤ L → L < args.ext.logStart + args.ext.len →
      Mapped (exts ino.tree) L)
    (hnew : args.ext.phyStart + args.ext.len ≤ sb.blocksCount) :
    ∃ ino' out, evfsExtentMove sb.blocksize env fuel ino args = .ret (ino', 0, out) ∧
      (∀ L, args.ext.logStart ≤ L → L < args.ext.logStart + args.ext.len →
        (blockMap (exts ino'.tree) L).map Prod.fst =
          some (args.ext.phyStart + (L - args.ext.logStart))) ∧
      (∀ L, ¬ (args.ext.logStart ≤ L ∧ L < args.ext.logStart + args.ext.len) →
        blockMap (exts ino'.tree) L = blockMap (exts ino.tree) L) ∧
      (∀ L, (blockMap (exts ino'.tree) L).map Prod.snd =
        (blockMap (exts ino.tree) L).map Prod.snd) ∧
      Tiles args.ext.logStart (args.ext.logStart + args.ext.len) out ∧
      ∀ r ∈ out, ∀ i < r.len, (blockMap (exts ino.tree) (r.logStart + i)).map Prod.fst =
        some (r.phyStart + i) := by
  obtain ⟨ino', out, hret⟩ : ∃ ino' out, evfsExtentMove sb.blocksize env fuel ino args =
      .ret (ino', 0, out) := move_ret hfuel hs hw hv
  obtain ⟨hw', hrun⟩ := move_run hfuel hw hret
  have hM := WellFormed.log32 hw
  have h48 := hfs.phys48 hw
  have hdom : ∀ L, args.ext.logStart ≤ L → L < args.ext.logStart + args.ext.len →
      L ∈ dom (cells (exts ino.tree)) := fun L h1 h2 => mem_dom_cells.mpr (hmap L h1 h2)
  have hx : Exact (dom (cells (exts ino.tree))) args.ext.logStart :=
    exact_of_mem (hdom _ (Nat.le_refl _) (by omega))
  have hlast := hdom (args.ext.logStart + (args.ext.len - 1)) (by omega) (by omega)
  have hend : args.ext.logStart + args.ext.len < 2 ^ 32 := by
    obtain ⟨e, he, -, h2⟩ := mem_dom_cells.mp hlast
    have := (hw.valid.legal e he).last_le
    unfold EXT_MAX_BLOCKS at this
    omega
  have hphy := hnew.trans sb.count_le
  have hfit : EndFits (dom (cells (exts ino.tree))) (args.ext.logStart + args.ext.len) :=
    .inr (.inl ⟨_, hlast, by omega⟩)
  have hcells := exact_run hrun hx hend hM hphy h48 (Nat.le_refl _)
  obtain ⟨htl, hrep⟩ := exact_tiles hrun hx hend hM hphy h48 (Nat.le_refl _) hfit
  have hread := blockMap_remap hw.valid hw'.valid hcells
  refine ⟨ino', out, hret, fun L h1 h2 => ?_, fun L hout => ?_, fun L => ?_, htl, ?_⟩
  · obtain ⟨p, w, hc⟩ := mapped_iff_cells.mp (hmap L h1 h2)
    rw [hread, if_pos ⟨h1, h2⟩, (blockMap_eq_some hw.valid).mpr hc]
    rfl
  · rw [hread, if_neg hout]
  · rw [hread]
    split_ifs
    · rw [Option.map_map]
      rfl
    · rfl
  · intro r hr i hi
    rcases hrep r hr i hi with ⟨w, hmem⟩ | ⟨hnot, -⟩
    · rw [(blockMap_eq_some hw.valid).mpr hmem]
      rfl
    · have h1 := htl.log_le r hr
      have h2 := htl.end_le r hr
      exact absurd (hdom _ (by omega) (by omega)) hnot

/-- Two extents, the second unwritten. -/
def twoExtents : Inode := leafInode [⟨0, 4, 100⟩, ⟨4, 32770, 50⟩] 7

theorem evfsExtentMove_twoExtents :
    ∃ ino' out, evfsExtentMove 4096 allSucceed 3 twoExtents ⟨7, EvfsExt.of 2 200 3⟩ =
        .ret (ino', 0, out) ∧
      Tiles 2 5 out ∧ (blockMap (exts ino'.tree) 4).map Prod.fst = some 202 := by
  have hw : WellFormed twoExtents.tree := leafInode_wellFormed (by decide) 7
  obtain ⟨ino', out, hret, hin, -, -, htl, -⟩ :=
    evfsExtentMove_mapped ⟨4096, 1000, by decide⟩ allSucceed 3 twoExtents ⟨7, EvfsExt.of 2 200 3⟩
      (Nat.le_refl 3) allSucceed_succeeds hw
      (inFs_of_extents hw (by decide)) rfl (by decide)
      (fun L h1 h2 => by
        have hL : L = 2 ∨ L = 3 ∨ L = 4 := by
          change 2 ≤ L at h1
          change L < 5 at h2
          omega
        rcases hL with rfl | rfl | rfl <;> decide)
      (by decide)
  exact ⟨ino', out, hret, htl, hin 4 (by decide) (by decide)⟩

end LinuxEvfs.ExtMove.Exact
