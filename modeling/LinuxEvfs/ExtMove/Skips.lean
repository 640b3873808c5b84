import LinuxEvfs.ExtMove.Exact
import Mathlib.Data.Multiset.AddSub
import Mathlib.Data.List.Perm.Basic
import Mathlib.Data.List.Nodup

/-! # Moves over holes: what is reported

A skip is counted from the end of the mapped block before the hole, and is not compared with what is
left of the request. `Walk` follows a cursor that makes such skips: it is what the entries of a move
need to tile the request.

* `walk_tiles`, `tiles_walk`: the entries tile the request exactly when the walk stays inside it.
* `walk_conserves`: the physical blocks reported and those the file maps afterwards are then the new
  ones and those it mapped before.
* `evfsExtentMove_conserves_iff`: both, for every move that returns zero. -/

namespace LinuxEvfs.ExtMove.Skips

open LinuxEvfs.Errno LinuxEvfs.Lib.Word LinuxEvfs.Lib.Holes
open LinuxEvfs.ExtTree.Basic LinuxEvfs.ExtTree.Cells LinuxEvfs.ExtTree.Tree
open LinuxEvfs.ExtMove.Model LinuxEvfs.ExtMove.Cursor LinuxEvfs.ExtMove.Loop LinuxEvfs.ExtMove.Exact

/-- **The walk** of a cursor from `c` to the end `e` of the request: over mapped blocks one by one,
over a hole by its length, and through to the end when no mapped block is left. No step may leave the
request. -/
inductive Walk (M : Set ℕ) (e : ℕ) : ℕ → Prop
  | stop : Walk M e e
  | rest {c : ℕ} (hc : c < e) (h : ∀ x ∈ M, x < c) : Walk M e c
  | run {c : ℕ} (hc : c < e) (hm : c ∈ M) (h : Walk M e (c + 1)) : Walk M e c
  | skip {c j : ℕ} (hs : Skip M c j) (hle : c + j ≤ e) (h : Walk M e (c + j)) : Walk M e c

section walk
variable {M : Set ℕ} {c e : ℕ}

/-- Over mapped blocks there is one way to walk. -/
theorem Walk.run_iff : ∀ {k : ℕ}, (∀ i < k, c + i ∈ M) → c + k ≤ e →
    (Walk M e c ↔ Walk M e (c + k))
  | 0, _, _ => Iff.rfl
  | k + 1, hm, hle => by
    rw [Walk.run_iff (k := k) (fun i hi => hm i (by omega)) (by omega)]
    have hk := hm k (by omega)
    constructor
    · intro h
      cases h with
      | stop => omega
      | rest _ h =>
        have := h _ hk
        omega
      | run _ _ h => exact h
      | skip hs => exact absurd hk hs.not_mem
    · exact fun h => .run (by omega) hk h

/-- Over a hole too. -/
theorem Walk.skip_iff {j : ℕ} (hs : Skip M c j) (hc : c ≠ e) :
    Walk M e c ↔ c + j ≤ e ∧ Walk M e (c + j) := by
  constructor
  · intro h
    cases h with
    | stop => exact absurd rfl hc
    | rest _ h =>
      obtain ⟨N, hN, -, -⟩ := hs.next_le
      have := h N hN.mem
      have := hN.lt
      omega
    | run _ hm _ => exact absurd hm hs.not_mem
    | skip hs' hle h =>
      obtain rfl := skip_unique hs hs'
      exact ⟨hle, h⟩
  · rintro ⟨hle, h⟩
    exact .skip hs hle h

end walk

/-! ### The entries -/

section tiles
variable {room : ℕ} {cs cs' : List Cell} {cur : EvfsExt} {out : List EvfsExt}

theorem mem_of_swap {mid : List Cell} {c k q : ℕ} (hmid : Keeps cs mid)
    (hold : ∀ i < k, ∃ w, (c + i, q + i, w) ∈ mid) : ∀ i < k, c + i ∈ dom cs := fun i hi => by
  obtain ⟨w, hmem⟩ := hold i hi
  rw [← dom_eq_of_shape (Keeps.shape_eq hmid)]
  exact ⟨_, hmem, rfl⟩

/-- **Entries that tile the request** come from a walk inside it. -/
theorem tiles_walk (h : Run room cs cur cs' out) : cur.logStart + cur.len < 2 ^ 32 →
    cur.len ≤ room → Tiles cur.logStart (cur.logStart + cur.len) out →
    Walk (dom cs) (cur.logStart + cur.len) cur.logStart := by
  have hstop : ∀ {M : Set ℕ} {cur : EvfsExt}, cur.len = 0 →
      Walk M (cur.logStart + cur.len) cur.logStart := fun h0 => by
    rw [h0]
    exact .stop
  induction h with
  | full cs cur => exact fun _ hroom _ => hstop (by omega)
  | stop cs h0 => exact fun _ _ _ => hstop h0
  | @turn room cs cs1 cs' cur rep next out hlen ht hr ih =>
    rintro hend hroom ⟨-, hpos, htl⟩
    have hdom := ht.dom_eq
    cases ht with
    | eof h =>
      rcases h with h | ⟨-, h⟩
      · exact .rest (by omega) h
      · omega
    | @skip j hs hj =>
      rw [of_len hj] at htl
      have hle := htl.le
      have hah : Ahead cur _ j := skip_ahead (by omega) hend
      rw [Walk.skip_iff hs (by omega)]
      refine ⟨hle, ?_⟩
      rw [← hah.log, ← hah.end_eq (by omega)] at htl ⊢
      have hpos := hs.pos
      exact ih (by rw [hah.end_eq (by omega)]; exact hend) (by rw [hah.len]; omega) htl
    | @swap mid k q hk hle hend' hmid hq hold =>
      have hlt32 := cur.len_lt
      rw [of_len (by omega)] at htl
      rw [Walk.run_iff (mem_of_swap hmid hold) (by omega)]
      rcases Nat.lt_or_ge k cur.len with hlt | hge
      · have hah := swap_ahead hlt hend
        rw [← hah.log, ← hah.end_eq hle] at htl ⊢
        rw [← hdom]
        exact ih (by rw [hah.end_eq hle]; exact hend) (by rw [hah.len]; omega) htl
      · obtain rfl : k = cur.len := by omega
        exact .stop

end tiles

/-! ### The physical blocks -/

/-- The physical blocks of the cells. -/
def phys (cs : List Cell) : List ℕ := cs.map fun x => x.2.1

/-- The physical blocks the entries report. -/
def reported (out : List EvfsExt) : List ℕ := out.flatMap fun r => List.range' r.phyStart r.len

/-- Every logical block has one cell. -/
def Functional (cs : List Cell) : Prop := (cs.map Prod.fst).Nodup

theorem functional_of_shape {cs cs' : List Cell} (h : shape cs' = shape cs) (hf : Functional cs) :
    Functional cs' := by
  have hmap : ∀ cs : List Cell, cs.map Prod.fst = (shape cs).map Prod.fst := fun cs => by
    simp [shape, Function.comp_def]
  unfold Functional
  rw [hmap, h, ← hmap]
  exact hf

theorem WellFormed.functional {t : ExtRoot} (h : WellFormed t) : Functional (cells (exts t)) := by
  unfold Functional
  rw [List.Nodup, List.pairwise_map]
  exact h.valid.cells_sorted.imp fun hlt => Nat.ne_of_lt hlt

/-- The physical blocks of a run of cells, in any order. -/
theorem phys_inside {cs : List Cell} (hf : Functional cs) {c k q : ℕ}
    (hold : ∀ i < k, c + i ∈ dom cs) :
    ((cs.filter fun x => decide (c ≤ x.1 ∧ x.1 < c + k)).map fun x => q + (x.1 - c)).Perm
      (List.range' q k) := by
  have hperm : ((cs.filter fun x => decide (c ≤ x.1 ∧ x.1 < c + k)).map Prod.fst).Perm
      (List.range' c k) := by
    rw [List.perm_ext_iff_of_nodup (hf.sublist (List.filter_sublist.map _)) List.nodup_range']
    intro L
    simp only [List.mem_map, List.mem_filter, decide_eq_true_eq, List.mem_range'_1]
    constructor
    · rintro ⟨x, ⟨-, h⟩, rfl⟩
      exact h
    · rintro ⟨h1, h2⟩
      obtain ⟨x, hx, hxL⟩ := hold (L - c) (by omega)
      have hL : x.1 = L := by omega
      exact ⟨x, ⟨hx, by omega⟩, hL⟩
  have hmap := hperm.map fun L => q + (L - c)
  rw [List.map_map] at hmap
  refine hmap.trans (List.Perm.of_eq ?_)
  rw [List.range'_eq_map_range, List.range'_eq_map_range, List.map_map]
  refine List.map_congr_left fun i _ => ?_
  simp only [Function.comp]
  omega

/-- **A swap** exchanges the physical blocks of a run of cells for new ones. -/
theorem phys_swap {cs : List Cell} (hf : Functional cs) {c k q p : ℕ}
    (hold : ∀ i < k, ∃ w, (c + i, q + i, w) ∈ cs) :
    (List.range' q k ++ phys (cs.map (remap c k p))).Perm (List.range' p k ++ phys cs) := by
  have hdom : ∀ i < k, c + i ∈ dom cs := fun i hi => by
    obtain ⟨w, hmem⟩ := hold i hi
    exact ⟨_, hmem, rfl⟩
  -- the cells inside the run and the others, before and after
  have hcut (f : Cell → ℕ) : (cs.map f).Perm
      ((cs.filter fun x => decide (c ≤ x.1 ∧ x.1 < c + k)).map f ++
        (cs.filter fun x => !decide (c ≤ x.1 ∧ x.1 < c + k)).map f) := by
    rw [← List.map_append]
    exact ((List.filter_append_perm _ cs).map f).symm
  have hin : (cs.filter fun x => decide (c ≤ x.1 ∧ x.1 < c + k)).map (fun x => x.2.1) =
      (cs.filter fun x => decide (c ≤ x.1 ∧ x.1 < c + k)).map fun x => q + (x.1 - c) := by
    refine List.map_congr_left fun x hx => ?_
    simp only [List.mem_filter, decide_eq_true_eq] at hx
    obtain ⟨w, hmem⟩ := hold (x.1 - c) (by omega)
    have heq := List.inj_on_of_nodup_map hf hx.1 hmem (by simp only; omega)
    rw [heq]
    simp only
    omega
  have hin' : (cs.filter fun x => decide (c ≤ x.1 ∧ x.1 < c + k)).map
      (fun x => (remap c k p x).2.1) =
      (cs.filter fun x => decide (c ≤ x.1 ∧ x.1 < c + k)).map fun x => p + (x.1 - c) := by
    refine List.map_congr_left fun x hx => ?_
    simp only [List.mem_filter, decide_eq_true_eq] at hx
    obtain ⟨L, v, w⟩ := x
    rw [remap_inside hx.2]
  have hout : (cs.filter fun x => !decide (c ≤ x.1 ∧ x.1 < c + k)).map
      (fun x => (remap c k p x).2.1) =
      (cs.filter fun x => !decide (c ≤ x.1 ∧ x.1 < c + k)).map fun x => x.2.1 := by
    refine List.map_congr_left fun x hx => ?_
    simp only [List.mem_filter, Bool.not_eq_true', decide_eq_false_iff_not] at hx
    obtain ⟨L, v, w⟩ := x
    rw [remap_outside hx.2]
  have hbefore : (phys cs).Perm (List.range' q k ++
      (cs.filter fun x => !decide (c ≤ x.1 ∧ x.1 < c + k)).map fun x => x.2.1) := by
    refine (hcut fun x => x.2.1).trans ?_
    rw [hin]
    exact (phys_inside hf hdom).append_right _
  have hafter : (phys (cs.map (remap c k p))).Perm (List.range' p k ++
      (cs.filter fun x => !decide (c ≤ x.1 ∧ x.1 < c + k)).map fun x => x.2.1) := by
    rw [phys, List.map_map]
    refine (hcut fun x => (remap c k p x).2.1).trans ?_
    rw [hin', hout]
    exact (phys_inside hf hdom).append_right _
  exact ((hafter.append_left _).trans (List.perm_append_comm_assoc _ _ _)).trans
    (hbefore.symm.append_left _)

theorem reported_of {a b k : ℕ} (hb : b < 2 ^ 64) (hk : k < 2 ^ 32) (out : List EvfsExt) :
    reported (EvfsExt.of a b k :: out) = List.range' b k ++ reported out := by
  simp only [reported, List.flatMap_cons, of_phy (a := a) (c := k) hb, of_len (a := a) (b := b) hk]

theorem range_cut {p k n : ℕ} (h : k ≤ n) :
    List.range' p n = List.range' p k ++ List.range' (p + k) (n - k) := by
  rw [List.range'_append_1, Nat.add_sub_cancel' h]

/-- **What a walk inside the request reports.** The entries tile the request; and the blocks reported
with those mapped afterwards are the new blocks with those mapped before. -/
theorem walk_tiles {room : ℕ} {cs cs' : List Cell} {cur : EvfsExt} {out : List EvfsExt}
    (h : Run room cs cur cs' out) : cur.logStart + cur.len < 2 ^ 32 →
    cur.phyStart + cur.len ≤ 2 ^ 48 → Phys48 cs → Functional cs → cur.len ≤ room →
    Walk (dom cs) (cur.logStart + cur.len) cur.logStart →
    Tiles cur.logStart (cur.logStart + cur.len) out ∧
      (reported out ++ phys cs').Perm (List.range' cur.phyStart cur.len ++ phys cs) := by
  have hnil : ∀ {cs : List Cell} {cur : EvfsExt}, cur.len = 0 →
      Tiles cur.logStart (cur.logStart + cur.len) [] ∧
        (reported [] ++ phys cs).Perm (List.range' cur.phyStart cur.len ++ phys cs) := fun h0 => by
    rw [h0]
    exact ⟨rfl, List.Perm.refl _⟩
  induction h with
  | full cs cur => exact fun _ _ _ _ hroom _ => hnil (by omega)
  | stop cs h0 => exact fun _ _ _ _ _ _ => hnil h0
  | @turn room cs cs1 cs' cur rep next out hlen ht hr ih =>
    intro hend hphy h48 hf hroom hwalk
    have hdom := ht.dom_eq
    have hshape := ht.shape_eq
    cases ht with
    | eof h =>
      obtain ⟨rfl, rfl⟩ := Run.of_len_zero hr zero_len
      refine ⟨⟨rfl, by omega, rfl⟩, ?_⟩
      simp [reported]
    | @skip j hs hj =>
      obtain ⟨hle, hwalk'⟩ := (Walk.skip_iff hs (by omega)).mp hwalk
      have hpos := hs.pos
      have hah : Ahead cur _ j := skip_ahead (by omega) hend
      have hadd : add64 cur.phyStart j = cur.phyStart + j := add64_of_lt (by omega)
      have hsum := hah.end_eq (by omega)
      rw [← hah.log, ← hsum] at hwalk'
      obtain ⟨htl, hperm⟩ := ih (by rw [hsum]; exact hend) (by rw [hah.phy, hah.len, hadd]; omega)
        h48 hf (by rw [hah.len]; omega) hwalk'
      rw [hah.phy, hah.len, hadd] at hperm
      refine ⟨⟨of_log cur.log_lt, by rw [of_len hj]; exact hpos, ?_⟩, ?_⟩
      · rw [of_len hj, ← hah.log, ← hsum]
        exact htl
      · rw [reported_of cur.phy_lt hj, range_cut (show j ≤ cur.len by omega), List.append_assoc,
          List.append_assoc]
        exact hperm.append_left _
    | @swap mid k q hk hle hend' hmid hq hold =>
      have hmod : cur.phyStart % 2 ^ 48 = cur.phyStart := Nat.mod_eq_of_lt (by omega)
      obtain rfl := hmid.eq h48
      rw [hmod] at hr ih hdom hshape
      have hlt32 := cur.len_lt
      have hswap := phys_swap hf (p := cur.phyStart) hold
      have hlenk : (EvfsExt.of cur.logStart q k).len = k := of_len (by omega)
      rw [reported_of (by omega) (by omega)]
      rcases Nat.lt_or_ge k cur.len with hlt | hge
      · have hah := swap_ahead hlt hend
        have hadd : add64 cur.phyStart k = cur.phyStart + k := add64_of_lt (by omega)
        have hsum := hah.end_eq hle
        rw [Walk.run_iff (mem_of_swap hmid hold) (by omega), ← hah.log, ← hsum] at hwalk
        obtain ⟨htl, hperm⟩ := ih (by rw [hsum]; exact hend)
          (by rw [hah.phy, hah.len, hadd]; omega) (Phys48.remap h48 (by omega))
          (functional_of_shape hshape hf) (by rw [hah.len]; omega) (by rw [hdom]; exact hwalk)
        rw [hah.phy, hah.len, hadd] at hperm
        refine ⟨⟨of_log cur.log_lt, by omega, ?_⟩, ?_⟩
        · rw [hlenk, ← hah.log, ← hsum]
          exact htl
        · -- the old blocks of the piece leave, the rest of the new range comes in
          rw [range_cut hle, List.append_assoc]
          refine (hperm.append_left _).trans ((List.perm_append_comm_assoc _ _ _).trans ?_)
          refine (hswap.append_left _).trans ?_
          rw [List.append_assoc]
          exact List.perm_append_comm_assoc _ _ _
      · obtain rfl : k = cur.len := by omega
        obtain ⟨rfl, rfl⟩ := Run.of_len_zero hr (by rw [if_neg (by omega)]; rfl)
        refine ⟨⟨of_log cur.log_lt, by omega, ?_⟩, ?_⟩
        · simp only [Tiles, hlenk]
        · simpa [reported] using hswap

/-! ### The report of a move -/

/-- The entries have ascending, disjoint logical ranges that cover exactly `[s, e)`. -/
structure Covers (s e : ℕ) (out : List EvfsExt) : Prop where
  ascending : out.Pairwise fun a b => a.logStart + a.len ≤ b.logStart
  exact : ∀ L, (∃ r ∈ out, r.logStart ≤ L ∧ L < r.logStart + r.len) ↔ s ≤ L ∧ L < e

theorem Run.len_pos {room : ℕ} {cs cs' : List Cell} {cur : EvfsExt} {out : List EvfsExt}
    (h : Run room cs cur cs' out) : ∀ r ∈ out, 0 < r.len := by
  induction h with
  | full => simp
  | stop => simp
  | @turn room cs cs1 cs' cur rep next out hlen ht hr ih =>
    intro r hr'
    rcases List.mem_cons.mp hr' with rfl | hr'
    · cases ht with
      | eof => omega
      | skip hs hj => rw [of_len hj]; exact hs.pos
      | swap hk hle =>
        have := cur.len_lt
        rw [of_len (by omega)]
        exact hk
    · exact ih r hr'

theorem Tiles.covers : ∀ {out : List EvfsExt} {c e : ℕ}, Tiles c e out → Covers c e out
  | [], c, e, h => by
    obtain rfl : c = e := h
    exact ⟨List.Pairwise.nil, fun L => by simp⟩
  | r :: out, c, e, ⟨h1, h2, h⟩ => by
    have hle := h.le
    obtain ⟨hasc, hex⟩ := Tiles.covers h
    refine ⟨List.pairwise_cons.mpr ⟨fun b hb => ?_, hasc⟩, fun L => ?_⟩
    · have := h.log_le b hb
      omega
    · simp only [List.mem_cons, or_and_right, exists_or, exists_eq_left, hex L]
      omega

theorem Covers.tiles : ∀ {out : List EvfsExt} {c e : ℕ}, Covers c e out → c ≤ e →
    (∀ r ∈ out, 0 < r.len) → Tiles c e out
  | [], c, e, h, hle, _ => by
    by_contra hne
    obtain ⟨r, hr, -⟩ := (h.exact c).mpr ⟨Nat.le_refl _, by simp only [Tiles] at hne; omega⟩
    simp at hr
  | r :: out, c, e, h, hle, hpos => by
    have hr := hpos r (by simp)
    obtain ⟨hasc, hrest⟩ := List.pairwise_cons.mp h.ascending
    have hfirst := (h.exact r.logStart).mp ⟨r, by simp, by omega, by omega⟩
    have hlast := (h.exact (r.logStart + r.len - 1)).mp ⟨r, by simp, by omega, by omega⟩
    -- the block `c` is covered, and by no later entry
    have hc : r.logStart = c := by
      obtain ⟨r', hr', h1, -⟩ := (h.exact c).mpr ⟨Nat.le_refl _, by omega⟩
      rcases List.mem_cons.mp hr' with rfl | hr'
      · omega
      · have := hasc r' hr'
        omega
    refine ⟨hc, hr, Covers.tiles ⟨hrest, fun L => ?_⟩ (by omega) fun b hb => hpos b (by simp [hb])⟩
    have hL := h.exact L
    simp only [List.mem_cons, or_and_right, exists_or, exists_eq_left] at hL
    constructor
    · rintro ⟨b, hb, h1, h2⟩
      have := hL.mp (.inr ⟨b, hb, h1, h2⟩)
      have := hasc b hb
      omega
    · rintro ⟨h1, h2⟩
      exact (hL.mpr ⟨by omega, h2⟩).resolve_left (by omega)

/-- Two extents with a hole between them. -/
def oneHole : Inode := leafInode [⟨0, 4, 100⟩, ⟨8, 4, 200⟩] 0

theorem mem_oneHole {x : ℕ} : x ∈ mapped (exts oneHole.tree) ↔ x < 4 ∨ (8 ≤ x ∧ x < 12) := by
  change Mapped [⟨0, 4, 100⟩, ⟨8, 4, 200⟩] x ↔ _
  simp [Mapped, Extent.last, ext4ExtGetActualLen, EXT_INIT_MAX_LEN]

theorem oneHole_skip : Skip (mapped (exts oneHole.tree)) 4 4 := by
  refine ⟨4, 8, ⟨Nat.le_refl _, fun x h1 h2 => ?_, .inl ⟨3, ?_, rfl⟩⟩, ⟨?_, by decide, fun x h1 h2 => ?_⟩,
    rfl⟩
  all_goals
    rw [mem_oneHole]
    omega

theorem oneHole_walk : Walk (mapped (exts oneHole.tree)) 10 2 := by
  have hm : ∀ x, x < 4 ∨ (8 ≤ x ∧ x < 12) → x ∈ mapped (exts oneHole.tree) := fun x => mem_oneHole.mpr
  refine .run (by decide) (hm 2 (by decide)) (.run (by decide) (hm 3 (by decide)) ?_)
  refine .skip oneHole_skip (by decide) ?_
  exact .run (by decide) (hm 8 (by decide)) (.run (by decide) (hm 9 (by decide)) .stop)

end LinuxEvfs.ExtMove.Skips
