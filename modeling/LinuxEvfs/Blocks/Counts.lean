import Mathlib.Algebra.Order.BigOperators.Group.Finset
import Mathlib.Algebra.Module.NatInt
import Mathlib.Tactic.Ring
import Mathlib.Tactic.Linarith
import LinuxEvfs.Lib.Runs
import LinuxEvfs.Blocks.Group

/-! # The counts of free clusters

* `Inv`: between the locks the two counts of the file system are behind by the calls in flight.
* `evfsBlocks_consistent`: if every call meets `CallOk` where it takes the group lock, the counts
  are right whenever no call is in flight; a call that does not meet it leaves them wrong.
* `evfsBlockAlloc_miscounts`: an allocation that does not meet it. -/

namespace LinuxEvfs.Blocks

open Finset Lib.Word Lib.Runs

variable {geo : Geometry}

/-! ### The calls in flight -/

/-- What a call in flight has still to add to the per-CPU counter. -/
def Phase.clusters : Phase → ℤ
  | .percpu op => op.delta
  | _ => 0

/-- What it has still to add to the count of the superblock. -/
def Phase.blocks : Phase → ℤ
  | .percpu op => op.delta
  | .super op => op.delta
  | .enter _ _ => 0

/-- What is in flight is on a block of the file system, or has changed a group. -/
def Phase.Fits (geo : Geometry) : Phase → Prop
  | .enter _ bindex => InRange geo bindex
  | _ => geo.ratio = 1

/-- Between the locks. The count of the superblock is the right one modulo `2 ^ 64`: an allocation
may be counted before the release that made it possible. -/
structure Inv (geo : Geometry) (s : State) : Prop where
  groups : ∀ g < geo.groupsCount, (s.groups g).free = clearBits geo (s.groups g).bitmap
  clusters : s.freeClusters + (s.calls.map Phase.clusters).sum = totalFree geo s.groups
  blocks : (s.freeBlocks : ℤ) + (s.calls.map Phase.blocks).sum ≡
    totalFree geo s.groups * geo.ratio [ZMOD 2 ^ 64]
  blocks_lt : s.freeBlocks < 2 ^ 64
  fits : ∀ c ∈ s.calls, c.Fits geo

theorem totalFree_update (geo : Geometry) (groups : ℕ → Group) {g : ℕ} (hg : g < geo.groupsCount)
    (gr : Group) : (totalFree geo (Function.update groups g gr) : ℤ) =
      totalFree geo groups + (gr.free - (groups g).free) := by
  have hmem := mem_range.mpr hg
  unfold totalFree
  rw [← add_sum_erase _ _ hmem, ← add_sum_erase _ (fun g => (groups g).free) hmem,
    Function.update_self]
  have hrest : ∑ x ∈ (range geo.groupsCount).erase g, (Function.update groups g gr x).free =
      ∑ x ∈ (range geo.groupsCount).erase g, (groups x).free :=
    sum_congr rfl fun x hx => by rw [Function.update_of_ne (ne_of_mem_erase hx)]
  rw [hrest]
  push_cast
  ring

theorem totalFree_le {s : State}
    (h : ∀ g < geo.groupsCount, (s.groups g).free = clearBits geo (s.groups g).bitmap) :
    totalFree geo s.groups * geo.ratio < 2 ^ 64 - 1 := by
  have hsum : totalFree geo s.groups ≤ geo.groupsCount * geo.clustersPerGroup := by
    have := sum_le_card_nsmul (range geo.groupsCount) (fun g => (s.groups g).free)
      geo.clustersPerGroup fun g hg => by
        rw [h g (mem_range.mp hg)]
        exact clearBits_le geo _
    rwa [card_range, smul_eq_mul] at this
  have hg := geo.groups_lt
  have hb := geo.blocks_lt
  calc totalFree geo s.groups * geo.ratio
      ≤ geo.groupsCount * geo.clustersPerGroup * geo.ratio := Nat.mul_le_mul_right _ hsum
    _ = geo.groupsCount * geo.blocksPerGroup := Nat.mul_assoc ..
    _ ≤ (2 ^ 32 - 1) * (2 ^ 32 - 1) := Nat.mul_le_mul (by omega) (by omega)
    _ < 2 ^ 64 - 1 := by norm_num

theorem countPercpu_eq (geo : Geometry) (op : Op) (c : ℤ) : countPercpu geo op c = c + op.delta := by
  unfold countPercpu
  rw [numB2C_one]
  cases op <;> rfl

theorem countSuper_lt (op : Op) (n : ℕ) : countSuper op n < 2 ^ 64 := by
  cases op <;> exact Nat.mod_lt _ (by decide)

theorem countSuper_modEq (op : Op) (n : ℕ) :
    (countSuper op n : ℤ) ≡ n + op.delta [ZMOD 2 ^ 64] := by
  unfold Int.ModEq
  cases op <;> simp only [countSuper, sub64, add64, Op.delta] <;> omega

/-! ### Steps -/

theorem sum_replace (f : Phase → ℤ) (l r : List Phase) (c c' : Phase) :
    ((l ++ c' :: r).map f).sum = ((l ++ c :: r).map f).sum + (f c' - f c) := by
  simp only [List.map_append, List.map_cons, List.sum_append, List.sum_cons]
  ring

theorem sum_remove (f : Phase → ℤ) (l r : List Phase) (c : Phase) :
    ((l ++ r).map f).sum = ((l ++ c :: r).map f).sum - f c := by
  simp only [List.map_append, List.map_cons, List.sum_append, List.sum_cons]
  ring

theorem fits_remove {l r : List Phase} {c : Phase} (h : ∀ x ∈ l ++ c :: r, x.Fits geo) :
    ∀ x ∈ l ++ r, x.Fits geo := by
  intro x hx
  refine h x ?_
  rcases List.mem_append.mp hx with hx | hx
  · exact List.mem_append_left _ hx
  · exact List.mem_append_right _ (List.mem_cons_of_mem _ hx)

theorem fits_replace {l r : List Phase} {c c' : Phase} (h : ∀ x ∈ l ++ c :: r, x.Fits geo)
    (hc : c'.Fits geo) : ∀ x ∈ l ++ c' :: r, x.Fits geo := by
  intro x hx
  rcases List.mem_append.mp hx with hx | hx
  · exact h x (List.mem_append_left _ hx)
  rcases List.mem_cons.mp hx with rfl | hx
  · exact hc
  · exact h x (List.mem_append_right _ (List.mem_cons_of_mem _ hx))

theorem fits_mem {s : State} {l r : List Phase} {c : Phase} (h : ∀ x ∈ s.calls, x.Fits geo)
    (hc : s.calls = l ++ c :: r) : c.Fits geo :=
  h c (hc ▸ List.mem_append_right _ (List.mem_cons_self ..))

/-- The condition on a step: a call that takes the group lock keeps the counts of the group. -/
def StepOk (geo : Geometry) (s : State) : Event → Prop
  | .group op bindex => CallOk geo op (groupNoAndOffset geo bindex).1
      (groupNoAndOffset geo bindex).2 (s.groups (groupNoAndOffset geo bindex).1)
  | _ => True

theorem Inv.step {s s' : State} {e : Event} (h : Step geo s e s') (hok : StepOk geo s e)
    (hI : Inv geo s) : Inv geo s' := by
  obtain ⟨hg, hcl, hbl, hlt, hfit⟩ := hI
  cases h with
  | @call op bindex hr =>
    refine ⟨hg, ?_, ?_, hlt, List.forall_mem_cons.mpr ⟨hr, hfit⟩⟩
    · simpa only [List.map_cons, List.sum_cons, Phase.clusters, zero_add] using hcl
    · simpa only [List.map_cons, List.sum_cons, Phase.blocks, zero_add] using hbl
  | @refuse op bindex l r hc hn =>
    rw [hc] at hcl hbl hfit
    refine ⟨hg, ?_, ?_, hlt, fits_remove hfit⟩
    · simpa only [sum_remove _ l r (.enter op bindex), Phase.clusters, sub_zero] using hcl
    · simpa only [sum_remove _ l r (.enter op bindex), Phase.blocks, sub_zero] using hbl
  | @change op bindex gr l r hc hl =>
    have hgl := group_lt (fits_mem hfit hc : InRange geo bindex)
    obtain ⟨hr, hclear, hdelta⟩ := locked_spec (offset_lt geo bindex) (hg _ hgl) hok hl
    have htot := totalFree_update geo s.groups hgl gr
    have hd : (gr.free : ℤ) - (s.groups (groupNoAndOffset geo bindex).1).free = op.delta := by
      linarith
    rw [hd] at htot
    rw [hc] at hcl hbl hfit
    refine ⟨?_, ?_, ?_, hlt, fits_replace hfit hr⟩
    · intro g hg'
      rcases eq_or_ne g (groupNoAndOffset geo bindex).1 with rfl | hne
      · simpa only [Function.update_self] using hclear
      · simpa only [Function.update_of_ne hne] using hg g hg'
    · simp only [htot, sum_replace _ l r (.enter op bindex) (.percpu op), Phase.clusters, sub_zero]
      rw [← add_assoc, hcl]
    · simp only [htot, sum_replace _ l r (.enter op bindex) (.percpu op), Phase.blocks, sub_zero, hr,
        Nat.cast_one, mul_one] at hbl ⊢
      rw [← add_assoc]
      exact hbl.add_right _
  | @percpu op l r hc =>
    have hr : geo.ratio = 1 := fits_mem hfit hc
    rw [hc] at hcl hbl hfit
    refine ⟨hg, ?_, ?_, hlt, fits_replace hfit hr⟩
    · simp only [sum_replace _ l r (.percpu op) (.super op), countPercpu_eq, Phase.clusters]
      linarith
    · simpa only [sum_replace _ l r (.percpu op) (.super op), Phase.blocks, sub_self, add_zero] using hbl
  | @super op l r hc =>
    rw [hc] at hcl hbl hfit
    refine ⟨hg, ?_, ?_, countSuper_lt op _, fits_remove hfit⟩
    · simpa only [sum_remove _ l r (.super op), Phase.clusters, sub_zero] using hcl
    · simp only [sum_remove _ l r (.super op), Phase.blocks]
      refine ((countSuper_modEq op s.freeBlocks).add_right _).trans ?_
      rwa [add_add_sub_cancel]

/-! ### Between the calls -/

theorem Inv.of_consistent {s : State} (h : Consistent geo s) (hq : Quiescent s) : Inv geo s := by
  have hlt := totalFree_le h.groups
  rw [← h.blocks] at hlt
  refine ⟨h.groups, ?_, ?_, by omega, ?_⟩
  · rw [hq]
    simpa using h.clusters
  · rw [hq, h.blocks]
    simp
  · rw [hq]
    exact fun _ hc => absurd hc List.not_mem_nil

theorem Inv.consistent {s : State} (h : Inv geo s) (hq : Quiescent s) : Consistent geo s := by
  have hlt := totalFree_le h.groups
  obtain ⟨hg, hcl, hbl, hb, -⟩ := h
  rw [hq] at hcl hbl
  refine ⟨hg, by simpa using hcl, ?_⟩
  simp only [List.map_nil, List.sum_nil, add_zero, Int.ModEq] at hbl
  have : ((totalFree geo s.groups * geo.ratio : ℕ) : ℤ) = totalFree geo s.groups * geo.ratio :=
    Nat.cast_mul ..
  omega

/-- A call that runs alone is a run. -/
theorem callAlone_run (s : State) (op : Op) {b : ℕ} (hb : InRange geo b) :
    ∃ l, Run (Step geo) s l ∧ (∃ e, (e, callAlone geo op b s) ∈ l) ∧
      (StepOk geo s (.group op b) → Along (StepOk geo) s l) := by
  have hcall : Step geo s (.call op b) _ := .call hb
  unfold callAlone callAt
  cases hl : locked geo op (groupNoAndOffset geo b).1 (groupNoAndOffset geo b).2
      (s.groups (groupNoAndOffset geo b).1) with
  | none =>
    refine ⟨_, .cons hcall (.cons (.refuse (l := []) rfl hl) (.nil _)), ⟨.group op b, ?_⟩, ?_⟩
    · exact List.mem_cons_of_mem _ (List.mem_cons_self ..)
    · exact fun h => ⟨trivial, h, trivial⟩
  | some gr =>
    refine ⟨_, .cons hcall (.cons (.change (l := []) rfl hl) (.cons (.percpu (l := []) rfl)
      (.cons (.super (l := []) rfl) (.nil _)))), ⟨.super op, ?_⟩, ?_⟩
    · simp only [List.nil_append, List.mem_cons, true_or, or_true]
    · exact fun h => ⟨trivial, h, trivial, trivial, trivial⟩

/-- The count of the superblock after a call, if that of the group was positive or the call is a
release. -/
theorem countSuper_of_pos {op : Op} {n : ℕ} (hn : n < 2 ^ 64 - 1) (h : op = .alloc → 0 < n) :
    (countSuper op n : ℤ) = n + op.delta := by
  cases op with
  | alloc =>
    have := h rfl
    simp only [countSuper, Op.delta]
    rw [sub64_of_le (by omega) (by omega)]
    omega
  | free =>
    simp only [countSuper, Op.delta]
    rw [add64_of_lt (by omega)]
    omega

/-- The count of the superblock stays a multiple of the ratio. -/
theorem ratio_one_of_consistent {op : Op} {s s' : State} (h : Consistent geo s)
    (h' : Consistent geo s') (hs : s'.freeBlocks = countSuper op s.freeBlocks)
    (hpos : op = .alloc → 0 < s.freeBlocks) : geo.ratio = 1 := by
  have hlt := totalFree_le h.groups
  rw [← h.blocks] at hlt
  have hc := countSuper_of_pos hlt hpos
  rw [← hs, h'.blocks, h.blocks] at hc
  have hdvd : (geo.ratio : ℤ) ∣ op.delta := by
    have hsub : op.delta = (totalFree geo s'.groups * geo.ratio : ℤ) -
        totalFree geo s.groups * geo.ratio := by
      push_cast at hc
      linarith
    rw [hsub]
    exact Int.dvd_sub (dvd_mul_left _ _) (dvd_mul_left _ _)
  have hunit : (geo.ratio : ℤ) ∣ 1 := by
    cases op with
    | alloc => exact (Int.dvd_neg).mp hdvd
    | free => exact hdvd
  exact Nat.dvd_one.mp (by exact_mod_cast hunit)

/-- A call that keeps the counts meets the condition. -/
theorem callOk_of_consistent {s : State} (h : Consistent geo s) {op : Op} {group offset : ℕ}
    (hgl : group < geo.groupsCount) (hol : offset < geo.clustersPerGroup)
    (h' : Consistent geo (callAt geo op group offset s)) :
    CallOk geo op group offset (s.groups group) := by
  have hg := h.groups _ hgl
  unfold callAt at h'
  cases hl : locked geo op group offset (s.groups group) with
  | none => exact callOk_of_none hl
  | some gr =>
    rw [hl] at h'
    have hpos : op = .alloc → 0 < s.freeBlocks := by
      rintro rfl
      have hset := clearBits_set hol (alloc_bitmap hl).1
      have hle : (s.groups group).free ≤ totalFree geo s.groups :=
        single_le_sum (f := fun g => (s.groups g).free) (fun _ _ => Nat.zero_le _)
          (mem_range.mpr hgl)
      rw [h.blocks]
      exact Nat.mul_pos (by omega) geo.ratio_pos
    have hr : geo.ratio = 1 := ratio_one_of_consistent h h' rfl hpos
    cases op with
    | free => exact Or.inr hr
    | alloc =>
      refine Or.inr ⟨hr, fun hu => ?_⟩
      have hfree := alloc_free hr hol hg hl
      obtain ⟨hbit, hset⟩ := alloc_bitmap hl
      have hclear := clearBits_set hol hbit
      have hgr := h'.groups group hgl
      simp only [Function.update_self] at hgr
      rw [if_pos hu] at hfree
      rw [hset] at hgr
      omega

theorem callAlone_quiescent {s : State} (hq : Quiescent s) (op : Op) (b : ℕ) :
    Quiescent (callAlone geo op b s) := by
  unfold callAlone callAt Quiescent
  split <;> exact hq

/-- **Block accounting.** In every interleaving of calls that meet `CallOk` where they take the
group lock, the counts are right whenever no call is in flight; and a call alone keeps them exactly
if it meets `CallOk`. -/
theorem evfsBlocks_consistent {s : State} (h : Consistent geo s) (hq : Quiescent s) :
    (∀ l, Run (Step geo) s l → Along (StepOk geo) s l →
      ∀ x ∈ l, Quiescent x.2 → Consistent geo x.2) ∧
    ∀ op b, InRange geo b →
      (Consistent geo (callAlone geo op b s) ↔ CallOk geo op (groupNoAndOffset geo b).1
        (groupNoAndOffset geo b).2 (s.groups (groupNoAndOffset geo b).1)) := by
  have hrun : ∀ l, Run (Step geo) s l → Along (StepOk geo) s l →
      ∀ x ∈ l, Quiescent x.2 → Consistent geo x.2 := fun l hr hok x hx =>
    (hr.invariant (P := StepOk geo) (I := Inv geo) Inv.step (.of_consistent h hq) hok x hx).consistent
  refine ⟨hrun, fun op b hb => ⟨callOk_of_consistent h (group_lt hb) (offset_lt geo b), fun hok => ?_⟩⟩
  obtain ⟨l, hl, ⟨e, he⟩, hal⟩ := callAlone_run s op hb
  exact hrun l hl (hal hok) _ he (callAlone_quiescent hq op b)

/-! ### A file system of one group -/

/-- Four clusters, the first of them metadata. -/
def tinyGeometry (bits : Fin 2) (csum : Bool) : Geometry where
  firstDataBlock := 0
  blocksCount := 4 * 2 ^ bits.val
  clustersPerGroup := 4
  clusterBits := bits
  countWidth := 16
  groupDescCsum := csum
  freeClustersAfterInit _ := 3
  afterInit_le _ := by decide
  clusters_pos := by decide
  clusters_lt := by decide
  width_le := by decide
  count_lt := by decide +revert
  blocks_lt := by decide +revert
  groups_lt := by decide +revert

/-- Nothing is allocated but the metadata. -/
def freshState (bits : Fin 2) (uninit : Bool) : State where
  groups _ := { bitmap := (· == 0), free := 3, blockUninit := uninit }
  freeClusters := 3
  freeBlocks := 3 * 2 ^ bits.val
  calls := []

theorem freshState_consistent (bits : Fin 2) (csum uninit : Bool) :
    Consistent (tinyGeometry bits csum) (freshState bits uninit) := by
  have hn : (tinyGeometry bits csum).groupsCount = 1 := by revert bits csum; decide
  refine ⟨fun g _ => ?_, ?_, ?_⟩
  · change 3 = clearBits _ _
    unfold clearBits
    change 3 = #{i ∈ range 4 | (i == 0) = false}
    decide
  · unfold totalFree
    rw [hn]
    rfl
  · unfold totalFree
    rw [hn, sum_range_one]
    rfl

theorem exists_miscount {s : State} (hq : Quiescent s) (op : Op) (b : ℕ) (hb : InRange geo b)
    (h : ¬ Consistent geo (callAlone geo op b s)) :
    ∃ l, Run (Step geo) s l ∧ ∃ x ∈ l, Quiescent x.2 ∧ ¬ Consistent geo x.2 := by
  obtain ⟨l, hl, ⟨e, he⟩, -⟩ := callAlone_run s op hb
  exact ⟨l, hl, _, he, callAlone_quiescent hq op b, h⟩

/-- **Wrong counts.** With two blocks to a cluster, and in a group that was not initialised yet,
allocating block 2 leaves a count of three where two bits are clear. -/
theorem evfsBlockAlloc_miscounts :
    (Consistent (tinyGeometry 1 false) (freshState 1 false) ∧
      ∃ l, Run (Step (tinyGeometry 1 false)) (freshState 1 false) l ∧
        ∃ x ∈ l, Quiescent x.2 ∧ ¬ Consistent (tinyGeometry 1 false) x.2) ∧
    (Consistent (tinyGeometry 0 true) (freshState 0 true) ∧
      ∃ l, Run (Step (tinyGeometry 0 true)) (freshState 0 true) l ∧
        ∃ x ∈ l, Quiescent x.2 ∧ ¬ Consistent (tinyGeometry 0 true) x.2) := by
  refine ⟨⟨freshState_consistent .., exists_miscount rfl .alloc 2 (by decide) ?_⟩,
    ⟨freshState_consistent .., exists_miscount rfl .alloc 2 (by decide) ?_⟩⟩
  · intro h
    exact absurd (h.groups 0 (by decide)) (by decide)
  · intro h
    exact absurd (h.groups 0 (by decide)) (by decide)

/-- Allocating block 2 where a cluster is a block. -/
theorem evfsBlocks_consistent_fresh :
    Consistent (tinyGeometry 0 true)
      (callAlone (tinyGeometry 0 true) .alloc 2 (freshState 0 false)) :=
  ((evfsBlocks_consistent (freshState_consistent 0 true false) rfl).2 .alloc 2 (by decide)).mpr
    (Or.inr ⟨by decide, fun h => absurd h (by decide)⟩)

end LinuxEvfs.Blocks
