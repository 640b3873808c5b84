import LinuxEvfs.Lib.Scan
import LinuxEvfs.Blocks.Counts

/-! # `evfs_fspace_iter`

The next run of free blocks from a block on. The loop goes one block past the end of the file system. A bit stands for a
cluster, and if the end cuts the last cluster the block past it has the bit of blocks before it.

* `FirstRun`: what is asked of a call; `fspaceLoop_out`: what it returns, two scans one behind the other.
* `fspace_iter_iff`: a call is right unless the last cluster is cut and free, and the run reaches it.
* `evfsFspaceIter_overruns`: a run of one block of which the call returns two. -/

namespace LinuxEvfs.Blocks

open Lib.Word Lib.Scan

/-- The block bitmaps that can be read: none behind the last group, and the bits past the last block set. -/
structure BlockMap (geo : Geometry) where
  bitmap : ℕ → Option (ℕ → Bool)
  missing : ∀ group, geo.groupsCount ≤ group → bitmap group = none
  padded : ∀ group bits, bitmap group = some bits → ∀ o < geo.clustersPerGroup,
    geo.blocksCount - geo.firstDataBlock ≤ group * geo.blocksPerGroup + o * geo.ratio → bits o = true
  /-- `s_first_data_block` has 32 bits. -/
  first_lt : geo.firstDataBlock < 2 ^ 32

variable {geo : Geometry} (m : BlockMap geo)

/-- The loop with the variable `b`; `none` while it runs. -/
def fspaceLoop : ℕ → ℕ → ℕ → ℕ → Bool → Option (ℕ × ℕ)
  | 0, _, _, _, _ => none
  | fuel + 1, b, foundStart, foundLength, inFreeExtent =>
    if geo.blocksCount < b then some (foundStart, foundLength)
    else
      let group := (groupNoAndOffset geo b).1
      let offset := (groupNoAndOffset geo b).2
      match m.bitmap group with
      | none =>
        if inFreeExtent then some (foundStart, foundLength)
        else fspaceLoop fuel (add64 b 1) foundStart foundLength inFreeExtent
      | some bits =>
        if bits offset = false then
          fspaceLoop fuel (add64 b 1) (if inFreeExtent then foundStart else b) (add64 foundLength 1) true
        else if inFreeExtent then some (foundStart, foundLength)
        else fspaceLoop fuel (add64 b 1) foundStart foundLength inFreeExtent

/-- `evfs_fspace_iter`: the values of `out.block` and `out.length`. -/
def evfsFspaceIter (fuel start : ℕ) : Option (ℕ × ℕ) := fspaceLoop m fuel start 0 0 false

/-! ### What is asked -/

/-- The group of a block can be read, and the bit of its cluster is clear. -/
def clear (b : ℕ) : Bool :=
  (m.bitmap ((b - geo.firstDataBlock) / geo.blocksPerGroup)).any fun bits =>
    !bits ((b - geo.firstDataBlock) % geo.blocksPerGroup / geo.ratio)

/-- The free blocks of the file system. -/
def Free : Set ℕ := {b | InRange geo b ∧ clear m b = true}

/-- **The first run of free blocks**, or none. -/
def FirstRun (start : ℕ) (r : ℕ × ℕ) : Prop :=
  (r = (0, 0) ∧ ∀ b ∈ Free m, ¬ start ≤ b) ∨
    (IsLeast {b | b ∈ Free m ∧ start ≤ b} r.1 ∧ IsGreatest {l | ∀ i < l, r.1 + i ∈ Free m} r.2 ∧
      r.1 + r.2 ≤ geo.blocksCount)

def SpaceReturns (start : ℕ) (r : ℕ × ℕ) : Prop := ∃ fuel, evfsFspaceIter m fuel start = some r

variable {m} {b start : ℕ} {r : ℕ × ℕ}

/-! ### The loop -/

/-- The number behind the last block fits into 64 bits. -/
theorem blocksCount_lt (m : BlockMap geo) : geo.blocksCount + 1 < 2 ^ 64 := by
  have hfirst := m.first_lt
  have hle : geo.blocksCount - geo.firstDataBlock ≤ geo.groupsCount * geo.blocksPerGroup := by
    have := Nat.lt_div_mul_add (a := geo.blocksCount - geo.firstDataBlock + geo.blocksPerGroup - 1)
      (blocksPerGroup_pos geo)
    unfold Layout.groupsCount
    omega
  have hmul : geo.groupsCount * geo.blocksPerGroup ≤ (2 ^ 32 - 1) * (2 ^ 32 - 1) :=
    Nat.mul_le_mul (Nat.le_sub_one_of_lt geo.groups_lt) (Nat.le_sub_one_of_lt geo.blocks_lt)
  omega

/-- The number of the group does not wrap up to the block past the end. -/
theorem groupNoAndOffset_eq (hfirst : geo.firstDataBlock ≤ b) (hb : b ≤ geo.blocksCount) :
    groupNoAndOffset geo b = ((b - geo.firstDataBlock) / geo.blocksPerGroup,
      (b - geo.firstDataBlock) % geo.blocksPerGroup / geo.ratio) := by
  have hp := blocksPerGroup_pos geo
  have hgroup : (b - geo.firstDataBlock) / geo.blocksPerGroup ≤ geo.groupsCount := by
    unfold Layout.groupsCount
    exact Nat.div_le_div_right (by omega)
  simp only [groupNoAndOffset, sub64_of_le hfirst (hb.trans_lt geo.count_lt),
    Nat.mod_eq_of_lt (hgroup.trans_lt geo.groups_lt)]

/-- One round. -/
theorem fspaceLoop_succ (hfirst : geo.firstDataBlock ≤ b) (hb : b ≤ geo.blocksCount) (fuel foundStart foundLength : ℕ)
    (inFree : Bool) :
    fspaceLoop m (fuel + 1) b foundStart foundLength inFree =
      if clear m b then
        fspaceLoop m fuel (b + 1) (if inFree then foundStart else b) (add64 foundLength 1) true
      else if inFree then some (foundStart, foundLength)
      else fspaceLoop m fuel (b + 1) foundStart foundLength inFree := by
  have hnext : add64 b 1 = b + 1 := add64_of_lt (by have := blocksCount_lt m; omega)
  rw [fspaceLoop, if_neg (Nat.not_lt.mpr hb)]
  simp only [groupNoAndOffset_eq hfirst hb, hnext, clear]
  rcases Option.eq_none_or_eq_some (m.bitmap ((b - geo.firstDataBlock) / geo.blocksPerGroup)) with
    hgroup | ⟨bits, hgroup⟩
  · simp [hgroup]
  · cases hbit : bits ((b - geo.firstDataBlock) % geo.blocksPerGroup / geo.ratio) <;> simp [hgroup, hbit]

/-- The first free block from `b` on, up to the block past the end. -/
def firstFree (m : BlockMap geo) (b : ℕ) : ℕ := scan (clear m) (geo.blocksCount + 1 - b) b

/-- The first block from `b` on that is not free. -/
def runEnd (m : BlockMap geo) (b : ℕ) : ℕ := scan (fun i => !clear m i) (geo.blocksCount + 1 - b) b

theorem firstFree_ok (m : BlockMap geo) (b : ℕ) : ScanOK (clear m) (geo.blocksCount + 1 - b) b (firstFree m b) :=
  scan_ok ..

theorem runEnd_ok (m : BlockMap geo) (b : ℕ) :
    ScanOK (fun i => !clear m i) (geo.blocksCount + 1 - b) b (runEnd m b) := scan_ok ..

/-- **Inside a run** the loop scans for its end. -/
theorem fspaceLoop_in (n : ℕ) : ∀ b foundStart foundLength fuel, geo.firstDataBlock ≤ b →
    b + n = geo.blocksCount + 1 → foundLength ≤ b →
    fspaceLoop m (fuel + 1 + n) b foundStart foundLength true =
      some (foundStart, foundLength + (runEnd m b - b)) := by
  have hlt := blocksCount_lt m
  unfold runEnd
  induction n with
  | zero =>
    intro b foundStart foundLength fuel _ hend _
    rw [Nat.add_zero, fspaceLoop, if_pos (by omega), ← hend, Nat.add_zero, Nat.sub_self, scan, Nat.sub_self,
      Nat.add_zero]
  | succ n ih =>
    intro b foundStart foundLength fuel hfirst hend hlen
    have hn : geo.blocksCount + 1 - b = n + 1 := by omega
    rw [← Nat.add_assoc, fspaceLoop_succ hfirst (by omega), hn]
    cases hclear : clear m b with
    | true =>
      have hge := (scan_ok (fun i => !clear m i) n (b + 1)).ge
      have hn' : geo.blocksCount + 1 - (b + 1) = n := by omega
      rw [scan_succ_of_not (by simp [hclear]), if_pos rfl, if_pos rfl, add64_of_lt (by omega),
        ih (b + 1) foundStart (foundLength + 1) fuel (by omega) (by omega) (by omega), hn']
      congr 2
      omega
    | false =>
      rw [scan_succ_of (by simp [hclear])]
      simp

/-- **Outside** it scans for the first free block. -/
theorem fspaceLoop_out (n : ℕ) : ∀ b fuel, geo.firstDataBlock ≤ b → b + n = geo.blocksCount + 1 →
    fspaceLoop m (fuel + 1 + n) b 0 0 false =
      some (if firstFree m b ≤ geo.blocksCount then (firstFree m b, runEnd m (firstFree m b) - firstFree m b)
        else (0, 0)) := by
  induction n with
  | zero =>
    intro b fuel _ hend
    have hfree : firstFree m b = b := by
      unfold firstFree
      rw [← hend, Nat.add_zero, Nat.sub_self, scan]
    rw [Nat.add_zero, fspaceLoop, if_pos (by omega), hfree, if_neg (by omega)]
  | succ n ih =>
    intro b fuel hfirst hend
    have hn : geo.blocksCount + 1 - b = n + 1 := by omega
    have hn' : geo.blocksCount + 1 - (b + 1) = n := by omega
    rw [← Nat.add_assoc, fspaceLoop_succ hfirst (by omega)]
    cases hclear : clear m b with
    | true =>
      have hge := (scan_ok (fun i => !clear m i) n (b + 1)).ge
      have hfree : firstFree m b = b := by
        unfold firstFree
        rw [hn, scan_succ_of hclear]
      rw [if_pos rfl, if_neg Bool.false_ne_true, add64_of_lt (by decide),
        fspaceLoop_in n _ _ _ _ (by omega) (by omega) (by omega), hfree, if_pos (show b ≤ geo.blocksCount by omega)]
      unfold runEnd
      rw [hn, hn', scan_succ_of_not (by simp [hclear])]
      congr 2
      omega
    | false =>
      have hfree : firstFree m b = firstFree m (b + 1) := by
        unfold firstFree
        rw [hn, hn', scan_succ_of_not hclear]
      rw [if_neg Bool.false_ne_true, if_neg Bool.false_ne_true, hfree]
      exact ih (b + 1) fuel (by omega) (by omega)

/-- A result does not depend on the fuel. -/
theorem fspaceLoop_mono {fuel foundStart foundLength : ℕ} {inFree : Bool}
    (h : fspaceLoop m fuel b foundStart foundLength inFree = some r) (k : ℕ) :
    fspaceLoop m (fuel + k) b foundStart foundLength inFree = some r := by
  induction fuel generalizing b foundStart foundLength inFree with
  | zero => cases h
  | succ fuel ih =>
    rw [Nat.add_right_comm]
    unfold fspaceLoop at h ⊢
    by_cases hend : geo.blocksCount < b
    · rw [if_pos hend] at h ⊢
      exact h
    · rw [if_neg hend] at h ⊢
      dsimp only at h ⊢
      rcases Option.eq_none_or_eq_some (m.bitmap (groupNoAndOffset geo b).1) with hgroup | ⟨bits, hgroup⟩
      all_goals
        simp only [hgroup] at h ⊢
        split_ifs at h ⊢
        all_goals first | exact h | exact ih h

theorem SpaceReturns.unique {r' : ℕ × ℕ} (h : SpaceReturns m start r) (h' : SpaceReturns m start r') : r = r' := by
  obtain ⟨fuel, h⟩ := h
  obtain ⟨fuel', h'⟩ := h'
  have h1 := fspaceLoop_mono h fuel'
  have h2 := fspaceLoop_mono h' fuel
  rw [Nat.add_comm] at h2
  exact Option.some.inj (h1.symm.trans h2)

/-! ### The end of the file system -/

/-- **The end cuts a free cluster.** -/
def CutFree (m : BlockMap geo) : Prop :=
  ¬ geo.ratio ∣ geo.blocksCount - geo.firstDataBlock ∧ clear m geo.blocksCount = true

/-- The calls whose run is the last, and goes up to a cluster cut by the end: all blocks behind a free block are
free. -/
def Overruns (m : BlockMap geo) (start : ℕ) : Prop :=
  start ≤ geo.blocksCount ∧ CutFree m ∧
    ∀ b ∈ Free m, start ≤ b → ∀ b', b ≤ b' → b' < geo.blocksCount → b' ∈ Free m

/-- The block past the end has a bit of its own, which is set, unless it is inside a cluster. -/
theorem cutFree_iff : CutFree m ↔ clear m geo.blocksCount = true := by
  refine ⟨fun h => h.2, fun h => ⟨fun hdvd => ?_, h⟩⟩
  simp only [clear, Option.any_eq_true] at h
  obtain ⟨bits, hgroup, hbit⟩ := h
  generalize hd : geo.blocksCount - geo.firstDataBlock = d at hdvd hgroup hbit
  have hoffset : d % geo.blocksPerGroup / geo.ratio < geo.clustersPerGroup := by
    rw [Nat.div_lt_iff_lt_mul geo.ratio_pos]
    exact Nat.mod_lt _ (blocksPerGroup_pos geo)
  have hcluster : d % geo.blocksPerGroup / geo.ratio * geo.ratio = d % geo.blocksPerGroup :=
    Nat.div_mul_cancel ((Nat.dvd_mod_iff (Nat.dvd_mul_left ..)).mpr hdvd)
  have hset : bits (d % geo.blocksPerGroup / geo.ratio) = true := by
    refine m.padded _ bits hgroup _ hoffset ?_
    rw [hcluster, hd, Nat.mul_comm, Nat.div_add_mod]
  rw [hset] at hbit
  cases hbit

/-! ### The property -/

/-- What a call returns. -/
theorem spaceReturns_scan (hfirst : geo.firstDataBlock ≤ start) (hle : start ≤ geo.blocksCount) :
    SpaceReturns m start (if firstFree m start ≤ geo.blocksCount then
      (firstFree m start, runEnd m (firstFree m start) - firstFree m start) else (0, 0)) :=
  ⟨_, fspaceLoop_out (geo.blocksCount + 1 - start) start 0 hfirst (by omega)⟩

/-- A run that ends before the end is right. -/
theorem firstRun_of_end (hfirst : geo.firstDataBlock ≤ start) (hle : start ≤ geo.blocksCount)
    (hfree : firstFree m start ≤ geo.blocksCount) (hend : runEnd m (firstFree m start) ≤ geo.blocksCount) :
    FirstRun m start (firstFree m start, runEnd m (firstFree m start) - firstFree m start) := by
  have hk := firstFree_ok m start
  have he := runEnd_ok m (firstFree m start)
  generalize firstFree m start = k at *
  generalize runEnd m k = e at *
  have hclear : clear m k = true := hk.hit (by omega)
  have hstop : clear m e = false := by simpa using he.hit (by omega)
  have hge := hk.ge
  have hlt : k < e := by
    refine Nat.lt_of_le_of_ne he.ge fun heq => ?_
    rw [heq, hstop] at hclear
    cases hclear
  refine .inr ⟨⟨⟨⟨⟨by omega, by omega⟩, hclear⟩, hge⟩, fun b hb => ?_⟩,
    ⟨fun i hi => ?_, fun l hl => ?_⟩, by simp only; omega⟩
  · by_contra hb'
    have := hk.before b hb.2 (Nat.not_le.mp hb')
    rw [hb.1.2] at this
    cases this
  · refine ⟨⟨by simp only; omega, by simp only at hi ⊢; omega⟩, ?_⟩
    simpa using he.before (k + i) (by omega) (by simp only at hi; omega)
  · by_contra hl'
    have := (hl (e - k) (Nat.not_le.mp hl')).2
    simp only [Nat.add_sub_of_le hlt.le, hstop] at this
    cases this

/-- The run reaches the block past the end exactly if it overruns. -/
theorem overruns_iff (hfirst : geo.firstDataBlock ≤ start) (hle : start ≤ geo.blocksCount) :
    Overruns m start ↔ firstFree m start ≤ geo.blocksCount ∧ geo.blocksCount < runEnd m (firstFree m start) := by
  have hk := firstFree_ok m start
  have he := runEnd_ok m (firstFree m start)
  generalize firstFree m start = k at *
  generalize runEnd m k = e at *
  have hkge := hk.ge
  have hege := he.ge
  constructor
  · rintro ⟨-, ⟨-, hcut⟩, hall⟩
    have hkle : k ≤ geo.blocksCount := by
      by_contra hgt
      have := hk.before geo.blocksCount hle (by omega)
      rw [hcut] at this
      cases this
    refine ⟨hkle, ?_⟩
    by_contra hstop
    have hclear : clear m e = false := by simpa using he.hit (by omega)
    rcases Nat.eq_or_lt_of_le (Nat.not_lt.mp hstop) with heq | hlt
    · rw [heq, hcut] at hclear
      cases hclear
    · have := (hall k ⟨⟨by omega, by omega⟩, hk.hit (by omega)⟩ hkge e hege hlt).2
      rw [hclear] at this
      cases this
  · rintro ⟨hkle, hend⟩
    have hrun : ∀ b, k ≤ b → b ≤ geo.blocksCount → clear m b = true := fun b hb hb' => by
      simpa using he.before b hb (by omega)
    refine ⟨hle, cutFree_iff.mpr (hrun _ hkle (Nat.le_refl _)), fun b hb hstart b' hbb' hb' => ?_⟩
    have hkb : k ≤ b := by
      by_contra hlt
      have := hk.before b hstart (Nat.not_le.mp hlt)
      rw [hb.2] at this
      cases this
    exact ⟨⟨by omega, hb'⟩, hrun b' (by omega) (by omega)⟩

/-- **Iteration over the free space.** -/
theorem fspace_iter_iff (m : BlockMap geo) (start : ℕ) (hfirst : geo.firstDataBlock ≤ start) :
    (∃ r, SpaceReturns m start r ∧ FirstRun m start r) ↔ ¬ Overruns m start := by
  rcases Nat.lt_or_ge geo.blocksCount start with hgt | hle
  · -- the loop ends at once
    refine iff_of_true ⟨(0, 0), ⟨1, ?_⟩, .inl ⟨rfl, fun b hb hstart => ?_⟩⟩ fun h => absurd h.1 (Nat.not_le.mpr hgt)
    · rw [evfsFspaceIter, fspaceLoop, if_pos hgt]
    · have := hb.1.2
      omega
  have hreturns := spaceReturns_scan (m := m) hfirst hle
  rw [overruns_iff hfirst hle]
  rcases Nat.lt_or_ge geo.blocksCount (firstFree m start) with hnone | hfree
  · rw [if_neg (Nat.not_le.mpr hnone)] at hreturns
    refine iff_of_true ⟨(0, 0), hreturns, .inl ⟨rfl, fun b hb hstart => ?_⟩⟩ fun h => absurd h.1 (Nat.not_le.mpr hnone)
    have hk := firstFree_ok m start
    have := hk.before b hstart (hb.1.2.trans hnone)
    rw [hb.2] at this
    cases this
  rw [if_pos hfree] at hreturns
  constructor
  · rintro ⟨r, hr, hrun⟩ ⟨-, hend⟩
    cases hr.unique hreturns
    rcases hrun with ⟨heq, -⟩ | ⟨-, -, hin⟩
    · have := congrArg Prod.snd heq
      simp only at this
      omega
    · simp only at hin
      omega
  · intro h
    push Not at h
    exact ⟨_, hreturns, firstRun_of_end hfirst hle hfree (h hfree)⟩

/-- Five blocks in clusters of two. -/
def cutGeometry : Geometry :=
  { tinyGeometry (Fin.last 1) false with
    blocksCount := 5
    count_lt := by decide
    blocks_lt := by decide
    groups_lt := by decide }

/-- The first two clusters are in use, and the last, which is cut, is not. -/
def cutMap : BlockMap cutGeometry where
  bitmap group := if group = 0 then some (· != 2) else none
  missing group h := if_neg (Nat.ne_of_gt h)
  padded group bits h o ho hend := by
    split_ifs at h with hgroup
    cases h
    subst hgroup
    revert o
    decide
  first_lt := by decide

/-- **A run past the end.** The blocks 0 to 3 are in use, and block 4 is the last; the call returns two blocks from
block 4 on. -/
theorem evfsFspaceIter_overruns :
    evfsFspaceIter cutMap 7 0 = some (4, 2) ∧ cutGeometry.blocksCount = 5 ∧ ¬ FirstRun cutMap 0 (4, 2) := by
  refine ⟨by decide, rfl, ?_⟩
  rintro (⟨h, -⟩ | ⟨-, -, h⟩)
  · cases h
  · exact absurd h (by decide)

/-- A call from behind the end. -/
theorem fspace_iter_iff_behind :
    cutGeometry.firstDataBlock ≤ 6 ∧ ∃ r, SpaceReturns cutMap 6 r ∧ FirstRun cutMap 6 r :=
  ⟨by decide, (fspace_iter_iff cutMap 6 (by decide)).mpr fun h => absurd h.1 (by decide)⟩

end LinuxEvfs.Blocks
