import LinuxEvfs.Unwritten.SplitAt

/-! # Splitting a range out of an extent

`ext4_split_extent` splits at the end of the range and then at its start.

* `Confined`: outside of the extent nothing changes, in it the blocks around the range read as before, and no block of
  the range is zeroed. There is one exception, `Stale`: the split at the end has made the whole extent written, and
  zeroed what stands behind the range but not what stands before it.
* `Stays`: a range that is to stay unwritten does so if the splits find space.
* `splitExtent_spec`: this is all that can happen, for every answer of the calls. -/

namespace LinuxEvfs.Unwritten.SplitExtent

open LinuxEvfs.Errno LinuxEvfs.Lib.Word LinuxEvfs.Lib.IndexTree
open LinuxEvfs.ExtTree.Basic LinuxEvfs.ExtTree.Cells LinuxEvfs.ExtTree.Tree
open LinuxEvfs.ExtTree.Split (restores)
open LinuxEvfs.Unwritten.View LinuxEvfs.Unwritten.Model LinuxEvfs.Unwritten.SplitAt

variable {α : Type} {f f' : File α} {e : Extent} {l r : List Extent} {lo hi lblk len : ℕ} {fl : SplitFlag}
  {g : ℕ → Bool → Bool} {z : ℕ → Bool}

/-! ### What may change -/

/-- The changes of the states and contents around the blocks `[lo, hi)` of an extent. -/
structure Confined (e : Extent) (lo hi : ℕ) (stale : Prop) (g : ℕ → Bool → Bool) (z : ℕ → Bool) : Prop where
  outside : ∀ L w, ¬ (e.eeBlock ≤ L ∧ L < e.last) → g L w = w ∧ z L = false
  quiet : ∀ L, e.eeBlock ≤ L → L < e.last → ¬ (lo ≤ L ∧ L < hi) → (stale → lo ≤ L) → Quiet g z L (ext4ExtIsUnwritten e)
  inside : ∀ L, lo ≤ L → L < hi → z L = false ∧ (ext4ExtIsUnwritten e = false → g L false = false)
  exposed : stale → ∀ L, e.eeBlock ≤ L → L < lo → g L (ext4ExtIsUnwritten e) = false ∧ z L = false

/-- What a split that succeeds has done to the range. -/
structure Done (fl : SplitFlag) (e : Extent) (lo hi : ℕ) (preIo : Bool) (t : ExtRoot) (g : ℕ → Bool → Bool) : Prop where
  states : fl.markUnwrit2 = false → ∀ L, lo ≤ L → L < hi → g L (ext4ExtIsUnwritten e) = false
  shape : preIo = true → (∃ l b r, exts t = l ++ b :: r ∧ b.eeBlock = lo ∧ b.last = hi) ∨
    fl.mayZeroout = true ∧ ∀ L, lo ≤ L → L < hi → g L (ext4ExtIsUnwritten e) = false

/-- No insertion fails for want of space or memory, so that nothing is zeroed. -/
def Roomy (ans : SplitAns) : Prop := ∀ err inserted, ans.insert = some (err, inserted) → restores err = false

theorem Roomy.not_zeroes {ans : SplitAns} {x : ℕ} (h : Roomy ans) : ¬ Zeroes ans fl e x := fun hz => by
  obtain ⟨err, inserted, hi, hres⟩ := hz.insert
  rw [h err inserted hi] at hres
  cases hres

/-- Where the splits are to leave the range unwritten and find space, they do so. -/
def Stays (fl : SplitFlag) (e : Extent) (lo hi : ℕ) (roomy : Prop) (g : ℕ → Bool → Bool) : Prop :=
  fl.markUnwrit2 = true → ext4ExtIsUnwritten e = true → roomy → ∀ L, lo ≤ L → L < hi → g L true = true

/-- The split at the end of the range zeroes, and the range does not start with the extent. -/
def Stale (env : SplitEnv) (fl : SplitFlag) (e : Extent) (lblk len : ℕ) : Prop :=
  e.eeBlock < lblk ∧ lblk + len < e.last ∧ Zeroes env.first fl e (lblk + len)

/-- The state of a block of the extent. -/
theorem Sound.state_inside {L p : ℕ} {w : Bool} (h : Sound f) (hex : exts f.tree = l ++ e :: r)
    (hL : e.eeBlock ≤ L ∧ L < e.last) (hm : f.map L = some (p, w)) : ext4ExtIsUnwritten e = w :=
  (Prod.mk.inj (Option.some.inj ((h.map_inside hex hL).symm.trans hm))).2

/-- A block in its state, with nothing done to it. -/
theorem quiet_of_same {L : ℕ} {w : Bool} (hg : g L w = w) (hz : z L = false) : Quiet g z L w := by
  cases w with
  | true => exact .inl hg
  | false => exact ⟨hg, hz⟩

/-- The lookup finds the extent that holds the block. -/
theorem find_covering {t : ExtRoot} (hw : WellFormed t) (hex : exts t = l ++ e :: r) {L : ℕ} (h1 : e.eeBlock ≤ L)
    (h2 : L < e.last) : At t.1 t.2 (ext4FindExtent t L) l (some e) r := by
  refine search_eq hw.indexed hw.sorted hex (fun a ha => ?_) (.inl h1)
  have hv : ValidMap (l ++ e :: r) := hex ▸ hw.valid
  exact h2.trans_le ((validMap_cons.mp (validMap_append.mp hv).2.1).2.2 a ha)

/-- The extent that holds a mapped block. -/
theorem exists_extent (h : Sound f) {L p : ℕ} {w : Bool} (hm : f.map L = some (p, w)) :
    ∃ l e r, exts f.tree = l ++ e :: r ∧ e.eeBlock ≤ L ∧ L < e.last ∧ ext4ExtIsUnwritten e = w := by
  rw [File.map, blockMap_eq_some h.wf.valid, mem_cells] at hm
  obtain ⟨e, he, h1, h2, -, hw⟩ := hm
  obtain ⟨l, r, hex⟩ := List.append_of_mem he
  exact ⟨l, e, r, hex, h1, h2, hw.symm⟩

section reads
variable [Zero α] {L : ℕ} (h : Sound f) (hex : exts f.tree = l ++ e :: r) (hc : Changes g z f f')
include h hex hc

/-- A block reads as before that is quiet if it is one of the extent. -/
theorem view_around (hout : ∀ w, ¬ (e.eeBlock ≤ L ∧ L < e.last) → g L w = w ∧ z L = false)
    (hq : e.eeBlock ≤ L → L < e.last → Quiet g z L (ext4ExtIsUnwritten e)) : view f' L = view f L := by
  refine hc.view_eq fun p w hm => ?_
  by_cases hL : e.eeBlock ≤ L ∧ L < e.last
  · rw [← Sound.state_inside h hex hL hm]
    exact hq hL.1 hL.2
  · exact quiet_of_same (hout w hL).1 (hout w hL).2

/-- A block of an unwritten extent that has become written and was not zeroed reads as the device. -/
theorem view_device (hw : ext4ExtIsUnwritten e = true) (hL : e.eeBlock ≤ L) (hL' : L < e.last) (hg : g L true = false)
    (hz : z L = false) : view f' L = f.disk (e.eeStart + (L - e.eeBlock)) :=
  hc.view_written (by rw [h.map_inside hex ⟨hL, hL'⟩, hw]) hg hz

end reads

/-! ### The split at the start of the range -/

section second
variable [Zero α] {env : SplitEnv} {preIo : Bool} {eeBlock : ℕ}

/-- The flags of the second split. -/
def flags2 (fl : SplitFlag) (w : Bool) : SplitFlag := ⟨w && fl.mayZeroout, w, w && fl.markUnwrit2, false, fl.dataValid2⟩

/-- What the ends of the second split come to. -/
theorem SplitEnd.second {ret : Option Errno} (h : Sound f) (hex : exts f.tree = l ++ e :: r) (h1 : e.eeBlock ≤ lo)
    (h2 : lo < e.last) (hvalid : fl.mayZeroout = true → fl.dataValid2 = true)
    (hend : SplitEnd env.second f l e r lo (flags2 fl (ext4ExtIsUnwritten e)) preIo f' ret) :
    ∃ g z, Changes g z f f' ∧ Confined e lo e.last False g z ∧ (ret = none → Done fl e lo e.last preIo f'.tree g) ∧
      Stays fl e lo e.last (Roomy env.second) g := by
  cases hend with
  | split hz hc hcut =>
    refine ⟨put lo e.last (ext4ExtIsUnwritten e && fl.markUnwrit2), fun _ => false,
      hc.congr fun L p w hm => ⟨?_, rfl⟩, ⟨fun L w hL => ⟨?_, rfl⟩, fun L _ hL hnot _ => ?_, fun L hL hL' => ⟨rfl, ?_⟩, by simp⟩,
      fun _ => ⟨fun hu L hL hL' => ?_, fun hpre => .inl ?_⟩, fun hu hw _ L hL hL' => ?_⟩
    · unfold put halves flags2
      by_cases hL : e.eeBlock ≤ L ∧ L < e.last
      · have hw := Sound.state_inside h hex hL hm
        split_ifs <;> first | rfl | omega | exact hw.symm
      · rw [if_neg (by omega), if_neg hL]
    · exact if_neg (by omega)
    · exact quiet_of_same (if_neg (by omega)) rfl
    · intro hw
      rw [put, if_pos ⟨hL, hL'⟩, hw]
      rfl
    · rw [put, if_pos ⟨hL, hL'⟩, hu, Bool.and_false]
    · rcases hcut hpre with ⟨b, hx, hexb, hb⟩ | ⟨a, b, hexb, ha, hb⟩
      · exact ⟨l, b, r, hexb, hb.block.trans hx, hb.last⟩
      · exact ⟨l ++ [a], b, r, by simpa using hexb, hb.block, hb.last⟩
    · rw [put, if_pos ⟨hL, hL'⟩, hu, hw]
      rfl
  | zeroed hz hc =>
    obtain ⟨hw, hmay⟩ : ext4ExtIsUnwritten e = true ∧ fl.mayZeroout = true := by
      have := hz.may
      simpa [flags2] using this
    have hrange : zeroRange (flags2 fl (ext4ExtIsUnwritten e)) e lo = (e.eeBlock, lo) := by
      simp [zeroRange, flags2, hvalid hmay]
    rw [hrange] at hc
    have hset : ∀ L, env.second.zero.set e.eeBlock lo L = decide (e.eeBlock ≤ L ∧ L < lo) := fun L => by
      simp [ZeroOut.set, hz.zero]
    refine ⟨_, _, hc, ⟨fun L w hL => ⟨if_neg hL, ?_⟩, fun L hL hL' hnot _ => ?_, fun L hL hL' => ⟨?_, fun h0 => ?_⟩, by simp⟩,
      fun _ => ⟨fun _ L hL hL' => if_pos ⟨by omega, hL'⟩, fun _ => .inr ⟨hmay, fun L hL hL' => if_pos ⟨by omega, hL'⟩⟩⟩,
      fun _ _ hroom => absurd hz hroom.not_zeroes⟩
    · rw [hset, decide_eq_false_iff_not]
      omega
    · rw [hw]
      refine .inr ?_
      rw [hset, decide_eq_true_iff]
      omega
    · rw [hset, decide_eq_false_iff_not]
      omega
    · rw [hw] at h0
      cases h0
  | kept hz hret z hc hmay =>
    have hzero : ∀ L, z L = true → ext4ExtIsUnwritten e = true ∧ e.eeBlock ≤ L ∧ L < lo := by
      intro L hL
      obtain ⟨hm, hr1, hr2⟩ := hmay L hL
      obtain ⟨hw, hmay⟩ : ext4ExtIsUnwritten e = true ∧ fl.mayZeroout = true := by simpa [flags2] using hm
      have hrange : zeroRange (flags2 fl (ext4ExtIsUnwritten e)) e lo = (e.eeBlock, lo) := by
        simp [zeroRange, flags2, hvalid hmay]
      rw [hrange] at hr1 hr2
      exact ⟨hw, hr1, hr2⟩
    refine ⟨_, z, hc, ⟨fun L w hL => ⟨rfl, ?_⟩, fun L hL hL' hnot _ => ?_, fun L hL hL' => ⟨?_, fun _ => rfl⟩, by simp⟩,
      fun h0 => absurd h0 hret, fun _ _ _ _ _ _ => rfl⟩
    · rw [← Bool.not_eq_true]
      exact fun hL' => hL ⟨(hzero L hL').2.1, (hzero L hL').2.2.trans h2⟩
    · cases hw : ext4ExtIsUnwritten e with
      | true => exact .inl rfl
      | false =>
        refine ⟨rfl, ?_⟩
        rw [← Bool.not_eq_true]
        intro hL''
        have := (hzero L hL'').1
        rw [hw] at this
        cases this
    · rw [← Bool.not_eq_true]
      intro hL''
      have := (hzero L hL'').2.2
      omega

theorem splitSecond_spec (blocksize : ℕ) (env : SplitEnv) (allocated : ℕ) (preIo : Bool) (h : Sound f)
    (hex : exts f.tree = l ++ e :: r) (h1 : e.eeBlock ≤ lo) (h2 : lo < e.last)
    (hvalid : fl.mayZeroout = true → fl.dataValid2 = true) (hclean : Clean env.second)
    (hb : eeBlock ≤ lo) :
    ∃ f' ret g z, splitSecond blocksize env f eeBlock lo allocated fl preIo = some (f', ret) ∧ Changes g z f f' ∧
      Confined e lo e.last False g z ∧ (∀ n, ret = .ok n → n = allocated ∧ Done fl e lo e.last preIo f'.tree g) ∧
      Stays fl e lo e.last (Roomy env.second) g := by
  have hat := find_covering h.wf hex h1 h2
  have hget : pExt f.tree (ext4FindExtent f.tree lo) = some e := hat.item_eq
  unfold splitSecond
  cases env.find with
  | some err =>
    exact ⟨f, _, _, _, rfl, .refl h, ⟨fun _ _ _ => ⟨rfl, rfl⟩, fun _ _ _ _ _ => quiet_of_same rfl rfl,
      fun _ _ _ => ⟨rfl, fun _ => rfl⟩, by simp⟩, by simp, fun _ _ _ _ _ _ => rfl⟩
  | none =>
    have hflags : Flags (flags2 fl (ext4ExtIsUnwritten e)) e := fun hw => by simp [flags2, hw]
    obtain ⟨f', ret, hrun, hend⟩ := splitAt_end blocksize env.second preIo h hat h1 h2
      (by simp [flags2]) hflags hclean
    obtain ⟨g, z, hc, hconf, hdone, hstay⟩ := SplitEnd.second h hex h1 h2 hvalid hend
    unfold flags2 at hrun
    simp only [hget, if_pos hb, hrun]
    cases ret with
    | some err => exact ⟨f', _, g, z, rfl, hc, hconf, by simp, hstay⟩
    | none =>
      refine ⟨f', _, g, z, rfl, hc, hconf, fun n hn => ?_, hstay⟩
      cases hn
      exact ⟨rfl, hdone rfl⟩

end second

/-! ### Both splits -/

section both
variable [Zero α] {env : SplitEnv} {preIo : Bool} {path : Path f.tree.1}

/-- The flags of the first split. -/
def flags1 (fl : SplitFlag) (w : Bool) : SplitFlag := ⟨fl.mayZeroout, w, w, fl.dataValid2, false⟩

theorem zeroes_flags1 {ans : SplitAns} {w : Bool} {x : ℕ} : Zeroes ans (flags1 fl w) e x ↔ Zeroes ans fl e x :=
  ⟨fun h => ⟨h.may, h.inner, h.access, h.dirty, h.insert, h.zero⟩,
    fun h => ⟨h.may, h.inner, h.access, h.dirty, h.insert, h.zero⟩⟩

/-- The range at the end of a piece that starts with the extent. -/
theorem Confined.of_piece {e' : Extent} {stale : Prop} (h : Confined e' lo e'.last False g z) (hb : e'.eeBlock = e.eeBlock)
    (hl : e'.last ≤ e.last) (hs : ext4ExtIsUnwritten e' = ext4ExtIsUnwritten e) (hns : ¬ stale) :
    Confined e lo e'.last stale g z := by
  refine ⟨fun L w hL => h.outside L w (by omega), fun L hL hL' hnot _ => ?_, fun L hL hL' => hs ▸ h.inside L hL hL',
    fun h => absurd h hns⟩
  by_cases hin : L < e'.last
  · exact hs ▸ h.quiet L (by omega) hin hnot (by simp)
  · obtain ⟨h1, h2⟩ := h.outside L (ext4ExtIsUnwritten e) (by omega)
    exact quiet_of_same h1 h2

/-- Behind a split at the end that has made the whole extent written, the one at the start changes nothing more. -/
theorem Changes.second_written {g' : ℕ → Bool → Bool} {z' : ℕ → Bool} {f'' : File α} (h : Sound f')
    (hex : exts f'.tree = l ++ e :: r) (hw : ext4ExtIsUnwritten e = false) (hc : Changes g z f f') (hc' : Changes g' z' f' f'')
    (hconf : Confined e lo e.last False g' z') : Changes g z f f'' := by
  refine (hc.trans hc').congr fun L p w hm => ?_
  have hm' : f'.map L = some (p, g L w) := by rw [hc.map, hm]; rfl
  have hsame : g' L (g L w) = g L w ∧ z' L = false := by
    by_cases hL : e.eeBlock ≤ L ∧ L < e.last
    · rw [← Sound.state_inside h hex hL hm', hw]
      by_cases hlo : lo ≤ L
      · obtain ⟨h1, h2⟩ := hconf.inside L hlo hL.2
        exact ⟨h2 hw, h1⟩
      · have hq := hconf.quiet L hL.1 hL.2 (by omega) (by simp)
        rw [hw] at hq
        exact hq
    · exact hconf.outside L _ hL
  rw [hsame.1, hsame.2, Bool.or_false]
  exact ⟨rfl, rfl⟩

/-- The whole extent written and what is behind the range zeroed: the blocks before it are exposed. -/
theorem confined_zeroed {ans : ZeroOut} {s : Prop} (h1 : e.eeBlock ≤ lo) (hlo : lo ≤ hi) (hhi : hi ≤ e.last)
    (hz : ans.err = none) (hw : ext4ExtIsUnwritten e = true) (hs : s ↔ e.eeBlock < lo) :
    Confined e lo hi s (put e.eeBlock e.last false) (ans.set hi e.last) := by
  have hset : ∀ L, ans.set hi e.last L = decide (hi ≤ L ∧ L < e.last) := fun L => by simp [ZeroOut.set, hz]
  refine ⟨fun L w hL => ⟨if_neg hL, ?_⟩, fun L hL hL' hnot hst => ?_, fun L hL hL' => ⟨?_, fun h0 => ?_⟩,
    fun _ L hL hL' => ⟨if_pos ⟨hL, by omega⟩, ?_⟩⟩
  · rw [hset, decide_eq_false_iff_not]
    omega
  · rw [hw]
    refine .inr ?_
    rw [hset, decide_eq_true_iff]
    by_cases hb : e.eeBlock < lo
    · have := hst (hs.mpr hb)
      omega
    · omega
  · rw [hset, decide_eq_false_iff_not]
    omega
  · rw [hw] at h0
    cases h0
  · rw [hset, decide_eq_false_iff_not]
    omega

/-- The states as they were, with zeroed blocks behind the range. -/
theorem confined_kept {stale : Prop} (h1 : e.eeBlock ≤ hi) (hns : ¬ stale)
    (hz : ∀ L, z L = true → ext4ExtIsUnwritten e = true ∧ hi ≤ L ∧ L < e.last) : Confined e lo hi stale (fun _ w => w) z := by
  have hfalse : ∀ L, ¬ (hi ≤ L ∧ L < e.last) → z L = false := fun L hL => by
    rw [← Bool.not_eq_true]
    exact fun h => hL (hz L h).2
  refine ⟨fun L w hL => ⟨rfl, hfalse L (by omega)⟩, fun L _ _ _ _ => ?_, fun L _ hL' => ⟨hfalse L (by omega), fun _ => rfl⟩,
    fun h => absurd h hns⟩
  cases hw : ext4ExtIsUnwritten e with
  | true => exact .inl rfl
  | false =>
    refine ⟨rfl, ?_⟩
    rw [← Bool.not_eq_true]
    intro hL
    have := (hz L hL).1
    rw [hw] at this
    cases this

/-- How `ext4_split_extent` ends. -/
structure Ends (env : SplitEnv) (fl : SplitFlag) (e : Extent) (lblk len : ℕ) (preIo : Bool) (f f' : File α)
    (ret : Except Errno ℕ) (g : ℕ → Bool → Bool) (z : ℕ → Bool) : Prop where
  changes : Changes g z f f'
  confined : Confined e lblk (min (lblk + len) e.last) (Stale env fl e lblk len) g z
  done : ∀ n, ret = .ok n → n = min (lblk + len) e.last - lblk ∧
    Done fl e lblk (min (lblk + len) e.last) preIo f'.tree g
  stays : Stays fl e lblk (min (lblk + len) e.last) (Roomy env.first ∧ Roomy env.second) g

section ends
variable (blocksize : ℕ) (env : SplitEnv) (preIo : Bool) {f₁ : File α} (h1 : e.eeBlock ≤ lblk)
  (hin : lblk + len < e.last) (hv2 : fl.mayZeroout = true → fl.dataValid2 = true) (hclean : Clean env.second)
include h1 hin hv2 hclean

/-- The split at the start behind one at the end that has cut the extent. -/
theorem ends_of_cut {a : Extent} {r' : List Extent} (hlen : 0 < len) (hns : ¬ Stale env fl e lblk len)
    (hc₁ : Changes (fun _ w => w) (fun _ => false) f f₁) (hexa : exts f₁.tree = l ++ a :: r')
    (ha : Piece e a e.eeBlock (lblk + len) (ext4ExtIsUnwritten e)) :
    ∃ f' ret g z, splitSecond blocksize env f₁ e.eeBlock lblk len fl preIo = some (f', ret) ∧
      Ends env fl e lblk len preIo f f' ret g z := by
  have hlast : a.last = lblk + len := ha.last
  have hst : ext4ExtIsUnwritten a = ext4ExtIsUnwritten e := ha.state
  obtain ⟨f', ret, g, z, hrun, hc, hconf, hdone, hstay⟩ := splitSecond_spec blocksize env len preIo hc₁.sound hexa
    (ha.block.trans_le h1) (by omega) hv2 hclean h1
  rw [hlast] at hstay
  have hmin : min (lblk + len) e.last = lblk + len := Nat.min_eq_left hin.le
  refine ⟨f', ret, g, z, hrun, (hc₁.trans hc).congr fun L p w _ => ⟨rfl, rfl⟩, ?_, fun n hn => ?_, fun hu hw hr => ?_⟩
  · rw [hmin]
    exact hlast ▸ hconf.of_piece ha.block (hlast.trans_le hin.le) hst hns
  · obtain ⟨hn', hd⟩ := hdone n hn
    rw [hlast] at hd
    rw [hmin]
    exact ⟨by omega, fun hu => hst ▸ hd.states hu, fun hp => hst ▸ hd.shape hp⟩
  · rw [hmin]
    exact hstay hu (hst.trans hw) hr.2

/-- The split at the start behind one at the end that has zeroed. -/
theorem ends_of_zeroed (h : Sound f) (hex : exts f.tree = l ++ e :: r) (hw : ext4ExtIsUnwritten e = true)
    (hz : Zeroes env.first fl e (lblk + len))
    (hc : Changes (put e.eeBlock e.last false) (env.first.zero.set (lblk + len) e.last) f f₁) :
    ∃ f' ret g z, splitSecond blocksize env f₁ e.eeBlock lblk len fl preIo = some (f', ret) ∧
      Ends env fl e lblk len preIo f f' ret g z := by
  have hmin : min (lblk + len) e.last = lblk + len := Nat.min_eq_left hin.le
  have hm : f₁.map lblk = some (e.eeStart + (lblk - e.eeBlock), false) := by
    rw [hc.map, h.map_inside hex ⟨h1, by omega⟩, Option.map_some, put, if_pos ⟨h1, by omega⟩]
  obtain ⟨l₁, e₁, r₁, hex₁, hb₁, hl₁, hw₁⟩ := exists_extent hc.sound hm
  obtain ⟨f', ret, g, z, hrun, hc', hconf, hdone, -⟩ :=
    splitSecond_spec blocksize env len preIo hc.sound hex₁ hb₁ hl₁ hv2 hclean h1
  refine ⟨f', ret, _, _, hrun, Changes.second_written hc.sound hex₁ hw₁ hc hc' hconf, ?_, fun n hn => ⟨?_, ?_⟩,
    fun _ _ hr => absurd hz hr.1.not_zeroes⟩
  · rw [hmin]
    exact confined_zeroed h1 (Nat.le_add_right lblk len) hin.le hz.zero hw
      ⟨fun hs => hs.1, fun hlt => ⟨hlt, hin, hz⟩⟩
  · have := (hdone n hn).1
    omega
  · exact ⟨fun _ L hL hL' => if_pos ⟨by omega, by omega⟩,
      fun _ => .inr ⟨hz.may, fun L hL hL' => if_pos ⟨by omega, by omega⟩⟩⟩

end ends

/-- **Every result** of `ext4_split_extent`. -/
theorem splitExtent_spec (blocksize : ℕ) (env : SplitEnv) (lblk len : ℕ) (fl : SplitFlag) (preIo : Bool) (h : Sound f)
    (hat : At f.tree.1 f.tree.2 path l (some e) r)
    (h1 : e.eeBlock ≤ lblk) (h2 : lblk < e.last) (hlen : 0 < len) (hmax : lblk + len < 2 ^ 32)
    (hvalid : fl.mayZeroout = true → fl.dataValid2 = true ∧ ext4ExtIsUnwritten e = true)
    (hclean : Clean env.first ∧ Clean env.second) :
    ∃ f' ret g z, ext4SplitExtent blocksize env f path lblk len fl preIo = some (f', ret) ∧
      Ends env fl e lblk len preIo f f' ret g z := by
  have hex := exts_of_at hat
  have hleg : Legal e := h.wf.valid.legal e (by simp [hex])
  have hget : pExt f.tree path = some e := hat.item_eq
  have hv2 : fl.mayZeroout = true → fl.dataValid2 = true := fun hm => (hvalid hm).1
  have hrange : fl.mayZeroout = true →
      zeroRange (flags1 fl (ext4ExtIsUnwritten e)) e (lblk + len) = (lblk + len, e.last) := fun hm => by
    simp [zeroRange, flags1, hv2 hm]
  unfold ext4SplitExtent
  simp only [hget, hleg.end_eq, add32_of_lt hmax]
  by_cases hin : lblk + len < e.last
  · rw [if_pos hin]
    have hmin : min (lblk + len) e.last = lblk + len := Nat.min_eq_left hin.le
    have hflags : Flags (flags1 fl (ext4ExtIsUnwritten e)) e := fun hw => by
      refine ⟨?_, hw, hw⟩
      by_contra hm
      have := (hvalid (by simpa [flags1] using hm)).2
      rw [hw] at this
      cases this
    obtain ⟨f₁, ret₁, hrun, hend⟩ := splitAt_end blocksize env.first true h hat (x := lblk + len)
      (by omega) hin (by simp [flags1]) hflags hclean.1
    unfold flags1 at hrun
    rw [hrun]
    cases hend with
    | split hz hc hcut =>
      have hns : ¬ Stale env fl e lblk len := fun hs => hz (zeroes_flags1.mpr hs.2.2)
      have hc₁ : Changes (fun _ w => w) (fun _ => false) f f₁ := by
        refine hc.congr fun L p w hm => ⟨?_, rfl⟩
        unfold halves flags1
        split_ifs with hL
        · exact (Sound.state_inside h hex hL hm).symm
        · exact (Sound.state_inside h hex hL hm).symm
        · rfl
      cases ret₁ with
      | some err =>
        exact ⟨f₁, _, _, _, rfl, hc₁, confined_kept (by omega) hns (by simp), by simp, fun _ _ _ _ _ _ => rfl⟩
      | none =>
        rcases hcut rfl with ⟨b, hx, -, -⟩ | ⟨a, b, hexa, ha, -⟩
        · omega
        · exact ends_of_cut blocksize env preIo h1 hin hv2 hclean.2 hlen hns hc₁ hexa ha
    | zeroed hz hc =>
      have hw := (hvalid hz.may).2
      have hz' := zeroes_flags1.mp hz
      rw [hrange hz'.may] at hc
      cases ret₁ with
      | some err =>
        refine ⟨f₁, _, _, _, rfl, hc, ?_, by simp, fun _ _ hr => absurd hz hr.1.not_zeroes⟩
        rw [hmin]
        exact confined_zeroed h1 (Nat.le_add_right lblk len) hin.le hz.zero hw
          ⟨fun hs => hs.1, fun hlt => ⟨hlt, hin, hz'⟩⟩
      | none => exact ends_of_zeroed blocksize env preIo h1 hin hv2 hclean.2 h hex hw hz' hc
    | kept hz hret z hc hmay =>
      have hns : ¬ Stale env fl e lblk len := fun hs => hz (zeroes_flags1.mpr hs.2.2)
      cases ret₁ with
      | none => exact absurd rfl hret
      | some err =>
        refine ⟨f₁, _, _, z, rfl, hc, confined_kept (by omega) hns fun L hL => ?_, by simp, fun _ _ _ _ _ _ => rfl⟩
        obtain ⟨hm, hr1, hr2⟩ := hmay L hL
        rw [hrange hm] at hr1 hr2
        exact ⟨(hvalid hm).2, by omega, hr2⟩
  · rw [if_neg hin]
    have hmin : min (lblk + len) e.last = e.last := Nat.min_eq_right (by omega)
    have hns : ¬ Stale env fl e lblk len := fun hs => hin hs.2.1
    obtain ⟨f', ret, g, z, hrun, hc, hconf, hdone, hstay⟩ := splitSecond_spec blocksize env
      (ext4ExtGetActualLen e - (lblk - e.eeBlock)) preIo h hex h1 h2 hv2 hclean.2 h1
    refine ⟨f', ret, g, z, hrun, hc, ?_, fun n hn => ?_, ?_⟩
    · rw [hmin]
      exact hconf.of_piece rfl le_rfl rfl hns
    · obtain ⟨hn', hd⟩ := hdone n hn
      rw [hmin]
      refine ⟨?_, hd⟩
      unfold Extent.last at *
      omega
    · rw [hmin]
      exact fun hu hw hr => hstay hu hw hr.2

end both

end LinuxEvfs.Unwritten.SplitExtent
