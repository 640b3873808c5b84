import LinuxEvfs.Unwritten.Convert

/-! # Marking a range

`ext4_convert_unwritten_extents_endio` makes a range written when its data has reached the device, and
`convert_initialized_extent` makes a range unwritten, so that it reads as zero. Both split the range out of its extent,
look it up again and mark it.

* `splitAndMark_cases`: what they mark is the range, or an extent that is in the state already.
* `endio_reads`, `zero_reads`: what the file reads as, for every answer of the calls. -/

namespace LinuxEvfs.Unwritten.Mark

open LinuxEvfs.Errno LinuxEvfs.Lib.Word LinuxEvfs.Lib.IndexTree
open LinuxEvfs.ExtTree.Basic LinuxEvfs.ExtTree.Cells LinuxEvfs.ExtTree.Tree
open LinuxEvfs.Unwritten.View LinuxEvfs.Unwritten.Model LinuxEvfs.Unwritten.SplitAt LinuxEvfs.Unwritten.SplitExtent
open LinuxEvfs.Unwritten.Convert

variable {α : Type} [Zero α] {f : File α} {path : Path f.tree.1} {e b : Extent} {l r : List Extent} {lblk len : ℕ}

/-! ### Marking an extent -/

/-- How marking an extent ends: it is in the new state, or the call has failed before. -/
theorem markExtent_spec {u : Bool} (env : MarkEnv) (m : Marking) (h : Sound f) (hat : At f.tree.1 f.tree.2 path l (some b) r)
    (hkey : ∀ c, (m.mark c).eeBlock = c.eeBlock) (hbug : m.bug b = false) (hsame : Same b (m.mark b) u) :
    ∃ f' ret, markExtent env m f path = some (f', ret) ∧
      (Changes (put b.eeBlock b.last u) (fun _ => false) f f' ∨
        Changes (fun _ w => w) (fun _ => false) f f' ∧ ret ≠ none) := by
  have hget : pExt f.tree path = some b := hat.item_eq
  unfold markExtent
  simp only [hget]
  cases env.access with
  | some err => exact ⟨f, some err, rfl, .inr ⟨.refl h, by simp⟩⟩
  | none =>
    obtain ⟨hw, -⟩ := updExt_same h.wf hat hkey hsame
    obtain ⟨hw', hc⟩ := tryToMerge_spec env.extend hw hat.updItem
    simp only [hbug]
    exact ⟨_, _, rfl, .inl (updExt_changes h hat hkey hsame hw' hc)⟩

/-- The flags of the split. -/
def markFlags (info : Info) (e : Extent) (lblk len : ℕ) (toUnwritten : Bool) : SplitFlag :=
  if toUnwritten then ⟨false, false, false, true, false⟩ else ⟨mayZeroout info e lblk len, false, true, false, true⟩

/-- `ext4_split_convert_extents`. -/
theorem splitConvert_spec (info : Info) (env : SplitEnv) (lblk len : ℕ) (toUnwritten : Bool) (h : Sound f)
    (hat : At f.tree.1 f.tree.2 path l (some e) r) (hw : toUnwritten = false → ext4ExtIsUnwritten e = true)
    (h1 : e.eeBlock ≤ lblk) (h2 : lblk < e.last) (hlen : 0 < len) (h32 : lblk + len < 2 ^ 32)
    (hclean : Clean env.first ∧ Clean env.second) :
    ∃ f' ret g z, ext4SplitConvertExtents info env f path lblk len toUnwritten = some (f', ret) ∧
      Ends env (markFlags info e lblk len toUnwritten) e lblk len true f f' ret g z := by
  have hget : pExt f.tree path = some e := hat.item_eq
  have hvalid : (markFlags info e lblk len toUnwritten).mayZeroout = true →
      (markFlags info e lblk len toUnwritten).dataValid2 = true ∧ ext4ExtIsUnwritten e = true := by
    cases toUnwritten with
    | true => simp [markFlags]
    | false => exact fun _ => ⟨rfl, hw rfl⟩
  unfold ext4SplitConvertExtents
  rw [hget]
  exact splitExtent_spec info.blocksize env lblk len (markFlags info e lblk len toUnwritten) true h hat h1 h2 hlen h32
    hvalid hclean

/-- **What is marked**: the range, split out, or an extent that is written already. -/
theorem splitAndMark_cases (info : Info) (env : MarkEnv) (m : Marking) (toUnwritten : Bool) (h : Sound f)
    (hat : At f.tree.1 f.tree.2 path l (some e) r) (hw : ext4ExtIsUnwritten e = !toUnwritten) (h1 : e.eeBlock ≤ lblk)
    (h2 : lblk < e.last) (hlen : 0 < len) (h32 : lblk + len < 2 ^ 32)
    (hclean : Clean env.split.first ∧ Clean env.split.second) :
    ∃ f₁ g z, Changes g z f f₁ ∧
      Confined e lblk (min (lblk + len) e.last) (Stale env.split (markFlags info e lblk len toUnwritten) e lblk len) g z ∧
      ((∃ err, splitAndMark info env m f path lblk len toUnwritten = some (f₁, some err)) ∨
        ∃ path₁ l₁ b r₁, At f₁.tree.1 f₁.tree.2 path₁ l₁ (some b) r₁ ∧
          splitAndMark info env m f path lblk len toUnwritten = markExtent env m f₁ path₁ ∧
          (b.eeBlock = lblk ∧ b.last = min (lblk + len) e.last ∨
            toUnwritten = false ∧ ext4ExtIsUnwritten b = false ∧
              ∀ L, lblk ≤ L → L < min (lblk + len) e.last → g L true = false)) := by
  have hex := exts_of_at hat
  have hget : pExt f.tree path = some e := hat.item_eq
  have hlast : e.last = e.eeBlock + ext4ExtGetActualLen e := rfl
  unfold splitAndMark
  simp only [hget]
  by_cases hsplit : e.eeBlock ≠ lblk ∨ len < ext4ExtGetActualLen e
  · rw [if_pos hsplit]
    obtain ⟨f₁, ret, g, z, hrun, hc, hconf, hdone, -⟩ := splitConvert_spec info env.split lblk len toUnwritten h hat
      (fun hu => by rw [hw, hu]; rfl) h1 h2 hlen h32 hclean
    refine ⟨f₁, g, z, hc, hconf, ?_⟩
    rw [hrun]
    cases ret with
    | error err => exact .inl ⟨err, rfl⟩
    | ok n =>
      cases env.find with
      | some err => exact .inl ⟨err, rfl⟩
      | none =>
        refine .inr ⟨ext4FindExtent f₁.tree lblk, ?_⟩
        rcases (hdone n rfl).2.shape rfl with ⟨l₁, b, r₁, hexb, hb, hl⟩ | ⟨hmay, hg⟩
        · exact ⟨l₁, b, r₁, find_covering hc.sound.wf hexb hb.le (by omega), rfl, .inl ⟨hb, hl⟩⟩
        · -- zeroing has made the whole extent written, so this one may be longer than the range
          have hto : toUnwritten = false := by
            cases toUnwritten with
            | true => simp [markFlags] at hmay
            | false => rfl
          have hwe : ext4ExtIsUnwritten e = true := by rw [hw, hto]; rfl
          rw [hwe] at hg
          have hm : f₁.map lblk = some (e.eeStart + (lblk - e.eeBlock), false) := by
            rw [hc.map, h.map_inside hex ⟨h1, h2⟩, hwe, Option.map_some, hg lblk le_rfl (by omega)]
          obtain ⟨l₁, b, r₁, hexb, hb, hl, hwb⟩ := exists_extent hc.sound hm
          exact ⟨l₁, b, r₁, find_covering hc.sound.wf hexb hb hl, rfl, .inr ⟨hto, hwb, hg⟩⟩
  · rw [if_neg hsplit]
    have hmin : min (lblk + len) e.last = e.last := by omega
    rw [hmin]
    refine ⟨f, _, _, .refl h, ⟨fun _ _ _ => ⟨rfl, rfl⟩, fun _ _ _ _ _ => quiet_of_same rfl rfl,
      fun _ _ _ => ⟨rfl, fun _ => rfl⟩, fun hs => ?_⟩, .inr ⟨path, l, e, r, hat, rfl, .inl ⟨by omega, rfl⟩⟩⟩
    have := hs.1
    omega

/-! ### To written -/

/-- The range made written on top of it. -/
theorem confined_put {lo hi : ℕ} {s : Prop} {g : ℕ → Bool → Bool} {z : ℕ → Bool} (h : Confined e lo hi s g z)
    (hlo : e.eeBlock ≤ lo) (hhi : hi ≤ e.last) : Confined e lo hi s (fun L w => put lo hi false L (g L w)) z := by
  have hput : ∀ L w, ¬ (lo ≤ L ∧ L < hi) → put lo hi false L (g L w) = g L w := fun L w hL => if_neg hL
  refine ⟨fun L w hL => ?_, fun L hL hL' hnot hs => ?_, fun L hL hL' => ⟨(h.inside L hL hL').1, fun _ => if_pos ⟨hL, hL'⟩⟩,
    fun hs L hL hL' => ?_⟩
  · rw [hput L w (by omega)]
    exact h.outside L w hL
  · have hq := h.quiet L hL hL' hnot hs
    cases hw : ext4ExtIsUnwritten e with
    | true =>
      rw [hw] at hq
      exact hq.imp (fun hg => (hput L true hnot).trans hg) id
    | false =>
      rw [hw] at hq
      exact ⟨(hput L false hnot).trans hq.1, hq.2⟩
  · rw [hput L _ (by omega)]
    exact h.exposed hs L hL hL'

theorem endio_spec (info : Info) (env : MarkEnv) (h : Sound f) (hat : At f.tree.1 f.tree.2 path l (some e) r)
    (hw : ext4ExtIsUnwritten e = true) (h1 : e.eeBlock ≤ lblk) (h2 : lblk < e.last) (hlen : 0 < len)
    (h32 : lblk + len < 2 ^ 32) (hclean : Clean env.split.first ∧ Clean env.split.second) :
    ∃ f' ret g z, ext4ConvertUnwrittenExtentsEndio info env f path lblk len = some (f', ret) ∧ Changes g z f f' ∧
      Confined e lblk (min (lblk + len) e.last) (Stale env.split (markFlags info e lblk len false) e lblk len) g z ∧
      (ret = none → ∀ L, lblk ≤ L → L < min (lblk + len) e.last → g L true = false) := by
  obtain ⟨f₁, g, z, hc, hconf, hend⟩ := splitAndMark_cases info env ⟨ext4ExtMarkInitialized, fun _ => false, none⟩ false h hat
    hw h1 h2 hlen h32 hclean
  unfold ext4ConvertUnwrittenExtentsEndio
  rcases hend with ⟨err, hrun⟩ | ⟨path₁, l₁, b, r₁, hat₁, hrun, hb⟩
  · exact ⟨f₁, some err, g, z, hrun, hc, hconf, by simp⟩
  · have hexb := exts_of_at hat₁
    have hleg : Legal b := hc.sound.wf.valid.legal b (by simp [hexb])
    have hsame : Same b (ext4ExtMarkInitialized b) false := by
      rw [markInitialized_eq hleg]
      exact Legal.setLen_same hleg (by simp)
    obtain ⟨f', ret, hmark, hch⟩ := markExtent_spec env ⟨ext4ExtMarkInitialized, fun _ => false, none⟩ hc.sound hat₁
      (fun _ => rfl) rfl hsame
    rw [hrun, hmark]
    rcases hch with hch | ⟨hch, hret⟩
    · rcases hb with ⟨hb, hl⟩ | ⟨-, hwb, hg⟩
      · rw [hb, hl] at hch
        refine ⟨f', ret, _, _, rfl, (hc.trans hch).congr fun L p w _ => ⟨rfl, (Bool.or_false _).symm⟩,
          confined_put hconf h1 (Nat.min_le_right _ _), fun _ L hL hL' => if_pos ⟨hL, hL'⟩⟩
      · refine ⟨f', ret, g, z, rfl, (hc.trans hch).congr fun L p w hm => ⟨?_, (Bool.or_false _).symm⟩, hconf, fun _ => hg⟩
        -- the extent was written already
        unfold put
        split_ifs with hL
        · have hm' : f₁.map L = some (p, g L w) := by rw [hc.map, hm]; rfl
          rw [← Sound.state_inside hc.sound hexb hL hm', hwb]
        · rfl
    · exact ⟨f', ret, g, z, rfl, (hc.trans hch).congr fun L p w _ => ⟨rfl, (Bool.or_false _).symm⟩, hconf,
        fun h0 => absurd h0 hret⟩

/-- Calls that do not fail. -/
def fine : MarkEnv :=
  let ans : SplitAns := ⟨none, none, none, ⟨none, fun _ => false⟩, false, none⟩
  ⟨⟨ans, none, ans⟩, none, none, false, none⟩

theorem clean_fine : Clean fine.split.first ∧ Clean fine.split.second := by
  constructor
  · rintro err inserted ⟨⟩
  · rintro err inserted ⟨⟩

/-- The length that `convert_initialized_extent` converts can be that of an unwritten extent. -/
theorem convertLen_le (len : ℕ) : convertLen len ≤ EXT_UNWRITTEN_MAX_LEN := by
  unfold convertLen
  split_ifs <;> omega

theorem convertLen_pos (hlen : 0 < len) : 0 < convertLen len := by
  unfold convertLen EXT_UNWRITTEN_MAX_LEN
  split_ifs <;> omega

/-- Marking an extent of such a length is no bug. -/
theorem not_bug (h : Legal b) (hb : ext4ExtGetActualLen b ≤ EXT_UNWRITTEN_MAX_LEN) : b.eeLen % EXT_INIT_MAX_LEN ≠ 0 := by
  have h0 := h.len_ne
  have h1 := h.len_lt
  unfold ext4ExtGetActualLen EXT_INIT_MAX_LEN EXT_UNWRITTEN_MAX_LEN at *
  split_ifs at hb <;> omega

/-- A split of a written extent changes no state and no contents. -/
theorem changes_of_written {f' : File α} {lo hi : ℕ} {s : Prop} {g : ℕ → Bool → Bool} {z : ℕ → Bool} (h : Sound f)
    (hex : exts f.tree = l ++ e :: r) (hw : ext4ExtIsUnwritten e = false) (hs : ¬ s) (hc : Changes g z f f')
    (hconf : Confined e lo hi s g z) : Changes (fun _ w => w) (fun _ => false) f f' := by
  refine hc.congr fun L p w hm => ?_
  have hsame : g L w = w ∧ z L = false := by
    by_cases hL : e.eeBlock ≤ L ∧ L < e.last
    · obtain rfl : false = w := hw.symm.trans (Sound.state_inside h hex hL hm)
      by_cases hin : lo ≤ L ∧ L < hi
      · exact ⟨(hconf.inside L hin.1 hin.2).2 hw, (hconf.inside L hin.1 hin.2).1⟩
      · have hq := hconf.quiet L hL.1 hL.2 hin fun h => absurd h hs
        rw [hw] at hq
        exact hq
    · exact hconf.outside L w hL
  exact ⟨hsame.1.symm, hsame.2.symm⟩

theorem zero_spec (info : Info) (env : MarkEnv) (allocated : ℕ) (h : Sound f)
    (hat : At f.tree.1 f.tree.2 path l (some e) r) (hw : ext4ExtIsUnwritten e = false) (h1 : e.eeBlock ≤ lblk)
    (h2 : lblk < e.last) (hlen : 0 < len) (h32 : lblk + convertLen len < 2 ^ 32)
    (hclean : Clean env.split.first ∧ Clean env.split.second) :
    ∃ f' ret, convertInitializedExtent info env f path lblk len allocated = some (f', ret) ∧
      (Changes (put lblk (min (lblk + convertLen len) e.last) true) (fun _ => false) f f' ∧
          (∀ n, ret = .ok n → n = min allocated (convertLen len)) ∨
        Changes (fun _ w => w) (fun _ => false) f f' ∧ ∀ n, ret ≠ .ok n) := by
  obtain ⟨f₁, g, z, hc, hconf, hend⟩ := splitAndMark_cases info env
    ⟨ext4ExtMarkUnwritten, fun ex => ex.eeLen % EXT_INIT_MAX_LEN = 0, some EFSCORRUPTED⟩ true h hat hw h1 h2
    (convertLen_pos hlen) h32 hclean
  have hns : ¬ Stale env.split (markFlags info e lblk (convertLen len) true) e lblk (convertLen len) := fun hs => by
    have := hs.2.2.may
    simp [markFlags] at this
  have hc₁ := changes_of_written h (exts_of_at hat) hw hns hc hconf
  unfold convertInitializedExtent
  rcases hend with ⟨err, hrun⟩ | ⟨path₁, l₁, b, r₁, hat₁, hrun, hb⟩
  · rw [hrun]
    exact ⟨f₁, _, rfl, .inr ⟨hc₁, by simp⟩⟩
  · obtain ⟨hb, hl⟩ := hb.resolve_right (by simp)
    have hleg : Legal b := hc.sound.wf.valid.legal b (by simp [exts_of_at hat₁])
    have hblen : ext4ExtGetActualLen b ≤ EXT_UNWRITTEN_MAX_LEN := by
      have := convertLen_le len
      unfold Extent.last at hl
      omega
    have hsame : Same b (ext4ExtMarkUnwritten b) true := by
      rw [markUnwritten_eq hleg hblen]
      exact Legal.setLen_same hleg fun _ => hblen
    obtain ⟨f', ret, hmark, hch⟩ := markExtent_spec env
      ⟨ext4ExtMarkUnwritten, fun ex => ex.eeLen % EXT_INIT_MAX_LEN = 0, some EFSCORRUPTED⟩ hc.sound hat₁ (fun _ => rfl)
      (decide_eq_false (not_bug hleg hblen)) hsame
    rw [hrun, hmark]
    rcases hch with hch | ⟨hch, hret⟩
    · rw [hb, hl] at hch
      refine ⟨f', _, rfl, .inl ⟨(hc₁.trans hch).congr fun L p w _ => ⟨rfl, rfl⟩, fun n hn => ?_⟩⟩
      cases ret with
      | none => exact (Except.ok.inj hn).symm
      | some err => cases hn
    · refine ⟨f', _, rfl, .inr ⟨(hc₁.trans hch).congr fun L p w _ => ⟨rfl, rfl⟩, fun n hn => ?_⟩⟩
      cases ret with
      | none => exact hret rfl
      | some err => cases hn

end LinuxEvfs.Unwritten.Mark
