import LinuxEvfs.Unwritten.SplitExtent

/-! # Writing into an unwritten extent

`ext4_ext_convert_to_initialized` makes the blocks of a range written. It moves them to a neighbouring extent, or splits
them out of theirs, and may zero blocks around them first.

* `transfer_restates`: moving blocks to a neighbour makes just these blocks written.
* `Around`, `zeroAround_around`: the range that is split out holds the range asked for, and what it holds besides has
  been zeroed.
* `Exposes`: the blocks before the range become readable as the device holds them.
* `convert_spec`, `convert_reads`: what the call does to the blocks, and what the file then reads as. -/

namespace LinuxEvfs.Unwritten.Convert

open LinuxEvfs.Errno LinuxEvfs.Lib.Word LinuxEvfs.Lib.IndexTree LinuxEvfs.Lib.IndexRewrite
open LinuxEvfs.ExtTree.Basic LinuxEvfs.ExtTree.Cells LinuxEvfs.ExtTree.Tree
open LinuxEvfs.Unwritten.View LinuxEvfs.Unwritten.Model LinuxEvfs.Unwritten.SplitAt LinuxEvfs.Unwritten.SplitExtent

variable {α : Type} {f f' : File α} {e a : Extent} {l r : List Extent} {lblk len : ℕ}

/-! ### Moving blocks to a neighbour -/

/-- The border between two extents over neighbouring blocks moved to `m`. -/
structure Shifted (x y x' y' : Extent) (m : ℕ) : Prop where
  old : Piece x y x.last y.last (ext4ExtIsUnwritten y)
  left : Piece x x' x.eeBlock m (ext4ExtIsUnwritten x)
  right : Piece x y' m y.last (ext4ExtIsUnwritten y)
  lt_left : x.eeBlock < m
  lt_right : m < y.last

section Shifted
variable {x y x' y' : Extent} {m : ℕ}

theorem Shifted.valid (h : Shifted x y x' y' m) (hv : ValidMap (l ++ x :: y :: r)) : ValidMap (l ++ x' :: y' :: r) := by
  obtain ⟨hl, hr, hlr⟩ := validMap_append.mp hv
  obtain ⟨hx, hyr, hxy⟩ := validMap_cons.mp hr
  obtain ⟨hy, hr', hyr'⟩ := validMap_cons.mp hyr
  have hlt := h.lt_left.trans h.lt_right
  have := validMap_between [x', y'] hl hr' (validMap_pair h.left h.right) (fun a ha => hlr a ha x (by simp)) hyr' hlt.le
    fun a ha => by
      simp only [List.mem_cons, List.not_mem_nil, or_false] at ha
      rcases ha with rfl | rfl
      · exact ⟨h.left.block.ge, h.left.last.trans_le h.lt_right.le⟩
      · exact ⟨h.lt_left.le.trans h.right.block.ge, h.right.last.le⟩
  simpa using this

/-- The blocks are where they were; those that `g` names are in another state. -/
theorem Shifted.map_eq {g : ℕ → Bool → Bool} (h : Shifted x y x' y' m) (hv : ValidMap (l ++ x :: y :: r))
    (hin : ∀ L, x.eeBlock ≤ L → L < y.last → (if L < m then ext4ExtIsUnwritten x else ext4ExtIsUnwritten y) =
      g L (if L < x.last then ext4ExtIsUnwritten x else ext4ExtIsUnwritten y))
    (hout : ∀ L w, ¬ (x.eeBlock ≤ L ∧ L < y.last) → g L w = w) (L : ℕ) :
    blockMap (l ++ x' :: y' :: r) L = (blockMap (l ++ x :: y :: r) L).map fun v => (v.1, g L v.2) := by
  have hx : Legal x := hv.legal x (by simp)
  have hself : Piece x x x.eeBlock x.last (ext4ExtIsUnwritten x) := ⟨hx, rfl, by simp, rfl, rfl⟩
  have hy : Legal y := hv.legal y (by simp)
  have hyb := h.old.block
  have hold := blockMap_pair hself h.old hx.block_lt_last.le (by have := hy.block_lt_last; omega)
  have hnew := blockMap_pair h.left h.right h.lt_left.le h.lt_right.le
  have hsplit : ∀ u v : Extent, l ++ u :: v :: r = l ++ ([u, v] ++ r) := fun _ _ => rfl
  obtain ⟨-, -, hlr⟩ := validMap_append.mp hv
  obtain ⟨-, -, hyr⟩ := validMap_cons.mp (validMap_cons.mp (validMap_append.mp hv).2.1).2.1
  rw [hsplit, hsplit, blockMap_append, blockMap_append, blockMap_append, blockMap_append, hold, hnew]
  by_cases hL : x.eeBlock ≤ L ∧ L < y.last
  · have hl : blockMap l L = none := by
      rw [blockMap_eq_none]
      rintro ⟨a, ha, h1, h2⟩
      have := hlr a ha x (by simp)
      omega
    rw [hl, if_pos hL, if_pos hL, hin L hL.1 hL.2]
    rfl
  · rw [if_neg hL, if_neg hL]
    simp only [hout L _ hL, Option.none_or, Prod.mk.eta, Option.map_id']

end Shifted

/-- A length written into an extent that starts at `lo`. -/
theorem piece_setLen {x b : Extent} {lo hi n : ℕ} {u : Bool} (hb : b.eeBlock = lo)
    (hs : b.eeStart = x.eeStart + (lo - x.eeBlock)) (hs48 : b.eeStart < 2 ^ 48) (hlt : lo < hi) (hn : lo + n = hi)
    (h1 : n ≤ EXT_INIT_MAX_LEN) (h2 : u = true → n ≤ EXT_UNWRITTEN_MAX_LEN) (hmax : hi ≤ EXT_MAX_BLOCKS) :
    Piece x (setLen b n u) lo hi u := by
  obtain ⟨a1, a2, a3, a4⟩ := setLen_spec (e := b) (n := n) (u := u) (by omega) h1 h2
  have hlast : (setLen b n u).last = hi := by rw [Extent.last, a1, setLen_eeBlock, hb, hn]
  refine ⟨⟨a3, a4, hlast ▸ hmax, ?_⟩, setLen_eeBlock.trans hb, setLen_eeStart.trans hs, hlast, a2⟩
  rw [setLen_eeStart]
  exact hs48

section transfer
variable {l1 r1 es' : List Extent} (he : Legal e) (ha : Legal a) (hw : ext4ExtIsUnwritten e = true) (hlen : 0 < len)
  (hlt : len < ext4ExtGetActualLen e)
include he ha hw hlen hlt

theorem transferLeft_spec (hsmall : e.eeStart + len < 2 ^ 48)
    (h : transferLeft len (l1 ++ a :: e :: r1) (l1.length + 1) = some es') :
    ∃ a' e', es' = l1 ++ a' :: e' :: r1 ∧ Shifted a e a' e' (e.eeBlock + len) ∧ ext4ExtIsUnwritten a = false := by
  have hget : (l1 ++ a :: e :: r1)[l1.length + 1]? = some e := by simp
  have hget' : (l1 ++ a :: e :: r1)[l1.length + 1 - 1]? = some a := by simp
  unfold transferLeft at h
  simp only [hget, hget', ha.end_eq, ext4ExtPblock] at h
  split_ifs at h with hc
  obtain ⟨hwa, hlast, hphys, hroom⟩ := hc
  have hmax := he.last_le
  have hle := he.len_le.2 hw
  have hinit : EXT_UNWRITTEN_MAX_LEN ≤ EXT_INIT_MAX_LEN := by decide
  have hla : a.eeBlock + ext4ExtGetActualLen a = e.eeBlock := hlast
  have hle' : e.last = e.eeBlock + ext4ExtGetActualLen e := rfl
  have hleft : Piece a (setLen a (ext4ExtGetActualLen a + len) false) a.eeBlock (e.eeBlock + len) false :=
    piece_setLen rfl (by simp) ha.start_lt (by omega) (by omega) (by omega) (by simp) (by omega)
  have hright : Piece a (setLen (ext4ExtStorePblock { e with eeBlock := e.eeBlock + len } (e.eeStart + len))
      (ext4ExtGetActualLen e - len) true) (e.eeBlock + len) e.last true := by
    refine piece_setLen rfl ?_ (Nat.mod_lt _ (by decide)) (by omega) (by omega) (by omega) (fun _ => by omega) hmax
    change (e.eeStart + len) % 2 ^ 48 = _
    rw [Nat.mod_eq_of_lt hsmall]
    omega
  refine ⟨_, _, ?_, ⟨⟨he, hlast.symm, by omega, rfl, rfl⟩, by rw [hwa]; exact hleft, by rw [hw]; exact hright,
    by omega, by omega⟩, hwa⟩
  rw [← Option.some.inj h]
  simp

theorem transferRight_spec (hend : lblk + len = e.last)
    (h : transferRight lblk len (l1 ++ e :: a :: r1) l1.length = some es') :
    ∃ e' a', es' = l1 ++ e' :: a' :: r1 ∧ Shifted e a e' a' lblk ∧ ext4ExtIsUnwritten a = false := by
  have hget : (l1 ++ e :: a :: r1)[l1.length]? = some e := by simp
  have hget' : (l1 ++ e :: a :: r1)[l1.length + 1]? = some a := by simp
  have hmax := he.last_le
  have hadd : add32 lblk len = lblk + len := add32_of_lt (by unfold EXT_MAX_BLOCKS at hmax; omega)
  unfold transferRight at h
  simp only [hget, hget', hadd, ext4ExtPblock] at h
  split_ifs at h with hc
  obtain ⟨hwa, hlast, hphys, hroom⟩ := hc
  have hle := he.len_le.2 hw
  have hinit : EXT_UNWRITTEN_MAX_LEN ≤ EXT_INIT_MAX_LEN := by decide
  have hla : a.last = a.eeBlock + ext4ExtGetActualLen a := rfl
  have hle' : e.last = e.eeBlock + ext4ExtGetActualLen e := rfl
  have hmaxa := ha.last_le
  have hs48 := ha.start_lt
  have hleft : Piece e (setLen e (ext4ExtGetActualLen e - len) true) e.eeBlock lblk true :=
    piece_setLen rfl (by simp) he.start_lt (by omega) (by omega) (by omega) (fun _ => by omega) (by omega)
  have hright : Piece e (setLen (ext4ExtStorePblock { a with eeBlock := a.eeBlock - len } (a.eeStart - len))
      (ext4ExtGetActualLen a + len) false) lblk a.last false := by
    refine piece_setLen ?_ ?_ (Nat.mod_lt _ (by decide)) (by omega) (by omega) (by omega) (by simp) hmaxa
    · change a.eeBlock - len = lblk
      omega
    · change (a.eeStart - len) % 2 ^ 48 = _
      rw [Nat.mod_eq_of_lt (by omega)]
      omega
  refine ⟨_, _, ?_, ⟨⟨ha, by omega, by omega, rfl, rfl⟩, by rw [hw]; exact hleft, by rw [hwa]; exact hright,
    by omega, by omega⟩, hwa⟩
  rw [← Option.some.inj h]
  simp

end transfer

/-- Setting an extent to one with the same start. -/
theorem head_set {es : List Extent} {i : ℕ} {b b' : Extent} (h : 0 < i ∨ es[i]? = some b ∧ b'.eeBlock = b.eeBlock) :
    (es.set i b').head?.map Extent.eeBlock = es.head?.map Extent.eeBlock := by
  cases es with
  | nil => rfl
  | cons x xs =>
    cases i with
    | zero =>
      obtain ⟨hb, hkey⟩ := h.resolve_left (by simp)
      obtain rfl : x = b := by simpa using hb
      simp [hkey]
    | succ i => rfl

/-- A transfer leaves the first start in the leaf. -/
theorem transfer_head {es es' : List Extent} {i : ℕ} (h : transfer e lblk len es i = some es') :
    es'.head?.map Extent.eeBlock = es.head?.map Extent.eeBlock := by
  unfold transfer at h
  simp only at h
  split_ifs at h with h1 h2
  · unfold transferLeft at h
    split at h
    · rename_i ex abut hex habut
      split_ifs at h with hc
      rw [← Option.some.inj h]
      have hne : i ≠ i - 1 := by omega
      refine (head_set (b := abut) (.inr ⟨?_, setLen_eeBlock⟩)).trans (head_set (b := ex) (.inl h1.2.2))
      rw [List.getElem?_set_ne hne]
      exact habut
    · cases h
  · unfold transferRight at h
    split at h
    · rename_i ex abut hex habut
      split_ifs at h with hc
      rw [← Option.some.inj h]
      exact (head_set (b := abut) (.inl (by omega))).trans (head_set (b := ex) (.inr ⟨hex, setLen_eeBlock⟩))
    · cases h

/-- The two extents of the leaf whose border a transfer moves. -/
theorem transfer_shifted {l0 l1 r1 r0 es' : List Extent} (hv : ValidMap (l0 ++ (l1 ++ e :: r1) ++ r0))
    (hw : ext4ExtIsUnwritten e = true) (h1 : e.eeBlock ≤ lblk) (hlen : 0 < len) (h32 : lblk + len < 2 ^ 32)
    (hsmall : ∀ L, e.eeBlock ≤ L → L < e.last → e.eeStart + (L - e.eeBlock) < 2 ^ 48)
    (h : transfer e lblk len (l1 ++ e :: r1) l1.length = some es') :
    ∃ l2 r2 x y x' y' m, l1 ++ e :: r1 = l2 ++ x :: y :: r2 ∧ es' = l2 ++ x' :: y' :: r2 ∧ Shifted x y x' y' m ∧
      (∀ L, x.eeBlock ≤ L → L < y.last → (if L < m then ext4ExtIsUnwritten x else ext4ExtIsUnwritten y) =
        put lblk (lblk + len) false L (if L < x.last then ext4ExtIsUnwritten x else ext4ExtIsUnwritten y)) ∧
      x.eeBlock ≤ lblk ∧ lblk + len ≤ y.last ∧ lblk + len ≤ e.last := by
  have hlegal : ∀ b ∈ l1 ++ e :: r1, Legal b := fun b hb =>
    hv.legal b (List.mem_append_left _ (List.mem_append_right _ hb))
  have he : Legal e := hlegal e (by simp)
  have hlast : e.last = e.eeBlock + ext4ExtGetActualLen e := rfl
  unfold transfer at h
  simp only [add32_of_lt h32, he.end_eq] at h
  split_ifs at h with hl hr
  · obtain ⟨rfl, hlt, hpos⟩ := hl
    obtain ⟨l2, a, rfl⟩ := List.eq_nil_or_concat l1 |>.resolve_left fun h0 => by simp [h0] at hpos
    have ha : Legal a := hlegal a (by simp)
    have hes : l2.concat a ++ e :: r1 = l2 ++ a :: e :: r1 := by simp
    rw [hes, List.length_concat] at h
    have hsm := hsmall (e.eeBlock + len) (by omega) (by omega)
    rw [Nat.add_sub_cancel_left] at hsm
    obtain ⟨a', e', rfl, hs, hwa⟩ := transferLeft_spec he ha hw hlen hlt hsm h
    have hae : a.last = e.eeBlock := hs.old.block.symm
    refine ⟨l2, r1, a, e, a', e', _, hes, rfl, hs, fun L hL hL' => ?_, ?_, by omega, by omega⟩
    · rw [hwa, hw, hae]
      unfold put
      split_ifs <;> first | rfl | omega
    · have := ha.block_lt_last
      omega
  · obtain ⟨hend, hlt, hpos⟩ := hr
    obtain ⟨a, r2, rfl⟩ := List.exists_cons_of_ne_nil (l := r1) fun h0 => by simp [h0] at hpos
    have ha : Legal a := hlegal a (by simp)
    obtain ⟨e', a', rfl, hs, hwa⟩ := transferRight_spec he ha hw hlen hlt hend h
    have hae : a.eeBlock = e.last := hs.old.block
    refine ⟨l1, r2, e, a, e', a', _, rfl, rfl, hs, fun L hL hL' => ?_, h1, ?_, hend.le⟩
    · rw [hwa, hw, ← hend]
      unfold put
      split_ifs <;> first | rfl | omega
    · have := ha.block_lt_last
      omega

/-- **Moving the blocks of the range** to the extent next to theirs. -/
theorem transfer_restates {path : Path f.tree.1} (h : Sound f) (hat : At f.tree.1 f.tree.2 path l (some e) r)
    (hw : ext4ExtIsUnwritten e = true) (h1 : e.eeBlock ≤ lblk) (hlen : 0 < len) (h32 : lblk + len < 2 ^ 32)
    (hmove : transfers e lblk len f.tree path = true) {t : ExtRoot}
    (ht : t = ⟨f.tree.1, updLeaf (transferBlock e lblk len) f.tree.1 f.tree.2 path⟩) :
    WellFormed t ∧ Restates (put lblk (lblk + len) false) f { f with tree := t } ∧ lblk + len ≤ e.last := by
  obtain ⟨lf, l0, l1, r1, r0, hleaf, hlast, hlf, rfl, rfl, hit⟩ := At.leaf_at hat
  have hex := exts_of_at hat
  have hv : ValidMap (l0 ++ l1 ++ e :: (r1 ++ r0)) := hex ▸ h.wf.valid
  have he : Legal e := hv.legal e (by simp)
  have hsmall : ∀ L, e.eeBlock ≤ L → L < e.last → e.eeStart + (L - e.eeBlock) < 2 ^ 48 := fun L hL hL' =>
    h.small L _ _ (h.map_inside hex ⟨hL, hL'⟩)
  rw [transfers, hleaf, Option.bind_some, hlast, Option.bind_some, hlf, Option.isSome_iff_exists] at hmove
  obtain ⟨es', hes'⟩ := hmove
  have hhead : Indexed Extent.eeBlock f.tree.1 (updLeaf (transferBlock e lblk len) f.tree.1 f.tree.2 path) := by
    refine updLeaf_indexed (fun lf q => ?_) path h.wf.indexed
    unfold transferBlock
    cases hq : q.bind (transfer e lblk len lf.entries) with
    | none => rfl
    | some es =>
      obtain ⟨i, -, hi⟩ := Option.bind_eq_some_iff.mp hq
      exact transfer_head hi
  have hext : exts t = l0 ++ es' ++ r0 := by
    subst ht
    refine (hit _).trans ?_
    simp only [transferBlock, Option.bind_some, hlf, hes', Option.getD_some]
  obtain ⟨l2, r2, x, y, x', y', m, hold, hnew, hs, hst, hx, hy, hend⟩ :=
    transfer_shifted (by simpa using hv) hw h1 hlen h32 hsmall hes'
  have hold' : exts f.tree = (l0 ++ l2) ++ x :: y :: (r2 ++ r0) := by
    have : l0 ++ l1 ++ e :: (r1 ++ r0) = l0 ++ (l1 ++ e :: r1) ++ r0 := by simp
    rw [hex, this, hold]
    simp
  have hnew' : exts t = (l0 ++ l2) ++ x' :: y' :: (r2 ++ r0) := by
    rw [hext, hnew]
    simp
  have hv' : ValidMap ((l0 ++ l2) ++ x :: y :: (r2 ++ r0)) := hold' ▸ h.wf.valid
  refine ⟨⟨ht ▸ hhead, hnew' ▸ hs.valid hv'⟩, ⟨rfl, fun L => ?_⟩, hend⟩
  rw [File.map, File.map, hnew', hold']
  exact hs.map_eq hv' hst (fun L w hL => if_neg (by omega)) L

/-! ### Zeroing around the range -/

/-- What the zeroing may have done: the range to split out is the old one, with zeroed blocks on both sides. -/
structure Around [Zero α] (f : File α) (e : Extent) (lblk len : ℕ) (p : Plan α) (z : ℕ → Bool) : Prop where
  changes : Changes (fun _ w => w) z f { f with disk := p.disk }
  start : p.lblk = lblk ∨ p.lblk = e.eeBlock
  stop : lblk + len ≤ p.lblk + p.len
  le_max : p.lblk + p.len ≤ max (lblk + len) e.last
  zeros : ∀ L, p.lblk ≤ L → L < p.lblk + p.len → ¬ (lblk ≤ L ∧ L < lblk + len) → z L = true
  inside : ∀ L, lblk ≤ L → L < lblk + len → z L = false
  within : ∀ L, z L = true → e.eeBlock ≤ L ∧ L < e.last
  ret : min (lblk + len) e.last ≤ lblk + p.allocated ∧ lblk + p.allocated ≤ e.last

/-- Blocks before the range to split out have been zeroed only where that has failed, by the answer `o`. -/
def Before (o : ZeroOut) (p : Plan α) (z : ℕ → Bool) : Prop := ∀ L, L < p.lblk → z L = true → o.err ≠ none

section around
variable [Zero α] {p : Plan α} {z : ℕ → Bool}

theorem ZeroOut.le_of_set {o : ZeroOut} {lo hi L : ℕ} (h : o.set lo hi L = true) : lo ≤ L ∧ L < hi := by
  simp only [ZeroOut.set, decide_eq_true_eq] at h
  exact ⟨h.1, h.2.1⟩

/-- A part of the extent zeroed on top of it. -/
theorem Around.wipe (ha : Around f e lblk len p z) (hex : exts f.tree = l ++ e :: r) (o : ZeroOut) (lo hi : ℕ)
    (hlo : e.eeBlock ≤ lo) (hhi : hi ≤ e.last) (hin : ∀ L, lo ≤ L → L < hi → ¬ (lblk ≤ L ∧ L < lblk + len)) :
    Around f e lblk len { p with disk := View.wipe o (e.eeStart + (lo - e.eeBlock)) (hi - lo) p.disk }
      fun L => z L || o.set lo hi L := by
  refine ⟨ha.changes.trans (wipe_changes o ha.changes.sound fun L hL hL' => ⟨ext4ExtIsUnwritten e, ?_⟩), ha.start, ha.stop,
    ha.le_max, fun L h1 h2 h3 => ?_, fun L h1 h2 => ?_, fun L hL => ?_, ha.ret⟩
  · have hoff : e.eeStart + (lo - e.eeBlock) + (L - lo) = e.eeStart + (L - e.eeBlock) := by omega
    rw [hoff]
    exact ha.changes.sound.map_inside hex ⟨by omega, by omega⟩
  · rw [ha.zeros L h1 h2 h3, Bool.true_or]
  · rw [ha.inside L h1 h2, Bool.false_or, ← Bool.not_eq_true]
    exact fun hL => hin L (ZeroOut.le_of_set hL).1 (ZeroOut.le_of_set hL).2 ⟨h1, h2⟩
  · rcases Bool.or_eq_true_iff.mp hL with hL | hL
    · exact ha.within L hL
    · have := ZeroOut.le_of_set hL
      omega

theorem ZeroOut.set_eq_true {o : ZeroOut} {lo hi L : ℕ} (ho : o.err = none) (h1 : lo ≤ L) (h2 : L < hi) :
    o.set lo hi L = true := by
  simp [ZeroOut.set, ho, h1, h2]

theorem zeroTail_around (env : ConvEnv) (maxZeroout : ℕ) (ha : Around f e lblk len p z) (hex : exts f.tree = l ++ e :: r)
    (h1 : e.eeBlock ≤ lblk) (hb : p.lblk = lblk) (hl : p.len = len) (hn : p.lblk + p.allocated = e.last)
    (hlt : p.len < p.allocated) (hbf : Before env.zero2 p z) :
    ∃ z, Around f e lblk len (zeroTail env e maxZeroout p).1 z ∧ (zeroTail env e maxZeroout p).1.lblk = lblk ∧
      Before env.zero2 (zeroTail env e maxZeroout p).1 z := by
  have hw := ha.wipe hex env.zero1 (lblk + len) e.last (by omega) le_rfl fun L hL _ hin => by omega
  have hpb : e.eeStart + (lblk + len - e.eeBlock) = e.eeStart + p.lblk + p.len - e.eeBlock := by omega
  have hlen : e.last - (lblk + len) = p.allocated - p.len := by omega
  rw [hpb, hlen] at hw
  have hbefore : ∀ L, L < p.lblk → (z L || env.zero1.set (lblk + len) e.last L) = true → env.zero2.err ≠ none := by
    intro L hL hz
    rcases Bool.or_eq_true_iff.mp hz with hz | hz
    · exact hbf L hL hz
    · have := ZeroOut.le_of_set hz
      omega
  unfold zeroTail ext4ExtPblock
  split_ifs
  · cases herr : env.zero1.err with
    | some err => exact ⟨_, hw, hb, hbefore⟩
    | none =>
      refine ⟨_, ⟨hw.changes, hw.start, ?_, ?_, fun L hL hL' hnot => ?_, hw.inside, hw.within, hw.ret⟩, hb, hbefore⟩
      · simp only
        omega
      · simp only
        omega
      · simp only at hL hL'
        rw [ZeroOut.set_eq_true herr (by omega) (by omega), Bool.or_true]
  · exact ⟨z, ha, hb, hbf⟩

theorem zeroHead_around (env : ConvEnv) (maxZeroout : ℕ) (ha : Around f e lblk len p z) (hex : exts f.tree = l ++ e :: r)
    (h1 : e.eeBlock ≤ lblk) (h2 : lblk < e.last) (hin : lblk + len ≤ e.last)
    (hb : p.lblk = lblk) (hbf : Before env.zero2 p z) :
    ∃ z, Around f e lblk len (zeroHead env e maxZeroout len p) z ∧ Before env.zero2 (zeroHead env e maxZeroout len p) z := by
  have hw := ha.wipe hex env.zero2 e.eeBlock lblk le_rfl h2.le fun L _ hL hin => by omega
  rw [Nat.sub_self, Nat.add_zero] at hw
  have hs := ha.stop
  have hm := ha.le_max
  have hz := ha.zeros
  unfold zeroHead ext4ExtPblock
  rw [hb] at hs hm hz hw ⊢
  split_ifs with hmax hne
  · cases herr : env.zero2.err with
    | some err => exact ⟨_, hw, fun _ _ _ => by simp [herr]⟩
    | none =>
      refine ⟨_, ⟨hw.changes, .inr rfl, ?_, ?_, fun L hL hL' hnot => ?_, hw.inside, hw.within, ?_⟩, fun L hL hL' => ?_⟩
      · simp only
        omega
      · simp only
        omega
      · simp only at hL hL'
        by_cases hlt : L < lblk
        · rw [ZeroOut.set_eq_true herr hL hlt, Bool.or_true]
        · exact hw.zeros L (by simp only; omega) (by simp only; omega) hnot
      · simp only
        omega
      · exact absurd (hw.within L hL').1 (Nat.not_le.mpr hL)
  · exact ⟨z, ⟨ha.changes, .inl rfl, hs, hm, hz, ha.inside, ha.within, by simp only; omega⟩,
      fun L hL => hbf L (hL.trans_eq hb.symm)⟩
  · exact ⟨z, ha, hbf⟩

/-- **The zeroing before the split.** -/
theorem zeroAround_around (env : ConvEnv) (maxZeroout : ℕ) (h : Sound f) (hex : exts f.tree = l ++ e :: r)
    (h1 : e.eeBlock ≤ lblk) (h2 : lblk < e.last) (len : ℕ) :
    ∃ z, Around f e lblk len
        (zeroAround env e maxZeroout ⟨f.disk, lblk, len, ext4ExtGetActualLen e - (lblk - e.eeBlock)⟩) z ∧
      Before env.zero2
        (zeroAround env e maxZeroout ⟨f.disk, lblk, len, ext4ExtGetActualLen e - (lblk - e.eeBlock)⟩) z := by
  have hlast : e.last = e.eeBlock + ext4ExtGetActualLen e := rfl
  have hbase : Around f e lblk len ⟨f.disk, lblk, len, ext4ExtGetActualLen e - (lblk - e.eeBlock)⟩ fun _ => false :=
    ⟨.refl h, .inl rfl, le_rfl, le_max_left _ _, fun L h1 h2 h3 => absurd ⟨h1, h2⟩ h3, fun _ _ _ => rfl, by simp, by
      simp only
      omega⟩
  unfold zeroAround
  by_cases hgo : maxZeroout ≠ 0 ∧ len < ext4ExtGetActualLen e - (lblk - e.eeBlock)
  · obtain ⟨z, ha, hb, hbf⟩ := zeroTail_around env maxZeroout hbase hex h1 rfl rfl (by simp only; omega) hgo.2
      fun _ _ h0 => by simp at h0
    simp only [if_pos hgo]
    split_ifs
    · exact ⟨z, ha, hbf⟩
    · exact zeroHead_around env maxZeroout ha hex h1 h2 (by omega) hb hbf
  · simp only [if_neg hgo]
    exact ⟨_, hbase, fun _ _ h0 => by simp at h0⟩

end around

/-! ### The conversion -/

section convert
variable [Zero α] {path : Path f.tree.1}

/-- The extent may be zeroed: it ends within the file, as it is or as the write makes it. -/
def mayZeroout (info : Info) (e : Extent) (lblk len : ℕ) : Bool :=
  decide (add32 e.eeBlock (ext4ExtGetActualLen e) ≤ max info.eofBlock (add32 lblk len))

/-- The range that is split out. -/
def plan (info : Info) (env : ConvEnv) (f : File α) (e : Extent) (lblk len : ℕ) : Plan α :=
  zeroAround env e (if mayZeroout info e lblk len then info.maxZeroout else 0)
    ⟨f.disk, lblk, len, ext4ExtGetActualLen e - (lblk - e.eeBlock)⟩

/-- The flags of the split. -/
def convFlags (info : Info) (e : Extent) (lblk len : ℕ) : SplitFlag := ⟨mayZeroout info e lblk len, false, false, false, true⟩

/-- **The blocks before the range are exposed**: nothing is transferred, and the split at the end of the range that is
split out zeroes while blocks stand before it. -/
def Exposes (info : Info) (env : ConvEnv) (f : File α) (path : Path f.tree.1) (e : Extent) (lblk len : ℕ) : Prop :=
  transfers e lblk len f.tree path = false ∧
    Stale env.split (convFlags info e lblk len) e (plan info env f e lblk len).lblk (plan info env f e lblk len).len

/-- What the conversion of a range of an unwritten extent may change; `o` is the answer for the blocks before it. -/
structure Converted (e : Extent) (lblk len : ℕ) (o : ZeroOut) (exposes : Prop) (g : ℕ → Bool → Bool)
    (z : ℕ → Bool) : Prop where
  outside : ∀ L w, ¬ (e.eeBlock ≤ L ∧ L < e.last) → g L w = w ∧ z L = false
  quiet : ∀ L, e.eeBlock ≤ L → L < e.last → ¬ (lblk ≤ L ∧ L < lblk + len) → (exposes → lblk ≤ L) → Quiet g z L true
  inside : ∀ L, lblk ≤ L → L < lblk + len → z L = false
  exposed : exposes → ∀ L, e.eeBlock ≤ L → L < lblk → g L true = false ∧ (o.err = none → z L = false)

/-- The split of the range with the zeroed blocks around it. -/
theorem Around.converted {p : Plan α} {z₀ z : ℕ → Bool} {g : ℕ → Bool → Bool} {stale : Prop} {o : ZeroOut}
    (ha : Around f e lblk len p z₀) (hbf : Before o p z₀) (hw : ext4ExtIsUnwritten e = true) (h1 : e.eeBlock ≤ lblk)
    (hc : Confined e p.lblk (min (p.lblk + p.len) e.last) stale g z) (hstale : stale → e.eeBlock < p.lblk) :
    Converted e lblk len o stale g fun L => z₀ L || z L := by
  have hstart := ha.start
  have hstop := ha.stop
  refine ⟨fun L w hL => ?_, fun L hL hL' hnot hst => ?_, fun L hL hL' => ?_, fun hs L hL hL' => ?_⟩
  · have h0 : z₀ L = false := by
      rw [← Bool.not_eq_true]
      exact fun h => hL (ha.within L h)
    rw [(hc.outside L w hL).2, h0]
    exact ⟨(hc.outside L w hL).1, rfl⟩
  · by_cases hin : p.lblk ≤ L ∧ L < p.lblk + p.len
    · exact .inr (by simp only [ha.zeros L hin.1 hin.2 hnot, Bool.true_or])
    · have hq := hc.quiet L hL hL' (by omega) fun hs => by
        have := hst hs
        omega
      rw [hw] at hq
      exact hq.imp id fun h => by simp only [h, Bool.or_true]
  · rw [ha.inside L hL hL', Bool.false_or]
    by_cases hlast : L < e.last
    · exact (hc.inside L (by omega) (by omega)).1
    · exact (hc.outside L true (by omega)).2
  · have hlt := hstale hs
    obtain ⟨hg, hz⟩ := hc.exposed hs L hL (by omega)
    rw [hw] at hg
    refine ⟨hg, fun ho => ?_⟩
    rw [hz, Bool.or_false, ← Bool.not_eq_true]
    exact fun h0 => hbf L (by omega) h0 ho

/-- The split of the planned range. -/
theorem planSplit_spec (info : Info) (env : ConvEnv) (h : Sound f) (hat : At f.tree.1 f.tree.2 path l (some e) r)
    (hw : ext4ExtIsUnwritten e = true) (h1 : e.eeBlock ≤ lblk) (h2 : lblk < e.last) (hlen : 0 < len)
    (h32 : lblk + len < 2 ^ 32) (hmove : transfers e lblk len f.tree path = false)
    (hclean : Clean env.split.first ∧ Clean env.split.second) :
    ∃ f' ret g z, ext4SplitExtent info.blocksize env.split { f with disk := (plan info env f e lblk len).disk } path
        (plan info env f e lblk len).lblk (plan info env f e lblk len).len (convFlags info e lblk len) false =
        some (f', ret) ∧ Changes g z f f' ∧
      Converted e lblk len env.zero2 (Exposes info env f path e lblk len) g z ∧
      (min (lblk + len) e.last ≤ lblk + (plan info env f e lblk len).allocated ∧
        lblk + (plan info env f e lblk len).allocated ≤ e.last) ∧
      (∀ n, ret = .ok n → ∀ L, lblk ≤ L → L < min (lblk + len) e.last → g L true = false) := by
  have hex := exts_of_at hat
  obtain ⟨z₀, ha, hbf⟩ := zeroAround_around env (if mayZeroout info e lblk len then info.maxZeroout else 0) h hex h1 h2
    len
  change Around f e lblk len (plan info env f e lblk len) z₀ at ha
  change Before env.zero2 (plan info env f e lblk len) z₀ at hbf
  have hstart : e.eeBlock ≤ (plan info env f e lblk len).lblk ∧ (plan info env f e lblk len).lblk ≤ lblk := by
    rcases ha.start with hs | hs <;> omega
  have hstop := ha.stop
  have hmax := ha.le_max
  have hbound : e.last < 2 ^ 32 := by
    have := (h.wf.valid.legal e (by simp [hex])).last_le
    unfold EXT_MAX_BLOCKS at this
    omega
  obtain ⟨f', ret, g, z, hrun, hc, hconf, hdone, -⟩ := splitExtent_spec info.blocksize env.split
    (plan info env f e lblk len).lblk (plan info env f e lblk len).len (convFlags info e lblk len) false
    ha.changes.sound hat hstart.1 (by omega) (by omega) (by omega) (fun _ => ⟨rfl, hw⟩) hclean
  have hconv := ha.converted hbf hw h1 hconf fun hs => hs.1
  have hiff : Stale env.split (convFlags info e lblk len) e (plan info env f e lblk len).lblk
      (plan info env f e lblk len).len ↔ Exposes info env f path e lblk len :=
    ⟨fun hs => ⟨hmove, hs⟩, fun he => he.2⟩
  rw [hiff] at hconv
  refine ⟨f', ret, g, _, hrun, ha.changes.trans hc, hconv, ha.ret, fun n hn L hL hL' => ?_⟩
  have := (hdone n hn).2.states rfl L (by omega) (by omega)
  rwa [hw] at this

/-- What the call does, for every answer of its calls. -/
theorem convert_spec (info : Info) (env : ConvEnv) (h : Sound f)
    (hat : At f.tree.1 f.tree.2 path l (some e) r) (hw : ext4ExtIsUnwritten e = true) (h1 : e.eeBlock ≤ lblk)
    (h2 : lblk < e.last) (hlen : 0 < len) (h32 : lblk + len < 2 ^ 32)
    (hclean : Clean env.split.first ∧ Clean env.split.second) :
    ∃ f' ret g z, ext4ExtConvertToInitialized info env f path lblk len = some (f', ret) ∧ Changes g z f f' ∧
      Converted e lblk len env.zero2 (Exposes info env f path e lblk len) g z ∧
      (∀ n, ret = .ok n → (min (lblk + len) e.last ≤ lblk + n ∧ lblk + n ≤ e.last) ∧
        ∀ L, lblk ≤ L → L < min (lblk + len) e.last → g L true = false) := by
  have hget : pExt f.tree path = some e := hat.item_eq
  have hlast : e.last = e.eeBlock + ext4ExtGetActualLen e := rfl
  unfold ext4ExtConvertToInitialized
  simp only [hget]
  have hin : ¬ (ext4ExtIsUnwritten e = false ∨ ¬ (e.eeBlock ≤ lblk ∧ lblk < e.eeBlock + ext4ExtGetActualLen e)) := by
    rw [hw, ← hlast]
    simp [h1, h2]
  rw [if_neg hin]
  by_cases hmove : transfers e lblk len f.tree path = true
  · have hne : ¬ Exposes info env f path e lblk len := fun he => by
      rw [he.1] at hmove
      cases hmove
    obtain ⟨hwf, hr, hend⟩ := transfer_restates h hat hw h1 hlen h32 hmove rfl
    rw [if_pos hmove]
    cases env.access with
    | some err =>
      exact ⟨f, _, _, _, rfl, .refl h, ⟨fun _ _ _ => ⟨rfl, rfl⟩, fun _ _ _ _ _ => .inl rfl, fun _ _ _ => rfl,
        fun he => absurd he hne⟩, by simp⟩
    | none =>
      refine ⟨_, _, _, _, rfl, hr.changes h hwf, ⟨fun L w hL => ⟨if_neg (by omega), rfl⟩,
        fun L _ _ hnot _ => .inl (if_neg hnot), fun _ _ _ => rfl, fun he => absurd he hne⟩,
        fun n hn => ⟨?_, fun L hL hL' => if_pos ⟨hL, by omega⟩⟩⟩
      cases hd : env.dirty with
      | some err => simp [hd] at hn
      | none =>
        have : len = n := by simpa [hd] using hn
        omega
  · rw [if_neg hmove]
    obtain ⟨f', ret, g, z, hrun, hc, hconv, halloc, hdone⟩ := planSplit_spec info env h hat hw h1 h2 hlen h32
      (Bool.eq_false_of_not_eq_true hmove) hclean
    unfold convFlags plan mayZeroout at hrun
    rw [hrun]
    cases ret with
    | error err => exact ⟨f', _, g, z, rfl, hc, hconv, by simp⟩
    | ok n =>
      refine ⟨f', _, g, z, rfl, hc, hconv, fun m hm => ⟨?_, hdone n rfl⟩⟩
      have hm' : (plan info env f e lblk len).allocated = m := Except.ok.inj hm
      exact hm' ▸ halloc

/-- A file of one extent; every block of the device holds its number. -/
def single (e : Extent) : File ℕ := ⟨⟨0, (⟨4, [e]⟩ : Block Extent)⟩, id⟩

theorem sound_single (he : Legal e) (hs : e.eeStart + ext4ExtGetActualLen e ≤ 2 ^ 48) : Sound (single e) := by
  have hmap : ∀ L p w, (single e).map L = some (p, w) → p = e.eeStart + (L - e.eeBlock) ∧ e.eeBlock ≤ L ∧ L < e.last := by
    intro L p w hm
    have hexts : exts (single e).tree = [e] := rfl
    rw [File.map, hexts, blockMap_single] at hm
    split_ifs at hm with hL
    exact ⟨(Prod.mk.inj (Option.some.inj hm)).1.symm, hL⟩
  refine ⟨⟨trivial, validMap_cons.mpr ⟨he, ⟨by simp, by simp⟩, by simp⟩⟩, fun L p w hm => ?_, fun L L' p w w' hm hm' => ?_⟩
  · obtain ⟨rfl, h1, h2⟩ := hmap L p w hm
    unfold Extent.last at h2
    omega
  · have := hmap L p w hm
    have := hmap L' p w' hm'
    omega

/-- A file of one unwritten extent, over the blocks 0 to 7. -/
def oneExtent : File ℕ := single ⟨0, 32768 + 8, 100⟩

theorem sound_oneExtent : Sound oneExtent := sound_single ⟨by decide, by decide, by decide, by decide⟩ (by decide)

/-- A split at the end of the range that finds no space, and a zeroing that succeeds. -/
def noSpace : ConvEnv :=
  let ans : SplitAns := ⟨none, none, some (ENOSPC, false), ⟨none, fun _ => false⟩, false, none⟩
  let fine : SplitAns := ⟨none, none, none, ⟨none, fun _ => false⟩, false, none⟩
  ⟨none, none, ⟨none, fun _ => false⟩, ⟨none, fun _ => false⟩, ⟨ans, none, fine⟩⟩

end convert

end LinuxEvfs.Unwritten.Convert
