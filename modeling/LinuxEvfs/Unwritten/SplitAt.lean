import LinuxEvfs.Unwritten.Model

/-! # One split

What `ext4_split_extent_at` makes of a file, for every answer of its calls.

* `SplitEnd`: the extent is cut in two, or the whole of it is written and a part of its blocks zeroed, or it stays as
  it was.
* `splitAt_end`: there is no other way, unless a part of the extent is lost or stands in the tree twice (`Clean`). -/

namespace LinuxEvfs.Unwritten.SplitAt

open LinuxEvfs.Errno LinuxEvfs.Lib.Word LinuxEvfs.Lib.IndexTree
open LinuxEvfs.ExtTree.Basic LinuxEvfs.ExtTree.Cells LinuxEvfs.ExtTree.Tree
open LinuxEvfs.ExtTree.Split hiding ext4SplitExtentAt
open LinuxEvfs.ExtTree.Insert LinuxEvfs.Unwritten.View LinuxEvfs.Unwritten.Model

variable {α : Type} {f f' : File α} {e : Extent} {l r : List Extent} {x : ℕ}

/-! ### Extents in the place of one -/

/-- A valid map with other extents between two blocks. -/
theorem validMap_between {lo hi : ℕ} (es : List Extent) (hl : ValidMap l) (hr : ValidMap r) (hes : ValidMap es)
    (hlo : ∀ a ∈ l, a.last ≤ lo) (hhi : ∀ b ∈ r, hi ≤ b.eeBlock) (hlohi : lo ≤ hi)
    (hin : ∀ a ∈ es, lo ≤ a.eeBlock ∧ a.last ≤ hi) : ValidMap (l ++ es ++ r) := by
  rw [List.append_assoc]
  refine validMap_append.mpr ⟨hl, validMap_append.mpr ⟨hes, hr, fun a ha b hb => ?_⟩, fun a ha b hb => ?_⟩
  · exact (hin a ha).2.trans (hhi b hb)
  · rcases List.mem_append.mp hb with hb | hb
    · exact (hlo a ha).trans (hin b hb).1
    · exact (hlo a ha).trans (hlohi.trans (hhi b hb))

/-- A valid map with other extents in the place of one. -/
theorem validMap_replace (es : List Extent) (h : ValidMap (l ++ e :: r)) (hes : ValidMap es)
    (hin : ∀ a ∈ es, e.eeBlock ≤ a.eeBlock ∧ a.last ≤ e.last) : ValidMap (l ++ es ++ r) := by
  obtain ⟨hl, hr, hlr⟩ := validMap_append.mp h
  obtain ⟨he, hr', her⟩ := validMap_cons.mp hr
  exact validMap_between es hl hr' hes (fun a ha => hlr a ha e (by simp)) her he.block_lt_last.le hin

/-- An extent over the same blocks, in the state `u`. -/
structure Same (e e' : Extent) (u : Bool) : Prop where
  legal : Legal e'
  block : e'.eeBlock = e.eeBlock
  start : e'.eeStart = e.eeStart
  last : e'.last = e.last
  state : ext4ExtIsUnwritten e' = u

/-- A piece of an extent, in the state `u`. -/
structure Piece (e a : Extent) (lo hi : ℕ) (u : Bool) : Prop where
  legal : Legal a
  block : a.eeBlock = lo
  start : a.eeStart = e.eeStart + (lo - e.eeBlock)
  last : a.last = hi
  state : ext4ExtIsUnwritten a = u

/-- Two pieces next to each other. -/
theorem blockMap_pair {a b : Extent} {m n : ℕ} {u v : Bool} (ha : Piece e a e.eeBlock m u) (hb : Piece e b m n v)
    (h1 : e.eeBlock ≤ m) (h2 : m ≤ n) (L : ℕ) : blockMap [a, b] L =
      if e.eeBlock ≤ L ∧ L < n then some (e.eeStart + (L - e.eeBlock), if L < m then u else v) else none := by
  rw [blockMap_cons, blockMap_single, ha.block, ha.start, ha.last, ha.state, hb.block, hb.start, hb.last, hb.state]
  by_cases hL : e.eeBlock ≤ L ∧ L < n
  · by_cases hx : L < m
    · rw [if_pos ⟨hL.1, hx⟩, if_pos hL, if_pos hx, Nat.sub_self, Nat.add_zero]
    · have hoff : e.eeStart + (m - e.eeBlock) + (L - m) = e.eeStart + (L - e.eeBlock) := by omega
      rw [if_neg (by omega), if_pos ⟨by omega, hL.2⟩, if_pos hL, if_neg hx, hoff]
  · rw [if_neg (by omega), if_neg (by omega), if_neg hL]

/-- Two pieces next to each other are a valid map. -/
theorem validMap_pair {a b : Extent} {lo m n : ℕ} {u v : Bool} (ha : Piece e a lo m u) (hb : Piece e b m n v) :
    ValidMap [a, b] :=
  validMap_cons.mpr ⟨ha.legal, validMap_cons.mpr ⟨hb.legal, ⟨by simp, by simp⟩, by simp⟩, by simp [ha.last, hb.block]⟩

theorem Legal.setLen_same (h : Legal e) {u : Bool} (hu : u = true → ext4ExtGetActualLen e ≤ EXT_UNWRITTEN_MAX_LEN) :
    Same e (setLen e (ext4ExtGetActualLen e) u) u := by
  obtain ⟨a1, a2, a3, a4⟩ := setLen_spec (e := e) (u := u) h.len_pos h.len_le.1 hu
  have hlast : (setLen e (ext4ExtGetActualLen e) u).last = e.last := by
    rw [Extent.last, a1, setLen_eeBlock, Extent.last]
  exact ⟨⟨a3, a4, hlast ▸ h.last_le, by rw [setLen_eeStart]; exact h.start_lt⟩, setLen_eeBlock, setLen_eeStart, hlast, a2⟩

theorem markInitialized_eq (h : Legal e) : ext4ExtMarkInitialized e = setLen e (ext4ExtGetActualLen e) false := by
  have := h.len_le.1
  unfold ext4ExtMarkInitialized setLen EXT_INIT_MAX_LEN at *
  rw [Nat.mod_eq_of_lt (by omega)]
  rfl

theorem lor_of_high {n : ℕ} (h1 : 32768 ≤ n) (h2 : n < 65536) : n ||| 32768 = n := by
  have h := lor_initMaxLen (n := n - 32768) (by omega)
  have hn : n - 32768 + 32768 = n := by omega
  rw [hn] at h
  rw [← h, Nat.lor_assoc, Nat.or_self]

/-- Marking an unwritten extent unwritten changes nothing, and a written one gets the flag. -/
theorem markUnwritten_eq (h : Legal e) (hlen : ext4ExtGetActualLen e ≤ EXT_UNWRITTEN_MAX_LEN) :
    ext4ExtMarkUnwritten e = setLen e (ext4ExtGetActualLen e) true := by
  have hlt := h.len_lt
  unfold EXT_UNWRITTEN_MAX_LEN at hlen
  unfold ext4ExtMarkUnwritten setLen ext4ExtMarkUnwritten
  rw [if_pos rfl, Nat.mod_eq_of_lt (by omega)]
  unfold ext4ExtGetActualLen EXT_INIT_MAX_LEN at *
  by_cases hi : e.eeLen ≤ 32768
  · rw [if_pos hi]
  · rw [if_neg hi] at hlen ⊢
    have hback : (e.eeLen - 32768) ||| 32768 = e.eeLen := by
      rw [lor_initMaxLen (by omega)]
      omega
    rw [lor_of_high (by omega) hlt, hback]

theorem mark_same {u : Bool} (h : Legal e) (hu : u = true → ext4ExtIsUnwritten e = true) :
    Same e ((if u then ext4ExtMarkUnwritten else ext4ExtMarkInitialized) e) u := by
  cases u with
  | true =>
    rw [if_pos rfl, markUnwritten_eq h (h.len_le.2 (hu rfl))]
    exact Legal.setLen_same h fun _ => h.len_le.2 (hu rfl)
  | false =>
    rw [if_neg (by simp), markInitialized_eq h]
    exact Legal.setLen_same h (by simp)

/-- Cutting an extent in two pieces with states of their own. -/
theorem split_pieces {u1 u2 : Bool} (h : Legal e) (h1 : e.eeBlock < x) (h2 : x < e.last)
    (hsmall : e.eeStart + (x - e.eeBlock) < 2 ^ 48) (hu1 : u1 = true → ext4ExtIsUnwritten e = true)
    (hu2 : u2 = true → ext4ExtIsUnwritten e = true) :
    Piece e (setLen e (x - e.eeBlock) u1) e.eeBlock x u1 ∧ Piece e (splitTail e x u2) x e.last u2 := by
  obtain ⟨hlen, hun⟩ := h.len_le
  have hlast := h.last_le
  have hstart := h.start_lt
  unfold Extent.last at h2 hlast
  obtain ⟨a1, a2, a3, a4⟩ := setLen_spec (e := e) (n := x - e.eeBlock) (u := u1) (by omega) (by omega)
    fun hu => by have := hun (hu1 hu); omega
  obtain ⟨b1, b2, b3, b4⟩ := setLen_spec (e := { eeBlock := x, eeLen := 0, eeStart := 0 })
    (n := ext4ExtGetActualLen e - (x - e.eeBlock)) (u := u2) (by omega) (by omega)
    fun hu => by have := hun (hu2 hu); omega
  have hlasta : (setLen e (x - e.eeBlock) u1).last = x := by
    rw [Extent.last, a1, setLen_eeBlock]
    omega
  have hblockb : (splitTail e x u2).eeBlock = x := setLen_eeBlock
  have hlastb : (splitTail e x u2).last = e.last := by
    have hlenb : ext4ExtGetActualLen (splitTail e x u2) = ext4ExtGetActualLen e - (x - e.eeBlock) := b1
    rw [Extent.last, hblockb, hlenb, Extent.last]
    omega
  have hstartb : (splitTail e x u2).eeStart = e.eeStart + (x - e.eeBlock) := by
    have hst : (splitTail e x u2).eeStart = add64 (x - e.eeBlock) e.eeStart % 2 ^ 48 := rfl
    rw [hst, add64_of_lt (by unfold EXT_MAX_BLOCKS at hlast; omega), Nat.add_comm, Nat.mod_eq_of_lt hsmall]
  refine ⟨⟨⟨a3, a4, ?_, by rw [setLen_eeStart]; exact hstart⟩, setLen_eeBlock, by rw [setLen_eeStart]; simp, hlasta, a2⟩,
    ⟨⟨b3, b4, hlastb ▸ h.last_le, hstartb ▸ hsmall⟩, hblockb, hstartb, hlastb, b2⟩⟩
  rw [hlasta]
  omega

/-- The state of the flags is that of the extent, or written. -/
def Flags (fl : SplitFlag) (e : Extent) : Prop :=
  ext4ExtIsUnwritten e = false → fl.mayZeroout = false ∧ fl.markUnwrit1 = false ∧ fl.markUnwrit2 = false

theorem Flags.unwritten {fl : SplitFlag} {u : Bool} (h : Flags fl e) (hu : u = fl.markUnwrit1 ∨ u = fl.markUnwrit2)
    (htrue : u = true) : ext4ExtIsUnwritten e = true := by
  by_contra hw
  obtain ⟨-, f2, f3⟩ := h (by simpa using hw)
  rcases hu with rfl | rfl
  · rw [f2] at htrue
    cases htrue
  · rw [f3] at htrue
    cases htrue

theorem Flags.pieces {fl : SplitFlag} (hfl : Flags fl e) (h : Sound f) (hex : exts f.tree = l ++ e :: r)
    (h1 : e.eeBlock < x) (h2 : x < e.last) :
    Piece e (setLen e (x - e.eeBlock) fl.markUnwrit1) e.eeBlock x fl.markUnwrit1 ∧
      Piece e (splitTail e x fl.markUnwrit2) x e.last fl.markUnwrit2 :=
  split_pieces (h.wf.valid.legal e (by simp [hex])) h1 h2 (h.small x _ _ (h.map_inside hex ⟨h1.le, h2⟩))
    (hfl.unwritten (.inl rfl)) (hfl.unwritten (.inr rfl))

/-! ### The tree -/

section tree
variable {t : ExtRoot} {path : Path t.1}

/-- The extent of a path overwritten by one over the same blocks. -/
theorem updExt_same {g : Extent → Extent} {u : Bool} (h : WellFormed t) (hat : At t.1 t.2 path l (some e) r)
    (hg : ∀ b, (g b).eeBlock = b.eeBlock) (hsame : Same e (g e) u) :
    WellFormed (updExt g t path) ∧ exts (updExt g t path) = l ++ g e :: r := by
  have hex := updExt_exts (g := g) hat
  refine ⟨⟨updItem_indexed hg path h.indexed, ?_⟩, hex⟩
  rw [hex]
  have hv : ValidMap (l ++ e :: r) := exts_of_at hat ▸ h.valid
  have := validMap_replace [g e] hv (validMap_cons.mpr ⟨hsame.legal, ⟨by simp, by simp⟩, by simp⟩) fun a ha => by
    obtain rfl := List.mem_singleton.mp ha
    exact ⟨hsame.block.ge, hsame.last.le⟩
  simpa using this

theorem merge_unless (extend noMerge : Bool) (h : WellFormed t) (hat : At t.1 t.2 path l (some e) r) :
    WellFormed (if noMerge then t else ext4ExtTryToMerge extend t path) ∧
      cells (exts (if noMerge then t else ext4ExtTryToMerge extend t path)) = cells (exts t) := by
  split_ifs
  · exact ⟨h, rfl⟩
  · exact tryToMerge_spec extend h hat

end tree

/-- The states behind a change of one extent's state. -/
theorem restates_same {u : Bool} {e' : Extent} (h : Sound f) (hex : exts f.tree = l ++ e :: r) (hsame : Same e e' u)
    {t : ExtRoot} (hw : WellFormed t) (hv : ValidMap (l ++ e' :: r)) (hc : cells (exts t) = cells (l ++ e' :: r)) :
    Restates (put e.eeBlock e.last u) f { f with tree := t } := by
  refine ⟨rfl, fun L => ?_⟩
  have hrep := blockMap_replace [e'] (l := l) (r := r) (g := fun _ => u) (hex ▸ h.wf.valid) (fun L => by
    rw [blockMap_single, hsame.block, hsame.start, hsame.last, hsame.state]) L
  rw [File.map, blockMap_congr hv hw.valid hc, File.map, hex]
  simpa [put] using hrep

/-- The states of the two pieces. -/
def halves (e : Extent) (x : ℕ) (u1 u2 : Bool) (L : ℕ) (w : Bool) : Bool :=
  if e.eeBlock ≤ L ∧ L < e.last then if L < x then u1 else u2 else w

theorem restates_pieces {u1 u2 : Bool} {a b : Extent} (h : Sound f) (hex : exts f.tree = l ++ e :: r)
    (h1 : e.eeBlock < x) (h2 : x < e.last) (ha : Piece e a e.eeBlock x u1) (hb : Piece e b x e.last u2)
    {t : ExtRoot} (hw : WellFormed t) (hv : ValidMap (l ++ a :: b :: r)) (hc : cells (exts t) = cells (l ++ a :: b :: r)) :
    Restates (halves e x u1 u2) f { f with tree := t } := by
  refine ⟨rfl, fun L => ?_⟩
  have hrep := blockMap_replace [a, b] (l := l) (r := r) (hex ▸ h.wf.valid) (blockMap_pair ha hb h1.le h2.le) L
  rw [File.map, blockMap_congr hv hw.valid hc, File.map, hex]
  simpa [halves] using hrep

/-! ### The ways in which it ends -/

/-- A failing insertion has put the new extent in unless the error is one that restores the length. -/
def Clean (ans : SplitAns) : Prop := ∀ err inserted, ans.insert = some (err, inserted) → inserted = !restores err

/-- The extent is made written as a whole, a part of it being zeroed. -/
structure Zeroes (ans : SplitAns) (fl : SplitFlag) (e : Extent) (x : ℕ) : Prop where
  may : fl.mayZeroout = true
  inner : e.eeBlock ≠ x
  access : ans.access = none
  dirty : ans.dirty = none
  insert : ∃ err inserted, ans.insert = some (err, inserted) ∧ restores err = true
  zero : ans.zero.err = none

/-- The part that is zeroed. -/
def zeroRange (fl : SplitFlag) (e : Extent) (x : ℕ) : ℕ × ℕ :=
  if fl.dataValid1 then (x, e.last) else if fl.dataValid2 then (e.eeBlock, x) else (e.eeBlock, e.last)

/-- The extents behind a split that does not merge. -/
inductive Cut (x : ℕ) (fl : SplitFlag) (l : List Extent) (e : Extent) (r : List Extent) (t : ExtRoot) : Prop
  | start (b : Extent) (hx : e.eeBlock = x) (hex : exts t = l ++ b :: r) (hb : Same e b fl.markUnwrit2)
  | inner (a b : Extent) (hex : exts t = l ++ a :: b :: r) (ha : Piece e a e.eeBlock x fl.markUnwrit1)
      (hb : Piece e b x e.last fl.markUnwrit2)

/-- How `ext4_split_extent_at` ends. -/
inductive SplitEnd [Zero α] (ans : SplitAns) (f : File α) (l : List Extent) (e : Extent) (r : List Extent) (x : ℕ)
    (fl : SplitFlag) (preIo : Bool) (f' : File α) (ret : Option Errno) : Prop
  /-- Both sides have their states. -/
  | split (hz : ¬ Zeroes ans fl e x) (hc : Changes (halves e x fl.markUnwrit1 fl.markUnwrit2) (fun _ => false) f f')
      (hcut : preIo = true → Cut x fl l e r f'.tree)
  /-- The whole extent is written. -/
  | zeroed (hz : Zeroes ans fl e x)
      (hc : Changes (put e.eeBlock e.last false) (ans.zero.set (zeroRange fl e x).1 (zeroRange fl e x).2) f f')
  /-- The states are as they were; blocks may have been zeroed. -/
  | kept (hz : ¬ Zeroes ans fl e x) (hret : ret ≠ none) (z : ℕ → Bool) (hc : Changes (fun _ w => w) z f f')
      (hmay : ∀ L, z L = true → fl.mayZeroout = true ∧ (zeroRange fl e x).1 ≤ L ∧ L < (zeroRange fl e x).2)

section ends
variable [Zero α] {path : Path f.tree.1} {ans : SplitAns} {fl : SplitFlag} {preIo : Bool}

/-- One extent in a new state, merged or not. -/
theorem updExt_changes {g : Extent → Extent} {u : Bool} (h : Sound f) (hat : At f.tree.1 f.tree.2 path l (some e) r)
    (hg : ∀ b, (g b).eeBlock = b.eeBlock) (hsame : Same e (g e) u) {t : ExtRoot} (hw : WellFormed t)
    (hc : cells (exts t) = cells (exts (updExt g f.tree path))) :
    Changes (put e.eeBlock e.last u) (fun _ => false) f { f with tree := t } := by
  obtain ⟨hw', hex⟩ := updExt_same h.wf hat hg hsame
  exact (restates_same h (exts_of_at hat) hsame hw (hex ▸ hw'.valid) (hex ▸ hc)).changes h hw

/-- The extent rewritten as it is. -/
theorem updExt_id_changes (h : Sound f) (hat : At f.tree.1 f.tree.2 path l (some e) r) :
    Changes (fun _ w => w) (fun _ => false) f { f with tree := updExt id f.tree path } := by
  have hex := exts_of_at hat
  have hsame : Same e (id e) (ext4ExtIsUnwritten e) := ⟨h.wf.valid.legal e (by simp [hex]), rfl, rfl, rfl, rfl⟩
  have hc := updExt_changes h hat (fun _ => rfl) hsame (updExt_same h.wf hat (fun _ => rfl) hsame).1 rfl
  refine hc.congr fun L p w hm => ⟨?_, rfl⟩
  unfold put
  split_ifs with hL
  · rw [h.map_inside hex hL] at hm
    exact (Prod.mk.inj (Option.some.inj hm)).2.symm
  · rfl

/-- The whole extent made written, and merged. -/
theorem whole_changes (extend : Bool) (h : Sound f) (hat : At f.tree.1 f.tree.2 path l (some e) r) :
    Changes (put e.eeBlock e.last false) (fun _ => false) f { f with
      tree := ext4ExtTryToMerge extend (updExt (setLen · (ext4ExtGetActualLen e) false) f.tree path)
        (ext4FindExtent (updExt (setLen · (ext4ExtGetActualLen e) false) f.tree path) e.eeBlock) } := by
  have hleg : Legal e := h.wf.valid.legal e (by simp [exts_of_at hat])
  have hkey : ∀ b : Extent, (setLen b (ext4ExtGetActualLen e) false).eeBlock = b.eeBlock := fun _ => setLen_eeBlock
  have hsame : Same e (setLen e (ext4ExtGetActualLen e) false) false := Legal.setLen_same hleg (by simp)
  obtain ⟨hw, hex⟩ := updExt_same h.wf hat hkey hsame
  have hat' := find_start hw hex
  rw [hkey] at hat'
  obtain ⟨hw', hc⟩ := tryToMerge_spec extend hw hat'
  exact updExt_changes h hat hkey hsame hw' hc

/-- The extent shortened and the rest of it inserted. -/
theorem insert_changes (blocksize : ℕ) (preIo extend : Bool) (h : Sound f) (hat : At f.tree.1 f.tree.2 path l (some e) r)
    (h1 : e.eeBlock < x) (h2 : x < e.last) (hfl : Flags fl e) {t : ExtRoot}
    (ht : t = insertExtent blocksize preIo extend (splitTail e x fl.markUnwrit2)
      (updExt (setLen · (x - e.eeBlock) fl.markUnwrit1) f.tree path) path) :
    Changes (halves e x fl.markUnwrit1 fl.markUnwrit2) (fun _ => false) f { f with tree := t } ∧
      (preIo = true → Cut x fl l e r t) := by
  have hex := exts_of_at hat
  have hv : ValidMap (l ++ e :: r) := hex ▸ h.wf.valid
  obtain ⟨ha, hb⟩ := hfl.pieces h hex h1 h2
  have hv' : ValidMap (l ++ setLen e (x - e.eeBlock) fl.markUnwrit1 :: splitTail e x fl.markUnwrit2 :: r) := by
    have := validMap_replace [setLen e (x - e.eeBlock) fl.markUnwrit1, splitTail e x fl.markUnwrit2] hv
      (validMap_pair ha hb) fun c hc => by
        simp only [List.mem_cons, List.not_mem_nil, or_false] at hc
        rcases hc with rfl | rfl
        · exact ⟨ha.block.ge, ha.last.trans_le h2.le⟩
        · exact ⟨h1.le.trans hb.block.ge, hb.last.le⟩
    simpa using this
  have hshort : WellFormed (updExt (setLen · (x - e.eeBlock) fl.markUnwrit1) f.tree path) := by
    refine ⟨updItem_indexed (fun b => setLen_eeBlock) path h.wf.indexed, ?_⟩
    rw [updExt_exts hat]
    have hsub : (l ++ setLen e (x - e.eeBlock) fl.markUnwrit1 :: r).Sublist
        (l ++ setLen e (x - e.eeBlock) fl.markUnwrit1 :: splitTail e x fl.markUnwrit2 :: r) := by
      simp
    exact ⟨fun c hc => hv'.legal c (hsub.subset hc), hv'.sorted.sublist hsub⟩
  have hat' : At (updExt (setLen · (x - e.eeBlock) fl.markUnwrit1) f.tree path).1
      (updExt (setLen · (x - e.eeBlock) fl.markUnwrit1) f.tree path).2 path l (some (setLen e (x - e.eeBlock) fl.markUnwrit1)) r := hat.updItem
  subst ht
  obtain ⟨hw, hc⟩ := insertExtent_behind blocksize preIo extend hshort hat' hv'
  refine ⟨(restates_pieces h hex h1 h2 ha hb hw hv' hc).changes h hw, fun hpre => .inner _ _ ?_ ha hb⟩
  subst hpre
  exact (insert_behind blocksize hshort hat' hv').2

/-- What is zeroed is the range. -/
theorem zeroPart_eq {u1 u2 : Bool} (z : ZeroOut) (ha : Piece e (setLen e (x - e.eeBlock) u1) e.eeBlock x u1)
    (hb : Piece e (splitTail e x u2) x e.last u2) (disk : ℕ → α) :
    ext4ExtZeroout z (zeroPart fl e (setLen e (x - e.eeBlock) u1) (splitTail e x u2)) disk =
      wipe z (e.eeStart + ((zeroRange fl e x).1 - e.eeBlock)) ((zeroRange fl e x).2 - (zeroRange fl e x).1) disk := by
  have hlen : ∀ {a : Extent} {lo hi : ℕ} {u : Bool}, Piece e a lo hi u → ext4ExtGetActualLen a = hi - lo := by
    intro a lo hi u ha
    have := ha.last
    rw [Extent.last, ha.block] at this
    omega
  unfold ext4ExtZeroout zeroPart zeroRange ext4ExtPblock
  split_ifs
  · rw [hlen hb, hb.start]
  · rw [hlen ha, ha.start]
  · have : ext4ExtGetActualLen e = e.last - e.eeBlock := by
      unfold Extent.last
      omega
    rw [this, Nat.sub_self, Nat.add_zero]

section inner
variable (blocksize : ℕ) (h : Sound f) (hat : At f.tree.1 f.tree.2 path l (some e) r) (h1 : e.eeBlock < x) (h2 : x < e.last)
  (hfl : Flags fl e)
include h hat h1 h2 hfl

variable (ans) in
/-- The blocks of the range, zeroed in part. -/
theorem zeroout_changes :
    Changes (fun _ w => w) (ans.zero.set (zeroRange fl e x).1 (zeroRange fl e x).2) f
      { f with disk := ext4ExtZeroout ans.zero (zeroPart fl e (setLen e (x - e.eeBlock) fl.markUnwrit1)
        (splitTail e x fl.markUnwrit2)) f.disk } := by
  have hex := exts_of_at hat
  obtain ⟨ha, hb⟩ := hfl.pieces h hex h1 h2
  rw [zeroPart_eq ans.zero ha hb]
  refine wipe_changes ans.zero h fun L hlo hhi => ⟨ext4ExtIsUnwritten e, ?_⟩
  have hin : e.eeBlock ≤ (zeroRange fl e x).1 ∧ (zeroRange fl e x).2 ≤ e.last := by
    unfold zeroRange
    split_ifs <;> exact ⟨by omega, by omega⟩
  rw [h.map_inside hex ⟨by omega, by omega⟩]
  have hoff : e.eeStart + ((zeroRange fl e x).1 - e.eeBlock) + (L - (zeroRange fl e x).1) = e.eeStart + (L - e.eeBlock) := by
    omega
  rw [hoff]

/-- **Every end** of case a. -/
theorem splitInner_end (hacc : ans.access = none) (hclean : Clean ans) :
    SplitEnd ans f l e r x fl preIo (splitInner blocksize ans f path e x fl preIo).1
      (splitInner blocksize ans f path e x fl preIo).2 := by
  have hex := exts_of_at hat
  have hleg : Legal e := h.wf.valid.legal e (by simp [hex])
  have hzero := zeroout_changes ans h hat h1 h2 hfl
  have hins := insert_changes blocksize preIo ans.extend h hat h1 h2 hfl rfl
  unfold splitInner
  cases hdirty : ans.dirty with
  | some err =>
    refine .kept (fun hz => ?_) (by simp) (fun _ => false) (.refl h) (by simp)
    rw [hz.dirty] at hdirty
    cases hdirty
  | none =>
    cases hinsert : ans.insert with
    | none =>
      refine .split (fun hz => ?_) hins.1 hins.2
      obtain ⟨err, inserted, hi, -⟩ := hz.insert
      rw [hi] at hinsert
      cases hinsert
    | some v =>
      obtain ⟨err, inserted⟩ := v
      have hinserted := hclean err inserted hinsert
      have hzeroes : Zeroes ans fl e x → restores err = true := fun hz => by
        obtain ⟨err', inserted', hi, hres⟩ := hz.insert
        rw [hinsert] at hi
        obtain ⟨rfl, -⟩ := Prod.mk.inj (Option.some.inj hi)
        exact hres
      cases hres : restores err with
      | false =>
        have htrue : inserted = true := by rw [hinserted, hres]; rfl
        subst htrue
        simp only [hres, failedInsert, if_true]
        refine .split (fun hz => ?_) hins.1 hins.2
        rw [hzeroes hz] at hres
        cases hres
      | true =>
        have hfalse : inserted = false := by rw [hinserted, hres]; rfl
        subst hfalse
        cases hmay : fl.mayZeroout with
        | false =>
          simp only [hres, failedInsert]
          refine .kept (fun hz => ?_) (by simp) (fun _ => false) (updExt_id_changes h hat) (by simp)
          rw [hz.may] at hmay
          cases hmay
        | true =>
          cases hz0 : ans.zero.err with
          | some err' =>
            simp only [hres, failedInsert]
            refine .kept (fun hz => ?_) (by simp) _ (hzero.trans (updExt_id_changes hzero.sound hat)) fun L hL => ?_
            · rw [hz.zero] at hz0
              cases hz0
            · simp only [ZeroOut.set, Bool.or_false, decide_eq_true_eq] at hL
              exact ⟨hmay, hL.1, hL.2.1⟩
          | none =>
            simp only [hres, failedInsert]
            have hz : Zeroes ans fl e x := ⟨hmay, h1.ne, hacc, hdirty, ⟨err, false, hinsert, hres⟩, hz0⟩
            exact .zeroed hz ((hzero.trans (whole_changes ans.extend hzero.sound hat)).congr fun L p w _ =>
              ⟨rfl, (Bool.or_false _).symm⟩)

end inner

/-- **Every end** of `ext4_split_extent_at`, at a block of the extent. -/
theorem splitAt_end (blocksize : ℕ) (ans : SplitAns) (preIo : Bool) (h : Sound f)
    (hat : At f.tree.1 f.tree.2 path l (some e) r) (h1 : e.eeBlock ≤ x) (h2 : x < e.last)
    (hvalid : ¬ (fl.dataValid1 = true ∧ fl.dataValid2 = true))
    (hfl : Flags fl e) (hclean : Clean ans) :
    ∃ f' ret, ext4SplitExtentAt blocksize ans f path x fl preIo = some (f', ret) ∧
      SplitEnd ans f l e r x fl preIo f' ret := by
  have hex := exts_of_at hat
  have hleg : Legal e := h.wf.valid.legal e (by simp [hex])
  have hget : pExt f.tree path = some e := hat.item_eq
  have hend := hleg.end_eq
  unfold ext4SplitExtentAt
  rw [if_neg hvalid, hget]
  simp only [hend]
  rw [if_neg (by omega), if_neg (by
    rintro ⟨hw, hf⟩
    obtain ⟨f1, f2, f3⟩ := hfl hw
    simp [f1, f2, f3] at hf)]
  cases hacc : ans.access with
  | some err =>
    refine ⟨f, some err, rfl, .kept (fun hz => ?_) (by simp) (fun _ => false) (.refl h) (by simp)⟩
    rw [hz.access] at hacc
    cases hacc
  | none =>
    by_cases hx : x = e.eeBlock
    · subst hx
      have hmark := mark_same hleg (hfl.unwritten (.inr rfl))
      have hkey : ∀ b : Extent, ((if fl.markUnwrit2 then ext4ExtMarkUnwritten else ext4ExtMarkInitialized) b).eeBlock =
          b.eeBlock := fun b => by split_ifs <;> rfl
      obtain ⟨hw, hc⟩ := merge_unless ans.extend preIo (updExt_same h.wf hat hkey hmark).1 hat.updItem
      have hc := updExt_changes h hat hkey hmark hw hc
      simp only [if_true]
      refine ⟨_, _, rfl, .split (fun hz => hz.inner rfl) (hc.congr fun L p w _ => ⟨?_, rfl⟩) fun hpre => ?_⟩
      · unfold halves put
        split_ifs <;> first | rfl | omega
      · simp only [hpre, if_true]
        exact .start _ rfl (updExt_exts hat) hmark
    · simp only [if_neg hx]
      exact ⟨_, _, rfl, splitInner_end blocksize h hat (by omega) h2 hfl hacc hclean⟩

end ends

end LinuxEvfs.Unwritten.SplitAt
