import LinuxEvfs.Errno
import LinuxEvfs.ExtTree.Tree
import Mathlib.Algebra.Notation.Defs

/-! # What a file reads as

The blocks of a file are mapped, or not, and a mapped block is written or unwritten. A written block reads as what its
physical block holds; all others read as zero. What the device holds under an unwritten block is stale: it has never
been written by this file.

* `look`: the physical block, the state and the contents of a logical block; `view`: what it reads as.
* `Sound`: a well formed tree whose blocks are blocks of 48 bits, no physical block being mapped twice.
* `Changes g z`: the mapping is the same, the states are what `g` makes of them, and the blocks of `z` are zeroed. This
  composes (`Changes.trans`); a block that is `Quiet` reads as before (`Changes.view_eq`).
* `Restates.changes`, `wipe_changes`: the two ways in which a file changes, by new states and by zeroed blocks. -/

namespace LinuxEvfs.Unwritten.View

open LinuxEvfs.Errno LinuxEvfs.ExtTree.Basic LinuxEvfs.ExtTree.Cells LinuxEvfs.ExtTree.Tree

variable {α : Type}

/-- The extent tree of a file, and the contents of the physical blocks. -/
structure File (α : Type) where
  tree : ExtRoot
  disk : ℕ → α

/-- The logical block is mapped to this. -/
def File.map (f : File α) (L : ℕ) : Option (ℕ × Bool) := blockMap (exts f.tree) L

/-- The physical block, whether it is unwritten, and its contents. -/
def look (f : File α) (L : ℕ) : Option (ℕ × Bool × α) := (f.map L).map fun v => (v.1, v.2, f.disk v.1)

/-- What a block in a state with these contents reads as. -/
def reading [Zero α] (s : Bool × α) : α := if s.1 then 0 else s.2

/-- What a logical block reads as. -/
def view [Zero α] (f : File α) (L : ℕ) : α := (look f L).elim 0 fun v => reading v.2

structure Sound (f : File α) : Prop where
  wf : WellFormed f.tree
  small : ∀ L p w, f.map L = some (p, w) → p < 2 ^ 48
  inj : ∀ L L' p w w', f.map L = some (p, w) → f.map L' = some (p, w') → L = L'

/-! ### Reading a list of extents -/

theorem blockMap_append (l r : List Extent) (L : ℕ) : blockMap (l ++ r) L = (blockMap l L).or (blockMap r L) := by
  unfold blockMap
  rw [List.find?_append, Option.map_or]

theorem blockMap_single (e : Extent) (L : ℕ) : blockMap [e] L =
    if e.eeBlock ≤ L ∧ L < e.last then some (e.eeStart + (L - e.eeBlock), ext4ExtIsUnwritten e) else none := by
  unfold blockMap covers ext4ExtPblock
  by_cases h : e.eeBlock ≤ L ∧ L < e.last
  · simp [h]
  · simp [h]

theorem blockMap_cons (e : Extent) (r : List Extent) (L : ℕ) : blockMap (e :: r) L =
    if e.eeBlock ≤ L ∧ L < e.last then some (e.eeStart + (L - e.eeBlock), ext4ExtIsUnwritten e) else blockMap r L := by
  rw [← List.singleton_append, blockMap_append, blockMap_single]
  split_ifs <;> rfl

/-- Valid maps with the same cells read the same. -/
theorem blockMap_congr {m m' : List Extent} (h : ValidMap m) (h' : ValidMap m') (hc : cells m' = cells m) (L : ℕ) :
    blockMap m' L = blockMap m L := by
  refine Option.ext fun v => ?_
  rw [blockMap_eq_some h', hc, ← blockMap_eq_some h]

/-- A block of an extent, read in the list. -/
theorem blockMap_inside {l r : List Extent} {e : Extent} {L : ℕ} (h : ValidMap (l ++ e :: r))
    (hL : e.eeBlock ≤ L ∧ L < e.last) :
    blockMap (l ++ e :: r) L = some (e.eeStart + (L - e.eeBlock), ext4ExtIsUnwritten e) := by
  rw [blockMap_eq_some h]
  exact mem_cells.mpr ⟨e, by simp, hL.1, hL.2, rfl, rfl⟩

/-- A block of an extent of the file. -/
theorem Sound.map_inside {f : File α} {l r : List Extent} {e : Extent} {L : ℕ} (h : Sound f)
    (hex : exts f.tree = l ++ e :: r) (hL : e.eeBlock ≤ L ∧ L < e.last) :
    f.map L = some (e.eeStart + (L - e.eeBlock), ext4ExtIsUnwritten e) := by
  rw [File.map, hex]
  exact blockMap_inside (hex ▸ h.wf.valid) hL

/-- Other extents in the place of one, which map its blocks to where they were, in the states that `g` says. -/
theorem blockMap_replace (es : List Extent) {l r : List Extent} {e : Extent} {g : ℕ → Bool} (h : ValidMap (l ++ e :: r))
    (hes : ∀ L, blockMap es L =
      if e.eeBlock ≤ L ∧ L < e.last then some (e.eeStart + (L - e.eeBlock), g L) else none) (L : ℕ) :
    blockMap (l ++ es ++ r) L =
      (blockMap (l ++ e :: r) L).map fun v => (v.1, if e.eeBlock ≤ L ∧ L < e.last then g L else v.2) := by
  obtain ⟨-, -, hlr⟩ := validMap_append.mp h
  rw [List.append_assoc, blockMap_append, blockMap_append, hes, blockMap_append, blockMap_cons]
  by_cases hL : e.eeBlock ≤ L ∧ L < e.last
  · have hl : blockMap l L = none := by
      rw [blockMap_eq_none]
      rintro ⟨a, ha, h1, h2⟩
      have := hlr a ha e (by simp)
      omega
    simp [hl, hL]
  · simp [hL]

/-! ### Files that change -/

/-- The physical blocks are those of before. The states are what `g` makes of them, the blocks of `z` are zeroed, and no
block that is not of the file has changed. -/
structure Changes [Zero α] (g : ℕ → Bool → Bool) (z : ℕ → Bool) (f f' : File α) : Prop where
  sound : Sound f'
  look : ∀ L, look f' L = (look f L).map fun v => (v.1, g L v.2.1, if z L then 0 else v.2.2)
  others : ∀ p, (∀ L w, f.map L ≠ some (p, w)) → f'.disk p = f.disk p

/-- A block that was in the state `w` reads as before. -/
def Quiet (g : ℕ → Bool → Bool) (z : ℕ → Bool) (L : ℕ) : Bool → Prop
  | true => g L true = true ∨ z L = true
  | false => g L false = false ∧ z L = false

theorem map_eq_look (f : File α) (L : ℕ) : f.map L = (look f L).map fun v => (v.1, v.2.1) := by
  rw [look, Option.map_map]
  exact Option.map_id'.symm

section Changes
variable [Zero α] {g g' : ℕ → Bool → Bool} {z z' : ℕ → Bool} {f f' f'' : File α}

theorem Changes.map (h : Changes g z f f') (L : ℕ) : f'.map L = (f.map L).map fun v => (v.1, g L v.2) := by
  rw [map_eq_look, h.look, map_eq_look f, Option.map_map, Option.map_map]
  rfl

theorem Changes.refl (h : Sound f) : Changes (fun _ w => w) (fun _ => false) f f :=
  ⟨h, fun L => by simp, fun _ _ => rfl⟩

theorem Changes.trans (h : Changes g z f f') (h' : Changes g' z' f' f'') :
    Changes (fun L w => g' L (g L w)) (fun L => z L || z' L) f f'' := by
  refine ⟨h'.sound, fun L => ?_, fun p hp => (h'.others p fun L w hL => ?_).trans (h.others p hp)⟩
  · rw [h'.look, h.look, Option.map_map]
    refine congrArg (Option.map · _) (funext fun v => ?_)
    cases z L <;> cases z' L <;> rfl
  · rw [h.map, Option.map_eq_some_iff] at hL
    obtain ⟨v, hv, heq⟩ := hL
    obtain ⟨rfl, -⟩ := Prod.mk.inj heq
    exact hp L v.2 hv

/-- Only what is done to the blocks of the file counts. -/
theorem Changes.congr (h : Changes g z f f')
    (hg : ∀ L p w, f.map L = some (p, w) → g' L w = g L w ∧ z' L = z L) : Changes g' z' f f' := by
  refine ⟨h.sound, fun L => ?_, h.others⟩
  rw [h.look, View.look]
  cases hm : f.map L with
  | none => rfl
  | some v =>
    obtain ⟨h1, h2⟩ := hg L v.1 v.2 hm
    simp only [Option.map_some, h1, h2]

/-- **A quiet block** reads as before. -/
theorem Changes.view_eq (h : Changes g z f f') {L : ℕ} (hL : ∀ p w, f.map L = some (p, w) → Quiet g z L w) :
    view f' L = view f L := by
  rw [view, h.look, view, View.look]
  cases hm : f.map L with
  | none => rfl
  | some v =>
    have hq := hL v.1 v.2 hm
    obtain ⟨p, w⟩ := v
    simp only [Option.map_some, Option.elim_some, reading]
    cases w with
    | true => rcases hq with hq | hq <;> simp [hq]
    | false =>
      obtain ⟨h1, h2⟩ : g L false = false ∧ z L = false := hq
      simp [h1, h2]

/-- A block that has become written and was not zeroed reads as the device. -/
theorem Changes.view_written (h : Changes g z f f') {L p : ℕ} (hm : f.map L = some (p, true)) (hg : g L true = false)
    (hz : z L = false) : view f' L = f.disk p := by
  rw [view, h.look, View.look, hm]
  simp [reading, hg, hz]

/-- A block that has become unwritten reads as zero. -/
theorem Changes.view_unwritten (h : Changes g z f f') {L : ℕ} (hg : ∀ w, g L w = true) : view f' L = 0 := by
  rw [view, h.look]
  cases View.look f L with
  | none => rfl
  | some v => simp [reading, hg]

/-- The physical blocks stay. -/
theorem Changes.mapped (h : Changes g z f f') (L : ℕ) : (f'.map L).map Prod.fst = (f.map L).map Prod.fst := by
  rw [h.map, Option.map_map]
  rfl

end Changes

/-! ### New states -/

/-- The blocks of `[lo, hi)` in the state `u`. -/
def put (lo hi : ℕ) (u : Bool) (L : ℕ) (w : Bool) : Bool := if lo ≤ L ∧ L < hi then u else w

/-- A tree with the same mapping, in the states that `g` says. -/
def Restates (g : ℕ → Bool → Bool) (f f' : File α) : Prop :=
  f'.disk = f.disk ∧ ∀ L, f'.map L = (f.map L).map fun v => (v.1, g L v.2)

section Restates
variable {f f' f'' : File α} {g g' : ℕ → Bool → Bool}

theorem Restates.trans (h : Restates g f f') (h' : Restates g' f' f'') :
    Restates (fun L w => g' L (g L w)) f f'' := by
  refine ⟨h'.1.trans h.1, fun L => ?_⟩
  rw [h'.2, h.2, Option.map_map]
  rfl

theorem Restates.congr (h : Restates g f f') (hg : ∀ L p w, f.map L = some (p, w) → g' L w = g L w) :
    Restates g' f f' := by
  refine ⟨h.1, fun L => ?_⟩
  rw [h.2]
  cases hm : f.map L with
  | none => rfl
  | some v => rw [Option.map_some, Option.map_some, hg L v.1 v.2 hm]

theorem Restates.sound (hr : Restates g f f') (h : Sound f) (hw : WellFormed f'.tree) : Sound f' := by
  have hback : ∀ {L p w}, f'.map L = some (p, w) → ∃ w', f.map L = some (p, w') := fun {L p w} hL => by
    rw [hr.2 L, Option.map_eq_some_iff] at hL
    obtain ⟨v, hv, heq⟩ := hL
    obtain ⟨rfl, -⟩ := Prod.mk.inj heq
    exact ⟨v.2, hv⟩
  refine ⟨hw, fun L p w hL => ?_, fun L L' p w w' hL hL' => ?_⟩
  · obtain ⟨v, hv⟩ := hback hL
    exact h.small L p v hv
  · obtain ⟨v, hv⟩ := hback hL
    obtain ⟨v', hv'⟩ := hback hL'
    exact h.inj L L' p v v' hv hv'

theorem Restates.look (hr : Restates g f f') (L : ℕ) :
    look f' L = (look f L).map fun v => (v.1, g L v.2.1, v.2.2) := by
  rw [View.look, hr.2, View.look, hr.1, Option.map_map, Option.map_map]
  rfl

theorem Restates.changes [Zero α] (hr : Restates g f f') (h : Sound f) (hw : WellFormed f'.tree) :
    Changes g (fun _ => false) f f' :=
  ⟨hr.sound h hw, hr.look, fun p _ => by rw [hr.1]⟩

end Restates

/-! ### Zeroed blocks -/

/-- The answer of `ext4_issue_zeroout`: where it fails it may have zeroed some of the blocks. -/
structure ZeroOut where
  err : Option Errno
  done : ℕ → Bool

/-- The blocks of `[pblk, pblk + len)` zeroed. -/
def wipe [Zero α] (z : ZeroOut) (pblk len : ℕ) (disk : ℕ → α) : ℕ → α := fun p =>
  if pblk ≤ p ∧ p < pblk + len ∧ (z.err = none ∨ z.done (p - pblk) = true) then 0 else disk p

/-- `ext4_ext_zeroout` of a part of the blocks of an extent. -/
theorem wipe_look [Zero α] {f : File α} {z : ZeroOut} {lo len pblk : ℕ} (h : Sound f)
    (hin : ∀ L, lo ≤ L → L < lo + len → ∃ w, f.map L = some (pblk + (L - lo), w)) (L : ℕ) :
    look { f with disk := wipe z pblk len f.disk } L = (look f L).map fun v =>
      (v.1, v.2.1, if lo ≤ L ∧ L < lo + len ∧ (z.err = none ∨ z.done (L - lo) = true) then 0 else v.2.2) := by
  have hmap : File.map { f with disk := wipe z pblk len f.disk } L = f.map L := rfl
  rw [look, look, hmap]
  cases hm : f.map L with
  | none => rfl
  | some v =>
    obtain ⟨p, w⟩ := v
    have hiff : pblk ≤ p ∧ p < pblk + len ∧ (z.err = none ∨ z.done (p - pblk) = true) ↔
        lo ≤ L ∧ L < lo + len ∧ (z.err = none ∨ z.done (L - lo) = true) := by
      constructor
      · rintro ⟨h1, h2, h3⟩
        -- the logical block that the range maps there is this one
        obtain ⟨w', hw'⟩ := hin (lo + (p - pblk)) (by omega) (by omega)
        have hp : pblk + (lo + (p - pblk) - lo) = p := by omega
        rw [hp] at hw'
        have hL := h.inj _ _ p w w' hm hw'
        have hoff : L - lo = p - pblk := by omega
        rw [hoff]
        exact ⟨by omega, by omega, h3⟩
      · rintro ⟨h1, h2, h3⟩
        obtain ⟨w', hw'⟩ := hin L h1 h2
        obtain ⟨rfl, -⟩ := Prod.mk.inj (Option.some.inj (hm.symm.trans hw'))
        have hoff : pblk + (L - lo) - pblk = L - lo := by omega
        rw [hoff]
        exact ⟨by omega, by omega, h3⟩
    simp only [Option.map_some, wipe, hiff]

/-- The blocks of a range that have been zeroed. -/
def ZeroOut.set (z : ZeroOut) (lo hi : ℕ) (L : ℕ) : Bool :=
  decide (lo ≤ L ∧ L < hi ∧ (z.err = none ∨ z.done (L - lo) = true))

theorem wipe_changes [Zero α] {f : File α} (z : ZeroOut) {lo hi pblk : ℕ} (h : Sound f)
    (hin : ∀ L, lo ≤ L → L < hi → ∃ w, f.map L = some (pblk + (L - lo), w)) :
    Changes (fun _ w => w) (z.set lo hi) f { f with disk := wipe z pblk (hi - lo) f.disk } := by
  refine ⟨⟨h.wf, h.small, h.inj⟩, fun L => ?_, fun p hp => ?_⟩
  · rw [wipe_look h fun L h1 h2 => hin L h1 (by omega)]
    have hiff : (lo ≤ L ∧ L < lo + (hi - lo) ∧ (z.err = none ∨ z.done (L - lo) = true)) ↔ z.set lo hi L = true := by
      rw [ZeroOut.set, decide_eq_true_iff]
      exact ⟨fun h => ⟨h.1, by omega, h.2.2⟩, fun h => ⟨h.1, by omega, h.2.2⟩⟩
    simp only [hiff]
  · refine if_neg fun hp' => ?_
    obtain ⟨w, hw⟩ := hin (lo + (p - pblk)) (by omega) (by omega)
    have hpe : pblk + (lo + (p - pblk) - lo) = p := by omega
    rw [hpe] at hw
    exact hp _ w hw

end LinuxEvfs.Unwritten.View
