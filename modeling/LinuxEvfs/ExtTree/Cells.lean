import LinuxEvfs.ExtTree.Basic
import Mathlib.Data.List.Pairwise
import Mathlib.Data.List.Basic
import Mathlib.Data.List.Forall2

/-! # What a list of extents maps

The purpose of an extent list: a finite partial map from logical blocks to a physical block and a
state. `cells m` lists it, one cell `(logical, physical, unwritten)` per mapped block in ascending
order; `blockMap m L` reads one block off the extents.

* `ValidMap`: legal extents, sorted and disjoint. Then `blockMap` is the reading of the cells
  (`blockMap_eq_some`), and a logical block has one cell (`cells_inj`).
* `Joins a b c`: the extent `c` is `a` followed by `b`. Joining leaves the cells as they are
  (`Joins.cells_eq`) and the list valid (`ValidMap.join`).
* `Halves a b c`: the logical part of it, for cutting `c` in two (`ValidMap.split`). The start of the
  second half is stored in 48 bits, so cutting `Keeps` the cells: all of them when the physical blocks
  are blocks of 48 bits (`Halves.keeps`, `Keeps.eq`).
* `remap c k p`: the cells of `[c, c + k)` moved to the physical blocks from `p` on; this is what
  storing a new physical start does (`cells_store`). -/

namespace LinuxEvfs.ExtTree.Cells

open LinuxEvfs.Lib.Word LinuxEvfs.ExtTree.Basic

/-- A logical block, its physical block, and whether it is unwritten. -/
abbrev Cell := ℕ × ℕ × Bool

/-- The blocks of one extent. -/
def extentCells (e : Extent) : List Cell :=
  (List.range (ext4ExtGetActualLen e)).map fun i =>
    (e.eeBlock + i, e.eeStart + i, ext4ExtIsUnwritten e)

/-- The blocks of a list of extents. -/
def cells (m : List Extent) : List Cell := m.flatMap extentCells

/-- The extent covers the logical block. -/
def covers (L : ℕ) (e : Extent) : Bool := decide (e.eeBlock ≤ L ∧ L < e.last)

/-- What a logical block is mapped to. -/
def blockMap (m : List Extent) (L : ℕ) : Option (ℕ × Bool) :=
  (m.find? (covers L)).map fun e => (ext4ExtPblock e + (L - e.eeBlock), ext4ExtIsUnwritten e)

/-- **A well-formed extent map.** -/
structure ValidMap (m : List Extent) : Prop where
  legal : ∀ e ∈ m, Legal e
  sorted : m.Pairwise fun a b => a.last ≤ b.eeBlock

instance (m : List Extent) : Decidable (ValidMap m) :=
  decidable_of_iff ((∀ e ∈ m, Legal e) ∧ m.Pairwise fun a b => a.last ≤ b.eeBlock)
    ⟨fun h => ⟨h.1, h.2⟩, fun h => ⟨h.1, h.2⟩⟩

theorem cells_nil : cells [] = [] := rfl

theorem cells_cons (e : Extent) (m : List Extent) : cells (e :: m) = extentCells e ++ cells m := by
  simp [cells]

theorem cells_append (l r : List Extent) : cells (l ++ r) = cells l ++ cells r := by
  simp [cells]

theorem mem_extentCells {e : Extent} {L p : ℕ} {w : Bool} :
    (L, p, w) ∈ extentCells e ↔
      e.eeBlock ≤ L ∧ L < e.last ∧ p = e.eeStart + (L - e.eeBlock) ∧ w = ext4ExtIsUnwritten e := by
  simp only [extentCells, List.mem_map, List.mem_range, Prod.mk.injEq, Extent.last]
  constructor
  · rintro ⟨i, hi, rfl, rfl, rfl⟩
    exact ⟨by omega, by omega, by omega, rfl⟩
  · rintro ⟨h1, h2, rfl, rfl⟩
    exact ⟨L - e.eeBlock, by omega, by omega, rfl, rfl⟩

theorem mem_cells {m : List Extent} {L p : ℕ} {w : Bool} :
    (L, p, w) ∈ cells m ↔ ∃ e ∈ m, e.eeBlock ≤ L ∧ L < e.last ∧
      p = e.eeStart + (L - e.eeBlock) ∧ w = ext4ExtIsUnwritten e := by
  simp only [cells, List.mem_flatMap, mem_extentCells]

/-- A block is mapped when an extent covers it. -/
def Mapped (m : List Extent) (L : ℕ) : Prop := ∃ e ∈ m, e.eeBlock ≤ L ∧ L < e.last

instance (m : List Extent) (L : ℕ) : Decidable (Mapped m L) :=
  inferInstanceAs (Decidable (∃ e ∈ m, e.eeBlock ≤ L ∧ L < e.last))

theorem mapped_iff_cells {m : List Extent} {L : ℕ} :
    Mapped m L ↔ ∃ p w, (L, p, w) ∈ cells m := by
  constructor
  · rintro ⟨e, he, h1, h2⟩
    exact ⟨_, _, mem_cells.mpr ⟨e, he, h1, h2, rfl, rfl⟩⟩
  · rintro ⟨p, w, h⟩
    obtain ⟨e, he, h1, h2, -⟩ := mem_cells.mp h
    exact ⟨e, he, h1, h2⟩

/-- The blocks of a list of extents cut at one of them. -/
theorem mapped_split {l r : List Extent} {e : Extent} {x : ℕ} :
    Mapped (l ++ e :: r) x ↔ Mapped l x ∨ (e.eeBlock ≤ x ∧ x < e.last) ∨ Mapped r x := by
  simp only [Mapped, List.mem_append, List.mem_cons, or_and_right, exists_or, exists_eq_left]

theorem blockMap_eq_none {m : List Extent} {L : ℕ} : blockMap m L = none ↔ ¬ Mapped m L := by
  simp [blockMap, covers, Mapped, not_exists]

/-! ### Valid lists -/

section ValidMap
variable {l r m : List Extent} {e : Extent}

theorem ValidMap.tail (h : ValidMap (e :: m)) : ValidMap m :=
  ⟨fun x hx => h.legal x (by simp [hx]), (List.pairwise_cons.mp h.sorted).2⟩

theorem ValidMap.sublist {m' : List Extent} (h : ValidMap m) (hs : m'.Sublist m) : ValidMap m' :=
  ⟨fun x hx => h.legal x (hs.subset hx), h.sorted.sublist hs⟩

theorem validMap_append :
    ValidMap (l ++ r) ↔ ValidMap l ∧ ValidMap r ∧ ∀ a ∈ l, ∀ b ∈ r, a.last ≤ b.eeBlock := by
  constructor
  · intro h
    obtain ⟨h1, h2, h3⟩ := List.pairwise_append.mp h.sorted
    exact ⟨⟨fun x hx => h.legal x (by simp [hx]), h1⟩,
      ⟨fun x hx => h.legal x (by simp [hx]), h2⟩, h3⟩
  · rintro ⟨h1, h2, h3⟩
    refine ⟨fun x hx => ?_, List.pairwise_append.mpr ⟨h1.sorted, h2.sorted, h3⟩⟩
    rcases List.mem_append.mp hx with hx | hx
    · exact h1.legal x hx
    · exact h2.legal x hx

theorem validMap_cons :
    ValidMap (e :: m) ↔ Legal e ∧ ValidMap m ∧ ∀ b ∈ m, e.last ≤ b.eeBlock := by
  constructor
  · intro h
    exact ⟨h.legal e (by simp), h.tail, (List.pairwise_cons.mp h.sorted).1⟩
  · rintro ⟨h1, h2, h3⟩
    refine ⟨fun x hx => ?_, List.pairwise_cons.mpr ⟨h3, h2.sorted⟩⟩
    rcases List.mem_cons.mp hx with rfl | hx
    · exact h1
    · exact h2.legal x hx

/-- The starts increase strictly. -/
theorem ValidMap.starts (h : ValidMap m) : m.Pairwise fun a b => a.eeBlock < b.eeBlock := by
  refine List.Pairwise.imp_of_mem ?_ h.sorted
  intro a b ha _ hab
  exact lt_of_lt_of_le (h.legal a ha).block_lt_last hab

/-- The logical blocks of the cells increase strictly. -/
theorem ValidMap.cells_sorted : ∀ {m : List Extent}, ValidMap m →
    (cells m).Pairwise fun a b => a.1 < b.1
  | [], _ => by simp [cells_nil]
  | e :: m, h => by
    obtain ⟨-, hm, hle⟩ := validMap_cons.mp h
    rw [cells_cons, List.pairwise_append]
    refine ⟨?_, hm.cells_sorted, ?_⟩
    · rw [extentCells, List.pairwise_map]
      refine List.pairwise_lt_range.imp ?_
      intro i j hij
      simpa using hij
    · rintro ⟨L, p, w⟩ ha ⟨L', p', w'⟩ hb
      obtain ⟨-, h1, -⟩ := mem_extentCells.mp ha
      obtain ⟨b, hb, h2, -⟩ := mem_cells.mp hb
      have := hle b hb
      simp only
      omega

/-- A logical block has one cell. -/
theorem cells_inj (h : ValidMap m) {L p p' : ℕ} {w w' : Bool} (h1 : (L, p, w) ∈ cells m)
    (h2 : (L, p', w') ∈ cells m) : p = p' ∧ w = w' := by
  by_contra hne
  have hne' : ((L, p, w) : Cell) ≠ (L, p', w') := by
    intro heq
    simp only [Prod.mk.injEq, true_and] at heq
    exact hne heq
  have hs := h.cells_sorted
  have hir : (cells m).Pairwise fun a b => a.1 ≠ b.1 := hs.imp fun hab => Nat.ne_of_lt hab
  have : Std.Symm fun a b : Cell => a.1 ≠ b.1 := ⟨fun _ _ h => h.symm⟩
  exact hir.forall h1 h2 hne' rfl

/-- A logical block is covered by one extent. -/
theorem ValidMap.eq_of_covers (h : ValidMap m) {a b : Extent} {L : ℕ} (ha : a ∈ m) (hb : b ∈ m)
    (ha' : a.eeBlock ≤ L ∧ L < a.last) (hb' : b.eeBlock ≤ L ∧ L < b.last) : a = b := by
  by_contra hne
  have hir : m.Pairwise fun a b => ¬ ((a.eeBlock ≤ L ∧ L < a.last) ∧ (b.eeBlock ≤ L ∧ L < b.last)) :=
    h.sorted.imp fun hle => by omega
  have : Std.Symm fun a b : Extent =>
      ¬ ((a.eeBlock ≤ L ∧ L < a.last) ∧ (b.eeBlock ≤ L ∧ L < b.last)) :=
    ⟨fun _ _ h h' => h h'.symm⟩
  exact hir.forall ha hb hne ⟨ha', hb'⟩

/-- **Reading a block of a valid map** is reading its cell. -/
theorem blockMap_eq_some (h : ValidMap m) {L p : ℕ} {w : Bool} :
    blockMap m L = some (p, w) ↔ (L, p, w) ∈ cells m := by
  have hmem : ∀ {q v}, blockMap m L = some (q, v) → (L, q, v) ∈ cells m := by
    intro q v hq
    simp only [blockMap, Option.map_eq_some_iff, Prod.mk.injEq] at hq
    obtain ⟨e, he, h1, h2⟩ := hq
    have hc := List.find?_some he
    simp only [covers, decide_eq_true_eq] at hc
    exact mem_cells.mpr ⟨e, List.mem_of_find?_eq_some he, hc.1, hc.2, h1.symm, h2.symm⟩
  refine ⟨hmem, fun hc => ?_⟩
  cases hq : blockMap m L with
  | none => exact absurd (mapped_iff_cells.mpr ⟨p, w, hc⟩) (blockMap_eq_none.mp hq)
  | some v =>
    obtain ⟨q, v⟩ := v
    obtain ⟨h1, h2⟩ := cells_inj h hc (hmem hq)
    rw [h1, h2]

end ValidMap

/-! ### Cutting and joining -/

/-- The logical range of `c` is that of `a` followed by that of `b`, in one state. -/
structure Halves (a b c : Extent) : Prop where
  block : c.eeBlock = a.eeBlock
  start : c.eeStart = a.eeStart
  len : ext4ExtGetActualLen c = ext4ExtGetActualLen a + ext4ExtGetActualLen b
  state_left : ext4ExtIsUnwritten a = ext4ExtIsUnwritten c
  state_right : ext4ExtIsUnwritten b = ext4ExtIsUnwritten c
  adj : b.eeBlock = a.last

/-- `c` is `a` followed by `b`: the physical ranges follow each other too. -/
structure Joins (a b c : Extent) : Prop extends Halves a b c where
  padj : b.eeStart = a.eeStart + ext4ExtGetActualLen a

section Joins
variable {a b c : Extent} {l r : List Extent}

theorem Halves.last_eq (h : Halves a b c) : b.last = c.last := by
  unfold Extent.last
  rw [h.adj, h.block, h.len, Extent.last]
  omega

/-- The cells of `c` are those of `a` and those behind them. -/
theorem Halves.extentCells_eq (h : Halves a b c) : extentCells c = extentCells a ++
    (List.range (ext4ExtGetActualLen b)).map fun i =>
      (b.eeBlock + i, c.eeStart + ext4ExtGetActualLen a + i, ext4ExtIsUnwritten b) := by
  unfold extentCells
  rw [h.len, List.range_add, List.map_append, List.map_map]
  congr 1
  · rw [h.block, h.start, h.state_left]
  · refine List.map_congr_left fun i _ => ?_
    simp only [Function.comp, h.block, h.start, h.adj, h.state_right, Extent.last, Nat.add_assoc]

theorem Joins.extentCells_eq (h : Joins a b c) : extentCells c = extentCells a ++ extentCells b := by
  rw [h.toHalves.extentCells_eq, h.start, ← h.padj]
  rfl

/-- **Cutting or joining leaves the cells as they are.** -/
theorem Joins.cells_eq (h : Joins a b c) : cells (l ++ a :: b :: r) = cells (l ++ c :: r) := by
  simp only [cells_append, cells_cons, h.extentCells_eq, List.append_assoc]

theorem ValidMap.join (h : Joins a b c) (hc : Legal c) (hv : ValidMap (l ++ a :: b :: r)) :
    ValidMap (l ++ c :: r) := by
  obtain ⟨hl, hr, hlr⟩ := validMap_append.mp hv
  obtain ⟨-, hbr, -⟩ := validMap_cons.mp hr
  obtain ⟨-, hr', hb⟩ := validMap_cons.mp hbr
  refine validMap_append.mpr ⟨hl, validMap_cons.mpr ⟨hc, hr', ?_⟩, fun x hx y hy => ?_⟩
  · intro y hy; rw [← h.last_eq]; exact hb y hy
  · rcases List.mem_cons.mp hy with rfl | hy
    · rw [h.block]; exact hlr x hx a (by simp)
    · exact hlr x hx y (by simp [hy])

theorem ValidMap.split (h : Halves a b c) (ha : Legal a) (hb : Legal b)
    (hv : ValidMap (l ++ c :: r)) : ValidMap (l ++ a :: b :: r) := by
  obtain ⟨hl, hr, hlr⟩ := validMap_append.mp hv
  obtain ⟨-, hr', hc⟩ := validMap_cons.mp hr
  have hbr : ∀ y ∈ r, b.last ≤ y.eeBlock := by rw [h.last_eq]; exact hc
  have hab : a.last ≤ b.eeBlock := h.adj.ge
  refine validMap_append.mpr ⟨hl, validMap_cons.mpr ⟨ha, validMap_cons.mpr ⟨hb, hr', hbr⟩, ?_⟩, ?_⟩
  · intro y hy
    rcases List.mem_cons.mp hy with rfl | hy
    · exact hab
    · have := hbr y hy
      have := hb.block_lt_last
      omega
  · intro x hx y hy
    have hxc : x.last ≤ a.eeBlock := by rw [← h.block]; exact hlr x hx c (by simp)
    simp only [List.mem_cons] at hy
    rcases hy with rfl | rfl | hy
    · exact hxc
    · have := ha.block_lt_last; omega
    · exact hlr x hx y (by simp [hy])

end Joins

/-! ### Physical blocks of 48 bits -/

/-- The same logical blocks in the same states; their physical blocks agree in 48 bits, and one of 48
bits is the same. -/
def Keeps (cs cs' : List Cell) : Prop :=
  List.Forall₂ (fun x y => y.1 = x.1 ∧ y.2.2 = x.2.2 ∧ y.2.1 % 2 ^ 48 = x.2.1 % 2 ^ 48 ∧
    (x.2.1 < 2 ^ 48 → y = x)) cs cs'

theorem Keeps.refl (cs : List Cell) : Keeps cs cs :=
  List.forall₂_same.mpr fun _ _ => ⟨rfl, rfl, rfl, fun _ => rfl⟩

theorem Keeps.trans {cs cs' cs'' : List Cell} (h1 : Keeps cs cs') (h2 : Keeps cs' cs'') :
    Keeps cs cs'' := by
  induction h1 generalizing cs'' with
  | nil => exact h2
  | cons hxy _ ih =>
    cases h2 with
    | cons hyz h2 =>
      refine List.Forall₂.cons ⟨hyz.1.trans hxy.1, hyz.2.1.trans hxy.2.1,
        hyz.2.2.1.trans hxy.2.2.1, fun hlt => ?_⟩ (ih h2)
      have hyx := hxy.2.2.2 hlt
      subst hyx
      exact hyz.2.2.2 hlt

/-- A cell with a physical block of 48 bits is kept. -/
theorem Keeps.mem {cs cs' : List Cell} (h : Keeps cs cs') {L p : ℕ} {w : Bool}
    (hp : p < 2 ^ 48) (hx : (L, p, w) ∈ cs) : (L, p, w) ∈ cs' := by
  induction h with
  | nil => exact hx
  | cons hxy _ ih =>
    rcases List.mem_cons.mp hx with rfl | hx
    · rw [hxy.2.2.2 hp]
      exact List.mem_cons_self
    · exact List.mem_cons_of_mem _ (ih hx)

/-- A cell comes from one that agrees with it in 48 bits. -/
theorem Keeps.exists_mem {cs cs' : List Cell} (h : Keeps cs cs') {L p : ℕ} {w : Bool}
    (hy : (L, p, w) ∈ cs') : ∃ q, (L, q, w) ∈ cs ∧ p % 2 ^ 48 = q % 2 ^ 48 := by
  induction h with
  | nil => simp at hy
  | @cons x y _ _ hxy _ ih =>
    rcases List.mem_cons.mp hy with rfl | hy
    · obtain ⟨h1, h2, h3, -⟩ := hxy
      obtain ⟨L', q, w'⟩ := x
      obtain ⟨rfl, rfl⟩ := And.intro h1 h2
      exact ⟨q, List.mem_cons_self, h3⟩
    · obtain ⟨q, hq, hpq⟩ := ih hy
      exact ⟨q, List.mem_cons_of_mem _ hq, hpq⟩

/-- With physical blocks of 48 bits throughout, nothing has changed. -/
theorem Keeps.eq {cs cs' : List Cell} (h : Keeps cs cs') (hlt : ∀ x ∈ cs, x.2.1 < 2 ^ 48) :
    cs' = cs := by
  induction h with
  | nil => rfl
  | cons hxy _ ih =>
    rw [hxy.2.2.2 (hlt _ (by simp)), ih fun x hx => hlt x (by simp [hx])]

/-- Cutting an extent whose second half stores its start in 48 bits. -/
theorem Halves.keeps {a b c : Extent} (h : Halves a b c)
    (hp : b.eeStart = (c.eeStart + ext4ExtGetActualLen a) % 2 ^ 48) (l r : List Extent) :
    Keeps (cells (l ++ c :: r)) (cells (l ++ a :: b :: r)) := by
  have htail : Keeps ((List.range (ext4ExtGetActualLen b)).map fun i =>
      (b.eeBlock + i, c.eeStart + ext4ExtGetActualLen a + i, ext4ExtIsUnwritten b))
      (extentCells b) := by
    unfold Keeps extentCells
    rw [List.forall₂_map_left_iff, List.forall₂_map_right_iff, List.forall₂_same]
    intro i _
    refine ⟨rfl, rfl, ?_, fun hlt => ?_⟩
    · rw [hp]
      simp only
      omega
    · simp only at hlt
      rw [hp, Nat.mod_eq_of_lt (by omega)]
  rw [cells_append, cells_append, cells_cons, cells_cons, cells_cons, h.extentCells_eq,
    List.append_assoc]
  exact List.rel_append (Keeps.refl _)
    (List.rel_append (Keeps.refl _) (List.rel_append htail (Keeps.refl _)))

/-! ### Moving cells -/

/-- The cells of `[c, c + k)` moved to the physical blocks from `p` on. -/
def remap (c k p : ℕ) (x : Cell) : Cell :=
  if c ≤ x.1 ∧ x.1 < c + k then (x.1, p + (x.1 - c), x.2.2) else x

@[simp] theorem remap_fst (c k p : ℕ) (x : Cell) : (remap c k p x).1 = x.1 := by
  unfold remap; split_ifs <;> rfl

@[simp] theorem remap_state (c k p : ℕ) (x : Cell) : (remap c k p x).2.2 = x.2.2 := by
  unfold remap; split_ifs <;> rfl

theorem remap_inside {c k p L q : ℕ} {w : Bool} (h : c ≤ L ∧ L < c + k) :
    remap c k p (L, q, w) = (L, p + (L - c), w) := by unfold remap; rw [if_pos h]

theorem remap_outside {c k p L q : ℕ} {w : Bool} (h : ¬ (c ≤ L ∧ L < c + k)) :
    remap c k p (L, q, w) = (L, q, w) := by unfold remap; rw [if_neg h]

/-- Two adjacent moves are one. -/
theorem remap_remap {c k j p : ℕ} (x : Cell) :
    remap (c + k) j (p + k) (remap c k p x) = remap c (k + j) p x := by
  obtain ⟨L, q, w⟩ := x
  by_cases h1 : c ≤ L ∧ L < c + k
  · rw [remap_inside h1, remap_outside (by omega), remap_inside (by omega)]
  · rw [remap_outside h1]
    by_cases h2 : c + k ≤ L ∧ L < c + k + j
    · rw [remap_inside h2, remap_inside (by omega)]
      simp only [Prod.mk.injEq, true_and, and_true]
      omega
    · rw [remap_outside h2, remap_outside (by omega)]

theorem map_remap_eq_self {c k p : ℕ} {cs : List Cell}
    (h : ∀ x ∈ cs, ¬ (c ≤ x.1 ∧ x.1 < c + k)) : cs.map (remap c k p) = cs := by
  conv_rhs => rw [← List.map_id cs]
  refine List.map_congr_left fun x hx => ?_
  obtain ⟨L, q, w⟩ := x
  exact remap_outside (h _ hx)

/-- Reading a block after a move of cells. -/
theorem blockMap_remap {m m' : List Extent} (h : ValidMap m) (h' : ValidMap m') {c k p : ℕ}
    (hc : cells m' = (cells m).map (remap c k p)) (L : ℕ) :
    blockMap m' L = if c ≤ L ∧ L < c + k then (blockMap m L).map fun v => (p + (L - c), v.2)
      else blockMap m L := by
  refine Option.ext fun v => ?_
  obtain ⟨q, w⟩ := v
  have hmem : blockMap m' L = some (q, w) ↔ ∃ x ∈ cells m, remap c k p x = (L, q, w) := by
    rw [blockMap_eq_some h', hc, List.mem_map]
  have hfst : ∀ {x : Cell}, remap c k p x = (L, q, w) → x.1 = L := fun {x} hx => by
    have := congrArg Prod.fst hx
    simpa using this
  rw [hmem]
  split_ifs with hin
  · rw [Option.map_eq_some_iff]
    constructor
    · rintro ⟨⟨L', q', w'⟩, hx, heq⟩
      obtain rfl : L' = L := hfst heq
      rw [remap_inside hin] at heq
      exact ⟨(q', w'), (blockMap_eq_some h).mpr hx, (Prod.mk.inj heq).2⟩
    · rintro ⟨⟨q', w'⟩, hx, heq⟩
      refine ⟨_, (blockMap_eq_some h).mp hx, ?_⟩
      rw [remap_inside hin, ← heq]
  · rw [blockMap_eq_some h]
    constructor
    · rintro ⟨⟨L', q', w'⟩, hx, heq⟩
      obtain rfl : L' = L := hfst heq
      rw [remap_outside hin] at heq
      exact heq ▸ hx
    · intro hx
      exact ⟨_, hx, remap_outside hin⟩

theorem ValidMap.store {l r : List Extent} {e : Extent} (h : ValidMap (l ++ e :: r)) (pb : ℕ) :
    ValidMap (l ++ ext4ExtStorePblock e pb :: r) := by
  obtain ⟨hl, hr, hlr⟩ := validMap_append.mp h
  obtain ⟨he, hr', her⟩ := validMap_cons.mp hr
  refine validMap_append.mpr ⟨hl, validMap_cons.mpr ⟨he.store pb, hr', her⟩, fun x hx y hy => ?_⟩
  rcases List.mem_cons.mp hy with rfl | hy
  · exact hlr x hx e (by simp)
  · exact hlr x hx y (by simp [hy])

/-- **Storing a physical start** moves the cells of the extent. -/
theorem cells_store {l r : List Extent} {e : Extent} (h : ValidMap (l ++ e :: r)) (pb : ℕ) :
    cells (l ++ ext4ExtStorePblock e pb :: r) =
      (cells (l ++ e :: r)).map (remap e.eeBlock (ext4ExtGetActualLen e) (pb % 2 ^ 48)) := by
  obtain ⟨-, hr, hlr⟩ := validMap_append.mp h
  obtain ⟨-, -, her⟩ := validMap_cons.mp hr
  have hl : (cells l).map (remap e.eeBlock (ext4ExtGetActualLen e) (pb % 2 ^ 48)) = cells l := by
    refine map_remap_eq_self fun x hx => ?_
    obtain ⟨L, q, w⟩ := x
    obtain ⟨a, ha, -, h2, -⟩ := mem_cells.mp hx
    have := hlr a ha e (by simp)
    simp only; omega
  have hrr : (cells r).map (remap e.eeBlock (ext4ExtGetActualLen e) (pb % 2 ^ 48)) = cells r := by
    refine map_remap_eq_self fun x hx => ?_
    obtain ⟨L, q, w⟩ := x
    obtain ⟨a, ha, h1, -⟩ := mem_cells.mp hx
    have := her a ha
    unfold Extent.last at this
    simp only; omega
  have he : (extentCells e).map (remap e.eeBlock (ext4ExtGetActualLen e) (pb % 2 ^ 48)) =
      extentCells (ext4ExtStorePblock e pb) := by
    unfold extentCells
    rw [List.map_map]
    refine List.map_congr_left fun i hi => ?_
    rw [List.mem_range] at hi
    rw [Function.comp, remap_inside ⟨by omega, by omega⟩, Nat.add_sub_cancel_left]
    rfl
  rw [cells_append, cells_cons, cells_append, cells_cons, List.map_append, List.map_append, hl, hrr,
    he]

end LinuxEvfs.ExtTree.Cells
