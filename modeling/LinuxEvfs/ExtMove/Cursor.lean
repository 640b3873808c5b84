import LinuxEvfs.ExtMove.Model
import LinuxEvfs.Lib.Holes

/-! # The move as a machine on cells

What a move does, without trees: the state is the list of cells of the file, and a cursor walks over
it. At a cell it swaps the physical blocks of a run of cells; in a hole it skips ahead by the length
of the hole; behind the last cell it ends.

* `Turn`: one call of `__evfs_extent_map` that returns zero or more, `Run`: the loop around it.
* `Turn.shape_eq`, `Run.shape_eq`: no turn changes which blocks are mapped, nor their states. -/

namespace LinuxEvfs.ExtMove.Cursor

open LinuxEvfs.Lib.Word LinuxEvfs.Lib.Holes
open LinuxEvfs.ExtTree.Basic LinuxEvfs.ExtTree.Cells LinuxEvfs.ExtMove.Model

/-- The mapped blocks. -/
def dom (cs : List Cell) : Set ℕ := { L | ∃ x ∈ cs, x.1 = L }

/-- The mapped blocks with their states. -/
def shape (cs : List Cell) : List (ℕ × Bool) := cs.map fun x => (x.1, x.2.2)

/-- Every physical block is one of 48 bits. -/
def Phys48 (cs : List Cell) : Prop := ∀ x ∈ cs, x.2.1 < 2 ^ 48

/-- The cursor is behind all mapped blocks, or its range wraps. -/
def AtEnd (M : Set ℕ) (cur : EvfsExt) : Prop :=
  (∀ x ∈ M, x < cur.logStart) ∨ (cur.logStart ∈ M ∧ 2 ^ 32 ≤ cur.logStart + cur.len)

/-- **One turn**: the cells before, the cursor, the cells afterwards, the entry reported, and the next
cursor. -/
inductive Turn (cs : List Cell) (cur : EvfsExt) : List Cell → EvfsExt → EvfsExt → Prop
  | eof (h : AtEnd (dom cs) cur) : Turn cs cur cs cur EvfsExt.zero
  | skip {j : ℕ} (h : Skip (dom cs) cur.logStart j) (hj : j < 2 ^ 32) :
      Turn cs cur cs (EvfsExt.of cur.logStart cur.phyStart j)
        (EvfsExt.of (add32 cur.logStart j) (add64 cur.phyStart j) (sub32 cur.len j))
  | swap {mid : List Cell} {k q : ℕ} (hk : 0 < k) (hle : k ≤ cur.len)
      (hend : cur.logStart + cur.len < 2 ^ 32) (hmid : Keeps cs mid) (hq : q < 2 ^ 48)
      (hold : ∀ i < k, ∃ w, (cur.logStart + i, q + i, w) ∈ mid) :
      Turn cs cur (mid.map (remap cur.logStart k (cur.phyStart % 2 ^ 48)))
        (EvfsExt.of cur.logStart q k)
        (if k < cur.len then
          EvfsExt.of (cur.logStart + k) (add64 cur.phyStart k) (cur.len - k)
        else EvfsExt.zero)

/-- **A run** of at most `room` turns: the cells before, the cursor, the cells afterwards and the
entries reported. -/
inductive Run : ℕ → List Cell → EvfsExt → List Cell → List EvfsExt → Prop
  | full (cs : List Cell) (cur : EvfsExt) : Run 0 cs cur cs []
  | stop {room : ℕ} (cs : List Cell) {cur : EvfsExt} (h : cur.len = 0) : Run room cs cur cs []
  | turn {room : ℕ} {cs cs1 cs' : List Cell} {cur rep next : EvfsExt} {out : List EvfsExt}
      (hlen : cur.len ≠ 0) (ht : Turn cs cur cs1 rep next) (hr : Run room cs1 next cs' out) :
      Run (room + 1) cs cur cs' (rep :: out)

/-! ### Shape -/

theorem Keeps.shape_eq {cs cs' : List Cell} (h : Keeps cs cs') : shape cs' = shape cs := by
  induction h with
  | nil => rfl
  | cons hxy _ ih =>
    simp only [shape, List.map_cons] at ih ⊢
    rw [hxy.1, hxy.2.1, ih]

theorem remap_shape (c k p : ℕ) (cs : List Cell) : shape (cs.map (remap c k p)) = shape cs := by
  simp [shape, Function.comp_def]

theorem mem_dom {cs : List Cell} {L : ℕ} : L ∈ dom cs ↔ ∃ x ∈ cs, x.1 = L := Iff.rfl

theorem mem_dom_iff {cs : List Cell} {L : ℕ} : L ∈ dom cs ↔ ∃ w, (L, w) ∈ shape cs := by
  simp only [mem_dom, shape, List.mem_map, Prod.mk.injEq]
  constructor
  · rintro ⟨x, hx, rfl⟩
    exact ⟨x.2.2, x, hx, rfl, rfl⟩
  · rintro ⟨w, x, hx, rfl, rfl⟩
    exact ⟨x, hx, rfl⟩

theorem dom_eq_of_shape {cs cs' : List Cell} (h : shape cs' = shape cs) : dom cs' = dom cs := by
  ext L
  rw [mem_dom_iff, mem_dom_iff, h]

theorem mem_dom_cells {m : List Extent} {L : ℕ} : L ∈ dom (cells m) ↔ Mapped m L := by
  rw [mapped_iff_cells, mem_dom]
  constructor
  · rintro ⟨⟨L, p, w⟩, hx, rfl⟩
    exact ⟨p, w, hx⟩
  · rintro ⟨p, w, hx⟩
    exact ⟨_, hx, rfl⟩

/-- The mapped blocks of a list of extents. -/
def mapped (m : List Extent) : Set ℕ := { L | Mapped m L }

theorem dom_cells (m : List Extent) : dom (cells m) = mapped m := Set.ext fun _ => mem_dom_cells

section
variable {cs cs' : List Cell} {cur rep next : EvfsExt}

/-- No turn changes which blocks are mapped, nor their states. -/
theorem Turn.shape_eq (h : Turn cs cur cs' rep next) : shape cs' = shape cs := by
  cases h with
  | eof => rfl
  | skip => rfl
  | swap _ _ _ hmid => rw [remap_shape, Keeps.shape_eq hmid]

theorem Turn.dom_eq (h : Turn cs cur cs' rep next) : dom cs' = dom cs := dom_eq_of_shape h.shape_eq

theorem Run.shape_eq {room : ℕ} {out : List EvfsExt} (h : Run room cs cur cs' out) :
    shape cs' = shape cs := by
  induction h with
  | full => rfl
  | stop => rfl
  | turn _ ht _ ih => rw [ih, ht.shape_eq]

theorem Run.of_len_zero {room : ℕ} {out : List EvfsExt} (h : Run room cs cur cs' out)
    (h0 : cur.len = 0) : cs' = cs ∧ out = [] := by
  cases h with
  | full => exact ⟨rfl, rfl⟩
  | stop => exact ⟨rfl, rfl⟩
  | turn hlen => exact absurd h0 hlen

end

end LinuxEvfs.ExtMove.Cursor
