import LinuxEvfs.Htree.Leaves

/-! # The split of a leaf

`do_split` makes a map of the live records of a leaf, sorts it by hash, and moves the records from a position of the
map on to a new block; both blocks are packed, and the last record of each reaches to the end.

* `splitIndex_bounds`: where a leaf has two live records, the map is cut inside.
* `splitIndex_need`: what goes to either half takes half of a block and 132 bytes more at most, except that the first
  half may take 264 bytes more where the loop over the sizes has stopped at the first entry of the map.
* `splitRecords_spec`: both halves are leaves, together they have the live records of the leaf, and the hash for the
  index entry separates them. -/

namespace LinuxEvfs.Htree.Split

open LinuxEvfs.Errno LinuxEvfs.Namespace.Dir LinuxEvfs.Namespace.Block
open LinuxEvfs.Namespace.Entries (stretch)
open LinuxEvfs.Htree.SortMap LinuxEvfs.Htree.Model LinuxEvfs.Htree.Leaves

variable {sb : DxSb} {version : ℕ} {b : DirBlock} {de : DirEntry} {map l : List DxMapEntry} {m : DxMapEntry}

/-! ### Sizes -/

/-- The sum of a weight over the entries of a map. -/
def sumOf (w : DxMapEntry → ℕ) : List DxMapEntry → ℕ
  | [] => 0
  | m :: l => w m + sumOf w l

variable {w : DxMapEntry → ℕ}

@[simp] theorem sumOf_nil : sumOf w [] = 0 := rfl

@[simp] theorem sumOf_cons : sumOf w (m :: l) = w m + sumOf w l := rfl

@[simp] theorem sumOf_append (l l' : List DxMapEntry) : sumOf w (l ++ l') = sumOf w l + sumOf w l' := by
  induction l with
  | nil => simp
  | cons m l ih => simp [ih, Nat.add_assoc]

theorem sumOf_perm {l l' : List DxMapEntry} (h : l.Perm l') : sumOf w l = sumOf w l' := by
  induction h with
  | nil => rfl
  | cons x _ ih => simp [ih]
  | swap x y l =>
    simp only [sumOf_cons]
    omega
  | trans _ _ ih₁ ih₂ => rw [ih₁, ih₂]

theorem sumOf_mono {w' : DxMapEntry → ℕ} (h : ∀ m ∈ l, w m ≤ w' m) : sumOf w l ≤ sumOf w' l := by
  induction l with
  | nil => exact le_rfl
  | cons m l ih =>
    rw [List.forall_mem_cons] at h
    exact Nat.add_le_add h.1 (ih h.2)

theorem sumOf_take_le (k : ℕ) (l : List DxMapEntry) : sumOf w (l.take k) ≤ sumOf w l := by
  conv_rhs => rw [← List.take_append_drop k l, sumOf_append]
  exact Nat.le_add_right _ _

theorem sumOf_take_mono {j k : ℕ} (h : j ≤ k) (l : List DxMapEntry) : sumOf w (l.take j) ≤ sumOf w (l.take k) := by
  rw [← min_eq_left h, ← List.take_take]
  exact sumOf_take_le j _

/-! ### Where the map is cut -/

/-- What the entries moved take: the one that was added last had half of it in the first half of the block. -/
theorem moveCount_need (hw : ∀ m ∈ l, w m ≤ m.size ∧ w m ≤ 264) {size : ℕ} (hpos : 0 < moveCount sb size l) :
    size + sumOf w (l.take (moveCount sb size l)) ≤ sb.blocksize / 2 + 132 := by
  induction l generalizing size with
  | nil => simp [moveCount] at hpos
  | cons m l ih =>
    rw [List.forall_mem_cons] at hw
    unfold moveCount at hpos ⊢
    split_ifs at hpos ⊢ with h
    · simp at hpos
    · rw [Nat.add_comm 1, List.take_succ_cons, sumOf_cons]
      rcases Nat.eq_zero_or_pos (moveCount sb (size + m.size) l) with h0 | h0
      · rw [h0, List.take_zero, sumOf_nil]
        omega
      · have := ih hw.2 h0
        omega

theorem moveCount_le (sb : DxSb) (size : ℕ) (l : List DxMapEntry) : moveCount sb size l ≤ l.length := by
  induction l generalizing size with
  | nil => exact Nat.zero_le _
  | cons m l ih =>
    unfold moveCount
    split_ifs
    · exact Nat.zero_le _
    · have := ih (size + m.size)
      rw [List.length_cons]
      omega

/-- The entry the loop stops at has more than half of it in the second half. -/
theorem moveCount_stop (sb : DxSb) (size : ℕ) {l : List DxMapEntry} (h : moveCount sb size l < l.length) :
    ∃ m rest, l.drop (moveCount sb size l) = m :: rest ∧
      sb.blocksize / 2 < size + sumOf DxMapEntry.size (l.take (moveCount sb size l)) + m.size / 2 := by
  induction l generalizing size with
  | nil => simp at h
  | cons m l ih =>
    unfold moveCount at h ⊢
    split_ifs at h ⊢ with hstop
    · exact ⟨m, l, rfl, by simpa using hstop⟩
    · rw [List.length_cons] at h
      obtain ⟨m', rest, hdrop, hlt⟩ := ih (size + m.size) (by omega)
      refine ⟨m', rest, ?_, ?_⟩
      · rw [Nat.add_comm 1, List.drop_succ_cons, hdrop]
      · rw [Nat.add_comm 1, List.take_succ_cons, sumOf_cons]
        omega

theorem moveCount_pos (hne : l ≠ []) (hsize : sumOf DxMapEntry.size l ≤ sb.blocksize) :
    0 < moveCount sb 0 l := by
  obtain ⟨m, l, rfl⟩ := List.exists_cons_of_ne_nil hne
  rw [sumOf_cons] at hsize
  unfold moveCount
  rw [if_neg (by omega)]
  omega

section Map

variable (h2 : 2 ≤ map.length) (hsize : sumOf DxMapEntry.size map ≤ sb.blocksize)
include h2 hsize

theorem move_pos : 0 < moveCount sb 0 map.reverse := by
  refine moveCount_pos (fun h => ?_) ?_
  · rw [List.reverse_eq_nil_iff] at h
    rw [h] at h2
    exact absurd h2 (by decide)
  · rwa [sumOf_perm (List.reverse_perm map)]

/-- **The cut** is inside the map: both positions that are read are there. -/
theorem splitIndex_bounds : 0 < splitIndex sb map ∧ splitIndex sb map < map.length := by
  have hpos := move_pos h2 hsize
  unfold splitIndex
  dsimp only
  split_ifs <;> omega

/-- **What the halves take**. -/
theorem splitIndex_need (hw : ∀ m ∈ map, w m ≤ m.size ∧ w m ≤ 264) (heven : 2 ∣ sb.blocksize) :
    sumOf w (map.drop (splitIndex sb map)) ≤ sb.blocksize / 2 + 132 ∧
      (sumOf w (map.take (splitIndex sb map)) ≤ sb.blocksize / 2 + 132 ∨
        moveCount sb 0 map.reverse + 1 = map.length ∧
          sumOf w (map.take (splitIndex sb map)) ≤ sb.blocksize / 2 + 396) := by
  have hpos := move_pos h2 hsize
  have hle := moveCount_le sb 0 map.reverse
  rw [List.length_reverse] at hle
  have hw' : ∀ m ∈ map.reverse, w m ≤ m.size ∧ w m ≤ 264 := fun m hm => hw m (List.mem_reverse.mp hm)
  have hmoved := moveCount_need hw' hpos
  rw [Nat.zero_add] at hmoved
  -- the halves, seen from the end of the map
  have hdrop : ∀ k, sumOf w (map.drop k) = sumOf w (map.reverse.take (map.length - k)) := fun k => by
    rw [List.take_reverse, sumOf_perm (List.reverse_perm _)]
    by_cases hk : k ≤ map.length
    · rw [Nat.sub_sub_self hk]
    · rw [List.drop_of_length_le (by omega), List.drop_of_length_le (by omega)]
  have htotal : ∀ k, sumOf w (map.take k) + sumOf w (map.drop k) = sumOf w map := fun k => by
    rw [← sumOf_append, List.take_append_drop]
  have hall : sumOf w map.reverse = sumOf w map := sumOf_perm (List.reverse_perm map)
  refine ⟨?_, ?_⟩
  · rw [hdrop]
    refine (sumOf_take_mono ?_ _).trans hmoved
    unfold splitIndex
    dsimp only
    split_ifs <;> omega
  rcases Nat.lt_or_ge (moveCount sb 0 map.reverse + 1) map.length with hA | hB
  · -- the loop has stopped at an entry that stays, with others before it
    left
    obtain ⟨m, rest, hm, hlt⟩ := moveCount_stop sb 0 (l := map.reverse) (by rw [List.length_reverse]; omega)
    have hsplit : splitIndex sb map = map.length - moveCount sb 0 map.reverse := by
      unfold splitIndex
      exact if_pos hA
    have hcut : ∀ v : DxMapEntry → ℕ, sumOf v map
        = sumOf v (map.reverse.take (moveCount sb 0 map.reverse)) + (v m + sumOf v rest) := fun v => by
      rw [← sumOf_perm (List.reverse_perm map), ← sumOf_cons, ← hm, ← sumOf_append, List.take_append_drop]
    have hmem : ∀ x ∈ m :: rest, x ∈ map := fun x hx =>
      List.mem_reverse.mp (List.mem_of_mem_drop (hm ▸ hx))
    have hrest : sumOf w rest ≤ sumOf DxMapEntry.size rest :=
      sumOf_mono fun x hx => (hw x (hmem x (List.mem_cons_of_mem _ hx))).1
    have hm' := hw m (hmem m List.mem_cons_self)
    have hsizes := hcut DxMapEntry.size
    have hneeds := hcut w
    have htake := htotal (splitIndex sb map)
    rw [hdrop, hsplit, Nat.sub_sub_self hle] at htake
    rw [hsplit]
    omega
  rcases Nat.eq_or_lt_of_le hle with hC | hC
  · -- every entry could be moved
    left
    rw [hC, List.take_of_length_le (by rw [List.length_reverse]), hall] at hmoved
    exact (sumOf_take_le _ _).trans hmoved
  · -- the loop has stopped at the first entry of the map
    right
    obtain ⟨m, rest, hm, -⟩ := moveCount_stop sb 0 (l := map.reverse) (by rw [List.length_reverse]; omega)
    have hlen : (map.reverse.drop (moveCount sb 0 map.reverse)).length = 1 := by
      rw [List.length_drop, List.length_reverse]
      omega
    obtain rfl : rest = [] := by
      rw [hm] at hlen
      simpa using hlen
    have hmem : m ∈ map := List.mem_reverse.mp (List.mem_of_mem_drop (hm ▸ List.mem_cons_self))
    have hw0 := (hw m hmem).2
    have hcut : sumOf w map = sumOf w (map.reverse.take (moveCount sb 0 map.reverse)) + w m := by
      have hsum := sumOf_append (w := w) (map.reverse.take (moveCount sb 0 map.reverse))
        (map.reverse.drop (moveCount sb 0 map.reverse))
      rwa [List.take_append_drop, hall, hm, sumOf_cons, sumOf_nil, Nat.add_zero] at hsum
    refine ⟨by omega, (sumOf_take_le _ _).trans ?_⟩
    omega

end Map

/-! ### The map of a leaf -/

/-- The entries of the map in the order of the records, from record number `k` on. -/
def mapOf (sb : DxSb) (version : ℕ) : ℕ → DirBlock → List DxMapEntry
  | _, [] => []
  | k, de :: rest =>
    if de.name ≠ [] ∧ de.inode ≠ 0 then ⟨sb.dirhash version de.name, k, de.recLen⟩ :: mapOf sb version (k + 1) rest
    else mapOf sb version (k + 1) rest

theorem dxMakeMap_eq (version : ℕ) (hsb : Usual sb) : ∀ (k : ℕ) {offset : ℕ} {b : DirBlock}, (∀ de ∈ b, Sound sb de) →
    offset + used b = sb.bufSize → dxMakeMap sb version k offset b = .ok (mapOf sb version k b).reverse
  | _, _, [], _, _ => rfl
  | k, offset, de :: rest, hb, hoff => by
    rw [List.forall_mem_cons] at hb
    have hgood := hsb.accepts_bufSize hb.1 hb.2 hoff
    have htwelve := hb.1.twelve
    rw [used_cons, ← Nat.add_assoc] at hoff
    unfold dxMakeMap mapOf
    rw [if_neg (by omega), if_neg (by simp [hgood]), dxMakeMap_eq version hsb (k + 1) hb.2 hoff]
    split_ifs with h
    · rw [List.reverse_cons]
    · rfl

/-- The record of an entry of the map. -/
def recOf (b : DirBlock) (m : DxMapEntry) : DirEntry := (b[m.offs]?).getD (wiped 0)

/-- The entry of a live record. -/
structure Maps (sb : DxSb) (version : ℕ) (b : DirBlock) (m : DxMapEntry) : Prop where
  getElem : b[m.offs]? = some (recOf b m)
  inode : (recOf b m).inode ≠ 0
  name : (recOf b m).name ≠ []
  hash : m.hash = sb.dirhash version (recOf b m).name
  size : m.size = (recOf b m).recLen

theorem mapOf_spec (sb : DxSb) (version : ℕ) : ∀ pre b : DirBlock,
      (∀ m ∈ mapOf sb version pre.length b, Maps sb version (pre ++ b) m ∧ pre.length ≤ m.offs) ∧ ((mapOf sb version pre.length b).map DxMapEntry.offs).Nodup ∧
      (mapOf sb version pre.length b).map (fun m => packed (recOf (pre ++ b) m)) = dxPackDirents b
  | pre, [] => ⟨fun _ h => absurd h List.not_mem_nil, List.nodup_nil, rfl⟩
  | pre, de :: rest => by
    obtain ⟨ih1, ih2, ih3⟩ := mapOf_spec sb version (pre ++ [de]) rest
    simp only [List.length_append, List.length_singleton, List.append_assoc, List.singleton_append] at ih1 ih2 ih3
    have hget : (pre ++ de :: rest)[pre.length]? = some de := by simp
    have hrec : ∀ hash size, recOf (pre ++ de :: rest) ⟨hash, pre.length, size⟩ = de := fun hash size => by
      simp [recOf]
    unfold mapOf
    split_ifs with h
    · refine ⟨?_, ?_, ?_⟩
      · refine List.forall_mem_cons.mpr ⟨⟨⟨?_, ?_, ?_, ?_, ?_⟩, le_rfl⟩, fun m hm => ⟨(ih1 m hm).1, ?_⟩⟩
        · rw [hrec]; exact hget
        · rw [hrec]; exact h.2
        · rw [hrec]; exact h.1
        · rw [hrec]
        · rw [hrec]
        · exact Nat.le_of_succ_le (ih1 m hm).2
      · rw [List.map_cons, List.nodup_cons]
        refine ⟨fun hmem => ?_, ih2⟩
        obtain ⟨m, hm, heq⟩ := List.mem_map.mp hmem
        exact absurd (heq ▸ (ih1 m hm).2) (Nat.not_succ_le_self _)
      · rw [List.map_cons, ih3, hrec, dxPackDirents, dxPackDirents, List.filter_cons_of_pos (by simp [h.1, h.2]),
          List.map_cons]
    · refine ⟨fun m hm => ⟨(ih1 m hm).1, Nat.le_of_succ_le (ih1 m hm).2⟩, ih2, ?_⟩
      rw [ih3, dxPackDirents, dxPackDirents, List.filter_cons_of_neg]
      simp only [ne_eq, Bool.and_eq_true, decide_eq_true_eq]
      tauto

/-! ### Moving records -/

/-- A live record that is wiped is missing among the packed ones. -/
theorem dxPackDirents_set {k : ℕ} (hk : b[k]? = some de) (h0 : de.inode ≠ 0) (hname : de.name ≠ []) (n : ℕ) :
    (dxPackDirents b).Perm (packed de :: dxPackDirents (b.set k (wiped n))) := by
  obtain ⟨l, r, rfl, rfl⟩ := exists_cut hk
  have hset : (l ++ de :: r).set l.length (wiped n) = l ++ wiped n :: r := by simp
  have hdead : (wiped n).inode = 0 := rfl
  rw [hset, dxPackDirents, dxPackDirents, List.filter_append, List.filter_append,
    List.filter_cons_of_pos (by simp [h0, hname]), List.filter_cons_of_neg (by simp [hdead]), List.map_append,
    List.map_append, List.map_cons]
  exact List.perm_middle

/-- **The records moved** are those of the map, and with what stays they are all. -/
theorem dxMoveDirents_spec : ∀ {map : List DxMapEntry} {b : DirBlock}, (∀ m ∈ map, Maps sb version b m) →
    (map.map DxMapEntry.offs).Nodup →
      (dxMoveDirents map b).2 = map.map (fun m => packed (recOf b m)) ∧
      (dxPackDirents (dxMoveDirents map b).1 ++ (dxMoveDirents map b).2).Perm (dxPackDirents b)
  | [], b, _, _ => by simp [dxMoveDirents]
  | m :: map, b, hmap, hnd => by
    rw [List.forall_mem_cons] at hmap
    rw [List.map_cons, List.nodup_cons] at hnd
    obtain ⟨hm, hrest⟩ := hmap
    -- the other records of the map are not touched
    have hsame : ∀ m' ∈ map, recOf (b.set m.offs (wiped (recOf b m).recLen)) m' = recOf b m' := fun m' hm' => by
      have hne : m.offs ≠ m'.offs := fun h => hnd.1 (h ▸ List.mem_map_of_mem hm')
      simp [recOf, List.getElem?_set_ne hne]
    have hmaps : ∀ m' ∈ map, Maps sb version (b.set m.offs (wiped (recOf b m).recLen)) m' := fun m' hm' => by
      have hne : m.offs ≠ m'.offs := fun h => hnd.1 (h ▸ List.mem_map_of_mem hm')
      obtain ⟨h1, h2, h3, h4, h5⟩ := hrest m' hm'
      refine ⟨?_, ?_, ?_, ?_, ?_⟩
      · rw [List.getElem?_set_ne hne, hsame m' hm', h1]
      all_goals rw [hsame m' hm']
      all_goals assumption
    obtain ⟨ih1, ih2⟩ := dxMoveDirents_spec hmaps hnd.2
    have hstep : dxMoveDirents (m :: map) b
        = ((dxMoveDirents map (b.set m.offs (wiped (recOf b m).recLen))).1,
          packed (recOf b m) :: (dxMoveDirents map (b.set m.offs (wiped (recOf b m).recLen))).2) := by
      rw [dxMoveDirents, hm.getElem]
    rw [hstep]
    refine ⟨?_, ?_⟩
    · rw [ih1, List.map_cons]
      exact congrArg _ (List.map_congr_left fun m' hm' => by rw [hsame m' hm'])
    · exact List.perm_middle.trans ((ih2.cons _).trans (dxPackDirents_set hm.getElem hm.inode hm.name _).symm)

/-! ### The last record -/

theorem stretch_concat (size : ℕ) (x : DirEntry) : ∀ (l : DirBlock) (offset : ℕ),
    stretch size offset (l ++ [x]) = l ++ [{ x with recLen := size - (offset + used l) }]
  | [], offset => by simp [stretch]
  | [y], offset => by simp [stretch]
  | y :: z :: l, offset => by
    have ih := stretch_concat size x (z :: l) (offset + y.recLen)
    rw [List.cons_append, List.cons_append] at ih ⊢
    rw [stretch, ih, Nat.add_assoc]
    · rfl
    · exact List.cons_ne_nil _ _

/-- Live records are a leaf once the last one reaches to the end. -/
theorem stretch_leaf {recs : DirBlock} (hsb : Usual sb) (hne : recs ≠ [])
    (hs : ∀ de ∈ recs, Sound sb de ∧ de.inode ≠ 0) (hle : used recs ≤ sb.bufSize) :
    IsLeaf sb (stretch sb.bufSize 0 recs) ∧ liveRecs (stretch sb.bufSize 0 recs) = recs.map bare := by
  obtain ⟨l, x, rfl⟩ := (List.eq_nil_or_concat recs).resolve_left hne
  rw [List.concat_eq_append] at hs hle ⊢
  rw [List.forall_mem_append, List.forall_mem_singleton] at hs
  obtain ⟨hl, hx, hx0⟩ := hs
  simp only [used_append, used_cons, used_nil] at hle
  have hdvd : 4 ∣ used l := by
    clear hle hne
    induction l with
    | nil => exact dvd_zero 4
    | cons y l ih =>
      rw [List.forall_mem_cons] at hl
      exact Nat.dvd_add hl.1.1.aligned (ih hl.2)
  have hbuf : 4 ∣ sb.bufSize := by
    have := hsb.aligned
    rcases hsb.bufSize with hb | hb <;> omega
  have hlive : ∀ y ∈ l ++ [{ x with recLen := sb.bufSize - used l }], y.inode ≠ 0 := by
    rw [List.forall_mem_append, List.forall_mem_singleton]
    exact ⟨fun y hy => (hl y hy).2, hx0⟩
  rw [stretch_concat, Nat.zero_add]
  refine ⟨⟨?_, ?_, fun y hy => hlive y (List.mem_of_mem_tail hy)⟩, ?_⟩
  · rw [List.forall_mem_append, List.forall_mem_singleton]
    refine ⟨fun y hy => (hl y hy).1, ⟨Nat.dvd_sub hbuf hdvd, ?_, ?_, hx.name, hx.inode⟩⟩
    · have := hx.twelve
      dsimp only
      omega
    · have := hx.large
      dsimp only
      omega
  · simp only [used_append, used_cons, used_nil]
    omega
  · rw [live_of_forall hlive, List.map_append, List.map_append]
    rfl

/-- Packed records of a leaf. -/
structure Packed (sb : DxSb) (recs : DirBlock) : Prop where
  ne_nil : recs ≠ []
  sound : ∀ de ∈ recs, Sound sb de ∧ de.inode ≠ 0 ∧ de.recLen = ext4DirRecLen de.name.length
  used_le : used recs ≤ sb.bufSize

/-- **A half**: the packed records are a leaf once the last one reaches to the end, and what is left over is behind its
name. -/
theorem Packed.leaf {recs : DirBlock} (hsb : Usual sb) (h : Packed sb recs) :
    IsLeaf sb (stretch sb.bufSize 0 recs) ∧ liveRecs (stretch sb.bufSize 0 recs) = recs.map bare ∧
      ∃ x, (stretch sb.bufSize 0 recs)[(stretch sb.bufSize 0 recs).length - 1]? = some x ∧
        x.recLen + used recs = taken x + sb.bufSize := by
  obtain ⟨hleaf, hlive⟩ := stretch_leaf hsb h.ne_nil (fun de hde => ⟨(h.sound de hde).1, (h.sound de hde).2.1⟩) h.used_le
  refine ⟨hleaf, hlive, ?_⟩
  obtain ⟨l, x, hrecs⟩ := (List.eq_nil_or_concat recs).resolve_left h.ne_nil
  rw [List.concat_eq_append] at hrecs
  obtain ⟨-, hx0, hxlen⟩ := h.sound x (by rw [hrecs]; simp)
  have hle := h.used_le
  rw [hrecs] at hle ⊢
  rw [stretch_concat, Nat.zero_add]
  simp only [used_append, used_cons, used_nil] at hle ⊢
  refine ⟨{ x with recLen := sb.bufSize - used l }, by simp, ?_⟩
  have htaken : taken { x with recLen := sb.bufSize - used l } = x.recLen := (if_pos hx0).trans hxlen.symm
  rw [htaken]
  dsimp only
  omega

/-! ### The halves -/

theorem used_perm {b b' : DirBlock} (h : b.Perm b') : used b = used b' := by
  induction h with
  | nil => rfl
  | cons x _ ih => simp [ih]
  | swap x y l =>
    simp only [used_cons]
    omega
  | trans _ _ ih₁ ih₂ => rw [ih₁, ih₂]

theorem used_map (f : DxMapEntry → DirEntry) (l : List DxMapEntry) :
    used (l.map f) = sumOf (fun m => (f m).recLen) l := by
  induction l with
  | nil => rfl
  | cons m l ih => rw [List.map_cons, used_cons, ih, sumOf_cons]

theorem sumOf_size_le : ∀ (k : ℕ) (b : DirBlock), sumOf DxMapEntry.size (mapOf sb version k b) ≤ used b
  | _, [] => le_rfl
  | k, de :: rest => by
    have ih := sumOf_size_le (k + 1) rest
    unfold mapOf
    split_ifs
    · rw [sumOf_cons, used_cons]
      exact Nat.add_le_add_left ih _
    · exact ih.trans (Nat.le_add_left _ _)

/-- Every live record has a name, so packing keeps them all. -/
theorem dxPackDirents_bare (hb : ∀ de ∈ b, Sound sb de) : (dxPackDirents b).map bare = liveRecs b := by
  have hfilter : (b.filter fun de => de.inode ≠ 0 && de.name ≠ []) = b.filter fun de => de.inode ≠ 0 := by
    refine List.filter_congr fun de hde => ?_
    by_cases h0 : de.inode = 0
    · simp [h0]
    · have hne : de.name ≠ [] := List.ne_nil_of_length_pos ((hb de hde).name h0).1
      simp [h0, hne]
  rw [dxPackDirents, hfilter, List.map_map]
  rfl

theorem Maps.sound (hm : Maps sb version b m) (hb : ∀ de ∈ b, Sound sb de) : Sound sb (recOf b m) :=
  hb _ (List.mem_of_getElem? hm.getElem)

/-- A record of the map, packed. -/
theorem Maps.packed (hm : Maps sb version b m) (hb : ∀ de ∈ b, Sound sb de) :
    Sound sb (Model.packed (recOf b m)) ∧ (recOf b m).inode ≠ 0 ∧ (Model.packed (recOf b m)).recLen ≤ m.size ∧
      (Model.packed (recOf b m)).recLen ≤ 264 := by
  have hs := hm.sound hb
  have hname := hs.name hm.inode
  refine ⟨⟨dvd_ext4DirRecLen _, ext4DirRecLen_ge hname.1, le_rfl, hs.name, hs.inode⟩, hm.inode, ?_,
    ext4DirRecLen_le hname.2⟩
  rw [hm.size]
  exact hs.large

/-- What the split of the leaf `b` makes. -/
structure SplitOK (sb : DxSb) (version : ℕ) (b : DirBlock) (h : Halves) : Prop where
  fst : IsLeaf sb h.fst
  snd : IsLeaf sb h.snd
  perm : (liveRecs h.fst ++ liveRecs h.snd).Perm (liveRecs b)
  fst_ne : liveRecs h.fst ≠ []
  snd_ne : liveRecs h.snd ≠ []
  below : ∀ x ∈ liveRecs h.fst, sb.dirhash version x.name < h.hash2 + h.continued.toNat
  above : ∀ x ∈ liveRecs h.snd, h.hash2 ≤ sb.dirhash version x.name

/-- The last record of a block has room for a name of any length behind its own. -/
def Roomy (b : DirBlock) : Prop := ∃ x, b[b.length - 1]? = some x ∧ 264 + taken x ≤ x.recLen

/-- A part of the map, packed, is the contents of a leaf. -/
theorem packed_part {part : List DxMapEntry} {recs : DirBlock} (hb : IsLeaf sb b)
    (hmaps : ∀ m ∈ part, Maps sb version b m) (hperm : recs.Perm (part.map fun m => packed (recOf b m)))
    (hne : part ≠ []) (hsize : sumOf DxMapEntry.size part ≤ sb.bufSize) : Packed sb recs := by
  have hmem : ∀ x ∈ recs, ∃ m ∈ part, x = packed (recOf b m) := fun x hx => by
    obtain ⟨m, hm, rfl⟩ := List.mem_map.mp (hperm.mem_iff.mp hx)
    exact ⟨m, hm, rfl⟩
  refine ⟨fun h0 => ?_, fun x hx => ?_, ?_⟩
  · rw [h0, List.nil_perm, List.map_eq_nil_iff] at hperm
    exact hne hperm
  · obtain ⟨m, hm, rfl⟩ := hmem x hx
    obtain ⟨h1, h2, -, -⟩ := (hmaps m hm).packed hb.sound
    exact ⟨h1, h2, rfl⟩
  · rw [used_perm hperm, used_map]
    exact (sumOf_mono fun m hm => ((hmaps m hm).packed hb.sound).2.2.1).trans hsize

theorem roomy_of_need {recs : DirBlock} (hsb : Usual sb) (h : Packed sb recs) (hneed : used recs + 264 ≤ sb.bufSize) :
    Roomy (stretch sb.bufSize 0 recs) := by
  obtain ⟨-, -, x, hx, hroom⟩ := h.leaf hsb
  exact ⟨x, hx, by omega⟩

theorem map_packed (hperm : map.Perm (mapOf sb version 0 b)) :
    (map.map fun m => packed (recOf b m)).Perm (dxPackDirents b) := by
  obtain ⟨-, -, hpack⟩ := mapOf_spec sb version [] b
  exact (hperm.map _).trans (hpack ▸ List.Perm.refl _)

/-- What is in either part of a map of the live records. -/
theorem parts_spec {split : ℕ} (hb : IsLeaf sb b) (hperm : map.Perm (mapOf sb version 0 b)) (hpos : 0 < split)
    (hlt : split < map.length) :
    (∀ m ∈ map, Maps sb version b m) ∧
      (dxPackDirents (dxMoveDirents (map.drop split) b).1).Perm ((map.take split).map fun m => packed (recOf b m)) ∧
      (dxMoveDirents (map.drop split) b).2.Perm ((map.drop split).map fun m => packed (recOf b m)) ∧
      Packed sb (dxPackDirents (dxMoveDirents (map.drop split) b).1) ∧
      Packed sb (dxMoveDirents (map.drop split) b).2 := by
  obtain ⟨hmaps₀, hnd₀, -⟩ := mapOf_spec sb version [] b
  have hmaps : ∀ m ∈ map, Maps sb version b m := fun m hm => (hmaps₀ m (hperm.mem_iff.mp hm)).1
  have hnd : (map.map DxMapEntry.offs).Nodup := ((hperm.map _).nodup_iff).mpr hnd₀
  have hmapsT : ∀ m ∈ map.take split, Maps sb version b m := fun m hm => hmaps m (List.mem_of_mem_take hm)
  have hmapsD : ∀ m ∈ map.drop split, Maps sb version b m := fun m hm => hmaps m (List.mem_of_mem_drop hm)
  have hcut : map.take split ++ map.drop split = map := List.take_append_drop split map
  obtain ⟨hmoved, hkept⟩ := dxMoveDirents_spec hmapsD (hnd.sublist ((List.drop_sublist split map).map _))
  have hfst : (dxPackDirents (dxMoveDirents (map.drop split) b).1).Perm
      ((map.take split).map fun m => packed (recOf b m)) := by
    rw [hmoved] at hkept
    refine (List.perm_append_right_iff _).mp (hkept.trans ?_)
    rw [← List.map_append, hcut]
    exact (map_packed hperm).symm
  have hsnd : (dxMoveDirents (map.drop split) b).2.Perm ((map.drop split).map fun m => packed (recOf b m)) :=
    hmoved ▸ List.Perm.refl _
  have hsizes : sumOf DxMapEntry.size (map.take split) + sumOf DxMapEntry.size (map.drop split) ≤ sb.bufSize := by
    rw [← sumOf_append, hcut, sumOf_perm hperm, ← hb.tiles]
    exact sumOf_size_le 0 b
  refine ⟨hmaps, hfst, hsnd, packed_part hb hmapsT hfst ?_ (by omega), packed_part hb hmapsD hsnd ?_ (by omega)⟩
  · exact List.ne_nil_of_length_pos (by rw [List.length_take]; omega)
  · exact List.ne_nil_of_length_pos (by rw [List.length_drop]; omega)

/-- The hashes on both sides of a position of a sorted map. -/
theorem sorted_cut {split : ℕ} (hsorted : map.Pairwise fun x y => x.hash ≤ y.hash) (hpos : 0 < split)
    (hlt : split < map.length) :
    ∃ m m', map[split]? = some m ∧ map[split - 1]? = some m' ∧ (∀ x ∈ map.take split, x.hash ≤ m'.hash) ∧
      (∀ x ∈ map.drop split, m.hash ≤ x.hash) ∧ m'.hash < m.hash + (decide (m.hash = m'.hash)).toNat := by
  have hle : ∀ i j (hi : i < map.length) (hj : j < map.length), i ≤ j → map[i].hash ≤ map[j].hash := by
    intro i j hi hj hij
    rcases Nat.eq_or_lt_of_le hij with rfl | hij
    · exact le_rfl
    · exact List.pairwise_iff_getElem.mp hsorted i j hi hj hij
  have hmid := hle (split - 1) split (by omega) hlt (by omega)
  refine ⟨_, _, List.getElem?_eq_getElem hlt, List.getElem?_eq_getElem (by omega), fun m hm => ?_, fun m hm => ?_, ?_⟩
  · obtain ⟨i, hi, rfl⟩ := List.getElem_of_mem hm
    rw [List.length_take] at hi
    rw [List.getElem_take]
    exact hle _ _ _ _ (by omega)
  · obtain ⟨i, hi, rfl⟩ := List.getElem_of_mem hm
    rw [List.length_drop] at hi
    rw [List.getElem_drop]
    exact hle _ _ _ _ (by omega)
  · by_cases hc : map[split].hash = map[split - 1].hash
    · rw [decide_eq_true hc]
      simp only [Bool.toNat_true]
      omega
    · rw [decide_eq_false hc]
      simp only [Bool.toNat_false]
      omega

/-- The hash of a record of a half is one of its part of the map. -/
theorem hash_of_mem {part : List DxMapEntry} {recs : DirBlock} {x : DirEntry}
    (hmaps : ∀ m ∈ part, Maps sb version b m) (hperm : recs.Perm (part.map fun m => packed (recOf b m)))
    (hx : x ∈ recs.map bare) : ∃ m ∈ part, sb.dirhash version x.name = m.hash := by
  obtain ⟨y, hy, rfl⟩ := List.mem_map.mp hx
  obtain ⟨m, hm, rfl⟩ := List.mem_map.mp (hperm.mem_iff.mp hy)
  exact ⟨m, hm, (hmaps m hm).hash.symm⟩

theorem splitRecords_eq {m m' : DxMapEntry} (hpos : 0 < splitIndex sb map) (hm : map[splitIndex sb map]? = some m)
    (hm' : map[splitIndex sb map - 1]? = some m') :
    splitRecords sb map b = some ⟨
      stretch sb.bufSize 0 (dxPackDirents (dxMoveDirents (map.drop (splitIndex sb map)) b).1),
      stretch sb.bufSize 0 (dxMoveDirents (map.drop (splitIndex sb map)) b).2, m.hash, m.hash = m'.hash⟩ := by
  unfold splitRecords
  dsimp only
  rw [if_neg (by omega), hm, hm']

theorem length_eq_live (hb : IsLeaf sb b) (hperm : map.Perm (mapOf sb version 0 b)) :
    map.length = (liveRecs b).length := by
  rw [← dxPackDirents_bare hb.sound, List.length_map, ← (map_packed hperm).length_eq, List.length_map]

/-- **The split of a leaf** by a sorted map of its live records. There is room for any name in both halves, if blocks
have 2048 bytes or the loop over the sizes has not stopped at the first entry of the map. -/
theorem splitRecords_spec (hsb : Usual sb) (hb : IsLeaf sb b) (hperm : map.Perm (mapOf sb version 0 b))
    (hsorted : map.Pairwise fun x y => x.hash ≤ y.hash) (h2 : 2 ≤ (liveRecs b).length) :
    ∃ h, splitRecords sb map b = some h ∧ SplitOK sb version b h ∧
      (2048 ≤ sb.blocksize ∨ moveCount sb 0 map.reverse + 1 ≠ map.length → Roomy h.fst ∧ Roomy h.snd) := by
  have hblock := hsb.blocksize
  have hbuf := hsb.bufSize
  have hlen := length_eq_live hb hperm
  have hsizes : sumOf DxMapEntry.size map ≤ sb.blocksize := by
    rw [sumOf_perm hperm]
    exact (sumOf_size_le 0 b).trans (hb.tiles ▸ hsb.bufSize_ge.2)
  have h2' : 2 ≤ map.length := by omega
  obtain ⟨hpos, hlt⟩ := splitIndex_bounds h2' hsizes
  obtain ⟨hmaps, hfst, hsnd, hpackT, hpackD⟩ := parts_spec hb hperm hpos hlt
  obtain ⟨m₁, m₀, hm₁, hm₀, hlow, hhigh, hmid⟩ := sorted_cut hsorted hpos hlt
  obtain ⟨hneedD, hneedT⟩ := splitIndex_need (w := fun m => (packed (recOf b m)).recLen) h2' hsizes
    (fun m hm => ((hmaps m hm).packed hb.sound).2.2) (Nat.dvd_trans (by decide) hsb.aligned)
  rw [← used_map, ← used_perm hsnd] at hneedD
  rw [← used_map, ← used_perm hfst] at hneedT
  have hroomD : used (dxMoveDirents (map.drop (splitIndex sb map)) b).2 + 264 ≤ sb.bufSize := by omega
  have hroomT (h : 2048 ≤ sb.blocksize ∨ moveCount sb 0 map.reverse + 1 ≠ map.length) :
      used (dxPackDirents (dxMoveDirents (map.drop (splitIndex sb map)) b).1) + 264 ≤ sb.bufSize := by omega
  have hmapsT : ∀ m ∈ map.take (splitIndex sb map), Maps sb version b m := fun m hm =>
    hmaps m (List.mem_of_mem_take hm)
  have hmapsD : ∀ m ∈ map.drop (splitIndex sb map), Maps sb version b m := fun m hm =>
    hmaps m (List.mem_of_mem_drop hm)
  obtain ⟨hleafT, hliveT, -⟩ := hpackT.leaf hsb
  obtain ⟨hleafD, hliveD, -⟩ := hpackD.leaf hsb
  refine ⟨_, splitRecords_eq hpos hm₁ hm₀, ⟨hleafT, hleafD, ?_, ?_, ?_, ?_, ?_⟩, fun hcond => ⟨?_, ?_⟩⟩
  · -- together the halves have the records of the leaf
    rw [hliveT, hliveD, ← List.map_append, ← dxPackDirents_bare hb.sound]
    refine List.Perm.map _ ((hfst.append hsnd).trans ?_)
    rw [← List.map_append, List.take_append_drop]
    exact map_packed hperm
  · rw [hliveT]
    exact fun h0 => hpackT.ne_nil (List.map_eq_nil_iff.mp h0)
  · rw [hliveD]
    exact fun h0 => hpackD.ne_nil (List.map_eq_nil_iff.mp h0)
  · intro x hx
    rw [hliveT] at hx
    obtain ⟨m, hm, hhash⟩ := hash_of_mem hmapsT hfst hx
    rw [hhash]
    exact Nat.lt_of_le_of_lt (hlow m hm) hmid
  · intro x hx
    rw [hliveD] at hx
    obtain ⟨m, hm, hhash⟩ := hash_of_mem hmapsD hsnd hx
    rw [hhash]
    exact hhigh m hm
  · exact roomy_of_need hsb hpackT (hroomT hcond)
  · exact roomy_of_need hsb hpackD hroomD

/-- The map of a leaf with two live records, sorted, and the split by it. -/
theorem splitLeaf_spec (version : ℕ) (hsb : Usual sb) (hb : IsLeaf sb b) (h2 : 2 ≤ (liveRecs b).length) :
    ∃ map h, dxMakeMap sb version 0 0 b = .ok map ∧ splitRecords sb (dxSortMap map) b = some h ∧
      SplitOK sb version b h ∧
      (2048 ≤ sb.blocksize ∨ moveCount sb 0 (dxSortMap map).reverse + 1 ≠ map.length → Roomy h.fst ∧ Roomy h.snd) := by
  have hmap := dxMakeMap_eq version hsb 0 hb.sound (by rw [Nat.zero_add]; exact hb.tiles)
  have hperm := (dxSortMap_perm (mapOf sb version 0 b).reverse).trans (List.reverse_perm _)
  obtain ⟨h, hsplit, hok, hroom⟩ := splitRecords_spec hsb hb hperm (dxSortMap_sorted _) h2
  refine ⟨_, h, hmap, hsplit, hok, fun hcond => hroom ?_⟩
  rwa [(dxSortMap_perm _).length_eq]

/-- **The split of a leaf that has no room** for a name: the map is not left, the halves have the records of the leaf
between them, and the hash of the index entry keeps them apart. In either half the last record has room for the name,
if blocks have 2048 bytes or the loop over the sizes has not stopped at the first entry of the map. -/
theorem full_leaf_splits {name : Name} (version : ℕ) (hsb : Usual sb) (hb : IsLeaf sb b) (hname : name.length ≤ 255)
    (hfull : ext4FindDestDe sb.toSb name 0 b = .error ENOSPC) :
    ∃ map h, dxMakeMap sb version 0 0 b = .ok map ∧ splitRecords sb (dxSortMap map) b = some h ∧
      IsLeaf sb h.fst ∧ IsLeaf sb h.snd ∧ (liveRecs h.fst ++ liveRecs h.snd).Perm (liveRecs b) ∧
      (∀ x ∈ liveRecs h.fst, sb.dirhash version x.name < h.hash2 + h.continued.toNat) ∧
      (∀ x ∈ liveRecs h.snd, h.hash2 ≤ sb.dirhash version x.name) ∧
      (2048 ≤ sb.blocksize ∨ moveCount sb 0 (dxSortMap map).reverse + 1 ≠ map.length →
        ∀ half ∈ [h.fst, h.snd], ∃ x, half[half.length - 1]? = some x ∧
          ext4DirRecLen name.length + taken x ≤ x.recLen) := by
  have hroomless : ∀ de ∈ b, de.recLen < ext4DirRecLen name.length + taken de := by
    rcases findDest_spec hsb hb.sound (by rw [Nat.zero_add]; exact hb.tiles) hfull with ⟨h0, -⟩ | ⟨-, hno⟩
    · exact absurd h0 (by decide)
    · exact fun de hde => (hno de hde).1
  obtain ⟨map, h, hmap, hsplit, hok, hroom⟩ := splitLeaf_spec version hsb hb (hb.two_live hsb hname hroomless)
  refine ⟨map, h, hmap, hsplit, hok.fst, hok.snd, hok.perm, hok.below, hok.above, fun hcond => ?_⟩
  have hneed := ext4DirRecLen_le hname
  obtain ⟨⟨x, hx, hxroom⟩, y, hy, hyroom⟩ := hroom hcond
  rw [List.forall_mem_cons, List.forall_mem_singleton]
  exact ⟨⟨x, hx, by omega⟩, y, hy, by omega⟩

/-- A file system with blocks of 2048 bytes and a hash by the length of the name. -/
def smallSb : DxSb where
  blocksize := 2048
  metadataCsum := false
  filetype := true
  dirIndex := true
  inodesCount := 32
  inodesPerGroup := 32
  legal := fun i => decide (0 < i ∧ i ≤ 32)
  checkDirEntry := fun _ _ _ => false
  hash := fun _ => 0
  leaves := fun _ _ => none
  count_lt := by decide
  group_ge := by decide
  legal_le := fun _ h => of_decide_eq_true h
  defHashVersion := DX_HASH_HALF_MD4
  hashUnsigned := 0
  largedir := false
  dirhash := fun _ name => 2 * (name.length % 2 ^ 8)
  dirhash_even := fun _ _ => Nat.mul_mod_right 2 _
  dirhash_lt := fun _ name => by
    have := Nat.mod_lt name.length (show 0 < 2 ^ 8 by decide)
    omega

theorem smallSb_usual : Usual smallSb := ⟨by decide, by decide, fun _ _ _ _ _ => rfl⟩

/-- A record of 512 bytes with a name of 250. -/
def longRecord (c : UInt8) : DirEntry := ⟨12, 512, List.replicate 250 c, .regFile⟩

theorem longRecord_sound (c : UInt8) : Sound smallSb (longRecord c) := by
  have hlen : (longRecord c).name.length = 250 := List.length_replicate
  refine ⟨⟨128, rfl⟩, Nat.le_of_ble_eq_true rfl, ?_, fun _ => ?_, Nat.le_of_ble_eq_true rfl⟩
  · rw [hlen]
    exact Nat.le_of_ble_eq_true rfl
  · rw [hlen]
    decide

set_option maxRecDepth 4000 in
theorem full_leaf_splits_long : ∃ map h,
    dxMakeMap smallSb 1 0 0 [longRecord 97, longRecord 98, longRecord 99, longRecord 100] = .ok map ∧
      splitRecords smallSb (dxSortMap map) [longRecord 97, longRecord 98, longRecord 99, longRecord 100] = some h ∧
      IsLeaf smallSb h.fst := by
  have hleaf : IsLeaf smallSb [longRecord 97, longRecord 98, longRecord 99, longRecord 100] := by
    refine ⟨?_, rfl, ?_⟩
    · simp only [List.forall_mem_cons]
      exact ⟨longRecord_sound _, longRecord_sound _, longRecord_sound _, longRecord_sound _, by simp⟩
    · intro de hde
      simp only [List.tail_cons, List.mem_cons, List.not_mem_nil, or_false] at hde
      rcases hde with rfl | rfl | rfl <;> decide
  have hname : (List.replicate 255 (101 : UInt8)).length ≤ 255 := List.length_replicate.le
  obtain ⟨map, h, hmap, hsplit, hfst, -⟩ := full_leaf_splits 1 smallSb_usual hleaf hname (by decide)
  exact ⟨map, h, hmap, hsplit, hfst⟩

end LinuxEvfs.Htree.Split
