import Mathlib.Data.List.Perm.Basic
import Mathlib.Data.List.Sort
import Mathlib.Tactic.Ring

/-! # Sorting the map of a leaf

`do_split` sorts the map of the records of a leaf by hash: passes that compare entries a gap apart, with gaps that
shrink, and then passes that compare neighbours until one of them changes nothing.

* `dxSortMap_perm`, `dxSortMap_sorted`: the map comes out in order, with the entries it had.
* `combLoop_of_le`, `bubbleLoop_of_le`: the bounds on the number of passes are never reached. A pass over neighbours
  that changes something leaves fewer pairs in the wrong order (`bubblePass_inversions`). -/

namespace LinuxEvfs.Htree.SortMap

/-- `struct dx_map_entry`: the hash of a record, its place in the block and its length. -/
structure DxMapEntry where
  hash : ℕ
  offs : ℕ
  size : ℕ
deriving DecidableEq

variable {map : List DxMapEntry}

/-- The next gap: `count*10/13`, and 11 where that is 9 or 10, the unsigned numbers with `count - 9 < 2`. -/
def combGap (count : ℕ) : ℕ :=
  let c := count * 10 / 13
  if (c + (2 ^ 32 - 9)) % 2 ^ 32 < 2 then 11 else c

/-- `if (p->hash < q->hash) swap(*p, *q)`, with `q` the gap before `p`. -/
def combStep (gap : ℕ) (map : List DxMapEntry) (p : ℕ) : List DxMapEntry :=
  match map[p]?, map[p - gap]? with
  | some x, some y => if x.hash < y.hash then (map.set p y).set (p - gap) x else map
  | _, _ => map

/-- The pass from the top down, as long as `q` is in the map. -/
def combPass (gap : ℕ) (map : List DxMapEntry) : List DxMapEntry :=
  ((List.range (map.length - gap)).map (· + gap)).reverse.foldl (combStep gap) map

/-- `while (count > 2)`. -/
def combLoop : ℕ → ℕ → List DxMapEntry → List DxMapEntry
  | 0, _, map => map
  | fuel + 1, count, map =>
    if 2 < count then combLoop fuel (combGap count) (combPass (combGap count) map) else map

/-- The pass of the bubble sort, from the top down: each entry is compared with the one that the pass has left behind
it. The flag is `more`. -/
def bubblePass : List DxMapEntry → List DxMapEntry × Bool
  | [] => ([], false)
  | x :: rest =>
    let r := bubblePass rest
    match r.1 with
    | [] => ([x], r.2)
    | y :: tail => if x.hash ≤ y.hash then (x :: y :: tail, r.2) else (y :: x :: tail, true)

/-- `do { ... } while (more)`. -/
def bubbleLoop : ℕ → List DxMapEntry → List DxMapEntry
  | 0, map => map
  | fuel + 1, map => if (bubblePass map).2 then bubbleLoop fuel (bubblePass map).1 else (bubblePass map).1

/-- `dx_sort_map`. -/
def dxSortMap (map : List DxMapEntry) : List DxMapEntry :=
  bubbleLoop (map.length * map.length + 1) (combLoop map.length map.length map)

/-! ### The passes with a gap -/

theorem combStep_perm (gap : ℕ) (map : List DxMapEntry) (p : ℕ) : (combStep gap map p).Perm map := by
  unfold combStep
  split
  next x y hx hy =>
    split_ifs
    · obtain ⟨hp, rfl⟩ := List.getElem?_eq_some_iff.mp hx
      obtain ⟨hq, rfl⟩ := List.getElem?_eq_some_iff.mp hy
      exact List.set_set_perm hp hq
    · exact List.Perm.refl _
  · exact List.Perm.refl _

theorem combPass_perm (gap : ℕ) (map : List DxMapEntry) : (combPass gap map).Perm map := by
  unfold combPass
  generalize ((List.range (map.length - gap)).map (· + gap)).reverse = ps
  induction ps generalizing map with
  | nil => exact List.Perm.refl _
  | cons p ps ih => exact (ih _).trans (combStep_perm gap map p)

theorem combLoop_perm : ∀ (fuel count : ℕ) (map : List DxMapEntry), (combLoop fuel count map).Perm map
  | 0, _, _ => List.Perm.refl _
  | fuel + 1, count, map => by
    unfold combLoop
    split_ifs
    · exact (combLoop_perm fuel _ _).trans (combPass_perm _ map)
    · exact List.Perm.refl _

/-- The gap shrinks: 9 and 10 come from 12 on. -/
theorem combGap_lt {count : ℕ} (h : 2 < count) : combGap count < count := by
  unfold combGap
  dsimp only
  split_ifs with h9
  · by_contra hle
    rw [Nat.mod_eq_of_lt (by omega)] at h9
    omega
  · omega

theorem combLoop_of_le {fuel count : ℕ} (map : List DxMapEntry) (h : count ≤ fuel) :
    combLoop fuel count map = combLoop count count map := by
  induction fuel using Nat.strong_induction_on generalizing count map with
  | _ fuel ih =>
    cases count with
    | zero => cases fuel <;> rfl
    | succ c =>
      obtain ⟨f, rfl⟩ := Nat.exists_eq_add_of_le' (Nat.one_le_of_lt h)
      rw [combLoop, combLoop]
      split_ifs with h2
      · have hgap := combGap_lt h2
        rw [ih f (by omega) _ (by omega)]
        rcases Nat.lt_or_ge c (f + 1) with hc | hc
        · rw [ih c hc _ (by omega)]
        · omega
      · rfl

/-! ### The passes over neighbours -/

theorem bubblePass_perm : ∀ map : List DxMapEntry, (bubblePass map).1.Perm map
  | [] => List.Perm.refl _
  | x :: rest => by
    have ih := bubblePass_perm rest
    unfold bubblePass
    dsimp only
    split
    next h =>
      rw [h] at ih
      rw [List.nil_perm.mp ih]
    next y tail h =>
      rw [h] at ih
      split_ifs
      · exact ih.cons x
      · exact (List.Perm.swap x y tail).trans (ih.cons x)

/-- The pairs in the wrong order. -/
def inversions : List DxMapEntry → ℕ
  | [] => 0
  | x :: rest => rest.countP (fun y => y.hash < x.hash) + inversions rest

theorem inversions_le : ∀ map : List DxMapEntry, inversions map ≤ map.length * map.length
  | [] => Nat.le_refl 0
  | x :: rest => by
    have h1 := inversions_le rest
    have h2 : rest.countP (fun y => y.hash < x.hash) ≤ rest.length := List.countP_le_length
    have h3 : (rest.length + 1) * (rest.length + 1) = rest.length * rest.length + 2 * rest.length + 1 := by ring
    rw [inversions, List.length_cons, h3]
    omega

theorem inversions_cons (x : DxMapEntry) (rest : List DxMapEntry) :
    inversions (x :: rest) = rest.countP (fun y => y.hash < x.hash) + inversions rest := rfl

/-- **One pass** over neighbours leaves fewer pairs in the wrong order where it swaps any. -/
theorem bubblePass_inversions : ∀ map : List DxMapEntry,
    inversions (bubblePass map).1 ≤ inversions map ∧
      ((bubblePass map).2 = true → inversions (bubblePass map).1 < inversions map)
  | [] => ⟨Nat.le_refl 0, by simp [bubblePass]⟩
  | x :: rest => by
    obtain ⟨ih1, ih2⟩ := bubblePass_inversions rest
    have hcount := (bubblePass_perm rest).countP_eq fun y => decide (y.hash < x.hash)
    rw [bubblePass, inversions_cons]
    rcases hr : bubblePass rest with ⟨l, more⟩
    rw [hr] at ih1 ih2 hcount
    cases l with
    | nil =>
      refine ⟨Nat.zero_le _, fun hmore => ?_⟩
      have := ih2 hmore
      exact Nat.lt_of_lt_of_le this (Nat.le_add_left _ _)
    | cons y tail =>
      dsimp only at ih1 ih2 hcount ⊢
      split_ifs with hle
      · rw [inversions_cons x, hcount]
        exact ⟨by omega, fun hmore => by have := ih2 hmore; omega⟩
      · -- the swap of `x` and `y` mends one pair
        have hyx : y.hash < x.hash := not_le.mp hle
        have hxy : ¬ x.hash < y.hash := by omega
        rw [List.countP_cons, if_pos (by simpa using hyx)] at hcount
        rw [inversions_cons] at ih1
        rw [inversions_cons, inversions_cons, List.countP_cons, if_neg (by simpa using hxy)]
        exact ⟨by omega, fun _ => by omega⟩

/-- A pass that swaps nothing has found the map in order. -/
theorem bubblePass_sorted : ∀ map : List DxMapEntry, (bubblePass map).2 = false →
    (bubblePass map).1 = map ∧ map.Pairwise fun a b => a.hash ≤ b.hash
  | [], _ => ⟨rfl, List.Pairwise.nil⟩
  | x :: rest, hmore => by
    have ih := bubblePass_sorted rest
    rw [bubblePass] at hmore ⊢
    rcases hr : bubblePass rest with ⟨l, more⟩
    rw [hr] at ih hmore
    cases l with
    | nil =>
      obtain ⟨h1, -⟩ := ih hmore
      obtain rfl : [] = rest := h1
      exact ⟨rfl, List.pairwise_singleton _ _⟩
    | cons y tail =>
      dsimp only at ih hmore ⊢
      split_ifs at hmore ⊢ with hle
      obtain ⟨rfl, h2⟩ := ih hmore
      refine ⟨rfl, List.pairwise_cons.mpr ⟨fun z hz => ?_, h2⟩⟩
      rcases List.mem_cons.mp hz with rfl | hz
      · exact hle
      · exact hle.trans ((List.pairwise_cons.mp h2).1 z hz)

theorem bubbleLoop_perm : ∀ (fuel : ℕ) (map : List DxMapEntry), (bubbleLoop fuel map).Perm map
  | 0, _ => List.Perm.refl _
  | fuel + 1, map => by
    unfold bubbleLoop
    split_ifs
    · exact (bubbleLoop_perm fuel _).trans (bubblePass_perm map)
    · exact bubblePass_perm map

theorem bubbleLoop_sorted : ∀ {fuel : ℕ} {map : List DxMapEntry}, inversions map < fuel →
    (bubbleLoop fuel map).Pairwise fun a b => a.hash ≤ b.hash
  | fuel + 1, map, h => by
    unfold bubbleLoop
    split_ifs with hmore
    · have := (bubblePass_inversions map).2 hmore
      exact bubbleLoop_sorted (by omega)
    · obtain ⟨h1, h2⟩ := bubblePass_sorted map (by simpa using hmore)
      rwa [h1]

theorem bubbleLoop_of_le : ∀ {fuel fuel' : ℕ} {map : List DxMapEntry}, inversions map < fuel → inversions map < fuel' →
    bubbleLoop fuel map = bubbleLoop fuel' map
  | fuel + 1, fuel' + 1, map, h, h' => by
    unfold bubbleLoop
    split_ifs with hmore
    · have := (bubblePass_inversions map).2 hmore
      exact bubbleLoop_of_le (by omega) (by omega)
    · rfl

/-! ### The sort -/

theorem inversions_comb (map : List DxMapEntry) :
    inversions (combLoop map.length map.length map) < map.length * map.length + 1 := by
  have h := inversions_le (combLoop map.length map.length map)
  rw [(combLoop_perm _ _ map).length_eq] at h
  omega

theorem dxSortMap_perm (map : List DxMapEntry) : (dxSortMap map).Perm map :=
  (bubbleLoop_perm _ _).trans (combLoop_perm _ _ map)

theorem dxSortMap_sorted (map : List DxMapEntry) : (dxSortMap map).Pairwise fun a b => a.hash ≤ b.hash :=
  bubbleLoop_sorted (inversions_comb map)

/-- **The sort**: the entries of the map in order of their hashes; both loops end by themselves, however many passes
they are given beyond the number counted here. -/
theorem dxSortMap_sorts (map : List DxMapEntry) :
    (dxSortMap map).Perm map ∧ ((dxSortMap map).Pairwise fun a b => a.hash ≤ b.hash) ∧
      ∀ passes passes', map.length ≤ passes → map.length * map.length < passes' →
        bubbleLoop passes' (combLoop passes map.length map) = dxSortMap map := by
  refine ⟨dxSortMap_perm map, dxSortMap_sorted map, fun passes passes' h h' => ?_⟩
  rw [combLoop_of_le map h]
  exact bubbleLoop_of_le ((inversions_comb map).trans_le h') (inversions_comb map)

end LinuxEvfs.Htree.SortMap
