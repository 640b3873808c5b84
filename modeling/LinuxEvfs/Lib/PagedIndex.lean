import LinuxEvfs.Lib.BinSearch
import Mathlib.Data.List.Nodup
import Mathlib.Data.List.Perm.Basic

/-! # An index over numbered blocks

An index block holds entries, each a key and the number of a block one level below. The key of the first
entry is not used: what stands behind it begins at the bound the block itself has. Behind `n` levels of
index blocks stand the leaves.

* `flat`: the leaves in order, each with its bound; `nodes`: the index blocks.
* `At`: a path from the deepest index block up, the leaf it ends at, and the leaves before and behind that.
* `probe_at`: the search for a key ends at the last leaf whose bound is not above it.
* `At.climb`: going up to the next entry and down again along first entries ends at the next leaf.
* `At.insert`, `At.split`, `At.grow`: a leaf put in behind the one of a path, an index block cut in two, and
  a level put in below the first block; the last two leave the leaves as they are. -/

namespace LinuxEvfs.Lib.PagedIndex

open LinuxEvfs.Lib.BinSearch

variable {B : Type}

/-- The entries of every index block. -/
abbrev Index (B : Type) := B → List (ℕ × B)

/-- The entries of a block with the bound `lo`: the first one begins there. -/
def bounds (lo : ℕ) : List (ℕ × B) → List (ℕ × B)
  | [] => []
  | e :: rest => (lo, e.2) :: rest

/-- The leaves behind `n` levels, with their bounds. -/
def flat (ix : Index B) : ℕ → ℕ → B → List (ℕ × B)
  | 0, lo, b => [(lo, b)]
  | n + 1, lo, b => (bounds lo (ix b)).flatMap fun e => flat ix n e.1 e.2

/-- The index blocks. -/
def nodes (ix : Index B) : ℕ → B → List B
  | 0, _ => []
  | n + 1, b => b :: (ix b).flatMap fun e => nodes ix n e.2

/-- The leaves behind some entries. -/
def flatAll (ix : Index B) (n : ℕ) (l : List (ℕ × B)) : List (ℕ × B) := l.flatMap fun e => flat ix n e.1 e.2

/-- The index blocks behind some entries. -/
def nodesAll (ix : Index B) (n : ℕ) (l : List (ℕ × B)) : List B := l.flatMap fun e => nodes ix n e.2

/-- Every index block has an entry. -/
def Filled (ix : Index B) (n : ℕ) (b : B) : Prop := ∀ q ∈ nodes ix n b, ix q ≠ []

variable {ix ix' : Index B} {n lo i j : ℕ} {b p q nb : B} {e x : ℕ × B} {l r : List (ℕ × B)}

/-! ### Entries and bounds -/

@[simp] theorem flat_zero : flat ix 0 lo b = [(lo, b)] := rfl

theorem flat_succ : flat ix (n + 1) lo b = flatAll ix n (bounds lo (ix b)) := rfl

theorem nodes_succ : nodes ix (n + 1) b = b :: nodesAll ix n (ix b) := rfl

@[simp] theorem flatAll_nil : flatAll ix n [] = [] := rfl

@[simp] theorem flatAll_cons : flatAll ix n (e :: l) = flat ix n e.1 e.2 ++ flatAll ix n l := rfl

@[simp] theorem flatAll_append : flatAll ix n (l ++ r) = flatAll ix n l ++ flatAll ix n r := List.flatMap_append

@[simp] theorem nodesAll_nil : nodesAll ix n [] = [] := rfl

@[simp] theorem nodesAll_cons : nodesAll ix n (e :: l) = nodes ix n e.2 ++ nodesAll ix n l := rfl

@[simp] theorem nodesAll_append : nodesAll ix n (l ++ r) = nodesAll ix n l ++ nodesAll ix n r :=
  List.flatMap_append

@[simp] theorem nodesAll_zero : nodesAll ix 0 l = [] := List.flatMap_eq_nil_iff.mpr fun _ _ => rfl

@[simp] theorem nodesAll_bounds (ix : Index B) (n lo : ℕ) (l : List (ℕ × B)) :
    nodesAll ix n (bounds lo l) = nodesAll ix n l := by
  cases l <;> rfl

@[simp] theorem length_bounds (lo : ℕ) (l : List (ℕ × B)) : (bounds lo l).length = l.length := by
  cases l <;> rfl

theorem bounds_eq_nil : bounds lo l = [] ↔ l = [] := by
  cases l <;> simp [bounds]

theorem bounds_append (h : l ≠ []) : bounds lo (l ++ r) = bounds lo l ++ r := by
  cases l with
  | nil => exact absurd rfl h
  | cons e l => rfl

/-- What stands behind the first entry is not changed. -/
theorem bounds_cut {l₀ r₀ : List (ℕ × B)} {e₀ : ℕ × B} (h : bounds lo (l₀ ++ e₀ :: r₀) = l ++ e :: r)
    (hlen : l₀.length = l.length) : r₀ = r ∧ ∀ r', bounds lo (l₀ ++ e₀ :: r') = l ++ e :: r' := by
  have hcut : ∀ r' : List (ℕ × B), bounds lo (l₀ ++ e₀ :: r') = bounds lo (l₀ ++ [e₀]) ++ r' := fun r' => by
    rw [← bounds_append (by simp), List.append_assoc, List.singleton_append]
  have hcut' : ∀ r' : List (ℕ × B), l ++ e :: r' = (l ++ [e]) ++ r' := by simp
  rw [hcut, hcut'] at h
  obtain ⟨h1, h2⟩ := List.append_inj h (by simp [hlen])
  exact ⟨h2, fun r' => by rw [hcut, h1]; simp⟩

theorem lastLe_bounds (h : ℕ) (l : List (ℕ × B)) : lastLe Prod.fst h (bounds lo l) = lastLe Prod.fst h l := by
  unfold lastLe
  rw [length_bounds]
  refine bsearch_congr (fun j hj => ?_) _ _ _ le_rfl
  obtain ⟨k, rfl⟩ := Nat.exists_eq_add_of_le' hj
  cases l <;> rfl

/-! ### Blocks that are not touched -/

theorem flat_congr : ∀ {n lo : ℕ} {b : B}, (∀ q ∈ nodes ix n b, ix' q = ix q) → flat ix' n lo b = flat ix n lo b
  | 0, _, _, _ => rfl
  | n + 1, lo, b, h => by
    rw [flat_succ, flat_succ, h b List.mem_cons_self]
    refine List.flatMap_congr fun e he => flat_congr fun q hq => h q ?_
    have hmem : q ∈ nodesAll ix n (bounds lo (ix b)) := List.mem_flatMap.mpr ⟨e, he, hq⟩
    rw [nodesAll_bounds] at hmem
    exact List.mem_cons_of_mem _ hmem

theorem nodes_congr : ∀ {n : ℕ} {b : B}, (∀ q ∈ nodes ix n b, ix' q = ix q) → nodes ix' n b = nodes ix n b
  | 0, _, _ => rfl
  | n + 1, b, h => by
    rw [nodes_succ, nodes_succ, h b List.mem_cons_self]
    refine congrArg _ (List.flatMap_congr fun e he => nodes_congr fun q hq => h q ?_)
    exact List.mem_cons_of_mem _ (List.mem_flatMap.mpr ⟨e, he, hq⟩)

theorem flatAll_congr (h : ∀ q ∈ nodesAll ix n l, ix' q = ix q) : flatAll ix' n l = flatAll ix n l :=
  List.flatMap_congr fun e he => flat_congr fun q hq => h q (List.mem_flatMap.mpr ⟨e, he, hq⟩)

theorem nodesAll_congr (h : ∀ q ∈ nodesAll ix n l, ix' q = ix q) : nodesAll ix' n l = nodesAll ix n l :=
  List.flatMap_congr fun e he => nodes_congr fun q hq => h q (List.mem_flatMap.mpr ⟨e, he, hq⟩)

/-! ### The order of the leaves -/

/-- The bounds of the leaves do not decrease. -/
def Ordered (l : List (ℕ × B)) : Prop := l.Pairwise fun a b => a.1 ≤ b.1

theorem Filled.child (h : Filled ix (n + 1) b) (he : e ∈ bounds lo (ix b)) : Filled ix n e.2 := by
  intro q hq
  have hmem : q ∈ nodesAll ix n (bounds lo (ix b)) := List.mem_flatMap.mpr ⟨e, he, hq⟩
  rw [nodesAll_bounds] at hmem
  exact h q (List.mem_cons_of_mem _ hmem)

/-- The first leaf has the bound of the block. -/
theorem flat_eq_cons : ∀ {n : ℕ} (lo : ℕ) {b : B}, Filled ix n b → ∃ x rest, flat ix n lo b = (lo, x) :: rest
  | 0, lo, b, _ => ⟨b, [], rfl⟩
  | n + 1, lo, b, h => by
    have hne : ix b ≠ [] := h b List.mem_cons_self
    obtain ⟨e, rest, hb⟩ := List.exists_cons_of_ne_nil hne
    have hmem : (lo, e.2) ∈ bounds lo (ix b) := by
      rw [hb]
      exact List.mem_cons_self
    obtain ⟨x, rest', hx⟩ := flat_eq_cons lo (h.child hmem)
    refine ⟨x, rest' ++ flatAll ix n rest, ?_⟩
    rw [flat_succ, hb, bounds, flatAll_cons, hx, List.cons_append]

/-- The entries of a block are in order where the leaves behind them are. -/
theorem Ordered.entries : ∀ {l : List (ℕ × B)}, Ordered (flatAll ix n l) → (∀ e ∈ l, Filled ix n e.2) → Ordered l
  | [], _, _ => List.Pairwise.nil
  | e :: l, h, hf => by
    rw [flatAll_cons] at h
    obtain ⟨h1, h2, h3⟩ := List.pairwise_append.mp h
    refine List.pairwise_cons.mpr ⟨fun e' he' => ?_, Ordered.entries h2 fun e' he' => hf e' (by simp [he'])⟩
    obtain ⟨x, rest, hx⟩ := flat_eq_cons e.1 (hf e (by simp))
    obtain ⟨x', rest', hx'⟩ := flat_eq_cons e'.1 (hf e' (by simp [he']))
    have hmem : (e'.1, x') ∈ flatAll ix n l := List.mem_flatMap.mpr ⟨e', he', by simp [hx']⟩
    exact h3 (e.1, x) (by simp [hx]) (e'.1, x') hmem

/-- What is behind an entry is not below it. -/
theorem Ordered.le_of_mem (h : Ordered (flat ix n lo b)) (hf : Filled ix n b) (hx : x ∈ flat ix n lo b) :
    lo ≤ x.1 := by
  obtain ⟨y, rest, hy⟩ := flat_eq_cons lo hf
  rw [hy] at h hx
  rcases List.mem_cons.mp hx with rfl | hx
  · exact le_rfl
  · exact (List.pairwise_cons.mp h).1 x hx

/-- The leaves behind one entry of a block. -/
theorem Ordered.child (h : Ordered (flatAll ix n l)) (he : e ∈ l) : Ordered (flat ix n e.1 e.2) := by
  obtain ⟨l₁, l₂, rfl⟩ := List.append_of_mem he
  rw [flatAll_append, flatAll_cons] at h
  exact (List.pairwise_append.mp (List.pairwise_append.mp h).2.1).1

/-! ### Paths -/

/-- From the deepest index block up, each with the position taken in it. -/
abbrev Path (B : Type) := List (B × ℕ)

/-- The leaf at the end of a path, with the leaves before and behind it. -/
inductive At (ix : Index B) : ℕ → ℕ → B → Path B → List (ℕ × B) → ℕ × B → List (ℕ × B) → Prop
  | leaf (lo : ℕ) (b : B) : At ix 0 lo b [] [] (lo, b) []
  | node {n lo : ℕ} {b : B} {l r : List (ℕ × B)} {e cur : ℕ × B} {path : Path B} {bef aft : List (ℕ × B)}
      (hb : bounds lo (ix b) = l ++ e :: r) (h : At ix n e.1 e.2 path bef cur aft) :
      At ix (n + 1) lo b (path ++ [(b, l.length)]) (flatAll ix n l ++ bef) cur (aft ++ flatAll ix n r)

variable {path up deep : Path B} {bef aft : List (ℕ × B)} {cur : ℕ × B}

theorem At.flat_eq (h : At ix n lo b path bef cur aft) : flat ix n lo b = bef ++ cur :: aft := by
  induction h with
  | leaf lo b => rfl
  | node hb _ ih => simp [flat_succ, hb, ih]

theorem At.length (h : At ix n lo b path bef cur aft) : path.length = n := by
  induction h with
  | leaf lo b => rfl
  | node _ _ ih => simp [ih]

/-- The entry at a position of a block on the path. -/
theorem getElem?_of_bounds (hb : bounds lo (ix b) = l ++ e :: r) : ∃ k, (ix b)[l.length]? = some (k, e.2) := by
  cases hix : ix b with
  | nil => rw [hix] at hb; simp [bounds] at hb
  | cons e₀ rest =>
    rw [hix, bounds] at hb
    cases l with
    | nil =>
      obtain ⟨rfl, -⟩ := List.cons.inj hb
      exact ⟨e₀.1, rfl⟩
    | cons a l =>
      obtain ⟨-, rfl⟩ := List.cons.inj hb
      exact ⟨e.1, by simp⟩

/-- The deepest block of a path has the entry of the leaf. -/
theorem At.head (h : At ix n lo b path bef cur aft) :
    path = [] ∧ cur.2 = b ∨ ∃ p i up k, path = (p, i) :: up ∧ (ix p)[i]? = some (k, cur.2) := by
  induction h with
  | leaf lo b => exact .inl ⟨rfl, rfl⟩
  | @node n lo b l r e cur path bef aft hb h ih =>
    obtain ⟨k, hk⟩ := getElem?_of_bounds hb
    rcases ih with ⟨rfl, hcur⟩ | ⟨p, i, up, k', rfl, hk'⟩
    · exact .inr ⟨b, l.length, [], k, rfl, by rw [hk, hcur]⟩
    · exact .inr ⟨p, i, up ++ [(b, l.length)], k', rfl, hk'⟩

/-! ### The search -/

/-- The search for a key: in each block the last entry that is not above it. -/
def probe (ix : Index B) (h : ℕ) : ℕ → B → Path B
  | 0, _ => []
  | n + 1, b =>
    match (ix b)[lastLe Prod.fst h (ix b)]? with
    | none => []
    | some e => probe ix h n e.2 ++ [(b, lastLe Prod.fst h (ix b))]

/-- **The search** ends at the last leaf whose bound is not above the key. -/
theorem probe_at (h : ℕ) : ∀ {n lo : ℕ} {b : B}, Filled ix n b → Ordered (flat ix n lo b) → lo ≤ h →
    ∃ bef cur aft, At ix n lo b (probe ix h n b) bef cur aft ∧ cur.1 ≤ h ∧ ∀ x ∈ aft, h < x.1
  | 0, lo, b, _, _, hlo => ⟨[], (lo, b), [], .leaf lo b, hlo, by simp⟩
  | n + 1, lo, b, hf, ho, hlo => by
    have hne : bounds lo (ix b) ≠ [] := fun h0 => hf b List.mem_cons_self (bounds_eq_nil.mp h0)
    have hchild : ∀ e ∈ bounds lo (ix b), Filled ix n e.2 := fun e he => hf.child he
    rw [flat_succ] at ho
    obtain ⟨l, e, r, hb, hlast, hr, he⟩ := lastLe_split (x := h) hne (ho.entries hchild)
    rw [lastLe_bounds] at hlast
    obtain ⟨k, hk⟩ := getElem?_of_bounds hb
    have hle : e.1 ≤ h := by
      rcases he with he | rfl
      · exact he
      · cases hix : ix b with
        | nil => rw [hix] at hb; cases hb
        | cons e₀ rest =>
          rw [hix, bounds] at hb
          obtain ⟨rfl, -⟩ := List.cons.inj hb
          exact hlo
    have hmem : ∀ {e'}, e' ∈ e :: r → e' ∈ bounds lo (ix b) := fun he' => by
      rw [hb]
      exact List.mem_append_right _ he'
    obtain ⟨bef, cur, aft, hat, hcur, haft⟩ :=
      probe_at h (hchild e (hmem (by simp))) (ho.child (hmem (by simp))) hle
    refine ⟨flatAll ix n l ++ bef, cur, aft ++ flatAll ix n r, ?_, hcur, ?_⟩
    · rw [probe, hlast, hk]
      exact .node hb hat
    · intro x hx
      rcases List.mem_append.mp hx with hx | hx
      · exact haft x hx
      · -- behind a later entry, which is above the key
        obtain ⟨e', he', hxe⟩ := List.mem_flatMap.mp hx
        have he'' := hmem (List.mem_cons_of_mem _ he')
        exact lt_of_lt_of_le (hr e' he') ((ho.child he'').le_of_mem (hchild e' he'') hxe)

/-- The first block of the search, and the rest of it. -/
theorem At.probe_cases {h : ℕ} (hat : At ix (n + 1) lo b (probe ix h (n + 1) b) bef cur aft) :
    ∃ l e r k bef' aft', bounds lo (ix b) = l ++ e :: r ∧ lastLe Prod.fst h (ix b) = l.length ∧
      (ix b)[l.length]? = some (k, e.2) ∧ probe ix h (n + 1) b = probe ix h n e.2 ++ [(b, l.length)] ∧
      At ix n e.1 e.2 (probe ix h n e.2) bef' cur aft' := by
  generalize hp : probe ix h (n + 1) b = path at hat
  cases hat with
  | @node _ _ _ l r e _ path bef aft hb hat =>
    obtain ⟨k, hk⟩ := getElem?_of_bounds hb
    rw [probe] at hp
    cases hget : (ix b)[lastLe Prod.fst h (ix b)]? with
    | none =>
      rw [hget] at hp
      simp at hp
    | some e' =>
      rw [hget] at hp
      obtain ⟨rfl, hlast⟩ := List.append_inj' hp rfl
      have hlast : lastLe Prod.fst h (ix b) = l.length := (Prod.mk.inj (List.cons.inj hlast).1).2
      rw [hlast, hk] at hget
      obtain rfl := Option.some.inj hget
      exact ⟨l, e, r, k, bef, aft, hb, hlast, hk, rfl, hat⟩

/-! ### The next leaf -/

/-- Up from the end of a path to a block with an entry behind the one taken: how many blocks were left, and
the path from there. -/
def climb (ix : Index B) : Path B → Option (ℕ × Path B)
  | [] => none
  | (b, i) :: up =>
    if i + 1 < (ix b).length then some (0, (b, i + 1) :: up)
    else (climb ix up).map fun r => (r.1 + 1, r.2)

/-- Down again along the first entries. -/
def descend (ix : Index B) : ℕ → Path B → Path B
  | n + 1, (b, i) :: up =>
    match (ix b)[i]? with
    | none => (b, i) :: up
    | some e => descend ix n ((e.2, 0) :: (b, i) :: up)
  | _, path => path

/-- The path along the first entries. -/
def firstPath (ix : Index B) : ℕ → B → Path B
  | 0, _ => []
  | n + 1, b =>
    match (ix b)[0]? with
    | none => []
    | some e => firstPath ix n e.2 ++ [(b, 0)]

theorem climb_concat (b : B) (i : ℕ) : ∀ path : Path B, climb ix (path ++ [(b, i)]) =
    match climb ix path with
    | some r => some (r.1, r.2 ++ [(b, i)])
    | none => if i + 1 < (ix b).length then some (path.length, [(b, i + 1)]) else none
  | [] => rfl
  | (b', i') :: up => by
    rw [List.cons_append, climb, climb, climb_concat b i up]
    by_cases h : i' + 1 < (ix b').length
    · simp [h]
    · rw [if_neg h, if_neg h]
      cases climb ix up with
      | some r => rfl
      | none =>
        by_cases hb : i + 1 < (ix b).length <;> simp [hb]

theorem descend_append : ∀ (n : ℕ) {path : Path B}, path ≠ [] →
    descend ix n (path ++ up) = descend ix n path ++ up
  | 0, _ :: _, _ => rfl
  | n + 1, (b, i) :: path, _ => by
    rw [List.cons_append, descend, descend]
    cases (ix b)[i]? with
    | none => rfl
    | some e => exact descend_append n (List.cons_ne_nil (e.2, 0) ((b, i) :: path))

/-- The way down goes on from where it starts. -/
theorem mem_descend {f : B × ℕ} : ∀ {n : ℕ} {path : Path B}, f ∈ path → f ∈ descend ix n path
  | 0, path, hf => by cases path <;> exact hf
  | n + 1, [], hf => hf
  | n + 1, (b, i) :: up, hf => by
    rw [descend]
    cases hget : (ix b)[i]? with
    | none => exact hf
    | some e => exact mem_descend (List.mem_cons_of_mem _ hf)

theorem firstPath_at : ∀ {n : ℕ} (lo : ℕ) {b : B}, Filled ix n b →
    ∃ x rest, At ix n lo b (firstPath ix n b) [] (lo, x) rest
  | 0, lo, b, _ => ⟨b, [], .leaf lo b⟩
  | n + 1, lo, b, h => by
    obtain ⟨e, rest, hb⟩ := List.exists_cons_of_ne_nil (h b List.mem_cons_self)
    have hbounds : bounds lo (ix b) = [] ++ (lo, e.2) :: rest := by rw [hb]; rfl
    have hf : Filled ix n e.2 := h.child (e := (lo, e.2)) (by rw [hbounds]; simp)
    obtain ⟨x, rest', hx⟩ := firstPath_at lo hf
    refine ⟨x, rest' ++ flatAll ix n rest, ?_⟩
    rw [firstPath, hb]
    exact .node hbounds hx

theorem descend_eq : ∀ {n i : ℕ} {b : B} {e : ℕ × B}, (ix b)[i]? = some e → Filled ix n e.2 →
    descend ix n [(b, i)] = firstPath ix n e.2 ++ [(b, i)]
  | 0, _, _, _, _, _ => rfl
  | n + 1, i, b, e, he, hf => by
    obtain ⟨e', rest, hb⟩ := List.exists_cons_of_ne_nil (hf e.2 List.mem_cons_self)
    have h0 : (ix e.2)[0]? = some e' := by rw [hb]; rfl
    have hmem : (0, e'.2) ∈ bounds 0 (ix e.2) := by
      rw [hb]
      exact List.mem_cons_self
    have hf' := hf.child hmem
    have hstep : descend ix (n + 1) [(b, i)] = descend ix n ([(e.2, 0)] ++ [(b, i)]) := by
      rw [descend, he]
      rfl
    rw [hstep, descend_append n (List.cons_ne_nil _ _), descend_eq h0 hf', firstPath, h0]

/-- **The next leaf**: behind the last one there is none; otherwise the entry climbed to has the bound of the
next leaf, and the way down along the first entries ends there. -/
theorem At.climb (h : At ix n lo b path bef cur aft) (hf : Filled ix n b) :
    (aft = [] → PagedIndex.climb ix path = none) ∧
    ∀ x rest, aft = x :: rest → ∃ k b' i up y, PagedIndex.climb ix path = some (k, (b', i) :: up) ∧
      (ix b')[i]? = some (x.1, y) ∧
      At ix n lo b (descend ix k ((b', i) :: up)) (bef ++ [cur]) x rest := by
  induction h with
  | leaf lo b => exact ⟨fun _ => rfl, fun x rest h => by cases h⟩
  | @node n lo b l r e cur path bef aft hb h ih =>
    have hmem : ∀ {e'}, e' ∈ e :: r → e' ∈ bounds lo (ix b) := fun he' => by
      rw [hb]
      exact List.mem_append_right _ he'
    obtain ⟨ihnil, ihcons⟩ := ih (hf.child (hmem (by simp)))
    have hlen : (ix b).length = l.length + 1 + r.length := by
      rw [← length_bounds lo, hb]
      simp
      omega
    cases aft with
    | cons x' aft' =>
      refine ⟨fun h0 => by simp at h0, fun x rest hx => ?_⟩
      obtain ⟨rfl, rfl⟩ := List.cons.inj hx
      obtain ⟨k, b', i, up, y, hc, hy, hat⟩ := ihcons x' aft' rfl
      refine ⟨k, b', i, up ++ [(b, l.length)], y, by rw [climb_concat, hc]; rfl, hy, ?_⟩
      rw [← List.cons_append, descend_append k (List.cons_ne_nil _ _), List.append_assoc]
      exact .node hb hat
    | nil =>
      have hnone := ihnil rfl
      cases r with
      | nil =>
        refine ⟨fun _ => ?_, fun x rest hx => by simp at hx⟩
        rw [climb_concat, hnone]
        simp [hlen]
      | cons e' r' =>
        have hfe : Filled ix n e'.2 := hf.child (hmem (by simp))
        obtain ⟨y, rest', hy⟩ := firstPath_at e'.1 hfe
        have hcons := hy.flat_eq
        have haft : flatAll ix n (e' :: r') = (e'.1, y) :: (rest' ++ flatAll ix n r') := by
          rw [flatAll_cons, hcons]
          rfl
        refine ⟨fun h0 => by rw [List.nil_append, haft] at h0; simp at h0, fun x rest hx => ?_⟩
        rw [List.nil_append, haft] at hx
        obtain ⟨rfl, rfl⟩ := List.cons.inj hx
        -- the entry climbed to is not the first of its block, so its key is its bound
        have hget : (ix b)[l.length + 1]? = some e' := by
          have h1 : (bounds lo (ix b))[l.length + 1]? = some e' := by rw [hb]; simp
          cases hix : ix b with
          | nil => rw [hix] at h1; simp [bounds] at h1
          | cons a rest => rw [hix] at h1; exact h1
        have hlen' : path.length = n := h.length
        refine ⟨n, b, l.length + 1, [], e'.2, ?_, hget, ?_⟩
        · rw [climb_concat, hnone, hlen']
          simp [hlen]
        · rw [descend_eq hget hfe]
          have hb' : bounds lo (ix b) = (l ++ [e]) ++ e' :: r' := by rw [hb]; simp
          have hat := At.node hb' hy
          rw [List.length_append, flatAll_append, flatAll_cons, flatAll_nil, h.flat_eq] at hat
          simpa using hat

/-! ### Changes of the index -/

@[simp] theorem flatAll_zero : flatAll ix 0 l = l := by
  simp [flatAll]

theorem nodes_cut (hb : bounds lo (ix b) = l ++ e :: r) :
    nodes ix (n + 1) b = b :: (nodesAll ix n l ++ (nodes ix n e.2 ++ nodesAll ix n r)) := by
  rw [nodes_succ, ← nodesAll_bounds ix n lo, hb, nodesAll_append, nodesAll_cons]

/-- The index blocks behind an entry are not behind another one. -/
theorem apart (hnd : (nodes ix (n + 1) b).Nodup) (hb : bounds lo (ix b) = l ++ e :: r) :
    (nodes ix n e.2).Nodup ∧ b ∉ nodesAll ix n l ∧ b ∉ nodesAll ix n r ∧
      ∀ q ∈ nodes ix n e.2, q ≠ b ∧ q ∉ nodesAll ix n l ∧ q ∉ nodesAll ix n r := by
  rw [nodes_cut hb, List.nodup_cons, List.nodup_append, List.nodup_append] at hnd
  obtain ⟨hbn, -, ⟨hne, -, her⟩, hl⟩ := hnd
  simp only [List.mem_append, not_or] at hbn
  refine ⟨hne, hbn.1, hbn.2.2, fun q hq => ⟨?_, fun h => ?_, fun h => her q hq q h rfl⟩⟩
  · rintro rfl
    exact hbn.2.1 hq
  · exact hl q h q (List.mem_append_left _ hq) rfl

theorem At.congr (h : At ix n lo b path bef cur aft) (hsame : ∀ q ∈ nodes ix n b, ix' q = ix q) :
    At ix' n lo b path bef cur aft := by
  induction h with
  | leaf lo b => exact .leaf lo b
  | @node n lo b l r e cur path bef aft hb h ih =>
    rw [nodes_cut hb] at hsame
    have hb' : bounds lo (ix' b) = l ++ e :: r := by rw [hsame b (by simp), hb]
    have hat := At.node hb' (ih fun q hq => hsame q (by simp [hq]))
    rwa [flatAll_congr fun q hq => hsame q (by simp [hq]),
      flatAll_congr fun q hq => hsame q (by simp [hq])] at hat

/-- The blocks of a path are index blocks. -/
theorem At.mem_nodes (h : At ix n lo b path bef cur aft) : ∀ f ∈ path, f.1 ∈ nodes ix n b := by
  induction h with
  | leaf lo b => simp
  | @node n lo b l r e cur path bef aft hb h ih =>
    intro f hf
    rw [nodes_cut hb]
    rcases List.mem_append.mp hf with hf | hf
    · simp [ih f hf]
    · simp [List.mem_singleton.mp hf]

/-- The positions of a path are those of entries. -/
theorem At.getElem? (h : At ix n lo b path bef cur aft) : ∀ f ∈ path, ∃ e, (ix f.1)[f.2]? = some e := by
  induction h with
  | leaf => exact fun f hf => absurd hf List.not_mem_nil
  | @node n lo b l r e cur path bef aft hb h ih =>
    intro f hf
    rcases List.mem_append.mp hf with hf | hf
    · exact ih f hf
    · obtain ⟨k, hk⟩ := getElem?_of_bounds hb
      rw [List.mem_singleton.mp hf]
      exact ⟨_, hk⟩

/-- A path takes no block twice. -/
theorem At.nodup (h : At ix n lo b path bef cur aft) (hnd : (nodes ix n b).Nodup) : (path.map Prod.fst).Nodup := by
  induction h with
  | leaf => exact List.nodup_nil
  | @node n lo b l r e cur path bef aft hb h ih =>
    obtain ⟨hnd', -, -, hne⟩ := apart hnd hb
    rw [List.map_append, List.map_cons, List.map_nil, List.nodup_append]
    refine ⟨ih hnd', List.nodup_singleton b, fun p hp q hq => ?_⟩
    obtain ⟨f, hf, rfl⟩ := List.mem_map.mp hp
    rw [List.mem_singleton.mp hq]
    exact (hne _ (h.mem_nodes f hf)).1

/-- A path ends with the first block. -/
theorem At.getLast (h : At ix (n + 1) lo b path bef cur aft) : ∃ deep i, path = deep ++ [(b, i)] := by
  cases h with
  | node hb h => exact ⟨_, _, rfl⟩

/-- **A leaf put in** behind the one of the path. -/
theorem At.insert (h : At ix n lo b ((p, i) :: up) bef cur aft) (hnd : (nodes ix n b).Nodup)
    (hsame : ∀ q ∈ nodes ix n b, q ≠ p → ix' q = ix q) (hp : ix p = l ++ e :: r) (hi : l.length = i)
    (hp' : ix' p = l ++ e :: x :: r) :
    At ix' n lo b ((p, i) :: up) bef cur (x :: aft) ∧ nodes ix' n b = nodes ix n b := by
  generalize hpath : (p, i) :: up = path at h
  induction h generalizing up with
  | leaf lo b => cases hpath
  | @node n lo b l₁ r₁ e₁ cur path bef aft hb h ih =>
    cases path with
    | nil =>
      -- the deepest block: the leaves are its entries
      obtain ⟨hf, rfl⟩ := List.cons.inj hpath
      obtain ⟨rfl, rfl⟩ := Prod.mk.inj hf
      obtain rfl : 0 = n := h.length
      cases h
      obtain ⟨rfl, hcut⟩ := bounds_cut (hp ▸ hb) hi
      have hat := At.node (hp' ▸ hcut (x :: r)) (.leaf e₁.1 e₁.2)
      refine ⟨by simpa using hat, ?_⟩
      rw [nodes_succ, nodes_succ, nodesAll_zero, nodesAll_zero]
    | cons f path =>
      obtain ⟨rfl, rfl⟩ := List.cons.inj hpath
      have hmem : p ∈ nodes ix n e₁.2 := h.mem_nodes (p, i) List.mem_cons_self
      obtain ⟨hne, hbl, hbr, hapart⟩ := apart hnd hb
      obtain ⟨hpb, hpl, hpr⟩ := hapart p hmem
      rw [nodes_cut hb] at hsame
      have hb' : ix' b = ix b := hsame b (by simp) (Ne.symm hpb)
      have hl : ∀ q ∈ nodesAll ix n l₁, ix' q = ix q := fun q hq =>
        hsame q (by simp [hq]) fun hqp => hpl (hqp ▸ hq)
      have hr : ∀ q ∈ nodesAll ix n r₁, ix' q = ix q := fun q hq =>
        hsame q (by simp [hq]) fun hqp => hpr (hqp ▸ hq)
      obtain ⟨ih1, ih2⟩ := ih hne (fun q hq => hsame q (by simp [hq])) rfl
      have hbb : bounds lo (ix' b) = l₁ ++ e₁ :: r₁ := by rw [hb', hb]
      have hat := At.node hbb ih1
      rw [flatAll_congr hl, flatAll_congr hr] at hat
      refine ⟨hat, ?_⟩
      rw [nodes_cut hbb, nodes_cut hb, ih2, nodesAll_congr hl, nodesAll_congr hr]

/-- What a cut does to the block itself: the entries from the position `m` on, the first of which has the key
`k`, go to the block `nb`. -/
def Halved (ix ix' : Index B) (p nb : B) (m k : ℕ) : Prop :=
  ∃ c A A', A ≠ [] ∧ A.length = m ∧ ix p = A ++ (k, c) :: A' ∧ ix' p = A ∧ ix' nb = (k, c) :: A'

/-- What it does to the block above: an entry for `nb` is put in behind the position `j`. -/
def Linked (ix ix' : Index B) (q nb : B) (j k : ℕ) : Prop :=
  ∃ e l r, ix q = l ++ e :: r ∧ l.length = j ∧ ix' q = l ++ e :: (k, nb) :: r

/-- The path behind a cut at the position `m`. -/
def cutPath (deep up : Path B) (p q nb : B) (m i j : ℕ) : Path B :=
  if i < m then deep ++ (p, i) :: (q, j) :: up else deep ++ (nb, i - m) :: (q, j + 1) :: up

theorem cutPath_concat (f : B × ℕ) (m : ℕ) :
    cutPath deep (up ++ [f]) p q nb m i j = cutPath deep up p q nb m i j ++ [f] := by
  unfold cutPath
  split_ifs <;> simp

variable {m k s : ℕ}

/-- Below the two halves nothing is changed. -/
theorem Halved.nodes_perm (hcut : Halved ix ix' p nb m k)
    (hbelow : ∀ c ∈ nodesAll ix n (ix p), ix' c = ix c) :
    (nodes ix' (n + 1) p ++ nodes ix' (n + 1) nb).Perm (nb :: nodes ix (n + 1) p) := by
  obtain ⟨c, A, A', -, -, hp, hp', hnb'⟩ := hcut
  rw [hp, nodesAll_append, List.forall_mem_append] at hbelow
  rw [nodes_succ, nodes_succ, nodes_succ, hp, hp', hnb', nodesAll_congr hbelow.1, nodesAll_congr hbelow.2,
    nodesAll_append]
  exact List.perm_middle

/-- The leaf of a path is behind the first half, or behind the second one. -/
theorem At.halve (h : At ix (n + 1) s p (deep ++ [(p, i)]) bef cur aft) (hcut : Halved ix ix' p nb m k)
    (hbelow : ∀ c ∈ nodesAll ix n (ix p), ix' c = ix c) :
    (i < m → ∃ aft₁, aft = aft₁ ++ flat ix' (n + 1) k nb ∧ At ix' (n + 1) s p (deep ++ [(p, i)]) bef cur aft₁) ∧
    (m ≤ i → ∃ bef₁, bef = flat ix' (n + 1) s p ++ bef₁ ∧
      At ix' (n + 1) k nb (deep ++ [(nb, i - m)]) bef₁ cur aft) := by
  obtain ⟨c, A, A', hA, rfl, hp, hp', hnb'⟩ := hcut
  generalize hpath : deep ++ [(p, i)] = path at h
  cases h with
  | @node _ _ _ l r e _ path₁ bef₁ aft₁ hb h₁ =>
  obtain ⟨rfl, hf⟩ := List.append_inj' hpath rfl
  obtain rfl : i = l.length := congrArg Prod.snd (List.singleton_injective hf)
  have hl : nodesAll ix n (ix p) = nodesAll ix n l ++ (nodes ix n e.2 ++ nodesAll ix n r) := by
    rw [← nodesAll_bounds ix n s, hb, nodesAll_append, nodesAll_cons]
  have h₂ : At ix' n e.1 e.2 deep bef₁ cur aft₁ := h₁.congr fun c hc => hbelow c (by rw [hl]; simp [hc])
  have hbl : ∀ c ∈ nodesAll ix n l, ix' c = ix c := fun c hc => hbelow c (by rw [hl]; simp [hc])
  have hbr : ∀ c ∈ nodesAll ix n r, ix' c = ix c := fun c hc => hbelow c (by rw [hl]; simp [hc])
  have hcut : bounds s A ++ (k, c) :: A' = l ++ e :: r := by rw [← hb, hp, bounds_append hA]
  refine ⟨fun hi => ?_, fun hi => ?_⟩
  · -- the position is in the first half
    obtain ⟨r₁, hr₁, rfl⟩ : ∃ r₁, bounds s A = l ++ e :: r₁ ∧ r = r₁ ++ (k, c) :: A' := by
      rcases List.append_eq_append_iff.mp hcut with ⟨x, hx, hx'⟩ | ⟨x, hx, hx'⟩
      · rw [hx, List.length_append, length_bounds] at hi
        omega
      · cases x with
        | nil =>
          have hlen := congrArg List.length hx
          rw [List.append_nil, length_bounds] at hlen
          omega
        | cons e' x =>
          obtain ⟨rfl, rfl⟩ := List.cons.inj hx'
          exact ⟨x, hx, rfl⟩
    rw [← hp'] at hr₁
    rw [nodesAll_append, List.forall_mem_append] at hbr
    refine ⟨aft₁ ++ flatAll ix n r₁, ?_, ?_⟩
    · rw [flatAll_append, flat_succ, hnb']
      rw [show bounds k ((k, c) :: A') = (k, c) :: A' from rfl, flatAll_congr hbr.2, List.append_assoc]
    · have hat := At.node hr₁ h₂
      rwa [flatAll_congr hbl, flatAll_congr hbr.1] at hat
  · -- the position is in the second half
    obtain ⟨l₁, rfl, hl₁⟩ : ∃ l₁, l = bounds s A ++ l₁ ∧ (k, c) :: A' = l₁ ++ e :: r := by
      rcases List.append_eq_append_iff.mp hcut with ⟨x, hx, hx'⟩ | ⟨x, hx, hx'⟩
      · exact ⟨x, hx, hx'⟩
      · cases x with
        | nil => exact ⟨[], by simpa using hx.symm, hx'.symm⟩
        | cons e' x =>
          have hlen := congrArg List.length hx
          simp only [List.length_append, List.length_cons, length_bounds] at hlen
          omega
    have hb' : bounds k (ix' nb) = l₁ ++ e :: r := by
      rw [hnb', ← hl₁]
      rfl
    rw [nodesAll_append, List.forall_mem_append] at hbl
    refine ⟨flatAll ix n l₁ ++ bef₁, ?_, ?_⟩
    · rw [flatAll_append, flat_succ, hp', flatAll_congr hbl.1, List.append_assoc]
    · have hat := At.node hb' h₂
      rw [flatAll_congr hbl.2, flatAll_congr hbr] at hat
      simpa using hat

/-- A cut right below the block that gets the new entry. -/
theorem At.split_top (h : At ix (n + 2) lo q (deep ++ [(p, i), (q, j)]) bef cur aft)
    (hnd : (nodes ix (n + 2) q).Nodup) (hsame : ∀ c ∈ nodes ix (n + 2) q, c ≠ p → c ≠ q → ix' c = ix c)
    (hcut : Halved ix ix' p nb m k) (hlink : Linked ix ix' q nb j k) :
    At ix' (n + 2) lo q (cutPath deep [] p q nb m i j) bef cur aft ∧
      (nodes ix' (n + 2) q).Perm (nb :: nodes ix (n + 2) q) := by
  obtain ⟨e, l₀, r₀, hq, hj, hq'⟩ := hlink
  generalize hpath : deep ++ [(p, i), (q, j)] = path at h
  cases h with
  | @node _ _ _ l r e₁ _ path₁ bef₁ aft₁ hb h₁ =>
  have hpath' : (deep ++ [(p, i)]) ++ [(q, j)] = path₁ ++ [(q, l.length)] := by simpa using hpath
  obtain ⟨rfl, hf⟩ := List.append_inj' hpath' rfl
  obtain rfl : j = l.length := congrArg Prod.snd (List.singleton_injective hf)
  obtain ⟨rfl, hbq⟩ := bounds_cut (hq ▸ hb) hj
  have hbq' := hbq ((k, nb) :: r₀)
  rw [← hq'] at hbq'
  obtain ⟨s, p'⟩ := e₁
  obtain rfl : p = p' := by
    generalize hpath₂ : deep ++ [(p, i)] = path at h₁
    cases h₁ with
    | node _ _ => exact congrArg Prod.fst (List.singleton_injective (List.append_inj' hpath₂ rfl).2)
  obtain ⟨hne, hql, hqr, hapart⟩ := apart hnd hb
  obtain ⟨-, hpl, hpr⟩ := hapart p List.mem_cons_self
  rw [nodes_cut hb] at hsame
  have hleft : ∀ c ∈ nodesAll ix (n + 1) l, ix' c = ix c := fun c hc =>
    hsame c (by simp [hc]) (fun hcp => hpl (hcp ▸ hc)) (fun hcq => hql (hcq ▸ hc))
  have hright : ∀ c ∈ nodesAll ix (n + 1) r₀, ix' c = ix c := fun c hc =>
    hsame c (by simp [hc]) (fun hcp => hpr (hcp ▸ hc)) (fun hcq => hqr (hcq ▸ hc))
  have hbelow : ∀ c ∈ nodesAll ix n (ix p), ix' c = ix c := by
    intro c hc
    have hcp : c ∈ nodes ix (n + 1) p := List.mem_cons_of_mem _ hc
    refine hsame c (by simp [hcp]) ?_ (hapart c hcp).1
    rintro rfl
    exact (List.nodup_cons.mp hne).1 hc
  obtain ⟨hlow, hhigh⟩ := h₁.halve hcut hbelow
  refine ⟨?_, ?_⟩
  · unfold cutPath
    split_ifs with hi
    · obtain ⟨aft₂, rfl, hat⟩ := hlow hi
      have hat' := At.node hbq' hat
      rw [flatAll_congr hleft, flatAll_cons, flatAll_congr hright] at hat'
      simpa using hat'
    · obtain ⟨bef₂, rfl, hat⟩ := hhigh (not_lt.mp hi)
      have hbq'' : bounds lo (ix' q) = (l ++ [(s, p)]) ++ (k, nb) :: r₀ := by rw [hbq']; simp
      have hat' := At.node hbq'' hat
      rw [flatAll_append, flatAll_congr hleft, flatAll_congr hright] at hat'
      simpa using hat'
  · rw [nodes_cut hbq', nodes_cut hb, nodesAll_cons, nodesAll_congr hleft, nodesAll_congr hright,
      ← List.append_assoc (nodes ix' (n + 1) p)]
    refine (List.Perm.cons q ?_).trans (List.Perm.swap _ _ _)
    refine (((hcut.nodes_perm hbelow).append_right _).append_left _).trans ?_
    exact List.perm_middle

/-- **A cut** leaves the leaves as they are. -/
theorem At.split (h : At ix n lo b (deep ++ (p, i) :: (q, j) :: up) bef cur aft) (hnd : (nodes ix n b).Nodup)
    (hsame : ∀ c ∈ nodes ix n b, c ≠ p → c ≠ q → ix' c = ix c)
    (hcut : Halved ix ix' p nb m k) (hlink : Linked ix ix' q nb j k) :
    At ix' n lo b (cutPath deep up p q nb m i j) bef cur aft ∧ (nodes ix' n b).Perm (nb :: nodes ix n b) := by
  generalize hpath : deep ++ (p, i) :: (q, j) :: up = path at h
  induction h generalizing up with
  | leaf lo b => simp at hpath
  | @node n lo b l r e cur path bef aft hb h ih =>
    rcases List.eq_nil_or_concat up with rfl | ⟨up, f, rfl⟩
    · -- the block that gets the entry
      have hat := At.node hb h
      rw [← hpath] at hat
      have hpath' : (deep ++ [(p, i)]) ++ [(q, j)] = path ++ [(b, l.length)] := by simpa using hpath
      obtain ⟨rfl, hf⟩ := List.append_inj' hpath' rfl
      obtain ⟨rfl, rfl⟩ := Prod.mk.inj (List.singleton_injective hf)
      obtain ⟨n, rfl⟩ : ∃ n', n = n' + 1 := ⟨n - 1, by have := h.length; simp at this; omega⟩
      exact hat.split_top hnd hsame hcut hlink
    · rw [List.concat_eq_append] at hpath ⊢
      have hpath' : (deep ++ (p, i) :: (q, j) :: up) ++ [f] = path ++ [(b, l.length)] := by simpa using hpath
      obtain ⟨rfl, hf⟩ := List.append_inj' hpath' rfl
      obtain rfl := List.singleton_injective hf
      have hp : p ∈ nodes ix n e.2 := h.mem_nodes (p, i) (by simp)
      have hq : q ∈ nodes ix n e.2 := h.mem_nodes (q, j) (by simp)
      obtain ⟨hne, hbl, hbr, hapart⟩ := apart hnd hb
      obtain ⟨hpb, hpl, hpr⟩ := hapart p hp
      obtain ⟨hqb, hql, hqr⟩ := hapart q hq
      rw [nodes_cut hb] at hsame
      have hbb : bounds lo (ix' b) = l ++ e :: r := by rw [hsame b (by simp) (Ne.symm hpb) (Ne.symm hqb), hb]
      have hl : ∀ c ∈ nodesAll ix n l, ix' c = ix c := fun c hc =>
        hsame c (by simp [hc]) (fun hcp => hpl (hcp ▸ hc)) fun hcq => hql (hcq ▸ hc)
      have hr : ∀ c ∈ nodesAll ix n r, ix' c = ix c := fun c hc =>
        hsame c (by simp [hc]) (fun hcp => hpr (hcp ▸ hc)) fun hcq => hqr (hcq ▸ hc)
      obtain ⟨ih1, ih2⟩ := ih hne (fun c hc => hsame c (by simp [hc])) rfl
      have hat := At.node hbb ih1
      rw [flatAll_congr hl, flatAll_congr hr] at hat
      refine ⟨by rwa [cutPath_concat], ?_⟩
      rw [nodes_cut hbb, nodes_cut hb, nodesAll_congr hl, nodesAll_congr hr]
      refine (List.Perm.cons b ?_).trans (List.Perm.swap _ _ _)
      exact ((ih2.append_right _).append_left _).trans List.perm_middle

/-- **A new level** below the first block leaves the leaves as they are. -/
theorem At.grow (h : At ix (n + 1) lo b (deep ++ [(b, i)]) bef cur aft) (hnd : (nodes ix (n + 1) b).Nodup)
    (hsame : ∀ c ∈ nodes ix (n + 1) b, c ≠ b → ix' c = ix c) (hb' : ix' b = [(k, nb)]) (hnb' : ix' nb = ix b) :
    At ix' (n + 2) lo b (deep ++ [(nb, i), (b, 0)]) bef cur aft ∧
      (nodes ix' (n + 2) b).Perm (nb :: nodes ix (n + 1) b) := by
  have hbelow : ∀ c ∈ nodesAll ix n (ix b), ix' c = ix c := by
    intro c hc
    refine hsame c (List.mem_cons_of_mem _ hc) ?_
    rintro rfl
    exact (List.nodup_cons.mp hnd).1 hc
  have hbb : bounds lo (ix' b) = [] ++ (lo, nb) :: [] := by rw [hb']; rfl
  generalize hpath : deep ++ [(b, i)] = path at h
  cases h with
  | @node _ _ _ l r e _ path₁ bef₁ aft₁ hb h₁ =>
  obtain ⟨rfl, hf⟩ := List.append_inj' hpath rfl
  obtain rfl : i = l.length := congrArg Prod.snd (List.singleton_injective hf)
  have hl : nodesAll ix n (ix b) = nodesAll ix n l ++ (nodes ix n e.2 ++ nodesAll ix n r) := by
    rw [← nodesAll_bounds ix n lo, hb, nodesAll_append, nodesAll_cons]
  rw [hl, List.forall_mem_append, List.forall_mem_append] at hbelow
  rw [← hnb'] at hb
  have hat := At.node hbb (At.node hb (h₁.congr hbelow.2.1))
  rw [flatAll_congr hbelow.1, flatAll_congr hbelow.2.2] at hat
  refine ⟨by simpa using hat, ?_⟩
  rw [nodes_succ, hb', nodesAll_cons, nodesAll_nil, List.append_nil, nodes_succ, hnb', nodes_succ, hl,
    ← nodesAll_bounds ix' n lo, ← hnb', hb, nodesAll_append, nodesAll_cons,
    nodesAll_congr hbelow.1, nodesAll_congr hbelow.2.2, nodes_congr hbelow.2.1]
  exact List.Perm.swap _ _ _

/-! ### The path is the only one -/

/-- Where a list is cut behind the last element that is not above `h`. -/
theorem cut_unique {h : ℕ} {l₁ l₂ r₁ r₂ : List (ℕ × B)} {x₁ x₂ : ℕ × B} (heq : l₁ ++ x₁ :: r₁ = l₂ ++ x₂ :: r₂)
    (h₁ : x₁.1 ≤ h) (hr₁ : ∀ x ∈ r₁, h < x.1) (h₂ : x₂.1 ≤ h) (hr₂ : ∀ x ∈ r₂, h < x.1) :
    l₁ = l₂ ∧ x₁ = x₂ ∧ r₁ = r₂ := by
  rcases List.append_eq_append_iff.mp heq with ⟨y, hy, hy'⟩ | ⟨y, hy, hy'⟩
  · cases y with
    | nil =>
      obtain ⟨rfl, rfl⟩ := List.cons.inj hy'
      exact ⟨by simpa using hy.symm, rfl, rfl⟩
    | cons z y =>
      obtain ⟨rfl, rfl⟩ := List.cons.inj hy'
      exact absurd (hr₁ x₂ (by simp)) (not_lt.mpr h₂)
  · cases y with
    | nil =>
      obtain ⟨rfl, rfl⟩ := List.cons.inj hy'
      exact ⟨by simpa using hy, rfl, rfl⟩
    | cons z y =>
      obtain ⟨rfl, rfl⟩ := List.cons.inj hy'
      exact absurd (hr₂ x₁ (by simp)) (not_lt.mpr h₁)

/-- A path is fixed by the number of leaves before its own. -/
theorem At.path_unique {path' : Path B} {bef' aft' : List (ℕ × B)} {cur' : ℕ × B}
    (h : At ix n lo b path bef cur aft) (h' : At ix n lo b path' bef' cur' aft')
    (hbef : bef.length = bef'.length) : path = path' := by
  induction h generalizing path' bef' aft' cur' with
  | leaf lo b =>
    cases h'
    rfl
  | @node n lo b l r e cur path bef aft hb h ih =>
    cases h' with
    | @node _ _ _ l' r' e' _ path' bef' aft' hb' h' =>
    have hlen := congrArg List.length h.flat_eq
    have hlen' := congrArg List.length h'.flat_eq
    simp only [List.length_append, List.length_cons] at hbef hlen hlen'
    rw [hb] at hb'
    rcases List.append_eq_append_iff.mp hb' with ⟨y, hy, hy'⟩ | ⟨y, hy, hy'⟩
    · cases y with
      | nil =>
        obtain ⟨rfl, rfl⟩ := List.cons.inj hy'
        obtain rfl : l' = l := by simpa using hy
        rw [ih h' (by omega)]
      | cons z y =>
        -- the leaves behind `e` are all before the other path
        obtain ⟨rfl, rfl⟩ := List.cons.inj hy'
        rw [hy, flatAll_append, flatAll_cons, List.length_append, List.length_append] at hbef
        omega
    · cases y with
      | nil =>
        obtain ⟨rfl, rfl⟩ := List.cons.inj hy'
        obtain rfl : l = l' := by simpa using hy
        rw [ih h' (by omega)]
      | cons z y =>
        obtain ⟨rfl, rfl⟩ := List.cons.inj hy'
        rw [hy, flatAll_append, flatAll_cons, List.length_append, List.length_append] at hbef
        omega

/-- A path to the last leaf whose bound is not above the key is the one the search takes. -/
theorem At.eq_probe {h : ℕ} (hat : At ix n lo b path bef cur aft) (hf : Filled ix n b)
    (ho : Ordered (flat ix n lo b)) (hlo : lo ≤ h) (hcur : cur.1 ≤ h) (haft : ∀ x ∈ aft, h < x.1) :
    path = probe ix h n b := by
  obtain ⟨bef', cur', aft', hat', hcur', haft'⟩ := probe_at h hf ho hlo
  obtain ⟨rfl, -, -⟩ := cut_unique (hat.flat_eq.symm.trans hat'.flat_eq) hcur haft hcur' haft'
  exact hat.path_unique hat' rfl

end LinuxEvfs.Lib.PagedIndex
