import LinuxEvfs.Lib.IndexInsert
import LinuxEvfs.Lib.TreeJournal

/-! # What rewriting a leaf leaves as it is

The index blocks decide to which leaf a search goes, so a search goes to the same leaf after a leaf was rewritten
with its room kept, and all other leaves are the same.

* `spine`: a path without its position in the leaf; `leafAt`: the leaf there.
* `spine_search_updLeaf`, `leafAt_updLeaf`: rewriting a leaf.
* `At.insertAt_behind`: an insertion behind an item rewrites the leaf, and no key is corrected
  (`At.corrected_behind`). -/

namespace LinuxEvfs.Lib.IndexFrame

open LinuxEvfs.Lib.BinSearch LinuxEvfs.Lib.IndexTree LinuxEvfs.Lib.IndexInsert LinuxEvfs.Lib.TreeJournal

variable {β : Type} {key : β → ℕ} {f : Block β → Option ℕ → Block β}

/-- The positions in the index blocks. -/
def spine : (d : ℕ) → Path d → List ℕ
  | 0, _ => []
  | d + 1, (p : ℕ × Path d) => p.1 :: spine d p.2

/-- The position in the leaf. -/
def Path.last : (d : ℕ) → Path d → Option ℕ
  | 0, (p : Option ℕ) => p
  | d + 1, (p : ℕ × Path d) => Path.last d p.2

/-- The leaf at a spine. -/
def leafAt : (d : ℕ) → Tree β d → List ℕ → Option (Block β)
  | 0, (t : Block β), [] => some t
  | d + 1, (t : Block (ℕ × Tree β d)), i :: q => t.entries[i]?.bind fun e => leafAt d e.2 q
  | _, _, _ => none

/-- The entries of the top block, if it is an index block. -/
def width : (d : ℕ) → Tree β d → ℕ
  | 0, _ => 0
  | _ + 1, (t : Block (ℕ × Tree β _)) => t.entries.length

theorem leaf_eq_leafAt : ∀ {d : ℕ} (t : Tree β d) (p : Path d), leaf d t p = leafAt d t (spine d p)
  | 0, _, _ => rfl
  | d + 1, (t : Block (ℕ × Tree β d)), (p : ℕ × Path d) => by
    simp only [leaf, leafAt, spine, leaf_eq_leafAt]

/-- The number of a leaf is that of its spine. -/
theorem leafNo_eq : ∀ {d : ℕ} (self : Option ℕ) (nums : Nums) (p : Path d),
    leafNo d self nums p = if d = 0 then self else some (nums (spine d p))
  | 0, _, _, _ => rfl
  | d + 1, _, nums, (p : ℕ × Path d) => by
    simp only [leafNo, leafNo_eq, spine, Nums.below, Nat.succ_ne_zero, if_false]
    split_ifs with hd
    · subst hd
      rfl
    · rfl

/-! ### Rewriting a leaf -/

theorem width_updLeaf : ∀ {d : ℕ} (t : Tree β d) (p : Path d), width d (updLeaf f d t p) = width d t
  | 0, _, _ => rfl
  | d + 1, (t : Block (ℕ × Tree β d)), (p : ℕ × Path d) => by simp [width, updLeaf]

/-- The leaf at a spine after the leaf at a path was rewritten. -/
theorem leafAt_updLeaf : ∀ {d : ℕ} (t : Tree β d) (p : Path d) (q : List ℕ),
    leafAt d (updLeaf f d t p) q =
      if q = spine d p then (leafAt d t q).map (f · (Path.last d p)) else leafAt d t q
  | 0, t, p, [] => rfl
  | 0, _, _, _ :: _ => by simp [leafAt]
  | d + 1, _, _, [] => by simp [leafAt]
  | d + 1, (t : Block (ℕ × Tree β d)), (p : ℕ × Path d), i :: q => by
    simp only [leafAt, updLeaf, spine, Path.last, List.cons.injEq, List.getElem?_modify]
    rcases eq_or_ne p.1 i with rfl | hne
    · cases t.entries[p.1]? with
      | none => simp
      | some e =>
        simp only [if_true, Option.map_eq_map, Option.map_some, Option.bind_some, true_and]
        exact leafAt_updLeaf e.2 p.2 q
    · simp only [if_neg hne, Option.map_eq_map, Option.map_id', if_neg (fun h : i = p.1 ∧ _ => hne h.1.symm)]

/-- The search in a block looks at the keys only. -/
theorem lastLe_congr {α γ : Type} {g : α → ℕ} {h : γ → ℕ} {x : ℕ} {es : List α} {es' : List γ}
    (heq : es.map g = es'.map h) : lastLe g x es = lastLe h x es' := by
  have hlen : es.length = es'.length := by simpa using congrArg List.length heq
  have hget : ∀ i, es[i]?.map g = es'[i]?.map h := fun i => by
    rw [← List.getElem?_map, ← List.getElem?_map, heq]
  unfold lastLe
  rw [hlen]
  simp only [hget]

/-- **A search goes to the same leaf** after a leaf was rewritten. -/
theorem spine_search_updLeaf (x : ℕ) : ∀ {d : ℕ} (t : Tree β d) (p : Path d),
    spine d (search key x d (updLeaf f d t p)) = spine d (search key x d t)
  | 0, _, _ => rfl
  | d + 1, (t : Block (ℕ × Tree β d)), (p : ℕ × Path d) => by
    have hkeys : (t.entries.modify p.1 fun e => (e.1, updLeaf f d e.2 p.2)).map Prod.fst = t.entries.map Prod.fst := by
      refine List.ext_getElem (by simp) fun i h1 h2 => ?_
      simp only [List.getElem_map, List.getElem_modify]
      split_ifs <;> rfl
    simp only [search, updLeaf, spine, lastLe_congr hkeys, List.getElem?_modify]
    refine congrArg _ ?_
    generalize lastLe Prod.fst x t.entries = i
    cases t.entries[i]? with
    | none => rfl
    | some e =>
      simp only [Option.map_eq_map, Option.map_some]
      split_ifs
      · exact spine_search_updLeaf x e.2 p.2
      · rfl

/-! ### The path to an item -/

/-- A subtree that reaches behind the items before the position is not before the other one. -/
theorem le_of_reaches {d : ℕ} {es1 es2 es1' es2' : List (ℕ × Tree β d)} {e e' : ℕ × Tree β d} {l l' : List β}
    (hes : es1 ++ e :: es2 = es1' ++ e' :: es2') (hl : below d es1 ++ l = below d es1' ++ l')
    (hreach : l.length < (items d e.2).length) : es1'.length ≤ es1.length := by
  rcases List.append_eq_append_iff.mp hes with ⟨as, rfl, has⟩ | ⟨as, rfl, -⟩
  · cases as with
    | nil => simp
    | cons a as =>
      obtain ⟨rfl, -⟩ := List.cons.inj has
      rw [below_append, below_cons, List.append_assoc, List.append_cancel_left_eq] at hl
      have hlen := congrArg List.length hl
      simp only [List.length_append] at hlen
      omega
  · simp

/-- **One path** stands on an item. -/
theorem At.path_unique {a : β} : ∀ {d : ℕ} {t : Tree β d} {p p' : Path d} {l r r' : List β},
    At d t p l (some a) r → At d t p' l (some a) r' → p = p'
  | 0, _, _, _, _, _, _, ⟨_, hp, _⟩, ⟨_, hp', _⟩ => hp.trans hp'.symm
  | d + 1, t, p, p', l, r, r', ⟨es1, k, c, es2, l1, r1, he, hp, hc, hl, _⟩,
      ⟨es1', k', c', es2', l1', r1', he', hp', hc', hl', _⟩ => by
    have hreach : l1.length < (items d c).length := by rw [hc.items_eq]; simp
    have hreach' : l1'.length < (items d c').length := by rw [hc'.items_eq]; simp
    have hes := he.symm.trans he'
    have hls := hl.symm.trans hl'
    have hlen : es1.length = es1'.length := Nat.le_antisymm (le_of_reaches hes.symm hls.symm hreach')
      (le_of_reaches hes hls hreach)
    obtain ⟨rfl, htail⟩ := List.append_inj hes hlen
    obtain ⟨heq, -⟩ := List.cons.inj htail
    cases heq
    obtain rfl := List.append_cancel_left hls
    exact Prod.ext (hp.trans hp'.symm) (At.path_unique hc hc')

/-! ### Insertion behind an item -/

/-- The new item goes behind the position of the path. -/
def insertBehind (b : β) (lf : Block β) (q : Option ℕ) : Block β :=
  { lf with entries := lf.entries.insertIdx (q.elim 0 (· + 1)) b }

theorem At.insertAt_behind {a b : β} (hlt : key a < key b) : ∀ {d : ℕ} {t : Tree β d} {p : Path d} {l r : List β},
    At d t p l (some a) r → insertAt key b d t p = (updLeaf (insertBehind b) d t p, false)
  | 0, t, p, l, r, ⟨he, hp, _⟩ => by
    subst hp
    have he' : t.entries = l ++ a :: r := by simpa using he
    simp [insertAt, updLeaf, insertBehind, he', hlt]
  | d + 1, t, p, l, r, ⟨es1, k, c, es2, l', r', he, hp, hc, _, _⟩ => by
    have hget : t.entries[p.1]? = some (k, c) := by rw [he, hp]; simp
    simp only [insertAt, updLeaf, hget, At.insertAt_behind hlt hc, Bool.false_eq_true, if_false, Bool.false_and]
    rw [he, hp, set_mid, modify_mid]

/-- No key is corrected above it. -/
theorem At.corrected_behind {a b : β} (hlt : key a < key b) :
    ∀ {d : ℕ} {self : Option ℕ} {nums : Nums} {t : Tree β d} {p : Path d} {l r : List β},
      At d t p l (some a) r → corrected key b d self nums t p = []
  | 0, _, _, _, _, _, _, _ => rfl
  | d + 1, self, nums, t, p, l, r, ⟨es1, k, c, es2, l', r', he, hp, hc, _, _⟩ => by
    have hget : t.entries[p.1]? = some (k, c) := by rw [he, hp]; simp
    simp only [corrected, hget, At.corrected_behind hlt hc, At.insertAt_behind hlt hc, Bool.false_eq_true,
      if_false, List.append_nil]

end LinuxEvfs.Lib.IndexFrame
