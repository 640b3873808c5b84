import LinuxEvfs.Lib.BinSearch
import Mathlib.Data.Nat.Basic
import Mathlib.Data.List.Basic
import Mathlib.Data.List.Pairwise
import Mathlib.Data.List.Flatten

/-! # Index trees: blocks of keyed items under blocks of keys

A tree of depth `0` is one block of items; a tree of depth `d + 1` is a block of entries, each a key
with a tree of depth `d`. A path names one position in every block on the way to a leaf; in the leaf
there is none when the leaf is empty. The items are the leaves' items in order.

* `Good`: an index entry's key is the key of the first item below it; `Indexed`: all entries of the
  tree are good and no index block is empty.
* `At d t p l o r`: the path `p` of `t` stands on the item `o`, with the items `l` before and `r`
  behind it.
* `search_at`: in an indexed tree with increasing keys the search for `x` stands on the last item
  whose key is at most `x`, and on the first item if there is none; `search_eq`: on which item, in
  terms of the list of items.
* `At.next_eq`: the key behind a position, read off the nearest block that has an entry to the right.
* `At.leaf_split`, `updLeaf_indexed`: rewriting the leaf of a path. -/

namespace LinuxEvfs.Lib.IndexTree

open LinuxEvfs.Lib.BinSearch

variable {β : Type}

/-- A block: how many entries it has room for, and its entries. -/
structure Block (α : Type) where
  cap : ℕ
  entries : List α

/-- The trees of a depth. -/
def Tree (β : Type) : ℕ → Type
  | 0 => Block β
  | d + 1 => Block (ℕ × Tree β d)

/-- The paths to a leaf. -/
def Path : ℕ → Type
  | 0 => Option ℕ
  | d + 1 => ℕ × Path d

/-- The path of an index block without entries. -/
def Path.null : (d : ℕ) → Path d
  | 0 => none
  | d + 1 => (0, Path.null d)

/-- The items of a tree. -/
def items : (d : ℕ) → Tree β d → List β
  | 0, (t : Block β) => t.entries
  | d + 1, (t : Block (ℕ × Tree β d)) => t.entries.flatMap fun e => items d e.2

/-- The items below a list of index entries. -/
def below (d : ℕ) (es : List (ℕ × Tree β d)) : List β := es.flatMap fun e => items d e.2

/-- The item at a path. -/
def item : (d : ℕ) → Tree β d → Path d → Option β
  | 0, (t : Block β), (p : Option ℕ) => p.bind fun i => t.entries[i]?
  | d + 1, (t : Block (ℕ × Tree β d)), (p : ℕ × Path d) =>
    t.entries[p.1]?.bind fun e => item d e.2 p.2

/-- The leaf block at a path. -/
def leaf : (d : ℕ) → Tree β d → Path d → Option (Block β)
  | 0, (t : Block β), _ => some t
  | d + 1, (t : Block (ℕ × Tree β d)), (p : ℕ × Path d) =>
    t.entries[p.1]?.bind fun e => leaf d e.2 p.2

/-- Rewriting the leaf at a path. -/
def updLeaf (f : Block β → Option ℕ → Block β) : (d : ℕ) → Tree β d → Path d → Tree β d
  | 0, (t : Block β), (p : Option ℕ) => f t p
  | d + 1, (t : Block (ℕ × Tree β d)), (p : ℕ × Path d) =>
    { t with entries := t.entries.modify p.1 fun e => (e.1, updLeaf f d e.2 p.2) }

/-- Rewriting the item at a path. -/
def updItem (g : β → β) : (d : ℕ) → Tree β d → Path d → Tree β d :=
  updLeaf fun lf p => { lf with entries := p.elim lf.entries fun i => lf.entries.modify i g }

section keyed
variable (key : β → ℕ)

/-- The search for `x`: in every block the last entry whose key is at most `x`, or the first. -/
def search (x : ℕ) : (d : ℕ) → Tree β d → Path d
  | 0, (t : Block β) => if t.entries.isEmpty then none else some (lastLe key x t.entries)
  | d + 1, (t : Block (ℕ × Tree β d)) =>
    let i := lastLe Prod.fst x t.entries
    (i, match t.entries[i]? with
      | some e => search x d e.2
      | none => Path.null d)

/-- The key behind a position: the next item of the leaf, or the next entry of the nearest index
block above that has one. -/
def next : (d : ℕ) → Tree β d → Path d → Option ℕ
  | 0, (t : Block β), (p : Option ℕ) => p.bind fun i => t.entries[i + 1]?.map key
  | d + 1, (t : Block (ℕ × Tree β d)), (p : ℕ × Path d) =>
    match t.entries[p.1]?.bind fun e => next d e.2 p.2 with
    | some k => some k
    | none => t.entries[p.1 + 1]?.map Prod.fst

/-- The key of an index entry is that of the first item below it. -/
def Good (d : ℕ) (e : ℕ × Tree β d) : Prop := (items d e.2).head?.map key = some e.1

/-- **An indexed tree.** -/
def Indexed : (d : ℕ) → Tree β d → Prop
  | 0, _ => True
  | d + 1, (t : Block (ℕ × Tree β d)) =>
    t.entries ≠ [] ∧ ∀ e ∈ t.entries, Indexed d e.2 ∧ Good key d e

end keyed

/-- The path stands on `o`, with `l` before and `r` behind it. -/
def At : (d : ℕ) → Tree β d → Path d → List β → Option β → List β → Prop
  | 0, (t : Block β), (p : Option ℕ), l, o, r =>
    t.entries = l ++ o.toList ++ r ∧ p = o.map (fun _ => l.length) ∧
      (o = none → l = [] ∧ r = [])
  | d + 1, (t : Block (ℕ × Tree β d)), (p : ℕ × Path d), l, o, r =>
    ∃ es1 k c es2 l' r', t.entries = es1 ++ (k, c) :: es2 ∧ p.1 = es1.length ∧
      At d c p.2 l' o r' ∧ l = below d es1 ++ l' ∧ r = r' ++ below d es2

theorem below_append (d : ℕ) (es1 es2 : List (ℕ × Tree β d)) :
    below d (es1 ++ es2) = below d es1 ++ below d es2 := by simp [below]

theorem below_cons (d : ℕ) (e : ℕ × Tree β d) (es : List (ℕ × Tree β d)) :
    below d (e :: es) = items d e.2 ++ below d es := by simp [below]

theorem below_nil (d : ℕ) : below d ([] : List (ℕ × Tree β d)) = [] := rfl

theorem items_sublist_below {d : ℕ} {e : ℕ × Tree β d} {es : List (ℕ × Tree β d)} (h : e ∈ es) :
    (items d e.2).Sublist (below d es) := by
  obtain ⟨es1, es2, rfl⟩ := List.append_of_mem h
  rw [below_append, below_cons]
  exact (List.sublist_append_left _ _).trans (List.sublist_append_right _ _)

/-- Entry `i` is the one changed by `List.modify i`. -/
theorem modify_mid {α : Type} (f : α → α) (a : α) (l2 : List α) :
    ∀ l1 : List α, (l1 ++ a :: l2).modify l1.length f = l1 ++ f a :: l2
  | [] => by simp
  | x :: l1 => by simp [modify_mid f a l2 l1]

/-! ### Paths -/

theorem At.items_eq : ∀ {d : ℕ} {t : Tree β d} {p : Path d} {l : List β} {o : Option β}
    {r : List β}, At d t p l o r → items d t = l ++ o.toList ++ r
  | 0, _, _, _, _, _, h => h.1
  | d + 1, t, p, l, o, r, ⟨es1, k, c, es2, l', r', he, _, hc, hl, hr⟩ => by
    change below d t.entries = _
    rw [he, below_append, below_cons, hc.items_eq, hl, hr]
    simp only [List.append_assoc]

theorem At.item_eq : ∀ {d : ℕ} {t : Tree β d} {p : Path d} {l : List β} {o : Option β}
    {r : List β}, At d t p l o r → item d t p = o
  | 0, t, p, l, o, r, ⟨he, hp, _⟩ => by
    subst hp
    cases o with
    | none => rfl
    | some b => simp [item, he]
  | d + 1, t, p, l, o, r, ⟨es1, k, c, es2, l', r', he, hp, hc, _, _⟩ => by
    have h1 : t.entries[p.1]? = some (k, c) := by rw [he, hp]; simp
    simp only [item]
    rw [h1]
    exact hc.item_eq

/-- The leaf of a path: the items around it in the leaf, and those of the other leaves. Rewriting
the leaf replaces exactly its items. -/
theorem At.leaf_split {f : Block β → Option ℕ → Block β} :
    ∀ {d : ℕ} {t : Tree β d} {p : Path d} {l : List β} {b : β} {r : List β},
      At d t p l (some b) r → ∃ lf l0 l1 r1 r0, leaf d t p = some lf ∧
        lf.entries = l1 ++ b :: r1 ∧ l = l0 ++ l1 ∧ r = r1 ++ r0 ∧
        items d (updLeaf f d t p) = l0 ++ (f lf (some l1.length)).entries ++ r0
  | 0, t, p, l, b, r, ⟨he, hp, _⟩ => by
    refine ⟨t, [], l, r, [], rfl, by simpa using he, by simp, by simp, ?_⟩
    subst hp
    simp [items, updLeaf]
  | d + 1, t, p, l, b, r, ⟨es1, k, c, es2, l', r', he, hp, hc, hl, hr⟩ => by
    obtain ⟨lf, l0, l1, r1, r0, h1, h2, rfl, rfl, h5⟩ := hc.leaf_split (f := f)
    have hget : t.entries[p.1]? = some (k, c) := by rw [he, hp]; simp
    refine ⟨lf, below d es1 ++ l0, l1, r1, r0 ++ below d es2, ?_, h2, ?_, ?_, ?_⟩
    · simp only [leaf]
      rw [hget]
      exact h1
    · rw [hl, List.append_assoc]
    · rw [hr, List.append_assoc]
    · change below d (t.entries.modify p.1 fun e => (e.1, updLeaf f d e.2 p.2)) = _
      rw [he, hp, modify_mid, below_append, below_cons, h5]
      simp only [List.append_assoc]

/-- Rewriting an item: the path then stands on the new one, with the same items around it. -/
theorem At.updItem {g : β → β} : ∀ {d : ℕ} {t : Tree β d} {p : Path d} {l : List β} {b : β}
    {r : List β}, At d t p l (some b) r → At d (IndexTree.updItem g d t p) p l (some (g b)) r
  | 0, t, p, l, b, r, ⟨he, hp, _⟩ => by
    have he' : t.entries = l ++ b :: r := by simpa using he
    subst hp
    refine ⟨?_, rfl, by simp⟩
    simp only [IndexTree.updItem, updLeaf, Option.map_some, Option.elim_some, he', modify_mid]
    simp
  | d + 1, t, p, l, b, r, ⟨es1, k, c, es2, l', r', he, hp, hc, hl, hr⟩ => by
    refine ⟨es1, k, IndexTree.updItem g d c p.2, es2, l', r', ?_, hp, hc.updItem, hl, hr⟩
    simp only [IndexTree.updItem, updLeaf]
    rw [he, hp, modify_mid]

/-! ### The search -/

section search
variable {key : β → ℕ}

/-- Items with increasing keys. -/
def Sorted (key : β → ℕ) (bs : List β) : Prop := bs.Pairwise fun a b => key a < key b

theorem Good.mem {d : ℕ} {e : ℕ × Tree β d} (h : Good key d e) :
    ∃ b ∈ items d e.2, key b = e.1 := by
  obtain ⟨b, hb, hk⟩ := Option.map_eq_some_iff.mp h
  exact ⟨b, List.mem_of_head? hb, hk⟩

theorem Good.le {d : ℕ} {e : ℕ × Tree β d} (h : Good key d e) (hs : Sorted key (items d e.2)) :
    ∀ b ∈ items d e.2, e.1 ≤ key b := by
  obtain ⟨b, hb, hk⟩ := Option.map_eq_some_iff.mp h
  obtain ⟨bs, hbs⟩ := List.head?_eq_some_iff.mp hb
  rw [Sorted, hbs, List.pairwise_cons] at hs
  intro c hc
  rw [hbs, List.mem_cons] at hc
  rcases hc with rfl | hc
  · exact hk.ge
  · exact hk ▸ (hs.1 c hc).le

theorem sorted_append {l r : List β} : Sorted key (l ++ r) ↔
    Sorted key l ∧ Sorted key r ∧ ∀ a ∈ l, ∀ b ∈ r, key a < key b := List.pairwise_append

/-- The keys of good entries increase with the items below them. -/
theorem good_keys {d : ℕ} : ∀ {es : List (ℕ × Tree β d)}, (∀ e ∈ es, Good key d e) →
    Sorted key (below d es) → es.Pairwise fun a b => a.1 < b.1
  | [], _, _ => List.Pairwise.nil
  | e :: es, hg, hs => by
    rw [below_cons, sorted_append] at hs
    refine List.pairwise_cons.mpr
      ⟨fun e' he' => ?_, good_keys (fun a ha => hg a (by simp [ha])) hs.2.1⟩
    obtain ⟨b, hb, hk⟩ := (hg e (by simp)).mem
    obtain ⟨b', hb', hk'⟩ := (hg e' (by simp [he'])).mem
    rw [← hk, ← hk']
    exact hs.2.2 b hb b' (List.mem_flatMap.mpr ⟨e', he', hb'⟩)

/-- **The search in an indexed tree** stands on the last item not above `x`, or on the first. -/
theorem search_at (x : ℕ) : ∀ (d : ℕ) (t : Tree β d), Indexed key d t → Sorted key (items d t) →
    (items d t = [] ∧ At d t (search key x d t) [] none []) ∨
    ∃ l b r, At d t (search key x d t) l (some b) r ∧ (∀ c ∈ r, x < key c) ∧ (key b ≤ x ∨ l = [])
  | 0, t, _, hs => by
    by_cases hne : t.entries = []
    · refine .inl ⟨hne, by simpa using hne, ?_, by simp⟩
      simp [search, hne]
    · have hs' : t.entries.Pairwise fun a b => key a ≤ key b := hs.imp fun h => h.le
      obtain ⟨l, b, r, he, hlen, hr, hb⟩ := lastLe_split (x := x) hne hs'
      refine .inr ⟨l, b, r, ⟨by simpa using he, ?_, by simp⟩, hr, hb⟩
      simp [search, hne, hlen]
  | d + 1, t, ⟨hne, hgood⟩, hs => by
    change Sorted key (below d t.entries) at hs
    have hkeys := good_keys (fun e he => (hgood e he).2) hs
    obtain ⟨es1, ⟨k, c⟩, es2, he, hlen, hr, hk⟩ :=
      lastLe_split (x := x) hne (hkeys.imp fun h => Nat.le_of_lt h)
    have hmem : ∀ e ∈ es2, e ∈ t.entries := fun e h => by rw [he]; simp [h]
    have hcg := hgood (k, c) (by rw [he]; simp)
    rw [he, below_append, below_cons, sorted_append, sorted_append] at hs
    obtain ⟨-, ⟨hsc, hs2, -⟩, -⟩ := hs
    have hget : t.entries[lastLe Prod.fst x t.entries]? = some (k, c) := by rw [hlen, he]; simp
    have hp : search key x (d + 1) t = (es1.length, search key x d c) := by
      simp only [search, hget]
      rw [hlen]
    rcases search_at x d c hcg.1 hsc with ⟨h0, -⟩ | ⟨l, b, r, hat, hr', hb⟩
    · obtain ⟨a, ha, -⟩ := hcg.2.mem
      rw [h0] at ha
      simp at ha
    · refine .inr ⟨below d es1 ++ l, b, r ++ below d es2, ?_, fun a ha => ?_, ?_⟩
      · exact ⟨es1, k, c, es2, l, r, he, by rw [hp], by rw [hp]; exact hat, rfl, rfl⟩
      · rcases List.mem_append.mp ha with ha | ha
        · exact hr' a ha
        · obtain ⟨e, hee, hae⟩ := List.mem_flatMap.mp ha
          have hse : Sorted key (items d e.2) := hs2.sublist (items_sublist_below hee)
          exact lt_of_lt_of_le (hr e hee) ((hgood e (hmem e hee)).2.le hse a hae)
      · rcases hb with hb | rfl
        · exact .inl hb
        · -- `b` is the first item of its subtree, so the entry has its key
          have h := hcg.2
          rw [Good, hat.items_eq] at h
          have hkb : key b = k := by simpa using h
          rcases hk with hk | rfl
          · exact .inl (hkb ▸ hk)
          · exact .inr rfl

/-- The search for `x` finds the item behind which everything is above `x`. -/
theorem search_eq {x d : ℕ} {t : Tree β d} {l r : List β} {b : β} (hi : Indexed key d t)
    (hs : Sorted key (items d t)) (he : items d t = l ++ b :: r) (hr : ∀ c ∈ r, x < key c)
    (hb : key b ≤ x ∨ l = []) : At d t (search key x d t) l (some b) r := by
  rcases search_at x d t hi hs with ⟨h0, -⟩ | ⟨l', b', r', hat, hr', hb'⟩
  · rw [h0] at he; simp at he
  · have he' : l' ++ b' :: r' = l ++ b :: r := by rw [← he, hat.items_eq]; simp
    have hs' : (l ++ b :: r).Pairwise fun a c => key a ≤ key c := he ▸ hs.imp fun h => h.le
    have hlen : l'.length = l.length := by
      rw [← lastLe_eq (he' ▸ hs') hr' hb', he', lastLe_eq hs' hr hb]
    obtain ⟨rfl, h⟩ := List.append_inj he' hlen
    obtain ⟨rfl, rfl⟩ := List.cons.inj h
    exact hat

/-- The key behind a position of an indexed tree is that of the next item. -/
theorem At.next_eq : ∀ {d : ℕ} {t : Tree β d} {p : Path d} {l : List β} {o : Option β}
    {r : List β}, At d t p l o r → Indexed key d t → next key d t p = r.head?.map key
  | 0, t, p, l, o, r, ⟨he, hp, ho⟩, _ => by
    subst hp
    cases o with
    | none => simp [next, (ho rfl).2]
    | some b => cases r <;> simp [next, he]
  | d + 1, t, p, l, o, r, ⟨es1, k, c, es2, l', r', he, hp, hc, _, hr⟩, ⟨_, hgood⟩ => by
    have h1 : t.entries[p.1]? = some (k, c) := by rw [he, hp]; simp
    have h2 : t.entries[p.1 + 1]? = es2.head? := by rw [he, hp]; cases es2 <;> simp
    have hn := hc.next_eq (hgood (k, c) (by rw [he]; simp)).1
    simp only [next]
    rw [h1, h2, Option.bind_some, hn, hr]
    cases r' with
    | cons b r' => rfl
    | nil =>
      cases es2 with
      | nil => rfl
      | cons e es2 =>
        have hg := (hgood e (by rw [he]; simp)).2
        obtain ⟨b, hb, hk⟩ := Option.map_eq_some_iff.mp hg
        rw [List.nil_append, below_cons, List.head?_append, hb]
        simp [hk]

/-! ### Rewriting a leaf -/

theorem below_modify_head {d : ℕ} {g : ℕ × Tree β d → ℕ × Tree β d}
    (hg : ∀ e, (items d (g e).2).head?.map key = (items d e.2).head?.map key) :
    ∀ (es : List (ℕ × Tree β d)) (i : ℕ),
      (below d (es.modify i g)).head?.map key = (below d es).head?.map key
  | [], i => by simp
  | e :: es, 0 => by
    simp only [List.modify_zero_cons, below_cons, List.head?_append, Option.map_or]
    rw [hg]
  | e :: es, i + 1 => by
    simp only [List.modify_succ_cons, below_cons, List.head?_append, Option.map_or]
    rw [below_modify_head hg es i]

theorem updLeaf_head {f : Block β → Option ℕ → Block β}
    (hf : ∀ b i, (f b i).entries.head?.map key = b.entries.head?.map key) :
    ∀ (d : ℕ) (t : Tree β d) (p : Path d),
      (items d (updLeaf f d t p)).head?.map key = (items d t).head?.map key
  | 0, t, p => hf t p
  | d + 1, t, p => below_modify_head (fun e => updLeaf_head hf d e.2 p.2) t.entries p.1

/-- A rewrite that keeps the first key of the leaf keeps the tree indexed. -/
theorem updLeaf_indexed {f : Block β → Option ℕ → Block β}
    (hf : ∀ b i, (f b i).entries.head?.map key = b.entries.head?.map key) :
    ∀ {d : ℕ} {t : Tree β d} (p : Path d), Indexed key d t → Indexed key d (updLeaf f d t p)
  | 0, _, _, _ => trivial
  | d + 1, t, p, ⟨hne, hgood⟩ => by
    refine ⟨fun h => hne ?_, fun e he => ?_⟩
    · have hlen := congrArg List.length h
      simp only [updLeaf, List.length_modify, List.length_nil] at hlen
      exact List.length_eq_zero_iff.mp hlen
    · obtain ⟨i, hi, rfl⟩ := List.getElem_of_mem he
      simp only [updLeaf, List.getElem_modify]
      have hold := hgood _ (List.getElem_mem (by simpa [updLeaf] using hi))
      split_ifs with hpi
      · exact ⟨updLeaf_indexed hf p.2 hold.1, (updLeaf_head hf d _ p.2).trans hold.2⟩
      · exact hold

theorem modify_head {g : β → β} (hg : ∀ b, key (g b) = key b) (bs : List β) (i : ℕ) :
    (bs.modify i g).head?.map key = bs.head?.map key := by
  cases bs <;> cases i <;> simp [hg]

/-- A rewrite that keeps the item's key keeps the tree indexed. -/
theorem updItem_indexed {g : β → β} (hg : ∀ b, key (g b) = key b) {d : ℕ} {t : Tree β d}
    (p : Path d) (hi : Indexed key d t) : Indexed key d (updItem g d t p) := by
  refine updLeaf_indexed (fun b i => ?_) p hi
  cases i with
  | none => rfl
  | some i => exact modify_head hg b.entries i

end search

end LinuxEvfs.Lib.IndexTree
