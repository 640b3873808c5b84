import LinuxEvfs.Lib.IndexTree
import Mathlib.Tactic.Common

/-! # Insertion into an index tree

A new item `b` goes behind the item its path stands on. When the leaf is full it goes to the front of
the next leaf, if that has room; otherwise a new leaf is made: at the deepest index block with room
the path below is cut in two behind the item (`splitPath`, `cut`), and if no index block has room the
tree first gets a new root (`grow`). A new leaf behind the last item of its leaf is empty: the search
for `b` then ends in it, and `b` becomes its first item.

* `insertAt`: insertion at a path, with the keys of the index blocks above corrected while the
  position is the first of its block; `At.insertAt_eq` and `Slot.insertAt_eq` say what it does at an
  item and in an empty leaf.
* `Slot`: a tree with one empty leaf in which `b` belongs; `Slot.search_eq`: the search finds it. -/

namespace LinuxEvfs.Lib.IndexInsert

open LinuxEvfs.Lib.BinSearch LinuxEvfs.Lib.IndexTree

variable {β : Type}

section defs
variable (key : β → ℕ) (b : β) (bmax : ℕ)

/-- Insertion at a path: behind an item with a smaller key, before one with a larger key, or as the
only item of an empty leaf. The flag says that `b` is now the first item of the tree; the key of the
index entry above is then corrected. -/
def insertAt : (d : ℕ) → Tree β d → Path d → Tree β d × Bool
  | 0, (t : Block β), (p : Option ℕ) =>
    let i := match p, p.bind fun i => t.entries[i]? with
      | some i, some a => if key a < key b then i + 1 else i
      | _, _ => 0
    ({ t with entries := t.entries.insertIdx i b }, i == 0)
  | d + 1, (t : Block (ℕ × Tree β d)), (p : ℕ × Path d) =>
    match t.entries[p.1]? with
    | none => (t, false)
    | some (k, c) =>
      let r := insertAt d c p.2
      ({ t with entries := t.entries.set p.1 (if r.2 then key b else k, r.1) }, r.2 && p.1 == 0)

/-- Cutting a tree behind a path: what stays, and the new tree with its first key. -/
def cut : (d : ℕ) → Tree β d → Path d → Tree β d × ℕ × Tree β d
  | 0, (t : Block β), (p : Option ℕ) =>
    let i := p.elim 0 (· + 1)
    ({ t with entries := t.entries.take i }, (t.entries[i]?.map key).getD (key b),
      ({ cap := bmax, entries := t.entries.drop i } : Block β))
  | d + 1, (t : Block (ℕ × Tree β d)), (p : ℕ × Path d) =>
    match t.entries[p.1]? with
    | none => (t, key b, ({ cap := bmax, entries := [] } : Block (ℕ × Tree β d)))
    | some (k, c) =>
      let r := cut d c p.2
      ({ t with entries := t.entries.take p.1 ++ [(k, r.1)] }, r.2.1,
        ({ cap := bmax, entries := r.2 :: t.entries.drop (p.1 + 1) } : Block (ℕ × Tree β d)))

/-- The path is cut below the deepest index block with room, which gets an entry for the new tree.
`none`: every index block of the path is full. -/
def splitPath : (d : ℕ) → Tree β d → Path d → Option (Tree β d)
  | 0, _, _ => none
  | d + 1, (t : Block (ℕ × Tree β d)), (p : ℕ × Path d) =>
    match t.entries[p.1]? with
    | none => none
    | some (k, c) =>
      match splitPath d c p.2 with
      | some c' => some { t with entries := t.entries.set p.1 (k, c') }
      | none =>
        if t.entries.length < t.cap then
          let r := cut key b bmax d c p.2
          let i := if k < r.2.1 then p.1 + 1 else p.1
          some { t with entries := (t.entries.set p.1 (k, r.1)).insertIdx i r.2 }
        else none

/-- The key of the first entry of the top block. -/
def firstKey : (d : ℕ) → Tree β d → ℕ
  | 0, (t : Block β) => (t.entries.head?.map key).getD 0
  | _ + 1, (t : Block (ℕ × Tree β _)) => (t.entries.head?.map Prod.fst).getD 0

/-- The room of the top block. -/
def topCap : (d : ℕ) → Tree β d → ℕ
  | 0, (t : Block β) => t.cap
  | _ + 1, (t : Block (ℕ × Tree β _)) => t.cap

/-- The same top block with other room. -/
def recap (n : ℕ) : (d : ℕ) → Tree β d → Tree β d
  | 0, (t : Block β) => { t with cap := n }
  | _ + 1, (t : Block (ℕ × Tree β _)) => { t with cap := n }

/-- The top block moves to a block of its own under a new top block. -/
def grow (d : ℕ) (t : Tree β d) : Tree β (d + 1) :=
  ({ cap := topCap d t, entries := [(firstKey key d t, recap bmax d t)] } : Block (ℕ × Tree β d))

/-- The leaf of the path has no room. -/
def leafFull (d : ℕ) (t : Tree β d) (p : Path d) : Bool :=
  (leaf d t p).elim true fun lf => lf.cap ≤ lf.entries.length

/-- A new leaf for `b`: a cut, after one or more new roots if need be. -/
def newLeaf : ℕ → (d : ℕ) → Tree β d → Path d → (d : ℕ) × Tree β d
  | 0, d, t, _ => ⟨d, t⟩
  | n + 1, d, t, p =>
    match splitPath key b bmax d t p with
    | some t' => ⟨d, t'⟩
    | none =>
      let t1 := grow key bmax d t
      let p1 := search key (key b) (d + 1) t1
      if leafFull (d + 1) t1 p1 then newLeaf n (d + 1) t1 p1 else ⟨d + 1, t1⟩

/-- The first key of the leaf behind the one of the path. -/
def nextLeaf : (d : ℕ) → Tree β d → Path d → Option ℕ
  | 0, _, _ => none
  | d + 1, (t : Block (ℕ × Tree β d)), (p : ℕ × Path d) =>
    match t.entries[p.1]?.bind fun e => nextLeaf d e.2 p.2 with
    | some k => some k
    | none => t.entries[p.1 + 1]?.map Prod.fst

/-- The path to the leaf behind, when `b` belongs behind all items of the leaf of `p`. -/
def leafBehind (d : ℕ) (t : Tree β d) (p : Path d) : Option (Path d) :=
  if ((leaf d t p).bind fun lf => lf.entries.getLast?).elim false fun a => key a < key b then
    (nextLeaf d t p).map fun x => search key x d t
  else none

/-- Insertion into a tree, at the path of the item before it. -/
def insert (d : ℕ) (t : Tree β d) (p : Path d) : (d : ℕ) × Tree β d :=
  if leafFull d t p = false then ⟨d, (insertAt key b d t p).1⟩
  else
    match (leafBehind key b d t p).filter fun p' => !leafFull d t p' with
    | some p' => ⟨d, (insertAt key b d t p').1⟩
    | none =>
      let t' := newLeaf key b bmax 2 d t p
      ⟨t'.1, (insertAt key b t'.1 t'.2 (search key (key b) t'.1 t'.2)).1⟩

end defs

variable {key : β → ℕ} {b : β} {bmax : ℕ}

/-! ### Lists around a position -/

theorem set_mid {α : Type} (l : List α) (a a' : α) (r : List α) :
    (l ++ a :: r).set l.length a' = l ++ a' :: r := by simp

theorem insertIdx_mid {α : Type} (r : List α) (x : α) :
    ∀ l : List α, (l ++ r).insertIdx l.length x = l ++ x :: r
  | [] => by simp
  | y :: l => by simp [insertIdx_mid r x l]

theorem insertIdx_behind {α : Type} (l r : List α) (a x : α) :
    (l ++ a :: r).insertIdx (l.length + 1) x = l ++ a :: x :: r := by
  have h := insertIdx_mid r x (l ++ [a])
  simpa using h

/-! ### Entries of an indexed block -/

/-- Every entry of the list is over an indexed tree and has the key of its first item. -/
def Entries (key : β → ℕ) (d : ℕ) (es : List (ℕ × Tree β d)) : Prop :=
  ∀ e ∈ es, Indexed key d e.2 ∧ Good key d e

theorem entries_cons {d : ℕ} {e : ℕ × Tree β d} {es : List (ℕ × Tree β d)} :
    Entries key d (e :: es) ↔ (Indexed key d e.2 ∧ Good key d e) ∧ Entries key d es := by
  simp [Entries]

theorem entries_append {d : ℕ} {es1 es2 : List (ℕ × Tree β d)} :
    Entries key d (es1 ++ es2) ↔ Entries key d es1 ∧ Entries key d es2 :=
  List.forall_mem_append

theorem Entries.below_eq_nil {d : ℕ} {es : List (ℕ × Tree β d)} (h : Entries key d es) :
    below d es = [] ↔ es = [] := by
  cases es with
  | nil => simp [below_nil]
  | cons e es =>
    obtain ⟨a, ha, -⟩ := (h e (by simp)).2.mem
    simp only [below_cons, List.append_eq_nil_iff, reduceCtorEq, iff_false, not_and]
    intro h0
    simp [h0] at ha

theorem head_le {l : List β} {a : β} {k : ℕ} (hk : (l ++ [a]).head?.map key = some k)
    (hs : Sorted key (l ++ [a])) : k ≤ key a := by
  cases l with
  | nil => simp at hk; omega
  | cons x l =>
    have hk' : key x = k := by simpa using hk
    have := (sorted_append.mp hs).2.2 x (by simp) a (by simp)
    omega

/-! ### Insertion at an item -/

/-- **Insertion at an item** `a`: `b` stands behind it or before it, the tree stays indexed, and the
flag says whether `b` has become the first item. -/
theorem At.insertAt_eq {a : β} : ∀ {d : ℕ} {t : Tree β d} {p : Path d} {l r : List β},
    At d t p l (some a) r → Indexed key d t →
    Indexed key d (insertAt key b d t p).1 ∧
      items d (insertAt key b d t p).1 = l ++ (if key a < key b then [a, b] else [b, a]) ++ r ∧
      ((insertAt key b d t p).2 = true ↔ ¬ key a < key b ∧ l = [])
  | 0, t, p, l, r, ⟨he, hp, _⟩, _ => by
    subst hp
    have he' : t.entries = l ++ a :: r := by simpa using he
    refine ⟨trivial, ?_, ?_⟩
    · by_cases h : key a < key b
      · simp [insertAt, items, he', h, insertIdx_behind]
      · simp [insertAt, items, he', h, insertIdx_mid]
    · by_cases h : key a < key b <;> simp [insertAt, he', h]
  | d + 1, t, p, l, r, ⟨es1, k, c, es2, l', r', he, hp, hc, hl, hr⟩, ⟨_, hgood⟩ => by
    have hent : Entries key d (es1 ++ (k, c) :: es2) := he ▸ hgood
    rw [entries_append, entries_cons] at hent
    obtain ⟨h1, ⟨hci, hcg⟩, h2⟩ := hent
    obtain ⟨hi, hit, hflag⟩ := At.insertAt_eq hc hci
    have hget : t.entries[p.1]? = some (k, c) := by rw [he, hp]; simp
    have hres : insertAt key b (d + 1) t p = ({ t with entries := es1 ++
        (if (insertAt key b d c p.2).2 then key b else k, (insertAt key b d c p.2).1) :: es2 },
        (insertAt key b d c p.2).2 && p.1 == 0) := by
      simp only [insertAt, hget]
      rw [he, hp, set_mid]
    -- the key of the entry is that of its first item, new or old
    have hcg' : Good key d
        (if (insertAt key b d c p.2).2 then key b else k, (insertAt key b d c p.2).1) := by
      rw [Good, hit]
      by_cases hf : (insertAt key b d c p.2).2 = true
      · obtain ⟨hlt, rfl⟩ := hflag.mp hf
        simp [hlt, hf]
      · rw [Good, hc.items_eq] at hcg
        cases l' with
        | cons x l' => simpa [hf] using hcg
        | nil =>
          have hlt : key a < key b := by
            by_contra hlt
            exact hf (hflag.mpr ⟨hlt, rfl⟩)
          simpa [hf, hlt] using hcg
    rw [hres]
    refine ⟨⟨by simp, ?_⟩, ?_, ?_⟩
    · exact entries_append.mpr ⟨h1, entries_cons.mpr ⟨⟨hi, hcg'⟩, h2⟩⟩
    · change below d (es1 ++ _ :: es2) = _
      rw [below_append, below_cons, hit, hl, hr]
      simp only [List.append_assoc]
    · have hes1 : p.1 = 0 ↔ es1 = [] := by rw [hp]; exact List.length_eq_zero_iff
      simp only [Bool.and_eq_true, hflag, beq_iff_eq, hes1, hl, List.append_eq_nil_iff,
        h1.below_eq_nil]
      tauto

/-! ### An empty leaf -/

/-- A tree with one empty leaf, at the path `q`, in which `b` belongs: the items before it are `l`
and those behind it `r`, and all other entries are good. An entry over the empty leaf has the key of
the first item there will be below it. -/
def Slot (key : β → ℕ) (b : β) : (d : ℕ) → Tree β d → Path d → List β → List β → Prop
  | 0, (t : Block β), (q : Option ℕ), l, r => t.entries = [] ∧ q = none ∧ l = [] ∧ r = []
  | d + 1, (t : Block (ℕ × Tree β d)), (q : ℕ × Path d), l, r =>
    ∃ es1 k c es2 l' r', t.entries = es1 ++ (k, c) :: es2 ∧ q.1 = es1.length ∧
      Slot key b d c q.2 l' r' ∧ l = below d es1 ++ l' ∧ r = r' ++ below d es2 ∧
      Entries key d es1 ∧ Entries key d es2 ∧ (l' ++ [b]).head?.map key = some k

/-- The search for `b` ends in the empty leaf. -/
theorem Slot.search_eq : ∀ {d : ℕ} {t : Tree β d} {q : Path d} {l r : List β},
    Slot key b d t q l r → Sorted key (l ++ b :: r) → search key (key b) d t = q
  | 0, t, q, l, r, ⟨he, hq, _, _⟩, _ => by
    subst hq
    simp only [search, he]
    rfl
  | d + 1, t, q, l, r, ⟨es1, k, c, es2, l', r', he, hq, hc, hl, hr, h1, h2, hk⟩, hs => by
    rw [hl, hr] at hs
    have hs' : Sorted key (below d es1 ++ ((l' ++ b :: r') ++ below d es2)) := by
      simpa [List.append_assoc] using hs
    obtain ⟨hs1, hs23, h12⟩ := sorted_append.mp hs'
    obtain ⟨hsc, hs2, hc2⟩ := sorted_append.mp hs23
    -- the key of the entry is the least of its subtree with `b`
    obtain ⟨x, hx, hxk⟩ := Option.map_eq_some_iff.mp hk
    have hxmem : x ∈ l' ++ b :: r' := by
      have := List.mem_of_head? hx
      simp only [List.mem_append, List.mem_singleton] at this
      simp only [List.mem_append, List.mem_cons]
      tauto
    have hkb : k ≤ key b := head_le hk (hsc.sublist (by simp))
    have hlt1 : ∀ e ∈ es1, e.1 < k := fun e hee => by
      obtain ⟨y, hy, hyk⟩ := (h1 e hee).2.mem
      rw [← hyk, ← hxk]
      exact h12 y (List.mem_flatMap.mpr ⟨e, hee, hy⟩) x (List.mem_append_left _ hxmem)
    have hlt2 : ∀ e ∈ es2, key b < e.1 := fun e hee => by
      obtain ⟨y, hy, hyk⟩ := (h2 e hee).2.mem
      rw [← hyk]
      exact hc2 b (by simp) y (List.mem_flatMap.mpr ⟨e, hee, hy⟩)
    have hkeys : (es1 ++ (k, c) :: es2).Pairwise fun a b => a.1 ≤ b.1 := by
      refine List.pairwise_append.mpr ⟨?_, List.pairwise_cons.mpr ⟨?_, ?_⟩, ?_⟩
      · exact (good_keys (fun e he => (h1 e he).2) hs1).imp fun h => Nat.le_of_lt h
      · exact fun e hee => (Nat.lt_of_le_of_lt hkb (hlt2 e hee)).le
      · exact (good_keys (fun e he => (h2 e he).2) hs2).imp fun h => Nat.le_of_lt h
      · intro e hee e' hee'
        have hke := hlt1 e hee
        rcases List.mem_cons.mp hee' with rfl | hee'
        · exact hke.le
        · exact (Nat.lt_of_lt_of_le hke (hkb.trans (hlt2 e' hee').le)).le
    have hi : lastLe Prod.fst (key b) t.entries = es1.length := by
      rw [he]
      exact lastLe_eq hkeys hlt2 (Or.inl hkb)
    have hget : t.entries[lastLe Prod.fst (key b) t.entries]? = some (k, c) := by
      rw [hi, he]; simp
    simp only [search, hget]
    rw [hi, ← hq, hc.search_eq hsc]
    rfl

/-- **Insertion into the empty leaf.** -/
theorem Slot.insertAt_eq : ∀ {d : ℕ} {t : Tree β d} {q : Path d} {l r : List β},
    Slot key b d t q l r → Indexed key d (insertAt key b d t q).1 ∧
      items d (insertAt key b d t q).1 = l ++ b :: r ∧
      ((insertAt key b d t q).2 = true ↔ l = [])
  | 0, t, q, l, r, ⟨he, hq, hl, hr⟩ => by
    subst hq hl hr
    exact ⟨trivial, by simp [insertAt, items, he], by simp [insertAt]⟩
  | d + 1, t, q, l, r, ⟨es1, k, c, es2, l', r', he, hq, hc, hl, hr, h1, h2, hk⟩ => by
    obtain ⟨hi, hit, hflag⟩ := hc.insertAt_eq
    have hget : t.entries[q.1]? = some (k, c) := by rw [he, hq]; simp
    have hres : insertAt key b (d + 1) t q = ({ t with entries := es1 ++
        (if (insertAt key b d c q.2).2 then key b else k, (insertAt key b d c q.2).1) :: es2 },
        (insertAt key b d c q.2).2 && q.1 == 0) := by
      simp only [insertAt, hget]
      rw [he, hq, set_mid]
    have hcg : Good key d
        (if (insertAt key b d c q.2).2 then key b else k, (insertAt key b d c q.2).1) := by
      rw [Good, hit]
      cases l' with
      | nil => simp [hflag.mpr rfl]
      | cons x l' =>
        have hf : ¬ (insertAt key b d c q.2).2 = true := fun h => by simpa using hflag.mp h
        simpa [hf] using hk
    rw [hres]
    refine ⟨⟨by simp, ?_⟩, ?_, ?_⟩
    · exact entries_append.mpr ⟨h1, entries_cons.mpr ⟨⟨hi, hcg⟩, h2⟩⟩
    · change below d (es1 ++ _ :: es2) = _
      rw [below_append, below_cons, hit, hl, hr]
      simp only [List.append_assoc, List.cons_append]
    · have hes1 : q.1 = 0 ↔ es1 = [] := by rw [hq]; exact List.length_eq_zero_iff
      simp only [Bool.and_eq_true, hflag, beq_iff_eq, hes1, hl, List.append_eq_nil_iff,
        h1.below_eq_nil]
      tauto

end LinuxEvfs.Lib.IndexInsert
