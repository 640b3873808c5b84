import LinuxEvfs.Lib.IndexInsert

/-! # New leaves in an index tree

Where there is no room for an item in its leaf: the cut of a path in two, and the new root.

* `At.cut_eq`, `At.splitPath_eq`: the two halves of a cut, and the tree with both.
* `newLeaf_ready`: a new leaf keeps the items; `newLeaf_rounds`: two rounds are enough to make it.
* `insert_spec`: the items of the new tree, for every way the insertion can go. -/

namespace LinuxEvfs.Lib.IndexInsert

open LinuxEvfs.Lib.BinSearch LinuxEvfs.Lib.IndexTree

variable {β : Type} {key : β → ℕ} {b : β} {bmax : ℕ}

/-! ### Cutting a path -/

/-- An entry for a new tree with the items `r`: good, or over an empty first leaf for `b`. -/
def Fresh (key : β → ℕ) (b : β) (d : ℕ) (e : ℕ × Tree β d) (r : List β) : Prop :=
  ((Indexed key d e.2 ∧ Good key d e) ∧ items d e.2 = r) ∨
    (e.1 = key b ∧ ∃ q, Slot key b d e.2 q [] r)

/-- A tree with the items `l` and `r`, indexed or up to an empty leaf for `b` between them. -/
def Ready (key : β → ℕ) (b : β) (d : ℕ) (t : Tree β d) (l r : List β) : Prop :=
  (Indexed key d t ∧ items d t = l ++ r) ∨ ∃ q, Slot key b d t q l r

/-- **The two halves of a cut.** -/
theorem At.cut_eq {a : β} (b : β) (bmax : ℕ) : ∀ {d : ℕ} {t : Tree β d} {p : Path d} {l r : List β},
    At d t p l (some a) r → Indexed key d t →
    Indexed key d (cut key b bmax d t p).1 ∧ items d (cut key b bmax d t p).1 = l ++ [a] ∧
      Fresh key b d (cut key b bmax d t p).2 r
  | 0, t, p, l, r, ⟨he, hp, _⟩, _ => by
    subst hp
    have he' : t.entries = (l ++ [a]) ++ r := by simpa using he
    have htake : t.entries.take (l.length + 1) = l ++ [a] := by
      rw [he']; exact List.take_left' (by simp)
    have hdrop : t.entries.drop (l.length + 1) = r := by
      rw [he']; exact List.drop_left' (by simp)
    refine ⟨trivial, htake, ?_⟩
    cases r with
    | nil => exact .inr ⟨by simp [cut, he'], none, hdrop, rfl, rfl, rfl⟩
    | cons c r => exact .inl ⟨⟨trivial, by simp [cut, Good, items, he']⟩, hdrop⟩
  | d + 1, t, p, l, r, ⟨es1, k, c, es2, l', r', he, hp, hc, hl, hr⟩, ⟨_, hgood⟩ => by
    have hent : Entries key d (es1 ++ (k, c) :: es2) := he ▸ hgood
    rw [entries_append, entries_cons] at hent
    obtain ⟨h1, ⟨hci, hcg⟩, h2⟩ := hent
    obtain ⟨hi, hit, hfresh⟩ := At.cut_eq b bmax hc hci
    have hget : t.entries[p.1]? = some (k, c) := by rw [he, hp]; simp
    have hres : cut key b bmax (d + 1) t p =
        ({ t with entries := es1 ++ [(k, (cut key b bmax d c p.2).1)] },
          (cut key b bmax d c p.2).2.1,
          ({ cap := bmax, entries := (cut key b bmax d c p.2).2 :: es2 } :
            Block (ℕ × Tree β d))) := by
      have htake : t.entries.take p.1 = es1 := by rw [he, hp]; simp
      have hdrop : t.entries.drop (p.1 + 1) = es2 := by rw [he, hp]; simp
      simp only [cut, hget]
      rw [htake, hdrop]
      rfl
    have hcg' : Good key d (k, (cut key b bmax d c p.2).1) := by
      rw [Good, hc.items_eq] at hcg
      rw [Good, hit]
      cases l' <;> simpa using hcg
    rw [hres]
    refine ⟨⟨by simp, ?_⟩, ?_, ?_⟩
    · exact entries_append.mpr ⟨h1, entries_cons.mpr ⟨⟨hi, hcg'⟩, by simp [Entries]⟩⟩
    · change below d (es1 ++ [_]) = _
      rw [below_append, below_cons, hit, hl, below_nil]
      simp
    · rcases hfresh with ⟨hg, hitr⟩ | ⟨hk, q, hq⟩
      · have hbelow : below d ((cut key b bmax d c p.2).2 :: es2) = r := by
          rw [below_cons, hitr, hr]
        refine .inl ⟨⟨⟨by simp, entries_cons.mpr ⟨hg, h2⟩⟩, ?_⟩, hbelow⟩
        change (below d ((cut key b bmax d c p.2).2 :: es2)).head?.map key = _
        obtain ⟨x, hx, hxk⟩ := Option.map_eq_some_iff.mp hg.2
        rw [below_cons, List.head?_append, hx]
        simp [hxk]
      · exact .inr ⟨hk, (0, q), [], _, _, es2, [], r', rfl, rfl, hq, rfl, hr, by simp [Entries], h2,
          by simp [hk]⟩

/-- **A split path** keeps the items, up to the empty leaf of a cut at the end of a leaf. -/
theorem At.splitPath_eq {a : β} : ∀ {d : ℕ} {t t' : Tree β d} {p : Path d} {l r : List β},
    At d t p l (some a) r → Indexed key d t → Sorted key (l ++ a :: b :: r) →
    splitPath key b bmax d t p = some t' → Ready key b d t' (l ++ [a]) r
  | 0, _, _, _, _, _, _, _, _, h => by simp [splitPath] at h
  | d + 1, t, t', p, l, r, ⟨es1, k, c, es2, l', r', he, hp, hc, hl, hr⟩, ⟨_, hgood⟩, hs, h => by
    have hent : Entries key d (es1 ++ (k, c) :: es2) := he ▸ hgood
    rw [entries_append, entries_cons] at hent
    obtain ⟨h1, ⟨hci, hcg⟩, h2⟩ := hent
    have hget : t.entries[p.1]? = some (k, c) := by rw [he, hp]; simp
    have hs' : Sorted key (l' ++ a :: b :: r') := by
      rw [hl, hr] at hs
      refine hs.sublist ?_
      simp
    have hka : (l' ++ [a]).head?.map key = some k := by
      rw [Good, hc.items_eq] at hcg
      cases l' <;> simpa using hcg
    simp only [splitPath, hget] at h
    cases hsp : splitPath key b bmax d c p.2 with
    | some c' =>
      rw [hsp, he, hp] at h
      simp only [set_mid] at h
      obtain rfl := Option.some.inj h
      rcases At.splitPath_eq hc hci hs' hsp with ⟨hi, hit⟩ | ⟨q, hq⟩
      · refine .inl ⟨⟨by simp, entries_append.mpr ⟨h1, entries_cons.mpr ⟨⟨hi, ?_⟩, h2⟩⟩⟩, ?_⟩
        · rw [Good, hit]
          cases l' <;> simpa using hka
        · change below d (es1 ++ _ :: es2) = _
          rw [below_append, below_cons, hit, hl, hr]
          simp
      · refine .inr ⟨(es1.length, q), es1, k, c', es2, _, _, rfl, rfl, hq, ?_, hr, h1, h2, ?_⟩
        · rw [hl, List.append_assoc]
        · cases l' <;> simpa using hka
    | none =>
      rw [hsp] at h
      simp only at h
      by_cases hroom : t.entries.length < t.cap
      · rw [if_pos hroom] at h
        obtain ⟨hi, hit, hfresh⟩ := At.cut_eq b bmax hc hci
        have hcg' : Good key d (k, (cut key b bmax d c p.2).1) := by rw [Good, hit, hka]
        -- the new tree's key is above `a`, and `a` is not below the old one's
        have hborder : k < (cut key b bmax d c p.2).2.1 := by
          have hka' : k ≤ key a := head_le hka (hs'.sublist (by simp))
          have hab : ∀ x ∈ b :: r', key a < key x := by
            have := (sorted_append.mp hs').2.1
            exact (List.pairwise_cons.mp this).1
          rcases hfresh with ⟨hg, hitr⟩ | ⟨hk, -⟩
          · obtain ⟨x, hx, hxk⟩ := hg.2.mem
            rw [← hxk]
            exact Nat.lt_of_le_of_lt hka' (hab x (by rw [hitr] at hx; simp [hx]))
          · rw [hk]
            exact Nat.lt_of_le_of_lt hka' (hab b (by simp))
        rw [if_pos hborder, he, hp, set_mid, insertIdx_behind] at h
        obtain rfl := Option.some.inj h
        rcases hfresh with ⟨hg, hitr⟩ | ⟨hk, q, hq⟩
        · refine .inl ⟨⟨by simp, entries_append.mpr ⟨h1, entries_cons.mpr ⟨⟨hi, hcg'⟩,
            entries_cons.mpr ⟨hg, h2⟩⟩⟩⟩, ?_⟩
          change below d (es1 ++ _ :: _ :: es2) = _
          rw [below_append, below_cons, below_cons, hit, hitr, hl, hr]
          simp
        · refine .inr ⟨(es1.length + 1, q), es1 ++ [(k, (cut key b bmax d c p.2).1)],
            (cut key b bmax d c p.2).2.1, _, es2, [], r', by simp, by simp, hq, ?_, hr,
            entries_append.mpr ⟨h1, ?_⟩, h2, by simp [hk]⟩
          · rw [below_append, below_cons, hit, below_nil, hl]
            simp
          · exact entries_cons.mpr ⟨⟨hi, hcg'⟩, by simp [Entries]⟩
      · rw [if_neg hroom] at h
        simp at h

/-! ### Growing -/

theorem recap_items (n : ℕ) : ∀ (d : ℕ) (t : Tree β d), items d (recap n d t) = items d t
  | 0, _ => rfl
  | _ + 1, _ => rfl

theorem recap_indexed (n : ℕ) : ∀ {d : ℕ} {t : Tree β d}, Indexed key d t →
    Indexed key d (recap n d t)
  | 0, _, _ => trivial
  | _ + 1, _, h => h

theorem head_eq_firstKey : ∀ {d : ℕ} {t : Tree β d}, Indexed key d t → items d t ≠ [] →
    (items d t).head?.map key = some (firstKey key d t)
  | 0, t, _, hne => by
    change t.entries ≠ [] at hne
    obtain ⟨a, l, h⟩ := List.exists_cons_of_ne_nil hne
    simp [items, firstKey, h]
  | d + 1, t, ⟨hne, hgood⟩, _ => by
    obtain ⟨e, es, h⟩ := List.exists_cons_of_ne_nil hne
    obtain ⟨x, hx, hxk⟩ := Option.map_eq_some_iff.mp (hgood e (by rw [h]; simp)).2
    change (below d t.entries).head?.map key = _
    rw [h, below_cons, List.head?_append, hx]
    simp [firstKey, h, hxk]

theorem grow_items (d : ℕ) (t : Tree β d) : items (d + 1) (grow key bmax d t) = items d t := by
  change below d [_] = _
  rw [below_cons, below_nil, recap_items, List.append_nil]

theorem grow_indexed {d : ℕ} {t : Tree β d} (hi : Indexed key d t) (hne : items d t ≠ []) :
    Indexed key (d + 1) (grow key bmax d t) := by
  refine ⟨by simp [grow], fun e he => ?_⟩
  obtain rfl : e = (firstKey key d t, recap bmax d t) := by simpa [grow] using he
  refine ⟨recap_indexed bmax hi, ?_⟩
  rw [Good, recap_items, head_eq_firstKey hi hne]

theorem splitPath_ne_none {d : ℕ} {t : Tree β (d + 1)} {p : Path (d + 1)} {e : ℕ × Tree β d}
    (he : t.entries[p.1]? = some e) (hroom : t.entries.length < t.cap) :
    splitPath key b bmax (d + 1) t p ≠ none := by
  simp only [splitPath]
  rw [he]
  simp only
  cases splitPath key b bmax d e.2 p.2 with
  | some c' => exact Option.some_ne_none _
  | none =>
    simp only
    rw [if_pos hroom]
    exact Option.some_ne_none _

/-- After one new root the path can be split, so two rounds make the new leaf. -/
theorem newLeaf_rounds {d : ℕ} {t : Tree β d} (hcap : 1 < topCap d t) (p : Path d) (n : ℕ) :
    newLeaf key b bmax (n + 2) d t p = newLeaf key b bmax 2 d t p := by
  have h0 : lastLe Prod.fst (key b) [(firstKey key d t, recap bmax d t)] = 0 :=
    lastLe_eq (l := []) (by simp) (by simp) (.inr rfl)
  have hne : splitPath key b bmax (d + 1) (grow key bmax d t)
      (search key (key b) (d + 1) (grow key bmax d t)) ≠ none := by
    refine splitPath_ne_none (e := (firstKey key d t, recap bmax d t)) ?_ (by simpa [grow] using hcap)
    change [(firstKey key d t, recap bmax d t)][lastLe Prod.fst (key b)
      [(firstKey key d t, recap bmax d t)]]? = _
    rw [h0]
    rfl
  obtain ⟨t', ht'⟩ := Option.ne_none_iff_exists'.mp hne
  rw [newLeaf, newLeaf]
  cases splitPath key b bmax d t p with
  | some t' => rfl
  | none =>
    simp only
    rw [newLeaf, newLeaf, ht']

/-- **A new leaf** for `b` keeps the items. -/
theorem newLeaf_ready {a : β} (bmax : ℕ) : ∀ (n : ℕ) {d : ℕ} {t : Tree β d} {p : Path d} {l r : List β},
    At d t p l (some a) r → Indexed key d t → Sorted key (l ++ a :: b :: r) →
    Ready key b (newLeaf key b bmax n d t p).1 (newLeaf key b bmax n d t p).2 (l ++ [a]) r
  | 0, d, t, p, l, r, hat, hi, _ => .inl ⟨hi, by rw [newLeaf, hat.items_eq]; simp⟩
  | n + 1, d, t, p, l, r, hat, hi, hs => by
    rw [newLeaf]
    cases hsp : splitPath key b bmax d t p with
    | some t' => exact At.splitPath_eq hat hi hs hsp
    | none =>
      have hit : items (d + 1) (grow key bmax d t) = l ++ a :: r := by
        rw [grow_items, hat.items_eq]; simp
      have hi1 : Indexed key (d + 1) (grow key bmax d t) :=
        grow_indexed hi (by rw [hat.items_eq]; simp)
      have hlt : key a < key b ∧ ∀ c ∈ r, key b < key c := by
        have h := List.pairwise_cons.mp (sorted_append.mp hs).2.1
        exact ⟨h.1 b (by simp), (List.pairwise_cons.mp h.2).1⟩
      have hs1 : Sorted key (items (d + 1) (grow key bmax d t)) := by
        rw [hit]
        exact hs.sublist (by simp)
      have hat1 := search_eq hi1 hs1 hit hlt.2 (.inl hlt.1.le)
      simp only
      by_cases hfull : leafFull (d + 1) (grow key bmax d t)
          (search key (key b) (d + 1) (grow key bmax d t)) = true
      · rw [if_pos hfull]
        exact newLeaf_ready bmax n hat1 hi1 hs
      · rw [if_neg hfull]
        exact .inl ⟨hi1, by rw [hit]; simp⟩

/-! ### The insertion -/

/-- The leaf of a path, and the key behind it. -/
theorem At.nextLeaf_eq {a : β} : ∀ {d : ℕ} {t : Tree β d} {p : Path d} {l r : List β},
    At d t p l (some a) r → Indexed key d t → ∃ lf l1 r1 r0, leaf d t p = some lf ∧
      lf.entries = l1 ++ a :: r1 ∧ r = r1 ++ r0 ∧ nextLeaf d t p = r0.head?.map key
  | 0, t, p, l, r, ⟨he, _, _⟩, _ => ⟨t, l, r, [], rfl, by simpa using he, by simp, rfl⟩
  | d + 1, t, p, l, r, ⟨es1, k, c, es2, l', r', he, hp, hc, _, hr⟩, ⟨_, hgood⟩ => by
    have h1 : t.entries[p.1]? = some (k, c) := by rw [he, hp]; simp
    have h2 : t.entries[p.1 + 1]? = es2.head? := by rw [he, hp]; cases es2 <;> simp
    have hci := (hgood (k, c) (by rw [he]; simp)).1
    obtain ⟨lf, l1, r1, r0, hlf, hent, rfl, hn⟩ := At.nextLeaf_eq hc hci
    refine ⟨lf, l1, r1, r0 ++ below d es2, ?_, hent, by rw [hr, List.append_assoc], ?_⟩
    · simp only [leaf]
      rw [h1]
      exact hlf
    · simp only [nextLeaf]
      rw [h1, h2, Option.bind_some, hn]
      cases r0 with
      | cons x r0 => rfl
      | nil =>
        cases es2 with
        | nil => rfl
        | cons e es2 =>
          obtain ⟨x, hx, hxk⟩ := Option.map_eq_some_iff.mp (hgood e (by rw [he]; simp)).2
          rw [List.nil_append, below_cons, List.head?_append, hx]
          simp [hxk]

/-- A leaf behind the path starts with the item that follows. -/
theorem leafBehind_eq {a : β} {d : ℕ} {t : Tree β d} {p p' : Path d} {l r : List β}
    (hat : At d t p l (some a) r) (hi : Indexed key d t) (hs : Sorted key (l ++ a :: b :: r))
    (h : leafBehind key b d t p = some p') :
    ∃ c r', r = c :: r' ∧ At d t p' (l ++ [a]) (some c) r' := by
  obtain ⟨lf, l1, r1, r0, hlf, hent, hr, hn⟩ := At.nextLeaf_eq hat hi
  have hb := (List.pairwise_cons.mp (List.pairwise_cons.mp (sorted_append.mp hs).2.1).2).1
  unfold leafBehind at h
  rw [hlf] at h
  split_ifs at h with hlast
  -- `b` is before all items behind `a`, so none of them is in the leaf
  have hr1 : r1 = [] := by
    by_contra hne
    obtain ⟨r2, x, rfl⟩ := List.eq_nil_or_concat r1 |>.resolve_left hne
    have hx := hb x (by rw [hr]; simp)
    have hl : lf.entries.getLast? = some x := by
      rw [hent, List.concat_eq_append, ← List.cons_append, ← List.append_assoc]
      exact List.getLast?_concat
    rw [Option.bind_some, hl] at hlast
    simp only [Option.elim_some, decide_eq_true_eq] at hlast
    omega
  subst hr1
  rw [List.nil_append] at hr
  subst hr
  rw [hn] at h
  cases r with
  | nil => simp at h
  | cons c r' =>
    have hp' : search key (key c) d t = p' := by simpa using h
    have hit : items d t = (l ++ [a]) ++ c :: r' := by rw [hat.items_eq]; simp
    have hs' : Sorted key (items d t) := by rw [hit]; exact hs.sublist (by simp)
    refine ⟨c, r', rfl, hp' ▸ search_eq hi hs' hit ?_ (.inl (Nat.le_refl _))⟩
    rw [hit] at hs'
    exact (List.pairwise_cons.mp (sorted_append.mp hs').2.1).1

/-- **The insertion** puts `b` between `a` and the items behind it. -/
theorem insert_spec {a : β} (bmax : ℕ) {d : ℕ} {t : Tree β d} {p : Path d} {l r : List β}
    (hat : At d t p l (some a) r) (hi : Indexed key d t) (hs : Sorted key (l ++ a :: b :: r)) :
    Indexed key (insert key b bmax d t p).1 (insert key b bmax d t p).2 ∧
      items (insert key b bmax d t p).1 (insert key b bmax d t p).2 = l ++ a :: b :: r := by
  have hlt : key a < key b ∧ ∀ c ∈ r, key b < key c := by
    have h := List.pairwise_cons.mp (sorted_append.mp hs).2.1
    exact ⟨h.1 b (by simp), (List.pairwise_cons.mp h.2).1⟩
  unfold insert
  by_cases hfull : leafFull d t p = false
  · rw [if_pos hfull]
    obtain ⟨h1, h2, -⟩ := At.insertAt_eq (b := b) hat hi
    exact ⟨h1, by rw [h2, if_pos hlt.1]; simp⟩
  · rw [if_neg hfull]
    cases hn : (leafBehind key b d t p).filter fun p' => !leafFull d t p' with
    | some p' =>
      obtain ⟨c, r', rfl, hat'⟩ := leafBehind_eq hat hi hs (Option.mem_filter_iff.mp hn).1
      obtain ⟨h1, h2, -⟩ := At.insertAt_eq (b := b) hat' hi
      have hnot : ¬ key c < key b := by have := hlt.2 c (by simp); omega
      exact ⟨h1, by rw [h2, if_neg hnot]; simp⟩
    | none =>
      simp only
      rcases newLeaf_ready bmax 2 hat hi hs with ⟨hi', hit⟩ | ⟨q, hq⟩
      · have hs' : Sorted key (l ++ a :: r) := hs.sublist (by simp)
        rw [List.append_assoc, List.singleton_append] at hit
        have hat' := search_eq hi' (hit ▸ hs') hit hlt.2 (.inl hlt.1.le)
        obtain ⟨h1, h2, -⟩ := At.insertAt_eq (b := b) hat' hi'
        exact ⟨h1, by rw [h2, if_pos hlt.1]; simp⟩
      · rw [hq.search_eq (by simpa using hs)]
        obtain ⟨h1, h2, -⟩ := hq.insertAt_eq
        exact ⟨h1, by rw [h2]; simp⟩

end LinuxEvfs.Lib.IndexInsert
