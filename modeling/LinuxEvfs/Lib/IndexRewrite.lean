import LinuxEvfs.Lib.IndexFrame

/-! # Rewriting a leaf with the keys above it

A leaf may be rewritten in such a way that its first item gets another key. Then the keys of the index entries above it
are corrected, as long as they are the first ones of their blocks.

* `At.leaf_at`: the leaf of a path and the position in it.
* `rewrite`: the rewriting; the keys are corrected when the path stands on the first item of the leaf.
* `At.rewrite_spec`: the items, and that the tree stays indexed if no other first key has changed. -/

namespace LinuxEvfs.Lib.IndexRewrite

open LinuxEvfs.Lib.IndexTree LinuxEvfs.Lib.IndexInsert LinuxEvfs.Lib.IndexFrame

variable {β : Type}

/-- The leaf of a path rewritten, and the key to which the index entries above are to be set. -/
def rewrite (key : β → ℕ) (f : Block β → Option ℕ → Block β) : (d : ℕ) → Tree β d → Path d → Tree β d × Option ℕ
  | 0, (t : Block β), (p : Option ℕ) => (f t p, if p = some 0 then (f t p).entries.head?.map key else none)
  | d + 1, (t : Block (ℕ × Tree β d)), (p : ℕ × Path d) =>
    match t.entries[p.1]? with
    | none => (t, none)
    | some (k, c) =>
      let r := rewrite key f d c p.2
      ({ t with entries := t.entries.set p.1 (r.2.getD k, r.1) }, if p.1 = 0 then r.2 else none)

/-- The leaf of a path, the position in it, and the items of the other leaves. -/
theorem At.leaf_at {b : β} : ∀ {d : ℕ} {t : Tree β d} {p : Path d} {l r : List β}, At d t p l (some b) r →
    ∃ lf l0 l1 r1 r0, leaf d t p = some lf ∧ Path.last d p = some l1.length ∧ lf.entries = l1 ++ b :: r1 ∧
      l = l0 ++ l1 ∧ r = r1 ++ r0 ∧ ∀ f, items d (updLeaf f d t p) = l0 ++ (f lf (some l1.length)).entries ++ r0
  | 0, t, p, l, r, ⟨he, hp, _⟩ => by
    subst hp
    exact ⟨t, [], l, r, [], rfl, rfl, by simpa using he, by simp, by simp, fun f => by simp [items, updLeaf]⟩
  | d + 1, t, p, l, r, ⟨es1, k, c, es2, l', r', he, hp, hc, hl, hr⟩ => by
    obtain ⟨lf, l0, l1, r1, r0, hleaf, hlast, hlf, hl', hr', hit⟩ := At.leaf_at hc
    have hget : t.entries[p.1]? = some (k, c) := by rw [he, hp]; simp
    refine ⟨lf, below d es1 ++ l0, l1, r1, r0 ++ below d es2, ?_, hlast, hlf, by rw [hl, hl', List.append_assoc],
      by rw [hr, hr', List.append_assoc], fun f => ?_⟩
    · simp only [leaf, hget]
      exact hleaf
    · change below d (t.entries.modify p.1 fun e => (e.1, updLeaf f d e.2 p.2)) = _
      rw [he, hp, modify_mid, below_append, below_cons, hit]
      simp only [List.append_assoc]

variable {key : β → ℕ} {f : Block β → Option ℕ → Block β} {a : β}

/-- **Rewriting the leaf of a path.** The first key of the tree is the one to which the entries above are set, or that
of before. -/
theorem At.rewrite_spec : ∀ {d : ℕ} {t : Tree β d} {p : Path d} {l r : List β},
    At d t p l (some a) r → Indexed key d t →
    ∃ lf l0 l1 r1 r0, leaf d t p = some lf ∧ Path.last d p = some l1.length ∧ lf.entries = l1 ++ a :: r1 ∧
      l = l0 ++ l1 ∧ r = r1 ++ r0 ∧
      items d (rewrite key f d t p).1 = l0 ++ (f lf (some l1.length)).entries ++ r0 ∧
      ((f lf (some l1.length)).entries ≠ [] →
        (l1 ≠ [] → (f lf (some l1.length)).entries.head?.map key = lf.entries.head?.map key) →
        Indexed key d (rewrite key f d t p).1 ∧
          (items d (rewrite key f d t p).1).head?.map key =
            (rewrite key f d t p).2.or ((items d t).head?.map key))
  | 0, t, p, l, r, ⟨he, hp, _⟩, _ => by
    have he' : t.entries = l ++ a :: r := by simpa using he
    subst hp
    refine ⟨t, [], l, r, [], rfl, rfl, he', by simp, by simp, by simp [rewrite, items], fun hne hhead => ⟨trivial, ?_⟩⟩
    by_cases hl : l = []
    · subst hl
      obtain ⟨x, xs, hx⟩ := List.exists_cons_of_ne_nil hne
      simp only [List.length_nil] at hx
      simp [rewrite, items, hx]
    · have h0 : l.length ≠ 0 := fun h0 => hl (List.length_eq_zero_iff.mp h0)
      have := hhead hl
      simpa [rewrite, items, h0] using this
  | d + 1, t, p, l, r, ⟨es1, k, c, es2, l', r', he, hp, hc, hl, hr⟩, ⟨hne, hgood⟩ => by
    have hent : Entries key d (es1 ++ (k, c) :: es2) := he ▸ hgood
    rw [entries_append, entries_cons] at hent
    obtain ⟨h1, ⟨hci, hcg⟩, h2⟩ := hent
    obtain ⟨lf, l0, l1, r1, r0, hleaf, hlast, hlf, hl', hr', hit, hrest⟩ := At.rewrite_spec hc hci
    have hget : t.entries[p.1]? = some (k, c) := by rw [he, hp]; simp
    have hres : rewrite key f (d + 1) t p = ({ t with entries := es1 ++
        ((rewrite key f d c p.2).2.getD k, (rewrite key f d c p.2).1) :: es2 },
        if p.1 = 0 then (rewrite key f d c p.2).2 else none) := by
      simp only [rewrite, hget]
      rw [he, hp, set_mid]
    refine ⟨lf, below d es1 ++ l0, l1, r1, r0 ++ below d es2, ?_, hlast, hlf, by rw [hl, hl', List.append_assoc],
      by rw [hr, hr', List.append_assoc], ?_, fun hnil hhead => ?_⟩
    · simp only [leaf, hget]
      exact hleaf
    · rw [hres]
      change below d (es1 ++ _ :: es2) = _
      rw [below_append, below_cons, hit]
      simp only [List.append_assoc]
    · obtain ⟨hi, hfirst⟩ := hrest hnil hhead
      rw [Good] at hcg
      have hkey : (items d (rewrite key f d c p.2).1).head?.map key = some ((rewrite key f d c p.2).2.getD k) := by
        rw [hfirst, hcg]
        cases (rewrite key f d c p.2).2 <;> rfl
      rw [hres]
      refine ⟨⟨by simp, ?_⟩, ?_⟩
      · exact entries_append.mpr ⟨h1, entries_cons.mpr ⟨⟨hi, hkey⟩, h2⟩⟩
      · change (below d (es1 ++ _ :: es2)).head?.map key = _
        have hold : items (d + 1) t = below d (es1 ++ (k, c) :: es2) := congrArg (below d) he
        rw [hold]
        cases es1 with
        | nil =>
          rw [List.length_nil] at hp
          rw [if_pos hp, List.nil_append, List.nil_append, below_cons, below_cons, List.head?_append, List.head?_append,
            Option.map_or, Option.map_or, hkey, hcg]
          cases (rewrite key f d c p.2).2 <;> rfl
        | cons e es1 =>
          have hp0 : ¬ p.1 = 0 := by rw [hp]; simp
          obtain ⟨x, hx, -⟩ := (h1 e List.mem_cons_self).2.mem
          obtain ⟨y, ys, hy⟩ := List.exists_cons_of_ne_nil (List.ne_nil_of_mem hx)
          rw [if_neg hp0, List.cons_append, List.cons_append, below_cons, below_cons, hy]
          simp

end LinuxEvfs.Lib.IndexRewrite
