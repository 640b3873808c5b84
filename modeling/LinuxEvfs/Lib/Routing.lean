import Mathlib.Data.List.Basic
import Mathlib.Data.List.TakeWhile
import Mathlib.Tactic.Common
import Mathlib.Algebra.Order.Ring.Nat

/-! # Leaves that are found by a key

Leaves in order, each with a bound. The keys of a leaf are not below its bound and below every later one, except
that a leaf whose bound is `k + 1` may hold the key `k` as well: such a leaf goes on with the key that the leaf before
it ends with.

* `Routed.mem_chain`: a key `h` is in the last leaf whose bound is not above `h`, or in one of the leaves right behind
  it that go on with `h`.
* `Routed.insert`, `Routed.split`: a key put where it is searched, and a leaf cut in two. -/

namespace LinuxEvfs.Lib.Routing

variable {B : Type} {keys keys' : B → List ℕ} {bef aft : List (ℕ × B)} {cur x : ℕ × B} {b nb : B} {h s m : ℕ}

/-- The leaves `l` are in order, and their keys where they belong. -/
structure Routed (keys : B → List ℕ) (l : List (ℕ × B)) : Prop where
  apart : l.Pairwise fun a b => a.1 ≤ b.1 ∧ ∀ k ∈ keys a.2, k < b.1
  above : ∀ a ∈ l, ∀ k ∈ keys a.2, a.1 ≤ k + 1

/-- The leaves that a search for `h` looks into: the leaf `cur` and those behind it that go on with `h`. -/
def chain (h : ℕ) (cur : ℕ × B) (aft : List (ℕ × B)) : List (ℕ × B) :=
  cur :: aft.takeWhile fun x => x.1 / 2 * 2 = h

theorem chain_nil : chain h cur [] = [cur] := rfl

theorem chain_go (hx : x.1 / 2 * 2 = h) : chain h cur (x :: aft) = cur :: chain h x aft := by
  rw [chain, List.takeWhile_cons_of_pos (by simpa using hx)]
  rfl

theorem chain_stop (hx : x.1 / 2 * 2 ≠ h) : chain h cur (x :: aft) = [cur] := by
  rw [chain, List.takeWhile_cons_of_neg (by simpa using hx)]

theorem Routed.ordered {l : List (ℕ × B)} (hr : Routed keys l) : l.Pairwise fun a b => a.1 ≤ b.1 :=
  hr.apart.imp And.left

/-- The keys of the leaves matter as a set. -/
theorem Routed.mono {l : List (ℕ × B)} (hr : Routed keys l) (h : ∀ x ∈ l, ∀ k ∈ keys' x.2, k ∈ keys x.2) :
    Routed keys' l := by
  refine ⟨?_, fun a ha k hk => hr.above a ha k (h a ha k hk)⟩
  exact hr.apart.imp_of_mem fun ha _ hab => ⟨hab.1, fun k hk => hab.2 k (h _ ha k hk)⟩

theorem mem_takeWhile_of_ordered {l : List (ℕ × B)} (hpos : ∀ y ∈ l, h < y.1)
    (ho : l.Pairwise fun a b => a.1 ≤ b.1) (heven : h % 2 = 0) (hx : x ∈ l) (hle : x.1 ≤ h + 1) :
    x ∈ l.takeWhile fun x => x.1 / 2 * 2 = h := by
  induction l with
  | nil => exact absurd hx List.not_mem_nil
  | cons y l ih =>
    rw [List.pairwise_cons] at ho
    have hy : y.1 ≤ h + 1 := by
      rcases List.mem_cons.mp hx with rfl | hx
      · exact hle
      · exact (ho.1 x hx).trans hle
    have hpos' := hpos y List.mem_cons_self
    have hcond : y.1 / 2 * 2 = h := by omega
    rw [List.takeWhile_cons_of_pos (by simpa using hcond)]
    rcases List.mem_cons.mp hx with rfl | hx
    · exact List.mem_cons_self
    · exact List.mem_cons_of_mem _ (ih (fun z hz => hpos z (List.mem_cons_of_mem _ hz)) ho.2 hx)

/-- **The search for a key** looks into every leaf that has it. -/
theorem Routed.mem_chain (hr : Routed keys (bef ++ cur :: aft)) (heven : h % 2 = 0) (hcur : cur.1 ≤ h)
    (haft : ∀ y ∈ aft, h < y.1) (hx : x ∈ bef ++ cur :: aft) (hk : h ∈ keys x.2) : x ∈ chain h cur aft := by
  have hap := List.pairwise_append.mp hr.apart
  rcases List.mem_append.mp hx with hb | hb
  · -- the keys of a leaf before end below the bound of `cur`
    have := (hap.2.2 x hb cur List.mem_cons_self).2 h hk
    omega
  rcases List.mem_cons.mp hb with rfl | ha
  · exact List.mem_cons_self
  · refine List.mem_cons_of_mem _ (mem_takeWhile_of_ordered haft ?_ heven ha (hr.above x hx h hk))
    exact (List.pairwise_cons.mp hap.2.1).2.imp And.left

/-- **A key put in** where it is searched for, or into a leaf behind that goes on with it. -/
theorem Routed.insert (hr : Routed keys (bef ++ (s, b) :: aft)) (hs : s ≤ h + 1) (haft : ∀ y ∈ aft, h < y.1)
    (hsame : ∀ y ∈ bef ++ aft, keys' y.2 = keys y.2) (hb : ∀ k ∈ keys' b, k = h ∨ k ∈ keys b) :
    Routed keys' (bef ++ (s, b) :: aft) := by
  simp only [List.forall_mem_append] at hsame
  obtain ⟨h1, h2, h3⟩ := List.pairwise_append.mp hr.apart
  obtain ⟨h4, h5⟩ := List.pairwise_cons.mp h2
  have hbef : ∀ a ∈ bef, ∀ k ∈ keys' a.2, k ∈ keys a.2 := fun a ha k hk => by rwa [hsame.1 a ha] at hk
  have haft' : ∀ a ∈ aft, ∀ k ∈ keys' a.2, k ∈ keys a.2 := fun a ha k hk => by rwa [hsame.2 a ha] at hk
  refine ⟨List.pairwise_append.mpr ⟨?_, List.pairwise_cons.mpr ⟨?_, ?_⟩, ?_⟩, ?_⟩
  · exact h1.imp_of_mem fun ha _ hab => ⟨hab.1, fun k hk => hab.2 k (hbef _ ha k hk)⟩
  · intro y hy
    refine ⟨(h4 y hy).1, fun k hk => ?_⟩
    rcases hb k hk with rfl | hk
    · exact haft y hy
    · exact (h4 y hy).2 k hk
  · exact h5.imp_of_mem fun ha _ hab => ⟨hab.1, fun k hk => hab.2 k (haft' _ ha k hk)⟩
  · exact fun a ha y hy => ⟨(h3 a ha y hy).1, fun k hk => (h3 a ha y hy).2 k (hbef a ha k hk)⟩
  · intro a ha k hk
    rcases List.mem_append.mp ha with ha' | ha'
    · exact hr.above a ha k (hbef a ha' k hk)
    rcases List.mem_cons.mp ha' with rfl | ha'
    · rcases hb k hk with rfl | hk
      · exact hs
      · exact hr.above _ ha k hk
    · exact hr.above a ha k (haft' a ha' k hk)

/-- **A leaf cut in two**: neither half is empty, and the bound of the second one is behind the keys of the first and
not behind its own by more than one. -/
theorem Routed.split (hr : Routed keys (bef ++ (s, b) :: aft)) (hsame : ∀ y ∈ bef ++ aft, keys' y.2 = keys y.2)
    (hb : ∀ k ∈ keys' b, k ∈ keys b ∧ k < m) (hnb : ∀ k ∈ keys' nb, k ∈ keys b ∧ m ≤ k + 1)
    (hne : keys' b ≠ []) (hne' : keys' nb ≠ []) : Routed keys' (bef ++ (s, b) :: (m, nb) :: aft) := by
  simp only [List.forall_mem_append] at hsame
  obtain ⟨h1, h2, h3⟩ := List.pairwise_append.mp hr.apart
  obtain ⟨h4, h5⟩ := List.pairwise_cons.mp h2
  have hmem : (s, b) ∈ bef ++ (s, b) :: aft := by simp
  obtain ⟨k₁, hk₁⟩ := List.exists_mem_of_ne_nil _ hne
  obtain ⟨k₂, hk₂⟩ := List.exists_mem_of_ne_nil _ hne'
  -- the new bound lies between the bound of the leaf and the next one
  have hsm : s ≤ m := (hr.above _ hmem k₁ (hb k₁ hk₁).1).trans (hb k₁ hk₁).2
  have hmaft : ∀ y ∈ aft, m ≤ y.1 := fun y hy => (hnb k₂ hk₂).2.trans ((h4 y hy).2 k₂ (hnb k₂ hk₂).1)
  have hbef : ∀ a ∈ bef, ∀ k ∈ keys' a.2, k ∈ keys a.2 := fun a ha k hk => by rwa [hsame.1 a ha] at hk
  have haft' : ∀ a ∈ aft, ∀ k ∈ keys' a.2, k ∈ keys a.2 := fun a ha k hk => by rwa [hsame.2 a ha] at hk
  have hlow : ∀ a ∈ bef, ∀ y, y = (s, b) ∨ y = (m, nb) ∨ y ∈ aft → a.1 ≤ y.1 ∧ ∀ k ∈ keys' a.2, k < y.1 := by
    rintro a ha y (rfl | rfl | hy)
    · exact ⟨(h3 a ha _ List.mem_cons_self).1, fun k hk => (h3 a ha _ List.mem_cons_self).2 k (hbef a ha k hk)⟩
    · have := h3 a ha _ List.mem_cons_self
      exact ⟨this.1.trans hsm, fun k hk => lt_of_lt_of_le (this.2 k (hbef a ha k hk)) hsm⟩
    · have := h3 a ha y (List.mem_cons_of_mem _ hy)
      exact ⟨this.1, fun k hk => this.2 k (hbef a ha k hk)⟩
  refine ⟨List.pairwise_append.mpr ⟨?_, List.pairwise_cons.mpr ⟨?_, List.pairwise_cons.mpr ⟨?_, ?_⟩⟩, ?_⟩, ?_⟩
  · exact h1.imp_of_mem fun ha _ hab => ⟨hab.1, fun k hk => hab.2 k (hbef _ ha k hk)⟩
  · intro y hy
    rcases List.mem_cons.mp hy with rfl | hy
    · exact ⟨hsm, fun k hk => (hb k hk).2⟩
    · exact ⟨(h4 y hy).1, fun k hk => (h4 y hy).2 k (hb k hk).1⟩
  · exact fun y hy => ⟨hmaft y hy, fun k hk => (h4 y hy).2 k (hnb k hk).1⟩
  · exact h5.imp_of_mem fun ha _ hab => ⟨hab.1, fun k hk => hab.2 k (haft' _ ha k hk)⟩
  · intro a ha y hy
    exact hlow a ha y (by simpa using hy)
  · intro a ha k hk
    rcases List.mem_append.mp ha with ha | ha
    · exact hr.above a (by simp [ha]) k (hbef a ha k hk)
    rcases List.mem_cons.mp ha with rfl | ha
    · exact hr.above _ hmem k (hb k hk).1
    rcases List.mem_cons.mp ha with rfl | ha
    · exact (hnb k hk).2
    · exact hr.above a (by simp [ha]) k (haft' a ha k hk)

end LinuxEvfs.Lib.Routing
