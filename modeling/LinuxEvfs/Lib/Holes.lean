import Mathlib.Data.Nat.Find
import Mathlib.Data.Set.Basic
import Mathlib.Tactic.Common

/-! # Holes of a set of numbers

For a set `M` of natural numbers and a position `c` outside it: the next member behind `c`, and the
edge of the hole `c` lies in, that is the position behind the last member before `c`, or `c` itself
when there is no member before it.

* `Skip M c j`: the hole of `c` is `j` long, counted from its edge to the next member.
* `Exact M c`: `c` is a member, an edge, or before all members; then a skip from `c` ends at the next
  member (`Exact.next`). From elsewhere it ends behind it (`Skip.over`).
* `skip_unique`: there is one skip from a position.
* `Hops`: a chain of skips, on a circle of positions. -/

namespace LinuxEvfs.Lib.Holes

variable {M : Set ℕ} {c : ℕ}

/-- `N` is the next member behind `c`, which is none itself. -/
structure Next (M : Set ℕ) (c N : ℕ) : Prop where
  mem : N ∈ M
  lt : c < N
  free : ∀ x, c ≤ x → x < N → x ∉ M

/-- `E` is the edge of the hole of `c`. -/
structure Edge (M : Set ℕ) (c E : ℕ) : Prop where
  le : E ≤ c
  free : ∀ x, E ≤ x → x ≤ c → x ∉ M
  start : (∃ p ∈ M, p + 1 = E) ∨ (E = c ∧ ∀ x ∈ M, c < x)

/-- The hole of `c` is `j` long. -/
def Skip (M : Set ℕ) (c j : ℕ) : Prop := ∃ E N, Edge M c E ∧ Next M c N ∧ E + j = N

/-- `c` is a member, behind a member, or before all members. -/
def Exact (M : Set ℕ) (c : ℕ) : Prop := c ∈ M ∨ (∃ p ∈ M, p + 1 = c) ∨ ∀ x ∈ M, c ≤ x

theorem Next.unique {N N' : ℕ} (h : Next M c N) (h' : Next M c N') : N = N' := by
  rcases Nat.lt_trichotomy N N' with hlt | heq | hlt
  · exact absurd h.mem (h'.free N h.lt.le hlt)
  · exact heq
  · exact absurd h'.mem (h.free N' h'.lt.le hlt)

/-- The next member, where there is one. -/
theorem exists_next {L : ℕ} (hc : c ∉ M) (hL : L ∈ M) (hle : c ≤ L) : ∃ N, Next M c N ∧ N ≤ L := by
  classical
  have hex : ∃ N, c ≤ N ∧ N ∈ M := ⟨L, hle, hL⟩
  obtain ⟨h1, h2⟩ := Nat.find_spec hex
  have hne : Nat.find hex ≠ c := fun h => hc (h ▸ h2)
  exact ⟨Nat.find hex, ⟨h2, by omega, fun x hx hlt hmem => Nat.find_min hex hlt ⟨hx, hmem⟩⟩,
    Nat.find_min' hex ⟨hle, hL⟩⟩

/-- The member before an edge is below every other edge. -/
theorem Edge.le_of_edge {E E' : ℕ} (h : Edge M c E) (h' : Edge M c E') : E ≤ E' := by
  rcases h.start with ⟨p, hp, rfl⟩ | ⟨rfl, hall⟩
  · by_contra hlt
    exact h'.free p (by omega) (by have := h.le; omega) hp
  · rcases h'.start with ⟨p, hp, rfl⟩ | ⟨rfl, -⟩
    · have := hall p hp
      have := h'.le
      omega
    · exact Nat.le_refl _

theorem skip_unique {j j' : ℕ} (h : Skip M c j) (h' : Skip M c j') : j = j' := by
  obtain ⟨E, N, hE, hN, rfl⟩ := h
  obtain ⟨E', N', hE', hN', rfl⟩ := h'
  have := hN.unique hN'
  have := hE.le_of_edge hE'
  have := hE'.le_of_edge hE
  omega

theorem Skip.not_mem {j : ℕ} (h : Skip M c j) : c ∉ M := by
  obtain ⟨E, -, hE, -, -⟩ := h
  exact hE.free c hE.le (Nat.le_refl _)

/-- A skip goes at least to the next member. -/
theorem Skip.next_le {j : ℕ} (h : Skip M c j) : ∃ N, Next M c N ∧ N ≤ c + j ∧ j ≤ N := by
  obtain ⟨E, N, hE, hN, rfl⟩ := h
  have := hE.le
  exact ⟨E + j, hN, by omega, by omega⟩

theorem Skip.pos {j : ℕ} (h : Skip M c j) : 0 < j := by
  obtain ⟨N, hN, hle, -⟩ := h.next_le
  have := hN.lt
  omega

theorem Exact.edge {E : ℕ} (h : Exact M c) (hE : Edge M c E) : E = c := by
  have hnot := hE.free c hE.le (Nat.le_refl _)
  have hle := hE.le
  rcases h with h | ⟨p, hp, rfl⟩ | hall
  · exact absurd h hnot
  · by_contra hne
    exact hE.free p (by omega) (by omega) hp
  · rcases hE.start with ⟨p, hp, rfl⟩ | ⟨h, -⟩
    · have := hall p hp
      omega
    · exact h

/-- From an exact position a skip ends at the next member. -/
theorem Exact.next {j : ℕ} (h : Exact M c) (hs : Skip M c j) : Next M c (c + j) := by
  obtain ⟨E, N, hE, hN, rfl⟩ := hs
  obtain rfl := h.edge hE
  exact hN

/-- From any other position it ends behind it. -/
theorem Skip.over {j N : ℕ} (hs : Skip M c j) (h : ¬ Exact M c) (hN : Next M c N) : N < c + j := by
  obtain ⟨E, N', hE, hN', rfl⟩ := hs
  rw [hN.unique hN']
  have hne : E ≠ c := by
    rintro rfl
    refine h (.inr ?_)
    rcases hE.start with hp | ⟨-, hall⟩
    · exact .inl hp
    · exact .inr fun x hx => (hall x hx).le
  have := hE.le
  omega

theorem exact_of_mem (h : c ∈ M) : Exact M c := .inl h

theorem exact_of_pred {p : ℕ} (h : p ∈ M) : Exact M (p + 1) := .inr (.inl ⟨p, h, rfl⟩)

/-! ### Chains of skips -/

/-- `i` skips from `c` on, by `d` in all, on a circle of `W` positions; none of them starts at `e`. -/
inductive Hops (M : Set ℕ) (W e : ℕ) : ℕ → ℕ → ℕ → Prop
  | zero (c : ℕ) : Hops M W e 0 c 0
  | succ {i c j d : ℕ} (hc : c ≠ e) (hs : Skip M c j) (h : Hops M W e i ((c + j) % W) d) :
      Hops M W e (i + 1) c (j + d)

/-- From an exact position a chain goes to the next member at most, and so never back. -/
theorem Exact.hops_le {W e i d : ℕ} (h : Exact M c) (hM : ∀ x ∈ M, x < W) (hc : c < W)
    (hh : Hops M W e i c d) : c ≤ (c + d) % W := by
  cases hh with
  | zero => exact (Nat.mod_eq_of_lt hc).ge
  | succ _ hs hh =>
    have hn := h.next hs
    rw [Nat.mod_eq_of_lt (hM _ hn.mem)] at hh
    cases hh with
    | zero =>
      rw [Nat.add_zero, Nat.mod_eq_of_lt (hM _ hn.mem)]
      exact Nat.le_add_right _ _
    | succ _ hs' _ => exact absurd hn.mem hs'.not_mem

end LinuxEvfs.Lib.Holes
