import Mathlib.Order.Bounds.Basic
import Mathlib.Tactic.Common

/-! # Scans

* `scan p n a`: the first of the `n` numbers from `a` on with the property `p`, or the number behind them.
* `Enumerates S a l`: `l` are the members of `S` from `a` on, in ascending order. To go on behind the least of them
  gives them all (`Enumerates.cons`). -/

namespace LinuxEvfs.Lib.Scan

/-! ### One scan -/

def scan (p : ℕ → Bool) : ℕ → ℕ → ℕ
  | 0, a => a
  | n + 1, a => if p a then a else scan p n (a + 1)

/-- What a scan promises. -/
structure ScanOK (p : ℕ → Bool) (n a k : ℕ) : Prop where
  ge : a ≤ k
  le : k ≤ a + n
  before : ∀ i, a ≤ i → i < k → p i = false
  hit : k < a + n → p k = true

theorem scan_ok (p : ℕ → Bool) (n : ℕ) : ∀ a, ScanOK p n a (scan p n a) := by
  induction n with
  | zero => exact fun a => ⟨Nat.le_refl _, Nat.le_refl _, fun i h1 h2 => by simp only [scan] at h2; omega,
      fun h => absurd h (Nat.lt_irrefl _)⟩
  | succ n ih =>
    intro a
    unfold scan
    cases hp : p a with
    | true =>
      exact ⟨Nat.le_refl _, Nat.le_add_right .., fun i h1 h2 => by simp only [if_true] at h2; omega, fun _ => hp⟩
    | false =>
      obtain ⟨hge, hle, hbefore, hhit⟩ := ih (a + 1)
      simp only [Bool.false_eq_true, if_false]
      refine ⟨by omega, by omega, fun i h1 h2 => ?_, fun h => hhit (by omega)⟩
      rcases Nat.eq_or_lt_of_le h1 with rfl | h1
      · exact hp
      · exact hbefore i h1 h2

theorem scan_succ_of_not {p : ℕ → Bool} {a : ℕ} (h : p a = false) (n : ℕ) : scan p (n + 1) a = scan p n (a + 1) := by
  rw [scan, h, if_neg Bool.false_ne_true]

theorem scan_succ_of {p : ℕ → Bool} {a : ℕ} (h : p a = true) (n : ℕ) : scan p (n + 1) a = a := by
  rw [scan, if_pos h]

/-! ### All members of a set -/

variable {S : Set ℕ} {a k : ℕ} {l : List ℕ}

structure Enumerates (S : Set ℕ) (a : ℕ) (l : List ℕ) : Prop where
  ascending : l.Pairwise (· < ·)
  mem_iff : ∀ i, i ∈ l ↔ i ∈ S ∧ a ≤ i

theorem Enumerates.nil (h : ∀ i ∈ S, ¬ a ≤ i) : Enumerates S a [] :=
  ⟨List.Pairwise.nil, fun i => iff_of_false List.not_mem_nil fun hi => h i hi.1 hi.2⟩

/-- Behind the least member come the others. -/
theorem Enumerates.cons (hk : IsLeast {i | i ∈ S ∧ a ≤ i} k) (h : Enumerates S (k + 1) l) :
    Enumerates S a (k :: l) where
  ascending := List.pairwise_cons.mpr ⟨fun i hi => ((h.mem_iff i).mp hi).2, h.ascending⟩
  mem_iff i := by
    rw [List.mem_cons, h.mem_iff]
    constructor
    · rintro (rfl | ⟨hi, hki⟩)
      · exact hk.1
      · exact ⟨hi, hk.1.2.trans (Nat.le_of_succ_le hki)⟩
    · rintro ⟨hi, hai⟩
      rcases Nat.eq_or_lt_of_le (hk.2 ⟨hi, hai⟩) with rfl | hlt
      · exact .inl rfl
      · exact .inr ⟨hi, hlt⟩

end LinuxEvfs.Lib.Scan
