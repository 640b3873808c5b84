import Mathlib.Order.Basic
import Mathlib.Tactic.Common
import Mathlib.Algebra.Order.Ring.Nat

/-! # The binary search for the last entry not above a key

`bsearch key x fuel l r` is the loop `while (l <= r)` on positions that leaves `l - 1`: started
with `l = 1` on a list of `n` entries it finds the last position whose key is at most `x`, and
position `0` if there is none (the key of entry `0` is never looked at). `fuel` bounds the number of
rounds; the number of entries is enough.

* `bsearch_spec`: the loop's invariant, for keys that increase up to `n`.
* `lastLe`: the search in a list by a key function, and `lastLe_split`: the list is cut at the
  position found, everything behind it is above `x`, and the entry found is not above `x` unless it
  is the first. -/

namespace LinuxEvfs.Lib.BinSearch

variable {α β : Type} [LinearOrder α]

/-- The loop of the binary search. -/
def bsearch (key : ℕ → α) (x : α) : ℕ → ℕ → ℕ → ℕ
  | 0, l, _ => l - 1
  | fuel + 1, l, r =>
    if l ≤ r then
      let m := l + (r - l) / 2
      if x < key m then bsearch key x fuel l (m - 1) else bsearch key x fuel (m + 1) r
    else l - 1

/-- **The search**: from `l` to `r`, with the keys of `[1, l)` at most `x` and those behind `r`
above it. -/
theorem bsearch_spec {key : ℕ → α} {x : α} {n : ℕ}
    (hmono : ∀ i j, i ≤ j → j < n → key i ≤ key j) :
    ∀ (fuel l r : ℕ), 1 ≤ l → l ≤ r + 1 → r < n → r + 1 - l ≤ fuel →
      (∀ j, 1 ≤ j → j < l → key j ≤ x) → (∀ j, r < j → j < n → x < key j) →
      bsearch key x fuel l r ≤ r ∧
        (∀ j, 1 ≤ j → j ≤ bsearch key x fuel l r → key j ≤ x) ∧
        ∀ j, bsearch key x fuel l r < j → j < n → x < key j := by
  intro fuel
  induction fuel with
  | zero =>
    intro l r hl hlr hr hf hle hgt
    have hl' : l = r + 1 := by omega
    subst hl'
    refine ⟨by simp [bsearch], fun j h1 h2 => hle j h1 (by simp [bsearch] at h2; omega), ?_⟩
    intro j h1 h2
    exact hgt j (by simpa [bsearch] using h1) h2
  | succ fuel ih =>
    intro l r hl hlr hr hf hle hgt
    rw [bsearch]
    by_cases h : l ≤ r
    · rw [if_pos h]
      simp only
      by_cases hx : x < key (l + (r - l) / 2)
      · rw [if_pos hx]
        have hbehind : ∀ j, l + (r - l) / 2 - 1 < j → j < n → x < key j := fun j h1 h2 =>
          lt_of_lt_of_le hx (hmono _ j (by omega) h2)
        obtain ⟨h1, h2, h3⟩ := ih l (l + (r - l) / 2 - 1) hl (by omega) (by omega) (by omega) hle
          hbehind
        exact ⟨by omega, h2, h3⟩
      · rw [if_neg hx]
        have hbefore : ∀ j, 1 ≤ j → j < l + (r - l) / 2 + 1 → key j ≤ x := fun j _ h2 =>
          le_trans (hmono j _ (by omega) (by omega)) (not_lt.mp hx)
        exact ih (l + (r - l) / 2 + 1) r (by omega) (by omega) hr (by omega) hbefore hgt
    · rw [if_neg h]
      refine ⟨by omega, fun j h1 h2 => hle j h1 (by omega), fun j h1 h2 => hgt j (by omega) h2⟩

/-- The key of entry `0` is not looked at. -/
theorem bsearch_congr {key key' : ℕ → α} {x : α} (h : ∀ j, 1 ≤ j → key j = key' j) :
    ∀ (fuel l r : ℕ), 1 ≤ l → bsearch key x fuel l r = bsearch key' x fuel l r
  | 0, _, _, _ => rfl
  | fuel + 1, l, r, hl => by
    unfold bsearch
    simp only [h (l + (r - l) / 2) (by omega), bsearch_congr h fuel _ _ hl,
      bsearch_congr h fuel (l + (r - l) / 2 + 1) r (by omega)]

/-- The position of the last entry whose key is at most `x`, or `0`. -/
def lastLe (f : β → α) (x : α) (es : List β) : ℕ :=
  bsearch (fun i => (es[i]?.map f).getD x) x es.length 1 (es.length - 1)

/-- **The cut at the position found.** -/
theorem lastLe_split {f : β → α} {x : α} {es : List β} (hne : es ≠ [])
    (hs : es.Pairwise fun a b => f a ≤ f b) :
    ∃ l e r, es = l ++ e :: r ∧ lastLe f x es = l.length ∧ (∀ y ∈ r, x < f y) ∧
      (f e ≤ x ∨ l = []) := by
  have hlen : 0 < es.length := List.length_pos_iff.mpr hne
  have hkey : ∀ i (h : i < es.length), (es[i]?.map f).getD x = f es[i] := by
    intro i h; simp [List.getElem?_eq_getElem h]
  have hmono : ∀ i j, i ≤ j → j < es.length →
      (es[i]?.map f).getD x ≤ (es[j]?.map f).getD x := by
    intro i j hij hj
    rw [hkey i (by omega), hkey j hj]
    rcases Nat.eq_or_lt_of_le hij with rfl | hlt
    · exact le_rfl
    · exact List.pairwise_iff_getElem.mp hs i j (by omega) hj hlt
  obtain ⟨h1, h2, h3⟩ := bsearch_spec (x := x) hmono es.length 1 (es.length - 1) (by omega) (by omega)
    (by omega) (by omega) (fun j h1 h2 => by omega) (fun j h1 h2 => by omega)
  have hi : lastLe f x es < es.length := by unfold lastLe; omega
  refine ⟨es.take (lastLe f x es), es[lastLe f x es], es.drop (lastLe f x es + 1), ?_, ?_, ?_, ?_⟩
  · rw [← List.drop_eq_getElem_cons hi, List.take_append_drop]
  · simp; omega
  · intro y hy
    obtain ⟨j, hj, rfl⟩ := List.getElem_of_mem hy
    rw [List.length_drop] at hj
    have hlt : lastLe f x es + 1 + j < es.length := by omega
    have := h3 (lastLe f x es + 1 + j) (by unfold lastLe; omega) hlt
    rw [hkey _ hlt] at this
    rwa [List.getElem_drop]
  · rcases Nat.eq_zero_or_pos (lastLe f x es) with h0 | h0
    · right; simp [h0]
    · left
      have := h2 (lastLe f x es) h0 (by unfold lastLe; omega)
      rwa [hkey _ hi] at this

/-- The position is the only one with these properties. -/
theorem lastLe_eq {f : β → α} {x : α} {l r : List β} {e : β}
    (hs : (l ++ e :: r).Pairwise fun a b => f a ≤ f b) (hr : ∀ y ∈ r, x < f y)
    (he : f e ≤ x ∨ l = []) : lastLe f x (l ++ e :: r) = l.length := by
  obtain ⟨l', e', r', heq, hlen, hr', he'⟩ := lastLe_split (x := x) (by simp) hs
  rw [hlen]
  rcases Nat.lt_trichotomy l'.length l.length with hlt | h | hlt
  · -- `e` stands behind `e'`, so it is above `x`
    have hmem : e ∈ r' := by
      have h1 : (l ++ e :: r)[l.length]? = some e := by simp
      rw [heq, List.getElem?_append_right (by omega)] at h1
      obtain ⟨k, hk⟩ : ∃ k, l.length - l'.length = k + 1 := ⟨l.length - l'.length - 1, by omega⟩
      rw [hk, List.getElem?_cons_succ] at h1
      exact List.mem_of_getElem? h1
    rcases he with he | he
    · exact absurd (hr' e hmem) (not_lt.mpr he)
    · rw [he] at hlt; simp at hlt
  · exact h
  · have hmem : e' ∈ r := by
      have h1 : (l' ++ e' :: r')[l'.length]? = some e' := by simp
      rw [← heq, List.getElem?_append_right (by omega)] at h1
      obtain ⟨k, hk⟩ : ∃ k, l'.length - l.length = k + 1 := ⟨l'.length - l.length - 1, by omega⟩
      rw [hk, List.getElem?_cons_succ] at h1
      exact List.mem_of_getElem? h1
    rcases he' with he' | he'
    · exact absurd (hr e' hmem) (not_lt.mpr he')
    · rw [he'] at hlt; simp at hlt

end LinuxEvfs.Lib.BinSearch
