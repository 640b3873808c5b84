import Mathlib.Algebra.Order.Group.Nat
import Mathlib.Data.Bool.Basic
import Mathlib.Tactic.Common

/-! # The account of an inode

What the link count of an inode is for: it covers the entries that name the inode, and the tracker bit of
an inode that `evfs_inode_alloc` made and no entry names yet. An account holds what the argument needs of
one inode, and `Move` lists what a call can do to it.

* `Safe`: entries and tracker bit are covered by the link count. Every move keeps it (`Move.safe`).
* `Tight`: the link count is not more than that. The moves that are `exact` keep it (`Move.tight`). -/

namespace LinuxEvfs.Namespace.Ledger

/-- The bit of the inode bitmap, whether it is a directory, the link count, the tracker bit, and the
number of live entries that name the inode. -/
structure Acct where
  bit : Bool
  dir : Bool
  nlink : ℕ
  tracked : Bool
  entries : ℕ

/-- `n` is at most `m`, and equal to it where the step is exact. -/
def Near (exact : Prop) (n m : ℕ) : Prop := n ≤ m ∧ (exact → n = m)

theorem Near.refl (exact : Prop) (n : ℕ) : Near exact n n := ⟨Nat.le_refl n, fun _ => rfl⟩

/-- What a call does to the account of an inode. -/
inductive Move (exact : Prop) (a : Acct) : Acct → Prop
  /-- The inode is not concerned; entries go with the directory they are in. -/
  | fade {e : ℕ} (he : Near exact e a.entries) : Move exact a { a with entries := e }
  /-- An allocation that fails behind the bitmap. -/
  | reserve (hbit : a.bit = false) : Move exact a { a with bit := true }
  | alloc (hbit : a.bit = false) : Move exact a ⟨true, false, 1, true, a.entries⟩
  /-- An ordinary create, or with `n = 0` one that fails at the entry. -/
  | create {n e : ℕ} (hx : ¬ exact) (hbit : a.bit = false) (hn : n ≤ 1) (he : e ≤ a.entries + n) :
      Move exact a ⟨true, false, n, a.tracked, e⟩
  | free (ht : a.tracked = true) (hn : a.nlink = 1) :
      Move exact a { a with nlink := 0, tracked := false }
  | link {e : ℕ} (hbit : a.bit = true) (hn : a.nlink + 1 < 2 ^ 16) (he : Near exact e (a.entries + 1)) :
      Move exact a { a with nlink := a.nlink + 1, entries := e }
  /-- A link without an entry. -/
  | raise (hx : ¬ exact) (hbit : a.bit = true) (hn : a.nlink + 1 < 2 ^ 16) :
      Move exact a { a with nlink := a.nlink + 1 }
  /-- An entry and a link go; the tracker bit may go with them. -/
  | unlink {t : Bool} (he : 0 < a.entries) (hlast : a.dir = true → a.nlink = 1 → a.entries = 1)
      (ht : t = true → a.tracked = true) (hx : exact → t = a.tracked ∨ a.nlink = 1) :
      Move exact a { a with nlink := a.nlink - 1, tracked := t, entries := a.entries - 1 }
  | untrack (hx : ¬ exact) : Move exact a { a with tracked := false }
  /-- The eviction of an inode without links. -/
  | reclaim {e : ℕ} (hn : a.nlink = 0) (he : Near exact e a.entries) :
      Move exact a { a with bit := false, entries := e }

/-- The account of an inode that is not lost. -/
structure Safe (a : Acct) : Prop where
  /-- An inode that is not in use. -/
  free : a.bit = false → a.nlink = 0 ∧ a.tracked = false
  named : 0 < a.entries → 0 < a.nlink
  covered : a.dir = false → a.entries + a.tracked.toNat ≤ a.nlink
  file : a.tracked = true → a.dir = false
  small : a.nlink < 2 ^ 16

/-- The account of an inode in use that is not leaked. -/
def Tight (a : Acct) : Prop :=
  a.bit = true → a.dir = false → a.nlink ≤ a.entries + a.tracked.toNat

variable {exact : Prop} {a a' : Acct}

theorem Move.stay : Move exact a a := .fade (.refl exact _)

theorem Safe.tracked_pos (h : Safe a) (ht : a.tracked = true) : a.entries + 1 ≤ a.nlink := by
  have := h.covered (h.file ht)
  rwa [ht] at this

theorem Safe.not_tracked (h : Safe a) (hn : a.nlink = 0) : a.tracked = false := by
  by_contra ht
  have := h.tracked_pos (by simpa using ht)
  omega

theorem Safe.no_entries (h : Safe a) (hn : a.nlink = 0) : a.entries = 0 := by
  by_contra he
  have := h.named (Nat.pos_of_ne_zero he)
  omega

theorem Safe.bit_of_pos (h : Safe a) (hn : 0 < a.nlink) : a.bit = true := by
  by_contra hb
  have := (h.free (by simpa using hb)).1
  omega

/-- An inode that is not in use has an empty account. -/
theorem Safe.unused (h : Safe a) (hbit : a.bit = false) :
    a.nlink = 0 ∧ a.tracked = false ∧ a.entries = 0 :=
  ⟨(h.free hbit).1, (h.free hbit).2, h.no_entries (h.free hbit).1⟩

theorem Safe.fade {e : ℕ} (h : Safe a) (he : e ≤ a.entries) : Safe { a with entries := e } where
  free := h.free
  named hpos := h.named (lt_of_lt_of_le hpos he)
  covered hd := le_trans (Nat.add_le_add_right he _) (h.covered hd)
  file := h.file
  small := h.small

theorem Safe.unlink {t : Bool} (h : Safe a) (he : 0 < a.entries)
    (hlast : a.dir = true → a.nlink = 1 → a.entries = 1) (ht : t = true → a.tracked = true) :
    Safe { a with nlink := a.nlink - 1, tracked := t, entries := a.entries - 1 } where
  free hbit := by
    have := h.unused hbit
    omega
  named hpos := by
    have hn := h.named he
    dsimp only at hpos ⊢
    cases hd : a.dir with
    | true =>
      have := hlast hd
      omega
    | false =>
      have := h.covered hd
      omega
  covered hd := by
    have hc := h.covered hd
    have htn : t.toNat ≤ a.tracked.toNat := Bool.toNat_le_toNat ht
    dsimp only
    omega
  file htrue := h.file (ht htrue)
  small := lt_of_le_of_lt (Nat.sub_le _ _) h.small

/-- A count that goes up covers one more entry. -/
theorem Safe.link {e : ℕ} (h : Safe a) (hbit : a.bit = true) (hn : a.nlink + 1 < 2 ^ 16)
    (he : e ≤ a.entries + 1) : Safe { a with nlink := a.nlink + 1, entries := e } where
  free hb := by rw [hbit] at hb; cases hb
  named _ := Nat.succ_pos _
  covered hd := by
    have := h.covered hd
    dsimp only
    omega
  file := h.file
  small := hn

/-- **Safety.** Every move keeps it. -/
theorem Move.safe (hm : Move exact a a') (h : Safe a) : Safe a' := by
  cases hm with
  | fade he => exact h.fade he.1
  | reserve hbit => exact ⟨nofun, h.named, h.covered, h.file, h.small⟩
  | alloc hbit =>
    obtain ⟨-, -, he⟩ := h.unused hbit
    refine ⟨nofun, fun _ => Nat.one_pos, fun _ => ?_, fun _ => rfl, ?_⟩
    · dsimp only
      rw [he]
      rfl
    · exact Nat.one_lt_two_pow (by decide)
  | @create n e hx hbit hn he =>
    obtain ⟨-, ht, he0⟩ := h.unused hbit
    refine ⟨nofun, fun (hpos : 0 < e) => ?_, fun _ => ?_, fun _ => rfl, ?_⟩
    · dsimp only
      omega
    · dsimp only
      rw [ht, Bool.toNat_false]
      omega
    · dsimp only
      omega
  | free ht hn =>
    have hpos := h.tracked_pos ht
    have he : a.entries = 0 := by omega
    refine ⟨fun _ => ⟨rfl, rfl⟩, fun (h0 : 0 < a.entries) => ?_, fun _ => ?_, nofun, ?_⟩
    · omega
    · dsimp only
      rw [he]
      rfl
    · exact Nat.two_pow_pos 16
  | link hbit hn he => exact h.link hbit hn he.1
  | raise hx hbit hn => exact h.link hbit hn (Nat.le_succ _)
  | unlink he hlast ht _ => exact h.unlink he hlast ht
  | untrack _ =>
    refine ⟨fun hb => ⟨(h.free hb).1, rfl⟩, h.named, fun hd => ?_, nofun, h.small⟩
    have := h.covered hd
    dsimp only
    rw [Bool.toNat_false]
    omega
  | @reclaim e hn he =>
    have h' := h.fade he.1
    exact ⟨fun _ => ⟨hn, h.not_tracked hn⟩, h'.named, h'.covered, h.file, h.small⟩

/-- **No leak.** Exact moves keep the count down. -/
theorem Move.tight (hm : Move exact a a') (hx : exact) (h : Safe a) (ht : Tight a) : Tight a' := by
  cases hm with
  | fade he => rwa [he.2 hx]
  | reserve hbit =>
    intro _ _
    dsimp only
    rw [(h.unused hbit).1]
    exact Nat.zero_le _
  | alloc hbit => exact fun _ _ => Nat.le_add_left 1 a.entries
  | create hne => exact absurd hx hne
  | free => exact fun _ _ => Nat.zero_le _
  | @link e hbit hn he =>
    intro hb hd
    have := ht hb hd
    have := he.2 hx
    dsimp only
    omega
  | raise hne => exact absurd hx hne
  | @unlink t he hlast htr hcase =>
    intro hb hd
    have := ht hb hd
    dsimp only
    rcases hcase hx with rfl | h1
    · omega
    · omega
  | untrack hne => exact absurd hx hne
  | reclaim => exact nofun

end LinuxEvfs.Namespace.Ledger
