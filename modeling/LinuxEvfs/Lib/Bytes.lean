import Mathlib.Data.List.Basic
import Mathlib.Tactic.Common
import Mathlib.Algebra.Order.Ring.Nat

/-! # Memory that is written in part

A buffer is memory from an address on, with whatever it held before. A sequence of writes covers some of
its bytes:

* `puts_of_covered`, `puts_of_not_covered`: a covered byte does not depend on what was there before, any
  other one is what was there before.
* `blind_puts_iff`: a byte does not depend on the memory before exactly if it is covered.

`Blind f`: the value of `f` does not depend on the memory it is given. -/

namespace LinuxEvfs.Lib.Bytes

/-- Memory from an address on. -/
abbrev Buf := ℕ → UInt8

/-- A number in `n` bytes, the lowest one first. -/
def le : ℕ → ℕ → List UInt8
  | 0, _ => []
  | n + 1, v => UInt8.ofNat v :: le n (v / 256)

/-- The number in the `n` bytes from `off` on. -/
def Buf.num (b : Buf) : ℕ → ℕ → ℕ
  | _, 0 => 0
  | off, n + 1 => (b off).toNat + 256 * b.num (off + 1) n

def Buf.put (b : Buf) (off : ℕ) (bytes : List UInt8) : Buf := fun i =>
  if off ≤ i then (bytes[i - off]?).getD (b i) else b i

/-- The first `n` bytes. -/
def Buf.take (b : Buf) (n : ℕ) : List UInt8 := (List.range n).map b

/-- The memory from `off` on. -/
def Buf.from (b : Buf) (off : ℕ) : Buf := fun i => b (off + i)

structure Write where
  off : ℕ
  bytes : List UInt8

/-- Writes, one after the other. -/
def Buf.puts (b : Buf) (ws : List Write) : Buf := ws.foldl (fun b w => b.put w.off w.bytes) b

def Write.covers (w : Write) (i : ℕ) : Bool := w.off ≤ i && i < w.off + w.bytes.length

def covered (ws : List Write) (i : ℕ) : Bool := ws.any (·.covers i)

/-- The value does not depend on the memory. -/
def Blind {M α : Type} (f : M → α) : Prop := ∀ m m', f m = f m'

variable {b b' : Buf} {i n off : ℕ} {bytes : List UInt8} {ws : List Write} {w : Write}

@[simp] theorem length_le : ∀ (n v : ℕ), (le n v).length = n
  | 0, _ => rfl
  | n + 1, v => congrArg (· + 1) (length_le n (v / 256))

@[simp] theorem length_take : (b.take n).length = n := by
  simp [Buf.take]

theorem take_eq_iff : b.take n = b'.take n ↔ ∀ i < n, b i = b' i := by
  simp [Buf.take, List.map_inj_left]

theorem take_getElem? (h : i < n) : (b.take n)[i]? = some (b i) := by
  simp [Buf.take, h]

/-! ### One write -/

theorem put_inside (h : off ≤ i) (h' : i < off + bytes.length) :
    b.put off bytes i = (bytes[i - off]?).getD 0 := by
  have hlt : i - off < bytes.length := by omega
  rw [Buf.put, if_pos h, List.getElem?_eq_getElem hlt, Option.getD_some, Option.getD_some]

theorem put_outside (h : i < off ∨ off + bytes.length ≤ i) : b.put off bytes i = b i := by
  unfold Buf.put
  by_cases hle : off ≤ i
  · have hge : bytes.length ≤ i - off := by omega
    rw [if_pos hle, List.getElem?_eq_none hge, Option.getD_none]
  · rw [if_neg hle]

theorem covers_iff : w.covers i = true ↔ w.off ≤ i ∧ i < w.off + w.bytes.length := by
  simp [Write.covers]

/-! ### A sequence of writes -/

@[simp] theorem puts_nil : b.puts [] = b := rfl

@[simp] theorem puts_cons : b.puts (w :: ws) = (b.put w.off w.bytes).puts ws := rfl

theorem puts_append (ws' : List Write) : b.puts (ws ++ ws') = (b.puts ws).puts ws' := List.foldl_append

@[simp] theorem covered_cons : covered (w :: ws) i = (w.covers i || covered ws i) := rfl

@[simp] theorem covered_nil : covered [] i = false := rfl

@[simp] theorem covered_append (ws' : List Write) :
    covered (ws ++ ws') i = (covered ws i || covered ws' i) := by
  simp [covered]

theorem puts_of_not_covered (h : covered ws i = false) : b.puts ws i = b i := by
  induction ws generalizing b with
  | nil => rfl
  | cons w ws ih =>
    rw [covered_cons, Bool.or_eq_false_iff] at h
    rw [puts_cons, ih h.2]
    refine put_outside ?_
    have hw := h.1
    rw [← Bool.not_eq_true, covers_iff] at hw
    omega

theorem num_congr (h : ∀ i, off ≤ i → i < off + n → b i = b' i) : b.num off n = b'.num off n := by
  induction n generalizing off with
  | zero => rfl
  | succ n ih =>
    unfold Buf.num
    rw [h off (Nat.le_refl off) (by omega), ih fun i hi hi' => h i (by omega) (by omega)]

theorem num_put_outside {o : ℕ} (h : o + n ≤ off ∨ off + bytes.length ≤ o) :
    (b.put off bytes).num o n = b.num o n :=
  num_congr fun i hi hi' => put_outside (by omega)

/-- A number is read back, as far as its bytes hold it. -/
theorem num_put_le (b : Buf) (off n v : ℕ) : (b.put off (le n v)).num off n = v % 256 ^ n := by
  induction n generalizing off v with
  | zero => rw [Buf.num, Nat.pow_zero, Nat.mod_one]
  | succ n ih =>
    have hhead : b.put off (le (n + 1) v) off = UInt8.ofNat v := by
      rw [put_inside (Nat.le_refl off) (by simp), Nat.sub_self, le]
      rfl
    have htail : (b.put off (le (n + 1) v)).num (off + 1) n =
        (b.put (off + 1) (le n (v / 256))).num (off + 1) n := by
      refine num_congr fun i hi hi' => ?_
      rw [put_inside (by omega) (by simp; omega), put_inside hi (by simpa using hi'), le,
        show i - off = i - (off + 1) + 1 by omega, List.getElem?_cons_succ]
    rw [Buf.num, hhead, htail, ih, Nat.pow_succ', Nat.mod_mul, UInt8.toNat_ofNat']

/-- A number that no write touches. -/
theorem num_puts_of_not_covered (h : ∀ i, off ≤ i → i < off + n → covered ws i = false) :
    (b.puts ws).num off n = b.num off n :=
  num_congr fun i hi hi' => puts_of_not_covered (h i hi hi')

theorem puts_of_covered (h : covered ws i = true) : b.puts ws i = b'.puts ws i := by
  induction ws generalizing b b' with
  | nil => cases h
  | cons w ws ih =>
    rw [puts_cons, puts_cons]
    cases hws : covered ws i with
    | true => exact ih hws
    | false =>
      rw [covered_cons, hws, Bool.or_false, covers_iff] at h
      rw [puts_of_not_covered hws, puts_of_not_covered hws, put_inside h.1 h.2, put_inside h.1 h.2]

/-- **Independence.** A byte of a memory that may hold anything before shows nothing of it exactly if it
is written. -/
theorem blind_puts_iff {M : Type} {f : M → Buf} (hf : ∀ x, ∃ m, f m i = x) :
    (Blind fun m => (f m).puts ws i) ↔ covered ws i = true := by
  constructor
  · intro h
    by_contra hcov
    have hcov : covered ws i = false := by simpa using hcov
    obtain ⟨m, hm⟩ := hf 0
    obtain ⟨m', hm'⟩ := hf 1
    have h01 : (f m).puts ws i = (f m').puts ws i := h m m'
    rw [puts_of_not_covered hcov, puts_of_not_covered hcov, hm, hm'] at h01
    exact absurd h01 (by decide)
  · exact fun h m m' => puts_of_covered h

theorem not_blind {M : Type} {f : M → Buf} (hf : ∀ x, ∃ m, f m i = x) : ¬ Blind fun m => f m i := by
  intro h
  have hcov : covered [] i = true := (blind_puts_iff hf).mp h
  exact Bool.false_ne_true hcov

end LinuxEvfs.Lib.Bytes
