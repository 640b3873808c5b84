import Mathlib.Data.List.Perm.Basic
import Mathlib.Tactic.Common

/-! # Locks of one task

A task takes and releases locks, shared or exclusive. `exec` runs its actions from the locks it holds at
the start: it may come to the end, wait for itself, or release a lock it does not hold.

* `Wp held acts post`: the weakest precondition of a run, that it releases only what it holds and ends, if it
  does, with locks that satisfy `post`. One rule for each action. -/

namespace LinuxEvfs.Lib.Locks

/-- One element too many. -/
theorem cons_not_perm {α : Type} (x : α) (l : List α) : ¬ (x :: l).Perm l := fun h => by
  have := h.length_eq
  simp at this

variable {L : Type} [DecidableEq L]

inductive Mode where
  | shared
  | excl
deriving DecidableEq, Repr

inductive LockAct (L : Type) where
  | lock (m : Mode) (l : L)
  | unlock (m : Mode) (l : L)
deriving DecidableEq, Repr

/-- A task that holds `held` would wait for itself. -/
def blocks (held : List (Mode × L)) : Mode → L → Bool
  | .excl, l => held.any fun h => h.2 = l
  | .shared, l => (Mode.excl, l) ∈ held

/-- How a run ends. -/
inductive End (L : Type) where
  | ok (held : List (Mode × L))
  | blocked
  | bad
deriving DecidableEq, Repr

def exec : List (Mode × L) → List (LockAct L) → End L
  | held, [] => .ok held
  | held, .lock m l :: acts => if blocks held m l then .blocked else exec ((m, l) :: held) acts
  | held, .unlock m l :: acts => if (m, l) ∈ held then exec (held.erase (m, l)) acts else .bad

/-- **The run is sound and ends well**: it releases only what it holds, and if it comes to its end the locks it
then holds satisfy `post`. -/
def Wp (held : List (Mode × L)) (acts : List (LockAct L)) (post : List (Mode × L) → Prop) : Prop :=
  match exec held acts with
  | .ok h => post h
  | .blocked => True
  | .bad => False

variable {held : List (Mode × L)} {m m' : Mode} {l l' : L} {acts : List (LockAct L)}
  {post : List (Mode × L) → Prop}

theorem wp_nil : Wp held [] post ↔ post held := Iff.rfl

theorem wp_lock :
    Wp held (.lock m l :: acts) post ↔ blocks held m l = true ∨ Wp ((m, l) :: held) acts post := by
  unfold Wp
  rw [exec]
  by_cases h : blocks held m l = true
  · rw [if_pos h]
    exact iff_of_true trivial (.inl h)
  · rw [if_neg h]
    exact (or_iff_right h).symm

/-- The lock taken last. -/
theorem wp_unlock : Wp ((m, l) :: held) (.unlock m l :: acts) post ↔ Wp held acts post := by
  unfold Wp
  rw [exec, if_pos (List.mem_cons_self ..), List.erase_cons_head]

/-- The lock taken before another one. -/
theorem wp_unlock_below (h : l' ≠ l) :
    Wp ((m', l') :: (m, l) :: held) (.unlock m l :: acts) post ↔ Wp ((m', l') :: held) acts post := by
  have hne : (m', l') ≠ (m, l) := fun he => h (Prod.mk.inj he).2
  unfold Wp
  rw [exec, if_pos (List.mem_cons_of_mem _ (List.mem_cons_self ..)),
    List.erase_cons_tail (by simpa using hne), List.erase_cons_head]

theorem blocks_excl_cons :
    blocks ((m', l') :: held) .excl l = true ↔ l' = l ∨ blocks held .excl l = true := by
  simp [blocks]

end LinuxEvfs.Lib.Locks
