import Mathlib.Data.Finset.Card
import Mathlib.Data.Finset.Union
import Mathlib.Tactic.Common

/-! # Credits of a journal handle

A handle is started with credits. The steps of an operation gain further credits and then hand buffers over to the
journal, and every buffer takes one credit, however often it is handed over.

* `Suffices h l`: in every state that the steps `l` lead through, no more buffers were handed over than there are
  credits.
* `suffices_of_card`: enough if the credits at the start cover the buffers of all steps.
* `suffices_concat`: the last step.
* `suffices_iff_card`: if nothing is gained, the buffers of all steps together decide. -/

namespace LinuxEvfs.Lib.Credits

variable {B : Type} [DecidableEq B]

/-- One step: the credits it gains, and the buffers it hands over. -/
structure Step (B : Type) where
  gain : ℕ
  buffers : Finset B

structure Handle (B : Type) where
  credits : ℕ
  handed : Finset B

/-- A handle as it is started. -/
def Handle.start (credits : ℕ) : Handle B := ⟨credits, ∅⟩

def Handle.after (h : Handle B) (s : Step B) : Handle B := ⟨h.credits + s.gain, h.handed ∪ s.buffers⟩

def Handle.Within (h : Handle B) : Prop := h.handed.card ≤ h.credits

/-- **The credits suffice** in every state. -/
def Suffices (h : Handle B) (l : List (Step B)) : Prop := ∀ l', l' <+: l → (l'.foldl Handle.after h).Within

/-- The credits all steps gain. -/
def gains : List (Step B) → ℕ
  | [] => 0
  | s :: l => s.gain + gains l

/-- The buffers of all steps. -/
def buffers : List (Step B) → Finset B
  | [] => ∅
  | s :: l => s.buffers ∪ buffers l

theorem buffers_append (l l' : List (Step B)) : buffers (l ++ l') = buffers l ∪ buffers l' := by
  induction l with
  | nil => simp [buffers]
  | cons s l ih => simp only [List.cons_append, buffers, ih, Finset.union_assoc]

variable {h : Handle B} {s : Step B} {l : List (Step B)}

theorem foldl_after (h : Handle B) (l : List (Step B)) :
    l.foldl Handle.after h = ⟨h.credits + gains l, h.handed ∪ buffers l⟩ := by
  induction l generalizing h with
  | nil => simp [gains, buffers]
  | cons s l ih => simp [ih, Handle.after, gains, buffers, Nat.add_assoc, Finset.union_assoc]

theorem within_foldl :
    (l.foldl Handle.after h).Within ↔ (h.handed ∪ buffers l).card ≤ h.credits + gains l := by
  rw [foldl_after, Handle.Within]

/-- The credits of the start cover all steps. -/
theorem suffices_of_card (hle : (h.handed ∪ buffers l).card ≤ h.credits) : Suffices h l := by
  rintro l' ⟨l'', rfl⟩
  rw [buffers_append] at hle
  rw [within_foldl]
  calc (h.handed ∪ buffers l').card ≤ (h.handed ∪ (buffers l' ∪ buffers l'')).card :=
        Finset.card_le_card (Finset.union_subset_union_right Finset.subset_union_left)
    _ ≤ h.credits := hle
    _ ≤ h.credits + gains l' := Nat.le_add_right _ _

/-- A last step. -/
theorem suffices_concat :
    Suffices h (l ++ [s]) ↔ Suffices h l ∧ (h.handed ∪ buffers (l ++ [s])).card ≤ h.credits + gains (l ++ [s]) := by
  simp only [Suffices, List.prefix_concat_iff, or_imp, forall_and, forall_eq, within_foldl]
  exact and_comm

/-- If nothing is gained only the end counts. -/
theorem suffices_iff_card (hgain : ∀ s ∈ l, s.gain = 0) :
    Suffices h l ↔ (h.handed ∪ buffers l).card ≤ h.credits := by
  have hzero : gains l = 0 := by
    induction l with
    | nil => rfl
    | cons s l ih =>
      rw [List.forall_mem_cons] at hgain
      rw [gains, hgain.1, ih hgain.2]
  refine ⟨fun hall => ?_, suffices_of_card⟩
  have hend := within_foldl.mp (hall l List.prefix_rfl)
  rwa [hzero, Nat.add_zero] at hend

end LinuxEvfs.Lib.Credits
