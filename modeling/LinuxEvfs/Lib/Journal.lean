import Mathlib.Data.Int.Notation
import Mathlib.Data.List.Basic
import Mathlib.Tactic.Common

/-! # The write discipline of a journal

The events of an operation on its buffers between the start and the stop of a handle.

* `Accessed g evs`: every change of a buffer comes after it was granted write access (or was made) under the
  same handle; `g` are the buffers granted so far.
* `Dirtied evs`: every change of a buffer is followed, under the same handle, by the call that marks it dirty, or
  by the call that gives its block back.
* `Disciplined ret evs`: the first, and the second for an operation that returns 0.

Both are composed along appended events, `accessed_append` and `Dirtied.append`, and carried to other names of the
buffers, `Accessed.map` and `Dirtied.map`. -/

namespace LinuxEvfs.Lib.Journal

variable {B : Type}

inductive Ev (B : Type) where
  | start
  | stop
  /-- Write access to a buffer is granted. -/
  | access (b : B)
  /-- Write access to the buffer of a new block is granted. -/
  | create (b : B)
  | change (b : B)
  /-- The buffer is passed to the call that marks it dirty. -/
  | dirty (b : B)
  /-- The block is freed, and its buffer forgotten. -/
  | forget (b : B)
deriving DecidableEq, Repr

/-- The same event on other buffers. -/
def Ev.map {C : Type} (f : B → C) : Ev B → Ev C
  | .start => .start
  | .stop => .stop
  | .access b => .access (f b)
  | .create b => .create (f b)
  | .change b => .change (f b)
  | .dirty b => .dirty (f b)
  | .forget b => .forget (f b)

/-- The event is about one buffer and takes no access away. -/
def Ev.plain : Ev B → Bool
  | .start | .stop | .forget _ => false
  | _ => true

/-! ### Marking dirty -/

/-- The buffer is marked dirty or given back before the handle is stopped. -/
def Settled (b : B) : List (Ev B) → Prop
  | [] => False
  | e :: evs => e = .dirty b ∨ e = .forget b ∨ (e ≠ .stop ∧ Settled b evs)

def Dirtied : List (Ev B) → Prop
  | [] => True
  | e :: evs => (∀ b, e = .change b → Settled b evs) ∧ Dirtied evs

variable {b : B} {e : Ev B} {evs evs' : List (Ev B)}

theorem Settled.append (h : Settled b evs) (evs' : List (Ev B)) : Settled b (evs ++ evs') := by
  induction evs with
  | nil => exact h.elim
  | cons e evs ih =>
    obtain h | h | ⟨hne, h⟩ := h
    · exact .inl h
    · exact .inr (.inl h)
    · exact .inr (.inr ⟨hne, ih h⟩)

/-- Marking dirty settles what was changed before under the same handle. -/
theorem settled_dirty (h : ∀ e ∈ evs, e.plain = true) : Settled b (evs ++ .dirty b :: evs') := by
  induction evs with
  | nil => exact .inl rfl
  | cons e evs ih =>
    rw [List.forall_mem_cons] at h
    refine .inr (.inr ⟨?_, ih h.2⟩)
    rintro rfl
    exact absurd h.1 Bool.false_ne_true

theorem Dirtied.append (h : Dirtied evs) (h' : Dirtied evs') : Dirtied (evs ++ evs') := by
  induction evs with
  | nil => exact h'
  | cons e evs ih => exact ⟨fun b he => (h.1 b he).append _, ih h.2⟩

/-! ### Write access -/

variable [DecidableEq B]

/-- The buffers granted after one event. -/
def grant (g : List B) : Ev B → List B
  | .start => []
  | .stop => []
  | .access b => b :: g
  | .create b => b :: g
  | .change _ => g
  | .dirty _ => g
  | .forget b => g.filter (· ≠ b)

/-- The buffers granted after the events. -/
def grants (g : List B) (evs : List (Ev B)) : List B := evs.foldl grant g

def Accessed : List B → List (Ev B) → Prop
  | _, [] => True
  | g, e :: evs => (∀ b, e = .change b → b ∈ g) ∧ Accessed (grant g e) evs

variable {g : List B}

@[simp] theorem grants_nil : grants g [] = g := rfl

@[simp] theorem grants_cons : grants g (e :: evs) = grants (grant g e) evs := rfl

theorem grants_append : grants g (evs ++ evs') = grants (grants g evs) evs' := List.foldl_append ..

theorem accessed_append : Accessed g (evs ++ evs') ↔ Accessed g evs ∧ Accessed (grants g evs) evs' := by
  induction evs generalizing g with
  | nil => simp [Accessed]
  | cons e evs ih => rw [List.cons_append, Accessed, Accessed, ih, and_assoc, grants_cons]

theorem subset_grants (h : ∀ e ∈ evs, e.plain = true) : g ⊆ grants g evs := by
  induction evs generalizing g with
  | nil => exact List.Subset.refl g
  | cons e evs ih =>
    rw [List.forall_mem_cons] at h
    refine List.Subset.trans ?_ (ih h.2)
    cases e with
    | start => exact absurd h.1 Bool.false_ne_true
    | stop => exact absurd h.1 Bool.false_ne_true
    | forget b => exact absurd h.1 Bool.false_ne_true
    | access b => exact List.subset_cons_self b g
    | create b => exact List.subset_cons_self b g
    | change b => exact List.Subset.refl g
    | dirty b => exact List.Subset.refl g

/-- An initial part of a disciplined run. -/
theorem Accessed.take (h : Accessed g evs) (n : ℕ) : Accessed g (evs.take n) := by
  rw [← List.take_append_drop n evs, accessed_append] at h
  exact h.1

/-! ### Other buffers -/

section map
variable {C : Type} {f : B → C}

omit [DecidableEq B] in
theorem Settled.map (h : Settled b evs) : Settled (f b) (evs.map (Ev.map f)) := by
  induction evs with
  | nil => exact h.elim
  | cons e evs ih =>
    obtain rfl | rfl | ⟨hne, h⟩ := h
    · exact .inl rfl
    · exact .inr (.inl rfl)
    · refine .inr (.inr ⟨fun he => hne ?_, ih h⟩)
      cases e with
      | stop => rfl
      | _ => cases he

omit [DecidableEq B] in
theorem Dirtied.map (h : Dirtied evs) : Dirtied (evs.map (Ev.map f)) := by
  induction evs with
  | nil => trivial
  | cons e evs ih =>
    refine ⟨fun c he => ?_, ih h.2⟩
    cases e with
    | change b =>
      cases he
      exact (h.1 b rfl).map
    | _ => cases he

variable [DecidableEq C]

theorem grant_map (hf : Function.Injective f) : grant (g.map f) (e.map f) = (grant g e).map f := by
  cases e with
  | forget b =>
    simp only [Ev.map, grant, List.filter_map]
    congr 2
    funext b'
    simp [hf.eq_iff]
  | _ => rfl

theorem Accessed.map (hf : Function.Injective f) (h : Accessed g evs) :
    Accessed (g.map f) (evs.map (Ev.map f)) := by
  induction evs generalizing g with
  | nil => trivial
  | cons e evs ih =>
    refine ⟨fun c he => ?_, by rw [grant_map hf]; exact ih h.2⟩
    cases e with
    | change b =>
      cases he
      exact List.mem_map_of_mem (h.1 b rfl)
    | _ => cases he

end map

/-- The events of an operation that returns `ret`, or does not return. -/
structure Disciplined (ret : Option ℤ) (evs : List (Ev B)) : Prop where
  accessed : Accessed [] evs
  dirtied : ret = some 0 → Dirtied evs

end LinuxEvfs.Lib.Journal
