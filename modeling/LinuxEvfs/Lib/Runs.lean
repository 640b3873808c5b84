import Mathlib.Tactic.Common

/-! # Runs of a labelled step relation

A run from a state is the list of its events, each with the state it leads to.

* `Along P s l`: every step of the run meets the condition `P` on the state before it and its event.
* `Run.forall_events`, `Run.invariant`: what every step that meets a condition preserves holds in every
  state reached, and what follows from it about an event holds of every event.
* `Run.forall_iff`: if a step keeps `Q` exactly when it meets `P`, then `Q` holds in every state reached
  exactly when every step meets `P`.
* `Run.chain_iff`: the same for what a step does, `Chain T s l`: every step is in the relation `T`. -/

namespace LinuxEvfs.Lib.Runs

variable {S E : Type} {Step : S → E → S → Prop} {P R : S → E → Prop} {I Q : S → Prop}

/-- A run from `s`. -/
inductive Run (Step : S → E → S → Prop) : S → List (E × S) → Prop
  | nil (s : S) : Run Step s []
  | cons {s s' : S} {e : E} {l : List (E × S)} (h : Step s e s') (hr : Run Step s' l) :
      Run Step s ((e, s') :: l)

/-- Every step meets the condition `P`. -/
def Along (P : S → E → Prop) : S → List (E × S) → Prop
  | _, [] => True
  | s, (e, s') :: l => P s e ∧ Along P s' l

theorem Along.and {s : S} {l : List (E × S)} (hP : Along P s l) (hR : Along R s l) :
    Along (fun s e => P s e ∧ R s e) s l := by
  induction l generalizing s with
  | nil => trivial
  | cons x l ih => exact ⟨⟨hP.1, hR.1⟩, ih hP.2 hR.2⟩

/-- What an invariant says about each event and the state it leads to. -/
theorem Run.forall_events {J : E → S → Prop}
    (hevent : ∀ {s e s'}, Step s e s' → P s e → I s → J e s')
    (hstep : ∀ {s e s'}, Step s e s' → P s e → I s → I s') {s : S} {l : List (E × S)}
    (hr : Run Step s l) : I s → Along P s l → ∀ x ∈ l, J x.1 x.2 := by
  induction hr with
  | nil => exact fun _ _ x hx => absurd hx List.not_mem_nil
  | cons h _ ih =>
    rintro hI ⟨hP, hPl⟩ x hx
    rcases List.mem_cons.mp hx with rfl | hx
    · exact hevent h hP hI
    · exact ih (hstep h hP hI) hPl x hx

/-- **Invariants.** -/
theorem Run.invariant (hstep : ∀ {s e s'}, Step s e s' → P s e → I s → I s') {s : S}
    {l : List (E × S)} (hr : Run Step s l) : I s → Along P s l → ∀ x ∈ l, I x.2 :=
  hr.forall_events (P := P) (I := I) (J := fun _ s => I s) hstep hstep

/-- **Exact conditions.** With an invariant `I` of the steps that meet `R`. -/
theorem Run.forall_iff (hstep : ∀ {s e s'}, Step s e s' → R s e → I s → I s')
    (hexact : ∀ {s e s'}, Step s e s' → R s e → I s → Q s → (Q s' ↔ P s e)) {s : S}
    {l : List (E × S)} (hr : Run Step s l) :
    I s → Q s → Along R s l → ((∀ x ∈ l, Q x.2) ↔ Along P s l) := by
  induction hr with
  | nil => exact fun _ _ _ => ⟨fun _ => trivial, fun _ x hx => absurd hx List.not_mem_nil⟩
  | @cons s s' e l h _ ih =>
    rintro hI hQ ⟨hR, hRl⟩
    have hI' := hstep h hR hI
    rw [List.forall_mem_cons, hexact h hR hI hQ]
    constructor
    · rintro ⟨hP, hl⟩
      exact ⟨hP, (ih hI' ((hexact h hR hI hQ).mpr hP) hRl).mp hl⟩
    · rintro ⟨hP, hl⟩
      exact ⟨hP, (ih hI' ((hexact h hR hI hQ).mpr hP) hRl).mpr hl⟩

/-- Every step is in the relation `T`. -/
def Chain (T : S → E → S → Prop) : S → List (E × S) → Prop
  | _, [] => True
  | s, (e, s') :: l => T s e s' ∧ Chain T s' l

/-- **Exact conditions on steps.** With an invariant `I` of the steps in the relation. -/
theorem Run.chain_iff {T : S → E → S → Prop}
    (hstep : ∀ {s e s'}, Step s e s' → I s → T s e s' → I s')
    (hexact : ∀ {s e s'}, Step s e s' → I s → (T s e s' ↔ P s e)) {s : S} {l : List (E × S)}
    (hr : Run Step s l) : I s → (Chain T s l ↔ Along P s l) := by
  induction hr with
  | nil => exact fun _ => Iff.rfl
  | cons h _ ih =>
    intro hI
    have hT := hexact h hI
    constructor
    · rintro ⟨ht, hl⟩
      exact ⟨hT.mp ht, (ih (hstep h hI ht)).mp hl⟩
    · rintro ⟨hp, hl⟩
      exact ⟨hT.mpr hp, (ih (hstep h hI (hT.mpr hp))).mpr hl⟩

end LinuxEvfs.Lib.Runs
