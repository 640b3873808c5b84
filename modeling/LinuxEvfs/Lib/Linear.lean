import Mathlib.Data.List.Nodup
import Mathlib.Logic.Function.Basic
import LinuxEvfs.Lib.Runs

/-! # Linearizable objects

A sequential object is a state and a function that answers an operation. A history is the list of
the calls and returns of concurrent clients; every call has an identity of its own.

* `Linearizes o h L s`: the entries `L` are calls of the history, among them every call that has
  returned, with the result it returned; a call that returned before another began comes before it;
  and the object `o` gives these results in this order and ends in `s`.
* `Atomic`: the object with clients that wait, take effect in one step, and return.
* `run_linearizes`: a system whose steps are steps of the atomic object, or none, has only histories
  that linearize. -/

namespace LinuxEvfs.Lib.Linear

open Lib.Runs

variable {S Op R : Type}

/-! ### Objects and histories -/

/-- A sequential object. -/
structure Obj (S Op R : Type) where
  init : S
  apply : Op → S → S × R

/-- What a client does. -/
inductive Act (Op R : Type) where
  | call (i : ℕ) (op : Op)
  | ret (i : ℕ) (r : R)

/-- A call with its result. -/
structure Entry (Op R : Type) where
  id : ℕ
  op : Op
  res : R

/-- The object after the entries. -/
def Obj.replay (o : Obj S Op R) (L : List (Entry Op R)) : S :=
  L.foldl (fun s e => (o.apply e.op s).1) o.init

theorem Obj.replay_concat (o : Obj S Op R) (L : List (Entry Op R)) (e : Entry Op R) :
    o.replay (L ++ [e]) = (o.apply e.op (o.replay L)).1 := by
  simp only [Obj.replay, List.foldl_append, List.foldl_cons, List.foldl_nil]

/-- Every entry has the result the object gives after those before it. -/
def Obj.Legal (o : Obj S Op R) (L : List (Entry Op R)) : Prop :=
  ∀ L₁ e L₂, L = L₁ ++ e :: L₂ → e.res = (o.apply e.op (o.replay L₁)).2

theorem Obj.Legal.concat {o : Obj S Op R} {L : List (Entry Op R)} (h : o.Legal L)
    (i : ℕ) (op : Op) : o.Legal (L ++ [⟨i, op, (o.apply op (o.replay L)).2⟩]) := by
  intro L₁ e L₂ heq
  rcases List.eq_nil_or_concat L₂ with rfl | ⟨L₂', x, rfl⟩
  · obtain ⟨rfl, hx⟩ := List.append_inj' heq rfl
    cases hx
    rfl
  · rw [List.concat_eq_append, ← List.cons_append, ← List.append_assoc] at heq
    exact h L₁ e L₂' (List.append_inj' heq rfl).1

/-- The entries are an order of the calls of the history that explains it. -/
structure Linearizes (o : Obj S Op R) (h : List (Act Op R)) (L : List (Entry Op R)) (s : S) :
    Prop where
  nodup : (L.map Entry.id).Nodup
  legal : o.Legal L
  final : o.replay L = s
  called : ∀ e ∈ L, Act.call e.id e.op ∈ h
  returned : ∀ i r, Act.ret i r ∈ h → ∃ e ∈ L, e.id = i ∧ e.res = r
  order : ∀ i r j op, [Act.ret i r, Act.call j op].Sublist h →
    ∀ x ∈ L, ∀ y ∈ L, x.id = i → y.id = j → [x, y].Sublist L

/-! ### The atomic object -/

/-- Where a call is. -/
inductive Stage (Op R : Type) where
  | idle
  | waiting (op : Op)
  | done (op : Op) (r : R)
  | returned

/-- An object and the calls on it. -/
structure Atomic (S Op R : Type) where
  obj : S
  stage : ℕ → Stage Op R

/-- The object is `s`, and the call `i` at a new stage. -/
def Atomic.move (a : Atomic S Op R) (s : S) (i : ℕ) (st : Stage Op R) : Atomic S Op R :=
  ⟨s, Function.update a.stage i st⟩

theorem Atomic.move_self (a : Atomic S Op R) (s : S) (i : ℕ) (st : Stage Op R) :
    (a.move s i st).stage i = st := Function.update_self ..

theorem Atomic.move_of_ne (a : Atomic S Op R) (s : S) {i j : ℕ} (st : Stage Op R) (h : j ≠ i) :
    (a.move s i st).stage j = a.stage j := Function.update_of_ne h ..

/-- A call begins, takes effect, or returns. -/
inductive Atomic.Step (o : Obj S Op R) : Atomic S Op R → Option (Act Op R) → Atomic S Op R → Prop
  | call {a : Atomic S Op R} {i : ℕ} {op : Op} (h : a.stage i = .idle) :
      Step o a (some (.call i op)) (a.move a.obj i (.waiting op))
  | effect {a : Atomic S Op R} {i : ℕ} {op : Op} (h : a.stage i = .waiting op) :
      Step o a none (a.move (o.apply op a.obj).1 i (.done op (o.apply op a.obj).2))
  | ret {a : Atomic S Op R} {i : ℕ} {op : Op} {r : R} (h : a.stage i = .done op r) :
      Step o a (some (.ret i r)) (a.move a.obj i .returned)

/-- The entries are the calls that took effect, in the order they did. -/
structure Log (o : Obj S Op R) (h : List (Act Op R)) (L : List (Entry Op R)) (a : Atomic S Op R) :
    Prop extends Linearizes o h L a.obj where
  idle : ∀ i, a.stage i = .idle → ∀ e ∈ L, e.id ≠ i
  waiting : ∀ i op, a.stage i = .waiting op → Act.call i op ∈ h ∧ ∀ e ∈ L, e.id ≠ i
  done : ∀ i op r, a.stage i = .done op r → ⟨i, op, r⟩ ∈ L
  pending : ∀ e ∈ L, a.stage e.id = .done e.op e.res ∨ Act.ret e.id e.res ∈ h

variable {o : Obj S Op R} {h : List (Act Op R)} {L : List (Entry Op R)} {a a' : Atomic S Op R}

theorem pair_sublist_concat {α : Type} {x y z : α} {l : List α}
    (hs : [x, y].Sublist (l ++ [z])) : [x, y].Sublist l ∨ x ∈ l ∧ y = z := by
  rw [List.sublist_append_iff] at hs
  obtain ⟨l₁, l₂, heq, h₁, h₂⟩ := hs
  rcases List.sublist_singleton.mp h₂ with rfl | rfl
  · rw [List.append_nil] at heq
    exact Or.inl (heq ▸ h₁)
  · obtain ⟨rfl, hy⟩ := List.append_inj' (show [x] ++ [y] = l₁ ++ [z] from heq) rfl
    cases hy
    exact Or.inr ⟨List.singleton_sublist.mp h₁, rfl⟩

theorem Log.call (hl : Log o h L a) {i : ℕ} {op : Op} (hi : a.stage i = .idle) :
    Log o (h ++ [.call i op]) L (a.move a.obj i (.waiting op)) := by
  refine { hl with called := ?_, returned := ?_, order := ?_, idle := ?_, waiting := ?_, done := ?_,
                   pending := ?_ }
  · exact fun e he => List.mem_append_left _ (hl.called e he)
  · intro j r hr
    rcases List.mem_append.mp hr with hr | hr
    · exact hl.returned j r hr
    · cases List.mem_singleton.mp hr
  · intro k r j op' hs x hx y hy hxk hyj
    rcases pair_sublist_concat hs with hs | ⟨-, heq⟩
    · exact hl.order k r j op' hs x hx y hy hxk hyj
    · -- the new call has not taken effect
      cases heq
      exact absurd hyj (hl.idle i hi y hy)
  · intro j hj
    rcases eq_or_ne j i with rfl | hne
    · exact hl.idle j hi
    · exact hl.idle j ((a.move_of_ne _ _ hne).symm.trans hj)
  · intro j op' hj
    rcases eq_or_ne j i with rfl | hne
    · rw [Atomic.move_self] at hj
      cases hj
      exact ⟨List.mem_append_right _ (List.mem_singleton_self _), hl.idle j hi⟩
    · rw [Atomic.move_of_ne _ _ _ hne] at hj
      obtain ⟨hc, hn⟩ := hl.waiting j op' hj
      exact ⟨List.mem_append_left _ hc, hn⟩
  · intro j op' r hj
    rcases eq_or_ne j i with rfl | hne
    · rw [Atomic.move_self] at hj; cases hj
    · exact hl.done j op' r ((a.move_of_ne _ _ hne).symm.trans hj)
  · intro e he
    have hne : e.id ≠ i := hl.idle i hi e he
    rcases hl.pending e he with hd | hr
    · exact Or.inl ((a.move_of_ne _ _ hne).trans hd)
    · exact Or.inr (List.mem_append_left _ hr)

theorem Log.effect (hl : Log o h L a) {i : ℕ} {op : Op} (hi : a.stage i = .waiting op) :
    Log o h (L ++ [⟨i, op, (o.apply op a.obj).2⟩])
      (a.move (o.apply op a.obj).1 i (.done op (o.apply op a.obj).2)) := by
  obtain ⟨hcall, hnew⟩ := hl.waiting i op hi
  have hlegal := hl.legal.concat i op
  rw [hl.final] at hlegal
  -- a call that has returned is an older entry
  have hold : ∀ k r, Act.ret k r ∈ h → k ≠ i := by
    rintro k r hr rfl
    obtain ⟨e, he, hid, -⟩ := hl.returned k r hr
    exact hnew e he hid
  refine ⟨⟨?_, hlegal, ?_, ?_, ?_, ?_⟩, ?_, ?_, ?_, ?_⟩
  · rw [List.map_append, List.map_singleton, List.nodup_append]
    refine ⟨hl.nodup, List.nodup_singleton _, ?_⟩
    intro x hx y hy
    obtain ⟨e, he, rfl⟩ := List.mem_map.mp hx
    rw [List.mem_singleton.mp hy]
    exact hnew e he
  · rw [Obj.replay_concat, hl.final]
    rfl
  · intro e he
    rcases List.mem_append.mp he with he | he
    · exact hl.called e he
    · rw [List.mem_singleton.mp he]
      exact hcall
  · intro j r hr
    obtain ⟨e, he, hid⟩ := hl.returned j r hr
    exact ⟨e, List.mem_append_left _ he, hid⟩
  · intro k r j op' hs x hx y hy hxk hyj
    have hr : Act.ret k r ∈ h := hs.subset (List.mem_cons_self ..)
    have hxL : x ∈ L := by
      rcases List.mem_append.mp hx with hx | hx
      · exact hx
      · rw [List.mem_singleton.mp hx] at hxk
        exact absurd hxk.symm (hold k r hr)
    rcases List.mem_append.mp hy with hy | hy
    · exact (hl.order k r j op' hs x hxL y hy hxk hyj).trans (List.sublist_append_left ..)
    · rw [List.mem_singleton.mp hy]
      exact (List.singleton_sublist.mpr hxL).append_right [_]
  · intro j hj e he
    rcases eq_or_ne j i with rfl | hne
    · rw [Atomic.move_self] at hj; cases hj
    · rw [Atomic.move_of_ne _ _ _ hne] at hj
      rcases List.mem_append.mp he with he | he
      · exact hl.idle j hj e he
      · rw [List.mem_singleton.mp he]
        exact hne.symm
  · intro j op' hj
    rcases eq_or_ne j i with rfl | hne
    · rw [Atomic.move_self] at hj; cases hj
    · rw [Atomic.move_of_ne _ _ _ hne] at hj
      obtain ⟨hc, hn⟩ := hl.waiting j op' hj
      refine ⟨hc, fun e he => ?_⟩
      rcases List.mem_append.mp he with he | he
      · exact hn e he
      · rw [List.mem_singleton.mp he]
        exact hne.symm
  · intro j op' r hj
    rcases eq_or_ne j i with rfl | hne
    · rw [Atomic.move_self] at hj
      cases hj
      exact List.mem_append_right _ (List.mem_singleton_self _)
    · rw [Atomic.move_of_ne _ _ _ hne] at hj
      exact List.mem_append_left _ (hl.done j op' r hj)
  · intro e he
    rcases List.mem_append.mp he with he | he
    · rw [Atomic.move_of_ne _ _ _ (hnew e he)]
      exact hl.pending e he
    · rw [List.mem_singleton.mp he]
      exact Or.inl (Atomic.move_self ..)

theorem Log.ret (hl : Log o h L a) {i : ℕ} {op : Op} {r : R} (hi : a.stage i = .done op r) :
    Log o (h ++ [.ret i r]) L (a.move a.obj i .returned) := by
  have hmem := hl.done i op r hi
  refine { hl with called := ?_, returned := ?_, order := ?_, idle := ?_, waiting := ?_, done := ?_,
                   pending := ?_ }
  · exact fun e he => List.mem_append_left _ (hl.called e he)
  · intro j r' hr
    rcases List.mem_append.mp hr with hr | hr
    · exact hl.returned j r' hr
    · cases List.mem_singleton.mp hr
      exact ⟨_, hmem, rfl, rfl⟩
  · intro k r' j op' hs
    rcases pair_sublist_concat hs with hs | ⟨-, heq⟩
    · exact hl.order k r' j op' hs
    · cases heq
  · intro j hj
    rcases eq_or_ne j i with rfl | hne
    · rw [Atomic.move_self] at hj; cases hj
    · exact hl.idle j ((a.move_of_ne _ _ hne).symm.trans hj)
  · intro j op' hj
    rcases eq_or_ne j i with rfl | hne
    · rw [Atomic.move_self] at hj; cases hj
    · rw [Atomic.move_of_ne _ _ _ hne] at hj
      obtain ⟨hc, hn⟩ := hl.waiting j op' hj
      exact ⟨List.mem_append_left _ hc, hn⟩
  · intro j op' r' hj
    rcases eq_or_ne j i with rfl | hne
    · rw [Atomic.move_self] at hj; cases hj
    · exact hl.done j op' r' ((a.move_of_ne _ _ hne).symm.trans hj)
  · intro e he
    rcases eq_or_ne e.id i with heq | hne
    · -- the entry of the call that returns is the one with its identity
      have : e = ⟨i, op, r⟩ := List.inj_on_of_nodup_map hl.nodup he hmem heq
      rw [this]
      exact Or.inr (List.mem_append_right _ (List.mem_singleton_self _))
    · rcases hl.pending e he with hd | hr
      · exact Or.inl ((a.move_of_ne _ _ hne).trans hd)
      · exact Or.inr (List.mem_append_left _ hr)

/-- The history after one more step. -/
theorem Log.step (hl : Log o h L a) {e : Option (Act Op R)} (hs : Atomic.Step o a e a') :
    ∃ L', Log o (h ++ e.toList) L' a' := by
  cases hs with
  | call hi => exact ⟨L, hl.call hi⟩
  | effect hi => exact ⟨_, by simpa using hl.effect hi⟩
  | ret hi => exact ⟨L, hl.ret hi⟩

theorem Log.nil (o : Obj S Op R) : Log o [] [] ⟨o.init, fun _ => .idle⟩ := by
  refine ⟨⟨List.nodup_nil, ?_, rfl, ?_, ?_, ?_⟩, ?_, ?_, ?_, ?_⟩
  · intro L₁ e L₂ heq
    simp at heq
  all_goals simp

/-! ### Systems that implement an object -/

variable {C : Type} {Step : C → Option (Act Op R) → C → Prop} {I : C → Prop}

/-- The calls and returns of a run. -/
def history (l : List (Option (Act Op R) × C)) : List (Act Op R) := l.filterMap Prod.fst

/-- The state a run ends in. -/
def last (c : C) (l : List (Option (Act Op R) × C)) : C := (l.getLast?.map Prod.snd).getD c

theorem last_cons (c : C) (x : Option (Act Op R) × C) (l : List (Option (Act Op R) × C)) :
    last c (x :: l) = last x.2 l := by
  unfold last
  cases l with
  | nil => rfl
  | cons y l => rw [List.getLast?_cons_cons, List.getLast?_eq_some_getLast (List.cons_ne_nil y l)]; rfl

/-- **Implementations.** If each step is a step of the atomic object as `abs` sees it, or one that it
does not see, every run linearizes. -/
theorem run_linearizes (abs : C → Atomic S Op R)
    (hstep : ∀ {c e c'}, Step c e c' → I c → I c' ∧
      (Atomic.Step o (abs c) e (abs c') ∨ e = none ∧ abs c' = abs c))
    {c : C} {l : List (Option (Act Op R) × C)} (hr : Run Step c l) :
    ∀ h L, I c → Log o h L (abs c) →
      I (last c l) ∧ ∃ L', Log o (h ++ history l) L' (abs (last c l)) := by
  induction hr with
  | nil c =>
    intro h L hI hl
    exact ⟨hI, L, by simpa [history, last] using hl⟩
  | @cons c c' e l hs _ ih =>
    intro h L hI hl
    obtain ⟨hI', hsim⟩ := hstep hs hI
    have hnext : ∃ L', Log o (h ++ e.toList) L' (abs c') := by
      rcases hsim with hs | ⟨rfl, heq⟩
      · exact hl.step hs
      · exact ⟨L, by simpa [heq] using hl⟩
    obtain ⟨L', hl'⟩ := hnext
    have hh : h ++ history ((e, c') :: l) = h ++ e.toList ++ history l := by
      cases e <;> simp [history]
    rw [last_cons, hh]
    exact ih _ L' hI' hl'

end LinuxEvfs.Lib.Linear
