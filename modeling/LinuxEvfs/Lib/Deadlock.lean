import Mathlib.Data.Finset.Insert
import Mathlib.Data.List.Basic
import Mathlib.Data.Set.Finite.Basic
import Mathlib.Logic.Relation
import Mathlib.Order.WellFounded
import Mathlib.Tactic.Common

/-! # Deadlocks among tasks with exclusive locks

Any number of tasks, each with a list of locks to take and to release, run interleaved. A set of tasks is
deadlocked if each of them waits for a lock that one of them holds.

* `LockOrder acts i j`: some task takes `j` while it holds `i`.
* `not_deadlocked`: if the lock order of finitely many tasks has no cycle, no set of tasks is ever deadlocked.
* `exists_deadlocked`: if every task keeps its first lock while it takes others one after the other (`Fans`), a
  cycle can be run into.
* `deadlock_free_iff`: both together. -/

namespace LinuxEvfs.Lib.Deadlock

open Function Relation

variable {ι L : Type} [DecidableEq ι] [DecidableEq L]

inductive Move (L : Type) where
  | take (l : L)
  | drop (l : L)
deriving DecidableEq, Repr

/-- What each task has still to do, and who holds each lock. -/
structure State (ι L : Type) where
  todo : ι → List (Move L)
  owner : L → Option ι

inductive Step : State ι L → State ι L → Prop where
  | take {s : State ι L} {c : ι} {l : L} {rest : List (Move L)} (next : s.todo c = .take l :: rest)
      (free : s.owner l = none) : Step s ⟨update s.todo c rest, update s.owner l (some c)⟩
  | drop {s : State ι L} {c : ι} {l : L} {rest : List (Move L)} (next : s.todo c = .drop l :: rest)
      (own : s.owner l = some c) : Step s ⟨update s.todo c rest, update s.owner l none⟩

def init (acts : ι → List (Move L)) : State ι L := ⟨acts, fun _ => none⟩

def Reachable (acts : ι → List (Move L)) (s : State ι L) : Prop := ReflTransGen Step (init acts) s

/-- Each task of the set waits for a lock that a task of the set holds. -/
def Deadlocked (s : State ι L) (tasks : Set ι) : Prop :=
  tasks.Nonempty ∧ ∀ c ∈ tasks, ∃ l rest, s.todo c = .take l :: rest ∧ ∃ c' ∈ tasks, s.owner l = some c'

/-! ### The order of locks -/

/-- The locks held after one move. -/
def hold (held : List L) : Move L → List L
  | .take l => l :: held
  | .drop l => held.erase l

def holding (moves : List (Move L)) : List L := moves.foldl hold []

/-- From the locks `held` on, the lock `j` is taken while `i` is held. -/
def Orders : List L → List (Move L) → L → L → Prop
  | _, [], _, _ => False
  | held, m :: moves, i, j => (m = .take j ∧ i ∈ held) ∨ Orders (hold held m) moves i j

def LockOrder (acts : ι → List (Move L)) (i j : L) : Prop := ∃ c, Orders [] (acts c) i j

theorem holding_append (pre : List (Move L)) (m : Move L) : holding (pre ++ [m]) = hold (holding pre) m := by
  simp [holding]

theorem orders_append {held : List L} {pre moves : List (Move L)} {i j : L}
    (h : Orders (pre.foldl hold held) moves i j) : Orders held (pre ++ moves) i j := by
  induction pre generalizing held with
  | nil => exact h
  | cons m pre ih => exact .inr (ih h)

/-- A task has done a part of its moves, and holds what it has taken and not released. -/
def Follows (acts : ι → List (Move L)) (s : State ι L) : Prop :=
  ∀ c, ∃ pre, acts c = pre ++ s.todo c ∧ ∀ l, s.owner l = some c → l ∈ holding pre

variable {acts : ι → List (Move L)} {s s' : State ι L}

/-- One step. -/
theorem Follows.step (h : Follows acts s) (hs : Step s s') : Follows acts s' := by
  intro c
  obtain ⟨pre, hpre, hown⟩ := h c
  cases hs with
  | @take c' l rest next free =>
    by_cases hc : c = c'
    · subst hc
      refine ⟨pre ++ [.take l], by simp [hpre, next], fun l' hl' => ?_⟩
      rw [holding_append]
      by_cases hl : l' = l
      · exact hl ▸ List.mem_cons_self ..
      · dsimp only at hl'
        rw [update_of_ne hl] at hl'
        exact List.mem_cons_of_mem _ (hown l' hl')
    · refine ⟨pre, by simpa [update_of_ne hc] using hpre, fun l' hl' => hown l' ?_⟩
      dsimp only at hl'
      by_cases hl : l' = l
      · rw [hl, update_self] at hl'
        exact absurd (Option.some.inj hl').symm hc
      · rwa [update_of_ne hl] at hl'
  | @drop c' l rest next own =>
    have hkeep : ∀ l', update s.owner l none l' = some c → l' ≠ l ∧ s.owner l' = some c := by
      intro l' hl'
      by_cases hl : l' = l
      · rw [hl, update_self] at hl'
        cases hl'
      · exact ⟨hl, by rwa [update_of_ne hl] at hl'⟩
    by_cases hc : c = c'
    · subst hc
      refine ⟨pre ++ [.drop l], by simp [hpre, next], fun l' hl' => ?_⟩
      rw [holding_append]
      exact (List.mem_erase_of_ne (hkeep l' hl').1).mpr (hown l' (hkeep l' hl').2)
    · exact ⟨pre, by simpa [update_of_ne hc] using hpre, fun l' hl' => hown l' (hkeep l' hl').2⟩

/-- Every run. -/
theorem Reachable.follows (h : Reachable acts s) : Follows acts s := by
  induction h with
  | refl => exact fun c => ⟨[], rfl, nofun⟩
  | tail _ hs ih => exact ih.step hs

/-- **No cycle, no deadlock.** -/
theorem not_deadlocked [Finite ι] (hacyclic : ∀ l, ¬ TransGen (LockOrder acts) l l) (h : Reachable acts s)
    (tasks : Set ι) : ¬ Deadlocked s tasks := by
  rintro ⟨⟨c₀, hc₀⟩, hwait⟩
  have : Nonempty L := by
    obtain ⟨l, -⟩ := hwait c₀ hc₀
    exact ⟨l⟩
  choose! want rest hnext hheld using hwait
  -- a task is above another if its lock can be reached from that one's; a top task has no successor
  let above : ι → ι → Prop := fun c c' => TransGen (LockOrder acts) (want c') (want c)
  have htrans : IsTrans ι above := ⟨fun _ _ _ h1 h2 => h2.trans h1⟩
  have hirr : Std.Irrefl above := ⟨fun c => hacyclic (want c)⟩
  have hwf : WellFounded above := Finite.wellFounded_of_trans_of_irrefl above
  obtain ⟨c, hc, hmin⟩ := hwf.has_min tasks ⟨c₀, hc₀⟩
  obtain ⟨c', hc', hown⟩ := hheld c hc
  obtain ⟨pre, hpre, hhold⟩ := h.follows c'
  refine hmin c' hc' (.single ⟨c', ?_⟩)
  rw [hpre, hnext c' hc']
  exact orders_append (.inl ⟨rfl, hhold _ hown⟩)

/-! ### Running into a cycle -/

/-- Only releases. -/
def Drops (moves : List (Move L)) : Prop := ∀ m ∈ moves, ∃ l, m = .drop l

/-- Locks are taken one after the other; none is taken before the one before is released. -/
inductive Fan : List (Move L) → Prop where
  | drops {moves : List (Move L)} (h : Drops moves) : Fan moves
  | last {moves : List (Move L)} (l : L) (h : Drops moves) : Fan (.take l :: moves)
  | next {moves : List (Move L)} (l : L) (h : Fan moves) : Fan (.take l :: .drop l :: moves)

/-- The first lock is kept while others are taken one after the other. -/
def Fans : List (Move L) → Prop
  | [] => True
  | m :: moves => (∃ l, m = .take l) ∧ Fan moves

/-- Locks outside the set are taken and released. -/
inductive Avoids (C : Set L) : List (Move L) → Prop where
  | nil : Avoids C []
  | cons {moves : List (Move L)} {l : L} (hl : l ∉ C) (h : Avoids C moves) :
      Avoids C (.take l :: .drop l :: moves)

theorem Drops.not_orders {moves : List (Move L)} (h : Drops moves) (held : List L) (i j : L) :
    ¬ Orders held moves i j := by
  induction moves generalizing held with
  | nil => exact id
  | cons m moves ih =>
    obtain ⟨l, rfl⟩ := h m (List.mem_cons_self ..)
    rintro (⟨hm, -⟩ | ho)
    · cases hm
    · exact ih (fun m hm => h m (List.mem_cons_of_mem _ hm)) _ ho

/-- A task that takes a lock of the set while it holds its first one comes, past locks outside the set, to take
one in it. -/
theorem Fan.enters {moves : List (Move L)} {C : Set L} {f i j : L} (h : Fan moves)
    (ho : Orders [f] moves i j) (hj : j ∈ C) :
    i = f ∧ ∃ pre l rest, moves = pre ++ .take l :: rest ∧ Avoids C pre ∧ l ∈ C := by
  induction h with
  | drops h => exact absurd ho (h.not_orders _ _ _)
  | @last moves l h =>
    obtain ⟨hm, hi⟩ | ho := ho
    · cases hm
      exact ⟨List.mem_singleton.mp hi, [], j, moves, rfl, .nil, hj⟩
    · exact absurd ho (h.not_orders _ _ _)
  | @next moves l h ih =>
    obtain ⟨hm, hi⟩ | ⟨hm, -⟩ | ho := ho
    · cases hm
      exact ⟨List.mem_singleton.mp hi, [], j, _, rfl, .nil, hj⟩
    · cases hm
    · simp only [hold, List.erase_cons_head] at ho
      obtain ⟨hi, pre, l', rest, rfl, hpre, hl'⟩ := ih ho
      by_cases hl : l ∈ C
      · exact ⟨hi, [], l, _, rfl, .nil, hl⟩
      · exact ⟨hi, .take l :: .drop l :: pre, l', rest, rfl, .cons hl hpre, hl'⟩

theorem Fans.enters {moves : List (Move L)} {C : Set L} {i j : L} (h : Fans moves) (ho : Orders [] moves i j)
    (hj : j ∈ C) :
    ∃ pre l rest, moves = .take i :: (pre ++ .take l :: rest) ∧ Avoids C pre ∧ l ∈ C := by
  cases moves with
  | nil => exact ho.elim
  | cons m moves =>
    obtain ⟨⟨f, rfl⟩, hfan⟩ := h
    obtain ⟨-, hi⟩ | ho := ho
    · cases hi
    · obtain ⟨rfl, pre, l, rest, rfl, hpre, hl⟩ := hfan.enters ho hj
      exact ⟨pre, l, rest, rfl, hpre, hl⟩

/-- Locks that are free can be passed. -/
theorem Avoids.run {C : Set L} {pre : List (Move L)} (h : Avoids C pre) {c : ι} {tail : List (Move L)}
    {s : State ι L} (htodo : s.todo c = pre ++ tail) (hfree : ∀ l ∉ C, s.owner l = none) :
    ReflTransGen Step s ⟨update s.todo c tail, s.owner⟩ := by
  induction h generalizing s with
  | nil =>
    have : update s.todo c tail = s.todo := update_eq_self_iff.mpr htodo.symm
    rw [this]
  | @cons moves l hl h ih =>
    let s₁ : State ι L := ⟨update s.todo c (.drop l :: (moves ++ tail)), update s.owner l (some c)⟩
    have htake : Step s s₁ := .take htodo (hfree l hl)
    have howner : update (update s.owner l (some c)) l none = s.owner := by
      rw [update_idem, update_eq_self_iff]
      exact (hfree l hl).symm
    have hdrop : Step s₁ ⟨update s.todo c (moves ++ tail), s.owner⟩ := by
      have h₁ : Step s₁ ⟨update s₁.todo c (moves ++ tail), update s₁.owner l none⟩ :=
        .drop (update_self ..) (update_self ..)
      dsimp only [s₁] at h₁
      rwa [update_idem, howner] at h₁
    have hrest := ih (s := ⟨update s.todo c (moves ++ tail), s.owner⟩) (update_self ..) hfree
    dsimp only at hrest
    rw [update_idem] at hrest
    exact .head htake (.head hdrop hrest)

/-- For each lock of the set, a task that takes it first and comes to wait for another lock of the set. -/
structure Ring (acts : ι → List (Move L)) (C : Set L) where
  task : L → ι
  pre : L → List (Move L)
  want : L → L
  rest : L → List (Move L)
  moves : ∀ l ∈ C, acts (task l) = .take l :: (pre l ++ .take (want l) :: rest l)
  avoids : ∀ l ∈ C, Avoids C (pre l)
  closed : ∀ l ∈ C, want l ∈ C

namespace Ring
variable {C : Set L} (r : Ring acts C)

omit [DecidableEq ι] [DecidableEq L] in
theorem task_inj {l l' : L} (hl : l ∈ C) (hl' : l' ∈ C) (h : r.task l = r.task l') : l = l' := by
  have := (r.moves l hl).symm.trans ((congrArg acts h).trans (r.moves l' hl'))
  exact Move.take.inj (List.cons.inj this).1

/-- The tasks of the locks `D` have taken their lock and wait; those of the other locks have not begun. -/
structure Parked (D : Finset L) (s : State ι L) : Prop where
  wait : ∀ l ∈ D, s.todo (r.task l) = .take (r.want l) :: r.rest l ∧ s.owner l = some (r.task l)
  idle : ∀ l ∈ C, l ∉ D → s.todo (r.task l) = acts (r.task l) ∧ s.owner l = none
  free : ∀ l ∉ C, s.owner l = none

variable {r} {D : Finset L}

/-- One more task. -/
theorem Parked.park {l : L} (h : r.Parked D s) (hl : l ∈ C) (hlD : l ∉ D) (hD : ∀ l ∈ D, l ∈ C) :
    ∃ s', ReflTransGen Step s s' ∧ r.Parked (insert l D) s' := by
  let c := r.task l
  let tail := Move.take (r.want l) :: r.rest l
  let s₁ : State ι L := ⟨update s.todo c (r.pre l ++ tail), update s.owner l (some c)⟩
  have htake : Step s s₁ := .take ((h.idle l hl hlD).1.trans (r.moves l hl)) (h.idle l hl hlD).2
  have hfree : ∀ n ∉ C, s₁.owner n = none := by
    intro n hn
    have hne : n ≠ l := fun he => hn (he ▸ hl)
    dsimp only [s₁]
    rw [update_of_ne hne]
    exact h.free n hn
  have hpass : ReflTransGen Step s₁ ⟨update s₁.todo c tail, s₁.owner⟩ :=
    (r.avoids l hl).run (update_self ..) hfree
  have hother : ∀ l' ∈ C, l' ≠ l → r.task l' ≠ c := fun l' hl' hne he => hne (r.task_inj hl' hl he)
  refine ⟨_, .head htake hpass, fun l' hl' => ?_, fun l' hl' hl'D => ?_, hfree⟩
  · by_cases hne : l' = l
    · subst hne
      exact ⟨update_self .., update_self ..⟩
    · have hl'D := (Finset.mem_insert.mp hl').resolve_left hne
      have htask := hother l' (hD l' hl'D) hne
      dsimp only [s₁]
      rw [update_of_ne htask, update_of_ne htask, update_of_ne hne]
      exact h.wait l' hl'D
  · rw [Finset.mem_insert, not_or] at hl'D
    have htask := hother l' hl' hl'D.1
    dsimp only [s₁]
    rw [update_of_ne htask, update_of_ne htask, update_of_ne hl'D.1]
    exact h.idle l' hl' hl'D.2

variable (r) in
/-- All of them. -/
theorem parked (D : Finset L) (hD : ∀ l ∈ D, l ∈ C) : ∃ s, Reachable acts s ∧ r.Parked D s := by
  induction D using Finset.induction_on with
  | empty => exact ⟨init acts, .refl, by simp, fun _ _ _ => ⟨rfl, rfl⟩, fun _ _ => rfl⟩
  | insert l D hlD ih =>
    have hD' : ∀ l ∈ D, l ∈ C := fun l' hl' => hD l' (Finset.mem_insert_of_mem hl')
    obtain ⟨s, hs, hparked⟩ := ih hD'
    obtain ⟨s', hs', hparked'⟩ := hparked.park (hD l (Finset.mem_insert_self ..)) hlD hD'
    exact ⟨s', ReflTransGen.trans hs hs', hparked'⟩

theorem deadlocked [Finite ι] (r : Ring acts C) (hne : C.Nonempty) :
    ∃ s tasks, Reachable acts s ∧ Deadlocked s tasks := by
  have hfinite : C.Finite :=
    Set.Finite.of_injOn (f := r.task) (t := Set.univ) (fun _ _ => Set.mem_univ _)
      (fun l hl l' hl' h => r.task_inj hl hl' h) (Set.toFinite _)
  obtain ⟨s, hs, hparked⟩ := r.parked hfinite.toFinset fun l hl => hfinite.mem_toFinset.mp hl
  have hwait := fun l hl => hparked.wait l (hfinite.mem_toFinset.mpr hl)
  refine ⟨s, r.task '' C, hs, hne.image r.task, ?_⟩
  rintro c ⟨l, hl, rfl⟩
  exact ⟨r.want l, r.rest l, (hwait l hl).1, r.task (r.want l), ⟨r.want l, r.closed l hl, rfl⟩,
    (hwait (r.want l) (r.closed l hl)).2⟩

end Ring

/-- The locks on the cycles through `l₀`. -/
def Cycle (acts : ι → List (Move L)) (l₀ : L) : Set L :=
  {l | TransGen (LockOrder acts) l₀ l ∧ TransGen (LockOrder acts) l l₀}

omit [DecidableEq ι] in
/-- The next lock on a cycle. -/
theorem cycle_next (hfans : ∀ c, Fans (acts c)) {l₀ l : L} (hl : l ∈ Cycle acts l₀) :
    ∃ c pre l' rest, acts c = .take l :: (pre ++ .take l' :: rest) ∧ Avoids (Cycle acts l₀) pre ∧
      l' ∈ Cycle acts l₀ := by
  obtain ⟨hto, hfrom⟩ := hl
  obtain ⟨l', ⟨c, ho⟩, hback⟩ := TransGen.head'_iff.mp hfrom
  have hl' : l' ∈ Cycle acts l₀ := by
    refine ⟨hto.tail ⟨c, ho⟩, ?_⟩
    obtain rfl | hback := reflTransGen_iff_eq_or_transGen.mp hback
    · exact hto.trans hfrom
    · exact hback
  exact ⟨c, (hfans c).enters ho hl'⟩

/-- **A cycle is a deadlock**: each lock on it can be taken by a task that then waits for another one on it. -/
theorem exists_deadlocked [Finite ι] (hfans : ∀ c, Fans (acts c)) {l₀ : L}
    (hcycle : TransGen (LockOrder acts) l₀ l₀) : ∃ s tasks, Reachable acts s ∧ Deadlocked s tasks := by
  have hnext := fun l (hl : l ∈ Cycle acts l₀) => cycle_next hfans hl
  have : Nonempty ι := by
    obtain ⟨c, -⟩ := hnext l₀ ⟨hcycle, hcycle⟩
    exact ⟨c⟩
  choose! task pre want rest hmoves havoids hwant using hnext
  exact Ring.deadlocked ⟨task, pre, want, rest, hmoves, havoids, hwant⟩ ⟨l₀, hcycle, hcycle⟩

/-- **Freedom from deadlock** is freedom of the lock order from cycles. -/
theorem deadlock_free_iff [Finite ι] (hfans : ∀ c, Fans (acts c)) :
    (∀ s tasks, Reachable acts s → ¬ Deadlocked s tasks) ↔ ∀ l, ¬ TransGen (LockOrder acts) l l := by
  refine ⟨fun h l hcycle => ?_, fun h s tasks hs => not_deadlocked h hs tasks⟩
  obtain ⟨s, tasks, hs, hdead⟩ := exists_deadlocked hfans hcycle
  exact h s tasks hs hdead

end LinuxEvfs.Lib.Deadlock
