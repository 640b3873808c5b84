import LinuxEvfs.ExtMove.Atomic
import LinuxEvfs.Lib.Runs
import Mathlib.Logic.Function.Basic

/-! # The version check between clients

Clients read the raw word of `i_version` and later hand it to `evfs_extent_move`, which goes ahead if
the inode still has it. Between the two, other clients move, ordinary writes follow the protocol of
`linux/iversion.h`, and others query the version.

A move does not touch `i_version`, and a write does so only when the version has been queried since the
last increment. `version_check_iff` says which steps let a client pass the check on a mapping that has
changed since it read the version: those that change the mapping and not the word while another client
has read the word. -/

namespace LinuxEvfs.ExtMove.Version

open LinuxEvfs.Lib.Runs LinuxEvfs.Lib.Holes
open LinuxEvfs.ExtTree.Basic LinuxEvfs.ExtTree.Cells LinuxEvfs.ExtTree.Tree
open LinuxEvfs.ExtMove.Model LinuxEvfs.ExtMove.Cursor LinuxEvfs.ExtMove.Loop LinuxEvfs.ExtMove.Exact
open LinuxEvfs.ExtMove.Atomic

/-! ### The protocol of `linux/iversion.h` -/

/-- `I_VERSION_QUERIED` is bit 0 of the raw word. -/
def queried (raw : ℕ) : Prop := raw % 2 = 1

instance (raw : ℕ) : Decidable (queried raw) := inferInstanceAs (Decidable (raw % 2 = 1))

/-- `inode_query_iversion`: sets the flag. -/
def inodeQueryIversion (raw : ℕ) : ℕ := if queried raw then raw else raw + 1

/-- `inode_maybe_inc_iversion`: the increment is left out while the flag is clear, unless forced; it
clears the flag. -/
def inodeMaybeIncIversion (force : Bool) (raw : ℕ) : ℕ :=
  if force = false ∧ ¬ queried raw then raw else (raw - raw % 2 + 2) % 2 ^ 64

theorem le_query (raw : ℕ) : raw ≤ inodeQueryIversion raw := by
  unfold inodeQueryIversion
  split_ifs <;> omega

/-- An increment that is made and does not wrap. -/
theorem lt_inc {force : Bool} {raw : ℕ} (h : force = true ∨ queried raw) (hlt : raw + 2 < 2 ^ 64) :
    raw < inodeMaybeIncIversion force raw := by
  unfold inodeMaybeIncIversion
  rw [if_neg (by rintro ⟨h1, h2⟩; rcases h with h | h <;> simp_all)]
  rw [Nat.mod_eq_of_lt (by omega)]
  omega

theorem inc_eq {force : Bool} {raw : ℕ} (h : ¬ (force = true ∨ queried raw)) :
    inodeMaybeIncIversion force raw = raw := by
  obtain ⟨h1, h2⟩ := not_or.mp h
  exact if_pos ⟨by simpa using h1, h2⟩

/-! ### Clients -/

/-- The inode, the version each client has read and not used yet, and the clients for which the mapping
has changed since. -/
structure Sys (C : Type) where
  ino : Inode
  seen : C → Option ℕ
  stale : C → Prop

/-- A client reads the version; a client moves; an ordinary write leaves the extent tree `tree`; the
version is queried. -/
inductive Event (C : Type) where
  | iver (k : C)
  | move (k : C) (env : Env) (ext : EvfsExt)
  | write (force : Bool) (tree : ExtRoot)
  | query

/-- The two lists map every block alike. -/
def SameMap (m m' : List Extent) : Prop := ∀ L, blockMap m' L = blockMap m L

theorem SameMap.unchanged {m m' : List Extent} (h : SameMap m m') : Unchanged m m' := fun L => by
  rw [h L]

variable {C : Type}

/-- A client whose version is already stale stays so; all become stale when the mapping changes. -/
def Sys.marked (s : Sys C) (t : ExtRoot) (k : C) : Prop :=
  s.stale k ∨ ¬ SameMap (exts s.ino.tree) (exts t)

/-- **One step.** The inode lock makes each of them atomic. A client uses a version it read once. -/
inductive Step [DecidableEq C] (sb : Super) (fuel : ℕ) : Sys C → Event C → Sys C → Prop
  | iver (s : Sys C) (k : C) : Step sb fuel s (.iver k)
      { s with
        seen := Function.update s.seen k (some (evfsIver s.ino))
        stale := Function.update s.stale k False }
  | move {s : Sys C} {k : C} {v : ℕ} {env : Env} {ext : EvfsExt} {ino' : Inode} {ret : ℤ}
      {out : List EvfsExt} (hv : s.seen k = some v)
      (h : evfsExtentMove sb.blocksize env fuel s.ino ⟨v, ext⟩ = .ret (ino', ret, out)) :
      Step sb fuel s (.move k env ext)
        ⟨ino', Function.update s.seen k none, s.marked ino'.tree⟩
  | write (s : Sys C) (force : Bool) (tree : ExtRoot) : Step sb fuel s (.write force tree)
      ⟨⟨tree, inodeMaybeIncIversion force s.ino.iVersion⟩, s.seen, s.marked tree⟩
  | query (s : Sys C) : Step sb fuel s .query
      { s with ino := { s.ino with iVersion := inodeQueryIversion s.ino.iVersion } }

/-- **No lost update**: where a client would pass the check, the mapping has not changed since it read
the version. -/
def NoLost (s : Sys C) : Prop := ∀ k, s.seen k = some (evfsIver s.ino) → ¬ s.stale k

/-- A step that changes the mapping moves the word, or no other client has read the word. -/
def StepOk (s : Sys C) : Event C → Prop
  | .iver _ => True
  | .query => True
  | .write force tree => (force = true ∨ queried s.ino.iVersion) ∨
    SameMap (exts s.ino.tree) (exts tree) ∨ ∀ k, s.seen k ≠ some (evfsIver s.ino)
  | .move k env ext => (∀ v, s.seen k = some v → Idle env s.ino ⟨v, ext⟩) ∨
    ∀ j, j ≠ k → s.seen j ≠ some (evfsIver s.ino)

/-- A move finds a well-formed map and is given blocks the file does not use; the counter of 63 bits
does not wrap. -/
def Regular (sb : Super) (s : Sys C) : Event C → Prop
  | .move _ _ ext => WellFormed s.ino.tree ∧ InFs sb s.ino.tree ∧ NewPlace s.ino ext
  | .write _ _ => s.ino.iVersion + 2 < 2 ^ 64
  | _ => True

/-! ### One step -/

/-- The versions read are not ahead of the inode's. -/
def SeenLe (s : Sys C) : Prop := ∀ k v, s.seen k = some v → v ≤ evfsIver s.ino

theorem move_iver {blocksize fuel : ℕ} {env : Env} {ino ino' : Inode} {args : MvIn} {ret : ℤ}
    {out : List EvfsExt}
    (h : evfsExtentMove blocksize env fuel ino args = .ret (ino', ret, out)) :
    evfsIver ino' = evfsIver ino := by
  rcases move_cases h with ⟨-, rfl, -⟩ | ⟨-, st, r, -, rfl, -⟩ <;> rfl

/-- A word ahead of all versions read is nobody's. -/
theorem SeenLe.noLost {s : Sys C} (hI : SeenLe s) (ino : Inode) (hlt : evfsIver s.ino < evfsIver ino)
    (stale : C → Prop) : NoLost (Sys.mk ino s.seen stale) := fun k hk =>
  absurd (hI k _ hk) (Nat.not_le.mpr hlt)

section step
variable [DecidableEq C] {sb : Super} {fuel : ℕ} {s s' : Sys C} {ev : Event C}

theorem update_eq_some {f : C → Option ℕ} {k j : C} {w : Option ℕ} {v : ℕ}
    (h : Function.update f k w j = some v) : (j = k ∧ w = some v) ∨ (j ≠ k ∧ f j = some v) := by
  by_cases hjk : j = k
  · subst hjk
    rw [Function.update_self] at h
    exact .inl ⟨rfl, h⟩
  · rw [Function.update_of_ne hjk] at h
    exact .inr ⟨hjk, h⟩

theorem Step.seenLe (h : Step sb fuel s ev s') (hr : Regular sb s ev) (hI : SeenLe s) : SeenLe s' := by
  cases h with
  | iver k =>
    intro j v hj
    rcases update_eq_some hj with ⟨-, hv⟩ | ⟨-, hj⟩
    · exact (Option.some.inj hv).ge
    · exact hI j v hj
  | @move k _ _ _ _ _ _ _ hm =>
    intro j v hj
    rcases update_eq_some hj with ⟨-, hv⟩ | ⟨-, hj⟩
    · cases hv
    · exact (hI j v hj).trans (move_iver hm).ge
  | write force tree =>
    intro j v hj
    have hle := hI j v hj
    by_cases hinc : force = true ∨ queried s.ino.iVersion
    · exact hle.trans (lt_inc hinc hr).le
    · exact hle.trans (inc_eq hinc).ge
  | query => exact fun j v hj => (hI j v hj).trans (le_query _)

/-- **A step keeps the check sound** exactly when it is a step of the condition. -/
theorem Step.noLost_iff (hfuel : 3 ≤ fuel) (h : Step sb fuel s ev s') (hr : Regular sb s ev)
    (hI : SeenLe s) (hN : NoLost s) : NoLost s' ↔ StepOk s ev := by
  cases h with
  | iver k =>
    refine ⟨fun _ => trivial, fun _ j hj => ?_⟩
    by_cases hjk : j = k
    · subst hjk
      simp only [Function.update_self, not_false_eq_true]
    · simp only [Function.update_of_ne hjk] at hj ⊢
      exact hN j hj
  | query =>
    refine ⟨fun _ => trivial, fun _ => ?_⟩
    by_cases hq : queried s.ino.iVersion
    · rw [inodeQueryIversion, if_pos hq]
      exact hN
    · rw [inodeQueryIversion, if_neg hq]
      exact hI.noLost ⟨s.ino.tree, _⟩ (Nat.lt_succ_self s.ino.iVersion) _
  | write force tree =>
    by_cases hinc : force = true ∨ queried s.ino.iVersion
    · exact ⟨fun _ => .inl hinc, fun _ => hI.noLost ⟨tree, _⟩ (lt_inc hinc hr) _⟩
    rw [inc_eq hinc]
    constructor
    · intro hN'
      refine .inr ?_
      by_contra hno
      obtain ⟨hne, hk⟩ := not_or.mp hno
      obtain ⟨k, hk⟩ := not_forall.mp hk
      exact hN' k (not_not.mp hk) (.inr hne)
    · rintro (h | hsame | hno) k hk
      · exact absurd h hinc
      · rintro (hst | hne)
        · exact hN k hk hst
        · exact hne hsame
      · exact absurd hk (hno k)
  | @move k v env ext ino' ret out hv hm =>
    obtain ⟨hw, hfs, hnew⟩ := hr
    have hiv := move_iver hm
    constructor
    · intro hN'
      by_contra hno
      simp only [StepOk, not_or, not_forall, not_not] at hno
      obtain ⟨⟨v', hv', hidle⟩, j, hjk, hj⟩ := hno
      obtain rfl : v = v' := Option.some.inj (hv.symm.trans hv')
      refine hN' j ?_ (.inr fun hsame => move_not_idle hfuel hw hm hnew hidle hsame.unchanged)
      simp only [Function.update_of_ne hjk, hj, hiv]
    · rintro hok j hj
      rcases update_eq_some hj with ⟨-, hv⟩ | ⟨hjk, hj⟩
      · cases hv
      rw [hiv] at hj
      rcases hok with hidle | hno
      · rintro (hst | hne)
        · exact hN j hj hst
        · exact hne fun L => move_idle hfuel hw hfs hm (hidle v hv) L
      · exact absurd hj (hno j hjk)

end step

/-! ### Runs -/

/-- **The version check over whole runs**, from a state in which no client has read the version: it is
sound in every state reached if and only if every step that changes the mapping moves the word, or is
made when no other client has read the word. -/
theorem version_check_iff [DecidableEq C] (sb : Super) (fuel : ℕ) (s : Sys C) (l : List (Event C × Sys C))
    (hfuel : 3 ≤ fuel) (hinit : ∀ k, s.seen k = none) (hrun : Run (Step sb fuel) s l)
    (hreg : Along (Regular sb) s l) : (∀ x ∈ l, NoLost x.2) ↔ Along StepOk s l := by
  refine hrun.forall_iff (fun h => h.seenLe) (fun h => h.noLost_iff hfuel) ?_ ?_ hreg
  · intro k v hk
    rw [hinit k] at hk
    cases hk
  · intro k hk
    rw [hinit k] at hk
    cases hk

/-- Two clients, an inode with one extent, and nothing read yet. -/
def oneExtent : Sys Bool where
  ino := leafInode [⟨0, 4, 100⟩] 6
  seen := fun _ => none
  stale := fun _ => False

/-- Both clients read the version 6, and both moves pass the check. -/
theorem two_moves_pass : ∃ a b c d : Sys Bool,
    Run (Step ⟨4096, 4000, by decide⟩ 3) oneExtent
      [(.iver false, a), (.iver true, b), (.move false allSucceed (EvfsExt.of 0 1000 4), c),
        (.move true allSucceed (EvfsExt.of 0 2000 4), d)] ∧
      ¬ NoLost c ∧ blockMap (exts c.ino.tree) 0 = some (1000, false) ∧
      blockMap (exts d.ino.tree) 0 = some (2000, false) := by
  refine ⟨_, _, _, _, .cons (.iver _ _) (.cons (.iver _ _) (.cons (.move rfl rfl)
    (.cons (.move rfl rfl) (.nil _)))), fun h => ?_, rfl, rfl⟩
  refine h true rfl (.inr fun hsame => ?_)
  exact absurd (hsame 0) (by decide)

theorem oneExtent_newPlace : NewPlace oneExtent.ino (EvfsExt.of 0 1000 4) := by
  rintro i - d ⟨hh, -, -⟩
  have h0 : (EvfsExt.of 0 1000 4).logStart ∈ mapped (exts oneExtent.ino.tree) :=
    show Mapped [⟨0, 4, 100⟩] 0 by decide
  cases hh with
  | zero => decide
  | succ _ hs _ => exact absurd h0 hs.not_mem

/-- The second client reads the version after the first one has moved. -/
theorem moves_in_turn_pass : ∃ a b c : Sys Bool,
    Run (Step ⟨4096, 4000, by decide⟩ 3) oneExtent
      [(.iver false, a), (.move false allSucceed (EvfsExt.of 0 1000 4), b), (.iver true, c)] ∧
      NoLost c ∧ c.seen true = some (evfsIver c.ino) := by
  obtain ⟨ino, out, hret⟩ : ∃ ino out, evfsExtentMove 4096 allSucceed 3 oneExtent.ino
      ⟨6, EvfsExt.of 0 1000 4⟩ = .ret (ino, 0, out) := ⟨_, _, rfl⟩
  have hrun : Run (Step ⟨4096, 4000, by decide⟩ 3) oneExtent [(.iver false, _),
      (.move false allSucceed (EvfsExt.of 0 1000 4), _), (.iver true, _)] :=
    .cons (.iver _ _) (.cons (.move rfl hret) (.cons (.iver _ _) (.nil _)))
  refine ⟨_, _, _, hrun, (version_check_iff ⟨4096, 4000, by decide⟩ 3 oneExtent _ (Nat.le_refl 3)
    (fun _ => rfl) hrun ?_).mpr ?_ _
    (List.mem_cons_of_mem _ (List.mem_cons_of_mem _ List.mem_cons_self)), rfl⟩
  · have hw : WellFormed oneExtent.ino.tree := leafInode_wellFormed (by decide) 6
    exact ⟨trivial, ⟨hw, inFs_of_extents hw (by decide), oneExtent_newPlace⟩, trivial, trivial⟩
  · refine ⟨trivial, .inr fun j hj => ?_, trivial, trivial⟩
    cases j with
    | false => exact absurd rfl hj
    | true => exact nofun

end LinuxEvfs.ExtMove.Version
