import LinuxEvfs.Inodes.Undo
import LinuxEvfs.Lib.Runs

/-! # The unused part of the inode table

`itable_unused` says how many inodes at the end of a group's table were never used. The allocation
lowers it to what is behind the new inode, if the offset of the inode is beyond the inodes used so
far. The offset counts from zero, so the first inode behind them is not beyond.

* `AllocOk`: the allocations that keep `itable_unused` right.
* `itable_unused_iff`: in a run of allocations and frees, every inode in use is in the used part of the
  table and the unused part never grows, exactly if every allocation meets `AllocOk`.
* `itable_unused_missed`: the first inode of an uninitialised group. -/

namespace LinuxEvfs.Inodes

open LinuxEvfs.Errno Lib.Word Lib.Runs

variable {geo : Layout}

/-! ### Runs -/

inductive Event where
  | alloc (env : Env) (iindex : ℕ)
  | free (iindex : ℕ)

/-- Allocations that succeed, and frees. -/
inductive Step (geo : Layout) : State → Event → State → Prop
  | alloc {s s' : State} {env : Env} {iindex : ℕ} (h : evfsInodeAlloc geo env s iindex = (s', 0)) :
      Step geo s (.alloc env iindex) s'
  | free {s : State} {iindex : ℕ} : Step geo s (.free iindex) (ext4FreeInode geo s iindex)

/-- The inodes in use of the initialised groups are in the used part of the table. -/
def Used (geo : Layout) (s : State) : Prop :=
  ∀ g, (s.groups g).inodeUninit = false → ∀ o < geo.inodesPerGroup, (s.groups g).bitmap o = true →
    o + (s.groups g).itableUnused < geo.inodesPerGroup

/-- The other groups have no inode in use. -/
def Fresh (geo : Layout) (s : State) : Prop :=
  ∀ g, (s.groups g).inodeUninit = true → ∀ o < geo.inodesPerGroup, (s.groups g).bitmap o = false

/-- What a step must do: every inode in use is in the used part, which does not shrink. -/
def StepKeeps (geo : Layout) (s : State) (_ : Event) (s' : State) : Prop :=
  Used geo s' ∧ ∀ g, (s'.groups g).itableUnused ≤ (s.groups g).itableUnused

/-- In an initialised group the inode is in the used part or beyond its end; the first inode of an
uninitialised group needs a table that has a used part, and another one a table that is unused from
there on. -/
def AllocOk (geo : Layout) (offset : ℕ) (gr : Group) : Prop :=
  if gr.inodeUninit then
    if offset = 0 then gr.itableUnused < geo.inodesPerGroup
    else geo.inodesPerGroup ≤ gr.itableUnused + offset + 1
  else offset + gr.itableUnused < geo.inodesPerGroup ∨ highWater geo gr.itableUnused < offset

def StepOk (geo : Layout) (s : State) : Event → Prop
  | .alloc _ iindex => AllocOk geo (offsetOf geo iindex) (s.groups (groupOf geo iindex))
  | .free _ => True

/-! ### One allocation -/

theorem offsetOf_lt (geo : Layout) (iindex : ℕ) : offsetOf geo iindex < geo.inodesPerGroup :=
  Nat.mod_lt _ geo.ipg_pos

/-- What a successful allocation does to the groups. -/
theorem evfsInodeAlloc_groups {s s' : State} {env : Env} {iindex : ℕ}
    (h : evfsInodeAlloc geo env s iindex = (s', 0)) :
    s'.groups = Function.update s.groups (groupOf geo iindex)
      (updateDesc geo (groupOf geo iindex) (offsetOf geo iindex)
        ((s.groups (groupOf geo iindex)).setBit (offsetOf geo iindex) true)) := by
  have hret : (evfsInodeAlloc geo env s iindex).2 = 0 := by rw [h]
  have hnr : ¬ Refused geo env s iindex := fun hr => by
    have := (evfsInodeAlloc_of_refused hr).2
    omega
  have hacc := (evfsInodeAlloc_of_not_refused hnr).2.mp (by omega)
  rw [← evfsInodeAlloc_of_accepted hnr hacc, h]

theorem storeCount_unused (geo : Layout) (offset : ℕ) :
    storeCount geo (geo.inodesPerGroup - offset - 1) = geo.inodesPerGroup - offset - 1 := by
  have hle := geo.ipg_le
  have hpos := geo.ipg_pos
  exact Nat.mod_eq_of_lt (by omega)

/-- What the allocation sets `itable_unused` to. -/
def newUnused (geo : Layout) (offset : ℕ) (gr : Group) : ℕ :=
  if (if gr.inodeUninit then 0 else highWater geo gr.itableUnused) < offset then
    geo.inodesPerGroup - offset - 1 else gr.itableUnused

/-- The update of a descriptor on a file system with group-descriptor checksums. -/
theorem updateDesc_fields (hcs : geo.groupDescCsum = true) (group offset : ℕ) (gr : Group) :
    (updateDesc geo group offset gr).bitmap = gr.bitmap ∧
    (updateDesc geo group offset gr).inodeUninit = false ∧
    (updateDesc geo group offset gr).itableUnused = newUnused geo offset gr := by
  unfold updateDesc updateCsum newUnused
  rw [if_pos hcs, storeCount_unused]
  cases gr.blockUninit with
  | false =>
    simp only [Bool.false_eq_true, if_false]
    generalize (if gr.inodeUninit then 0 else highWater geo gr.itableUnused) = free
    by_cases hlt : free < offset
    · simp only [if_pos hlt, and_self]
    · simp only [if_neg hlt, and_self]
  | true =>
    simp only [if_true]
    generalize (if gr.inodeUninit then 0 else highWater geo gr.itableUnused) = free
    by_cases hlt : free < offset
    · simp only [if_pos hlt, and_self]
    · simp only [if_neg hlt, and_self]

/-- If the inode is in the used part, it is not beyond its end. -/
theorem highWater_of_lt {offset unused : ℕ} (h : offset + unused < geo.inodesPerGroup) :
    highWater geo unused = geo.inodesPerGroup - unused := by
  have := geo.ipg_lt
  unfold highWater
  rw [sub64_of_le (by omega) (by omega)]
  dsimp only
  rw [Nat.mod_eq_of_lt (by omega), if_pos (by omega)]

/-- **One allocation** keeps `itable_unused` right exactly if it meets `AllocOk`. -/
theorem allocOk_iff {offset : ℕ} (ho : offset < geo.inodesPerGroup) (gr : Group) :
    (offset + newUnused geo offset gr < geo.inodesPerGroup ∧
      newUnused geo offset gr ≤ gr.itableUnused) ↔ AllocOk geo offset gr := by
  unfold AllocOk newUnused
  by_cases hu : gr.inodeUninit = true
  · rw [if_pos hu]
    simp only [hu, if_true]
    by_cases h0 : offset = 0
    · rw [if_pos h0, if_neg (by omega)]
      omega
    · rw [if_neg h0, if_pos (by omega)]
      omega
  · rw [if_neg hu]
    simp only [hu, if_false, Bool.false_eq_true]
    by_cases hw : highWater geo gr.itableUnused < offset
    · have hnot : ¬ offset + gr.itableUnused < geo.inodesPerGroup := fun hlt => by
        rw [highWater_of_lt hlt] at hw
        omega
      rw [if_pos hw]
      omega
    · rw [if_neg hw]
      omega

/-! ### Steps -/

/-- A step that touches one group: what it must keep is about this group. -/
theorem stepKeeps_update {s s' : State} {e : Event} {group : ℕ} {gr : Group}
    (h : s'.groups = Function.update s.groups group gr) (hI : Used geo s) :
    StepKeeps geo s e s' ↔
      ((gr.inodeUninit = false → ∀ o < geo.inodesPerGroup, gr.bitmap o = true →
        o + gr.itableUnused < geo.inodesPerGroup) ∧
        gr.itableUnused ≤ (s.groups group).itableUnused) := by
  unfold StepKeeps Used
  rw [h]
  constructor
  · rintro ⟨hu, hle⟩
    exact ⟨by simpa only [Function.update_self] using hu group,
      by simpa only [Function.update_self] using hle group⟩
  · rintro ⟨hu, hle⟩
    refine ⟨fun g => ?_, fun g => ?_⟩
    · rcases eq_or_ne g group with rfl | hne
      · simpa only [Function.update_self] using hu
      · simpa only [Function.update_of_ne hne] using hI g
    · rcases eq_or_ne g group with rfl | hne
      · simpa only [Function.update_self] using hle
      · rw [Function.update_of_ne hne]

theorem free_groups (geo : Layout) (s : State) (iindex : ℕ) :
    ∃ n, (ext4FreeInode geo s iindex).groups = Function.update s.groups (groupOf geo iindex)
      { (s.groups (groupOf geo iindex)).setBit (offsetOf geo iindex) false with freeInodes := n } :=
  ⟨_, rfl⟩

theorem bit_of_cleared {f : ℕ → Bool} {i o : ℕ} (h : Function.update f i false o = true) :
    f o = true := by
  rcases eq_or_ne o i with rfl | hne
  · rw [Function.update_self] at h; cases h
  · rwa [Function.update_of_ne hne] at h

theorem step_exact (hcs : geo.groupDescCsum = true) {s s' : State} {e : Event}
    (h : Step geo s e s') (hI : Used geo s ∧ Fresh geo s) :
    StepKeeps geo s e s' ↔ StepOk geo s e := by
  cases h with
  | @free iindex =>
    obtain ⟨n, hgr⟩ := free_groups geo s iindex
    rw [stepKeeps_update hgr hI.1]
    simp only [Group.setBit]
    exact iff_of_true ⟨fun hu o ho hb => hI.1 _ hu o ho (bit_of_cleared hb), le_rfl⟩ trivial
  | @alloc _ env iindex h =>
    obtain ⟨hbit, hun, huse⟩ := updateDesc_fields hcs (groupOf geo iindex) (offsetOf geo iindex)
      ((s.groups (groupOf geo iindex)).setBit (offsetOf geo iindex) true)
    have ho := offsetOf_lt geo iindex
    have hsame : newUnused geo (offsetOf geo iindex)
        ((s.groups (groupOf geo iindex)).setBit (offsetOf geo iindex) true) =
        newUnused geo (offsetOf geo iindex) (s.groups (groupOf geo iindex)) := rfl
    rw [stepKeeps_update (evfsInodeAlloc_groups h) hI.1, hbit, hun, huse, hsame, StepOk,
      ← allocOk_iff ho]
    simp only [Group.setBit, forall_const]
    constructor
    · rintro ⟨hall, hle⟩
      exact ⟨hall _ ho (Function.update_self ..), hle⟩
    · rintro ⟨hnew, hle⟩
      refine ⟨fun o hlt hb => ?_, hle⟩
      by_cases hoff : o = offsetOf geo iindex
      · rw [hoff]
        exact hnew
      rw [Function.update_of_ne hoff] at hb
      -- an older inode: its group was initialised, and the unused part did not grow
      cases hin : (s.groups (groupOf geo iindex)).inodeUninit with
      | true =>
        rw [hI.2 _ hin o hlt] at hb
        cases hb
      | false =>
        have := hI.1 _ hin o hlt hb
        omega

theorem step_fresh (hcs : geo.groupDescCsum = true) {s s' : State} {e : Event}
    (h : Step geo s e s') (hf : Fresh geo s) : Fresh geo s' := by
  intro g hg o ho
  cases h with
  | @free iindex =>
    obtain ⟨n, hgr⟩ := free_groups geo s iindex
    rw [hgr] at hg ⊢
    rcases eq_or_ne g (groupOf geo iindex) with rfl | hne
    · simp only [Function.update_self, Group.setBit] at hg ⊢
      by_contra hb
      have := bit_of_cleared (eq_true_of_ne_false hb)
      rw [hf _ hg o ho] at this
      cases this
    · simp only [Function.update_of_ne hne] at hg ⊢
      exact hf g hg o ho
  | @alloc _ env iindex h =>
    have hgr := evfsInodeAlloc_groups h
    rw [hgr] at hg ⊢
    rcases eq_or_ne g (groupOf geo iindex) with rfl | hne
    · rw [Function.update_self, (updateDesc_fields hcs _ _ _).2.1] at hg
      cases hg
    · simp only [Function.update_of_ne hne] at hg ⊢
      exact hf g hg o ho

/-- **`itable_unused`.** Along a run every inode in use stays in the used part of the table, and the
unused part never grows, exactly if every allocation meets `AllocOk`. -/
theorem itable_unused_iff (geo : Layout) (hcs : geo.groupDescCsum = true) {s : State}
    (hu : Used geo s) (hf : Fresh geo s) {l : List (Event × State)} (hr : Run (Step geo) s l) :
    Chain (StepKeeps geo) s l ↔ Along (StepOk geo) s l :=
  hr.chain_iff (P := StepOk geo) (I := fun s => Used geo s ∧ Fresh geo s)
    (fun h hI hk => ⟨hk.1, step_fresh hcs h hI.2⟩) (step_exact hcs) ⟨hu, hf⟩

/-! ### A file system of one group -/

/-- One group of 64 inodes, with group-descriptor checksums. -/
def csumLayout : Layout := { tinyLayout with groupDescCsum := true }

/-- The inodes before `n` are in use, or none and the group is uninitialised. -/
def usedState (n : ℕ) : State where
  groups _ := ⟨(decide <| · < n), 64 - n, 64 - n, 0, false, n == 0⟩
  freeInodes := 64 - n
  tracked _ := false

theorem usedState_used (n : ℕ) : Used csumLayout (usedState n) := by
  intro g _ o ho hb
  have hlt : o < n := of_decide_eq_true hb
  change o < 64 at ho
  change o + (64 - n) < 64
  omega

theorem usedState_fresh (n : ℕ) : Fresh csumLayout (usedState n) := by
  intro g hg o _
  have hn : n = 0 := eq_of_beq hg
  subst hn
  rfl

/-- **Not counted.** The first inode of an uninitialised group, and the first one behind the used part
of a table. -/
theorem itable_unused_missed :
    (let r := evfsInodeAlloc csumLayout (fun _ => none) (usedState 0) 1
     Used csumLayout (usedState 0) ∧ Fresh csumLayout (usedState 0) ∧ r.2 = 0 ∧
      ¬ Used csumLayout r.1) ∧
    (let r := evfsInodeAlloc csumLayout (fun _ => none) (usedState 10) 11
     Used csumLayout (usedState 10) ∧ Fresh csumLayout (usedState 10) ∧ r.2 = 0 ∧
      ¬ Used csumLayout r.1) := by
  refine ⟨⟨usedState_used 0, usedState_fresh 0, by decide, fun h => ?_⟩,
    ⟨usedState_used 10, usedState_fresh 10, by decide, fun h => ?_⟩⟩
  · exact absurd (h 0 (by decide) 0 (by decide) (by decide)) (by decide)
  · exact absurd (h 0 (by decide) 10 (by decide) (by decide)) (by decide)

/-- The second inode behind the used part, and then the one that was skipped. -/
theorem itable_unused_skipping :
    let env : Env := fun _ => none
    let s₁ := (evfsInodeAlloc csumLayout env (usedState 10) 12).1
    let s₂ := (evfsInodeAlloc csumLayout env s₁ 11).1
    Chain (StepKeeps csumLayout) (usedState 10) [(.alloc env 12, s₁), (.alloc env 11, s₂)] := by
  intro env s₁ s₂
  have h₁ : evfsInodeAlloc csumLayout env (usedState 10) 12 = (s₁, 0) :=
    Prod.ext rfl (by decide)
  have h₂ : evfsInodeAlloc csumLayout env s₁ 11 = (s₂, 0) := Prod.ext rfl (by decide)
  refine (itable_unused_iff csumLayout rfl (usedState_used 10) (usedState_fresh 10)
    (.cons (.alloc h₁) (.cons (.alloc h₂) (.nil _)))).mpr ⟨?_, ?_, trivial⟩
  · exact Or.inr (by decide)
  · exact Or.inl (by decide)

end LinuxEvfs.Inodes
