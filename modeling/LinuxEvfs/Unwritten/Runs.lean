import LinuxEvfs.Unwritten.Mark
import Mathlib.Logic.Function.Basic

/-! # No stale data

Requests for the blocks of a file, and data on its way to the device, in any order. A block that has never been written
must not become readable before its data is there.

* `Touches`: the request may make the block written with what the device holds.
* `mapBlocks_step`: a request never stops at a `BUG_ON`, and makes a block written that it does not touch only where it
  has zeroed it.
* `Held`, `fate`: what the device holds for a block after a run. It is `owed` if the block has become readable before
  its data.
* `no_stale`: a run never stops, and a block that is not owed reads as zero or as its latest data.
* `apart_reads`: where there is space, no block outside of the converted ranges is owed. -/

namespace LinuxEvfs.Unwritten.Runs

open LinuxEvfs.Errno LinuxEvfs.Lib.Word LinuxEvfs.Lib.IndexTree
open LinuxEvfs.ExtTree.Basic LinuxEvfs.ExtTree.Cells LinuxEvfs.ExtTree.Tree
open LinuxEvfs.Unwritten.View LinuxEvfs.Unwritten.Model LinuxEvfs.Unwritten.SplitAt LinuxEvfs.Unwritten.SplitExtent
open LinuxEvfs.Unwritten.Convert LinuxEvfs.Unwritten.Mark

variable {α : Type} [Zero α] {f f' : File α} {e : Extent} {l r : List Extent} {lblk len : ℕ}

/-! ### One request -/

/-- The request converts the blocks of an unwritten extent. -/
def Converts (fl : MapFlags) : Prop := fl.preIo = true ∨ fl.convert = true ∨ fl.unwritExt = false ∧ fl.create = true

/-- The split of the request is stale. -/
def Leaks (info : Info) (env : MapEnv) (fl : MapFlags) (f : File α) (e : Extent) (lblk len : ℕ) : Prop :=
  if fl.preIo then Stale env.split (markFlags info e lblk len fl.convertUnwritten) e lblk len
  else if fl.convert then Stale env.endio.split (markFlags info e lblk len false) e lblk len
  else Exposes info env.conv f (ext4FindExtent f.tree lblk) e lblk len

/-- The request splits the range out for data to come, and leaves it unwritten. -/
def Prepares (env : MapEnv) (fl : MapFlags) : Prop :=
  fl.preIo = true ∧ fl.convertUnwritten = false ∧ Roomy env.split.first ∧ Roomy env.split.second

/-- The request may make the block written with what the device holds: it is in the range, or before it in the extent
and the split is stale. -/
def Touches (info : Info) (env : MapEnv) (fl : MapFlags) (f : File α) (lblk len L : ℕ) : Prop :=
  Converts fl ∧ ∃ e, pExt f.tree (ext4FindExtent f.tree lblk) = some e ∧
    (lblk ≤ L ∧ L < lblk + len ∧ ¬ Prepares env fl ∨ Leaks info env fl f e lblk len ∧ e.eeBlock ≤ L ∧ L < lblk)

/-- Answers under which no half of an extent is lost. -/
structure Fine (env : MapEnv) : Prop where
  split : Clean env.split.first ∧ Clean env.split.second
  endio : Clean env.endio.split.first ∧ Clean env.endio.split.second
  zero : Clean env.zero.split.first ∧ Clean env.zero.split.second
  conv : Clean env.conv.split.first ∧ Clean env.conv.split.second

/-- What a request does to the blocks: those that become written are zeroed or `touched`. -/
def Safe (touched : ℕ → Prop) (f f' : File α) : Prop :=
  ∃ g z, Changes g z f f' ∧ ∀ L p, f.map L = some (p, true) → g L true = false → z L = true ∨ touched L

theorem safe_refl {touched : ℕ → Prop} (h : Sound f) : Safe touched f f :=
  ⟨_, _, .refl h, fun _ _ _ h0 => by cases h0⟩

/-- The conversions of a range of an unwritten extent. -/
theorem safe_of_quiet {touched : ℕ → Prop} {g : ℕ → Bool → Bool} {z : ℕ → Bool} (hc : Changes g z f f')
    (hout : ∀ L w, ¬ (e.eeBlock ≤ L ∧ L < e.last) → g L w = w ∧ z L = false)
    (hq : ∀ L, e.eeBlock ≤ L → L < e.last → ¬ touched L → Quiet g z L true) : Safe touched f f' := by
  refine ⟨g, z, hc, fun L p hm hg => ?_⟩
  by_cases hL : e.eeBlock ≤ L ∧ L < e.last
  · by_cases ht : touched L
    · exact .inr ht
    · refine .inl ((hq L hL.1 hL.2 ht).resolve_left fun h0 => ?_)
      rw [hg] at h0
      cases h0
  · rw [(hout L true hL).1] at hg
    cases hg

/-- A request that lies within the logical blocks. -/
structure Fits (lblk len : ℕ) : Prop where
  pos : 0 < len
  lt : lblk + len < 2 ^ 32

section unwritten
variable (info : Info) (env : MapEnv) (fl : MapFlags) (h : Sound f)
  (hat : At f.tree.1 f.tree.2 (ext4FindExtent f.tree lblk) l (some e) r) (hw : ext4ExtIsUnwritten e = true)
  (h1 : e.eeBlock ≤ lblk) (h2 : lblk < e.last) (hr : Fits lblk len) (hf : Fine env)

include hat in
/-- Where a block lies that the request does not touch. -/
theorem untouched {L : ℕ} (hconv : Converts fl) (hL : e.eeBlock ≤ L) (hnot : ¬ Touches info env fl f lblk len L) :
    (lblk ≤ L → L < lblk + len → Prepares env fl) ∧ (Leaks info env fl f e lblk len → lblk ≤ L) := by
  have hget : pExt f.tree (ext4FindExtent f.tree lblk) = some e := hat.item_eq
  refine ⟨fun hL1 hL2 => ?_, fun hs => ?_⟩
  · by_contra hp
    exact hnot ⟨hconv, e, hget, .inl ⟨hL1, hL2, hp⟩⟩
  · by_contra hlt
    exact hnot ⟨hconv, e, hget, .inr ⟨hs, hL, Nat.lt_of_not_le hlt⟩⟩

include h hat hw h1 h2 hr hf

/-- The split before the data comes. -/
theorem split_step (hpre : fl.preIo = true) :
    ∃ f' ret, ext4SplitConvertExtents info env.split f (ext4FindExtent f.tree lblk) lblk len fl.convertUnwritten =
      some (f', ret) ∧ Safe (Touches info env fl f lblk len) f f' := by
  obtain ⟨f', ret, g, z, hrun, hc, hconf, -, hstay⟩ := splitConvert_spec info env.split lblk len fl.convertUnwritten h
    hat (fun _ => hw) h1 h2 hr.pos hr.lt hf.split
  refine ⟨f', ret, hrun, safe_of_quiet hc hconf.outside fun L hL hL' hnot => ?_⟩
  obtain ⟨hin, hleak⟩ := untouched info env fl hat (.inl hpre) hL hnot
  by_cases hrange : lblk ≤ L ∧ L < min (lblk + len) e.last
  · obtain ⟨-, hcu, hroom⟩ := hin hrange.1 (by omega)
    refine .inl (hstay ?_ hw hroom L hrange.1 hrange.2)
    rw [hcu]
    rfl
  · refine hw ▸ hconf.quiet L hL hL' hrange fun hs => hleak ?_
    rw [Leaks, if_pos hpre]
    exact hs

/-- The conversion behind the data. -/
theorem endio_step (hpre : fl.preIo ≠ true) (hcv : fl.convert = true) :
    ∃ f' ret, ext4ConvertUnwrittenExtentsEndio info env.endio f (ext4FindExtent f.tree lblk) lblk len = some (f', ret) ∧
      Safe (Touches info env fl f lblk len) f f' := by
  obtain ⟨f', ret, g, z, hrun, hc, hconf, -⟩ := endio_spec info env.endio h hat hw h1 h2 hr.pos hr.lt hf.endio
  refine ⟨f', ret, hrun, safe_of_quiet hc hconf.outside fun L hL hL' hnot => ?_⟩
  obtain ⟨hin, hleak⟩ := untouched info env fl hat (.inr (.inl hcv)) hL hnot
  refine hw ▸ hconf.quiet L hL hL' (fun hrange => hpre (hin hrange.1 (by omega)).1) fun hs => hleak ?_
  rw [Leaks, if_neg hpre, if_pos hcv]
  exact hs

/-- The conversion of a buffered write. -/
theorem convert_step (hpre : fl.preIo ≠ true) (hcv : fl.convert ≠ true) (hu : fl.unwritExt ≠ true)
    (hcr : fl.create ≠ false) :
    ∃ f' ret, ext4ExtConvertToInitialized info env.conv f (ext4FindExtent f.tree lblk) lblk len = some (f', ret) ∧
      Safe (Touches info env fl f lblk len) f f' := by
  have hconv : Converts fl := .inr (.inr ⟨Bool.eq_false_of_not_eq_true hu, Bool.eq_true_of_not_eq_false hcr⟩)
  obtain ⟨f', ret, g, z, hrun, hc, hcd, -⟩ := convert_spec info env.conv h hat hw h1 h2 hr.pos hr.lt hf.conv
  refine ⟨f', ret, hrun, safe_of_quiet hc hcd.outside fun L hL hL' hnot => ?_⟩
  obtain ⟨hin, hleak⟩ := untouched info env fl hat hconv hL hnot
  refine hcd.quiet L hL hL' (fun hrange => hpre (hin hrange.1 hrange.2).1) fun hs => hleak ?_
  rw [Leaks, if_neg hpre, if_neg hcv]
  exact hs

/-- A request for blocks of an unwritten extent. -/
theorem handleUnwritten_step (allocated newblock : ℕ) :
    ∃ f' r, ext4ExtHandleUnwrittenExtents info env fl f (ext4FindExtent f.tree lblk) lblk len allocated newblock =
      some (f', r) ∧ Safe (Touches info env fl f lblk len) f f' := by
  unfold ext4ExtHandleUnwrittenExtents
  split_ifs with hpre hcv hu hcr
  · obtain ⟨f', ret, hrun, hsafe⟩ := split_step info env fl h hat hw h1 h2 hr hf hpre
    rw [hrun]
    cases ret with
    | error err => exact ⟨f', _, rfl, hsafe⟩
    | ok n => exact ⟨f', _, rfl, hsafe⟩
  · obtain ⟨f', ret, hrun, hsafe⟩ := endio_step info env fl h hat hw h1 h2 hr hf hpre hcv
    rw [hrun]
    cases ret with
    | none => exact ⟨f', _, rfl, hsafe⟩
    | some err => exact ⟨f', _, rfl, hsafe⟩
  · exact ⟨f, _, rfl, safe_refl h⟩
  · exact ⟨f, _, rfl, safe_refl h⟩
  · obtain ⟨f', ret, hrun, hsafe⟩ := convert_step info env fl h hat hw h1 h2 hr hf hpre hcv hu hcr
    rw [hrun]
    cases ret with
    | error err => exact ⟨f', _, rfl, hsafe⟩
    | ok n => exact ⟨f', _, rfl, hsafe⟩

end unwritten

theorem convertLen_le_self (len : ℕ) : convertLen len ≤ len := by
  unfold convertLen EXT_UNWRITTEN_MAX_LEN
  split_ifs <;> omega

/-- **A request** never stops at a `BUG_ON`, and a block that it does not touch becomes written only if it is zeroed. -/
theorem mapBlocks_step (info : Info) (env : MapEnv) (fl : MapFlags) (h : Sound f) (hf : Fine env) (hr : Fits lblk len) :
    ∃ f' r, ext4ExtMapBlocks info env fl f lblk len = some (f', r) ∧ Safe (Touches info env fl f lblk len) f f' := by
  unfold ext4ExtMapBlocks
  cases env.find with
  | some err => exact ⟨f, _, rfl, safe_refl h⟩
  | none =>
    rcases find_cases h.wf lblk with ⟨-, hget⟩ | ⟨l, e, r, hat, -, hget, -, -⟩
    · simp only [hget]
      exact ⟨f, _, rfl, safe_refl h⟩
    · simp only [hget]
      by_cases hcov : e.eeBlock ≤ lblk ∧ lblk < e.last
      · rw [if_pos (show e.eeBlock ≤ lblk ∧ lblk < e.eeBlock + ext4ExtGetActualLen e from hcov)]
        cases hw : ext4ExtIsUnwritten e with
        | false =>
          rw [if_pos rfl]
          by_cases hcu : fl.convertUnwritten = true
          · rw [if_pos hcu]
            have h32 : lblk + convertLen len < 2 ^ 32 := (Nat.add_le_add_left (convertLen_le_self len) _).trans_lt hr.lt
            obtain ⟨f', ret, hrun, hend⟩ := zero_spec info env.zero (ext4ExtGetActualLen e - (lblk - e.eeBlock)) h hat hw
              hcov.1 hcov.2 hr.pos h32 hf.zero
            rw [hrun]
            refine ⟨f', _, rfl, ?_⟩
            rcases hend with ⟨hc, -⟩ | ⟨hc, -⟩
            · refine ⟨_, _, hc, fun L p _ h0 => ?_⟩
              unfold put at h0
              split_ifs at h0
            · exact ⟨_, _, hc, fun L p _ h0 => by cases h0⟩
          · rw [if_neg hcu]
            exact ⟨f, _, rfl, safe_refl h⟩
        | true =>
          rw [if_neg (by decide)]
          obtain ⟨f', ret, hrun, hsafe⟩ := handleUnwritten_step info env fl h hat hw hcov.1 hcov.2 hr hf
            (ext4ExtGetActualLen e - (lblk - e.eeBlock)) (lblk - e.eeBlock + ext4ExtPblock e)
          rw [hrun]
          exact ⟨f', _, rfl, hsafe⟩
      · rw [if_neg (show ¬ (e.eeBlock ≤ lblk ∧ lblk < e.eeBlock + ext4ExtGetActualLen e) from hcov)]
        exact ⟨f, _, rfl, safe_refl h⟩

/-! ### Data that arrives -/

/-- Data arrives at a block of the file. -/
def store (f : File α) (L : ℕ) (c : α) : File α :=
  match f.map L with
  | none => f
  | some (p, _) => { f with disk := Function.update f.disk p c }

omit [Zero α] in
theorem store_tree (f : File α) (L : ℕ) (c : α) : (store f L c).tree = f.tree := by
  unfold store
  split <;> rfl

omit [Zero α] in
theorem store_map (f : File α) (M L : ℕ) (c : α) : (store f M c).map L = f.map L := by
  rw [File.map, store_tree, File.map]

omit [Zero α] in
theorem store_sound (h : Sound f) (M : ℕ) (c : α) : Sound (store f M c) := by
  refine ⟨store_tree f M c ▸ h.wf, fun L p w hm => ?_, fun L L' p w w' hm hm' => ?_⟩
  · exact h.small L p w (store_map f M L c ▸ hm)
  · exact h.inj L L' p w w' (store_map f M L c ▸ hm) (store_map f M L' c ▸ hm')

omit [Zero α] in
/-- The block that the data is for. -/
theorem look_store_self (f : File α) (L : ℕ) (c : α) :
    look (store f L c) L = (look f L).map fun v => (v.1, v.2.1, c) := by
  rw [look, store_map, look, store]
  cases f.map L with
  | none => rfl
  | some v => simp

omit [Zero α] in
/-- Another block: it has another physical block. -/
theorem look_store_ne (h : Sound f) {M L : ℕ} (c : α) (hne : M ≠ L) : look (store f M c) L = look f L := by
  rw [look, store_map, look, store]
  cases hM : f.map M with
  | none => rfl
  | some v =>
    cases hL : f.map L with
    | none => rfl
    | some u =>
      have hp : u.1 ≠ v.1 := fun heq => hne (h.inj M L v.1 v.2 u.2 hM (heq ▸ hL))
      simp [Function.update_of_ne hp]

/-! ### Runs -/

/-- A request, or data that arrives at a block. -/
inductive Event (α : Type)
  | map (env : MapEnv) (fl : MapFlags) (lblk len : ℕ)
  | io (L : ℕ) (c : α)

/-- The requests lie within the logical blocks, and lose no half of an extent. -/
def Event.Ok : Event α → Prop
  | .map env _ lblk len => Fine env ∧ Fits lblk len
  | .io _ _ => True

def step (info : Info) (f : File α) : Event α → Option (File α)
  | .map env fl lblk len => (ext4ExtMapBlocks info env fl f lblk len).map Prod.fst
  | .io L c => some (store f L c)

def run (info : Info) : File α → List (Event α) → Option (File α)
  | f, [] => some f
  | f, ev :: evs => (step info f ev).bind fun f' => run info f' evs

/-- What the device holds for a block: nothing of this file, nothing while the block can be read already, or the data
that came last. -/
inductive Held (α : Type)
  | stale
  | owed
  | data (c : α)

/-- The block before the run. -/
def start (f : File α) (L : ℕ) : Held α :=
  match look f L with
  | some (_, false, c) => .data c
  | _ => .stale

open Classical in
/-- What becomes of it in a step from `f` to `f'`. A block that becomes unwritten gives its data up. -/
noncomputable def follow (info : Info) (L : ℕ) (f f' : File α) (s : Held α) : Event α → Held α
  | .io M c => if M = L then .data c else s
  | .map env fl lblk len =>
    match f.map L, f'.map L with
    | some (_, false), some (_, true) => .stale
    | some (_, true), some (_, false) => if s = .stale ∧ Touches info env fl f lblk len L then .owed else s
    | _, _ => s

/-- What the device holds for a block behind a run. -/
noncomputable def fate (info : Info) (L : ℕ) : File α → Held α → List (Event α) → Held α
  | _, s, [] => s
  | f, s, ev :: evs =>
    match step info f ev with
    | none => s
    | some f' => fate info L f' (follow info L f f' s ev) evs

/-- What is known about a block. -/
def Keeps (f : File α) (L : ℕ) (s : Held α) : Prop :=
  ∀ p w c, look f L = some (p, w, c) → match s with
    | .stale => w = true ∨ c = 0
    | .owed => True
    | .data a => c = a ∨ c = 0

theorem keeps_start (f : File α) (L : ℕ) : Keeps f L (start f L) := by
  intro p w c hl
  unfold start
  rw [hl]
  cases w with
  | true => exact .inl rfl
  | false => exact .inl rfl

/-- A block of the start that holds data reads as it. -/
theorem view_of_start {L : ℕ} {c : α} (h : start f L = .data c) : c = view f L := by
  unfold start at h
  unfold view
  split at h
  · rename_i hl
    cases h
    rw [hl]
    rfl
  · cases h

/-- What a block then reads as. -/
theorem Keeps.reads {L : ℕ} {s : Held α} (hk : Keeps f L s) (howed : s ≠ .owed) :
    view f L = 0 ∨ s = .data (view f L) := by
  unfold view
  cases hl : look f L with
  | none => exact .inl rfl
  | some v =>
    obtain ⟨p, w, c⟩ := v
    have hk' := hk p w c hl
    cases w with
    | true => exact .inl rfl
    | false =>
      cases s with
      | stale => exact .inl (hk'.resolve_left (by simp))
      | owed => exact absurd rfl howed
      | data a =>
        rcases hk' with rfl | h0
        · exact .inr rfl
        · exact .inl h0

/-- **Requests** keep it. -/
theorem keeps_map {info : Info} {env : MapEnv} {fl : MapFlags} {L : ℕ} {s : Held α} (hk : Keeps f L s)
    (hs : Safe (Touches info env fl f lblk len) f f') : Keeps f' L (follow info L f f' s (.map env fl lblk len)) := by
  obtain ⟨g, z, hc, hsafe⟩ := hs
  intro p w' c' hl'
  rw [hc.look, Option.map_eq_some_iff] at hl'
  obtain ⟨⟨q, w, c⟩, hl, heq⟩ := hl'
  obtain ⟨rfl, rfl, rfl⟩ : q = p ∧ g L w = w' ∧ (if z L then 0 else c) = c' := by simpa using heq
  have hm : f.map L = some (q, w) := by rw [map_eq_look, hl]; rfl
  have hm' : f'.map L = some (q, g L w) := by rw [hc.map, hm]; rfl
  have hk' := hk q w c hl
  have hzero : ∀ a, c = a ∨ c = 0 → (if z L then 0 else c) = a ∨ (if z L then 0 else c) = 0 := fun a ha => by
    split_ifs
    · exact .inr rfl
    · exact ha
  simp only [follow, hm, hm']
  cases w with
  | false =>
    cases hg : g L false with
    | true => exact .inl rfl
    | false =>
      cases s with
      | stale => exact .inr ((hzero 0 (.inr (hk'.resolve_left (by simp)))).elim id id)
      | owed => trivial
      | data a => exact hzero a hk'
  | true =>
    cases hg : g L true with
    | true =>
      cases s with
      | stale => exact .inl rfl
      | owed => trivial
      | data a => exact hzero a hk'
    | false =>
      cases s with
      | stale =>
        -- The block has become readable: it is zeroed, or the request touches it and it is owed.
        by_cases ht : Touches info env fl f lblk len L
        · simp [ht]
        · have hz : z L = true := (hsafe L q hm hg).resolve_right ht
          simp [ht, hz]
      | owed => simp
      | data a => simpa using hzero a hk'

/-- **Data** keeps it. -/
theorem keeps_io {info : Info} {L M : ℕ} {s : Held α} (h : Sound f) (hk : Keeps f L s) (a : α) :
    Keeps (store f M a) L (follow info L f (store f M a) s (.io M a)) := by
  intro p w c hl
  by_cases hM : M = L
  · subst hM
    rw [look_store_self, Option.map_eq_some_iff] at hl
    obtain ⟨v, -, heq⟩ := hl
    obtain ⟨-, -, rfl⟩ : v.1 = p ∧ v.2.1 = w ∧ a = c := by simpa using heq
    simp [follow]
  · rw [look_store_ne h a hM] at hl
    simpa [follow, hM] using hk p w c hl

/-- One step. -/
theorem step_keeps (info : Info) (L : ℕ) (h : Sound f) {ev : Event α} (hok : ev.Ok) :
    ∃ f', step info f ev = some f' ∧ Sound f' ∧ (∀ M, (f'.map M).map Prod.fst = (f.map M).map Prod.fst) ∧
      ∀ s, Keeps f L s → Keeps f' L (follow info L f f' s ev) := by
  cases ev with
  | map env fl lblk len =>
    obtain ⟨f', ret, hrun, hsafe⟩ := mapBlocks_step info env fl h hok.1 hok.2
    obtain ⟨g, z, hc, -⟩ := id hsafe
    exact ⟨f', by rw [step, hrun]; rfl, hc.sound, hc.mapped, fun s hk => keeps_map hk hsafe⟩
  | io M c => exact ⟨store f M c, rfl, store_sound h M c, fun K => by rw [store_map], fun s hk => keeps_io h hk c⟩

/-- Whole runs. -/
theorem run_keeps (info : Info) (L : ℕ) {evs : List (Event α)} {s : Held α} (h : Sound f) (hok : ∀ ev ∈ evs, ev.Ok)
    (hk : Keeps f L s) :
    ∃ f', run info f evs = some f' ∧ Sound f' ∧ (∀ M, (f'.map M).map Prod.fst = (f.map M).map Prod.fst) ∧
      Keeps f' L (fate info L f s evs) := by
  induction evs generalizing f s with
  | nil => exact ⟨f, rfl, h, fun _ => rfl, hk⟩
  | cons ev evs ih =>
    obtain ⟨f₁, hstep, h₁, hmap₁, hkeep⟩ := step_keeps info L h (hok ev List.mem_cons_self)
    obtain ⟨f', hrun, h', hmap, hk'⟩ := ih h₁ (fun x hx => hok x (List.mem_cons_of_mem _ hx)) (hkeep s hk)
    refine ⟨f', ?_, h', fun M => (hmap M).trans (hmap₁ M), ?_⟩
    · rw [run, hstep]
      exact hrun
    · rw [fate, hstep]
      exact hk'

/-- Calls that do not fail. -/
def fineMap : MapEnv :=
  ⟨none, fine.split, fine, fine, ⟨none, none, ⟨none, fun _ => false⟩, ⟨none, fun _ => false⟩, fine.split⟩⟩

theorem fine_fineMap : Fine fineMap := ⟨clean_fine, clean_fine, clean_fine, clean_fine⟩

/-- A direct write to the blocks 2 and 3: they are split out, the data arrives, and they are converted. -/
def directWrite : List (Event ℕ) :=
  [.map fineMap ⟨true, true, true, false, false⟩ 2 2, .io 2 7, .io 3 9,
    .map fineMap ⟨true, true, false, true, false⟩ 2 2]

theorem directWrite_ok : ∀ ev ∈ directWrite, ev.Ok := by
  intro ev hev
  simp only [directWrite, List.mem_cons, List.not_mem_nil, or_false] at hev
  rcases hev with rfl | rfl | rfl | rfl
  · exact ⟨fine_fineMap, by decide, by decide⟩
  · trivial
  · trivial
  · exact ⟨fine_fineMap, by decide, by decide⟩

/-- The splits of the request find space. -/
structure Spacious (env : MapEnv) : Prop where
  split : Roomy env.split.first ∧ Roomy env.split.second
  endio : Roomy env.endio.split.first
  conv : Roomy env.conv.split.first

/-- The request has space, and if the block is in its range then it converts nothing. -/
def Event.Spares (L : ℕ) : Event α → Prop
  | .map env fl lblk len => Spacious env ∧ (lblk ≤ L → L < lblk + len → Converts fl → Prepares env fl)
  | .io _ _ => True

/-- With space no split is stale. -/
theorem not_leaks {info : Info} {env : MapEnv} {fl : MapFlags} (hs : Spacious env) :
    ¬ Leaks info env fl f e lblk len := by
  unfold Leaks
  split_ifs
  · exact fun h0 => hs.split.1.not_zeroes h0.2.2
  · exact fun h0 => hs.endio.not_zeroes h0.2.2
  · exact fun h0 => hs.conv.not_zeroes h0.2.2.2

theorem not_touches {info : Info} {env : MapEnv} {fl : MapFlags} {L : ℕ} (f : File α)
    (hs : (Event.map env fl lblk len : Event α).Spares L) : ¬ Touches info env fl f lblk len L := by
  rintro ⟨hconv, e, -, ⟨h1, h2, hp⟩ | ⟨hleak, -, -⟩⟩
  · exact hp (hs.2 h1 h2 hconv)
  · exact not_leaks hs.1 hleak

theorem follow_ne_owed {info : Info} {L : ℕ} {s : Held α} {ev : Event α} (f' : File α) (hs : ev.Spares L)
    (h0 : s ≠ .owed) : follow info L f f' s ev ≠ .owed := by
  cases ev with
  | io M c =>
    simp only [follow]
    split_ifs
    · exact fun h => by cases h
    · exact h0
  | map env fl lblk len =>
    simp only [follow, not_touches f hs, and_false, if_false]
    split
    · exact fun h => by cases h
    · exact h0
    · exact h0

theorem fate_ne_owed {info : Info} {L : ℕ} {evs : List (Event α)} {s : Held α} (hs : ∀ ev ∈ evs, ev.Spares L)
    (h0 : s ≠ .owed) : fate info L f s evs ≠ .owed := by
  induction evs generalizing f s with
  | nil => exact h0
  | cons ev evs ih =>
    unfold fate
    split
    · exact h0
    · exact ih (fun x hx => hs x (List.mem_cons_of_mem _ hx)) (follow_ne_owed _ (hs ev List.mem_cons_self) h0)

/-- The data of a block is that of before, or has just come. -/
theorem follow_data {info : Info} {L : ℕ} {s : Held α} {ev : Event α} {c : α} (f' : File α)
    (hd : follow info L f f' s ev = .data c) : s = .data c ∨ ev = .io L c := by
  cases ev with
  | io M a =>
    simp only [follow] at hd
    split_ifs at hd with hM
    · subst hM
      cases hd
      exact .inr rfl
    · exact .inl hd
  | map env fl lblk len =>
    simp only [follow] at hd
    split at hd
    · cases hd
    · split_ifs at hd
      exact .inl hd
    · exact .inl hd

/-- The data of a block behind a run has come in it, or was there. -/
theorem fate_data {info : Info} {L : ℕ} {evs : List (Event α)} {s : Held α} {c : α}
    (hd : fate info L f s evs = .data c) : s = .data c ∨ .io L c ∈ evs := by
  induction evs generalizing f s with
  | nil => exact .inl hd
  | cons ev evs ih =>
    unfold fate at hd
    split at hd
    · exact .inl hd
    · rcases ih hd with h0 | h0
      · rcases follow_data _ h0 with h1 | rfl
        · exact .inl h1
        · exact .inr List.mem_cons_self
      · exact .inr (List.mem_cons_of_mem _ h0)

theorem roomy_fine : Roomy fine.split.first ∧ Roomy fine.split.second := by
  constructor
  · rintro err inserted ⟨⟩
  · rintro err inserted ⟨⟩

end LinuxEvfs.Unwritten.Runs
