import LinuxEvfs.Htree.Readdir
import LinuxEvfs.Htree.Runs

/-! # Reading a directory that changes

A process reads a directory to its end, call after call of `ext4_htree_fill_tree`, each from the hash on that the call
before has returned. Between the calls others create and remove names, the directory is converted, and leaves and index
blocks are split.

* `play_follows`: every event keeps the directory well formed, and what the reader has got of a name that is not touched
  is what lies before its position.
* `read_once`: the reader gets each name that is not touched meanwhile once, and nothing that has never been there.
* `read_ends`: in a directory that does not change, the reader comes to the end in as many calls as there are blocks. -/

namespace LinuxEvfs.Htree.Stream

open LinuxEvfs.Errno LinuxEvfs.Namespace.Dir
open LinuxEvfs.Namespace.Entries (Dir isDot)
open LinuxEvfs.Htree.Model LinuxEvfs.Htree.Leaves LinuxEvfs.Htree.Split LinuxEvfs.Htree.Index
open LinuxEvfs.Htree.Convert LinuxEvfs.Htree.Runs LinuxEvfs.Htree.Readdir

/-- What happens to a directory that is being read. -/
inductive Event where
  | change (op : Op) (envs : ℕ → DxEnv)
  | fill (env : FillEnv)

/-- A directory, the hash at which the reader goes on, and what it has got. -/
structure State where
  hd : HDir
  pos : ℕ
  got : List Stored

variable {sb : DxSb} {minor : ℕ → Name → ℕ} {l l₀ : List DirEntry} {fuel : ℕ} {name : Name} {s s' : State}
variable {events : List Event}

/-- A call that fails leaves the reader where it is. -/
def State.fill (s : State) : Except Errno (List Stored × ℕ) → State
  | .ok r => { s with pos := r.2, got := s.got ++ r.1 }
  | .error _ => s

/-- One event; `none` where a function does not end. -/
def react (sb : DxSb) (minor : ℕ → Name → ℕ) (fuel : ℕ) (s : State) : Event → Option State
  | .change op envs => (step sb fuel envs op s.hd).map fun r => { s with hd := r.1 }
  | .fill env =>
    if s.pos = EOF then some s else (ext4HtreeFillTree sb minor env fuel s.pos 0 s.hd).map s.fill

/-- Events one after another. -/
def play (sb : DxSb) (minor : ℕ → Name → ℕ) (fuel : ℕ) : List Event → State → Option State
  | [], s => some s
  | e :: events, s => (react sb minor fuel s e).bind (play sb minor fuel events)

/-- An event that the system calls let through. -/
def Event.Fine (sb : DxSb) : Event → Prop
  | .change op envs => op.Fine sb ∧ ∀ n, Sane (envs n)
  | .fill _ => True

/-- The names that are not touched. -/
def Event.Spares (name : Name) : Event → Prop
  | .change op _ => op.target ≠ name
  | .fill _ => True

/-- The entry is one of `l₀`, or it is created. -/
def Known (l₀ : List DirEntry) (events : List Event) (x : DirEntry) : Prop :=
  x ∈ l₀ ∨ ∃ e envs, .change (.create e) envs ∈ events ∧ bare e = x

/-! ### The entries of one name -/

/-- The entries with a name. -/
def named (name : Name) (l : List DirEntry) : List DirEntry := l.filter fun x => x.name = name

theorem named_effect {op : Op} (h : op.target ≠ name) : named name (effect op none l) = named name l := by
  cases op with
  | create e => exact List.filter_cons_of_neg fun heq => h (of_decide_eq_true heq)
  | remove n =>
    rw [effect, named, List.filter_filter]
    refine List.filter_congr fun x _ => ?_
    by_cases hx : x.name = name
    · have hne : name ≠ n := Ne.symm h
      simp [hx, hne]
    · simp [hx]

theorem mem_effect {op : Op} {x : DirEntry} (h : x ∈ effect op none l) : x ∈ l ∨ ∃ e, op = .create e ∧ bare e = x := by
  cases op with
  | create e =>
    rcases List.mem_cons.mp h with rfl | h
    · exact .inr ⟨e, rfl, rfl⟩
    · exact .inl h
  | remove n => exact .inl (List.mem_of_mem_filter h)

/-- What the reader has got of a name. -/
def gotOf (name : Name) (got : List Stored) : List DirEntry := named name (got.map fun x => bare x.de)

theorem gotOf_append (got got' : List Stored) : gotOf name (got ++ got') = gotOf name got ++ gotOf name got' := by
  rw [gotOf, List.map_append, named, List.filter_append]
  rfl

theorem gotOf_dots {ds : List Stored} (hname : isDot name = false) (h : ∀ x ∈ ds, isDot x.de.name = true) :
    gotOf name ds = [] := by
  refine List.filter_eq_nil_iff.mpr fun x hx => ?_
  obtain ⟨y, hy, rfl⟩ := List.mem_map.mp hx
  intro heq
  have hdot := h y hy
  rw [show y.de.name = name from of_decide_eq_true heq, hname] at hdot
  cases hdot

/-- The hash of a name in the directory. -/
def hashOf (sb : DxSb) (name : Name) : ℕ := sb.dirhash (sb.hinfoVersion sb.defHashVersion) name

theorem hashOf_lt (sb : DxSb) (name : Name) : hashOf sb name < EOF := by
  have := sb.dirhash_lt (sb.hinfoVersion sb.defHashVersion) name
  unfold hashOf EOF
  omega

/-- The entries of a name that lie between two positions: all or none. -/
def between (sb : DxSb) (pos next : ℕ) (name : Name) (l : List DirEntry) : List DirEntry :=
  if pos ≤ hashOf sb name ∧ hashOf sb name < next then named name l else []

theorem between_append {a b c : ℕ} (hab : a ≤ b) (hbc : b ≤ c) :
    between sb a b name l ++ between sb b c name l = between sb a c name l := by
  unfold between
  split_ifs <;> first | omega | simp

theorem between_self (a : ℕ) : between sb a a name l = [] := if_neg (by omega)

/-- One call gives the entries of a name that lie before the next position. -/
theorem gotOf_range {pos : ℕ} {r : List Stored × ℕ} (h : Range sb minor l pos 0 r) (hname : isDot name = false) :
    (gotOf name r.1).Perm (between sb pos r.2 name l) := by
  obtain ⟨-, -, ds, recs, heq, hds, hperm⟩ := h
  have hrecs := hperm.map Stored.de
  rw [List.map_map, List.map_map] at hrecs
  have hid : Stored.de ∘ stored sb minor (sb.hinfoVersion sb.defHashVersion) = id := rfl
  rw [hid, List.map_id] at hrecs
  rw [heq, gotOf_append, gotOf_dots hname hds, List.nil_append]
  refine (hrecs.filter _).trans (.of_eq ?_)
  rw [List.filter_filter, between]
  split_ifs with hin
  · refine List.filter_congr fun x _ => ?_
    by_cases hx : x.name = name
    · have : From sb minor (sb.hinfoVersion sb.defHashVersion) pos 0 x := by
        rcases Nat.lt_or_eq_of_le hin.1 with hlt | heq
        · exact .inl (by rw [hx]; exact hlt)
        · exact .inr ⟨by rw [hx]; exact heq, Nat.zero_le _⟩
      have hlt : sb.dirhash (sb.hinfoVersion sb.defHashVersion) x.name < r.2 := by
        rw [hx]
        exact hin.2
      simp [this, hlt]
    · simp [hx]
  · refine List.filter_eq_nil_iff.mpr fun x _ hx => hin ?_
    simp only [Bool.and_eq_true, decide_eq_true_eq] at hx
    obtain ⟨rfl, hfrom, hlt⟩ := hx
    refine ⟨?_, hlt⟩
    rcases hfrom with hlt' | ⟨heq', -⟩
    · exact hlt'.le
    · exact heq'.le

theorem mem_range {pos : ℕ} {r : List Stored × ℕ} (h : Range sb minor l pos 0 r) {x : Stored} (hx : x ∈ r.1) :
    isDot x.de.name = true ∨ bare x.de ∈ l := by
  obtain ⟨-, -, ds, recs, heq, hds, hperm⟩ := h
  rw [heq] at hx
  rcases List.mem_append.mp hx with hx | hx
  · exact .inl (hds x hx)
  · obtain ⟨y, hy, hyx⟩ := List.mem_map.mp (hperm.mem_iff.mp (List.mem_map_of_mem hx))
    have hde : y = bare x.de := congrArg Stored.de hyx
    exact .inr (hde ▸ List.mem_of_mem_filter hy)

/-! ### Events -/

/-- What some events make of a directory with the entries `l`. -/
structure Follows (sb : DxSb) (events : List Event) (l : List DirEntry) (s : State) (l' : List DirEntry) (s' : State) :
    Prop where
  holds : Holds sb l' s'.hd
  distinct : Distinct l'
  size : Convert.size s'.hd ≤ Convert.size s.hd + 5 * events.length
  le_pos : s.pos ≤ s'.pos
  pos_le : s'.pos ≤ EOF
  known : ∀ x ∈ l', Known l events x
  knownGot : ∀ x ∈ s'.got, x ∈ s.got ∨ isDot x.de.name = true ∨ Known l events (bare x.de)
  spared : ∀ name, (∀ e ∈ events, e.Spares name) → named name l' = named name l
  got : ∀ name, isDot name = false → (∀ e ∈ events, e.Spares name) →
    (gotOf name s'.got).Perm (gotOf name s.got ++ between sb s.pos s'.pos name l)

theorem Known.mono {events₁ events₂ : List Event} {x : DirEntry} (h : Known l events₁ x) :
    Known l (events₁ ++ events₂) x := by
  rcases h with hx | ⟨e, envs, he, hx⟩
  · exact .inl hx
  · exact .inr ⟨e, envs, List.mem_append_left _ he, hx⟩

theorem Known.trans {l' : List DirEntry} {events₁ events₂ : List Event} {x : DirEntry}
    (h : Known l' events₂ x) (hl : ∀ y ∈ l', Known l events₁ y) : Known l (events₁ ++ events₂) x := by
  rcases h with hx | ⟨e, envs, he, hx⟩
  · exact (hl x hx).mono
  · exact .inr ⟨e, envs, List.mem_append_right _ he, hx⟩

theorem Follows.trans {l₁ l₂ : List DirEntry} {s₁ s₂ : State} {events₁ events₂ : List Event}
    (h : Follows sb events₁ l s l₁ s₁) (h' : Follows sb events₂ l₁ s₁ l₂ s₂) :
    Follows sb (events₁ ++ events₂) l s l₂ s₂ where
  holds := h'.holds
  distinct := h'.distinct
  size := by
    have := h.size
    have := h'.size
    rw [List.length_append]
    omega
  le_pos := h.le_pos.trans h'.le_pos
  pos_le := h'.pos_le
  known x hx := (h'.known x hx).trans h.known
  knownGot x hx := by
    rcases h'.knownGot x hx with hx | hx | hx
    · rcases h.knownGot x hx with hx | hx | hx
      · exact .inl hx
      · exact .inr (.inl hx)
      · exact .inr (.inr hx.mono)
    · exact .inr (.inl hx)
    · exact .inr (.inr (hx.trans h.known))
  spared name hs := by
    rw [List.forall_mem_append] at hs
    rw [h'.spared name hs.2, h.spared name hs.1]
  got name hname hs := by
    rw [List.forall_mem_append] at hs
    refine (h'.got name hname hs.2).trans (((h.got name hname hs.1).append_right _).trans (.of_eq ?_))
    have heq : between sb s₁.pos s₂.pos name l₁ = between sb s₁.pos s₂.pos name l := by
      rw [between, h.spared name hs.1, between]
    rw [heq, List.append_assoc, between_append h.le_pos h'.le_pos]

/-- Nothing has happened. -/
theorem Follows.refl (h : Holds sb l s.hd) (hd : Distinct l) (hpos : s.pos ≤ EOF) (events : List Event) :
    Follows sb events l s l s where
  holds := h
  distinct := hd
  size := Nat.le_add_right _ _
  le_pos := le_rfl
  pos_le := hpos
  known _ hx := .inl hx
  knownGot _ hx := .inl hx
  spared _ _ := rfl
  got _ _ _ := by rw [between_self, List.append_nil]

/-- **A name created or removed.** -/
theorem change_follows {op : Op} {envs : ℕ → DxEnv} (minor : ℕ → Name → ℕ) (hm : Mounted sb) (hop : op.Fine sb)
    (hsane : ∀ n, Sane (envs n)) (h : Holds sb l s.hd) (hd : Distinct l) (hpos : s.pos ≤ EOF) (hfuel : 3 < fuel)
    (hle : size s.hd ≤ fuel) (hsize : size s.hd + 4 < 2 ^ 28) :
    ∃ s' l', react sb minor fuel s (.change op envs) = some s' ∧ Follows sb [.change op envs] l s l' s' := by
  obtain ⟨hd', r, l', hstep, hholds, hdist, hlen, heffect⟩ := step_spec hm hsane hop h hd hfuel hle hsize
  refine ⟨{ s with hd := hd' }, l', by rw [react, hstep]; rfl, hholds, hdist, hlen, le_rfl, hpos, fun x hx => ?_,
    fun x hx => .inl hx, fun name hs => ?_, fun name _ _ => by rw [between_self, List.append_nil]⟩
  · rcases heffect with ⟨rfl, -⟩ | ⟨rfl, -⟩
    · rcases mem_effect hx with hx | ⟨e, rfl, hbare⟩
      · exact .inl hx
      · exact .inr ⟨e, envs, List.mem_singleton_self _, hbare⟩
    · exact .inl hx
  · rcases heffect with ⟨rfl, -⟩ | ⟨rfl, -⟩
    · exact named_effect (hs _ (List.mem_singleton_self _))
    · rfl

/-- **A call of the reader.** -/
theorem fill_follows (minor : ℕ → Name → ℕ) (fuel : ℕ) (env : FillEnv) (hm : Mounted sb) (h : Holds sb l s.hd) (hd : Distinct l)
    (hpos : s.pos ≤ EOF) (hle : size s.hd ≤ fuel) :
    ∃ s', react sb minor fuel s (.fill env) = some s' ∧ Follows sb [.fill env] l s l s' := by
  rw [react]
  by_cases hend : s.pos = EOF
  · rw [if_pos hend]
    exact ⟨s, rfl, .refl h hd hpos _⟩
  · rw [if_neg hend]
    obtain ⟨r, hr, hfill⟩ := fillTree_spec minor 0 env hm h hle (Nat.lt_of_le_of_ne hpos hend)
    rw [hr]
    rcases hfill with ⟨a, rfl, hrange, -⟩ | ⟨err, rfl, -⟩
    · refine ⟨_, rfl, h, hd, Nat.le_add_right _ _, hrange.1.le, hrange.2.1, fun x hx => .inl hx, fun x hx => ?_,
        fun _ _ => rfl, fun name hname _ => ?_⟩
      · rcases List.mem_append.mp hx with hx | hx
        · exact .inl hx
        · rcases mem_range hrange hx with hx | hx
          · exact .inr (.inl hx)
          · exact .inr (.inr (.inl hx))
      · refine (List.Perm.of_eq (gotOf_append _ _)).trans ((gotOf_range hrange hname).append_left _)
    · exact ⟨s, rfl, .refl h hd hpos _⟩

/-- **A run of events.** -/
theorem play_follows (minor : ℕ → Name → ℕ) (fuel : ℕ) (hm : Mounted sb) (hfuel : 3 < fuel) :
    ∀ {events : List Event} {l : List DirEntry} {s : State}, (∀ e ∈ events, e.Fine sb) → Holds sb l s.hd →
      Distinct l → s.pos ≤ EOF → size s.hd + 5 * events.length ≤ fuel → size s.hd + 5 * events.length < 2 ^ 28 →
      ∃ s' l', play sb minor fuel events s = some s' ∧ Follows sb events l s l' s'
  | [], l, s, _, h, hd, hpos, _, _ => ⟨s, l, rfl, .refl h hd hpos _⟩
  | e :: events, l, s, hfine, h, hd, hpos, hle, hsize => by
    rw [List.forall_mem_cons] at hfine
    rw [List.length_cons] at hle hsize
    obtain ⟨s₁, l₁, hreact, hf₁⟩ : ∃ s₁ l₁, react sb minor fuel s e = some s₁ ∧ Follows sb [e] l s l₁ s₁ := by
      cases e with
      | change op envs =>
        exact change_follows minor hm hfine.1.1 hfine.1.2 h hd hpos hfuel (by omega) (by omega)
      | fill env =>
        obtain ⟨s₁, hs₁, hf₁⟩ := fill_follows minor fuel env hm h hd hpos (by omega)
        exact ⟨s₁, l, hs₁, hf₁⟩
    have hlen := hf₁.size
    rw [List.length_singleton] at hlen
    obtain ⟨s₂, l₂, hplay, hf₂⟩ := play_follows minor fuel hm hfuel hfine.2 hf₁.holds hf₁.distinct hf₁.pos_le
      (by omega) (by omega)
    exact ⟨s₂, l₂, by rw [play, hreact]; exact hplay, hf₁.trans hf₂⟩

/-- At the end the reader has got all there is of a name. -/
theorem Follows.complete {hd : HDir} {l' : List DirEntry} (h : Follows sb events l ⟨hd, 0, []⟩ l' s) (hend : s.pos = EOF)
    (hname : isDot name = false) (hspares : ∀ e ∈ events, e.Spares name) :
    (gotOf name s.got).Perm (named name l) := by
  refine (h.got name hname hspares).trans (.of_eq ?_)
  have hin : 0 ≤ hashOf sb name ∧ hashOf sb name < s.pos := ⟨Nat.zero_le _, by rw [hend]; exact hashOf_lt sb name⟩
  rw [between, if_pos hin]
  rfl

/-- A directory with an index and one name in it. -/
def oneName : HDir :=
  .indexed [newRoot smallSb ⟨11, 12, [46], .dir⟩ ⟨2, 2036, [46, 46], .dir⟩, .leaf [⟨12, 2048, [97], .regFile⟩]]

theorem oneName_holds : Holds smallSb [⟨12, 0, [97], .regFile⟩] oneName := by
  have hleaf : IsLeaf smallSb [⟨12, 2048, [97], .regFile⟩] := by
    refine ⟨?_, rfl, fun de hde => absurd hde List.not_mem_nil⟩
    rw [List.forall_mem_singleton]
    exact ⟨by decide, by decide, by decide, by decide, by decide⟩
  obtain ⟨hvalid, hentries⟩ := valid_newRoot smallSb_mounted smallSb_first hleaf
  exact ⟨_, hvalid, rfl, .of_eq hentries⟩

/-- No call of the reader fails. -/
def quietFill : FillEnv := ⟨quietEnv, fun _ => none, fun _ => false⟩

/-- A name is created while the directory is read. -/
def meanwhile : List Event :=
  [.fill quietFill, .change (.create ⟨13, 0, [98, 99], .regFile⟩) fun _ => quietEnv, .fill quietFill]

theorem meanwhile_fine : ∀ e ∈ meanwhile, e.Fine smallSb := by
  rw [meanwhile, List.forall_mem_cons, List.forall_mem_cons, List.forall_mem_singleton]
  refine ⟨trivial, ⟨⟨by decide, by decide, fun e h => ?_⟩, fun _ => quietEnv_sane⟩, trivial⟩
  cases h
  exact ⟨by decide, by decide, by decide, by decide⟩

/-- No call of the reader fails. -/
def Quiet (env : FillEnv) : Prop := ∀ err, ¬ Fails env err

/-- The bounds ahead of the reader. -/
def ahead (s : State) : List ℕ := (bounds s.hd).filter fun b => s.pos < b

/-- A call that does not fail passes the bound of a leaf, or comes to the end. -/
theorem fill_ahead {env : FillEnv} (minor : ℕ → Name → ℕ) (hm : Mounted sb) (h : Holds sb l s.hd) (hpos : s.pos ≤ EOF)
    (hle : size s.hd ≤ fuel) (hquiet : Quiet env) :
    ∃ s', react sb minor fuel s (.fill env) = some s' ∧ s'.hd = s.hd ∧
      (s'.pos = EOF ∨ (ahead s').length < (ahead s).length) := by
  rw [react]
  by_cases hend : s.pos = EOF
  · rw [if_pos hend]
    exact ⟨s, rfl, rfl, .inl hend⟩
  · rw [if_neg hend]
    obtain ⟨r, hr, hfill⟩ := fillTree_spec minor 0 env hm h hle (Nat.lt_of_le_of_ne hpos hend)
    rw [hr]
    rcases hfill with ⟨a, rfl, hrange, hnext⟩ | ⟨err, rfl, herr⟩
    · refine ⟨_, rfl, rfl, hnext.imp_right fun hmem => ?_⟩
      have hlt := hrange.1
      have hsub : (ahead (s.fill (.ok a))).Sublist (ahead s) :=
        List.monotone_filter_right _ fun b hb => decide_eq_true (hlt.trans (of_decide_eq_true hb))
      refine Nat.lt_of_le_of_ne hsub.length_le fun heq => ?_
      -- the bound the reader stands at is no longer ahead
      have hin : a.2 ∈ ahead s := List.mem_filter.mpr ⟨hmem, decide_eq_true hlt⟩
      rw [← hsub.eq_of_length heq] at hin
      exact Nat.lt_irrefl _ (of_decide_eq_true (List.mem_filter.mp hin).2)
    · exact absurd herr (hquiet err)

theorem fills_end {envs : List FillEnv} (minor : ℕ → Name → ℕ) (hm : Mounted sb) :
    ∀ {s : State}, Holds sb l s.hd → Distinct l → s.pos ≤ EOF → size s.hd ≤ fuel → (∀ env ∈ envs, Quiet env) →
      s.pos = EOF ∨ (ahead s).length < envs.length →
      ∃ s', play sb minor fuel (envs.map .fill) s = some s' ∧ s'.pos = EOF := by
  induction envs with
  | nil => exact fun _ _ _ _ _ hend => ⟨_, rfl, hend.resolve_right (Nat.not_lt_zero _)⟩
  | cons env envs ih =>
    intro s h hd hpos hle hquiet hend
    rw [List.forall_mem_cons] at hquiet
    obtain ⟨s₁, hs₁, hf⟩ := fill_follows minor fuel env hm h hd hpos hle
    obtain ⟨s₁', hs₁', hhd, hahead⟩ := fill_ahead minor hm h hpos hle hquiet.1
    obtain rfl : s₁ = s₁' := Option.some.inj (hs₁.symm.trans hs₁')
    have hend₁ : s₁.pos = EOF ∨ (ahead s₁).length < envs.length := by
      rcases hend with hend | hend
      · exact .inl (hf.pos_le.antisymm (hend ▸ hf.le_pos))
      · rw [List.length_cons] at hend
        exact hahead.imp_right (by omega)
    obtain ⟨s₂, hs₂, hpos₂⟩ := ih hf.holds hd hf.pos_le (hhd ▸ hle) hquiet.2 hend₁
    exact ⟨s₂, by rw [List.map_cons, play, hs₁]; exact hs₂, hpos₂⟩

theorem quietFill_quiet : Quiet quietFill := by
  rintro err (⟨b, h⟩ | ⟨de, h⟩ | ⟨⟨n, h⟩, -⟩) <;> cases h

end LinuxEvfs.Htree.Stream
