import LinuxEvfs.Htree.Convert

/-! # Runs

Names are created and removed in any order in a directory that begins as one block: the block is converted when it is
full, leaves are split, index blocks are cut and levels put in. As the system calls do, `create` and `remove` look the
name up first.

* `find_spec`: `ext4_find_entry` on either form of a directory.
* `step_spec`: one operation keeps the directory well formed, and has its effect or none.
* `run_finds`: after any run the names found are those created and not removed since. -/

namespace LinuxEvfs.Htree.Runs

open LinuxEvfs.Errno LinuxEvfs.Lib.PagedIndex LinuxEvfs.Namespace.Dir
open LinuxEvfs.Namespace.Entries (Dir isDot linearFind searchBlocks)
open LinuxEvfs.Htree.Model LinuxEvfs.Htree.Leaves LinuxEvfs.Htree.Split LinuxEvfs.Htree.Index
open LinuxEvfs.Htree.Change LinuxEvfs.Htree.Grow LinuxEvfs.Htree.Add LinuxEvfs.Htree.Convert

variable {sb : DxSb} {env : DxEnv} {d : Dir} {e dot dotdot : DirEntry} {rest recs : DirBlock} {l : List DirEntry}
variable {hd : HDir} {name : Name} {fuel : ℕ}

/-! ### Lookups and deletions -/

/-- The record number `k` of the block `b`. -/
def recordAt : HDir → ℕ → ℕ → Option DirEntry
  | .linear d, b, k => (d.block b)[k]?
  | .indexed d, b, k => (leafAt d b)[k]?

/-- `ext4_delete_entry` takes an entry away, whatever fails. -/
def Deletes (sb : DxSb) (l : List DirEntry) (hd : HDir) (b k : ℕ) : Prop := ∀ env : DxEnv,
  (∃ err, env.calls .deleteAccess = some err ∧ Model.ext4DeleteEntry sb env b k hd = (hd, some err)) ∨
  ∃ hd', Model.ext4DeleteEntry sb env b k hd = (hd', env.calls .deleteDirty) ∧ Holds sb l hd' ∧ size hd' = size hd

/-- What a search finds in a directory with the entries `l`: the place of the entry with the name, or that there is
none. -/
def Found (sb : DxSb) (l : List DirEntry) (name : Name) (hd : HDir) : Option (ℕ × ℕ) → Prop
  | none => ∀ x ∈ l, x.name ≠ name
  | some (b, k) => ∃ x l', x.name = name ∧ l.Perm (x :: l') ∧ (recordAt hd b k).map bare = some x ∧ Deletes sb l' hd b k

theorem match_iff {de : DirEntry} : ext4Match name de = true ↔ de.inode ≠ 0 ∧ de.name = name := by
  simp [ext4Match]

/-- The deletion of an entry from the block of a directory without an index. -/
theorem delete_first {j : ℕ} {de : DirEntry} (hm : Mounted sb) (hf : IsFirst sb dot dotdot rest)
    (hj : rest[j]? = some de) (h0 : de.inode ≠ 0) :
    ∃ dotdot' rest', ext4GenericDeleteEntry sb.toSb (j + 2) (dot :: dotdot :: rest) = .ok (dot :: dotdot' :: rest') ∧
      IsFirst sb dot dotdot' rest' ∧ (liveRecs rest).Perm (bare de :: liveRecs rest') := by
  have hk : (dot :: dotdot :: rest)[j + 2]? = some de := hj
  obtain ⟨b', hb', hleaf, hperm⟩ := hf.leaf.delete hm.usual hk h0
  obtain ⟨l₀, r, rfl, rfl⟩ := exists_cut hj
  obtain ⟨l', q, hq, heq⟩ := delete_eq (l := dotdot :: l₀) hm.usual hf.leaf
  -- the record before is `..` or behind it
  obtain ⟨dotdot', rest', hshape, hbare⟩ : ∃ dotdot' rest',
      l' ++ { q with recLen := q.recLen + de.recLen } :: r = dot :: dotdot' :: rest' ∧ bare dotdot' = bare dotdot := by
    rcases List.eq_nil_or_concat l₀ with rfl | ⟨l₁, z, rfl⟩
    · obtain ⟨rfl, hlast⟩ := List.append_inj' (show [dot] ++ [dotdot] = l' ++ [q] from hq) rfl
      obtain rfl := (List.cons.inj hlast).1
      exact ⟨_, _, rfl, rfl⟩
    · rw [List.concat_eq_append] at hq
      obtain ⟨rfl, -⟩ := List.append_inj' (show (dot :: dotdot :: l₁) ++ [z] = l' ++ [q] from hq) rfl
      exact ⟨dotdot, _, rfl, rfl⟩
  have hsame : b' = dot :: dotdot' :: rest' := by
    rw [← hshape]
    exact Except.ok.inj (hb'.symm.trans heq)
  rw [hsame] at hleaf hperm hb'
  have hf' := hf.change hleaf hbare
  refine ⟨dotdot', rest', hb', hf', ?_⟩
  rw [hf.live_eq, hf'.live_eq, hbare] at hperm
  have hswap : (bare de :: bare dot :: bare dotdot :: liveRecs rest').Perm
      (bare dot :: bare dotdot :: bare de :: liveRecs rest') :=
    (List.Perm.swap _ _ _).trans ((List.Perm.swap _ _ _).cons _)
  exact ((hperm.trans hswap).cons_inv).cons_inv

/-- The search of a directory of one block. -/
theorem linearFind_spec (hm : Mounted sb) (hd : d.blocks = [dot :: dotdot :: rest]) (hf : IsFirst sb dot dotdot rest)
    (hl : (liveRecs rest).Perm l) (hname : isDot name = false) :
    Found sb l name (.linear d) (linearFind sb.toSb name d).1 := by
  have hblock : d.block 0 = dot :: dotdot :: rest := by simp [Dir.block, hd]
  have horder : ∀ n, (List.range d.blocks.length).rotate n = [0] := fun n => by simp [hd]
  unfold linearFind
  simp only [hname, Bool.false_eq_true, if_false, horder, searchBlocks, hblock]
  cases hs : ext4SearchDir sb.toSb name 0 (dot :: dotdot :: rest) with
  | bad => exact absurd hs (search_ne_bad hm.usual hf.leaf)
  | none =>
    intro x hx hxn
    obtain ⟨de, hde, h0, rfl⟩ := exists_of_mem_live (hl.mem_iff.mpr hx)
    have hno := search_none hm.usual hf.leaf hs de (by simp [hde])
    rw [match_iff.mpr ⟨h0, hxn⟩] at hno
    cases hno
  | found k =>
    obtain ⟨de, hk, hmatch⟩ := ext4SearchDir_found sb.toSb hs
    obtain ⟨h0, hden⟩ := match_iff.mp hmatch
    rcases k with _ | _ | j
    · obtain rfl := Option.some.inj hk
      rw [← hden, hf.dotName] at hname
      cases hname
    · obtain rfl := Option.some.inj hk
      rw [← hden, hf.dotdotName] at hname
      cases hname
    · obtain ⟨dotdot', rest', hdel, hf', hperm⟩ := delete_first hm hf hk h0
      refine ⟨bare de, liveRecs rest', hden, hl.symm.trans hperm, ?_, fun env => ?_⟩
      · rw [recordAt, hblock, hk]
        rfl
      · unfold Model.ext4DeleteEntry Namespace.Entries.ext4DeleteEntry
        cases haccess : env.calls .deleteAccess with
        | some err => exact .inl ⟨err, rfl, rfl⟩
        | none =>
          refine .inr ⟨.linear (d.setBlock 0 (dot :: dotdot' :: rest')), ?_, ⟨dot, dotdot', rest', ?_, hf', .rfl⟩, ?_⟩
          · simp only [hblock, hdel]
          · simp [Dir.setBlock, hd]
          · simp [Dir.setBlock, size]

/-- The search of a directory with an index. -/
theorem dxFind_spec {info : DxRootInfo} {d : List DxBlock} (hm : Mounted sb) (hvalid : Valid sb info d)
    (hversion : info.hashVersion = sb.defHashVersion) (hl : (entries info d).Perm l) {r : Option (ℕ × ℕ)}
    (hr : Finds d name (leaves info d) r) :
    Found sb l name (.indexed d) r := by
  cases r with
  | none =>
    intro x hx hxn
    obtain ⟨y, hy, hxy⟩ := List.mem_flatMap.mp (hl.mem_iff.mpr hx)
    obtain ⟨de, hde, h0, rfl⟩ := exists_of_mem_live hxy
    have hno := hr y hy de hde
    rw [match_iff.mpr ⟨h0, hxn⟩] at hno
    cases hno
  | some r =>
    obtain ⟨b, k⟩ := r
    obtain ⟨y, hy, rfl, de, hk, hmatch⟩ := hr
    obtain ⟨h0, hden⟩ := match_iff.mp hmatch
    obtain ⟨b', hdel, hleaf, hperm⟩ := (hvalid.isLeaf hy).delete hm.usual hk h0
    obtain ⟨bef, aft, hcut⟩ := List.append_of_mem hy
    obtain ⟨hvalid', hentries⟩ := valid_delLeaf hvalid hcut hleaf hperm
    refine ⟨bare de, _, hden, hl.symm.trans hentries, ?_, fun env => ?_⟩
    · rw [recordAt, hk]
      rfl
    · unfold Model.ext4DeleteEntry
      cases haccess : env.calls .deleteAccess with
      | some err => exact .inl ⟨err, rfl, rfl⟩
      | none => exact .inr ⟨.indexed (d.set y.2 (.leaf b')), by simp only [hdel], ⟨info, hvalid', hversion, .rfl⟩, by simp [size]⟩

/-- **`ext4_find_entry`** on either form of a directory. -/
theorem find_spec (hm : Mounted sb) (hread : ∀ b, env.read b ≠ some ERR_BAD_DX_DIR) (h : Holds sb l hd) (hname : isDot name = false)
    (hlen : name.length ≤ 255) (hfuel : size hd ≤ fuel) :
    ∃ r, Model.ext4FindEntry sb env fuel name hd = some r ∧ OrRead env r (Found sb l name hd) := by
  cases hd with
  | linear d =>
    obtain ⟨dot, dotdot, rest, hd, hf, hl⟩ := h
    exact ⟨_, rfl, .inl ⟨_, rfl, linearFind_spec hm hd hf hl hname⟩⟩
  | indexed d =>
    obtain ⟨info, hvalid, hversion, hl⟩ := h
    obtain ⟨r, hr, hfinds⟩ := dxFindEntry_spec env name hm.usual hvalid ((hvalid.length_leaves_le).trans hfuel)
    unfold Model.ext4FindEntry
    simp only [if_neg (Nat.not_lt.mpr hlen), hr]
    rcases hfinds with ⟨a, rfl, ha⟩ | ⟨b, err, hb, rfl⟩
    · exact ⟨_, rfl, .inl ⟨a, rfl, dxFind_spec hm hvalid hversion hl ha⟩⟩
    · have hgood : err ≠ ERR_BAD_DX_DIR := by
        rintro rfl
        exact hread b hb
      simp only [if_neg hgood]
      exact ⟨_, rfl, .inr ⟨b, err, hb, rfl⟩⟩

/-! ### Operations -/

/-- What is done to a directory. -/
inductive Op where
  | create (e : DirEntry)
  | remove (name : Name)

def Op.target : Op → Name
  | .create e => e.name
  | .remove name => name

/-- An operation that the system calls let through. -/
structure Op.Fine (sb : DxSb) (op : Op) : Prop where
  notDot : isDot op.target = false
  le : op.target.length ≤ 255
  addable : ∀ e, op = .create e → Addable sb e

/-- The calls that come after a change do not fail. -/
structure Works (env : DxEnv) : Prop extends Sane env where
  added : Add.late env = none
  deleted : env.calls .deleteDirty = none

/-- One operation; `none` where a function reads outside of a map or does not end. -/
def step (sb : DxSb) (fuel : ℕ) (envs : ℕ → DxEnv) (op : Op) (hd : HDir) : Option (HDir × Option Errno) :=
  match Model.ext4FindEntry sb (envs 0) fuel op.target hd, op with
  | none, _ => none
  | some (.error err), _ => some (hd, some err)
  | some (.ok (some _)), .create _ => some (hd, some EEXIST)
  | some (.ok none), .create e =>
    match Model.ext4AddEntry sb envs fuel e hd with
    | .ret hd' r => some (hd', r)
    | _ => none
  | some (.ok (some (b, k))), .remove _ => some (Model.ext4DeleteEntry sb (envs 0) b k hd)
  | some (.ok none), .remove _ => some (hd, some ENOENT)

/-- What an operation does to the entries, by its result. -/
def effect : Op → Option Errno → List DirEntry → List DirEntry
  | .create e, none, l => bare e :: l
  | .remove name, none, l => l.filter fun x => x.name ≠ name
  | _, some _, l => l

theorem effect_some (op : Op) (err : Errno) (l : List DirEntry) : effect op (some err) l = l := by
  cases op <;> rfl

/-- The names of a directory are different. -/
def Distinct (l : List DirEntry) : Prop := (l.map DirEntry.name).Nodup

theorem filter_perm {x : DirEntry} {l' : List DirEntry} (hl : l.Perm (x :: l')) (hd : Distinct l) :
    (l.filter fun y => y.name ≠ x.name).Perm l' := by
  have hnd : ((x :: l').map DirEntry.name).Nodup := ((hl.map _).nodup_iff).mp hd
  rw [List.map_cons, List.nodup_cons] at hnd
  have hall : (x :: l').filter (fun y => y.name ≠ x.name) = l' := by
    rw [List.filter_cons_of_neg (by simp), List.filter_eq_self]
    exact fun y hy => decide_eq_true fun h => hnd.1 (h ▸ List.mem_map_of_mem hy)
  exact (hl.filter _).trans (.of_eq hall)

/-- **One operation** ends. It has its effect, or it returns an error and the entries are those of before; an error
with the effect is one of the calls behind it. -/
theorem step_spec {envs : ℕ → DxEnv} {op : Op} (hm : Mounted sb) (hsane : ∀ n, Sane (envs n)) (hop : op.Fine sb)
    (h : Holds sb l hd) (hdist : Distinct l) (hfuel : 3 < fuel) (hle : size hd ≤ fuel) (hsize : size hd + 4 < 2 ^ 28) :
    ∃ hd' r l', step sb fuel envs op hd = some (hd', r) ∧ Holds sb l' hd' ∧ Distinct l' ∧ size hd' ≤ size hd + 5 ∧
      ((l' = effect op none l ∧ (r ≠ none → ¬ ∀ n, Works (envs n))) ∨ (l' = l ∧ r ≠ none)) := by
  have hread : ∀ b, (envs 0).read b ≠ some ERR_BAD_DX_DIR := fun b hb => (hsane 0).known (known_read b hb)
  have hsame (err : Errno) : ∃ hd' r l', some (hd, some err) = some (hd', r) ∧ Holds sb l' hd' ∧ Distinct l' ∧
      size hd' ≤ size hd + 5 ∧ ((l' = effect op none l ∧ (r ≠ none → ¬ ∀ n, Works (envs n))) ∨ (l' = l ∧ r ≠ none)) :=
    ⟨hd, some err, l, rfl, h, hdist, Nat.le_add_right _ _, .inr ⟨rfl, by simp⟩⟩
  obtain ⟨r, hr, hfound⟩ := find_spec hm hread h hop.notDot hop.le hle
  unfold step
  rw [hr]
  rcases hfound with ⟨a, rfl, ha⟩ | ⟨b, err, -, rfl⟩
  · cases op with
    | create e =>
      cases a with
      | some a => exact hsame EEXIST
      | none =>
        obtain ⟨n, hd', res, hadd, hlen, hadded⟩ := addEntry_spec hm hsane (hop.addable e rfl) h hfuel hsize
        simp only [hadd]
        rcases hadded with ⟨hholds, hres⟩ | ⟨hholds, err, rfl, -⟩
        · refine ⟨hd', res, bare e :: l, rfl, hholds, List.nodup_cons.mpr ⟨fun hmem => ?_, hdist⟩, hlen,
            .inl ⟨rfl, fun herr hworks => herr (hres.trans (hworks n).added)⟩⟩
          obtain ⟨x, hx, hxn⟩ := List.mem_map.mp hmem
          exact ha x hx hxn
        · exact ⟨hd', some err, l, rfl, hholds, hdist, hlen, .inr ⟨rfl, by simp⟩⟩
    | remove name =>
      cases a with
      | none => exact hsame ENOENT
      | some a =>
        obtain ⟨b, k⟩ := a
        obtain ⟨x, l', rfl, hperm, -, hdel⟩ := ha
        rcases hdel (envs 0) with ⟨err, -, heq⟩ | ⟨hd', heq, hholds, hlen⟩
        · simp only [heq]
          exact hsame err
        · simp only [heq]
          exact ⟨hd', _, _, rfl, hholds.perm (filter_perm hperm hdist).symm, hdist.sublist (List.filter_sublist.map _),
            by omega, .inl ⟨rfl, fun herr hworks => herr (hworks 0).deleted⟩⟩
  · exact hsame err

/-! ### Runs -/

/-- Operations one after another, each with the answers of its calls; what was done and what it returned. -/
def run (sb : DxSb) (fuel : ℕ) : List (Op × (ℕ → DxEnv)) → HDir → Option (HDir × List (Op × Option Errno))
  | [], hd => some (hd, [])
  | (op, envs) :: ops, hd =>
    match step sb fuel envs op hd with
    | none => none
    | some (hd₁, r) => (run sb fuel ops hd₁).map fun s => (s.1, (op, r) :: s.2)

/-- The entries `l'` come from `l` by what was done: an operation that failed may have had its effect all the same. -/
inductive Explains : List (Op × Option Errno) → List DirEntry → List DirEntry → Prop
  | nil (l : List DirEntry) : Explains [] l l
  | done {op : Op} {r : Option Errno} {t : List (Op × Option Errno)} {l l' : List DirEntry}
      (h : Explains t (effect op none l) l') : Explains ((op, r) :: t) l l'
  | failed {op : Op} {err : Errno} {t : List (Op × Option Errno)} {l l' : List DirEntry}
      (h : Explains t l l') : Explains ((op, some err) :: t) l l'

/-- The entries where an operation that failed has had no effect. -/
def contents : List (Op × Option Errno) → List DirEntry → List DirEntry
  | [], l => l
  | (op, r) :: t, l => contents t (effect op r l)

/-- **A run** ends, and leaves entries that its results explain. -/
theorem run_spec (fuel : ℕ) (hm : Mounted sb) : ∀ {ops : List (Op × (ℕ → DxEnv))} {l : List DirEntry} {hd : HDir},
    (∀ o ∈ ops, o.1.Fine sb ∧ ∀ n, Sane (o.2 n)) → Holds sb l hd → Distinct l →
    size hd + 5 * ops.length ≤ fuel → 3 < fuel → size hd + 5 * ops.length < 2 ^ 28 →
    ∃ hd' t l', run sb fuel ops hd = some (hd', t) ∧ t.map Prod.fst = ops.map Prod.fst ∧
      Holds sb l' hd' ∧ Distinct l' ∧ size hd' ≤ fuel ∧ Explains t l l' ∧
      ((∀ o ∈ ops, ∀ n, Works (o.2 n)) → l' = contents t l)
  | [], l, hd, _, h, hdist, hle, _, _ =>
    ⟨hd, [], l, rfl, rfl, h, hdist, by simpa using hle, .nil l, fun _ => rfl⟩
  | (op, envs) :: ops, l, hd, hops, h, hdist, hle, hfuel, hsize => by
    rw [List.forall_mem_cons] at hops
    rw [List.length_cons] at hle hsize
    obtain ⟨hd₁, r, l₁, hstep, h₁, hdist₁, hlen, heffect⟩ :=
      step_spec hm hops.1.2 hops.1.1 h hdist hfuel (by omega) (by omega)
    obtain ⟨hd₂, t, l₂, hrun, hmap, h₂, hdist₂, hle₂, hexp, hworks⟩ :=
      run_spec fuel hm hops.2 h₁ hdist₁ (by omega) hfuel (by omega)
    refine ⟨hd₂, (op, r) :: t, l₂, ?_, by rw [List.map_cons, hmap]; rfl, h₂, hdist₂, hle₂, ?_, fun hall => ?_⟩
    · rw [run, hstep]
      simp only [hrun]
      rfl
    · rcases heffect with ⟨rfl, -⟩ | ⟨rfl, hr⟩
      · exact .done hexp
      · obtain ⟨err, rfl⟩ := Option.ne_none_iff_exists'.mp hr
        exact .failed hexp
    · rw [List.forall_mem_cons] at hall
      rw [hworks hall.2, contents]
      rcases heffect with ⟨rfl, hr⟩ | ⟨rfl, hr⟩
      · rw [not_not.mp fun hne => hr hne hall.1]
      · obtain ⟨err, rfl⟩ := Option.ne_none_iff_exists'.mp hr
        rw [effect_some]

/-- Every call succeeds. -/
def quietEnv : DxEnv := ⟨fun _ => none, fun _ => none, none, none, none⟩

theorem smallSb_mounted : Mounted smallSb := ⟨smallSb_usual, by decide, rfl, by decide⟩

theorem quietEnv_sane : Sane quietEnv :=
  ⟨⟨by decide, by decide⟩, by rintro (h | h | ⟨c, h⟩ | ⟨b, h⟩ | h | h | h) <;> cases h⟩

theorem smallSb_first : IsFirst smallSb ⟨11, 12, [46], .dir⟩ ⟨2, 2036, [46, 46], .dir⟩ [] := by
  refine ⟨⟨?_, rfl, ?_⟩, rfl, by decide, rfl, rfl⟩
  · rw [List.forall_mem_cons, List.forall_mem_singleton]
    exact ⟨⟨by decide, by decide, by decide, by decide, by decide⟩, ⟨by decide, by decide, by decide, by decide, by decide⟩⟩
  · rw [List.tail_cons, List.forall_mem_singleton]
    decide

/-- Two names of one length, which collide, and one of them removed. -/
def collision : List (Op × (ℕ → DxEnv)) :=
  [(.create ⟨12, 0, [97], .regFile⟩, fun _ => quietEnv), (.create ⟨13, 0, [98], .regFile⟩, fun _ => quietEnv),
    (.remove [97], fun _ => quietEnv)]

theorem collision_fine : ∀ o ∈ collision, o.1.Fine smallSb ∧ ∀ n, Sane (o.2 n) := by
  have hcreate : ∀ e : DirEntry, isDot e.name = false → e.name.length ≤ 255 → Addable smallSb e →
      (Op.create e).Fine smallSb := fun e h1 h2 h3 => ⟨h1, h2, fun e' h => by cases h; exact h3⟩
  rw [collision, List.forall_mem_cons, List.forall_mem_cons, List.forall_mem_singleton]
  refine ⟨⟨hcreate _ ?_ ?_ ⟨?_, ?_, ?_, ?_⟩, fun _ => quietEnv_sane⟩,
    ⟨hcreate _ ?_ ?_ ⟨?_, ?_, ?_, ?_⟩, fun _ => quietEnv_sane⟩,
    ⟨⟨?_, ?_, fun e h => by cases h⟩, fun _ => quietEnv_sane⟩⟩ <;> decide

end LinuxEvfs.Htree.Runs
