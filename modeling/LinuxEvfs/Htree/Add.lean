import LinuxEvfs.Htree.Grow

/-! # Adding to an indexed directory

`ext4_dx_add_entry` on a valid directory, with calls that may fail in any way. Blocks have 2048 bytes at least: with
1024 bytes the first half of a leaf split by the number of its records may have no room for the new one.

* `splitAndAdd_spec`: `do_split` and the insertion behind it.
* `dxAddPass_spec`: one pass keeps the directory valid and adds the entry, or it starts again with fewer full blocks on
  the path.
* `dxAddEntry_spec`: so the function ends; it has added the entry, or the entries are those of before. -/

namespace LinuxEvfs.Htree.Add

open LinuxEvfs.Errno LinuxEvfs.Lib.PagedIndex LinuxEvfs.Namespace.Dir LinuxEvfs.Namespace.Block
open LinuxEvfs.Namespace.Entries (addDirentToBuf)
open LinuxEvfs.Htree.SortMap LinuxEvfs.Htree.Model LinuxEvfs.Htree.Leaves LinuxEvfs.Htree.Split LinuxEvfs.Htree.Index
open LinuxEvfs.Htree.Change LinuxEvfs.Htree.Grow

/-- What `add_dirent_to_buf` returns once the record is in the block. -/
def late (env : DxEnv) : Option Errno := env.calls .dirDirty <|> env.calls .dirInodeDirty

/-- The calls of `add_dirent_to_buf` do not answer `ENOSPC`, which would be taken for a block without room. -/
structure Honest (env : DxEnv) : Prop where
  access : env.calls .dirAccess ≠ some ENOSPC
  late : late env ≠ some ENOSPC

variable {sb : DxSb} {env : DxEnv} {info : DxRootInfo} {d d' : List DxBlock} {e : DirEntry} {b : DirBlock}
variable {hash p i : ℕ} {path up : Path ℕ} {bef aft : List (ℕ × ℕ)} {cur frame : ℕ × ℕ}

/-! ### `add_dirent_to_buf` -/

/-- The record is in the block, where there was room for it, or the block is as before. -/
def BufAdded (env : DxEnv) (e : DirEntry) (b : DirBlock) (r : DirBlock × Option Errno) : Prop :=
  (∃ k de, b[k]? = some de ∧ ext4DirRecLen e.name.length + taken de ≤ de.recLen ∧ r.1 = insertAt e k b ∧ r.2 = late env) ∨
    r.1 = b ∧ ∃ err, r.2 = some err ∧ Known env err

theorem addDirentToBuf_at {k : ℕ} {de : DirEntry} (sb : DxSb) (env : DxEnv) (hk : b[k]? = some de)
    (hroom : ext4DirRecLen e.name.length + taken de ≤ de.recLen) :
    BufAdded env e b (addDirentToBuf sb.toSb env.calls e (some k) b) := by
  unfold addDirentToBuf
  simp only [Option.elim_some]
  cases henv : env.calls .dirAccess with
  | some err => exact .inr ⟨rfl, err, rfl, known_call _ henv⟩
  | none => exact .inl ⟨k, de, hk, hroom, rfl, rfl⟩

/-- Where no place is given, only a block without room gives `ENOSPC`. -/
theorem addDirentToBuf_search (e : DirEntry) (hsb : Usual sb) (hhon : Honest env) (hb : IsLeaf sb b) :
    BufAdded env e b (addDirentToBuf sb.toSb env.calls e none b) ∧
      ((addDirentToBuf sb.toSb env.calls e none b).2 = some ENOSPC →
        (addDirentToBuf sb.toSb env.calls e none b).1 = b ∧
          ∀ de ∈ b, de.recLen < ext4DirRecLen e.name.length + taken de) := by
  cases hf : ext4FindDestDe sb.toSb e.name 0 b with
  | error err =>
    have heq : addDirentToBuf sb.toSb env.calls e none b = (b, some err) := by
      unfold addDirentToBuf
      simp only [Option.elim_none, hf]
    rw [heq]
    rcases findDest_spec hsb hb.sound (by rw [Nat.zero_add]; exact hb.tiles) hf with ⟨rfl, -⟩ | ⟨rfl, hfull⟩
    · exact ⟨.inr ⟨rfl, _, rfl, .inl rfl⟩, fun hnospc => absurd (Option.some.inj hnospc) (by decide)⟩
    · exact ⟨.inr ⟨rfl, _, rfl, .inr (.inl rfl)⟩, fun _ => ⟨rfl, fun de hde => (hfull de hde).1⟩⟩
  | ok k =>
    have heq : addDirentToBuf sb.toSb env.calls e none b = addDirentToBuf sb.toSb env.calls e (some k) b := by
      unfold addDirentToBuf
      simp only [Option.elim_none, Option.elim_some, hf]
    obtain ⟨de, hk, hroom⟩ := ext4FindDestDe_room hf
    rw [heq]
    refine ⟨addDirentToBuf_at sb env hk hroom, fun hnospc => ?_⟩
    -- the two calls do not answer so
    unfold addDirentToBuf at hnospc
    simp only [Option.elim_some] at hnospc
    cases henv : env.calls .dirAccess with
    | some err =>
      rw [henv] at hnospc
      exact absurd (henv.trans hnospc) hhon.access
    | none =>
      rw [henv] at hnospc
      exact absurd hnospc hhon.late

/-! ### `do_split` -/

/-- The entry is in the directory, or the entries are those of before; then an error is returned. The directory has
grown by `n` blocks at most. -/
def Added (sb : DxSb) (env : DxEnv) (info : DxRootInfo) (e : DirEntry) (n : ℕ) (d d' : List DxBlock)
    (r : Option Errno) : Prop :=
  ∃ info', Valid sb info' d' ∧ info'.hashVersion = info.hashVersion ∧ d'.length ≤ d.length + n ∧
    (((entries info' d').Perm (bare e :: entries info d) ∧ r = late env) ∨
      ((entries info' d').Perm (entries info d) ∧ ∃ err, r = some err ∧ Known env err))

/-- **`do_split`**: the block it returns has room for the entry, whose hash belongs there. -/
theorem doSplit_spec (env : DxEnv) (hsb : Usual sb) (hsize : 2048 ≤ sb.blocksize) (h : Valid sb info d)
    (hat : At (index d) (info.indirectLevels + 1) 0 0 (frame :: up) bef cur aft) (hnot : full d frame = false)
    (h2 : 2 ≤ (liveRecs (leafAt d cur.2)).length) (hlen : d.length < 2 ^ 28) (hle : cur.1 ≤ hash)
    (hlt : ∀ y ∈ aft, hash < y.1) :
    (∃ d' err, doSplit sb env (sb.hinfoVersion info.hashVersion) hash d frame cur.2 = (d', .err err) ∧
      Known env err ∧ d'.length ≤ d.length + 1 ∧ Valid sb info d' ∧ (entries info d').Perm (entries info d)) ∨
    ∃ d' bef' y aft', doSplit sb env (sb.hinfoVersion info.hashVersion) hash d frame cur.2 = (d', .ok y.2) ∧
      d'.length ≤ d.length + 1 ∧ Valid sb info d' ∧ (entries info d').Perm (entries info d) ∧ leaves info d' = bef' ++ y :: aft' ∧
      y.1 ≤ hash + 1 ∧ (∀ z ∈ aft', hash < z.1) ∧ Roomy (leafAt d' y.2) := by
  have hmem : cur ∈ leaves info d := by
    rw [leaves, hat.flat_eq]
    simp
  unfold doSplit
  cases happend : env.calls .splitAppend with
  | some err => exact .inl ⟨d, err, rfl, known_call _ happend, Nat.le_succ _, h, .rfl⟩
  | none =>
    have horphan := valid_append h (.leaf [])
    cases haccess : env.calls .splitAccess with
    | some err => exact .inl ⟨_, err, rfl, known_call _ haccess, by simp, horphan.valid, .of_eq horphan.entries⟩
    | none =>
      obtain ⟨map, halves, hmap, hrecs, hok, hroom⟩ :=
        splitLeaf_spec (sb.hinfoVersion info.hashVersion) hsb (h.isLeaf hmem) h2
      obtain ⟨hroomf, hrooms⟩ := hroom (.inl hsize)
      obtain ⟨p, i⟩ := frame
      obtain ⟨x, hx⟩ := h.node p (hat.mem_nodes (p, i) List.mem_cons_self)
      rw [full_eq hx.nodeAt, decide_eq_false_iff_not, Nat.not_le] at hnot
      obtain ⟨hvalid, hperm, hleaves, hfst, hsnd⟩ := valid_insertLeaf h hat hok hx.nodeAt hnot hlen rfl
      simp only [hmap, hrecs]
      cases hdirty : env.calls .splitDirty with
      | some err => exact .inl ⟨_, err, rfl, known_call _ hdirty, by simp, hvalid, hperm⟩
      | none =>
        refine .inr ?_
        have hone := halves.continued.toNat_le
        by_cases hhash : halves.hash2 ≤ hash
        · rw [if_pos hhash]
          refine ⟨_, bef ++ [cur], (halves.hash2 + halves.continued.toNat, d.length), aft, rfl, by simp, hvalid, hperm, ?_, ?_,
            hlt, ?_⟩
          · rw [hleaves, List.append_assoc]
            rfl
          · simp only
            omega
          · rw [leafAt_eq hsnd]
            exact hrooms
        · rw [if_neg hhash]
          refine ⟨_, bef, cur, _, rfl, by simp, hvalid, hperm, hleaves, by omega, fun z hz => ?_, ?_⟩
          · rcases List.mem_cons.mp hz with rfl | hz
            · simp only
              omega
            · exact hlt z hz
          · rw [leafAt_eq hfst]
            exact hroomf

/-- **`do_split` and the insertion** behind it. -/
theorem splitAndAdd_spec (env : DxEnv) (hsb : Usual sb) (hsize : 2048 ≤ sb.blocksize) (h : Valid sb info d)
    (he : Addable sb e) (hhash : sb.dirhash (sb.hinfoVersion info.hashVersion) e.name = hash)
    (hat : At (index d) (info.indirectLevels + 1) 0 0 (frame :: up) bef cur aft) (hnot : full d frame = false)
    (h2 : 2 ≤ (liveRecs (leafAt d cur.2)).length) (hlen : d.length < 2 ^ 28) (hle : cur.1 ≤ hash)
    (hlt : ∀ y ∈ aft, hash < y.1) :
    ∃ d' r, splitAndAdd sb env e (sb.hinfoVersion info.hashVersion) d frame cur.2 = .ret d' r ∧
      Added sb env info e 1 d d' r := by
  unfold splitAndAdd
  rw [hhash]
  rcases doSplit_spec env hsb hsize h hat hnot h2 hlen hle hlt with
    ⟨d', err, hs, hknown, hlen', hvalid, hperm⟩ | ⟨d', bef', y, aft', hs, hlen', hvalid, hperm, hcut, hle', hlt', hroom⟩
  · rw [hs]
    exact ⟨d', some err, rfl, info, hvalid, rfl, hlen', .inr ⟨hperm, err, rfl, hknown⟩⟩
  · rw [hs]
    refine ⟨_, _, rfl, info, ?_⟩
    have hmem : y ∈ leaves info d' := by
      rw [hcut]
      simp
    obtain ⟨recs, hget, -⟩ := hvalid.leaf y hmem
    obtain ⟨de, hk, hde⟩ := hroom
    have hrec := ext4DirRecLen_le he.le
    have hfits : ext4DirRecLen e.name.length + taken de ≤ de.recLen := by omega
    rcases addDirentToBuf_at sb env hk hfits with ⟨k', de', hk', hroom', hbuf, hr⟩ | ⟨hsame, hr⟩
    · obtain ⟨hleaf', hperm'⟩ := (hvalid.isLeaf hmem).insert he hk' hroom'
      rw [hbuf]
      obtain ⟨hvalid', hentries⟩ := valid_addLeaf hvalid hcut hhash hle' hlt' hleaf' hperm'
      exact ⟨hvalid', rfl, by simpa using hlen', .inl ⟨hentries.trans (hperm.cons _), hr⟩⟩
    · rw [hsame, set_leafAt hget]
      exact ⟨hvalid, rfl, hlen', .inr ⟨hperm, hr⟩⟩

/-! ### `ext4_dx_add_entry` -/

/-- How many blocks at the end of the path to the leaf of a hash are full. -/
def work (info : DxRootInfo) (hash : ℕ) (d : List DxBlock) : ℕ :=
  fullRun d (probe (index d) hash (info.indirectLevels + 1) 0)

/-- What a pass leaves behind. -/
def PassOK (sb : DxSb) (env : DxEnv) (info : DxRootInfo) (hash : ℕ) (e : DirEntry) (d : List DxBlock) : Pass → Prop
  | .ended (.ret d' r) => Added sb env info e 2 d d' r
  | .ended _ => False
  | .again d' => ∃ info', Reindexed sb info d info' d' ∧ d'.length = d.length + 1 ∧ work info' hash d' < work info hash d

theorem Added.of_reindexed {info' : DxRootInfo} {d₁ : List DxBlock} {r : Option Errno} {m n : ℕ}
    (hre : Reindexed sb info d info' d₁) (hlen : d₁.length + n ≤ d.length + m) (h : Added sb env info' e n d₁ d' r) :
    Added sb env info e m d d' r := by
  obtain ⟨info'', hvalid, hversion, hlen', hperm⟩ := h
  rw [hre.entries] at hperm
  exact ⟨info'', hvalid, hversion.trans hre.version, hlen'.trans hlen, hperm⟩

theorem Added.mono {r : Option Errno} {m n : ℕ} (h : Added sb env info e n d d' r) (hn : n ≤ m) :
    Added sb env info e m d d' r := by
  obtain ⟨info', hvalid, hversion, hlen, hperm⟩ := h
  exact ⟨info', hvalid, hversion, by omega, hperm⟩

/-- The path to the leaf of a hash is the one that the search takes. -/
theorem path_eq (h : Valid sb info d) (hat : At (index d) (info.indirectLevels + 1) 0 0 path bef cur aft)
    (hle : cur.1 ≤ hash) (hlt : ∀ y ∈ aft, hash < y.1) : fullRun d path = work info hash d := by
  rw [work, ← hat.eq_probe h.filled h.routed.ordered (Nat.zero_le _) hle hlt]

/-- The leaf has no room: the index is split where that is needed, and then the leaf. -/
theorem addToFull_spec {r : Probe} (env : DxEnv) (hsb : Usual sb) (hsize : 2048 ≤ sb.blocksize) (h : Valid sb info d)
    (he : Addable sb e) (hversion : r.version = sb.hinfoVersion info.hashVersion)
    (hhash : sb.dirhash r.version e.name = hash) (hleads : Leads info d hash (r.frame :: r.up) bef cur aft)
    (h2 : 2 ≤ (liveRecs (leafAt d cur.2)).length) (hlen : d.length + 1 < 2 ^ 28) :
    PassOK sb env info hash e d (addToFull sb env e d r cur.2) := by
  obtain ⟨hat, hle, hlt⟩ := hleads
  have hmem : cur ∈ leaves info d := by
    rw [leaves, hat.flat_eq]
    simp
  rw [hversion] at hhash
  unfold addToFull
  rw [hversion]
  cases hfull : full d r.frame with
  | false =>
    simp only [Bool.false_eq_true, if_false]
    obtain ⟨d', res, hs, hadded⟩ := splitAndAdd_spec env hsb hsize h he hhash hat hfull h2 (by omega) hle hlt
    rw [hs]
    exact hadded.mono (by omega)
  | true =>
    simp only [if_true]
    have hsplit := splitFull_spec env hsb h hat hfull (by omega)
    cases hs : splitFull sb env d r.frame r.up with
    | done d' err =>
      rw [hs] at hsplit
      obtain ⟨herr, hlen', info', hre⟩ := hsplit
      exact ⟨info', hre.valid, hre.version, by omega, .inr ⟨.of_eq hre.entries, herr⟩⟩
    | again d' =>
      rw [hs] at hsplit
      obtain ⟨info', path', hre, hlen', hat', hless⟩ := hsplit
      refine ⟨info', hre, hlen', ?_⟩
      rwa [← path_eq h hat hle hlt, ← path_eq hre.valid hat' hle hlt]
    | split d' frame =>
      rw [hs] at hsplit
      obtain ⟨up', hre, hlen', hat', hnot⟩ := hsplit
      obtain ⟨d'', res, hs', hadded⟩ := splitAndAdd_spec env hsb hsize hre.valid he hhash hat' hnot
        (by rw [hre.leafAt hmem]; exact h2) (by omega) hle hlt
      simp only
      rw [hs']
      exact Added.of_reindexed hre (by omega) hadded

/-- **One pass** of `ext4_dx_add_entry`. -/
theorem dxAddPass_spec (hsb : Usual sb) (hsize : 2048 ≤ sb.blocksize) (hhon : Honest env) (h : Valid sb info d)
    (he : Addable sb e) (hlen : d.length + 1 < 2 ^ 28) :
    PassOK sb env info (sb.dirhash (sb.hinfoVersion info.hashVersion) e.name) e d (dxAddPass sb env e d) := by
  have hsame (err : Errno) (hknown : Known env err) : Added sb env info e 2 d d (some err) :=
    ⟨info, h, rfl, Nat.le_add_right _ _, .inr ⟨.rfl, err, rfl, hknown⟩⟩
  unfold dxAddPass
  rcases dxProbe_spec env h fun version => sb.dirhash version e.name with
    ⟨r, hr, hversion, bef, cur, aft, hleads⟩ | ⟨q, err, hq, hr⟩
  · rw [hversion] at hleads
    rw [hr]
    simp only
    rw [frameBlock_at hleads.at_]
    obtain ⟨recs, hget, hleaf⟩ := h.leaf cur hleads.mem
    rcases readLeaf_spec env hsb hget hleaf with ⟨recs', hread, hrecs⟩ | ⟨q, err, hq, hread⟩
    · rw [hread, hrecs]
      simp only
      cases haccess : env.calls .leafAccess with
      | some err => exact hsame err (known_call _ haccess)
      | none =>
        simp only
        obtain ⟨hbuf, hnospc⟩ := addDirentToBuf_search e hsb hhon hleaf
        by_cases hres : (addDirentToBuf sb.toSb env.calls e none recs).2 = some ENOSPC
        · obtain ⟨hrecs', hfull⟩ := hnospc hres
          have hset : d.set cur.2 (.leaf recs) = d := by
            rw [← leafAt_eq hget]
            exact set_leafAt hget
          rw [if_pos hres, hrecs', hset]
          refine addToFull_spec env hsb hsize h he hversion (by rw [hversion]) hleads ?_ hlen
          rw [leafAt_eq hget]
          exact hleaf.two_live hsb he.le hfull
        · rw [if_neg hres]
          have hcut : leaves info d = bef ++ cur :: aft := hleads.at_.flat_eq
          rcases hbuf with ⟨k, de, hk, hroom, hrecs', hlate⟩ | ⟨hrecs', herr⟩
          · obtain ⟨hleaf', hperm⟩ := hleaf.insert he hk hroom
            rw [hrecs']
            obtain ⟨hvalid, hentries⟩ := valid_addLeaf h hcut rfl (hleads.le.trans (Nat.le_succ _)) hleads.lt hleaf'
              (by rw [leafAt_eq hget]; exact hperm)
            exact ⟨info, hvalid, rfl, by simp, .inl ⟨hentries, hlate⟩⟩
          · rw [hrecs', ← leafAt_eq hget, set_leafAt hget, leafAt_eq hget]
            exact ⟨info, h, rfl, Nat.le_add_right _ _, .inr ⟨.rfl, herr⟩⟩
    · rw [hread]
      exact hsame err (known_read q hq)
  · rw [hr]
    exact hsame err (known_read q hq)

/-- No more blocks are on the path than the index has levels. -/
theorem work_le (h : Valid sb info d) (hash : ℕ) : work info hash d ≤ sb.htreeLevel := by
  obtain ⟨bef, cur, aft, hleads⟩ := h.leads hash
  have hlen := hleads.at_.length
  have hlevels := h.levels
  have hle := (List.takeWhile_sublist (full d) (l := probe (index d) hash (info.indirectLevels + 1) 0)).length_le
  rw [work, fullRun]
  omega

/-- **`ext4_dx_add_entry`** ends, and leaves the entry added or the entries as they were. -/
theorem dxAddEntry_spec {envs : ℕ → DxEnv} (hsb : Usual sb) (hsize : 2048 ≤ sb.blocksize)
    (hhon : ∀ n, Honest (envs n)) (he : Addable sb e) : ∀ (fuel pass m : ℕ) {info : DxRootInfo} {d : List DxBlock},
      Valid sb info d → work info (sb.dirhash (sb.hinfoVersion info.hashVersion) e.name) d ≤ m → m < fuel →
      d.length + m + 1 < 2 ^ 28 →
      ∃ n d' r, ext4DxAddEntry sb envs e fuel pass d = .ret d' r ∧ Added sb (envs n) info e (m + 2) d d' r
  | 0, _, _, _, _, _, _, hfuel, _ => absurd hfuel (Nat.not_lt_zero _)
  | fuel + 1, pass, m, info, d, h, hwork, hfuel, hlen => by
    have hpass := dxAddPass_spec hsb hsize (hhon pass) h he (by omega)
    rw [ext4DxAddEntry]
    cases hp : dxAddPass sb (envs pass) e d with
    | ended o =>
      rw [hp] at hpass
      cases o with
      | ret d' r => exact ⟨pass, d', r, rfl, hpass.mono (by omega)⟩
      | wild => exact hpass.elim
      | running => exact hpass.elim
    | again d' =>
      rw [hp] at hpass
      obtain ⟨info', hre, hlen', hless⟩ := hpass
      rw [← hre.version] at hless hwork
      obtain ⟨n, d'', r, hrun, hadded⟩ := dxAddEntry_spec hsb hsize hhon he fuel (pass + 1) (m - 1) hre.valid
        (by omega) (by omega) (by omega)
      exact ⟨n, d'', r, hrun, Added.of_reindexed hre (by omega) hadded⟩

end LinuxEvfs.Htree.Add
