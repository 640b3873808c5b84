import LinuxEvfs.Htree.Convert

/-! # Reading a directory in hash order

`ext4_htree_fill_tree` stores the records from a hash on for `readdir`, leaf by leaf, and says from which hash on to go
on the next time. It ends with a leaf behind which no leaf goes on with the same hash.

* `storeRecords_spec`: `htree_dirblock_to_tree` stores the live records of a leaf that are not before the start.
* `fillLoop_spec`: the leaves that one call visits.
* `fillTree_spec`: one call stores the entries from the start up to the next hash, and no others. -/

namespace LinuxEvfs.Htree.Readdir

open LinuxEvfs.Errno LinuxEvfs.Lib.PagedIndex LinuxEvfs.Lib.Routing LinuxEvfs.Namespace.Dir
open LinuxEvfs.Namespace.Entries (Dir isDot)
open LinuxEvfs.Htree.Model LinuxEvfs.Htree.Leaves LinuxEvfs.Htree.Index LinuxEvfs.Htree.Convert

/-! ### The functions -/

/-- What is stored in the tree of the open file: the hash, the minor hash and the record. -/
structure Stored where
  hash : ℕ
  minorHash : ℕ
  de : DirEntry
deriving DecidableEq

/-- The calls of `ext4_htree_fill_tree`. -/
structure FillEnv where
  dx : DxEnv
  /-- `ext4_htree_store_dirent`. -/
  store : DirEntry → Option Errno
  /-- `fatal_signal_pending` before the leaf of this number is read. -/
  signal : ℕ → Bool

/-- `~0`: there is nothing behind. -/
def EOF : ℕ := 2 ^ 32 - 1

section Model

variable (sb : DxSb) (minor : ℕ → Name → ℕ) (env : FillEnv)

/-- The loop of `htree_dirblock_to_tree`. -/
def storeRecords (version startHash startMinor : ℕ) : ℕ → DirBlock → Except Errno (List Stored)
  | _, [] => .ok []
  | offset, de :: rest =>
    if sb.blocksize ≤ offset + ext4DirRecLen 0 then .ok []
    -- the rest of the block is silently ignored
    else if sb.checkDirEntry sb.blocksize offset de then .ok []
    else
      let hash := sb.dirhash version de.name
      let minorHash := minor version de.name
      if hash < startHash ∨ hash = startHash ∧ minorHash < startMinor then
        storeRecords version startHash startMinor (offset + de.recLen) rest
      else if de.inode = 0 then storeRecords version startHash startMinor (offset + de.recLen) rest
      else
        match env.store de with
        | some err => .error err
        | none =>
          (storeRecords version startHash startMinor (offset + de.recLen) rest).map (⟨hash, minorHash, de⟩ :: ·)

/-- `htree_dirblock_to_tree` of a leaf. -/
def htreeDirblockToTree (version startHash startMinor : ℕ) (d : List DxBlock) (b : ℕ) : Except Errno (List Stored) :=
  match readLeaf env.dx d b with
  | .error err => .error err
  | .ok recs => storeRecords sb minor env version startHash startMinor 0 recs

/-- The loop of `ext4_htree_fill_tree`: the leaf number `n` is next, and `acc` is stored. It returns what is stored in
the end and the next hash. -/
def fillLoop (version startHash startMinor : ℕ) (d : List DxBlock) :
    ℕ → ℕ → List Stored → Path ℕ → Option (Except Errno (List Stored × ℕ))
  | 0, _, _, _ => none
  | fuel + 1, n, acc, frames =>
    if env.signal n then some (.error ERESTARTSYS)
    else
      match htreeDirblockToTree sb minor env version startHash startMinor d (frameBlock d frames) with
      | .error err => some (.error err)
      | .ok stored =>
        let next := ext4HtreeNextBlock env.dx d HASH_NB_ALWAYS frames
        let hashval := next.2.getD EOF
        match next.1 with
        | .error err => some (.error err)
        | .ok none => some (.ok (acc ++ stored, hashval))
        | .ok (some frames') =>
          if acc ++ stored ≠ [] ∧ hashval % 2 = 0 then some (.ok (acc ++ stored, hashval))
          else fillLoop version startHash startMinor d fuel (n + 1) (acc ++ stored) frames'

/-- The records `.` and `..` of the root that are stored. -/
def dots (startHash startMinor : ℕ) (d : List DxBlock) : List Stored :=
  match d[(0 : ℕ)]? with
  | some (.root dot dotdot _ _) =>
    (if startHash = 0 ∧ startMinor = 0 then [⟨0, 0, dot⟩] else []) ++
      if startHash < 2 ∨ startHash = 2 ∧ startMinor = 0 then [⟨2, 0, dotdot⟩] else []
  | _ => []

/-- The first error of `ext4_htree_store_dirent`. -/
def storeError (l : List Stored) : Option Errno := l.findSome? fun s => env.store s.de

/-- `ext4_htree_fill_tree`: what is stored and the next hash; `none` where the loop has not ended. -/
def ext4HtreeFillTree (fuel startHash startMinor : ℕ) : HDir → Option (Except Errno (List Stored × ℕ))
  | .linear d =>
    match env.dx.read 0 with
    | some err => some (.error err)
    | none =>
      if d.block 0 = [] then some (.error EFSCORRUPTED)
      else
        some ((storeRecords sb minor env (sb.hinfoVersion sb.defHashVersion) startHash startMinor 0 (d.block 0)).map
          fun l => (l, EOF))
  | .indexed d =>
    match dxProbe sb env.dx d fun _ => startHash with
    | .error err => some (.error err)
    | .ok r =>
      match storeError env (dots startHash startMinor d) with
      | some err => some (.error err)
      | none =>
        fillLoop sb minor env r.version startHash startMinor d fuel 0 (dots startHash startMinor d) (r.frame :: r.up)

end Model

variable {sb : DxSb} {minor : ℕ → Name → ℕ} {env : FillEnv} {info : DxRootInfo} {d : List DxBlock} {b : DirBlock}
variable {version startHash startMinor fuel next : ℕ} {bef aft : List (ℕ × ℕ)} {cur : ℕ × ℕ} {path : Path ℕ}

/-! ### Failures -/

/-- An error of one of the calls, or of a signal. -/
def Fails (env : FillEnv) (err : Errno) : Prop :=
  (∃ b, env.dx.read b = some err) ∨ (∃ de, env.store de = some err) ∨ (∃ n, env.signal n = true) ∧ err = ERESTARTSYS

/-- The result is one with the property, unless a call fails. -/
def OrFail {α : Type} (env : FillEnv) (r : Except Errno α) (P : α → Prop) : Prop :=
  (∃ a, r = .ok a ∧ P a) ∨ ∃ err, r = .error err ∧ Fails env err

theorem OrFail.map {α β : Type} {r : Except Errno α} {P : α → Prop} {Q : β → Prop} {f : α → β} (h : OrFail env r P)
    (hf : ∀ a, P a → Q (f a)) : OrFail env (r.map f) Q := by
  rcases h with ⟨a, rfl, ha⟩ | ⟨err, rfl, herr⟩
  · exact .inl ⟨f a, rfl, hf a ha⟩
  · exact .inr ⟨err, rfl, herr⟩

theorem OrFail.imp {α : Type} {r : Except Errno α} {P Q : α → Prop} (h : OrFail env r P) (hf : ∀ a, P a → Q a) :
    OrFail env r Q := by
  rcases h with ⟨a, ha, hP⟩ | hfail
  · exact .inl ⟨a, ha, hf a hP⟩
  · exact .inr hfail

/-! ### `htree_dirblock_to_tree` -/

/-- The record is not before the start. -/
def From (sb : DxSb) (minor : ℕ → Name → ℕ) (version startHash startMinor : ℕ) (de : DirEntry) : Prop :=
  startHash < sb.dirhash version de.name ∨ startHash = sb.dirhash version de.name ∧ startMinor ≤ minor version de.name

instance (de : DirEntry) : Decidable (From sb minor version startHash startMinor de) :=
  inferInstanceAs (Decidable (_ ∨ _))

/-- A record as it is stored. -/
def stored (sb : DxSb) (minor : ℕ → Name → ℕ) (version : ℕ) (de : DirEntry) : Stored :=
  ⟨sb.dirhash version de.name, minor version de.name, de⟩

/-- What is stored of some records. -/
def kept (sb : DxSb) (minor : ℕ → Name → ℕ) (version startHash startMinor : ℕ) (b : DirBlock) : List Stored :=
  (b.filter fun de => de.inode ≠ 0 ∧ From sb minor version startHash startMinor de).map (stored sb minor version)

/-- What is stored without the length of the record. -/
def Stored.bare (s : Stored) : Stored := { s with de := Leaves.bare s.de }

theorem kept_bare (b : DirBlock) : (kept sb minor version startHash startMinor b).map Stored.bare =
    ((liveRecs b).filter fun x => From sb minor version startHash startMinor x).map (stored sb minor version) := by
  rw [kept, List.map_map, liveRecs, List.filter_map, List.map_map, List.filter_filter]
  have hcomm : Stored.bare ∘ stored sb minor version = stored sb minor version ∘ Leaves.bare := rfl
  rw [hcomm]
  refine congrArg (List.map _) (List.filter_congr fun de _ => ?_)
  simp only [Function.comp_apply, Bool.decide_and, Bool.and_comm]
  rfl

/-- **`htree_dirblock_to_tree`** stores the live records that are not before the start. -/
theorem storeRecords_spec (hsb : Usual sb) : ∀ {offset : ℕ} {b : DirBlock}, (∀ de ∈ b, Sound sb de) →
    offset + used b = sb.bufSize →
      OrFail env (storeRecords sb minor env version startHash startMinor offset b)
        (· = kept sb minor version startHash startMinor b)
  | _, [], _, _ => .inl ⟨[], rfl, rfl⟩
  | offset, de :: rest, hb, hoff => by
    rw [List.forall_mem_cons] at hb
    have hgood := hsb.accepts_blocksize hb.1 hb.2 hoff
    rw [used_cons, ← Nat.add_assoc] at hoff
    have hrec := storeRecords_spec hsb hb.2 hoff
    have hbuf := hsb.bufSize_ge.2
    have htwelve := hb.1.twelve
    have hin : ¬ sb.blocksize ≤ offset + ext4DirRecLen 0 := by
      unfold ext4DirRecLen
      omega
    unfold storeRecords
    rw [if_neg hin, if_neg (by simp [hgood])]
    simp only
    by_cases hfrom : From sb minor version startHash startMinor de
    · have hnot : ¬ (sb.dirhash version de.name < startHash ∨
          sb.dirhash version de.name = startHash ∧ minor version de.name < startMinor) := by
        unfold From at hfrom
        omega
      rw [if_neg hnot]
      by_cases h0 : de.inode = 0
      · rw [if_pos h0, kept, List.filter_cons_of_neg (by simp [h0])]
        exact hrec
      · rw [if_neg h0]
        cases hstore : env.store de with
        | some err => exact .inr ⟨err, rfl, .inr (.inl ⟨de, hstore⟩)⟩
        | none =>
          refine hrec.map fun l hl => ?_
          rw [hl, kept, kept, List.filter_cons_of_pos (by simp [h0, hfrom]), List.map_cons, stored]
    · have hbefore : sb.dirhash version de.name < startHash ∨
          sb.dirhash version de.name = startHash ∧ minor version de.name < startMinor := by
        unfold From at hfrom
        omega
      rw [if_pos hbefore, kept, List.filter_cons_of_neg (by simp [hfrom])]
      exact hrec

theorem dirblockToTree_spec (env : FillEnv) (hsb : Usual sb) (h : Valid sb info d) (hcur : cur ∈ leaves info d) :
    OrFail env (htreeDirblockToTree sb minor env version startHash startMinor d cur.2)
      (· = kept sb minor version startHash startMinor (leafAt d cur.2)) := by
  obtain ⟨recs, hget, hleaf⟩ := h.leaf cur hcur
  unfold htreeDirblockToTree
  rcases readLeaf_spec env.dx hsb hget hleaf with ⟨recs', hread, hrecs⟩ | ⟨q, err, hq, hread⟩
  · rw [hread, hrecs, leafAt_eq hget]
    exact storeRecords_spec hsb hleaf.sound (by rw [Nat.zero_add, hleaf.tiles])
  · rw [hread]
    exact .inr ⟨err, rfl, .inl ⟨q, hq⟩⟩

/-! ### `ext4_htree_fill_tree` -/

/-- The next hash behind some leaves, where `rest` are the leaves not visited. -/
def Stops (rest : List (ℕ × ℕ)) (next : ℕ) : Prop :=
  rest = [] ∧ next = EOF ∨ ∃ y rest', rest = y :: rest' ∧ next = y.1 ∧ y.1 % 2 = 0

/-- **The loop of `ext4_htree_fill_tree`** visits some of the leaves from the one it is at on, all of them or up to one
whose bound is even. -/
theorem fillLoop_spec (hsb : Usual sb) (h : Valid sb info d) :
    ∀ {aft : List (ℕ × ℕ)} {fuel n : ℕ} {acc : List Stored} {path : Path ℕ} {bef : List (ℕ × ℕ)} {cur : ℕ × ℕ},
      At (index d) (info.indirectLevels + 1) 0 0 path bef cur aft → aft.length < fuel →
      ∃ r, fillLoop sb minor env version startHash startMinor d fuel n acc path = some r ∧ OrFail env r fun s =>
        ∃ seen rest, aft = seen ++ rest ∧ Stops rest s.2 ∧ s.1 = acc ++ (cur :: seen).flatMap fun y =>
          kept sb minor version startHash startMinor (leafAt d y.2)
  | _, 0, _, _, _, _, _, _, hfuel => absurd hfuel (Nat.not_lt_zero _)
  | aft, fuel + 1, n, acc, path, bef, cur, hat, hfuel => by
    have hmem : cur ∈ leaves info d := by
      rw [leaves, hat.flat_eq]
      simp
    obtain ⟨hlast, hbehind⟩ := nextBlock_spec env.dx HASH_NB_ALWAYS h hat
    unfold fillLoop
    by_cases hsignal : env.signal n = true
    · rw [if_pos hsignal]
      exact ⟨_, rfl, .inr ⟨_, rfl, .inr (.inr ⟨⟨n, hsignal⟩, rfl⟩)⟩⟩
    rw [if_neg hsignal, frameBlock_at hat]
    rcases dirblockToTree_spec env hsb h hmem with ⟨l, hl, heq⟩ | ⟨err, hl, herr⟩
    · rw [hl, heq]
      simp only
      cases aft with
      | nil =>
        rw [hlast rfl]
        exact ⟨_, rfl, .inl ⟨_, rfl, [], [], rfl, .inl ⟨rfl, rfl⟩, by simp⟩⟩
      | cons y rest =>
        obtain ⟨hval, -, hgo⟩ := hbehind y rest rfl
        rw [hval, Option.getD_some]
        rcases hgo (fun hn => absurd hn.1 (by decide)) with ⟨_, hn, path', rfl, hat'⟩ | ⟨q, err, hq, hn⟩
        · rw [hn]
          simp only
          split_ifs with hstop
          · exact ⟨_, rfl, .inl ⟨_, rfl, [], y :: rest, rfl, .inr ⟨y, rest, rfl, rfl, hstop.2⟩, by simp⟩⟩
          · -- nothing is stored yet, or the next leaf goes on with the hash
            obtain ⟨r, hr, hfill⟩ := fillLoop_spec hsb h hat' (Nat.lt_of_succ_lt_succ hfuel)
            refine ⟨r, hr, hfill.imp fun s hs => ?_⟩
            obtain ⟨seen, rest', rfl, hstops, hs⟩ := hs
            exact ⟨y :: seen, rest', rfl, hstops, by rw [hs]; simp⟩
        · rw [hn]
          exact ⟨_, rfl, .inr ⟨err, rfl, .inl ⟨q, hq⟩⟩⟩
    · rw [hl]
      exact ⟨_, rfl, .inr ⟨err, rfl, herr⟩⟩

theorem even_hash (sb : DxSb) {version k b : ℕ} (hk : k ∈ hashes sb version d b) : k % 2 = 0 ∧ k < EOF := by
  obtain ⟨x, -, rfl⟩ := List.mem_map.mp hk
  have := sb.dirhash_lt version x.name
  have := sb.dirhash_even version x.name
  unfold EOF
  omega

theorem mem_hashes_of_live (sb : DxSb) (version : ℕ) {x : DirEntry} {b : ℕ} (hx : x ∈ liveRecs (leafAt d b)) :
    sb.dirhash version x.name ∈ hashes sb version d b :=
  List.mem_map_of_mem hx

/-- **The entries of the leaves visited** are those from the start up to the next hash. -/
theorem range_eq (minor : ℕ → Name → ℕ) (startMinor : ℕ) {seen rest : List (ℕ × ℕ)} (h : Valid sb info d) (hversion : version = sb.hinfoVersion info.hashVersion)
    (hcut : leaves info d = bef ++ cur :: (seen ++ rest)) (hle : cur.1 ≤ startHash) (hstops : Stops rest next) :
    (cur :: seen).flatMap (fun y => (liveRecs (leafAt d y.2)).filter fun x =>
        From sb minor version startHash startMinor x) =
      (entries info d).filter fun x => From sb minor version startHash startMinor x ∧
        sb.dirhash version x.name < next := by
  have hr := h.routed
  rw [← hversion, hcut] at hr
  obtain ⟨-, hap, hbef⟩ := List.pairwise_append.mp hr.apart
  rw [← List.cons_append] at hap hbef
  obtain ⟨-, -, hseen⟩ := List.pairwise_append.mp hap
  -- the hashes in the leaves before are below the bound of `cur`
  have hfirst : bef.flatMap (fun y => (liveRecs (leafAt d y.2)).filter fun x =>
      From sb minor version startHash startMinor x ∧ sb.dirhash version x.name < next) = [] := by
    refine List.flatMap_eq_nil_iff.mpr fun y hy => List.filter_eq_nil_iff.mpr fun x hx => ?_
    have := (hbef y hy cur List.mem_cons_self).2 _ (mem_hashes_of_live sb version hx)
    intro hfrom
    rcases (of_decide_eq_true hfrom).1 with hlt | ⟨heq, -⟩ <;> omega
  have hmid : (cur :: seen).flatMap (fun y => (liveRecs (leafAt d y.2)).filter fun x =>
      From sb minor version startHash startMinor x ∧ sb.dirhash version x.name < next) =
      (cur :: seen).flatMap fun y => (liveRecs (leafAt d y.2)).filter fun x =>
        From sb minor version startHash startMinor x := by
    refine List.flatMap_congr fun y hy => List.filter_congr fun x hx => ?_
    have hlt : sb.dirhash version x.name < next := by
      rcases hstops with ⟨-, rfl⟩ | ⟨z, rest', rfl, rfl, -⟩
      · exact (even_hash sb (mem_hashes_of_live sb version hx)).2
      · exact (hseen y hy z List.mem_cons_self).2 _ (mem_hashes_of_live sb version hx)
    simp [hlt]
  -- a leaf behind goes on with no hash below the even bound
  have hlast : rest.flatMap (fun y => (liveRecs (leafAt d y.2)).filter fun x =>
      From sb minor version startHash startMinor x ∧ sb.dirhash version x.name < next) = [] := by
    refine List.flatMap_eq_nil_iff.mpr fun y hy => List.filter_eq_nil_iff.mpr fun x hx => ?_
    rcases hstops with ⟨rfl, -⟩ | ⟨z, rest', rfl, rfl, heven⟩
    · exact absurd hy List.not_mem_nil
    · have hzy : z.1 ≤ y.1 := by
        rcases List.mem_cons.mp hy with rfl | hy'
        · exact le_rfl
        · have hrest := (List.pairwise_append.mp hap).2.1
          exact ((List.pairwise_cons.mp hrest).1 y hy').1
      have habove := hr.above y (by simp [hy]) _ (mem_hashes_of_live sb version hx)
      have := (even_hash sb (mem_hashes_of_live sb version hx)).1
      simp only [decide_eq_true_eq]
      omega
  rw [entries, hcut, ← List.cons_append, List.filter_flatMap, List.flatMap_append, List.flatMap_append, hfirst, hmid,
    hlast, List.nil_append, List.append_nil]

/-- What one call stores of the entries `l`: those from the start up to the next hash, behind records of `.` and
`..`. -/
def Range (sb : DxSb) (minor : ℕ → Name → ℕ) (l : List DirEntry) (startHash startMinor : ℕ) (s : List Stored × ℕ) : Prop :=
  startHash < s.2 ∧ s.2 ≤ EOF ∧ ∃ ds recs, s.1 = ds ++ recs ∧ (∀ x ∈ ds, isDot x.de.name = true) ∧
    (recs.map Stored.bare).Perm ((l.filter fun x =>
      From sb minor (sb.hinfoVersion sb.defHashVersion) startHash startMinor x ∧
        sb.dirhash (sb.hinfoVersion sb.defHashVersion) x.name < s.2).map
          (stored sb minor (sb.hinfoVersion sb.defHashVersion)))

/-- The bounds of the leaves. -/
def bounds : HDir → List ℕ
  | .linear _ => []
  | .indexed d =>
    match d[(0 : ℕ)]? with
    | some (.root _ _ info _) => (leaves info d).map Prod.fst
    | _ => []

theorem bounds_eq (h : HasRoot info d) : bounds (.indexed d) = (leaves info d).map Prod.fst := by
  obtain ⟨dot, dotdot, x, hroot, -⟩ := h
  rw [bounds, hroot]

theorem dots_isDot (h : HasRoot info d) : ∀ x ∈ dots startHash startMinor d, isDot x.de.name = true := by
  obtain ⟨dot, dotdot, x, hroot, hdot, hdotdot⟩ := h
  intro s hs
  simp only [dots, hroot, List.mem_append] at hs
  rcases hs with hs | hs
  · split_ifs at hs
    · obtain rfl := List.mem_singleton.mp hs
      simp [isDot, hdot]
    · exact absurd hs List.not_mem_nil
  · split_ifs at hs
    · obtain rfl := List.mem_singleton.mp hs
      simp [isDot, hdotdot]
    · exact absurd hs List.not_mem_nil

theorem storeError_fails {l : List Stored} {err : Errno} (h : storeError env l = some err) : Fails env err := by
  obtain ⟨s, -, hs⟩ := List.exists_of_findSome?_eq_some h
  exact .inr (.inl ⟨s.de, hs⟩)

theorem fillTree_indexed (env : FillEnv) (hsb : Usual sb) (h : Valid sb info d)
    (hversion : info.hashVersion = sb.defHashVersion) (hfuel : (leaves info d).length ≤ fuel) (hstart : startHash < EOF) :
    ∃ r, ext4HtreeFillTree sb minor env fuel startHash startMinor (.indexed d) = some r ∧
      OrFail env r fun s => Range sb minor (entries info d) startHash startMinor s ∧
        (s.2 = EOF ∨ s.2 ∈ bounds (.indexed d)) := by
  rw [ext4HtreeFillTree]
  rcases dxProbe_spec env.dx h fun _ => startHash with ⟨r, hr, hv, bef, cur, aft, hleads⟩ | ⟨q, err, hq, hr⟩
  · rw [hr]
    simp only
    cases hstore : storeError env (dots startHash startMinor d) with
    | some err => exact ⟨_, rfl, .inr ⟨err, rfl, storeError_fails hstore⟩⟩
    | none =>
      have hflat : leaves info d = bef ++ cur :: aft := hleads.at_.flat_eq
      have hlen : aft.length < fuel := by
        rw [hflat, List.length_append, List.length_cons] at hfuel
        omega
      obtain ⟨r', hr', hfill⟩ := fillLoop_spec hsb h hleads.at_ hlen
      refine ⟨r', hr', hfill.imp fun s hs => ?_⟩
      obtain ⟨seen, rest, rfl, hstops, hs⟩ := hs
      obtain ⟨hlt, hle, hnext⟩ : startHash < s.2 ∧ s.2 ≤ EOF ∧ (s.2 = EOF ∨ s.2 ∈ bounds (.indexed d)) := by
        rcases hstops with ⟨-, heq⟩ | ⟨y, rest', rfl, heq, -⟩
        · rw [heq]
          exact ⟨hstart, le_rfl, .inl rfl⟩
        · have hy : y ∈ leaves info d := by
            rw [hflat]
            simp
          rw [heq, bounds_eq h.root]
          exact ⟨hleads.lt y (by simp), (h.bound y hy).le, .inr (List.mem_map_of_mem hy)⟩
      refine ⟨⟨hlt, hle, _, _, hs, dots_isDot h.root, ?_⟩, hnext⟩
      have hrange := range_eq minor startMinor h hv hflat hleads.le hstops
      rw [List.map_flatMap]
      simp only [kept_bare]
      rw [← List.map_flatMap, hrange, hv, hversion]
  · rw [hr]
    exact ⟨_, rfl, .inr ⟨err, rfl, .inl ⟨q, hq⟩⟩⟩

theorem kept_append (b b' : DirBlock) : kept sb minor version startHash startMinor (b ++ b') =
    kept sb minor version startHash startMinor b ++ kept sb minor version startHash startMinor b' := by
  rw [kept, List.filter_append, List.map_append]
  rfl

theorem fillTree_linear {dir : Dir} {dot dotdot : DirEntry} {rest : DirBlock} (env : FillEnv) (hsb : Usual sb)
    (hd : dir.blocks = [dot :: dotdot :: rest]) (hf : IsFirst sb dot dotdot rest) (hstart : startHash < EOF) :
    ∃ r, ext4HtreeFillTree sb minor env fuel startHash startMinor (.linear dir) = some r ∧
      OrFail env r fun s => Range sb minor (liveRecs rest) startHash startMinor s ∧ s.2 = EOF := by
  have hblock : dir.block 0 = [dot, dotdot] ++ rest := by simp [Dir.block, hd]
  unfold ext4HtreeFillTree
  cases hread : env.dx.read 0 with
  | some err => exact ⟨_, rfl, .inr ⟨err, rfl, .inl ⟨0, hread⟩⟩⟩
  | none =>
    simp only
    rw [hblock, if_neg (by simp)]
    refine ⟨_, rfl, (storeRecords_spec hsb hf.leaf.sound (by rw [Nat.zero_add]; exact hf.leaf.tiles)).map fun l hl => ?_⟩
    refine ⟨⟨hstart, le_rfl, _, _, hl.trans (kept_append [dot, dotdot] rest), fun x hx => ?_, ?_⟩, rfl⟩
    · obtain ⟨de, hde, rfl⟩ := List.mem_map.mp hx
      have hde' := List.mem_of_mem_filter hde
      simp only [List.mem_cons, List.not_mem_nil, or_false] at hde'
      rcases hde' with rfl | rfl
      · simp [isDot, stored, hf.dotName]
      · simp [isDot, stored, hf.dotdotName]
    · rw [kept_bare]
      refine .of_eq (congrArg _ (List.filter_congr fun x _ => ?_))
      have hlt : sb.dirhash (sb.hinfoVersion sb.defHashVersion) x.name < EOF := by
        have := sb.dirhash_lt (sb.hinfoVersion sb.defHashVersion) x.name
        unfold EOF
        omega
      simp [hlt]

theorem Range.perm {l l' : List DirEntry} {s : List Stored × ℕ} (h : Range sb minor l startHash startMinor s)
    (hl : l.Perm l') : Range sb minor l' startHash startMinor s := by
  obtain ⟨h1, h2, ds, recs, h3, h4, hperm⟩ := h
  exact ⟨h1, h2, ds, recs, h3, h4, hperm.trans ((hl.filter _).map _)⟩

/-- **`ext4_htree_fill_tree`** from any hash and minor hash on: it ends, and stores each entry from there up to the next
hash once, with its hashes, and no other one. The next hash is the bound of a leaf or the end. -/
theorem fillTree_spec {l : List DirEntry} {hd : HDir} (minor : ℕ → Name → ℕ) (startMinor : ℕ) (env : FillEnv)
    (hm : Mounted sb) (h : Holds sb l hd) (hfuel : size hd ≤ fuel) (hstart : startHash < EOF) :
    ∃ r, ext4HtreeFillTree sb minor env fuel startHash startMinor hd = some r ∧
      OrFail env r fun s => Range sb minor l startHash startMinor s ∧ (s.2 = EOF ∨ s.2 ∈ bounds hd) := by
  cases hd with
  | linear d =>
    obtain ⟨dot, dotdot, rest, hd, hf, hl⟩ := h
    obtain ⟨r, hr, hfill⟩ := fillTree_linear env hm.usual hd hf hstart
    exact ⟨r, hr, hfill.imp fun s hs => ⟨hs.1.perm hl, .inl hs.2⟩⟩
  | indexed d =>
    obtain ⟨info, hvalid, hversion, hl⟩ := h
    obtain ⟨r, hr, hfill⟩ := fillTree_indexed env hm.usual hvalid hversion (hvalid.length_leaves_le.trans hfuel) hstart
    exact ⟨r, hr, hfill.imp fun s hs => ⟨hs.1.perm hl, hs.2⟩⟩

theorem length_bounds_le {l : List DirEntry} {hd : HDir} (h : Holds sb l hd) : (bounds hd).length ≤ size hd := by
  cases hd with
  | linear d => exact Nat.zero_le _
  | indexed d =>
    obtain ⟨info, hvalid, -⟩ := h
    rw [bounds_eq hvalid.root, List.length_map]
    exact hvalid.length_leaves_le

end LinuxEvfs.Htree.Readdir
