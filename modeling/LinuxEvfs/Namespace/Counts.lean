import LinuxEvfs.Namespace.Entries

/-! # What the directory functions do to the live records

The live records of a directory, counted with any weight (`tally w d`; `count i d` is the number of those
that name `i`), when the journal and the reads succeed:

* `ext4FindEntry_found`: the record found is live, and the search leaves the records alone.
* `doSplit_spec`: a leaf that is split drops live records without a name, and no others.
* `ext4DeleteEntry_takes`: a deletion takes away the record it is given. -/

namespace LinuxEvfs.Namespace.Counts

open LinuxEvfs.Errno LinuxEvfs.Namespace.Dir LinuxEvfs.Namespace.Entries

/-- The number of live records of a directory that name `i`. -/
def count (i : ℕ) (d : Dir) : ℕ := (d.blocks.map (liveCount i)).sum

/-- Every live record has a name. -/
def Named (b : DirBlock) : Prop := ∀ de ∈ b, de.inode ≠ 0 → de.name ≠ []

/-- What the records of a directory count for. -/
def tally (w : ℕ → Name → ℕ) (d : Dir) : ℕ := (d.blocks.map (total w)).sum

theorem count_eq_tally (i : ℕ) (d : Dir) : count i d = tally (naming i) d := by
  unfold count tally
  rw [funext (liveCount_eq_total i)]

theorem tally_congr {d d' : Dir} (h : d'.blocks = d.blocks) (w : ℕ → Name → ℕ) :
    tally w d' = tally w d := by
  simp only [tally, h]

/-- The records without a name count for nothing. -/
def Heeds (w : ℕ → Name → ℕ) (b : DirBlock) : Prop := ∀ de ∈ b, de.name = [] → weigh w de = 0

theorem Named.heeds {b : DirBlock} (h : Named b) (w : ℕ → Name → ℕ) : Heeds w b := by
  intro de hde hname
  by_cases h0 : de.inode = 0
  · exact weigh_dead h0
  · exact absurd hname (h de hde h0)

theorem named_of_heeds {b : DirBlock} (h : Heeds (fun _ _ => 1) b) : Named b := by
  intro de hde h0 hname
  have := h de hde hname
  rw [weigh_live h0] at this
  exact Nat.one_ne_zero this

variable {sb : Sb} {env : Env} {e : DirEntry} {d : Dir} {i : ℕ} {w : ℕ → Name → ℕ}

/-! ### Blocks of a directory -/

theorem sum_set (f : DirBlock → ℕ) (x : DirBlock) :
    ∀ (bs : List DirBlock) (b : ℕ), b < bs.length →
      ((bs.set b x).map f).sum + f ((bs[b]?).getD []) = (bs.map f).sum + f x
  | [], _, h => absurd h (Nat.not_lt_zero _)
  | y :: bs, 0, _ => by
    simp only [List.set_cons_zero, List.map_cons, List.sum_cons, List.getElem?_cons_zero,
      Option.getD_some]
    omega
  | y :: bs, b + 1, h => by
    have ih := sum_set f x bs b (Nat.lt_of_succ_lt_succ h)
    simp only [List.set_cons_succ, List.map_cons, List.sum_cons, List.getElem?_cons_succ]
    omega

theorem lt_length_of_block {b : ℕ} (h : d.block b ≠ []) : b < d.blocks.length := by
  by_contra hge
  exact h (by rw [Dir.block, List.getElem?_eq_none (not_lt.mp hge)]; rfl)

theorem tally_setBlock {b : ℕ} (h : b < d.blocks.length) (x : DirBlock) :
    tally w (d.setBlock b x) + total w (d.block b) = tally w d + total w x :=
  sum_set (total w) x d.blocks b h

theorem setBlock_self {b : ℕ} (h : d.block b ≠ []) : d.setBlock b (d.block b) = d := by
  have hlt := lt_length_of_block h
  simp [Dir.setBlock, Dir.block, List.getElem?_eq_getElem hlt]

theorem total_le_tally (b : ℕ) : total w (d.block b) ≤ tally w d := by
  by_cases h : d.block b = []
  · rw [h]
    exact Nat.zero_le _
  · have hlt := lt_length_of_block h
    have hmem : d.block b ∈ d.blocks := by
      rw [Dir.block, List.getElem?_eq_getElem hlt]
      exact List.getElem_mem hlt
    exact List.single_le_sum (by simp) _ (List.mem_map_of_mem hmem)

theorem heeds_block {b : ℕ} (h : ∀ x ∈ d.blocks, Heeds w x) : Heeds w (d.block b) := by
  by_cases hb : d.block b = []
  · rw [hb]
    exact fun de hde => absurd hde List.not_mem_nil
  · have hlt := lt_length_of_block hb
    rw [Dir.block, List.getElem?_eq_getElem hlt]
    exact h _ (List.getElem_mem hlt)

theorem liveCount_le_count (b : ℕ) : liveCount i (d.block b) ≤ count i d := by
  rw [liveCount_eq_total, count_eq_tally]
  exact total_le_tally b

/-! ### Searching -/

theorem searchBlocks_found {name : Name} {b k : ℕ} :
    ∀ {bs : List ℕ}, searchBlocks sb name d bs = .found b k →
      ∃ de, (d.block b)[k]? = some de ∧ ext4Match name de = true
  | [], h => by simp [searchBlocks] at h
  | b' :: bs, h => by
    simp only [searchBlocks] at h
    cases hs : ext4SearchDir sb name 0 (d.block b') with
    | found k' =>
      rw [hs] at h
      obtain ⟨rfl, rfl⟩ := Lookup.found.inj h
      exact ext4SearchDir_found sb hs
    | bad => rw [hs] at h; cases h
    | none => rw [hs] at h; exact searchBlocks_found h

/-- What a search says about the record it finds. -/
def Finds (name : Name) (d : Dir) (r : Option (ℕ × ℕ) × Dir) : Prop :=
  r.2.blocks = d.blocks ∧ r.2.index = d.index ∧
    ∀ b k, r.1 = some (b, k) → ∃ de, (d.block b)[k]? = some de ∧ ext4Match name de = true

theorem finds_none (name : Name) (d : Dir) : Finds name d (none, d) :=
  ⟨rfl, rfl, fun _ _ h => by cases h⟩

theorem finds_of_found {name : Name} {b k : ℕ} {bs : List ℕ} {d' : Dir}
    (h : searchBlocks sb name d bs = .found b k) (hb : d'.blocks = d.blocks)
    (hi : d'.index = d.index) : Finds name d (some (b, k), d') := by
  refine ⟨hb, hi, fun b' k' hr => ?_⟩
  obtain ⟨rfl, rfl⟩ := Prod.mk.inj (Option.some.inj hr)
  exact searchBlocks_found h

theorem linearFind_found (name : Name) (d : Dir) : Finds name d (linearFind sb name d) := by
  unfold linearFind
  dsimp only
  split
  · next b k h => exact finds_of_found h rfl rfl
  · exact finds_none name d

/-- **The search.** The record found is live and has the name; no record is changed. -/
theorem ext4FindEntry_found (sb : Sb) (name : Name) (d : Dir) : Finds name d (ext4FindEntry sb name d) := by
  unfold ext4FindEntry
  split_ifs
  · exact finds_none name d
  · split
    · exact linearFind_found name d
    · split
      · next h => exact finds_of_found h rfl rfl
      · exact finds_none name d
      · exact linearFind_found name d
  · exact linearFind_found name d

/-! ### Splitting a leaf -/

theorem total_pack : ∀ (size : ℕ) (l : List DirEntry), total w (pack size l) = total w l
  | size, [] => by simp [pack, wiped, weigh]
  | size, [e] => by simp [pack, weigh]
  | size, e :: e' :: rest => by
    rw [pack, total_cons, total_pack, total_cons (b := e' :: rest)]
    · simp [weigh]
    · simp

theorem pack_ne_nil : ∀ (size : ℕ) (l : List DirEntry), pack size l ≠ []
  | _, [] => by simp [pack]
  | _, [_] => by simp [pack]
  | _, _ :: _ :: _ => by simp [pack]

theorem total_stretch (size : ℕ) :
    ∀ (offset : ℕ) (l : DirBlock), total w (stretch size offset l) = total w l
  | _, [] => by simp [stretch, wiped, weigh]
  | _, [e] => by simp [stretch, weigh]
  | offset, e :: e' :: rest => by
    rw [stretch, total_cons, total_stretch size _ (e' :: rest), total_cons (b := e' :: rest)]
    simp

theorem stretch_ne_nil (size : ℕ) : ∀ (offset : ℕ) (l : DirBlock), stretch size offset l ≠ []
  | _, [] => by simp [stretch]
  | _, [_] => by simp [stretch]
  | _, _ :: _ :: _ => by simp [stretch]

theorem heeds_stretch (size : ℕ) :
    ∀ {offset : ℕ} {l : DirBlock}, Heeds w l → Heeds w (stretch size offset l)
  | _, [], _ => by simp [stretch, wiped, Heeds, weigh]
  | _, [e], h => by simpa [stretch, Heeds, weigh] using h
  | offset, e :: e' :: rest, h => by
    have h' : Heeds w (e' :: rest) := fun de hde => h de (List.mem_cons_of_mem _ hde)
    intro de hde
    rcases List.mem_cons.mp hde with rfl | hde
    · exact h _ List.mem_cons_self
    · exact heeds_stretch size h' de hde

theorem total_mapped_le : ∀ b : DirBlock, total w (mapped b) ≤ total w b
  | [] => Nat.le_refl _
  | de :: rest => by
    have ih := total_mapped_le rest
    unfold mapped at ih ⊢
    rw [List.filter_cons]
    split_ifs <;> simp only [total_cons] <;> omega

theorem total_mapped : ∀ {b : DirBlock}, Heeds w b → total w (mapped b) = total w b
  | [], _ => rfl
  | de :: rest, h => by
    have ih : total w (mapped rest) = total w rest :=
      total_mapped fun x hx => h x (List.mem_cons_of_mem _ hx)
    unfold mapped at ih ⊢
    rw [List.filter_cons]
    split_ifs with hde
    · rw [total_cons, total_cons, ih]
    · have h0 : weigh w de = 0 := by
        by_cases hlive : de.inode = 0
        · exact weigh_dead hlive
        · refine h de List.mem_cons_self ?_
          by_contra hname
          exact hde (by simp [hlive, hname])
      rw [total_cons, h0, ih, Nat.zero_add]

theorem sortMap_perm (sb : Sb) (b : DirBlock) : ((sortMap sb b).map Prod.fst).Perm (mapped b) := by
  have h := (List.mergeSort_perm (mapped b).zipIdx
    fun p q => decide (sb.hash p.1.name ≤ sb.hash q.1.name)).map Prod.fst
  rwa [List.zipIdx_map_fst] at h

/-- The two halves hold the records that were mapped. -/
theorem total_splitLeaf (sb : Sb) (b : DirBlock) :
    total w (splitLeaf sb b).1 + total w (splitLeaf sb b).2 = total w (mapped b) := by
  unfold splitLeaf
  dsimp only
  rw [total_pack, total_pack, total_perm ((List.mergeSort_perm _ _).map Prod.fst),
    ← total_append, ← List.map_append, List.take_append_drop, total_perm (sortMap_perm sb b)]

theorem tally_splitDir (sb : Sb) {b : ℕ} (hb : b < d.blocks.length) (w : ℕ → Name → ℕ) :
    tally w (splitDir sb d b) + total w (d.block b)
      = tally w d + total w (mapped (d.block b)) := by
  have hset := tally_setBlock (w := w) hb (splitLeaf sb (d.block b)).1
  have hhalves := total_splitLeaf (w := w) sb (d.block b)
  simp only [tally, splitDir, Dir.setBlock, List.map_append, List.sum_append, List.map_cons,
    List.map_nil, List.sum_cons, List.sum_nil] at hset ⊢
  omega

theorem tally_splitDir_le (sb : Sb) {b : ℕ} (hb : b < d.blocks.length) (w : ℕ → Name → ℕ) :
    tally w (splitDir sb d b) ≤ tally w d := by
  have := tally_splitDir sb hb w
  have := total_mapped_le (w := w) (d.block b)
  omega

/-- Both halves have a record. -/
theorem splitDir_block_ne {b : ℕ} (hb : b < d.blocks.length) :
    (splitDir sb d b).block b ≠ [] ∧ (splitDir sb d b).block d.blocks.length ≠ [] := by
  constructor
  · simp only [splitDir, Dir.block]
    rw [List.getElem?_append_left (by simpa using hb), List.getElem?_set_self hb]
    exact pack_ne_nil _ _
  · simp only [splitDir, Dir.block]
    rw [List.getElem?_append_right (by simp), List.length_set, Nat.sub_self]
    exact pack_ne_nil _ _

/-- What a split keeps. -/
structure SplitSpec (d : Dir) (r : Dir × Except Errno ℕ) : Prop where
  le : ∀ w, tally w r.1 ≤ tally w d
  ne_nil : ∀ b, r.2 = .ok b → r.1.block b ≠ []
  eq : ∀ b, r.2 = .ok b → ∀ w, (∀ x ∈ d.blocks, Heeds w x) → tally w r.1 = tally w d
  kept : ∀ err, r.2 = .error err → err ≠ EFSCORRUPTED → r.1 = d

theorem doSplit_spec (sb : Sb) (hq : Quiet env) (name : Name) {b : ℕ} (hb : d.block b ≠ []) :
    SplitSpec d (doSplit sb env name d b) := by
  have hlt := lt_length_of_block hb
  unfold doSplit
  rw [hq .splitAccess rfl, hq .splitDirty rfl]
  dsimp only
  split
  · exact ⟨fun _ => Nat.le_refl _, nofun, nofun, fun _ _ _ => rfl⟩
  by_cases hbad : anyBad sb sb.bufSize 0 (d.block b) = true
  · rw [if_pos hbad]
    refine ⟨fun w => ?_, nofun, nofun, fun _ herr hne => absurd (Except.error.inj herr).symm hne⟩
    simp [tally]
  · rw [if_neg hbad]
    refine ⟨tally_splitDir_le sb hlt, fun b' hb' => ?_, fun b' _ w hn => ?_, nofun⟩
    · obtain rfl := Except.ok.inj hb'
      split_ifs
      · exact (splitDir_block_ne hlt).2
      · exact (splitDir_block_ne hlt).1
    · have := tally_splitDir sb hlt w
      rw [total_mapped (heeds_block hn)] at this
      dsimp only
      omega

/-! ### Deletion -/

/-- A record deleted from a block of the directory. -/
theorem tally_delete (sb : Sb) {b k : ℕ} {x : DirBlock}
    (hx : ext4GenericDeleteEntry sb k (d.block b) = .ok x) :
    ∃ de, (d.block b)[k]? = some de ∧ ∀ w, tally w d = tally w (d.setBlock b x) + weigh w de := by
  obtain ⟨de, hde, hcount⟩ := total_delete sb hx
  have hlt : b < d.blocks.length := lt_length_of_block fun hnil => by simp [hnil] at hde
  refine ⟨de, hde, fun w => ?_⟩
  have := tally_setBlock (w := w) hlt x
  have := hcount w
  omega

/-- **Deletion.** It takes away the record it is given, or fails and changes nothing; the error of the
journal comes after the record has gone. -/
theorem ext4DeleteEntry_takes (sb : Sb) (env : Env) (d : Dir) (b k : ℕ) :
    (∃ err, ext4DeleteEntry sb env b k d = (d, some err)) ∨
      ∃ x, ext4GenericDeleteEntry sb k (d.block b) = .ok x ∧
        ext4DeleteEntry sb env b k d = (d.setBlock b x, env .deleteDirty) := by
  unfold ext4DeleteEntry
  split
  · next err _ => exact .inl ⟨err, rfl⟩
  split
  · next err _ => exact .inl ⟨err, rfl⟩
  · next x hx => exact .inr ⟨x, hx, rfl⟩

theorem ext4DeleteEntry_cases (sb : Sb) (hq : Quiet env) (d : Dir) (b k : ℕ) :
    (∃ err, ext4DeleteEntry sb env b k d = (d, some err)) ∨
      ((ext4DeleteEntry sb env b k d).2 = none ∧ ∃ de, (d.block b)[k]? = some de ∧
        ∀ i, count i d = count i (ext4DeleteEntry sb env b k d).1 + names i de) := by
  rcases ext4DeleteEntry_takes sb env d b k with h | ⟨x, hx, h⟩
  · exact .inl h
  · obtain ⟨de, hde, htally⟩ := tally_delete sb hx
    rw [h]
    refine .inr ⟨hq .deleteDirty rfl, de, hde, fun i => ?_⟩
    simpa only [count_eq_tally, names_eq_weigh] using htally (naming i)

/-! ### Rewriting a record -/

/-- A record given another number counts for that. -/
theorem tally_retarget {k : ℕ} {de : DirEntry} (hde : (d.block 0)[k]? = some de) (new : ℕ)
    (w : ℕ → Name → ℕ) :
    tally w (d.setBlock 0 (retarget new k (d.block 0))) + weigh w de
      = tally w d + weigh w { de with inode := new % 2 ^ 32 } := by
  have hlt : 0 < d.blocks.length := lt_length_of_block fun hnil => by simp [hnil] at hde
  have hset := tally_setBlock (w := w) hlt (retarget new k (d.block 0))
  have hmod := total_modify (w := w)
    (f := fun de => { de with inode := new % 2 ^ 32 }) hde
  unfold retarget at hset ⊢
  omega

theorem count_retarget {k : ℕ} {de : DirEntry} (hde : (d.block 0)[k]? = some de) (new i : ℕ) :
    count i (d.setBlock 0 (retarget new k (d.block 0))) + names i de
      = count i d + names i { de with inode := new % 2 ^ 32 } := by
  simpa only [count_eq_tally, names_eq_weigh] using tally_retarget hde new (naming i)

end LinuxEvfs.Namespace.Counts
