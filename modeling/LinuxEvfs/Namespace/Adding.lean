import LinuxEvfs.Namespace.Counts

/-! # What an insertion does to the live records

When the journal and the reads succeed, an insertion that succeeds adds one record, and one that fails adds none
(`ext4AddEntry_adds`). A leaf that is split drops live records without a name, and a failing `make_indexed_dir` may
drop records, so in general only an upper bound holds (`Adds`). `ext4AddEntry_spec` says this of `count`. -/

namespace LinuxEvfs.Namespace.Counts

open LinuxEvfs.Errno LinuxEvfs.Namespace.Dir LinuxEvfs.Namespace.Entries

variable {sb : Sb} {env : Env} {e : DirEntry} {d : Dir} {i : ℕ} {w : ℕ → Name → ℕ}

/-- An insertion at a record given adds the new record. -/
theorem addDirentToBuf_at (sb : Sb) (hq : Quiet env) (e : DirEntry) {k : ℕ} {b : DirBlock}
    (hk : k < b.length) :
    (addDirentToBuf sb env e (some k) b).2 = none ∧
      ∀ w, total w (addDirentToBuf sb env e (some k) b).1 = total w b + weigh w e := by
  unfold addDirentToBuf
  simp only [Option.elim_some, hq .dirAccess rfl, hq .dirDirty rfl, hq .dirInodeDirty rfl]
  exact ⟨rfl, fun w => total_insertAt e k b hk⟩

/-- Without a record given, it may also fail, and changes nothing then. -/
theorem addDirentToBuf_cases (sb : Sb) (hq : Quiet env) (e : DirEntry) (b : DirBlock) :
    (∃ err, addDirentToBuf sb env e none b = (b, some err)) ∨
      ((addDirentToBuf sb env e none b).2 = none ∧
        ∀ w, total w (addDirentToBuf sb env e none b).1 = total w b + weigh w e) := by
  cases hf : ext4FindDestDe sb e.name 0 b with
  | error err => exact .inl ⟨err, by simp [addDirentToBuf, hf]⟩
  | ok k =>
    have h : addDirentToBuf sb env e none b = addDirentToBuf sb env e (some k) b := by
      simp [addDirentToBuf, hf]
    rw [h]
    exact .inr (addDirentToBuf_at sb hq e (ext4FindDestDe_lt sb hf))

/-- A new block gets the record. -/
theorem addToNewBlock_spec (sb : Sb) (hq : Quiet env) (e : DirEntry) :
    (addToNewBlock sb env e).2 = none ∧
      ∀ w, total w (addToNewBlock sb env e).1 = weigh w e := by
  have hlt : 0 < [wiped sb.bufSize].length := Nat.one_pos
  obtain ⟨hnone, hcount⟩ := addDirentToBuf_at sb hq e hlt
  refine ⟨hnone, fun w => (hcount w).trans ?_⟩
  simp [wiped, weigh]

/-- What an insertion of `e` does to a directory. -/
structure Adds (e : DirEntry) (d : Dir) (r : Dir × Option Errno) : Prop where
  le : ∀ w, tally w r.1 ≤ tally w d + if r.2 = none then weigh w e else 0
  eq : r.2 = none → ∀ w, (∀ x ∈ d.blocks, Heeds w x) → tally w r.1 = tally w d + weigh w e
  kept : ∀ err, r.2 = some err → err ≠ EFSCORRUPTED → ∀ w, tally w r.1 = tally w d ∧
    ((∀ x ∈ d.blocks, Heeds w x) → ∀ x ∈ r.1.blocks, Heeds w x)

theorem Adds.failed {d' : Dir} (err : Errno) (h : d'.blocks = d.blocks) :
    Adds e d (d', some err) := by
  have htally : ∀ w, tally w d' = tally w d := tally_congr h
  exact ⟨fun w => (htally w).le, nofun, fun _ _ _ w => ⟨htally w, by rw [h]; exact id⟩⟩

theorem Adds.corrupted {d' : Dir} (h : ∀ w, tally w d' ≤ tally w d) :
    Adds e d (d', some EFSCORRUPTED) :=
  ⟨h, nofun, fun _ herr hne => absurd (Option.some.inj herr).symm hne⟩

theorem Adds.added {d' : Dir} (h : ∀ w, tally w d' = tally w d + weigh w e) :
    Adds e d (d', none) :=
  ⟨fun w => by simpa using (h w).le, fun _ w _ => h w, nofun⟩

theorem Adds.of_same {d' : Dir} {r : Dir × Option Errno} (h : Adds e d' r)
    (hsame : ∀ w, tally w d' = tally w d ∧
      ((∀ x ∈ d.blocks, Heeds w x) → ∀ x ∈ d'.blocks, Heeds w x)) : Adds e d r := by
  refine ⟨fun w => ?_, fun hr w hd => ?_, fun err herr hne w => ?_⟩
  · rw [← (hsame w).1]
    exact h.le w
  · rw [← (hsame w).1]
    exact h.eq hr w ((hsame w).2 hd)
  · obtain ⟨hc, hk⟩ := h.kept err herr hne w
    exact ⟨hc.trans (hsame w).1, fun hd => hk ((hsame w).2 hd)⟩

theorem splitAndAdd_adds (hq : Quiet env) {b : ℕ} (hb : d.block b ≠ []) :
    Adds e d (splitAndAdd sb env e d b) := by
  have hs := doSplit_spec sb hq e.name hb
  unfold splitAndAdd
  split
  · next d' err h =>
    rw [h] at hs
    by_cases herr : err = EFSCORRUPTED
    · rw [herr]
      exact .corrupted hs.le
    · obtain rfl := hs.kept err rfl herr
      exact .failed err rfl
  · next d' b' h =>
    rw [h] at hs
    have hne : d'.block b' ≠ [] := hs.ne_nil b' rfl
    have hlt : (d'.block b').length - 1 < (d'.block b').length :=
      Nat.sub_lt (List.length_pos_iff.mpr hne) Nat.one_pos
    obtain ⟨hnone, hadd⟩ := addDirentToBuf_at sb hq e hlt
    have hc : ∀ w, tally w (d'.setBlock b'
        (addDirentToBuf sb env e (some ((d'.block b').length - 1)) (d'.block b')).1)
        = tally w d' + weigh w e := by
      intro w
      have := tally_setBlock (w := w) (lt_length_of_block hne)
        (addDirentToBuf sb env e (some ((d'.block b').length - 1)) (d'.block b')).1
      have := hadd w
      omega
    dsimp only
    rw [hnone]
    refine ⟨fun w => ?_, fun _ w hn => ?_, nofun⟩
    · have := hs.le w
      dsimp only at this ⊢
      rw [if_pos rfl, hc w]
      omega
    · have := hs.eq b' rfl w hn
      dsimp only at this ⊢
      rw [hc w, this]

theorem tally_one {b : DirBlock} (h : d.blocks = [b]) : tally w d = total w b := by
  simp [tally, h]

theorem total_take_le (n : ℕ) (b : DirBlock) : total w (b.take n) ≤ total w b := by
  have h : total w (b.take n ++ b.drop n) = total w b := by rw [List.take_append_drop]
  rw [total_append] at h
  omega

theorem lostRoot_adds {b : DirBlock} (h : d.blocks = [b]) : Adds e d (lostRoot env d) := by
  have hblock : d.block 0 = b := by rw [Dir.block, h]; rfl
  unfold lostRoot
  split
  · exact .failed _ rfl
  · refine .corrupted fun w => ?_
    have := total_take_le (w := w) 1 b
    rw [tally_one h]
    simpa [tally, hblock, wiped, weigh] using this

theorem makeIndexedDir_adds (hq : Quiet env) {b : DirBlock} (h : d.blocks = [b]) :
    Adds e d (makeIndexedDir sb env e d) := by
  have hblock : d.block 0 = b := by rw [Dir.block, h]; rfl
  unfold makeIndexedDir
  rw [hq .rootAccess rfl, hq .rootDirty rfl, hblock]
  dsimp only
  split
  · next dot dotdot rest =>
    by_cases hdot : dot.recLen ≠ 12
    · rw [if_pos hdot]
      exact lostRoot_adds h
    rw [if_neg hdot]
    by_cases hlen : sb.blocksize ≤ 12 + dotdot.recLen
    · rw [if_pos hlen]
      exact .failed _ rfl
    rw [if_neg hlen]
    split
    · exact .failed _ rfl
    by_cases hbad : anyBad sb (sb.bufSize - (12 + dotdot.recLen)) 0 rest.dropLast = true
    · rw [if_pos hbad]
      refine .corrupted fun w => ?_
      rw [tally_one h]
      simp [tally, Nat.add_assoc]
    · rw [if_neg hbad]
      -- the two blocks hold the records of the one
      refine Adds.of_same (splitAndAdd_adds hq ?_) fun w => ⟨?_, fun hn x hx => ?_⟩
      · exact stretch_ne_nil _ _ _
      · rw [tally_one h]
        simp [tally, total_stretch, weigh, Nat.add_assoc]
      · have hb : Heeds w (dot :: dotdot :: rest) := hn _ (by rw [h]; exact List.mem_singleton_self _)
        rcases List.mem_cons.mp hx with rfl | hx
        · simp only [Heeds, List.forall_mem_cons] at hb ⊢
          exact ⟨hb.1, hb.2.1, fun _ hde => absurd hde List.not_mem_nil⟩
        · obtain rfl := List.mem_singleton.mp hx
          exact heeds_stretch _ fun de hde => hb de (by simp [hde])
  · exact lostRoot_adds h

theorem addToBlock_cases (sb : Sb) (hq : Quiet env) (e : DirEntry) (b : DirBlock) :
    (∃ err, addToBlock sb env e b = (b, some err)) ∨
      ((addToBlock sb env e b).2 = none ∧
        ∀ w, total w (addToBlock sb env e b).1 = total w b + weigh w e) := by
  unfold addToBlock
  by_cases hnil : b = []
  · rw [if_pos hnil]
    obtain ⟨hnone, hcount⟩ := addToNewBlock_spec sb hq e
    exact .inr ⟨hnone, fun w => by rw [hcount w, hnil, total_nil, Nat.zero_add]⟩
  · rw [if_neg hnil]
    exact addDirentToBuf_cases sb hq e b

/-- The loop over the blocks adds the record or fails and changes nothing. -/
theorem addToBlocks_cases (sb : Sb) (hq : Quiet env) (e : DirEntry) :
    ∀ bs : List DirBlock,
      (∃ err, addToBlocks sb env e bs = (bs, some err)) ∨
      ((addToBlocks sb env e bs).2 = none ∧ ∀ w,
        ((addToBlocks sb env e bs).1.map (total w)).sum = (bs.map (total w)).sum + weigh w e)
  | [] => .inl ⟨ENOSPC, rfl⟩
  | b :: bs => by
    have hb := addToBlock_cases sb hq e b
    unfold addToBlocks
    dsimp only
    generalize addToBlock sb env e b = r at hb ⊢
    rcases hb with ⟨err, rfl⟩ | ⟨hnone, hcount⟩
    · by_cases hsp : some err = some ENOSPC
      · rw [if_pos hsp]
        rcases addToBlocks_cases sb hq e bs with ⟨err', h'⟩ | ⟨hnone', hcount'⟩
        · exact .inl ⟨err', by rw [h']⟩
        · refine .inr ⟨hnone', fun w => ?_⟩
          have := hcount' w
          simp only [List.map_cons, List.sum_cons]
          omega
      · rw [if_neg hsp]
        exact .inl ⟨err, rfl⟩
    · rw [if_neg (by rw [hnone]; simp)]
      refine .inr ⟨hnone, fun w => ?_⟩
      have := hcount w
      simp only [List.map_cons, List.sum_cons]
      omega

theorem linearAdd_adds (hq : Quiet env) (dxFallback : Bool) :
    Adds e d (linearAdd sb env dxFallback e d) := by
  unfold linearAdd
  rw [hq .readDirblock rfl]
  dsimp only
  rcases addToBlocks_cases sb hq e d.blocks with ⟨err, h⟩ | ⟨hnone, hcount⟩
  · rw [h]
    dsimp only
    by_cases hsp : some err ≠ some ENOSPC
    · rw [if_pos hsp]
      exact .failed _ rfl
    rw [if_neg hsp]
    by_cases hone : d.blocks.length = 1 ∧ dxFallback = false ∧ sb.dirIndex = true
    · rw [if_pos hone]
      obtain ⟨b, hb⟩ := List.length_eq_one_iff.mp hone.1
      exact makeIndexedDir_adds hq hb
    rw [if_neg hone]
    split
    · exact .failed _ rfl
    · obtain ⟨hnone, hcount⟩ := addToNewBlock_spec sb hq e
      rw [hnone]
      refine .added fun w => ?_
      simp [tally, hcount w]
  · rw [hnone, if_pos (by simp)]
    exact .added hcount

theorem ext4DxAddEntry_adds (hq : Quiet env) {r : Dir × Option Errno}
    (hr : ext4DxAddEntry sb env e d = some r) : Adds e d r := by
  unfold ext4DxAddEntry at hr
  rw [hq .readDirblock rfl, hq .leafAccess rfl] at hr
  split at hr
  · cases hr
  · next bs _ =>
    dsimp only [HOrElse.hOrElse, OrElse.orElse, Option.orElse] at hr
    generalize bs.headD 0 = b at hr
    by_cases hnil : d.block b = []
    · rw [if_pos hnil] at hr
      obtain rfl := Option.some.inj hr
      exact .failed _ rfl
    rw [if_neg hnil] at hr
    rcases addDirentToBuf_cases sb hq e (d.block b) with ⟨err, h⟩ | ⟨hnone, hcount⟩
    · rw [h, setBlock_self hnil] at hr
      dsimp only at hr
      by_cases hsp : some err ≠ some ENOSPC
      · rw [if_pos hsp] at hr
        obtain rfl := Option.some.inj hr
        exact .failed _ rfl
      rw [if_neg hsp] at hr
      split at hr
      · obtain rfl := Option.some.inj hr
        exact .failed _ rfl
      · obtain rfl := Option.some.inj hr
        exact splitAndAdd_adds hq hnil
    · rw [hnone, if_pos (by simp)] at hr
      obtain rfl := Option.some.inj hr
      refine .added fun w => ?_
      have := tally_setBlock (w := w) (lt_length_of_block hnil)
        (addDirentToBuf sb env e none (d.block b)).1
      have := hcount w
      omega

/-- **Insertion.** -/
theorem ext4AddEntry_adds (sb : Sb) (hq : Quiet env) (e : DirEntry) (d : Dir) :
    Adds e d (ext4AddEntry sb env e d) := by
  unfold ext4AddEntry
  rw [hq .markIndexDirty rfl]
  split_ifs
  · exact .failed _ rfl
  · split
    · next r hr => exact ext4DxAddEntry_adds hq hr
    · exact .failed _ rfl
  · split
    · next r hr => exact ext4DxAddEntry_adds hq hr
    · exact (linearAdd_adds hq true).of_same fun _ => ⟨rfl, id⟩
  · exact linearAdd_adds hq false

/-- What an insertion of `e` does to the number of records that name an inode. -/
structure AddSpec (e : DirEntry) (d : Dir) (r : Dir × Option Errno) : Prop where
  le : ∀ i, count i r.1 ≤ count i d + if r.2 = none then names i e else 0
  eq : r.2 = none → (∀ x ∈ d.blocks, Named x) → ∀ i, count i r.1 = count i d + names i e
  kept : ∀ err, r.2 = some err → err ≠ EFSCORRUPTED →
    (∀ i, count i r.1 = count i d) ∧ ((∀ x ∈ d.blocks, Named x) → ∀ x ∈ r.1.blocks, Named x)

theorem ext4AddEntry_spec (sb : Sb) (hq : Quiet env) (e : DirEntry) (d : Dir) :
    AddSpec e d (ext4AddEntry sb env e d) := by
  have h := ext4AddEntry_adds sb hq e d
  refine ⟨fun i => ?_, fun hr hn i => ?_, fun err herr hne => ⟨fun i => ?_, fun hn x hx => ?_⟩⟩
  · simpa only [count_eq_tally, names_eq_weigh] using h.le (naming i)
  · simpa only [count_eq_tally, names_eq_weigh] using
      h.eq hr (naming i) fun x hx => (hn x hx).heeds _
  · simpa only [count_eq_tally] using (h.kept err herr hne (naming i)).1
  · exact named_of_heeds ((h.kept err herr hne _).2 (fun x hx => (hn x hx).heeds _) x hx)

end LinuxEvfs.Namespace.Counts
