import LinuxEvfs.Errno
import LinuxEvfs.ExtTree.Tree
import LinuxEvfs.Lib.IndexSplit

/-! # Splitting an extent

`ext4_force_split_extent_at` cuts the extent of a path in two: the extent is shortened in place and
the rest inserted as a new extent of the same state. What the journal and the allocator answer is
given by a `SplitOut`, one constructor per call that can fail.

* `ext4SplitExtentAt` is `none` where `BUG_ON` stops the kernel: a split point outside the extent.
* `forceSplit_ok`: a split at an inner point succeeds with the two halves in the extent's place.
* `forceSplit_fail`: a split that fails leaves the map as it was if its answer is `Clean`. After an
  insertion that failed with an error other than `ENOSPC`, `EDQUOT` and `ENOMEM` the length of the
  extent is not restored, and its second half is lost (`SplitOut.Loses`). -/

namespace LinuxEvfs.ExtTree.Split

open LinuxEvfs.Errno LinuxEvfs.Lib.Word LinuxEvfs.Lib.IndexTree LinuxEvfs.Lib.IndexInsert
open LinuxEvfs.ExtTree.Basic LinuxEvfs.ExtTree.Cells LinuxEvfs.ExtTree.Tree

/-- What the calls of one split answer. -/
inductive SplitOut where
  | ok
  /-- `ext4_ext_get_access` fails. -/
  | accessErr (e : Errno)
  /-- `ext4_ext_dirty` of the shortened extent fails. -/
  | dirtyErr (e : Errno)
  /-- `ext4_ext_insert_extent` fails, before or after it put the new extent into its leaf. -/
  | insertErr (e : Errno) (inserted : Bool)
deriving DecidableEq, Repr

/-- The errors after which the length of the extent is restored. -/
def restores (e : Errno) : Bool := e = ENOSPC ∨ e = EDQUOT ∨ e = ENOMEM

/-- The answer of a split that succeeds or leaves the map unchanged: the length is restored or the
second half inserted, and not both. -/
def SplitOut.Clean : SplitOut → Prop
  | .insertErr e inserted => restores e ≠ inserted
  | _ => True

/-- The answer of a split that leaves only the first half of the extent. -/
def SplitOut.Loses : SplitOut → Prop
  | .insertErr e inserted => restores e = false ∧ inserted = false
  | _ => False

/-- Insertion of `newext` at the path of the extent before it, without merging (`PRE_IO`). -/
def ext4ExtInsertExtent (blocksize : ℕ) (newext : Extent) (t : ExtRoot) (path : Path t.1) : ExtRoot :=
  insert Extent.eeBlock newext (ext4ExtSpaceBlock blocksize) t.1 t.2 path

/-- The second half of `ex`. -/
def splitTail (ex : Extent) (split : ℕ) (unwritten : Bool) : Extent :=
  ext4ExtStorePblock
    (setLen { eeBlock := split, eeLen := 0, eeStart := 0 }
      (ext4ExtGetActualLen ex - (split - ex.eeBlock)) unwritten)
    (add64 (split - ex.eeBlock) (ext4ExtPblock ex))

/-- The flags of a forced split keep the state of the extent in both halves. `none`: a `BUG_ON`. -/
def ext4SplitExtentAt (blocksize : ℕ) (out : SplitOut) (t : ExtRoot) (path : Path t.1) (split : ℕ)
    (unwritten : Bool) : Option (ExtRoot × Option Errno) :=
  match pExt t path with
  | none => none
  | some ex =>
    if split < ex.eeBlock ∨ add32 ex.eeBlock (ext4ExtGetActualLen ex) ≤ split then none
    else
      let short := updExt (setLen · (split - ex.eeBlock) unwritten) t path
      let newex := splitTail ex split unwritten
      match out with
      | .accessErr e => some (t, some e)
      | out =>
        if split = ex.eeBlock then
          let err := match out with
            | .dirtyErr e => some e
            | _ => none
          some (updExt (setLen · (ext4ExtGetActualLen ex) unwritten) t path, err)
        else
          match out with
          | .dirtyErr e => some (t, some e)
          | .insertErr e inserted =>
            -- after one of these errors `fix_extent_len` writes the old length back
            let t' := if restores e then t else short
            some (if inserted then
              if restores e then ext4ExtInsertExtent blocksize newex t path
              else ext4ExtInsertExtent blocksize newex short path
              else t', some e)
          | _ => some (ext4ExtInsertExtent blocksize newex short path, none)

def ext4ForceSplitExtentAt (blocksize : ℕ) (out : SplitOut) (t : ExtRoot) (path : Path t.1)
    (lblk : ℕ) : Option (ExtRoot × Option Errno) :=
  match pExt t path with
  | none => none
  | some ex => ext4SplitExtentAt blocksize out t path lblk (ext4ExtIsUnwritten ex)

/-! ### The two halves -/

/-- Cutting a legal extent at an inner point. -/
theorem split_halves {e : Extent} (he : Legal e) {x : ℕ} (h1 : e.eeBlock < x) (h2 : x < e.last) :
    Halves (setLen e (x - e.eeBlock) (ext4ExtIsUnwritten e))
        (splitTail e x (ext4ExtIsUnwritten e)) e ∧
      Legal (setLen e (x - e.eeBlock) (ext4ExtIsUnwritten e)) ∧
      Legal (splitTail e x (ext4ExtIsUnwritten e)) ∧
      (splitTail e x (ext4ExtIsUnwritten e)).eeStart =
        (e.eeStart + ext4ExtGetActualLen (setLen e (x - e.eeBlock) (ext4ExtIsUnwritten e))) %
          2 ^ 48 := by
  obtain ⟨hlen, hun⟩ := he.len_le
  have hlast := he.last_le
  have hstart := he.start_lt
  unfold Extent.last at h2 hlast
  obtain ⟨a1, a2, a3, a4⟩ := setLen_spec (e := e) (n := x - e.eeBlock)
    (u := ext4ExtIsUnwritten e) (by omega) (by omega) fun hu => by have := hun hu; omega
  obtain ⟨b1, b2, b3, b4⟩ := setLen_spec (e := { eeBlock := x, eeLen := 0, eeStart := 0 })
    (n := ext4ExtGetActualLen e - (x - e.eeBlock))
    (u := ext4ExtIsUnwritten e) (by omega) (by omega) fun hu => by have := hun hu; omega
  have hblk : (splitTail e x (ext4ExtIsUnwritten e)).eeBlock = x := setLen_eeBlock
  have hst : (splitTail e x (ext4ExtIsUnwritten e)).eeStart =
      add64 (x - e.eeBlock) e.eeStart % 2 ^ 48 := rfl
  have hlenb : ext4ExtGetActualLen (splitTail e x (ext4ExtIsUnwritten e)) =
      ext4ExtGetActualLen e - (x - e.eeBlock) := b1
  have hblka : (setLen e (x - e.eeBlock) (ext4ExtIsUnwritten e)).eeBlock = e.eeBlock := setLen_eeBlock
  refine ⟨⟨hblka.symm, setLen_eeStart.symm, ?_, a2, b2, ?_⟩, ⟨a3, a4, ?_, ?_⟩, ⟨b3, b4, ?_, ?_⟩, ?_⟩
  · rw [a1, hlenb]; omega
  · rw [hblk, Extent.last, hblka, a1]; omega
  · rw [Extent.last, hblka, a1]; omega
  · rw [setLen_eeStart]; exact hstart
  · rw [Extent.last, hblk, hlenb]; omega
  · exact Nat.mod_lt _ (by decide)
  · rw [hst, a1, add64_of_lt (by unfold EXT_MAX_BLOCKS at hlast; omega), Nat.add_comm]

/-! ### A forced split -/

section force
variable (blocksize : ℕ) {t : ExtRoot} {path : Path t.1} {l r : List Extent} {e : Extent} {x : ℕ}

/-- The forced split at an inner point of the extent found: no `BUG_ON`. -/
theorem forceSplit_eq (h : WellFormed t) (hat : At t.1 t.2 path l (some e) r)
    (h1 : e.eeBlock < x) (h2 : x < e.last) (out : SplitOut) :
    ext4ForceSplitExtentAt blocksize out t path x =
      let u := ext4ExtIsUnwritten e
      let short := updExt (setLen · (x - e.eeBlock) u) t path
      match out with
      | .ok => some (ext4ExtInsertExtent blocksize (splitTail e x u) short path, none)
      | .accessErr err => some (t, some err)
      | .dirtyErr err => some (t, some err)
      | .insertErr err inserted =>
        some (if inserted then
          if restores err then ext4ExtInsertExtent blocksize (splitTail e x u) t path
          else ext4ExtInsertExtent blocksize (splitTail e x u) short path
          else if restores err then t else short, some err) := by
  have he : pExt t path = some e := hat.item_eq
  have hl : Legal e := h.legal (exts_of_at hat)
  have hin : ¬ (x < e.eeBlock ∨ add32 e.eeBlock (ext4ExtGetActualLen e) ≤ x) := by
    rw [hl.end_eq]; omega
  have hne : x ≠ e.eeBlock := by omega
  cases out <;> simp only [ext4ForceSplitExtentAt, ext4SplitExtentAt, he, if_neg hin, if_neg hne]

/-- The second half inserted behind the shortened extent. -/
theorem insert_halves (h : WellFormed t) (hat : At t.1 t.2 path l (some e) r)
    (h1 : e.eeBlock < x) (h2 : x < e.last) :
    ∃ t' a b, ext4ExtInsertExtent blocksize (splitTail e x (ext4ExtIsUnwritten e))
        (updExt (setLen · (x - e.eeBlock) (ext4ExtIsUnwritten e)) t path) path = t' ∧ WellFormed t' ∧
      exts t' = l ++ a :: b :: r ∧ b.eeBlock = x ∧ Halves a b e ∧
      Keeps (cells (exts t)) (cells (exts t')) := by
  have hex : exts t = l ++ e :: r := exts_of_at hat
  have hl : Legal e := h.legal hex
  obtain ⟨hhalf, ha, hb, hst⟩ := split_halves hl h1 h2
  have hv : ValidMap (l ++ _ :: _ :: r) := ValidMap.split hhalf ha hb (hex ▸ h.valid)
  obtain ⟨hi, hit⟩ := insert_spec (ext4ExtSpaceBlock blocksize)
    (hat.updItem (g := (setLen · (x - e.eeBlock) (ext4ExtIsUnwritten e))))
    (updItem_indexed (fun _ => setLen_eeBlock) path h.indexed) hv.starts
  have hit' : exts (ext4ExtInsertExtent blocksize (splitTail e x (ext4ExtIsUnwritten e))
      (updExt (setLen · (x - e.eeBlock) (ext4ExtIsUnwritten e)) t path) path) = _ := hit
  refine ⟨_, _, _, rfl, ⟨hi, ?_⟩, hit', setLen_eeBlock, hhalf, ?_⟩
  · rw [hit']
    exact hv
  · rw [hex, hit']
    exact hhalf.keeps hst l r

/-- **A split that succeeds** leaves the two halves in the place of the extent. -/
theorem forceSplit_ok (h : WellFormed t) (hat : At t.1 t.2 path l (some e) r)
    (h1 : e.eeBlock < x) (h2 : x < e.last) :
    ∃ t' a b, ext4ForceSplitExtentAt blocksize .ok t path x = some (t', none) ∧ WellFormed t' ∧
      exts t' = l ++ a :: b :: r ∧ b.eeBlock = x ∧ Halves a b e ∧
      Keeps (cells (exts t)) (cells (exts t')) := by
  obtain ⟨t', a, b, rfl, hrest⟩ := insert_halves blocksize h hat h1 h2
  exact ⟨_, a, b, forceSplit_eq blocksize h hat h1 h2 .ok, hrest⟩

/-- What a failed split at `x` makes of the tree `t`. -/
structure SplitFail (out : SplitOut) (t t' : ExtRoot) (x : ℕ) : Prop where
  clean : out.Clean → WellFormed t' ∧ Keeps (cells (exts t)) (cells (exts t'))
  unmapped : ∀ L, ¬ Mapped (exts t) L → ¬ Mapped (exts t') L
  kept : ∀ L p w, p < 2 ^ 48 → blockMap (exts t) L = some (p, w) → (¬ out.Loses ∨ L < x) →
    blockMap (exts t') L = some (p, w)
  lost : out.Loses → ¬ Mapped (exts t') x

/-- A split that changes nothing. -/
theorem SplitFail.refl (h : WellFormed t) {out : SplitOut} (hl : ¬ out.Loses) :
    SplitFail out t t x :=
  ⟨fun _ => ⟨h, Keeps.refl _⟩, fun _ h => h, fun _ _ _ _ h _ => h, fun h => absurd h hl⟩

/-- A split that keeps the cells. -/
theorem SplitFail.of_keeps {t' : ExtRoot} (h : WellFormed t) (h' : WellFormed t')
    (hk : Keeps (cells (exts t)) (cells (exts t'))) {out : SplitOut} (hl : ¬ out.Loses) :
    SplitFail out t t' x := by
  refine ⟨fun _ => ⟨h', hk⟩, fun L hL hm => hL ?_, fun L p w hp hL _ => ?_, fun h => absurd h hl⟩
  · obtain ⟨p, w, hc⟩ := mapped_iff_cells.mp hm
    obtain ⟨q, hq, -⟩ := hk.exists_mem hc
    exact mapped_iff_cells.mpr ⟨q, w, hq⟩
  · rw [blockMap_eq_some h.valid] at hL
    exact (blockMap_eq_some h'.valid).mpr (hk.mem hp hL)

/-- The second half inserted behind the extent in its whole length: it is never the first to cover a
block. -/
theorem splitFail_overlap (h : WellFormed t) (hat : At t.1 t.2 path l (some e) r)
    (h1 : e.eeBlock < x) (h2 : x < e.last) {err : Errno} (hr : restores err = true) :
    SplitFail (.insertErr err true) t
      (ext4ExtInsertExtent blocksize (splitTail e x (ext4ExtIsUnwritten e)) t path) x := by
  have hex : exts t = l ++ e :: r := exts_of_at hat
  have hl : Legal e := h.legal hex
  obtain ⟨hhalf, ha, hb, -⟩ := split_halves hl h1 h2
  have hlast : (splitTail e x (ext4ExtIsUnwritten e)).last = e.last := hhalf.last_eq
  have hblk : (splitTail e x (ext4ExtIsUnwritten e)).eeBlock = x := setLen_eeBlock
  have hstarts : (l ++ e :: splitTail e x (ext4ExtIsUnwritten e) :: r).Pairwise
      fun a b => a.eeBlock < b.eeBlock := by
    obtain ⟨hsl, hsr, hlr⟩ := List.pairwise_append.mp (hex ▸ h.valid.starts)
    obtain ⟨-, hsab, hlab⟩ := List.pairwise_append.mp
      (ValidMap.split hhalf ha hb (hex ▸ h.valid)).starts
    obtain ⟨hse, -⟩ := List.pairwise_cons.mp hsr
    refine List.pairwise_append.mpr ⟨hsl, List.pairwise_cons.mpr ⟨fun y hy => ?_,
      (List.pairwise_cons.mp hsab).2⟩, fun y hy z hz => ?_⟩
    · rcases List.mem_cons.mp hy with rfl | hy
      · rw [hblk]; exact h1
      · exact hse y hy
    · rcases List.mem_cons.mp hz with rfl | hz
      · exact hlr y hy z (by simp)
      · exact hlab y hy z (List.mem_cons_of_mem _ hz)
  obtain ⟨-, hit⟩ := insert_spec (ext4ExtSpaceBlock blocksize) hat h.indexed hstarts
  have hit' : exts (ext4ExtInsertExtent blocksize (splitTail e x (ext4ExtIsUnwritten e)) t path) =
    l ++ e :: splitTail e x (ext4ExtIsUnwritten e) :: r := hit
  have hcov : ∀ L, blockMap (l ++ e :: splitTail e x (ext4ExtIsUnwritten e) :: r) L =
      blockMap (l ++ e :: r) L := fun L => by
    unfold blockMap
    by_cases hce : covers L e = true
    · simp [List.find?_append, hce]
    · have hcb : covers L (splitTail e x (ext4ExtIsUnwritten e)) = false := by
        simp only [covers, decide_eq_true_eq, decide_eq_false_iff_not, hblk, hlast] at hce ⊢
        omega
      simp [List.find?_append, hce, hcb]
  refine ⟨fun hc => absurd hr hc, fun L hL => ?_, fun L p w _ hL _ => ?_, fun hlo => ?_⟩
  · rw [← blockMap_eq_none, hit', hcov, ← hex]
    exact blockMap_eq_none.mpr hL
  · rw [hit', hcov, ← hex]
    exact hL
  · exact absurd hlo.2 (by decide)

/-- The extent shortened, and nothing inserted. -/
theorem splitFail_lost (h : WellFormed t) (hat : At t.1 t.2 path l (some e) r)
    (h1 : e.eeBlock < x) (h2 : x < e.last) {err : Errno} (hr : restores err = false) :
    SplitFail (.insertErr err false) t
      (updExt (setLen · (x - e.eeBlock) (ext4ExtIsUnwritten e)) t path) x := by
  have hex : exts t = l ++ e :: r := exts_of_at hat
  have hl : Legal e := h.legal hex
  obtain ⟨hhalf, ha, hb, -⟩ := split_halves hl h1 h2
  obtain ⟨-, hvr, hlr⟩ := validMap_append.mp (hex ▸ h.valid)
  obtain ⟨-, -, her⟩ := validMap_cons.mp hvr
  have hex' : exts (updExt (setLen · (x - e.eeBlock) (ext4ExtIsUnwritten e)) t path) =
      l ++ setLen e (x - e.eeBlock) (ext4ExtIsUnwritten e) :: r := updExt_exts hat
  have hv' : ValidMap (l ++ setLen e (x - e.eeBlock) (ext4ExtIsUnwritten e) :: r) :=
    (ValidMap.split hhalf ha hb (hex ▸ h.valid)).sublist (by simp)
  have hlast : (setLen e (x - e.eeBlock) (ext4ExtIsUnwritten e)).last = x :=
    hhalf.adj.symm.trans setLen_eeBlock
  -- only the covering of the extent itself gets smaller
  have hin : ∀ L, (setLen e (x - e.eeBlock) (ext4ExtIsUnwritten e)).eeBlock ≤ L ∧
      L < (setLen e (x - e.eeBlock) (ext4ExtIsUnwritten e)).last ↔ e.eeBlock ≤ L ∧ L < x := fun L => by
    rw [hlast, ← hhalf.block]
  refine ⟨fun hc => absurd hr hc, fun L hL => ?_, fun L p w _ hL hx => ?_, fun _ => ?_⟩
  · rw [hex, mapped_split] at hL
    rw [hex', mapped_split, hin]
    exact fun hm => hL (hm.imp_right (Or.imp_left fun h => ⟨h.1, by omega⟩))
  · have hxL : L < x := hx.resolve_left fun hn => hn ⟨hr, rfl⟩
    rw [blockMap_eq_some h.valid, hex, cells_append, cells_cons, List.mem_append, List.mem_append,
      mem_extentCells] at hL
    rw [hex', blockMap_eq_some hv', cells_append, cells_cons, List.mem_append, List.mem_append,
      mem_extentCells, hlast, ← hhalf.block, ← hhalf.start, hhalf.state_left]
    exact hL.imp_right (Or.imp_left fun a => ⟨a.1, hxL, a.2.2⟩)
  · rw [hex', mapped_split, hin]
    rintro (⟨a, ha, a1, a2⟩ | a1 | ⟨a, ha, a1, a2⟩)
    · have := hlr a ha e (by simp)
      omega
    · omega
    · have := her a ha
      omega

/-- **A split that fails** returns an error. -/
theorem forceSplit_fail (h : WellFormed t) (hat : At t.1 t.2 path l (some e) r)
    (h1 : e.eeBlock < x) (h2 : x < e.last) {out : SplitOut} (hne : out ≠ .ok) :
    ∃ t' err, ext4ForceSplitExtentAt blocksize out t path x = some (t', some err) ∧
      SplitFail out t t' x := by
  rw [forceSplit_eq blocksize h hat h1 h2]
  cases out with
  | ok => exact absurd rfl hne
  | accessErr err => exact ⟨t, err, rfl, .refl h id⟩
  | dirtyErr err => exact ⟨t, err, rfl, .refl h id⟩
  | insertErr err inserted =>
    refine ⟨_, err, rfl, ?_⟩
    cases hr : restores err <;> cases inserted
    · exact splitFail_lost h hat h1 h2 hr
    · obtain ⟨t', -, -, rfl, hw', -, -, -, hk⟩ := insert_halves blocksize h hat h1 h2
      exact .of_keeps h hw' hk fun hlo => absurd hlo.2 (by decide)
    · exact .refl h fun hlo => absurd (hlo.1.symm.trans hr) (by decide)
    · exact splitFail_overlap blocksize h hat h1 h2 hr

end force

end LinuxEvfs.ExtTree.Split
