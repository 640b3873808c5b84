import LinuxEvfs.ExtMove.Journal

/-! # A store without access

In a tree of depth 1 or more the move of the first extent changes its leaf without asking for write access
(`move_bare`). -/

namespace LinuxEvfs.ExtMove.Journal

open LinuxEvfs.Errno LinuxEvfs.Lib.Word LinuxEvfs.Lib.IndexTree LinuxEvfs.Lib.Journal
open LinuxEvfs.Lib.TreeJournal LinuxEvfs.ExtTree.Basic LinuxEvfs.ExtTree.Cells LinuxEvfs.ExtTree.Tree
open LinuxEvfs.ExtTree.Split LinuxEvfs.ExtMove.Model

/-- A leaf below the top has a number. -/
theorem leafNo_some : ∀ (d : ℕ) (no : ℕ) (nums : Nums) (p : Path d), ∃ no', leafNo d (some no) nums p = some no'
  | 0, no, _, _ => ⟨no, rfl⟩
  | d + 1, _, nums, (p : ℕ × Path d) => leafNo_some d (nums [p.1]) (nums.below p.1) p.2

theorem leafNo_below {d : ℕ} (nums : Nums) (p : Path d) (hd : d ≠ 0) :
    ∃ no, leafNo d none nums p = some no := by
  match d, p with
  | 0, _ => exact absurd rfl hd
  | d + 1, (p : ℕ × Path d) => exact leafNo_some d (nums [p.1]) (nums.below p.1) p.2

/-- A tree with blocks of its own has an extent, and the lookup of its first block finds the first one. -/
theorem first_found {t : ExtRoot} (h : WellFormed t) (hd : t.1 ≠ 0) :
    ∃ e, Legal e ∧ pExt t (ext4FindExtent t e.eeBlock) = some e := by
  have hne : exts t ≠ [] := by
    obtain ⟨d, tr⟩ := t
    match d, tr, h.indexed with
    | 0, _, _ => exact absurd rfl hd
    | d + 1, (tr : Block (ℕ × Tree Extent d)), hi =>
      obtain ⟨hes, hgood⟩ := hi
      obtain ⟨e, es, hcons⟩ := List.exists_cons_of_ne_nil hes
      obtain ⟨b, hb, -⟩ := (hgood e (by rw [hcons]; exact List.mem_cons_self ..)).2.mem
      intro hnil
      have hmem : b ∈ below d tr.entries := by
        rw [hcons, below_cons]
        exact List.mem_append_left _ hb
      have hnil' : below d tr.entries = [] := hnil
      rw [hnil'] at hmem
      cases hmem
  obtain ⟨e0, es, hcons⟩ := List.exists_cons_of_ne_nil hne
  obtain ⟨hnil, -⟩ | ⟨l, e, r, -, hex, hp, -, he⟩ := find_cases h e0.eeBlock
  · exact absurd hnil hne
  · have hl : l = [] := by
      rcases he with he | he
      · by_contra hl
        obtain ⟨a, l', rfl⟩ := List.exists_cons_of_ne_nil hl
        rw [hcons, List.cons_append] at hex
        obtain ⟨rfl, rfl⟩ := List.cons.inj hex
        have hs : Sorted Extent.eeBlock (exts t) := h.sorted
        rw [hcons] at hs
        have := (List.pairwise_cons.mp hs).1 e (by simp)
        omega
      · exact he
    subst hl
    rw [List.nil_append, hcons] at hex
    obtain ⟨rfl, rfl⟩ := List.cons.inj hex
    exact ⟨e0, h.valid.legal e0 (by rw [hcons]; exact List.mem_cons_self ..), hp⟩

/-- The range of an extent is stored without a split. -/
theorem mapPassJ_whole (blocksize : ℕ) (bl : BlockEnv) {t : ExtRoot} (nums : Nums) {e : Extent}
    (hlegal : Legal e) (hp : pExt t (ext4FindExtent t e.eeBlock) = some e) {curr : EvfsExt}
    (hlog : curr.logStart = e.eeBlock) :
    mapPassJ blocksize allSucceed bl curr ⟨t, 0⟩ nums e.eeBlock (ext4ExtGetActualLen e) =
      storePassJ allSucceed curr ⟨t, 1⟩ nums e.eeBlock := by
  have hpos := hlegal.len_pos
  have hlast := hlegal.last_le
  unfold Extent.last EXT_MAX_BLOCKS at hlast
  have hadd : add32 e.eeBlock (ext4ExtGetActualLen e) = e.eeBlock + ext4ExtGetActualLen e :=
    add32_of_lt (by omega)
  have hsub : sub32 (e.eeBlock + ext4ExtGetActualLen e) e.eeBlock = ext4ExtGetActualLen e := by
    unfold sub32
    omega
  have hbehind : ¬ e.eeBlock + ext4ExtGetActualLen e ≤ e.eeBlock := by omega
  unfold mapPassJ insidePassJ
  simp only [allSucceed, hp, hlog, hadd, hsub, lt_irrefl, if_false, if_neg hbehind]

/-- **A store without access.** The range of the first extent moves without a split, and its leaf is changed
first of all. -/
theorem move_bare (blocksize : ℕ) (bl : BlockEnv) {ino : Inode} (nums : Nums) (h : WellFormed ino.tree)
    (hd : ino.tree.1 ≠ 0) :
    ∃ ext no evs,
      evfsExtentMoveJ blocksize allSucceed bl 3 ino nums ⟨evfsIver ino, ext⟩ = .change no :: evs := by
  obtain ⟨e, hlegal, hp⟩ := first_found h hd
  have hpos := hlegal.len_pos
  have hlast := hlegal.last_le
  unfold Extent.last EXT_MAX_BLOCKS at hlast
  let ext := EvfsExt.of e.eeBlock 0 (ext4ExtGetActualLen e)
  have hlog : ext.logStart = e.eeBlock := Nat.mod_eq_of_lt (by omega)
  have hlen : ext.len = ext4ExtGetActualLen e := Nat.mod_eq_of_lt (by omega)
  obtain ⟨no, hno⟩ := leafNo_below nums (ext4FindExtent ino.tree e.eeBlock) hd
  have hpass : ∃ e', (mapPassJ blocksize allSucceed bl ext ⟨ino.tree, 0⟩ nums e.eeBlock
      (ext4ExtGetActualLen e)).2 = [.change no, e'] := by
    rw [mapPassJ_whole blocksize bl nums hlegal hp hlog]
    unfold storePassJ
    simp only [hno]
    exact ⟨_, rfl⟩
  obtain ⟨e', hpass⟩ := hpass
  have hmap : ∃ evs, (mapLoopJ blocksize allSucceed bl ext 3 ⟨ino.tree, 0⟩ nums e.eeBlock
      (ext4ExtGetActualLen e)).2 = .change no :: evs := by
    unfold mapLoopJ
    cases mapPass blocksize allSucceed ext ⟨ino.tree, 0⟩ e.eeBlock (ext4ExtGetActualLen e) with
    | cont st lblk len =>
      dsimp only
      rw [hpass]
      exact ⟨_, rfl⟩
    | _ => exact ⟨_, hpass⟩
  obtain ⟨evs, hmap⟩ := hmap
  refine ⟨ext, no, ?_⟩
  unfold evfsExtentMoveJ
  obtain ⟨room, hroom⟩ := Nat.exists_eq_succ_of_ne_zero (Nat.pos_iff_ne_zero.mp hpos)
  dsimp only
  rw [hlen, hroom, moveLoopJ, if_neg (by omega), hlog, hlen]
  cases evfsExtentMap blocksize allSucceed 3 ext ⟨ino.tree, 0⟩ with
  | ret r =>
    dsimp only
    rw [hmap]
    split_ifs
    · exact ⟨_, rfl⟩
    · exact ⟨_, rfl⟩
  | _ => exact ⟨_, hmap⟩

end LinuxEvfs.ExtMove.Journal
