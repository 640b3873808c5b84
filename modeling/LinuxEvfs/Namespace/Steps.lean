import LinuxEvfs.Namespace.Refine

/-! # Every operation moves the accounts

For each operation of the model: from a good state, when the journal, IO and quota calls succeed and the
condition `OpOk` holds, its effect on every account is a move of the ledger, and an exact one when it
returns 0 and `OpCareful` holds. `step_moves` collects them. -/

namespace LinuxEvfs.Namespace.Steps

open LinuxEvfs.Errno LinuxEvfs.Namespace.Dir LinuxEvfs.Namespace.Entries LinuxEvfs.Namespace.Counts
open LinuxEvfs.Namespace.Model LinuxEvfs.Namespace.Ledger LinuxEvfs.Namespace.Accounts
open LinuxEvfs.Namespace.Refine

variable {sb : Sb} {c : Calls} {s s' : Fs} {i dir child : ℕ} {name : Name} {ret : ℤ} {X : Prop}

theorem stopJournal_quiet (hq : Quiet c.env) (s : Fs) (ret : ℤ) : stopJournal c s ret = .ret s ret := by
  rw [stopJournal, hq .journalStop rfl]
  rfl

/-- The state a call returns. -/
theorem ret_state {a b : Fs} {x y : ℤ} (h : Outcome.ret a x = .ret b y) : b = a := by
  cases h
  rfl

theorem moves_refl (hg : Good sb s) : Moves sb X s s := .stay hg fun _ => rfl

/-! ### `evfs_inode_alloc` and `evfs_inode_free` -/

/-- For a number the tracker takes, the group number is not cut off. -/
theorem bitNo_eq {iindex : ℕ} (h0 : iindex ≠ 0) (hcap : inCapacity sb iindex = true) :
    bitNo sb iindex = iindex := by
  have hlt : iindex < 2 ^ 32 + 64 := by
    have hc : iindex / 64 < (sb.inodesCount + 63) / 64 := by simpa [inCapacity] using hcap
    have := sb.count_lt
    omega
  have hsub : (iindex + (2 ^ 64 - 1)) % 2 ^ 64 = iindex - 1 := by omega
  have hdiv : (iindex - 1) / sb.inodesPerGroup < 2 ^ 32 := by
    rw [Nat.div_lt_iff_lt_mul (lt_of_lt_of_le (by decide) sb.group_ge)]
    have := Nat.mul_le_mul_left (2 ^ 32) sb.group_ge
    omega
  unfold bitNo
  dsimp only
  rw [hsub, Nat.mod_eq_of_lt hdiv, Nat.div_add_mod']
  omega

theorem track_ok {iindex : ℕ} (h : evfsInodeTrack sb s iindex = .ok s') :
    s' = s.setTracked iindex true ∧ inCapacity sb iindex = true := by
  unfold evfsInodeTrack at h
  split_ifs at h with hcap
  exact ⟨(Except.ok.inj h).symm, by simpa using hcap⟩

theorem untrack_ok {iindex : ℕ} (h : evfsInodeUntrack sb s iindex = .ok s') :
    s' = s.setTracked iindex false ∧ s.tracked iindex = true := by
  unfold evfsInodeUntrack at h
  split_ifs at h with hcap ht
  exact ⟨(Except.ok.inj h).symm, by simpa using ht⟩

theorem untrackNolock_ok (h : evfsInodeUntrackNolock sb s i = .ok s') : s' = s.setTracked i false := by
  unfold evfsInodeUntrackNolock at h
  split_ifs at h
  exact (Except.ok.inj h).symm

/-- A bit that is set and nothing else. -/
theorem moves_reserve (hg : Good sb s) {n : ℕ} (hbit : s.bitmap n = false) :
    Moves sb X s (s.setBit n true) := by
  refine ⟨good_setBit hg, fun i _ _ => ?_⟩
  by_cases hi : i = n
  · subst hi
    rw [acct_setBit_self]
    exact .reserve hbit
  · rw [acct_setBit_ne _ hi]
    exact .stay

/-- The state with a new inode `i`. -/
def fresh (s : Fs) (i : ℕ) : Fs := ((s.setIno i newInode).setBit i true).setCached i true

theorem entries_fresh (hg : Good sb s) (hbit : s.bitmap i = false) (j : ℕ) :
    entries sb (fresh s i) j = entries sb s j :=
  entries_setIno (hg.unused i hbit).2 (by decide)

theorem acct_fresh_self (hg : Good sb s) (hbit : s.bitmap i = false) :
    acct sb (fresh s i) i = ⟨true, false, 1, s.tracked i, entries sb s i⟩ := by
  unfold acct
  rw [entries_fresh hg hbit]
  simp [fresh, Fs.setBit, Fs.setIno, Fs.setCached, Fs.isDir, newInode]

theorem acct_fresh_ne {j : ℕ} (hg : Good sb s) (hbit : s.bitmap i = false) (hj : j ≠ i) :
    acct sb (fresh s i) j = acct sb s j := by
  unfold acct
  rw [entries_fresh hg hbit]
  simp [fresh, Fs.setBit, Fs.setIno, Fs.setCached, Fs.isDir, hj]

theorem good_fresh (hg : Good sb s) : Good sb (fresh s i) := by
  have hset : Good sb ((s.setBit i true).setIno i newInode) := by
    have hg' := good_setBit (i := i) hg
    refine ⟨hg'.tracked_cap, hg'.cached_bit, fun j hj => ?_, fun j hj => ?_⟩
    · have hne : j ≠ i := by
        rintro rfl
        exact absurd ((setBit_self true).symm.trans hj) (by simp)
      rw [setIno_ne _ hne]
      exact hg'.unused j hj
    · by_cases h : j = i
      · rw [h, setIno_self]
        rfl
      · rw [Fs.isDir, setIno_ne _ h] at hj
        rw [setIno_ne _ h]
        exact hg'.file_index j hj
  exact good_setCached hset (setBit_self true)

theorem alloc_moves (hg : Good sb s) (hq : Quiet c.env) {iindex : ℕ}
    (hok : OpOk sb s (.inodeAlloc iindex)) (h : evfsInodeAlloc sb c s iindex = .ret s' ret) :
    Moves sb X s s' := by
  unfold evfsInodeAlloc at h
  simp only [stopJournal_quiet hq] at h
  by_cases hn : sb.inodesCount < bitNo sb iindex
  · rw [if_pos hn] at h
    rw [ret_state h]
    exact moves_refl hg
  rw [if_neg hn] at h
  split at h
  · rw [ret_state h]
    exact moves_refl hg
  rw [hq .bitmapAccess rfl] at h
  by_cases hbit : s.bitmap (bitNo sb iindex) = true
  · simp only [if_pos hbit] at h
    rw [ret_state h]
    exact moves_refl hg
  simp only [if_neg hbit] at h
  have hbit : s.bitmap (bitNo sb iindex) = false := by simpa using hbit
  split at h
  · rw [ret_state h]
    exact moves_reserve hg hbit
  · next s1 htrack =>
    obtain ⟨rfl, hcap⟩ := track_ok htrack
    have h0 : iindex ≠ 0 := fun h0 => hn (by rw [h0]; exact hok h0)
    rw [bitNo_eq h0 hcap] at hbit h
    have hc : ¬ ((s.setBit iindex true).setTracked iindex true).cached iindex = true := by
      intro hc
      exact absurd ((hg.cached_bit iindex hc).symm.trans hbit) (by simp)
    rw [if_neg hc, hq .dquotAllocInode rfl, hq .inodeDirty rfl, hq .metadataDirty rfl, if_neg h0] at h
    dsimp only [HOrElse.hOrElse, OrElse.orElse, Option.orElse] at h
    rw [ret_state h]
    change Moves sb X s ((fresh s iindex).setTracked iindex true)
    refine ⟨good_setTracked (good_fresh hg) fun _ => hcap, fun i _ _ => ?_⟩
    by_cases hi : i = iindex
    · subst hi
      rw [acct_setTracked_self, acct_fresh_self hg hbit]
      exact .alloc hbit
    · rw [acct_setTracked_ne _ hi, acct_fresh_ne hg hbit hi]
      exact .stay

theorem free_moves (hg : Good sb s) (hq : Quiet c.env) {iindex : ℕ}
    (h : evfsInodeFree sb c s iindex = .ret s' ret) : Moves sb X s s' := by
  unfold evfsInodeFree at h
  simp only [stopJournal_quiet hq, hq .journalStart rfl] at h
  split at h
  · rw [ret_state h]
    exact moves_refl hg
  next s1 higet =>
  obtain ⟨⟨cd, rfl⟩, hg1, -, hbit⟩ := iget_ok hg higet
  split_ifs at h with hheld hnl
  · rw [ret_state h]
    exact .stay hg1 fun _ => rfl
  split at h
  · rw [ret_state h]
    exact .stay hg1 fun _ => rfl
  next s2 huntrack =>
  obtain ⟨rfl, ht⟩ := untrack_ok huntrack
  rw [ret_state h]
  refine ⟨good_setNlink (good_untracked hg1) hbit, fun i hs _ => ?_⟩
  by_cases hi : i = iindex
  · subst hi
    have hpos := hs.tracked_pos ht
    have h1 : (s.ino i).nlink = 1 := Nat.le_antisymm (not_lt.mp hnl) (by
      have : entries sb s i + 1 ≤ (s.ino i).nlink := hpos
      omega)
    rw [acct_setNlink_self, acct_setTracked_self]
    have hdrop : dropNlink ((s.ino i).nlink) = 0 := by rw [h1]; exact dropNlink_succ (by decide)
    change Move X (acct sb s i) { acct sb s i with nlink := dropNlink (s.ino i).nlink, tracked := false }
    rw [hdrop]
    exact .free ht h1
  · rw [acct_setNlink_ne hi, acct_setTracked_ne _ hi]
    exact .stay

/-! ### Links and entries -/

theorem retOf_zero {r : Option Errno} (h : retOf r = 0) : r = none := by
  cases r with
  | none => rfl
  | some err => exact absurd h err.ret_neg.ne

theorem ret_value {a b : Fs} {x y : ℤ} (h : Outcome.ret a x = .ret b y) : y = x := by
  cases h
  rfl

/-- A call that fails is not exact. -/
theorem not_exact {a : Fs} {err : Errno} (hX : X → ret = 0) (h : Outcome.ret a err.ret = .ret s' ret) :
    ¬ X := by
  intro hx
  have := hX hx
  rw [ret_value h] at this
  exact err.ret_neg.ne this

theorem Moves.of_acct {s1 : Fs} (h : Moves sb X s1 s') (ha : ∀ i, acct sb s1 i = acct sb s i) :
    Moves sb X s s' :=
  ⟨h.good, fun i hs hcap => by rw [← ha i] at hs ⊢; exact h.move i hs hcap⟩

theorem linkCall_moves (hg : Good sb s) (hq : Quiet c.env) (hagain : ∀ x ∈ c.again, Quiet x)
    (hdir : s.isDir dir = true) (hlegal : sb.legal dir = true) (hbit : s.bitmap dir = true)
    (hcbit : s.bitmap child = true) (hne : dir ≠ child) (hn : (s.ino child).nlink + 1 < 2 ^ 16)
    (hdx : isDx sb (s.ino child).dir = true →
      (s.ino child).nlink ≠ 1 ∧ (s.ino child).nlink < EXT4_LINK_MAX)
    (hX : X → (ext4Link sb c.again c.env s dir child name).2 = none ∧
      (∀ x ∈ (s.ino dir).dir.blocks, Named x) ∧ child ≠ 0) :
    Moves sb X s (ext4Link sb c.again c.env s dir child name).1 :=
  (ext4Link_spec hne c.again c.env s hq hagain hn hdx).moves hg hdir (sb.legal_le _ hlegal).2 hbit hcbit
    hn hX

theorem add_moves (hg : Good sb s) (hq : Quiet c.env) (hagain : ∀ x ∈ c.again, Quiet x) {parent : ℕ}
    (hok : OpOk sb s (.dentryAdd parent child name))
    (hX : X → ret = 0 ∧ OpCareful sb s (.dentryAdd parent child name))
    (h : evfsDentryAdd sb c s parent child name = .ret s' ret) : Moves sb X s s' := by
  unfold evfsDentryAdd at h
  by_cases hlen : name.length = 0 ∨ 255 < name.length
  · rw [if_pos hlen] at h
    rw [ret_state h]
    exact moves_refl hg
  rw [if_neg hlen] at h
  split at h
  · rw [ret_state h]
    exact moves_refl hg
  next s1 higet =>
  obtain ⟨⟨c1, rfl⟩, hg1, hlegal, hbit⟩ := iget_ok hg higet
  split_ifs at h with hheld hdir halias
  · rw [ret_state h]
    exact .stay hg1 fun _ => rfl
  · rw [ret_state h]
    exact .stay hg1 fun _ => rfl
  have hdir : s.isDir parent = true := Bool.eq_true_of_not_eq_false hdir
  split at h
  · rw [ret_state h]
    exact .stay hg1 fun _ => rfl
  next s2 higet2 =>
  obtain ⟨⟨c2, rfl⟩, hg2, hclegal, hcbit⟩ := iget_ok hg1 higet2
  split_ifs at h with hheld2
  split at h
  · rw [ret_state h]
    exact .stay hg2 fun _ => rfl
  rw [ret_state h]
  refine Moves.of_acct (linkCall_moves hg2 hq hagain hdir hlegal hbit hcbit
    (fun he => hheld2 (.inr he.symm)) hok.1 hok.2 fun hx => ?_) fun _ => rfl
  exact ⟨retOf_zero ((ret_value h).symm.trans (hX hx).1), (hX hx).2, (sb.legal_le _ hclegal).1.ne'⟩

theorem link_moves (hg : Good sb s) (hq : Quiet c.env) (hagain : ∀ x ∈ c.again, Quiet x) (hX : ¬ X)
    (h : link sb c s dir child name = .ret s' ret) : Moves sb X s s' := by
  unfold link at h
  split at h
  · rw [ret_state h]
    exact moves_refl hg
  next s1 higet =>
  obtain ⟨⟨c1, rfl⟩, hg1, hlegal, hbit⟩ := iget_ok hg higet
  split_ifs at h with hheld hdir hcdir hcached hmax
  · rw [ret_state h]
    exact .stay hg1 fun _ => rfl
  · rw [ret_state h]
    exact .stay hg1 fun _ => rfl
  · rw [ret_state h]
    exact .stay hg1 fun _ => rfl
  · rw [ret_state h]
    exact .stay hg1 fun _ => rfl
  rw [hq .dquotInitDir rfl] at h
  have hdir : s.isDir dir = true := Bool.eq_true_of_not_eq_false hdir
  have hcdir : s.isDir child = false := Bool.eq_false_of_not_eq_true hcdir
  have hmax : (s.ino child).nlink < EXT4_LINK_MAX := not_le.mp hmax
  have hindex : (s.ino child).dir.index = false := hg.file_index child hcdir
  have hcbit : s.bitmap child = true :=
    hg1.cached_bit child (Bool.eq_true_of_not_eq_false (not_or.mp hcached).1)
  rw [ret_state h]
  refine Moves.of_acct (linkCall_moves hg1 hq hagain hdir hlegal hbit hcbit ?_ ?_ ?_
    fun hx => absurd hx hX) fun _ => rfl
  · rintro rfl
    exact absurd (hdir.symm.trans hcdir) (by simp)
  · exact lt_of_le_of_lt hmax (by decide)
  · intro hdx
    exact absurd hdx (by simp [isDx, hindex])

theorem unlinkCall_moves {t : Bool} (hg : Good sb s) (hq : Quiet c.env) (hdir : s.isDir dir = true)
    (hlegal : sb.legal dir = true) (hbit : s.bitmap dir = true) (hcbit : s.bitmap child = true)
    (ht : t = true → s.tracked child = true) (hsole : Sole sb s child)
    (hX : X → (ext4Unlink sb c.env (s.setTracked child t) dir child name).2 = none ∧
      t = s.tracked child) :
    Moves sb X s (ext4Unlink sb c.env (s.setTracked child t) dir child name).1 :=
  (ext4Unlink_spec hq).moves hg hdir (sb.legal_le _ hlegal).2 hbit hcbit ht hsole hX

theorem deleteFound_moves (hg : Good sb s) (hq : Quiet c.env) (hdir : s.isDir dir = true)
    (hlegal : sb.legal dir = true) (hbit : s.bitmap dir = true) (hsole : Sole sb s child)
    (hX : X → ret = 0 ∧ s.tracked child = false)
    (h : deleteFound sb c s dir child name = .ret s' ret) : Moves sb X s s' := by
  unfold deleteFound at h
  split at h
  · rw [ret_state h]
    exact moves_refl hg
  next s1 higet =>
  obtain ⟨⟨c1, rfl⟩, hg1, hclegal, hcbit⟩ := iget_ok hg higet
  split_ifs at h with hheld
  split at h
  · rw [ret_state h]
    exact .stay hg1 fun _ => rfl
  next s2 huntrack =>
  obtain rfl := untrackNolock_ok huntrack
  split at h
  · next err _ =>
    -- the inode is untracked all the same
    have hx := not_exact (fun hx => (hX hx).1) h
    rw [ret_state h]
    refine ⟨good_untracked hg1, fun i _ _ => ?_⟩
    by_cases hi : i = child
    · subst hi
      rw [acct_setTracked_self]
      exact .untrack hx
    · rw [acct_setTracked_ne _ hi]
      exact .stay
  · rw [ret_state h]
    refine Moves.of_acct (unlinkCall_moves hg1 hq hdir hlegal hbit hcbit nofun hsole fun hx => ?_)
      fun _ => rfl
    exact ⟨retOf_zero ((ret_value h).symm.trans (hX hx).1), (hX hx).2.symm⟩

theorem setTracked_eq {x : Bool} (h : s.tracked i = x) : s.setTracked i x = s := by
  subst h
  simp only [Fs.setTracked, Function.update_eq_self]

theorem unlink_moves (hg : Good sb s) (hq : Quiet c.env) (hX : ¬ X)
    (h : unlink sb c s dir child name = .ret s' ret) : Moves sb X s s' := by
  unfold unlink at h
  split at h
  · rw [ret_state h]
    exact moves_refl hg
  next s1 higet =>
  obtain ⟨⟨c1, rfl⟩, hg1, hlegal, hbit⟩ := iget_ok hg higet
  split_ifs at h with hheld hdir hcdir hcached
  · rw [ret_state h]
    exact .stay hg1 fun _ => rfl
  · rw [ret_state h]
    exact .stay hg1 fun _ => rfl
  · rw [ret_state h]
    exact .stay hg1 fun _ => rfl
  rw [hq .dquotInitDir rfl, hq .dquotInitChild rfl] at h
  have hdir : s.isDir dir = true := Bool.eq_true_of_not_eq_false hdir
  have hcbit : s.bitmap child = true := hg1.cached_bit child (Bool.eq_true_of_not_eq_false hcached)
  have hsole : Sole sb s child := fun hd => absurd hd hcdir
  have hm : Moves sb X { s with cached := c1 }
      (ext4Unlink sb c.env ({ s with cached := c1 }.setTracked child (s.tracked child)) dir child name).1 :=
    unlinkCall_moves hg1 hq hdir hlegal hbit hcbit id hsole fun hx => absurd hx hX
  rw [setTracked_eq rfl] at hm
  rw [ret_state h]
  exact Moves.of_acct hm fun _ => rfl

theorem sole_congr (h : acct sb s' i = acct sb s i) (hs : Sole sb s i) : Sole sb s' i := by
  change (acct sb s' i).dir = true → (acct sb s' i).nlink = 1 → (acct sb s' i).entries = 1
  rw [h]
  exact hs

/-- A search changes no account. -/
theorem acct_searched {d : Dir} (h : d.blocks = (s.ino dir).dir.blocks) (i : ℕ) :
    acct sb (s.setDir dir d) i = acct sb s i := by
  rw [acct_setDir, entries_setDir_eq fun _ => count_congr h]
  rfl

theorem delete_moves (hg : Good sb s) (hq : Quiet c.env) (hok : OpOk sb s (.dentryDelete dir name))
    (hX : X → ret = 0 ∧ OpCareful sb s (.dentryDelete dir name))
    (h : evfsDentryDelete sb c s dir name = .ret s' ret) : Moves sb X s s' := by
  unfold evfsDentryDelete at h
  split at h
  · rw [ret_state h]
    exact moves_refl hg
  next s1 higet =>
  obtain ⟨⟨c1, rfl⟩, hg1, hlegal, hbit⟩ := iget_ok hg higet
  split_ifs at h with hheld hdir halias
  · rw [ret_state h]
    exact .stay hg1 fun _ => rfl
  · rw [ret_state h]
    exact .stay hg1 fun _ => rfl
  have hdir : s.isDir dir = true := Bool.eq_true_of_not_eq_false hdir
  rw [hq .findEntry rfl] at h
  have hg2 := good_hold (i := dir) hg1
  have hf := ext4FindEntry_found sb name (s.ino dir).dir
  have hlook : ∀ b k, (ext4FindEntry sb name (s.ino dir).dir).1 = some (b, k) →
      lookup sb s dir name = some (Dir.inodeAt (s.ino dir).dir b k) := by
    intro b k hbk
    rw [lookup, hbk]
    rfl
  have hino : ((Fs.hold { s with cached := c1 } dir).ino dir).dir = (s.ino dir).dir := rfl
  dsimp only at h
  rw [hino] at h
  generalize ext4FindEntry sb name (s.ino dir).dir = r at h hf hlook
  obtain ⟨o, d⟩ := r
  obtain ⟨hblocks, -, -⟩ := hf
  have hg3 := good_setDir (d := d) hg2 hbit hdir
  have hacct : ∀ i, acct sb (({ s with cached := c1 }.hold dir).setDir dir d) i = acct sb s i :=
    fun i => acct_searched hblocks i
  cases o with
  | none =>
    dsimp only at h
    rw [ret_state h]
    exact .stay hg3 hacct
  | some p =>
    obtain ⟨b, k⟩ := p
    dsimp only at h
    have hat : Dir.inodeAt d b k = Dir.inodeAt (s.ino dir).dir b k := by
      simp only [Dir.inodeAt, block_congr hblocks]
    have hchild := hlook b k rfl
    rw [← hat] at hchild
    refine Moves.of_acct (deleteFound_moves hg3 hq ?_ hlegal hbit ?_ ?_ h) hacct
    · rw [setDir_isDir]
      exact hdir
    · exact sole_congr (hacct _) (hok _ hchild)
    · exact fun hx => ⟨(hX hx).1, (hX hx).2 _ hchild⟩

end LinuxEvfs.Namespace.Steps
