import LinuxEvfs.Namespace.Steps

/-! # `evfs_dentry_update` moves the accounts

The operation raises the count of the new inode before it looks at the old one, and may stop there: then
the new inode has a link that no entry has. Otherwise the entry and a link go from the old inode to the
new one, and with its last link the old inode loses its tracker bit. -/

namespace LinuxEvfs.Namespace.Update

open LinuxEvfs.Errno LinuxEvfs.Namespace.Dir LinuxEvfs.Namespace.Entries LinuxEvfs.Namespace.Counts
open LinuxEvfs.Namespace.Model LinuxEvfs.Namespace.Ledger LinuxEvfs.Namespace.Accounts
open LinuxEvfs.Namespace.Refine LinuxEvfs.Namespace.Steps

variable {sb : Sb} {c : Calls} {s s' : Fs} {i dir : ℕ} {ret : ℤ} {X : Prop}

/-- A link of the new inode that no entry has. -/
theorem moves_raise {new n : ℕ} (hg : Good sb s) (hbit : s.bitmap new = true) (hn : (s.ino new).nlink = n)
    (hlt : n + 1 < 2 ^ 16) (hX : ¬ X) : Moves sb X s (s.setNlink new (n + 1)) := by
  subst hn
  refine ⟨good_setNlink hg hbit, fun i _ _ => ?_⟩
  by_cases hi : i = new
  · subst hi
    rw [acct_setNlink_self]
    exact .raise hX hbit hlt
  · rw [acct_setNlink_ne hi]
    exact .stay

/-- The counts and the tracker bit behind `evfs_dentry_update`: the new inode has a link more, the old
one `m` links. -/
def recounted (s : Fs) (new old m : ℕ) (t : Bool) : Fs :=
  ((s.setNlink new ((s.ino new).nlink + 1)).setNlink old m).setTracked old t

/-- The directory with the record rewritten. -/
def rewritten (d : Dir) (new k : ℕ) : Dir := d.setBlock 0 (retarget new k (d.block 0))

section Update

variable {new old k m : ℕ} {t : Bool} {de : DirEntry}

@[simp] theorem recounted_dir : ((recounted s new old m t).ino i).dir = (s.ino i).dir := by
  change ((((s.setNlink new ((s.ino new).nlink + 1)).setNlink old m).ino i).dir) = _
  rw [setNlink_dir, setNlink_dir]

@[simp] theorem recounted_isDir : (recounted s new old m t).isDir i = s.isDir i := by
  change ((s.setNlink new ((s.ino new).nlink + 1)).setNlink old m).isDir i = _
  rw [setNlink_isDir, setNlink_isDir]

@[simp] theorem entries_recounted : entries sb (recounted s new old m t) i = entries sb s i := by
  change entries sb ((s.setNlink new ((s.ino new).nlink + 1)).setNlink old m) i = _
  rw [entries_setNlink, entries_setNlink]

theorem good_recounted (hg : Good sb s) (hnbit : s.bitmap new = true) (hobit : s.bitmap old = true)
    (ht : t = true → s.tracked old = true) : Good sb (recounted s new old m t) :=
  good_setTracked (good_setNlink (good_setNlink hg hnbit) hobit) fun htrue => hg.tracked_cap _ (ht htrue)

theorem acct_recounted_old :
    acct sb (recounted s new old m t) old = { acct sb s old with nlink := m, tracked := t } := by
  rw [recounted, acct_setTracked_self, acct_setNlink_self]
  by_cases h : old = new
  · subst h
    rw [acct_setNlink_self]
  · rw [acct_setNlink_ne h]

theorem acct_recounted_new (h : new ≠ old) :
    acct sb (recounted s new old m t) new
      = { acct sb s new with nlink := (s.ino new).nlink + 1 } := by
  rw [recounted, acct_setTracked_ne _ h, acct_setNlink_ne h, acct_setNlink_self]

theorem acct_recounted_ne (hn : i ≠ new) (ho : i ≠ old) :
    acct sb (recounted s new old m t) i = acct sb s i := by
  rw [recounted, acct_setTracked_ne _ ho, acct_setNlink_ne ho, acct_setNlink_ne hn]

/-- The entry goes from the old inode to the new one. -/
theorem entries_rewritten (hdir : s.isDir dir = true) (hle : dir ≤ sb.inodesCount)
    (hnew : new ≤ sb.inodesCount) (hnew0 : new ≠ 0) (hde : ((s.ino dir).dir.block 0)[k]? = some de)
    (hold : de.inode ≠ 0) (i : ℕ) :
    entries sb (s.setDir dir (rewritten (s.ino dir).dir new k)) i + (if i = de.inode then 1 else 0)
      = entries sb s i + if i = new then 1 else 0 := by
  have hmod : new % 2 ^ 32 = new := Nat.mod_eq_of_lt (lt_of_le_of_lt hnew sb.count_lt)
  have he := entries_setDir (rewritten (s.ino dir).dir new k) hle hdir i
  have hc := count_retarget hde new i
  rw [hmod] at hc
  rw [names_eq hold] at hc
  have hn : names i { de with inode := new } = if i = new then 1 else 0 := names_eq hnew0 i
  rw [hn] at hc
  unfold rewritten at he ⊢
  omega

theorem update_moves_rewritten (hg : Good sb s) (hdir : s.isDir dir = true) (hle : dir ≤ sb.inodesCount)
    (hbit : s.bitmap dir = true) (hnbit : s.bitmap new = true) (hobit : s.bitmap de.inode = true)
    (hnew : new ≤ sb.inodesCount) (hnew0 : new ≠ 0) (hlt : (s.ino new).nlink + 1 < 2 ^ 16)
    (hde : ((s.ino dir).dir.block 0)[k]? = some de) (hlive : de.inode ≠ 0)
    (hsole : Sole sb s de.inode)
    (hm : m = dropNlink ((s.setNlink new ((s.ino new).nlink + 1)).ino de.inode).nlink)
    (ht : t = if m = 0 then false else s.tracked de.inode) :
    Moves sb X s ((recounted s new de.inode m t).setDir dir (rewritten (s.ino dir).dir new k)) := by
  have hdir' : (recounted s new de.inode m t).isDir dir = true := recounted_isDir.trans hdir
  have he : ∀ i, entries sb ((recounted s new de.inode m t).setDir dir
      (rewritten (s.ino dir).dir new k)) i + (if i = de.inode then 1 else 0)
      = entries sb s i + if i = new then 1 else 0 := by
    intro i
    have hde' : (((recounted s new de.inode m t).ino dir).dir.block 0)[k]? = some de := by
      rw [recounted_dir]
      exact hde
    have h := entries_rewritten hdir' hle hnew hnew0 hde' hlive i
    rwa [recounted_dir, entries_recounted] at h
  have hpos : 0 < entries sb s de.inode :=
    lt_of_lt_of_le (liveCount_pos hde hlive)
      ((liveCount_le_count 0).trans (count_le_entries hle hdir))
  have hcase : t = s.tracked de.inode ∨ (t = false ∧ m = 0) := by
    by_cases hm0 : m = 0
    · exact .inr ⟨ht.trans (if_pos hm0), hm0⟩
    · exact .inl (ht.trans (if_neg hm0))
  have htt : t = true → s.tracked de.inode = true := by
    intro htrue
    rcases hcase with h | ⟨h, -⟩
    · exact h.symm.trans htrue
    · exact absurd (h.symm.trans htrue) (by simp)
  refine ⟨good_setDir (good_recounted hg hnbit hobit htt) hbit hdir', fun i hs _ => ?_⟩
  have hei := he i
  rw [acct_setDir]
  generalize entries sb ((recounted s new de.inode m t).setDir dir
    (rewritten (s.ino dir).dir new k)) i = e at hei ⊢
  by_cases hio : i = de.inode
  · subst hio
    rw [acct_recounted_old]
    have hn : 0 < (s.ino de.inode).nlink := hs.named hpos
    by_cases hin : de.inode = new
    · -- the same inode has a link more and a link less
      have hmn : m = (s.ino de.inode).nlink := by
        rw [hm, hin, setNlink_nlink_self, dropNlink_succ hlt]
      have htr : t = s.tracked de.inode := by rw [ht, if_neg (by omega)]
      rw [if_pos rfl, if_pos hin] at hei
      rw [hmn, htr]
      exact .fade ⟨(Nat.add_right_cancel hei).le, fun _ => Nat.add_right_cancel hei⟩
    · have hmn : m = (s.ino de.inode).nlink - 1 := by
        rw [hm, setNlink_nlink_ne hin, dropNlink_eq hn hs.small]
      have hee : e = entries sb s de.inode - 1 := by
        rw [if_pos rfl, if_neg hin] at hei
        omega
      rw [hee, hmn]
      refine .unlink hpos hsole htt fun _ => ?_
      rcases hcase with h | ⟨-, h⟩
      · exact .inl h
      · exact .inr (by change (s.ino de.inode).nlink = 1; omega)
  · by_cases hin : i = new
    · subst hin
      rw [acct_recounted_new hio]
      rw [if_neg hio, if_pos rfl] at hei
      exact .link hnbit hlt ⟨hei.le, fun _ => hei⟩
    · rw [acct_recounted_ne hin hio]
      rw [if_neg hio, if_neg hin] at hei
      exact .fade ⟨hei.le, fun _ => hei⟩

end Update

theorem iget_readable {e : Errno} (h : Readable sb s i) : ext4Iget sb none s i ≠ .error e := by
  unfold ext4Iget
  rw [if_neg (by rw [h.1]; simp)]
  by_cases hc : s.cached i = true
  · rw [if_pos hc]
    exact nofun
  · rw [if_neg hc]
    dsimp only
    rw [if_neg h.2]
    exact nofun

theorem readable_setNlink {n j : ℕ} (h : Readable sb s i) : Readable sb (s.setNlink j (n + 1)) i := by
  refine ⟨h.1, ?_⟩
  by_cases hij : i = j
  · rw [hij, setNlink_nlink_self]
    exact Nat.succ_ne_zero n
  · rw [setNlink_nlink_ne hij]
    exact h.2

/-- The record is left alone, for the tracker has no place for the old inode. -/
theorem moves_untracked {new old m : ℕ} (hg : Good sb s) (hnbit : s.bitmap new = true)
    (hobit : s.bitmap old = true) (hlt : (s.ino new).nlink + 1 < 2 ^ 16)
    (hcap : inCapacity sb old = false) (hX : ¬ X) :
    Moves sb X s (((s.setNlink new ((s.ino new).nlink + 1)).setNlink old m).hold old) := by
  refine ⟨good_hold (good_setNlink (good_setNlink hg hnbit) hobit), fun i _ hc => ?_⟩
  have hne : i ≠ old := by
    rintro rfl
    exact absurd (hcap.symm.trans (hc.resolve_right hX)) (by simp)
  rw [acct_hold, acct_setNlink_ne hne]
  exact (moves_raise hg hnbit rfl hlt hX).move i ‹_› hc

theorem updateRecord_moves {new k : ℕ} {de : DirEntry} (hg : Good sb s) (hq : Quiet c.env)
    (hdir : s.isDir dir = true) (hlegal : sb.legal dir = true) (hbit : s.bitmap dir = true)
    (hnlegal : sb.legal new = true) (hnbit : s.bitmap new = true) (hobit : s.bitmap de.inode = true)
    (hlt : (s.ino new).nlink + 1 < 2 ^ 16) (hde : ((s.ino dir).dir.block 0)[k]? = some de)
    (hlive : de.inode ≠ 0) (hsole : Sole sb s de.inode) (hX : X → inCapacity sb de.inode = true)
    (h : updateRecord sb c (s.setNlink new ((s.ino new).nlink + 1)) dir new de.inode k = .ret s' ret) :
    Moves sb X s s' := by
  have hnew := sb.legal_le _ hnlegal
  unfold updateRecord at h
  simp only [stopJournal_quiet hq, hq .decDirty rfl, setNlink_nlink_self] at h
  generalize hm : dropNlink ((s.setNlink new ((s.ino new).nlink + 1)).ino de.inode).nlink = m at h
  have hmoves : ∀ t, t = (if m = 0 then false else s.tracked de.inode) →
      Moves sb X s ((recounted s new de.inode m t).setDir dir (rewritten (s.ino dir).dir new k)) :=
    fun t ht => update_moves_rewritten hg hdir (sb.legal_le _ hlegal).2 hbit hnbit hobit hnew.2 hnew.1.ne'
      hlt hde hlive hsole hm.symm ht
  by_cases hm0 : m = 0
  · rw [if_pos hm0] at h
    unfold evfsInodeUntrackNolock at h
    by_cases hcap : inCapacity sb de.inode = false
    · rw [if_pos hcap] at h
      rw [ret_state h]
      exact moves_untracked hg hnbit hobit hlt hcap fun hx => absurd (hX hx) (by simp [hcap])
    · rw [if_neg hcap] at h
      dsimp only at h
      rw [ret_state h]
      have hd : (((s.setNlink new ((s.ino new).nlink + 1)).setNlink de.inode m).setTracked de.inode
          false).ino dir = (recounted s new de.inode m false).ino dir := rfl
      rw [hd, recounted_dir]
      exact hmoves false (if_pos hm0).symm
  · rw [if_neg hm0] at h
    dsimp only at h
    rw [ret_state h, setNlink_dir, setNlink_dir]
    have ht := hmoves (s.tracked de.inode) (if_neg hm0).symm
    have hrec : recounted s new de.inode m (s.tracked de.inode)
        = (s.setNlink new ((s.ino new).nlink + 1)).setNlink de.inode m := setTracked_eq rfl
    rwa [hrec] at ht

theorem updateOld_moves (hg : Good sb s) (hq : Quiet c.env) {new index : ℕ} (hdir : s.isDir dir = true)
    (hlegal : sb.legal dir = true) (hbit : s.bitmap dir = true) (hnlegal : sb.legal new = true)
    (hnbit : s.bitmap new = true) (hok : OpOk sb s (.dentryUpdate dir index new))
    (hX : X → OpCareful sb s (.dentryUpdate dir index new))
    (h : updateOld sb c (s.setNlink new ((s.ino new).nlink + 1)) dir new
      (nthLive sb 0 index ((s.ino dir).dir.block 0)) = .ret s' ret) : Moves sb X s s' := by
  unfold updateOld at h
  simp only [stopJournal_quiet hq, hq .igetOld rfl, setNlink_dir] at h
  have htarget : target sb s dir index = (nthLive sb 0 index ((s.ino dir).dir.block 0)).map
    (Dir.inodeAt (s.ino dir).dir 0) := rfl
  cases hk : nthLive sb 0 index ((s.ino dir).dir.block 0) with
  | none =>
    rw [hk] at h htarget
    have hnx : ¬ X := fun hx => by
      obtain ⟨old, hold, -⟩ := hX hx
      rw [htarget] at hold
      cases hold
    split at h
    · rw [ret_state h]
      exact moves_raise hg hnbit rfl hok.1 hnx
    · next s1 higet =>
      -- `-1UL` is no inode number
      obtain ⟨-, -, hlegal', -⟩ := iget_ok (good_setNlink hg hnbit) higet
      have hmax : 2 ^ 64 - 1 ≤ sb.inodesCount := (sb.legal_le _ hlegal').2
      have := sb.count_lt
      omega
  | some k =>
    rw [hk] at h htarget
    obtain ⟨de, hde, hlive⟩ := nthLive_some sb hk
    have hat : Dir.inodeAt (s.ino dir).dir 0 k = de.inode := inodeAt_of_some hde
    simp only [Option.elim_some, hat, Option.map_some, Option.getD_some] at h htarget
    have hcare : X → Readable sb s de.inode ∧ inCapacity sb de.inode = true := by
      intro hx
      obtain ⟨old, hold, hr⟩ := hX hx
      obtain rfl : de.inode = old := Option.some.inj (htarget.symm.trans hold)
      exact hr
    split at h
    · next err higet =>
      rw [ret_state h]
      exact moves_raise hg hnbit rfl hok.1 fun hx =>
        iget_readable (readable_setNlink (hcare hx).1) higet
    next s1 higet =>
    obtain ⟨⟨c1, rfl⟩, hg1, -, hobit⟩ := iget_ok (good_setNlink hg hnbit) higet
    split_ifs at h with hheld
    have hg0 : Good sb { s with cached := c1 } := ⟨hg.tracked_cap, hg1.cached_bit, hg.unused, hg.file_index⟩
    exact Moves.of_acct (updateRecord_moves hg0 hq hdir hlegal hbit hnlegal hnbit hobit hok.1 hde hlive
      (hok.2 _ htarget) (fun hx => (hcare hx).2) h) fun _ => rfl

theorem update_moves (hg : Good sb s) (hq : Quiet c.env) {new index : ℕ}
    (hok : OpOk sb s (.dentryUpdate dir index new))
    (hX : X → OpCareful sb s (.dentryUpdate dir index new))
    (h : evfsDentryUpdate sb c s dir index new = .ret s' ret) : Moves sb X s s' := by
  unfold evfsDentryUpdate at h
  simp only [stopJournal_quiet hq, hq .journalStart rfl, hq .incDirty rfl] at h
  split at h
  · rw [ret_state h]
    exact moves_refl hg
  next s1 higet =>
  obtain ⟨⟨c1, rfl⟩, hg1, hlegal, hbit⟩ := iget_ok hg higet
  split_ifs at h with hheld hdir hread
  · rw [ret_state h]
    exact .stay hg1 fun _ => rfl
  · rw [ret_state h]
    exact .stay hg1 fun _ => rfl
  have hdir : s.isDir dir = true := Bool.eq_true_of_not_eq_false hdir
  split at h
  · rw [ret_state h]
    exact .stay hg1 fun _ => rfl
  next s2 higet2 =>
  obtain ⟨⟨c2, rfl⟩, hg2, hnlegal, hnbit⟩ := iget_ok hg1 higet2
  split_ifs at h with hheld2
  have hinc : incNlink (s.ino new).nlink = (s.ino new).nlink + 1 := incNlink_eq hok.1
  dsimp only at h
  rw [hinc] at h
  exact Moves.of_acct (updateOld_moves hg2 hq hdir hlegal hbit hnlegal hnbit hok hX h) fun _ => rfl

end LinuxEvfs.Namespace.Update
