import LinuxEvfs.Namespace.Accounts
import LinuxEvfs.Namespace.Adding

/-! # What a call does to the accounts

Each operation of the model does to the account of every inode one of the moves of the ledger.

* `OpOk`: the condition under which it does.
* `OpCareful`: the condition under which the move is exact.
* `ext4Link_spec`, `ext4Unlink_spec`: the functions that the operations on entries share. -/

namespace LinuxEvfs.Namespace.Refine

open LinuxEvfs.Errno LinuxEvfs.Namespace.Dir LinuxEvfs.Namespace.Entries LinuxEvfs.Namespace.Counts
open LinuxEvfs.Namespace.Model LinuxEvfs.Namespace.Ledger LinuxEvfs.Namespace.Accounts

/-- The inode that the entry found for a name names. -/
def lookup (sb : Sb) (s : Fs) (dir : ℕ) (name : Name) : Option ℕ :=
  (ext4FindEntry sb name (s.ino dir).dir).1.map fun p => Dir.inodeAt (s.ino dir).dir p.1 p.2

/-- The inode that the entry with an index names. -/
def target (sb : Sb) (s : Fs) (dir index : ℕ) : Option ℕ :=
  (nthLive sb 0 index ((s.ino dir).dir.block 0)).map (Dir.inodeAt (s.ino dir).dir 0)

/-- A number that `ext4_iget` takes, of an inode with a link. -/
def Readable (sb : Sb) (s : Fs) (i : ℕ) : Prop := sb.legal i = true ∧ (s.ino i).nlink ≠ 0

/-- The last link of a directory is that of its only entry. -/
def Sole (sb : Sb) (s : Fs) (i : ℕ) : Prop :=
  s.isDir i = true → (s.ino i).nlink = 1 → entries sb s i = 1

/-- The condition on a call under which no inode is lost. -/
def OpOk (sb : Sb) (s : Fs) : Op → Prop
  | .inodeAlloc iindex => iindex = 0 → sb.inodesCount < bitNo sb 0
  | .dentryAdd _ child _ => (s.ino child).nlink + 1 < 2 ^ 16 ∧
      (isDx sb (s.ino child).dir = true →
        (s.ino child).nlink ≠ 1 ∧ (s.ino child).nlink < EXT4_LINK_MAX)
  | .dentryDelete dir name => ∀ child, lookup sb s dir name = some child → Sole sb s child
  | .dentryUpdate dir index new => (s.ino new).nlink + 1 < 2 ^ 16 ∧
      ∀ old, target sb s dir index = some old → Sole sb s old
  | _ => True

/-- The condition on a call under which no link is left over. -/
def OpCareful (sb : Sb) (s : Fs) : Op → Prop
  | .inodeAlloc _ | .inodeFree _ => True
  | .dentryAdd parent _ _ => ∀ x ∈ (s.ino parent).dir.blocks, Named x
  | .dentryDelete dir name => ∀ child, lookup sb s dir name = some child → s.tracked child = false
  | .dentryUpdate dir index _ =>
      ∃ old, target sb s dir index = some old ∧ Readable sb s old ∧ inCapacity sb old = true
  | .evict i => (s.ino i).nlink = 0 → s.isDir i = false
  | _ => False

variable {sb : Sb} {s s' : Fs} {i j : ℕ} {X : Prop}

/-- From `s` to `s'` every account makes a move. Of an inode that the tracker has no place for this is
said of exact steps only. -/
structure Moves (sb : Sb) (X : Prop) (s s' : Fs) : Prop where
  good : Good sb s'
  move : ∀ i, Safe (acct sb s i) → inCapacity sb i = true ∨ X →
    Move X (acct sb s i) (acct sb s' i)

/-- A call that changes no account. -/
theorem Moves.stay (hg : Good sb s') (h : ∀ i, acct sb s' i = acct sb s i) : Moves sb X s s' :=
  ⟨hg, fun i _ _ => by rw [h i]; exact .stay⟩

/-! ### The state stays good -/

theorem good_setNlink (hg : Good sb s) {n : ℕ} (hbit : s.bitmap i = true) : Good sb (s.setNlink i n) where
  tracked_cap := hg.tracked_cap
  cached_bit := hg.cached_bit
  unused j hj := by
    have hne : j ≠ i := by
      rintro rfl
      exact absurd (hbit.symm.trans hj) (by simp)
    rw [setNlink_nlink_ne hne, setNlink_dir]
    exact hg.unused j hj
  file_index j hj := by
    rw [setNlink_isDir] at hj
    rw [setNlink_dir]
    exact hg.file_index j hj

theorem good_setDir (hg : Good sb s) {d : Dir} (hbit : s.bitmap i = true) (hdir : s.isDir i = true) :
    Good sb (s.setDir i d) where
  tracked_cap := hg.tracked_cap
  cached_bit := hg.cached_bit
  unused j hj := by
    have hne : j ≠ i := by
      rintro rfl
      exact absurd (hbit.symm.trans hj) (by simp)
    rw [setDir_nlink, setDir_dir_ne d hne]
    exact hg.unused j hj
  file_index j hj := by
    rw [setDir_isDir] at hj
    have hne : j ≠ i := by
      rintro rfl
      exact absurd (hdir.symm.trans hj) (by simp)
    rw [setDir_dir_ne d hne]
    exact hg.file_index j hj

theorem good_setTracked (hg : Good sb s) {x : Bool} (h : x = true → inCapacity sb i = true) :
    Good sb (s.setTracked i x) where
  tracked_cap j hj := by
    by_cases hji : j = i
    · rw [hji, setTracked_self] at hj
      rw [hji]
      exact h hj
    · rw [setTracked_ne _ hji] at hj
      exact hg.tracked_cap j hj
  cached_bit := hg.cached_bit
  unused := hg.unused
  file_index := hg.file_index

theorem good_untracked (hg : Good sb s) : Good sb (s.setTracked i false) := good_setTracked hg nofun

theorem good_hold (hg : Good sb s) : Good sb (s.hold i) := ⟨hg.tracked_cap, hg.cached_bit, hg.unused, hg.file_index⟩

theorem good_setBit (hg : Good sb s) : Good sb (s.setBit i true) where
  tracked_cap := hg.tracked_cap
  cached_bit j hj := by
    by_cases h : j = i
    · rw [h, setBit_self]
    · rw [setBit_ne _ h]
      exact hg.cached_bit j hj
  unused j hj := by
    by_cases h : j = i
    · rw [h, setBit_self] at hj
      cases hj
    · rw [setBit_ne _ h] at hj
      exact hg.unused j hj
  file_index := hg.file_index

theorem good_setCached (hg : Good sb s) (hbit : s.bitmap i = true) : Good sb (s.setCached i true) where
  tracked_cap := hg.tracked_cap
  cached_bit j hj := by
    by_cases h : j = i
    · rw [h]
      exact hbit
    · rw [setCached_ne _ h] at hj
      exact hg.cached_bit j hj
  unused := hg.unused
  file_index := hg.file_index

/-- `ext4_iget` brings a legal inode in use into the cache, and changes nothing else. -/
theorem iget_ok (hg : Good sb s) {err : Option Errno} (h : ext4Iget sb err s i = .ok s') :
    (∃ c, s' = { s with cached := c }) ∧ Good sb s' ∧ sb.legal i = true ∧ s.bitmap i = true := by
  unfold ext4Iget at h
  by_cases hlegal : sb.legal i = false
  · rw [if_pos hlegal] at h
    cases h
  rw [if_neg hlegal] at h
  have hlegal : sb.legal i = true := by simpa using hlegal
  by_cases hc : s.cached i = true
  · rw [if_pos hc] at h
    obtain rfl := Except.ok.inj h
    exact ⟨⟨s.cached, rfl⟩, hg, hlegal, hg.cached_bit i hc⟩
  rw [if_neg hc] at h
  cases err with
  | some e => cases h
  | none =>
    by_cases hn : (s.ino i).nlink = 0
    · simp only [if_pos hn] at h
      cases h
    · simp only [if_neg hn] at h
      obtain rfl := Except.ok.inj h
      have hbit : s.bitmap i = true := by
        by_contra hb
        exact hn (hg.unused i (by simpa using hb)).1
      exact ⟨⟨_, rfl⟩, good_setCached hg hbit, hlegal, hbit⟩

/-! ### `__ext4_link` -/

theorem incNlink_eq {n : ℕ} (h : n + 1 < 2 ^ 16) : incNlink n = n + 1 :=
  Nat.mod_eq_of_lt (lt_of_lt_of_le h (by decide))

theorem dropNlink_succ {n : ℕ} (h : n + 1 < 2 ^ 16) : dropNlink (n + 1) = n := by
  unfold dropNlink
  omega

/-- The count of an indexed directory is not taken back to 1. -/
theorem ext4IncCount_eq {x : Inode} (hn : x.nlink + 1 < 2 ^ 16)
    (hdx : isDx sb x.dir = true → x.nlink ≠ 1 ∧ x.nlink < EXT4_LINK_MAX) :
    ext4IncCount sb x = x.nlink + 1 := by
  unfold ext4IncCount
  rw [incNlink_eq hn]
  refine if_neg fun h => ?_
  have := hdx h.1
  rcases h.2 with h2 | h2 <;> omega

/-- What `__ext4_link` leaves: a link and an entry, or neither. -/
inductive LinkSpec (s : Fs) (dir child : ℕ) (e : DirEntry) : Fs × Option Errno → Prop
  | ok {d : Dir} (hle : ∀ i, count i d ≤ count i (s.ino dir).dir + names i e)
      (heq : (∀ x ∈ (s.ino dir).dir.blocks, Named x) →
        ∀ i, count i d = count i (s.ino dir).dir + names i e) :
      LinkSpec s dir child e ((s.setNlink child ((s.ino child).nlink + 1)).setDir dir d, none)
  | error {d : Dir} {err : Errno} (hle : ∀ i, count i d ≤ count i (s.ino dir).dir)
      (hkept : err = ENOSPC → (∀ i, count i d = count i (s.ino dir).dir) ∧
        ((∀ x ∈ (s.ino dir).dir.blocks, Named x) → ∀ x ∈ d.blocks, Named x)) :
      LinkSpec s dir child e (s.setDir dir d, some err)

variable {dir child : ℕ} {name : Name} {env : Env}

theorem linkOnce_spec (hq : Quiet env) (hne : dir ≠ child) (hn : (s.ino child).nlink + 1 < 2 ^ 16)
    (hdx : isDx sb (s.ino child).dir = true →
      (s.ino child).nlink ≠ 1 ∧ (s.ino child).nlink < EXT4_LINK_MAX) :
    LinkSpec s dir child (newEntry sb s child name) (linkOnce sb env s dir child name) := by
  have hadd := ext4AddEntry_spec sb hq (newEntry sb s child name) (s.ino dir).dir
  unfold linkOnce
  rw [hq .journalStart rfl, hq .linkInodeDirty rfl, ext4IncCount_eq hn hdx]
  dsimp only
  generalize ext4AddEntry sb env (newEntry sb s child name) (s.ino dir).dir = r at hadd ⊢
  obtain ⟨d, err⟩ := r
  cases err with
  | none => exact .ok (fun i => by simpa using hadd.le i) (hadd.eq rfl)
  | some err =>
    dsimp only
    -- the link is taken back
    have hback : (((s.setNlink child ((s.ino child).nlink + 1)).setDir dir d).setNlink child
        (dropNlink (((s.setNlink child ((s.ino child).nlink + 1)).setDir dir d).ino child).nlink))
        = s.setDir dir d := by
      rw [setDir_nlink, setNlink_nlink_self, dropNlink_succ hn, setNlink_setDir_comm d hne,
        setNlink_setNlink, setNlink_eq rfl]
    rw [hback]
    refine .error (fun i => by simpa using hadd.le i) ?_
    rintro rfl
    exact hadd.kept ENOSPC rfl (by decide)

/-- A further attempt from where a failed one has left the directory. -/
theorem LinkSpec.again {d : Dir} {e e' : DirEntry} {r : Fs × Option Errno} (hne : dir ≠ child)
    (hcount : ∀ i, count i d = count i (s.ino dir).dir)
    (hnamed : (∀ x ∈ (s.ino dir).dir.blocks, Named x) → ∀ x ∈ d.blocks, Named x)
    (h : LinkSpec (s.setDir dir d) dir child e' r) (he : e'.inode = e.inode) :
    LinkSpec s dir child e r := by
  have he' : ∀ i, names i e' = names i e := fun i => names_congr he
  cases h with
  | ok hle heq =>
    simp only [setDir_dir_self, he', hcount] at hle heq
    rw [setDir_nlink, setNlink_setDir_comm d hne, setDir_setDir]
    exact .ok hle fun hn => heq (hnamed hn)
  | error hle hkept =>
    simp only [setDir_dir_self, hcount] at hle hkept
    rw [setDir_setDir]
    exact .error hle fun herr => ⟨(hkept herr).1, fun hn => (hkept herr).2 (hnamed hn)⟩

/-- **Linking.** However often it is tried. -/
theorem ext4Link_spec (hne : dir ≠ child) :
    ∀ (again : List Env) (env : Env) (s : Fs), Quiet env → (∀ x ∈ again, Quiet x) →
      (s.ino child).nlink + 1 < 2 ^ 16 →
      (isDx sb (s.ino child).dir = true →
        (s.ino child).nlink ≠ 1 ∧ (s.ino child).nlink < EXT4_LINK_MAX) →
      LinkSpec s dir child (newEntry sb s child name) (ext4Link sb again env s dir child name)
  | [], env, s, hq, _, hn, hdx => linkOnce_spec hq hne hn hdx
  | env' :: again, env, s, hq, hagain, hn, hdx => by
    have hone : LinkSpec s dir child (newEntry sb s child name) (linkOnce sb env s dir child name) :=
      linkOnce_spec hq hne hn hdx
    unfold ext4Link
    dsimp only
    by_cases hsp : (linkOnce sb env s dir child name).2 = some ENOSPC
    · rw [if_pos hsp]
      generalize linkOnce sb env s dir child name = r at hone hsp ⊢
      cases hone with
      | ok => cases hsp
      | @error d err _ hkept =>
        obtain ⟨hcount, hnamed⟩ := hkept (Option.some.inj hsp)
        refine LinkSpec.again hne hcount hnamed
          (ext4Link_spec hne again env' (s.setDir dir d) (hagain _ List.mem_cons_self)
            (fun x hx => hagain x (List.mem_cons_of_mem _ hx)) ?_ ?_) rfl
        · rw [setDir_nlink]
          exact hn
        · rw [setDir_nlink, setDir_dir_ne d hne.symm]
          exact hdx
    · rw [if_neg hsp]
      exact hone

/-- The moves of a call of `__ext4_link`. -/
theorem LinkSpec.moves {r : Fs × Option Errno} (hg : Good sb s)
    (h : LinkSpec s dir child (newEntry sb s child name) r) (hdir : s.isDir dir = true)
    (hle : dir ≤ sb.inodesCount) (hbit : s.bitmap dir = true) (hcbit : s.bitmap child = true)
    (hn : (s.ino child).nlink + 1 < 2 ^ 16)
    (hX : X → r.2 = none ∧ (∀ x ∈ (s.ino dir).dir.blocks, Named x) ∧ child ≠ 0) :
    Moves sb X s r.1 := by
  cases h with
  | @ok d hcle hceq =>
    have hg' : Good sb (s.setNlink child ((s.ino child).nlink + 1)) := good_setNlink hg hcbit
    have hd' : (s.setNlink child ((s.ino child).nlink + 1)).isDir dir = true := by
      rw [setNlink_isDir]
      exact hdir
    refine ⟨good_setDir hg' hbit hd', fun i _ _ => ?_⟩
    have he := entries_setDir d hle hd' i
    rw [entries_setNlink, setNlink_dir] at he
    have hc := hcle i
    dsimp only
    rw [acct_setDir]
    by_cases hi : i = child
    · subst hi
      rw [acct_setNlink_self]
      have h1 : names i (newEntry sb s i name) ≤ 1 := names_le_one _
      refine .link hcbit hn ⟨?_, fun hx => ?_⟩
      · change _ ≤ entries sb s i + 1
        omega
      · have hc' := hceq (hX hx).2.1 i
        have h1' : names i (newEntry sb s i name) = 1 := names_self (hX hx).2.2
        change _ = entries sb s i + 1
        omega
    · rw [acct_setNlink_ne hi]
      have h0 : names i (newEntry sb s child name) = 0 := names_of_ne fun he => hi he.symm
      refine .fade ⟨?_, fun hx => ?_⟩
      · change _ ≤ entries sb s i
        omega
      · have hc' := hceq (hX hx).2.1 i
        change _ = entries sb s i
        omega
  | @error d err hcle _ =>
    refine ⟨good_setDir hg hbit hdir, fun i _ _ => ?_⟩
    rw [acct_setDir]
    exact .fade ⟨entries_setDir_le (hcle i), fun hx => by cases (hX hx).1⟩

/-! ### `__ext4_unlink` -/

/-- What `__ext4_unlink` leaves: an entry and a link go, or nothing does. -/
inductive UnlinkSpec (s : Fs) (dir child : ℕ) : Fs × Option Errno → Prop
  | ok {d : Dir} (h0 : child ≠ 0)
      (hcount : ∀ i, count i (s.ino dir).dir = count i d + if i = child then 1 else 0) :
      UnlinkSpec s dir child ((s.setDir dir d).setNlink child
        (if (s.ino child).nlink = 0 then 0 else dropNlink (s.ino child).nlink), none)
  | error {d : Dir} {err : Errno} (hblocks : d.blocks = (s.ino dir).dir.blocks) :
      UnlinkSpec s dir child (s.setDir dir d, some err)

theorem block_congr {d d' : Dir} (h : d'.blocks = d.blocks) (b : ℕ) : d'.block b = d.block b := by
  simp only [Dir.block, h]

theorem inodeAt_of_some {d : Dir} {b k : ℕ} {de : DirEntry} (h : (d.block b)[k]? = some de) :
    Dir.inodeAt d b k = de.inode := by
  simp only [Dir.inodeAt, h, Option.elim_some]

theorem names_eq {de : DirEntry} (h0 : de.inode ≠ 0) (i : ℕ) :
    names i de = if i = de.inode then 1 else 0 := by
  by_cases h : i = de.inode
  · rw [if_pos h, h, names_self h0]
  · rw [if_neg h, names_of_ne fun he => h he.symm]

theorem unlinkFound_spec (hq : Quiet env) {d : Dir} {b k : ℕ} {de : DirEntry}
    (hblocks : d.blocks = (s.ino dir).dir.blocks) (hde : (d.block b)[k]? = some de)
    (h0 : de.inode ≠ 0) :
    UnlinkSpec s dir de.inode (unlinkFound sb env (s.setDir dir d) dir de.inode b k) := by
  unfold unlinkFound
  rw [hq .journalStart rfl, hq .unlinkDirDirty rfl, hq .unlinkInodeDirty rfl]
  dsimp only
  rw [setDir_dir_self]
  rcases ext4DeleteEntry_cases sb hq d b k with ⟨err, herr⟩ | ⟨hnone, de', hde', hcount⟩
  · rw [herr]
    dsimp only [HOrElse.hOrElse, OrElse.orElse, Option.orElse]
    rw [setDir_setDir]
    exact .error hblocks
  · obtain rfl : de = de' := Option.some.inj (hde.symm.trans hde')
    rw [hnone]
    dsimp only [HOrElse.hOrElse, OrElse.orElse, Option.orElse]
    rw [setDir_setDir, setDir_nlink]
    refine .ok h0 fun i => ?_
    rw [← names_eq h0 i, ← hcount i]
    exact (count_congr hblocks).symm

theorem ext4Unlink_spec (hq : Quiet env) :
    UnlinkSpec s dir child (ext4Unlink sb env s dir child name) := by
  have hf := ext4FindEntry_found sb name (s.ino dir).dir
  unfold ext4Unlink
  rw [hq .findEntryAgain rfl]
  dsimp only
  generalize ext4FindEntry sb name (s.ino dir).dir = r at hf ⊢
  obtain ⟨o, d⟩ := r
  obtain ⟨hblocks, -, hfound⟩ := hf
  cases o with
  | none => exact .error hblocks
  | some p =>
    obtain ⟨b, k⟩ := p
    dsimp only
    by_cases hne : Dir.inodeAt d b k ≠ child
    · rw [if_pos hne]
      exact .error hblocks
    · rw [if_neg hne]
      obtain ⟨de, hde, hm⟩ := hfound b k rfl
      rw [← block_congr hblocks] at hde
      obtain rfl : de.inode = child := (inodeAt_of_some hde).symm.trans (not_not.mp hne)
      exact unlinkFound_spec hq hblocks hde (ext4Match_inode hm)

theorem UnlinkSpec.good {r : Fs × Option Errno} (h : UnlinkSpec s dir child r) (hg : Good sb s)
    (hbit : s.bitmap dir = true) (hdir : s.isDir dir = true) (hcbit : s.bitmap child = true) :
    Good sb r.1 := by
  cases h with
  | ok => exact good_setNlink (good_setDir hg hbit hdir) hcbit
  | error => exact good_setDir hg hbit hdir

/-- The accounts after `__ext4_unlink`. -/
theorem UnlinkSpec.acct_cases {r : Fs × Option Errno} (h : UnlinkSpec s dir child r)
    (hdir : s.isDir dir = true) (hle : dir ≤ sb.inodesCount) :
    (r.2 ≠ none ∧ ∀ i, acct sb r.1 i = acct sb s i) ∨
      (r.2 = none ∧ 0 < entries sb s child ∧
        acct sb r.1 child = { acct sb s child with
          nlink := if (s.ino child).nlink = 0 then 0 else dropNlink (s.ino child).nlink
          entries := entries sb s child - 1 } ∧
        ∀ i, i ≠ child → acct sb r.1 i = acct sb s i) := by
  cases h with
  | @ok d h0 hcount =>
    have he : ∀ i, entries sb s i = entries sb (s.setDir dir d) i + if i = child then 1 else 0 := by
      intro i
      have := entries_setDir d hle hdir i
      have := hcount i
      omega
    have hc := he child
    rw [if_pos rfl] at hc
    refine .inr ⟨rfl, by omega, ?_, fun i hi => ?_⟩
    · rw [acct_setNlink_self, acct_setDir, hc, Nat.add_sub_cancel]
    · have := he i
      rw [if_neg hi, Nat.add_zero] at this
      rw [acct_setNlink_ne hi, acct_setDir, ← this]
      rfl
  | @error d err hblocks =>
    refine .inl ⟨nofun, fun i => ?_⟩
    rw [acct_setDir, entries_setDir_eq fun _ => count_congr hblocks]
    rfl

theorem dropNlink_eq {n : ℕ} (hpos : 0 < n) (h : n < 2 ^ 16) : dropNlink n = n - 1 := by
  unfold dropNlink
  omega

/-- The moves of a call of `__ext4_unlink`, the tracker bit of the child having been set to `t` before. -/
theorem UnlinkSpec.moves {r : Fs × Option Errno} {t : Bool}
    (h : UnlinkSpec (s.setTracked child t) dir child r) (hg : Good sb s) (hdir : s.isDir dir = true)
    (hle : dir ≤ sb.inodesCount) (hbit : s.bitmap dir = true) (hcbit : s.bitmap child = true)
    (ht : t = true → s.tracked child = true) (hsole : Sole sb s child)
    (hX : X → r.2 = none ∧ t = s.tracked child) : Moves sb X s r.1 := by
  refine ⟨h.good (good_setTracked hg fun htrue => hg.tracked_cap _ (ht htrue)) hbit hdir hcbit,
    fun i hs _ => ?_⟩
  rcases h.acct_cases hdir hle with ⟨herr, hsame⟩ | ⟨hnone, hpos, hself, hother⟩
  · rw [hsame i]
    by_cases hi : i = child
    · subst hi
      rw [acct_setTracked_self]
      cases t with
      | true =>
        have : acct sb s i = { acct sb s i with tracked := true } := by
          rw [← ht rfl]
          rfl
        rw [← this]
        exact .stay
      | false => exact .untrack fun hx => herr (hX hx).1
    · rw [acct_setTracked_ne _ hi]
      exact .stay
  · by_cases hi : i = child
    · subst hi
      have hn : 0 < (s.ino i).nlink := hs.named hpos
      have hcount : (if (s.ino i).nlink = 0 then 0 else dropNlink (s.ino i).nlink)
          = (s.ino i).nlink - 1 := by
        rw [if_neg hn.ne', dropNlink_eq hn hs.small]
      rw [hself, acct_setTracked_self]
      change Move X (acct sb s i) { acct sb s i with
        nlink := if (s.ino i).nlink = 0 then 0 else dropNlink (s.ino i).nlink
        tracked := t
        entries := entries sb s i - 1 }
      rw [hcount]
      exact .unlink hpos hsole ht fun hx => .inl (hX hx).2
    · rw [hother i hi, acct_setTracked_ne _ hi]
      exact .stay

end LinuxEvfs.Namespace.Refine
