import LinuxEvfs.Lib.Runs
import LinuxEvfs.Namespace.Reclaim
import LinuxEvfs.Namespace.Rewrite
import Mathlib.Logic.Relation

/-! # The directory hierarchy

Every directory in use except the root has one name, apart from `.` and `..`, and going up along these names
leads to the root (`Rooted`). The operations on entries do not ask what kind of inode they are given:

* `evfsDentry_tree`: the hierarchy stays a tree in every run of successful calls that neither add, remove nor
  retarget a name of a directory other than the root; and a call that does breaks it.
* `evfsDentryAdd_cycle`: a directory is added below itself. -/

namespace LinuxEvfs.Namespace.Tree

open LinuxEvfs.Errno LinuxEvfs.Lib.Runs LinuxEvfs.Namespace.Dir LinuxEvfs.Namespace.Entries
open LinuxEvfs.Namespace.Counts LinuxEvfs.Namespace.Model LinuxEvfs.Namespace.Accounts
open LinuxEvfs.Namespace.Refine LinuxEvfs.Namespace.Update LinuxEvfs.Namespace.Edits
open LinuxEvfs.Namespace.Rewrite LinuxEvfs.Namespace.Reclaim

/-- `EXT4_ROOT_INO`. -/
def EXT4_ROOT_INO : ℕ := 2

/-- Counting the entries that name `i`, except `.` and `..`. -/
def leading (i : ℕ) : ℕ → Name → ℕ := fun j name => if j = i ∧ isDot name = false then 1 else 0

/-- The number of those in the directory `p`. -/
def links (s : Fs) (p i : ℕ) : ℕ := if s.isDir p then tally (leading i) (s.ino p).dir else 0

/-- The number of those in all directories. -/
def named (sb : Sb) (s : Fs) (i : ℕ) : ℕ := ∑ p ∈ Finset.range (sb.inodesCount + 1), links s p i

/-- `p` holds an entry of `i`. -/
def Parent (s : Fs) (i p : ℕ) : Prop := 0 < links s p i

/-- A directory in use. -/
def Used (s : Fs) (i : ℕ) : Prop := s.bitmap i = true ∧ s.isDir i = true

/-- The hierarchy is a tree. -/
structure Rooted (sb : Sb) (s : Fs) : Prop where
  once : ∀ i, Used s i → i ≠ EXT4_ROOT_INO → named sb s i = 1
  up : ∀ i, Used s i → Relation.ReflTransGen (Parent s) i EXT4_ROOT_INO

/-- The root, or no directory. -/
def Free (s : Fs) (i : ℕ) : Prop := i = EXT4_ROOT_INO ∨ s.isDir i = false

/-- A successful call of one of the three operations. -/
def Succeeds (e : Event) : Prop :=
  e.ret = 0 ∧
    match e.op with
    | .dentryAdd _ _ _ | .dentryDelete _ _ | .dentryUpdate _ _ _ => True
    | _ => False

/-- The journal and IO calls of an addition succeed, and the live records of the directory have names. -/
def AddPlain (c : Calls) (s : Fs) (parent : ℕ) : Prop :=
  Quiet c.env ∧ (∀ x ∈ c.again, Quiet x) ∧ ∀ x ∈ (s.ino parent).dir.blocks, Named x

/-- No name of a directory other than the root is concerned. -/
def Harmless (sb : Sb) (s : Fs) : Op → Prop
  | .dentryAdd _ child name => isDot name = true ∨ Free s child
  | .dentryDelete dir name => isDot name = true ∨ ∀ child, lookup sb s dir name = some child → Free s child
  | .dentryUpdate dir index new => ∀ k de, nthLive sb 0 index ((s.ino dir).dir.block 0) = some k →
      ((s.ino dir).dir.block 0)[k]? = some de →
      isDot de.name = true ∨ de.inode = new ∨ (Free s de.inode ∧ Free s new)
  | _ => True

/-- The condition on a call. -/
def StepHarmless (sb : Sb) (s : Fs) (e : Event) : Prop :=
  Harmless sb s e.op ∧
    match e.op with
    | .dentryAdd parent _ _ => AddPlain e.calls s parent
    | _ => True

/-- The inodes a call is about are in use, and an update gets to its record. -/
def Plain (sb : Sb) (s : Fs) (e : Event) : Prop :=
  match e.op with
  | .dentryAdd parent child _ => AddPlain e.calls s parent ∧ s.bitmap child = true
  | .dentryDelete dir name => ∀ child, lookup sb s dir name = some child → s.bitmap child = true
  | .dentryUpdate dir index new => ∃ de, Lands sb e.calls s dir index new de ∧
      s.bitmap de.inode = true ∧ s.bitmap new = true
  | _ => True

variable {sb : Sb} {c : Calls} {s s' : Fs} {i dir child : ℕ} {name : Name} {ret : ℤ}

/-! ### Names that stay and names that change -/

/-- Every directory other than the root keeps its names. -/
def Keeps (s s' : Fs) : Prop := ∀ p i, s.isDir i = true → i ≠ EXT4_ROOT_INO → links s' p i = links s p i

theorem links_of_frame (hf : Frame dir s s') {p : ℕ} (hp : p ≠ dir) (i : ℕ) :
    links s' p i = links s p i := by
  unfold links
  rw [hf.isDir, hf.others p hp]

/-- Only the directory named by the frame has to be looked at. -/
theorem keeps_of_frame (hf : Frame dir s s')
    (h : ∀ i, s.isDir i = true → i ≠ EXT4_ROOT_INO →
      tally (leading i) (s'.ino dir).dir = tally (leading i) (s.ino dir).dir) : Keeps s s' := by
  intro p i hi hne
  by_cases hp : p = dir
  · rw [hp]
    unfold links
    rw [hf.isDir, h i hi hne]
  · exact links_of_frame hf hp i

theorem Rooted.of_keeps (ht : Rooted sb s) (hf : Frame dir s s') (h : Keeps s s') : Rooted sb s' := by
  have hused : ∀ i, Used s' i → Used s i := fun i hi =>
    ⟨by rw [← hf.bitmap]; exact hi.1, by rw [← hf.isDir]; exact hi.2⟩
  refine ⟨fun i hi hne => ?_, fun i hi => ?_⟩
  · rw [← ht.once i (hused i hi) hne]
    exact Finset.sum_congr rfl fun p _ => h p i (hused i hi).2 hne
  · -- along the way up every inode is a directory, and the way may stop at the root
    have hway : ∀ i, s.isDir i = true → Relation.ReflTransGen (Parent s) i EXT4_ROOT_INO →
        Relation.ReflTransGen (Parent s') i EXT4_ROOT_INO := by
      intro i hdir hup
      induction hup using Relation.ReflTransGen.head_induction_on with
      | refl => exact .refl
      | @head a p hparent _ ih =>
        by_cases ha : a = EXT4_ROOT_INO
        · rw [ha]
        · have hp : s.isDir p = true := by
            unfold Parent links at hparent
            by_contra hnot
            rw [if_neg hnot] at hparent
            exact absurd hparent (lt_irrefl 0)
          refine .head ?_ (ih hp)
          unfold Parent
          rw [h p a hdir ha]
          exact hparent
    exact hway i (hused i hi).2 (ht.up i (hused i hi))

/-- A directory in use that gains or loses a name. -/
theorem not_tree (ht : Rooted sb s) (hf : Frame dir s s') (hle : dir ≤ sb.inodesCount)
    (hdir : s.isDir dir = true) (hi : Used s i) (hne : i ≠ EXT4_ROOT_INO)
    (h : tally (leading i) (s'.ino dir).dir ≠ tally (leading i) (s.ino dir).dir) : ¬ Rooted sb s' := by
  intro ht'
  have hone := ht.once i hi hne
  have hone' := ht'.once i ⟨by rw [hf.bitmap]; exact hi.1, by rw [hf.isDir]; exact hi.2⟩ hne
  have hsum : named sb s' i + links s dir i = named sb s i + links s' dir i :=
    sum_change (Finset.mem_range.mpr (Nat.lt_succ_of_le hle)) fun p _ hp => links_of_frame hf hp i
  have hl : links s dir i = tally (leading i) (s.ino dir).dir := if_pos hdir
  have hl' : links s' dir i = tally (leading i) (s'.ino dir).dir := if_pos (by rw [hf.isDir]; exact hdir)
  omega

theorem weigh_leading {de : DirEntry} (h0 : de.inode ≠ 0) :
    weigh (leading i) de = if de.inode = i ∧ isDot de.name = false then 1 else 0 := by
  rw [weigh_live h0]
  rfl

theorem weigh_leading_of_free {de : DirEntry} (hi : s.isDir i = true) (hne : i ≠ EXT4_ROOT_INO)
    (h : isDot de.name = true ∨ Free s de.inode) : weigh (leading i) de = 0 := by
  by_cases h0 : de.inode = 0
  · exact weigh_dead h0
  rw [weigh_leading h0, if_neg]
  rintro ⟨rfl, hdot⟩
  rcases h with h | h | h
  · rw [h] at hdot
    cases hdot
  · exact hne h
  · rw [h] at hi
    cases hi

/-! ### One call -/

/-- What `Free` leaves out. -/
theorem used_of_not_free (h : ¬ Free s i) (hbit : s.bitmap i = true) :
    Used s i ∧ i ≠ EXT4_ROOT_INO := by
  obtain ⟨hne, hdir⟩ := not_or.mp h
  exact ⟨⟨hbit, by simpa using hdir⟩, hne⟩

theorem add_tree {parent : ℕ} (hp : AddPlain c s parent)
    (h : evfsDentryAdd sb c s parent child name = .ret s' 0) (ht : Rooted sb s) :
    (Harmless sb s (.dentryAdd parent child name) → Rooted sb s') ∧
      (s.bitmap child = true → ¬ Harmless sb s (.dentryAdd parent child name) → ¬ Rooted sb s') := by
  obtain ⟨hq, hagain, hnamed⟩ := hp
  obtain ⟨hf, ⟨hret, -⟩ | ⟨-, hdir, hlegal, hclegal, -, hadds⟩⟩ := add_edit hq hagain h
  · exact absurd rfl hret
  have htally : ∀ i, tally (leading i) (s'.ino parent).dir = tally (leading i) (s.ino parent).dir
      + weigh (leading i) (newEntry sb s child name) := fun i =>
    hadds.eq rfl _ fun x hx => (hnamed x hx).heeds _
  constructor
  · intro hok
    refine ht.of_keeps hf (keeps_of_frame hf fun i hi hne => ?_)
    have hw : weigh (leading i) (newEntry sb s child name) = 0 := weigh_leading_of_free hi hne hok
    rw [htally i, hw, Nat.add_zero]
  · intro hbit hok
    obtain ⟨hdot, hfree⟩ := not_or.mp hok
    obtain ⟨hused, hne⟩ := used_of_not_free hfree hbit
    refine not_tree ht hf (sb.legal_le _ hlegal).2 hdir hused hne ?_
    have hchild : (newEntry sb s child name).inode ≠ 0 := (sb.legal_le _ hclegal).1.ne'
    have hw : weigh (leading child) (newEntry sb s child name) = 1 := by
      rw [weigh_leading hchild]
      exact if_pos ⟨rfl, by simpa [newEntry] using hdot⟩
    rw [htally child, hw]
    omega

theorem delete_tree (h : evfsDentryDelete sb c s dir name = .ret s' 0) (ht : Rooted sb s) :
    (Harmless sb s (.dentryDelete dir name) → Rooted sb s') ∧
      ((∀ child, lookup sb s dir name = some child → s.bitmap child = true) →
        ¬ Harmless sb s (.dentryDelete dir name) → ¬ Rooted sb s') := by
  obtain ⟨hf, hd, hdir⟩ := delete_edit h
  obtain ⟨hlegal, hisDir⟩ := hdir rfl
  rcases hd.tally with ⟨-, hret⟩ | ⟨de, hmatch, hlook, htally⟩
  · exact absurd rfl hret
  have h0 : de.inode ≠ 0 := ext4Match_inode hmatch
  have hname : de.name = name := by simpa [ext4Match, h0] using hmatch
  constructor
  · intro hok
    refine ht.of_keeps hf (keeps_of_frame hf fun i hi hne => ?_)
    have hw : weigh (leading i) de = 0 := by
      refine weigh_leading_of_free hi hne (hok.imp (fun hdot => ?_) fun hfree => hfree _ hlook)
      rw [hname]
      exact hdot
    rw [htally (leading i), hw, Nat.add_zero]
  · intro hbit hok
    obtain ⟨hdot, hfree⟩ := not_or.mp hok
    have hfree : ¬ Free s de.inode := fun hfree => hok (.inr fun child hc => by
      rwa [Option.some.inj (hc.symm.trans hlook)])
    obtain ⟨hused, hne⟩ := used_of_not_free hfree (hbit _ hlook)
    refine not_tree ht hf (sb.legal_le _ hlegal).2 hisDir hused hne ?_
    have hw : weigh (leading de.inode) de = 1 := by
      rw [weigh_leading h0, hname]
      exact if_pos ⟨rfl, by simpa using hdot⟩
    have := htally (leading de.inode)
    omega

/-- The names after a record has been rewritten. -/
theorem tally_rewritten {k new : ℕ} {de : DirEntry} {d : Dir} (hde : (d.block 0)[k]? = some de)
    (hlive : de.inode ≠ 0) (hlegal : sb.legal new = true) (i : ℕ) :
    tally (leading i) (rewritten d new k) + (if de.inode = i ∧ isDot de.name = false then 1 else 0)
      = tally (leading i) d + if new = i ∧ isDot de.name = false then 1 else 0 := by
  have hmod : new % 2 ^ 32 = new := by
    have := sb.legal_le _ hlegal
    have := sb.count_lt
    exact Nat.mod_eq_of_lt (by omega)
  have h := tally_retarget hde new (leading i)
  have hnew : ({ de with inode := new % 2 ^ 32 } : DirEntry).inode ≠ 0 := by
    change new % 2 ^ 32 ≠ 0
    rw [hmod]
    exact (sb.legal_le _ hlegal).1.ne'
  rw [weigh_leading hlive, weigh_leading hnew, hmod] at h
  exact h

theorem update_tree {index new : ℕ} (h : evfsDentryUpdate sb c s dir index new = .ret s' ret)
    (ht : Rooted sb s) (hok : Harmless sb s (.dentryUpdate dir index new)) : Rooted sb s' := by
  obtain ⟨hf, hd, -⟩ := update_edit h
  refine ht.of_keeps hf (keeps_of_frame hf fun i hi hne => ?_)
  cases hd with
  | kept hd => rw [hd]
  | @changed k de hk hde hlive hlegal hd =>
    have htally := tally_rewritten hde hlive hlegal i
    have hfree : ∀ {j}, Free s j → j ≠ i := by
      rintro j (hroot | hfile) rfl
      · exact hne hroot
      · rw [hfile] at hi
        cases hi
    rw [hd]
    rcases hok k de hk hde with hdot | hsame | ⟨hold, hnew⟩
    · simp only [hdot] at htally
      simpa using htally
    · rw [hsame] at htally
      omega
    · rw [if_neg fun h => hfree hold h.1, if_neg fun h => hfree hnew h.1] at htally
      exact htally

theorem update_not_tree {index new : ℕ} {de : DirEntry} (hl : Lands sb c s dir index new de)
    (h : evfsDentryUpdate sb c s dir index new = .ret s' ret) (ht : Rooted sb s)
    (hold : s.bitmap de.inode = true) (hnew : s.bitmap new = true)
    (hok : ¬ Harmless sb s (.dentryUpdate dir index new)) : ¬ Rooted sb s' := by
  obtain ⟨hf, -, -⟩ := update_edit h
  obtain ⟨s'', k, hret, hde, hdir⟩ := hl.rewrites
  obtain rfl := Steps.ret_state (hret.symm.trans h)
  have hle := (sb.legal_le _ hl.readDir.legal).2
  have hlive : de.inode ≠ 0 := (sb.legal_le _ hl.readOld.legal).1.ne'
  -- the record the index leads to is `de`
  have hcase : ¬ (isDot de.name = true ∨ de.inode = new ∨ (Free s de.inode ∧ Free s new)) := by
    intro hcase
    refine hok fun k' de' hk' hde' => ?_
    obtain ⟨k'', hk'', hde''⟩ := hl.record
    obtain rfl := Option.some.inj (hk''.symm.trans hk')
    rwa [Option.some.inj (hde'.symm.trans hde'')]
  have hdot : isDot de.name = false := by
    by_contra hdot
    exact hcase (.inl (by simpa using hdot))
  have hne : de.inode ≠ new := fun h => hcase (.inr (.inl h))
  by_cases hfree : Free s de.inode
  · have hfree' : ¬ Free s new := fun h => hcase (.inr (.inr ⟨hfree, h⟩))
    obtain ⟨hused, hroot⟩ := used_of_not_free hfree' hnew
    refine not_tree ht hf hle hl.isDir hused hroot ?_
    have htally := tally_rewritten hde hlive hl.readNew.legal new
    rw [if_neg fun h => hne h.1, if_pos ⟨rfl, hdot⟩] at htally
    rw [hdir]
    omega
  · obtain ⟨hused, hroot⟩ := used_of_not_free hfree hold
    refine not_tree ht hf hle hl.isDir hused hroot ?_
    have htally := tally_rewritten hde hlive hl.readNew.legal de.inode
    rw [if_pos ⟨rfl, hdot⟩, if_neg fun h => hne h.1.symm] at htally
    rw [hdir]
    omega

theorem step_tree {e : Event} (h : Step sb s e s') (hs : Succeeds e) (hok : StepHarmless sb s e)
    (ht : Rooted sb s) : Rooted sb s' := by
  obtain ⟨op, c, ret⟩ := e
  obtain ⟨hret, hop⟩ := hs
  obtain rfl : ret = 0 := hret
  cases op with
  | dentryAdd parent child name => exact (add_tree hok.2 h ht).1 hok.1
  | dentryDelete dir name => exact (delete_tree h ht).1 hok.1
  | dentryUpdate dir index new => exact update_tree h ht hok.1
  | _ => exact hop.elim

theorem step_not_tree {e : Event} (h : Step sb s e s') (hs : Succeeds e) (hp : Plain sb s e)
    (hok : ¬ StepHarmless sb s e) (ht : Rooted sb s) : ¬ Rooted sb s' := by
  obtain ⟨op, c, ret⟩ := e
  obtain ⟨hret, hop⟩ := hs
  obtain rfl : ret = 0 := hret
  cases op with
  | dentryAdd parent child name =>
    exact (add_tree hp.1 h ht).2 hp.2 fun hh => hok ⟨hh, hp.1⟩
  | dentryDelete dir name => exact (delete_tree h ht).2 hp fun hh => hok ⟨hh, trivial⟩
  | dentryUpdate dir index new =>
    obtain ⟨de, hl, hold, hnew⟩ := hp
    exact update_not_tree hl h ht hold hnew fun hh => hok ⟨hh, trivial⟩
  | _ => exact hop.elim

/-- **The hierarchy.** It stays a tree in every run of successful calls that are harmless. A successful call
about inodes in use keeps it a tree exactly if it is harmless. -/
theorem evfsDentry_tree (sb : Sb) :
    (∀ (s : Fs) (l : List (Event × Fs)), Run (Step sb) s l → Rooted sb s →
      Along (fun _ e => Succeeds e) s l → Along (StepHarmless sb) s l → ∀ x ∈ l, Rooted sb x.2) ∧
    ∀ (s s' : Fs) (e : Event), Step sb s e s' → Rooted sb s → Succeeds e → Plain sb s e →
      (Rooted sb s' ↔ StepHarmless sb s e) := by
  constructor
  · intro s l hrun ht hs hok
    exact hrun.invariant (P := fun s e => Succeeds e ∧ StepHarmless sb s e) (I := Rooted sb)
      (fun h hp ht => step_tree h hp.1 hp.2 ht) ht (hs.and hok)
  · intro s s' e h ht hs hp
    refine ⟨fun ht' => ?_, fun hok => step_tree h hs hok ht⟩
    by_contra hok
    exact step_not_tree h hs hp hok ht ht'

/-! ### A directory below itself -/

theorem treeFs_used (h : Used treeFs i) : i = 2 ∨ i = 12 ∨ i = 13 := by
  have := h.1
  simp only [treeFs, Bool.or_eq_true, decide_eq_true_eq] at this
  omega

theorem treeFs_tree : Rooted smallSb treeFs where
  once i hi hne := by
    rcases treeFs_used hi with rfl | rfl | rfl
    · exact absurd rfl hne
    · decide
    · decide
  up i hi := by
    have h12 : Relation.ReflTransGen (Parent treeFs) 12 EXT4_ROOT_INO :=
      .single (by unfold Parent; decide)
    rcases treeFs_used hi with rfl | rfl | rfl
    · exact .refl
    · exact h12
    · exact .head (by unfold Parent; decide) h12

/-- **The condition is needed.** The directory 12 is added to 13, which is below it. -/
theorem evfsDentryAdd_cycle :
    Rooted smallSb treeFs ∧ Succeeds (succeeds (.dentryAdd 13 12 [120])) ∧
      returns smallSb treeFs [succeeds (.dentryAdd 13 12 [120])] = true ∧
      ¬ Rooted smallSb (next smallSb treeFs (succeeds (.dentryAdd 13 12 [120]))) := by
  refine ⟨treeFs_tree, ⟨rfl, trivial⟩, by decide, fun ht => ?_⟩
  have hone := ht.once 12 ⟨by decide, by decide⟩ (by decide)
  exact absurd hone (by decide)

/-- The file system with a file 14. -/
def fileFs : Fs := (treeFs.setIno 14 newInode).setBit 14 true

theorem fileFs_tree : Rooted smallSb fileFs := by
  have hused : ∀ {i}, Used fileFs i → i = 2 ∨ i = 12 ∨ i = 13 := by
    intro i hi
    have hne : i ≠ 14 := by
      rintro rfl
      exact absurd hi.2 (by decide)
    refine treeFs_used ⟨?_, ?_⟩
    · exact (setBit_ne true hne).symm.trans hi.1
    · have hino : (treeFs.setIno 14 newInode).ino i = treeFs.ino i := setIno_ne _ hne
      have hdir := hi.2
      unfold Fs.isDir at hdir ⊢
      rw [← hino]
      exact hdir
  have h12 : Relation.ReflTransGen (Parent fileFs) 12 EXT4_ROOT_INO :=
    .single (by unfold Parent; decide)
  refine ⟨fun i hi hne => ?_, fun i hi => ?_⟩
  · rcases hused hi with rfl | rfl | rfl
    · exact absurd rfl hne
    · decide
    · decide
  · rcases hused hi with rfl | rfl | rfl
    · exact .refl
    · exact h12
    · exact .head (by unfold Parent; decide) h12

/-- The file gets a name and loses it. -/
def visit : List Event := [succeeds (.dentryAdd 13 14 [120]), succeeds (.dentryDelete 13 [120])]

theorem quiet_addPlain {s : Fs} {p : ℕ} (h : ∀ x ∈ (s.ino p).dir.blocks, ∀ de ∈ x, de.name ≠ []) :
    AddPlain quietCalls s p :=
  ⟨fun _ _ => rfl, nofun, fun x hx de hde _ => h x hx de hde⟩

theorem evfsDentry_tree_visit :
    (returns smallSb fileFs visit = true ∧ ∀ x ∈ trace smallSb fileFs visit, Rooted smallSb x.2) ∧
      (Rooted smallSb (next smallSb treeFs (succeeds (.dentryAdd 13 12 [120]))) ↔
        StepHarmless smallSb treeFs (succeeds (.dentryAdd 13 12 [120]))) := by
  have hret : returns smallSb fileFs visit = true := by decide
  obtain ⟨hruns, hexact⟩ := evfsDentry_tree smallSb
  refine ⟨⟨hret, hruns fileFs _ (run_trace hret) fileFs_tree ?_ ?_⟩,
    hexact treeFs _ _ (step_next (by decide)) treeFs_tree ⟨rfl, trivial⟩
      ⟨quiet_addPlain (by decide), by decide⟩⟩
  · exact ⟨⟨rfl, trivial⟩, ⟨rfl, trivial⟩, trivial⟩
  · refine ⟨⟨.inr (.inr (by decide)), quiet_addPlain (by decide)⟩, ⟨.inr fun child hc => ?_, trivial⟩,
      trivial⟩
    obtain rfl : 14 = child := Option.some.inj (Eq.trans (by decide) hc)
    exact .inr (by decide)

end LinuxEvfs.Namespace.Tree
