import LinuxEvfs.Htree.Model
import LinuxEvfs.Namespace.Block

/-! # Leaves

A leaf is a list of records that tile its block, each long enough for its name, of which only the first one may be
dead: a deletion gives the room of a record to the record before it.

* `search_ne_bad`, `search_none`: `ext4_search_dir` finds a name that a leaf has.
* `findDest_spec`: `ext4_find_dest_de` gives up a leaf that has the name, or no room for it.
* `IsLeaf.insert`, `IsLeaf.delete`: insertions and deletions keep a leaf, and change its live records by one.
* `IsLeaf.two_live`: a leaf without room has two live records at least. -/

namespace LinuxEvfs.Htree.Leaves

open LinuxEvfs.Errno LinuxEvfs.Namespace.Dir LinuxEvfs.Namespace.Entries LinuxEvfs.Namespace.Block
open LinuxEvfs.Htree.Model

/-- A record with an inode number, a length and a name that `ext4_check_dir_entry` accepts. -/
structure Sound (sb : DxSb) (de : DirEntry) : Prop where
  aligned : 4 ∣ de.recLen
  twelve : 12 ≤ de.recLen
  large : ext4DirRecLen de.name.length ≤ de.recLen
  name : de.inode ≠ 0 → 1 ≤ de.name.length ∧ de.name.length ≤ 255
  inode : de.inode ≤ sb.inodesCount

/-- What is taken for granted of a file system: the size of its blocks, and that `ext4_check_dir_entry` accepts sound
records that end with the buffer or leave room for another one. -/
structure Usual (sb : DxSb) : Prop where
  blocksize : 1024 ≤ sb.blocksize
  aligned : 4 ∣ sb.blocksize
  accepts : ∀ size offset de, Sound sb de → offset + de.recLen = size ∨ offset + de.recLen + 12 ≤ size →
    sb.checkDirEntry size offset de = false

/-- The bytes that records take. -/
def used : DirBlock → ℕ
  | [] => 0
  | de :: rest => de.recLen + used rest

/-- The records of a leaf. -/
structure IsLeaf (sb : DxSb) (b : DirBlock) : Prop where
  sound : ∀ de ∈ b, Sound sb de
  tiles : used b = sb.bufSize
  rest : ∀ de ∈ b.tail, de.inode ≠ 0

/-- A record without its length. -/
def bare (de : DirEntry) : DirEntry := { de with recLen := 0 }

/-- The live records. -/
def liveRecs (b : DirBlock) : List DirEntry := (b.filter fun de => de.inode ≠ 0).map bare

/-- An entry that can be added. -/
structure Addable (sb : DxSb) (e : DirEntry) : Prop where
  inode : e.inode ≠ 0
  inode_le : e.inode ≤ sb.inodesCount
  pos : 1 ≤ e.name.length
  le : e.name.length ≤ 255

variable {sb : DxSb} {b b' l r : DirBlock} {de e p : DirEntry} {name : Name} {offset k n : ℕ}

/-! ### Records and bytes -/

@[simp] theorem used_nil : used [] = 0 := rfl

@[simp] theorem used_cons : used (de :: b) = de.recLen + used b := rfl

@[simp] theorem used_append (b b' : DirBlock) : used (b ++ b') = used b + used b' := by
  induction b with
  | nil => simp
  | cons de b ih => simp [ih, Nat.add_assoc]

@[simp] theorem live_nil : liveRecs [] = [] := rfl

theorem live_cons_live (h : de.inode ≠ 0) : liveRecs (de :: b) = bare de :: liveRecs b := by
  simp [liveRecs, h]

theorem live_cons_dead (h : de.inode = 0) : liveRecs (de :: b) = liveRecs b := by
  simp [liveRecs, h]

@[simp] theorem live_append (b b' : DirBlock) : liveRecs (b ++ b') = liveRecs b ++ liveRecs b' := by
  simp [liveRecs]

/-- The length of a record does not count. -/
theorem live_recLen (de : DirEntry) (n : ℕ) (b : DirBlock) : liveRecs ({ de with recLen := n } :: b) = liveRecs (de :: b) := by
  by_cases h : de.inode = 0
  · rw [live_cons_dead h]
    exact live_cons_dead h
  · rw [live_cons_live h]
    exact live_cons_live h

theorem live_of_forall (h : ∀ de ∈ b, de.inode ≠ 0) : liveRecs b = b.map bare := by
  rw [liveRecs, List.filter_eq_self.mpr fun de hde => by simpa using h de hde]

theorem mem_live (h : de ∈ b) (h0 : de.inode ≠ 0) : bare de ∈ liveRecs b :=
  List.mem_map_of_mem (List.mem_filter.mpr ⟨h, by simpa using h0⟩)

theorem exists_of_mem_live {x : DirEntry} (h : x ∈ liveRecs b) : ∃ de ∈ b, de.inode ≠ 0 ∧ bare de = x := by
  obtain ⟨de, hde, rfl⟩ := List.mem_map.mp h
  obtain ⟨hmem, h0⟩ := List.mem_filter.mp hde
  exact ⟨de, hmem, by simpa using h0, rfl⟩

theorem ext4DirRecLen_mono {m n : ℕ} (h : m ≤ n) : ext4DirRecLen m ≤ ext4DirRecLen n :=
  Nat.mul_le_mul_right 4 (Nat.div_le_div_right (by omega))

theorem ext4DirRecLen_le (h : n ≤ 255) : ext4DirRecLen n ≤ 264 := ext4DirRecLen_mono h

theorem ext4DirRecLen_ge (h : 1 ≤ n) : 12 ≤ ext4DirRecLen n := ext4DirRecLen_mono h

theorem recLen_le_used (h : de ∈ b) : de.recLen ≤ used b := by
  obtain ⟨l, r, rfl⟩ := List.append_of_mem h
  simp only [used_append, used_cons]
  omega

theorem twelve_le_used (hb : ∀ de ∈ b, Sound sb de) (hne : b ≠ []) : 12 ≤ used b := by
  obtain ⟨de, rest, rfl⟩ := List.exists_cons_of_ne_nil hne
  have := (hb de List.mem_cons_self).twelve
  rw [used_cons]
  omega

/-- A record ends with the tiling or leaves room for another one. -/
theorem ends (hb : ∀ de ∈ b, Sound sb de) (h : offset + used (de :: b) = n) :
    offset + de.recLen = n ∨ offset + de.recLen + 12 ≤ n := by
  rw [used_cons] at h
  by_cases hne : b = []
  · rw [hne] at h
    exact .inl (by simpa using h)
  · have := twelve_le_used hb hne
    exact .inr (by omega)

theorem Usual.bufSize (h : Usual sb) : sb.bufSize = sb.blocksize ∨ sb.bufSize + 12 = sb.blocksize := by
  have := h.blocksize
  unfold Sb.bufSize Sb.csumSize
  split_ifs
  · exact .inr (by omega)
  · exact .inl (by omega)

theorem Usual.bufSize_ge (h : Usual sb) : 1012 ≤ sb.bufSize ∧ sb.bufSize ≤ sb.blocksize := by
  have := h.blocksize
  rcases h.bufSize with hb | hb <;> omega

theorem Usual.accepts_bufSize (h : Usual sb) (hde : Sound sb de) (hb : ∀ de ∈ b, Sound sb de)
    (hoff : offset + used (de :: b) = sb.bufSize) : sb.checkDirEntry sb.bufSize offset de = false :=
  h.accepts _ _ _ hde (ends hb hoff)

theorem Usual.accepts_blocksize (h : Usual sb) (hde : Sound sb de) (hb : ∀ de ∈ b, Sound sb de)
    (hoff : offset + used (de :: b) = sb.bufSize) : sb.checkDirEntry sb.blocksize offset de = false := by
  refine h.accepts _ _ _ hde ?_
  rcases ends hb hoff with he | he <;> rcases h.bufSize with hs | hs <;> omega

theorem IsLeaf.ne_nil (h : IsLeaf sb b) (hsb : Usual sb) : b ≠ [] := by
  rintro rfl
  have h1 := h.tiles
  have h2 := hsb.bufSize_ge.1
  rw [used_nil] at h1
  omega

/-! ### Searching -/

theorem search_spec (hsb : Usual sb) : ∀ {offset : ℕ} {b : DirBlock}, (∀ de ∈ b, Sound sb de) →
    offset + used b = sb.bufSize → ext4SearchDir sb.toSb name offset b ≠ .bad ∧
      (ext4SearchDir sb.toSb name offset b = .none → ∀ de ∈ b, ext4Match name de = false)
  | _, [], _, _ => ⟨by simp [ext4SearchDir], fun _ de hde => absurd hde List.not_mem_nil⟩
  | offset, de :: rest, hb, hoff => by
    rw [List.forall_mem_cons] at hb
    have hgood := hsb.accepts_blocksize hb.1 hb.2 hoff
    rw [used_cons, ← Nat.add_assoc] at hoff
    obtain ⟨ih1, ih2⟩ := search_spec hsb hb.2 hoff
    have hbuf := hsb.bufSize_ge.2
    have htwelve := hb.1.twelve
    have hlarge := hb.1.large
    have hname : offset + 8 + de.name.length ≤ sb.blocksize := by
      unfold ext4DirRecLen at hlarge
      omega
    have hin : ¬ sb.blocksize ≤ offset + 8 := by omega
    have hpos : ¬ de.recLen = 0 := by omega
    unfold ext4SearchDir
    rw [if_neg hin]
    by_cases hm : ext4Match name de = true
    · rw [if_pos ⟨hname, hm⟩, if_neg (by simp [hgood])]
      exact ⟨by simp, by simp⟩
    · rw [if_neg fun h => hm h.2, if_neg hpos]
      cases hrec : ext4SearchDir sb.toSb name (offset + de.recLen) rest with
      | found k => exact ⟨by simp [Search.next], by simp [Search.next]⟩
      | bad => exact absurd hrec ih1
      | none =>
        refine ⟨by simp [Search.next], fun _ => List.forall_mem_cons.mpr ⟨by simpa using hm, ih2 hrec⟩⟩

theorem search_ne_bad (hsb : Usual sb) (hb : IsLeaf sb b) : ext4SearchDir sb.toSb name 0 b ≠ .bad :=
  (search_spec hsb hb.sound (by rw [Nat.zero_add, hb.tiles])).1

theorem search_none (hsb : Usual sb) (hb : IsLeaf sb b) (h : ext4SearchDir sb.toSb name 0 b = .none) :
    ∀ de ∈ b, ext4Match name de = false :=
  (search_spec hsb hb.sound (by rw [Nat.zero_add, hb.tiles])).2 h

/-- The room that an entry needs at a record. -/
def taken (de : DirEntry) : ℕ := if de.inode ≠ 0 then ext4DirRecLen de.name.length else 0

theorem findDest_spec (hsb : Usual sb) : ∀ {offset : ℕ} {b : DirBlock} {err : Errno}, (∀ de ∈ b, Sound sb de) →
    offset + used b = sb.bufSize → ext4FindDestDe sb.toSb name offset b = .error err →
      (err = EEXIST ∧ ∃ de ∈ b, ext4Match name de = true) ∨
      (err = ENOSPC ∧ ∀ de ∈ b, de.recLen < ext4DirRecLen name.length + taken de ∧ ext4Match name de = false)
  | _, [], _, _, _, h => by
    obtain rfl := Except.error.inj h
    exact .inr ⟨rfl, fun de hde => absurd hde List.not_mem_nil⟩
  | offset, de :: rest, err, hb, hoff, h => by
    have hall := hb
    rw [List.forall_mem_cons] at hb
    have hgood := hsb.accepts_bufSize hb.1 hb.2 hoff
    unfold ext4FindDestDe at h
    by_cases htop : sb.bufSize < offset + ext4DirRecLen name.length
    · -- what is behind the last place for the name is shorter than it
      rw [if_pos htop] at h
      obtain rfl := Except.error.inj h
      refine .inr ⟨rfl, fun de' hde' => ?_⟩
      have hle := recLen_le_used hde'
      have hlt : de'.recLen < ext4DirRecLen name.length := by omega
      refine ⟨by omega, ?_⟩
      by_contra hm
      have hm' : de'.name = name := by
        have := Bool.not_eq_false _ ▸ hm
        simp only [ext4Match, Bool.and_eq_true, decide_eq_true_eq] at this
        exact this.2
      have := (hall de' hde').large
      rw [hm'] at this
      omega
    rw [if_neg htop, if_neg (by simp [hgood])] at h
    by_cases hm : ext4Match name de = true
    · rw [if_pos hm] at h
      obtain rfl := Except.error.inj h
      exact .inl ⟨rfl, de, List.mem_cons_self, hm⟩
    rw [if_neg hm] at h
    change (if ext4DirRecLen name.length + taken de ≤ de.recLen then _ else _) = _ at h
    by_cases hroom : ext4DirRecLen name.length + taken de ≤ de.recLen
    · rw [if_pos hroom] at h
      cases h
    rw [if_neg hroom] at h
    cases hrec : ext4FindDestDe sb.toSb name (offset + de.recLen) rest with
    | ok k => rw [hrec] at h; cases h
    | error err' =>
      rw [hrec] at h
      obtain rfl := Except.error.inj h
      rw [used_cons, ← Nat.add_assoc] at hoff
      rcases findDest_spec hsb hb.2 hoff hrec with ⟨rfl, de', hde', hm'⟩ | ⟨rfl, hfull⟩
      · exact .inl ⟨rfl, de', List.mem_cons_of_mem _ hde', hm'⟩
      · refine .inr ⟨rfl, List.forall_mem_cons.mpr ⟨⟨by omega, by simpa using hm⟩, hfull⟩⟩

/-! ### Insertions -/

theorem insertAt_append : ∀ (l : DirBlock), insertAt e l.length (l ++ de :: r) = l ++ (ext4InsertDentry e de ++ r)
  | [] => rfl
  | x :: l => by
    rw [List.cons_append, List.length_cons, insertAt, insertAt_append l, List.cons_append]

/-- What an insertion makes of the record it is given. -/
theorem insertDentry_spec (hde : Sound sb de) (he : Addable sb e)
    (hroom : ext4DirRecLen e.name.length + taken de ≤ de.recLen) :
    (∀ x ∈ ext4InsertDentry e de, Sound sb x ∧ x.inode ≠ 0) ∧ used (ext4InsertDentry e de) = de.recLen ∧
      (liveRecs (ext4InsertDentry e de)).Perm (bare e :: liveRecs [de]) := by
  have hlen := ext4DirRecLen_ge he.pos
  unfold ext4InsertDentry
  unfold taken at hroom
  by_cases h : de.inode ≠ 0
  · rw [if_pos h] at hroom ⊢
    have hnew : Sound sb { e with recLen := de.recLen - ext4DirRecLen de.name.length } :=
      ⟨Nat.dvd_sub hde.aligned (dvd_ext4DirRecLen _), by dsimp only; omega, by dsimp only; omega,
        fun _ => ⟨he.pos, he.le⟩, he.inode_le⟩
    have hold : Sound sb { de with recLen := ext4DirRecLen de.name.length } :=
      ⟨dvd_ext4DirRecLen _, ext4DirRecLen_ge (hde.name h).1, le_rfl, hde.name, hde.inode⟩
    refine ⟨?_, by simp only [used_cons, used_nil]; omega, ?_⟩
    · simp only [List.forall_mem_cons, List.not_mem_nil, IsEmpty.forall_iff, implies_true, and_true]
      exact ⟨⟨hold, h⟩, hnew, he.inode⟩
    · rw [live_recLen, live_cons_live h, live_recLen, live_cons_live he.inode, live_cons_live h]
      exact List.Perm.swap _ _ _
  · rw [if_neg h] at hroom ⊢
    have h0 : de.inode = 0 := not_not.mp h
    have hnew : Sound sb { e with recLen := de.recLen } :=
      ⟨hde.aligned, hde.twelve, by dsimp only; omega, fun _ => ⟨he.pos, he.le⟩, he.inode_le⟩
    refine ⟨?_, by simp, ?_⟩
    · simp only [List.forall_mem_cons, List.not_mem_nil, IsEmpty.forall_iff, implies_true, and_true]
      exact ⟨hnew, he.inode⟩
    · rw [live_recLen, live_cons_live he.inode, live_cons_dead h0]

/-- A list cut at the element with the number `k`. -/
theorem exists_cut (hk : b[k]? = some de) : ∃ l r, b = l ++ de :: r ∧ l.length = k := by
  obtain ⟨hlt, rfl⟩ := List.getElem?_eq_some_iff.mp hk
  refine ⟨b.take k, b.drop (k + 1), ?_, by simp; omega⟩
  rw [← List.drop_eq_getElem_cons hlt, List.take_append_drop]

/-- **An insertion** at a record with room keeps the leaf and adds the entry. -/
theorem IsLeaf.insert (hb : IsLeaf sb b) (he : Addable sb e) (hk : b[k]? = some de)
    (hroom : ext4DirRecLen e.name.length + taken de ≤ de.recLen) :
    IsLeaf sb (insertAt e k b) ∧ (liveRecs (insertAt e k b)).Perm (bare e :: liveRecs b) := by
  obtain ⟨l, r, rfl, rfl⟩ := exists_cut hk
  obtain ⟨hs, hu, hv⟩ := insertDentry_spec (hb.sound de (by simp)) he hroom
  rw [insertAt_append]
  obtain ⟨hsound, htiles, hrest⟩ := hb
  rw [List.forall_mem_append, List.forall_mem_cons] at hsound
  simp only [used_append, used_cons] at htiles
  refine ⟨⟨?_, ?_, ?_⟩, ?_⟩
  · simp only [List.forall_mem_append]
    exact ⟨hsound.1, fun x hx => (hs x hx).1, hsound.2.2⟩
  · simp only [used_append, hu]
    omega
  · -- the record and the entry are live both, or only the entry is there
    have hnew : ∀ x ∈ ext4InsertDentry e de, x.inode ≠ 0 := fun x hx => (hs x hx).2
    cases l with
    | nil =>
      intro x hx
      rw [List.nil_append] at hx
      exact (List.mem_append.mp (List.mem_of_mem_tail hx)).elim (hnew x) (hrest x)
    | cons y l =>
      simp only [List.cons_append, List.tail_cons, List.forall_mem_append, List.forall_mem_cons] at hrest ⊢
      exact ⟨hrest.1, hnew, hrest.2.2⟩
  · simp only [live_append]
    refine ((hv.append_right _).append_left _).trans ?_
    rw [List.cons_append, ← live_append, List.singleton_append]
    exact List.perm_middle

/-! ### Deletions -/

theorem deleteBehind_eq (hsb : Usual sb) : ∀ {l : DirBlock} {offset : ℕ} {p : DirEntry},
    (∀ x ∈ l ++ de :: r, Sound sb x) → offset + used (l ++ de :: r) = sb.bufSize →
      ∃ l' q, p :: l = l' ++ [q] ∧ deleteBehind sb.toSb l.length offset p (l ++ de :: r)
        = .ok (l' ++ { q with recLen := q.recLen + de.recLen } :: r)
  | [], offset, p, hs, hoff => by
    rw [List.nil_append, List.forall_mem_cons] at hs
    refine ⟨[], p, rfl, ?_⟩
    have hgood := hsb.accepts_blocksize hs.1 hs.2 hoff
    have htwelve := hs.1.twelve
    rw [List.nil_append, used_cons] at hoff
    simp only [List.nil_append, List.length_nil, deleteBehind]
    rw [if_neg (by omega), if_neg (by simp [hgood])]
  | x :: l, offset, p, hs, hoff => by
    rw [List.cons_append, List.forall_mem_cons] at hs
    have hgood := hsb.accepts_blocksize hs.1 hs.2 hoff
    have htwelve := hs.1.twelve
    rw [List.cons_append, used_cons, ← Nat.add_assoc] at hoff
    obtain ⟨l', q, hl', heq⟩ := deleteBehind_eq hsb (p := x) hs.2 hoff
    refine ⟨p :: l', q, by rw [hl', List.cons_append], ?_⟩
    simp only [List.cons_append, List.length_cons, deleteBehind]
    rw [if_neg (by omega), if_neg (by simp [hgood]), heq]
    rfl

/-- The record before takes over the room of a record that is deleted. -/
theorem IsLeaf.merge (hb : IsLeaf sb (l ++ p :: de :: r)) :
    IsLeaf sb (l ++ { p with recLen := p.recLen + de.recLen } :: r) := by
  obtain ⟨hs, ht, hrest⟩ := hb
  simp only [List.forall_mem_append, List.forall_mem_cons] at hs
  obtain ⟨hl, hp, hde, hr⟩ := hs
  refine ⟨?_, ?_, ?_⟩
  · simp only [List.forall_mem_append, List.forall_mem_cons]
    refine ⟨hl, ⟨Nat.dvd_add hp.aligned hde.aligned, ?_, ?_, hp.name, hp.inode⟩, hr⟩
    · exact hp.twelve.trans (Nat.le_add_right _ _)
    · exact hp.large.trans (Nat.le_add_right _ _)
  · simp only [used_append, used_cons] at ht ⊢
    omega
  · cases l with
    | nil =>
      simp only [List.nil_append, List.tail_cons, List.forall_mem_cons] at hrest ⊢
      exact hrest.2
    | cons y l =>
      simp only [List.cons_append, List.tail_cons, List.forall_mem_append, List.forall_mem_cons] at hrest ⊢
      exact ⟨hrest.1, hrest.2.1, hrest.2.2.2⟩

/-- The deletion of a record that is not the first one. -/
theorem delete_eq (hsb : Usual sb) (hb : IsLeaf sb (p :: l ++ de :: r)) :
    ∃ l' q, p :: l = l' ++ [q] ∧ ext4GenericDeleteEntry sb.toSb (l.length + 1) (p :: l ++ de :: r)
      = .ok (l' ++ { q with recLen := q.recLen + de.recLen } :: r) := by
  have hbuf := hsb.bufSize_ge.1
  have hall := hb.sound
  have htiles := hb.tiles
  rw [List.cons_append] at hall htiles
  rw [List.forall_mem_cons] at hall
  have hgood := hsb.accepts_blocksize hall.1 hall.2 ((Nat.zero_add _).trans htiles)
  rw [used_cons] at htiles
  obtain ⟨l', q, hl', heq⟩ := deleteBehind_eq hsb (p := p) hall.2 htiles
  refine ⟨l', q, hl', ?_⟩
  simp only [List.cons_append, ext4GenericDeleteEntry]
  rw [if_neg (by omega), if_neg (by simp [hgood])]
  exact heq

/-- **A deletion** of a live record succeeds, keeps the leaf and takes the record away. -/
theorem IsLeaf.delete (hsb : Usual sb) (hb : IsLeaf sb b) (hk : b[k]? = some de) (h0 : de.inode ≠ 0) :
    ∃ b', ext4GenericDeleteEntry sb.toSb k b = .ok b' ∧ IsLeaf sb b' ∧
      (liveRecs b).Perm (bare de :: liveRecs b') := by
  have hbuf := hsb.bufSize_ge.1
  obtain ⟨l, r, rfl, rfl⟩ := exists_cut hk
  have hall := hb.sound
  have htiles := hb.tiles
  cases l with
  | nil =>
    rw [List.nil_append] at hall htiles hb ⊢
    rw [List.forall_mem_cons] at hall
    have hgood := hsb.accepts_blocksize hall.1 hall.2 ((Nat.zero_add _).trans htiles)
    refine ⟨wiped de.recLen :: r, ?_, ⟨?_, htiles, hb.rest⟩, ?_⟩
    · simp only [List.length_nil, ext4GenericDeleteEntry]
      rw [if_neg (by omega), if_neg (by simp [hgood])]
    · refine List.forall_mem_cons.mpr ⟨⟨hall.1.aligned, hall.1.twelve, ?_, fun h => absurd rfl h, Nat.zero_le _⟩, hall.2⟩
      exact (ext4DirRecLen_mono (Nat.zero_le _)).trans hall.1.large
    · have hdead : liveRecs (wiped de.recLen :: r) = liveRecs r := live_cons_dead rfl
      rw [live_cons_live h0, hdead]
  | cons p l =>
    obtain ⟨l', q, hl', heq⟩ := delete_eq hsb hb
    refine ⟨l' ++ { q with recLen := q.recLen + de.recLen } :: r, heq, ?_, ?_⟩
    · rw [hl', List.append_assoc] at hb
      exact hb.merge
    · have hq : liveRecs (l' ++ { q with recLen := q.recLen + de.recLen } :: r) = liveRecs (p :: l) ++ liveRecs r := by
        rw [hl', live_append, live_recLen, live_append, List.append_assoc]
        exact congrArg _ (live_append [q] r)
      rw [hq, live_append, live_cons_live h0]
      exact List.perm_middle

/-! ### Leaves without room -/

/-- Records without room for a name, the live ones counted. -/
theorem used_le_of_full (hs : ∀ de ∈ b, Sound sb de) (h0 : ∀ de ∈ b, de.inode ≠ 0) (hname : name.length ≤ 255)
    (hfull : ∀ de ∈ b, de.recLen < ext4DirRecLen name.length + taken de) : used b ≤ 528 * (liveRecs b).length := by
  induction b with
  | nil => exact Nat.zero_le _
  | cons de b ih =>
    rw [List.forall_mem_cons] at hs h0 hfull
    have h1 := ih hs.2 h0.2 hfull.2
    have h2 := hfull.1
    have h3 := ext4DirRecLen_le hname
    have h4 := ext4DirRecLen_le (hs.1.name h0.1).2
    rw [taken, if_pos h0.1] at h2
    rw [used_cons, live_cons_live h0.1, List.length_cons]
    omega

/-- **A leaf without room** for a name has two live records at least. -/
theorem IsLeaf.two_live (hsb : Usual sb) (hb : IsLeaf sb b) (hname : name.length ≤ 255)
    (hfull : ∀ de ∈ b, de.recLen < ext4DirRecLen name.length + taken de) : 2 ≤ (liveRecs b).length := by
  have hbuf := hsb.bufSize_ge.1
  obtain ⟨de, rest, rfl⟩ := List.exists_cons_of_ne_nil (hb.ne_nil hsb)
  have htiles := hb.tiles
  have hs := hb.sound
  have hrest := used_le_of_full (b := rest) (fun x hx => hs x (List.mem_cons_of_mem _ hx)) hb.rest hname
    fun x hx => hfull x (List.mem_cons_of_mem _ hx)
  have hlen := ext4DirRecLen_le hname
  have hde := hfull de List.mem_cons_self
  rw [used_cons] at htiles
  by_cases h0 : de.inode = 0
  · rw [taken, if_neg (not_not.mpr h0)] at hde
    rw [live_cons_dead h0]
    omega
  · have hde' := ext4DirRecLen_le ((hs de List.mem_cons_self).name h0).2
    rw [taken, if_pos h0] at hde
    rw [live_cons_live h0, List.length_cons]
    omega

end LinuxEvfs.Htree.Leaves
