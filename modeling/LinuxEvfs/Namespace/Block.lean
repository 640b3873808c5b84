import LinuxEvfs.Namespace.Dir

/-! # Well-formed blocks and their view

A well-formed block (`Formed`): records that tile the block up to the checksum tail, each long enough for
its name. Its view is the list of what `evfs_dentry_read` returns for its live records, in block order.

* `nthLive_walked`, `nthLive_view`: the walk of `evfs_dentry_read` and `evfs_dentry_update` counts along the view of
  the records it gets to, and of the block.
* `view_retarget`, `view_insertAt`, `view_delete`: an update, an insertion and a deletion change one element
  of the view, and `formed_retarget`, `formed_insertAt`, `formed_delete` the block stays well-formed.
* `ext4FindDestDe_full`: a block in which `ext4_find_dest_de` finds no room does not hold the name. -/

namespace LinuxEvfs.Namespace.Block

open LinuxEvfs.Errno LinuxEvfs.Namespace.Dir

variable (sb : Sb)

/-- A record that is aligned and long enough for its name, which has 1 to 254 bytes if it is live. -/
structure Fits (de : DirEntry) : Prop where
  aligned : 4 ∣ de.recLen
  large : ext4DirRecLen de.name.length ≤ de.recLen
  name : de.inode ≠ 0 → 1 ≤ de.name.length ∧ de.name.length ≤ 254

/-- Records from `offset` on that tile the block. -/
def Formed : ℕ → DirBlock → Prop
  | offset, [] => offset = sb.bufSize
  | offset, de :: rest => Fits de ∧ Formed (offset + de.recLen) rest

/-- What `evfs_dentry_read` copies out: the first `name_len` bytes of `out.name`, with a zero in the
last byte of the array. -/
structure DentryOut where
  inoNum : ℕ
  fileType : FileType
  name : Name
deriving DecidableEq

def readOut (de : DirEntry) : DentryOut := ⟨de.inode, de.fileType, de.name.set 254 0⟩

/-- The live records in block order, as they are read. -/
def view (b : DirBlock) : List DentryOut := (b.filter fun de => de.inode ≠ 0).map readOut

variable {sb} {offset index k new : ℕ} {b b' : DirBlock} {e de : DirEntry} {name : Name}

/-! ### The view of a list of records -/

@[simp] theorem view_nil : view [] = [] := rfl

theorem view_cons_live (h : de.inode ≠ 0) : view (de :: b) = readOut de :: view b := by
  simp [view, h]

theorem view_cons_dead (h : de.inode = 0) : view (de :: b) = view b := by
  simp [view, h]

/-- A record counts with its number, its name and its type. -/
theorem view_cons_congr {de' : DirEntry} (hi : de'.inode = de.inode) (ht : de'.fileType = de.fileType)
    (hn : de'.name = de.name) : view (de' :: b) = view (de :: b) := by
  by_cases h : de.inode = 0
  · rw [view_cons_dead h, view_cons_dead (hi.trans h)]
  · rw [view_cons_live h, view_cons_live (by rw [hi]; exact h), readOut, readOut, hi, ht, hn]

theorem view_append (b b' : DirBlock) : view (b ++ b') = view b ++ view b' := by
  simp [view]

/-! ### Offsets -/

theorem ext4DirRecLen_pos (n : ℕ) : 8 ≤ ext4DirRecLen n := by
  unfold ext4DirRecLen
  omega

theorem dvd_ext4DirRecLen (n : ℕ) : 4 ∣ ext4DirRecLen n := Nat.dvd_mul_left _ _

theorem Fits.pos (h : Fits de) : 0 < de.recLen :=
  lt_of_lt_of_le (by decide) ((ext4DirRecLen_pos _).trans h.large)

theorem Formed.le : ∀ {offset : ℕ} {b : DirBlock}, Formed sb offset b → offset ≤ sb.bufSize
  | _, [], h => Nat.le_of_eq h
  | _, _ :: _, h => (Nat.le_add_right _ _).trans h.2.le

theorem Formed.lt (h : Formed sb offset (de :: b)) : offset < sb.bufSize :=
  lt_of_lt_of_le (Nat.lt_add_of_pos_right h.1.pos) h.2.le

theorem Formed.fits : ∀ {offset : ℕ} {b : DirBlock}, Formed sb offset b → ∀ de ∈ b, Fits de
  | _, [], _, _, h => absurd h List.not_mem_nil
  | _, _ :: _, h, _, hde => by
    rcases List.mem_cons.mp hde with rfl | hde
    · exact h.1
    · exact h.2.fits _ hde

/-- A block that can be tiled with records has one. -/
theorem Formed.ne_nil (h : Formed sb offset b) (hb : b ≠ []) (h' : Formed sb offset b') : b' ≠ [] := by
  rintro rfl
  cases b with
  | nil => exact hb rfl
  | cons de rest => exact absurd h' h.lt.ne

/-- A name that leaves the last byte of the array free is read as it is. -/
theorem readOut_of_length (h : de.name.length ≤ 254) : (readOut de).name = de.name :=
  List.set_eq_of_length_le h

theorem readOut_name (h : Fits de) (hlive : de.inode ≠ 0) : (readOut de).name = de.name :=
  readOut_of_length (h.name hlive).2

/-! ### The walk to the live record number `index` -/

/-- The records that the walk gets to. -/
def walked (sb : Sb) : ℕ → DirBlock → DirBlock
  | _, [] => []
  | offset, de :: rest =>
    if sb.bufSize ≤ offset ∨ de.recLen = 0 then [] else de :: walked sb (offset + de.recLen) rest

/-- The walk ends at the live record number `index` of those it gets to. -/
theorem nthLive_walked : ∀ (offset index : ℕ) (b : DirBlock),
    ((nthLive sb offset index b).bind fun k => (b[k]?).map readOut) = (view (walked sb offset b))[index]?
  | _, _, [] => rfl
  | offset, index, de :: rest => by
    have hstep : ∀ i, (((nthLive sb (offset + de.recLen) i rest).map (· + 1)).bind
        fun k => ((de :: rest)[k]?).map readOut) = (view (walked sb (offset + de.recLen) rest))[i]? := by
      intro i
      rw [← nthLive_walked]
      cases nthLive sb (offset + de.recLen) i rest <;> rfl
    unfold nthLive walked
    by_cases hend : sb.bufSize ≤ offset
    · rw [if_pos hend, if_pos (.inl hend)]
      rfl
    by_cases hzero : de.recLen = 0
    · rw [if_neg hend, if_pos hzero, if_pos (.inr hzero)]
      rfl
    rw [if_neg hend, if_neg hzero, if_neg (not_or.mpr ⟨hend, hzero⟩)]
    by_cases hlive : de.inode ≠ 0
    · rw [if_pos hlive, view_cons_live hlive]
      cases index with
      | zero => rfl
      | succ i => exact hstep i
    · rw [if_neg hlive, view_cons_dead (not_not.mp hlive)]
      exact hstep index

theorem Formed.walked_eq : ∀ {offset : ℕ} {b : DirBlock}, Formed sb offset b → walked sb offset b = b
  | _, [], _ => rfl
  | offset, de :: rest, h => by
    rw [walked, if_neg (not_or.mpr ⟨not_le.mpr h.lt, h.1.pos.ne'⟩), Formed.walked_eq h.2]

/-- The walk ends at the element of the view. -/
theorem nthLive_view (h : Formed sb offset b) :
    ((nthLive sb offset index b).bind fun k => (b[k]?).map readOut) = (view b)[index]? := by
  rw [nthLive_walked, h.walked_eq]

/-! ### Update -/

theorem formed_retarget :
    ∀ {offset k : ℕ} {b : DirBlock}, Formed sb offset b → (∀ de, b[k]? = some de → de.inode ≠ 0) →
      Formed sb offset (retarget new k b)
  | _, _, [], h, _ => by simpa [retarget] using h
  | _, 0, de :: rest, h, hlive =>
    ⟨⟨h.1.aligned, h.1.large, fun _ => h.1.name (hlive de rfl)⟩, h.2⟩
  | _, k + 1, de :: rest, h, hlive => ⟨h.1, formed_retarget h.2 fun de' hde' => hlive de' hde'⟩

/-- An update gives the element the new number. -/
theorem view_retarget (hnew : new % 2 ^ 32 ≠ 0) :
    ∀ {offset index : ℕ} {b : DirBlock} {k : ℕ}, nthLive sb offset index b = some k →
      view (retarget new k b) = (view b).modify index fun x => { x with inoNum := new % 2 ^ 32 }
  | _, _, [], _, h => by simp [nthLive] at h
  | offset, index, de :: rest, k, h => by
    have hstep : ∀ i, (nthLive sb (offset + de.recLen) i rest).map (· + 1) = some k →
        ∃ k', k = k' + 1 ∧ view (retarget new k' rest)
          = (view rest).modify i fun x => { x with inoNum := new % 2 ^ 32 } := by
      intro i hi
      obtain ⟨k', hk', rfl⟩ := Option.map_eq_some_iff.mp hi
      exact ⟨k', rfl, view_retarget hnew hk'⟩
    unfold nthLive at h
    split_ifs at h with _ _ hlive
    · cases index with
      | zero =>
        obtain rfl := Option.some.inj h
        rw [view_cons_live hlive, List.modify_zero_cons]
        have hlive' : ({ de with inode := new % 2 ^ 32 } : DirEntry).inode ≠ 0 := hnew
        exact view_cons_live hlive'
      | succ i =>
        obtain ⟨k', rfl, hv⟩ := hstep i h
        rw [view_cons_live hlive, List.modify_succ_cons, ← hv]
        exact view_cons_live hlive
    · obtain ⟨k', rfl, hv⟩ := hstep index h
      rw [view_cons_dead (not_not.mp hlive), ← hv]
      exact view_cons_dead (not_not.mp hlive)

/-! ### Insertion -/

/-- The record `ext4_find_dest_de` returns has room behind its name. -/
theorem ext4FindDestDe_room :
    ∀ {offset : ℕ} {b : DirBlock} {k : ℕ}, ext4FindDestDe sb name offset b = .ok k →
      ∃ de, b[k]? = some de ∧ ext4DirRecLen name.length
        + (if de.inode ≠ 0 then ext4DirRecLen de.name.length else 0) ≤ de.recLen
  | _, [], _, h => by simp [ext4FindDestDe] at h
  | offset, de :: rest, k, h => by
    simp only [ext4FindDestDe] at h
    split_ifs at h
    all_goals try (obtain rfl := Except.ok.inj h; exact ⟨de, rfl, by simp_all⟩)
    all_goals
      cases hrec : ext4FindDestDe sb name (offset + de.recLen) rest with
      | error err => rw [hrec] at h; cases h
      | ok k' =>
        rw [hrec] at h
        obtain rfl := Except.ok.inj h
        obtain ⟨de', hde', hroom⟩ := ext4FindDestDe_room hrec
        exact ⟨de', hde', hroom⟩

theorem formed_insertDentry (h : Formed sb offset (de :: b))
    (hname : 1 ≤ e.name.length ∧ e.name.length ≤ 254)
    (hroom : ext4DirRecLen e.name.length
      + (if de.inode ≠ 0 then ext4DirRecLen de.name.length else 0) ≤ de.recLen) :
    Formed sb offset (ext4InsertDentry e de ++ b) := by
  unfold ext4InsertDentry
  by_cases hlive : de.inode ≠ 0
  · rw [if_pos hlive] at hroom ⊢
    have hsum : offset + ext4DirRecLen de.name.length
        + (de.recLen - ext4DirRecLen de.name.length) = offset + de.recLen := by omega
    refine ⟨⟨dvd_ext4DirRecLen _, le_rfl, h.1.name⟩,
      ⟨Nat.dvd_sub h.1.aligned (dvd_ext4DirRecLen _), ?_, fun _ => hname⟩, ?_⟩
    · change ext4DirRecLen e.name.length ≤ de.recLen - ext4DirRecLen de.name.length
      omega
    · change Formed sb (offset + ext4DirRecLen de.name.length
        + (de.recLen - ext4DirRecLen de.name.length)) b
      rw [hsum]
      exact h.2
  · rw [if_neg hlive] at hroom ⊢
    exact ⟨⟨h.1.aligned, hroom, fun _ => hname⟩, h.2⟩

theorem formed_insertAt (hname : 1 ≤ e.name.length ∧ e.name.length ≤ 254) :
    ∀ {offset k : ℕ} {b : DirBlock}, Formed sb offset b →
      (∀ de, b[k]? = some de → ext4DirRecLen e.name.length
        + (if de.inode ≠ 0 then ext4DirRecLen de.name.length else 0) ≤ de.recLen) →
      Formed sb offset (insertAt e k b)
  | _, k, [], h, _ => by cases k <;> exact h
  | _, 0, de :: rest, h, hroom => formed_insertDentry h hname (hroom de rfl)
  | _, k + 1, de :: rest, h, hroom =>
    ⟨h.1, formed_insertAt hname h.2 fun de' hde' => hroom de' hde'⟩

/-- An insertion adds one element. -/
theorem view_insertAt (h0 : e.inode ≠ 0) :
    ∀ {k : ℕ} {b : DirBlock}, k < b.length → ∃ l₁ l₂, view b = l₁ ++ l₂ ∧
      view (insertAt e k b) = l₁ ++ readOut e :: l₂
  | _, [], h => absurd h (Nat.not_lt_zero _)
  | 0, de :: rest, _ => by
    by_cases hlive : de.inode ≠ 0
    · refine ⟨[readOut de], view rest, view_cons_live hlive, ?_⟩
      simp only [insertAt, ext4InsertDentry, if_pos hlive, List.cons_append, List.nil_append]
      rw [view_cons_live (by exact hlive), view_cons_live (by exact h0)]
      rfl
    · refine ⟨[], view rest, view_cons_dead (not_not.mp hlive), ?_⟩
      simp only [insertAt, ext4InsertDentry, if_neg hlive, List.cons_append, List.nil_append]
      rw [view_cons_live (by exact h0)]
      rfl
  | k + 1, de :: rest, h => by
    obtain ⟨l₁, l₂, hv, hv'⟩ := view_insertAt h0 (b := rest) (Nat.lt_of_succ_lt_succ h)
    by_cases hlive : de.inode ≠ 0
    · refine ⟨readOut de :: l₁, l₂, ?_, ?_⟩
      · rw [view_cons_live hlive, hv, List.cons_append]
      · rw [insertAt, view_cons_live hlive, hv', List.cons_append]
    · refine ⟨l₁, l₂, ?_, ?_⟩
      · rw [view_cons_dead (not_not.mp hlive), hv]
      · rw [insertAt, view_cons_dead (not_not.mp hlive), hv']

/-! ### Deletion -/

/-- A record taken over by the one before it. -/
theorem formed_merge {pde : DirEntry} (h : Formed sb offset (pde :: de :: b)) :
    Formed sb offset ({ pde with recLen := pde.recLen + de.recLen } :: b) := by
  refine ⟨⟨Nat.dvd_add h.1.aligned h.2.1.aligned, h.1.large.trans (Nat.le_add_right _ _), h.1.name⟩, ?_⟩
  change Formed sb (offset + (pde.recLen + de.recLen)) b
  rw [← Nat.add_assoc]
  exact h.2.2

theorem formed_deleteBehind :
    ∀ {k start offset : ℕ} {pde : DirEntry} {b b' : DirBlock}, Formed sb start (pde :: b) →
      deleteBehind sb k offset pde b = .ok b' → Formed sb start b'
  | _, _, _, _, [], _, _, h => by simp [deleteBehind] at h
  | 0, _, _, pde, de :: rest, _, hf, h => by
    simp only [deleteBehind] at h
    split_ifs at h
    obtain rfl := Except.ok.inj h
    exact formed_merge hf
  | k + 1, _, offset, pde, de :: rest, _, hf, h => by
    simp only [deleteBehind] at h
    split_ifs at h
    cases hrec : deleteBehind sb k (offset + de.recLen) de rest with
    | error err => rw [hrec] at h; cases h
    | ok b'' =>
      rw [hrec] at h
      obtain rfl := Except.ok.inj h
      exact ⟨hf.1, formed_deleteBehind hf.2 hrec⟩

theorem formed_delete (hf : Formed sb 0 b) (h : ext4GenericDeleteEntry sb k b = .ok b') :
    Formed sb 0 b' := by
  cases b with
  | nil => simp [ext4GenericDeleteEntry] at h
  | cons de rest =>
    simp only [ext4GenericDeleteEntry] at h
    split_ifs at h
    cases k with
    | zero =>
      obtain rfl := Except.ok.inj h
      refine ⟨⟨hf.1.aligned, le_trans ?_ hf.1.large, fun h0 => absurd rfl h0⟩, hf.2⟩
      exact Nat.mul_le_mul_right 4 (Nat.div_le_div_right (by simp [wiped]))
    | succ k => exact formed_deleteBehind hf h

theorem view_deleteBehind :
    ∀ {k offset : ℕ} {pde : DirEntry} {b b' : DirBlock}, deleteBehind sb k offset pde b = .ok b' →
      ∃ b₁ de b₂, b = b₁ ++ de :: b₂ ∧ b₁.length = k ∧ view b' = view (pde :: b₁ ++ b₂)
  | _, _, _, [], _, h => by simp [deleteBehind] at h
  | 0, _, pde, de :: rest, _, h => by
    simp only [deleteBehind] at h
    split_ifs at h
    obtain rfl := Except.ok.inj h
    exact ⟨[], de, rest, rfl, rfl, view_cons_congr rfl rfl rfl⟩
  | k + 1, offset, pde, de :: rest, _, h => by
    simp only [deleteBehind] at h
    split_ifs at h
    cases hrec : deleteBehind sb k (offset + de.recLen) de rest with
    | error err => rw [hrec] at h; cases h
    | ok b'' =>
      rw [hrec] at h
      obtain rfl := Except.ok.inj h
      obtain ⟨b₁, de', b₂, rfl, rfl, hv⟩ := view_deleteBehind hrec
      refine ⟨de :: b₁, de', b₂, rfl, rfl, ?_⟩
      calc view (pde :: b'') = view [pde] ++ view b'' := view_append [pde] b''
        _ = view [pde] ++ view (de :: b₁ ++ b₂) := by rw [hv]
        _ = view (pde :: (de :: b₁) ++ b₂) := (view_append [pde] _).symm

/-- A deletion removes the element of the record it is given. -/
theorem view_delete (h : ext4GenericDeleteEntry sb k b = .ok b') :
    ∃ b₁ de b₂, b = b₁ ++ de :: b₂ ∧ b₁.length = k ∧ view b' = view b₁ ++ view b₂ := by
  cases b with
  | nil => simp [ext4GenericDeleteEntry] at h
  | cons de rest =>
    simp only [ext4GenericDeleteEntry] at h
    split_ifs at h
    cases k with
    | zero =>
      obtain rfl := Except.ok.inj h
      exact ⟨[], de, rest, rfl, rfl, view_cons_dead rfl⟩
    | succ k =>
      obtain ⟨b₁, de', b₂, rfl, rfl, hv⟩ := view_deleteBehind h
      exact ⟨de :: b₁, de', b₂, rfl, rfl, by rw [hv, view_append]⟩

/-! ### A block without room -/

/-- Every record has room for its name up to the end. -/
theorem Formed.room : ∀ {offset : ℕ} {b : DirBlock}, Formed sb offset b →
    ∀ de ∈ b, offset + ext4DirRecLen de.name.length ≤ sb.bufSize
  | _, [], _, _, hde => absurd hde List.not_mem_nil
  | offset, de :: rest, h, de', hde' => by
    rcases List.mem_cons.mp hde' with rfl | hde'
    · exact (Nat.add_le_add_left h.1.large _).trans h.2.le
    · have := h.2.room de' hde'
      omega

/-- A block that is passed over holds no live record with the name. -/
theorem ext4FindDestDe_full :
    ∀ {offset : ℕ} {b : DirBlock}, Formed sb offset b →
      ext4FindDestDe sb name offset b = .error ENOSPC → ∀ de ∈ b, ext4Match name de = false
  | _, [], _, _, _, hde => absurd hde List.not_mem_nil
  | offset, de :: rest, hf, h, de', hde' => by
    by_contra hm
    have hm : ext4Match name de' = true := by simpa using hm
    have hname : de'.name = name := by simpa [ext4Match, ext4Match_inode hm] using hm
    have htop := hf.room de' hde'
    rw [hname] at htop
    simp only [ext4FindDestDe] at h
    rw [if_neg (not_lt.mpr htop)] at h
    by_cases hbad : sb.checkDirEntry sb.bufSize offset de = true
    · rw [if_pos hbad] at h
      exact absurd (Except.error.inj h) (by decide)
    rw [if_neg hbad] at h
    by_cases hde : ext4Match name de = true
    · rw [if_pos hde] at h
      exact absurd (Except.error.inj h) (by decide)
    rw [if_neg hde] at h
    have hrest : de' ∈ rest := by
      rcases List.mem_cons.mp hde' with rfl | hrest
      · exact absurd hm hde
      · exact hrest
    split_ifs at h
    all_goals
      cases hrec : ext4FindDestDe sb name (offset + de.recLen) rest with
      | ok k => rw [hrec] at h; cases h
      | error err =>
        rw [hrec] at h
        obtain rfl := Except.error.inj h
        exact absurd hm (by rw [ext4FindDestDe_full hf.2 hrec de' hrest]; decide)

end LinuxEvfs.Namespace.Block
