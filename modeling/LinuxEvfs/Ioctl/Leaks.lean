import LinuxEvfs.Ioctl.Extents

/-! # Kernel memory in the outputs

`Sealed`: no byte copied to the user shows what the memory held before, and nor does the value returned.

* `extMv_blind_iff`: `EXT4_EVFS_EXT_MV`. Its array has the length of the range in blocks, of which one entry
  is written for each piece that was mapped.
* `ioctl_blind_iff`: the reply of a command does not depend on the memory before exactly if it is sealed.
  With user memory that can be written, `EXT4_EVFS_INO_READ` and `EXT4_EVFS_DEN_READ` never are.
* `inoRead_leaks`: two replies to one command. -/

namespace LinuxEvfs.Ioctl.Leaks

open LinuxEvfs.Errno LinuxEvfs.Lib.Bytes
open LinuxEvfs.ExtTree.Basic LinuxEvfs.ExtTree.Tree LinuxEvfs.ExtMove.Model LinuxEvfs.Ioctl.Model
open LinuxEvfs.Ioctl.Structs LinuxEvfs.Ioctl.Extents

/-! ### `EXT4_EVFS_EXT_MV` -/

/-- The loop of `evfs_extent_move` maps `curr` and goes on. -/
def mapsTo (a : ExtMv) (st : St) (curr : EvfsExt) : Option (St × EvfsExt) :=
  if curr.len = 0 then none
  else
    match evfsExtentMap a.blocksize a.env 3 curr st with
    | .ret (st', err, _, next) => if err < 0 then none else some (st', next)
    | _ => none

/-- One entry is written whole, a further one up to its padding. -/
def extsPrefix (a : ExtMv) : ℕ :=
  match mapsTo a ⟨a.ino.tree, 0⟩ a.args.ext with
  | none => 0
  | some (st, next) => if (mapsTo a st next).isNone then 24 else 28

def returns (a : ExtMv) : Bool :=
  match evfsExtentMove a.blocksize a.env 3 a.ino a.args with
  | .ret _ => true
  | _ => false

def ExtMv.Sealed (a : ExtMv) : Prop :=
  a.user.copyIn = false ∨ a.user.kmalloc = false ∨ a.user.num = 0 ∨
    (a.enters = true ∧
      (a.user.num < 4 ∨ min a.user.exts (EXT_SIZE * a.args.ext.len) ≤ extsPrefix a)) ∨
    returns a = false

theorem length_extBytes (base : Buf) (e : EvfsExt) : (extBytes base e).length = EXT_SIZE := by
  unfold extBytes
  exact length_take

/-- The entries from `k` on leave those before them. -/
theorem fillExts_below (inExt next : Buf) {out : List EvfsExt} {k i : ℕ} {exts : Buf}
    (h : i < EXT_SIZE * k) : fillExts inExt next k out exts i = exts i := by
  induction out generalizing k exts with
  | nil => rfl
  | cons e out ih =>
    have hk : EXT_SIZE * k ≤ EXT_SIZE * (k + 1) := Nat.mul_le_mul_left _ (Nat.le_succ k)
    rw [fillExts, ih (lt_of_lt_of_le h hk), put_outside (.inl h)]

/-- A byte of an entry is a byte of the memory it was copied from, or of its fields. -/
theorem put_extBytes {exts base : Buf} {e : EvfsExt} {off i : ℕ} (h : off ≤ i) (h' : i < off + EXT_SIZE) :
    exts.put off (extBytes base e) i = base.puts (extWrites 0 e.logStart e.phyStart e.len) (i - off) := by
  rw [put_inside h (by rw [length_extBytes]; exact h')]
  unfold extBytes
  rw [take_getElem? (by omega), Option.getD_some]

/-- The first entry takes its padding from the user. -/
theorem fillExts_first {inExt next heap : Buf} {e : EvfsExt} {out : List EvfsExt} {i : ℕ} (hi : i < EXT_SIZE) :
    fillExts inExt next 0 (e :: out) heap i = inExt.puts (extWrites 0 e.logStart e.phyStart e.len) i := by
  rw [fillExts, fillExts_below _ _ (by simpa using hi), Nat.mul_zero, if_pos rfl,
    put_extBytes (Nat.zero_le i) (by simpa using hi), Nat.sub_zero]

/-- The second one takes it from the stack. -/
theorem fillExts_second {inExt next heap : Buf} {e e' : EvfsExt} {out : List EvfsExt} {i : ℕ}
    (hi : i < EXT_SIZE) :
    fillExts inExt next 0 (e :: e' :: out) heap (EXT_SIZE + i) =
      next.puts (extWrites 0 e'.logStart e'.phyStart e'.len) i := by
  rw [fillExts, fillExts, fillExts_below _ _ (by unfold EXT_SIZE at *; omega), if_neg (Nat.succ_ne_zero 0),
    put_extBytes (by unfold EXT_SIZE; omega) (by unfold EXT_SIZE at *; omega)]
  congr 1
  unfold EXT_SIZE
  omega

/-- What is written of the array for given entries. -/
def entriesPrefix : List EvfsExt → ℕ
  | [] => 0
  | [_] => 24
  | _ => 28

theorem fillExts_blind_iff (inExt : Buf) (out : List EvfsExt) (n : ℕ) :
    (∀ i < n, Blind fun m : Prior => fillExts inExt m.next 0 out m.heap i) ↔ n ≤ entriesPrefix out := by
  match out with
  | [] =>
    constructor
    · intro h
      by_contra hlt
      exact not_blind (f := Prior.heap) (fun x => ⟨constPrior x, rfl⟩) (h 0 (not_le.mp hlt))
    · exact fun h i hi => absurd (lt_of_lt_of_le hi h) (Nat.not_lt_zero i)
  | [e] =>
    constructor
    · intro h
      by_contra hlt
      refine not_blind (f := Prior.heap) (fun x => ⟨constPrior x, rfl⟩) (i := EXT_SIZE) fun m m' => ?_
      have hm : m.heap.put 0 (extBytes inExt e) EXT_SIZE = m'.heap.put 0 (extBytes inExt e) EXT_SIZE :=
        h EXT_SIZE (not_le.mp hlt) m m'
      have hlen : 0 + (extBytes inExt e).length ≤ EXT_SIZE := by rw [length_extBytes, Nat.zero_add]
      rwa [put_outside (.inr hlen), put_outside (.inr hlen)] at hm
    · intro h i hi m m'
      have hi' : i < EXT_SIZE := lt_of_lt_of_le hi h
      exact (fillExts_first hi').trans (fillExts_first hi').symm
  | e :: e' :: out =>
    constructor
    · intro h
      by_contra hlt
      have h28 := h (EXT_SIZE + 4) (not_le.mp hlt)
      simp only [fillExts_second (i := 4) (by decide)] at h28
      have hcov := (blind_puts_iff (f := Prior.next) fun y => ⟨constPrior y, rfl⟩).mp h28
      rw [covered_extWrites] at hcov
      omega
    · intro h i hi
      have hi' : i < 28 := lt_of_lt_of_le hi h
      by_cases hfirst : i < EXT_SIZE
      · exact fun m m' => (fillExts_first hfirst).trans (fillExts_first hfirst).symm
      obtain ⟨j, rfl⟩ := Nat.exists_eq_add_of_le (not_lt.mp hfirst)
      have hj : j < 4 := by
        unfold EXT_SIZE at hi'
        omega
      simp only [fillExts_second (lt_trans hj (by decide))]
      refine (blind_puts_iff (f := Prior.next) fun y => ⟨constPrior y, rfl⟩).mpr ?_
      rw [covered_extWrites]
      omega

/-- The entries that the loop writes. -/
theorem moveLoop_prefix {a : ExtMv} {st st' : St} {curr : EvfsExt} {room : ℕ} {ret : ℤ} {out : List EvfsExt}
    (h : moveLoop a.blocksize a.env 3 room st curr = .ret (st', ret, out)) :
    out = [] ∧ (room = 0 ∨ mapsTo a st curr = none) ∨
      ∃ st'' next e out', out = e :: out' ∧ mapsTo a st curr = some (st'', next) ∧ 0 < room ∧
        moveLoop a.blocksize a.env 3 (room - 1) st'' next = .ret (st', ret, out') := by
  cases room with
  | zero =>
    cases h
    exact .inl ⟨rfl, .inl rfl⟩
  | succ room =>
    unfold moveLoop at h
    unfold mapsTo
    by_cases hlen : curr.len = 0
    · rw [if_pos hlen] at h ⊢
      cases h
      exact .inl ⟨rfl, .inr rfl⟩
    rw [if_neg hlen] at h ⊢
    cases hmap : evfsExtentMap a.blocksize a.env 3 curr st with
    | ret r =>
      obtain ⟨st1, err, e, next⟩ := r
      simp only [hmap] at h
      dsimp only
      by_cases herr : err < 0
      · rw [if_pos herr] at h ⊢
        cases h
        exact .inl ⟨rfl, .inr rfl⟩
      rw [if_neg herr] at h ⊢
      cases hrest : moveLoop a.blocksize a.env 3 room st1 next with
      | ret r =>
        obtain ⟨st2, ret', out'⟩ := r
        rw [hrest] at h
        cases h
        exact .inr ⟨st1, next, e, out', rfl, rfl, Nat.succ_pos room, hrest⟩
      | _ => simp [hrest] at h
    | _ => simp [hmap] at h

theorem entriesPrefix_iff {a : ExtMv} {st : St} {ret : ℤ} {out : List EvfsExt}
    (h : moveLoop a.blocksize a.env 3 a.args.ext.len ⟨a.ino.tree, 0⟩ a.args.ext = .ret (st, ret, out))
    (n : ℕ) :
    min n (EXT_SIZE * a.args.ext.len) ≤ entriesPrefix out ↔
      min n (EXT_SIZE * a.args.ext.len) ≤ extsPrefix a := by
  have hlen : mapsTo a ⟨a.ino.tree, 0⟩ a.args.ext ≠ none → a.args.ext.len ≠ 0 := by
    intro hm h0
    unfold mapsTo at hm
    exact hm (if_pos h0)
  unfold EXT_SIZE extsPrefix
  obtain ⟨rfl, h0⟩ | ⟨st1, next, e, out', rfl, hm, -, hrest⟩ := moveLoop_prefix h
  · have hnone : mapsTo a ⟨a.ino.tree, 0⟩ a.args.ext = none := by
      by_contra hm
      exact h0.elim (hlen hm) hm
    rw [hnone]
    rfl
  · rw [hm]
    dsimp only
    obtain ⟨rfl, h1⟩ | ⟨st2, next', e', out'', rfl, hm', -, -⟩ := moveLoop_prefix hrest
    · rcases h1 with h1 | h1
      · -- an array of one entry ends before the second
        have h24 : min n (24 * a.args.ext.len) ≤ 24 := by omega
        refine iff_of_true h24 (le_trans h24 ?_)
        split_ifs <;> decide
      · rw [h1]
        rfl
    · rw [hm']
      rfl

/-- A move that gets to its loop. -/
theorem move_enters {a : ExtMv} (he : a.enters = true) {ino : Inode} {ret : ℤ} {out : List EvfsExt}
    (h : evfsExtentMove a.blocksize a.env 3 a.ino a.args = .ret (ino, ret, out)) :
    ∃ st ret', moveLoop a.blocksize a.env 3 a.args.ext.len ⟨a.ino.tree, 0⟩ a.args.ext
      = .ret (st, ret', out) := by
  unfold ExtMv.enters at he
  rw [Bool.and_eq_true, Bool.and_eq_true, decide_eq_true_eq, Option.isNone_iff_eq_none,
    Option.isNone_iff_eq_none] at he
  obtain ⟨⟨higet, hver⟩, hjournal⟩ := he
  unfold evfsExtentMove at h
  simp only [higet, hver, hjournal, ne_eq, not_true_eq_false, if_false] at h
  cases hloop : moveLoop a.blocksize a.env 3 a.args.ext.len ⟨a.ino.tree, 0⟩ a.args.ext with
  | ret r =>
    obtain ⟨st, ret', out'⟩ := r
    rw [hloop] at h
    cases h
    exact ⟨st, ret', rfl⟩
  | _ => simp [hloop] at h

theorem extMv_blind_iff (a : ExtMv) : Blind a.reply ↔ ExtMv.Sealed a := by
  unfold ExtMv.Sealed ExtMv.reply returns
  refine blind_guard_iff fun _ => blind_guard_iff fun _ => ?_
  cases hmove : evfsExtentMove a.blocksize a.env 3 a.ino a.args with
  | ret r =>
    obtain ⟨ino, ret, out⟩ := r
    dsimp only
    rw [or_iff_left Bool.true_eq_false.mp]
    cases he : a.enters with
    | false =>
      refine (blind_copyExts_untouched_iff (f := Prior.kArgs) fun _ => rfl).trans ⟨Or.inl, ?_⟩
      rintro (h | ⟨h, -⟩)
      · exact h
      · cases h
    | true =>
      obtain ⟨st, ret', hloop⟩ := move_enters he hmove
      simp only [if_true]
      rw [blind_copyExts_iff, fillExts_blind_iff, entriesPrefix_iff hloop]
      constructor
      · rintro ⟨-, h⟩
        right
        refine ⟨trivial, ?_⟩
        by_cases h4 : a.user.num < 4
        · exact .inl h4
        · exact .inr (h (not_lt.mp h4))
      · intro h
        refine ⟨fun i hi => blind_put_num (lt_min_iff.mp hi).2, fun h4 => ?_⟩
        rcases h with h | ⟨-, h | h⟩
        · omega
        · omega
        · exact h
  | _ => exact ⟨fun _ => .inr (.inr rfl), fun _ => blind_const _⟩

/-! ### All commands -/

def Sealed : Cmd → Prop
  | .inoRead a => InoRead.Sealed a
  | .denRead a => DenRead.Sealed a
  | .extRead a => ExtRead.Sealed a
  | .extMv a => ExtMv.Sealed a

/-- **Noninterference.** For every command: two calls that differ only in what kernel memory held before
return the same value and write the same bytes to user space exactly if the command is sealed. -/
theorem ioctl_blind_iff (cmd : Cmd) : Blind (ext4IoctlEvfs cmd) ↔ Sealed cmd := by
  cases cmd with
  | inoRead a => exact inoRead_blind_iff a
  | denRead a => exact denRead_blind_iff a
  | extRead a => exact extRead_blind_iff a
  | extMv a => exact extMv_blind_iff a

/-- A regular file. -/
def regular : Attr :=
  { dev := 0, ino := 12, mode := 0o100644, nlink := 1, uid := 0, gid := 0, rdev := 0, version := 1,
    size := 0, blksize := 4096, blocks := 0, atime := 0, atimeNsec := 0, mtime := 0, mtimeNsec := 0,
    ctime := 0, ctimeNsec := 0 }

/-- **A leak.** `EXT4_EVFS_INO_READ` of a regular file succeeds, and the bytes of `est_rdev` are those of
the stack. -/
theorem inoRead_leaks :
    ext4IoctlEvfs (.inoRead ⟨true, INO_READ_SIZE, .ok regular⟩) (constPrior 0) ≠
      ext4IoctlEvfs (.inoRead ⟨true, INO_READ_SIZE, .ok regular⟩) (constPrior 255) := by
  decide

end LinuxEvfs.Ioctl.Leaks
