import LinuxEvfs.Ioctl.Extents

/-! # The list of `evfs_extent_read`

On a well-formed tree, with every lookup successful, the loop stores an extent in each pass but looks up the next block
from the entry behind it.

* `loop_hits`: what is stored and which entries are accessed, in terms of the blocks that the memory before the call
  holds (`nextBlock`).
* `listed_iff`: so the list is right exactly if each of these blocks leads to the next extent, and the one behind the
  last extent to none.
* `extent_list_iff`: an entry is read before it is written whenever one is stored at all.
* `evfsExtentRead_repeats`: in memory of zeros the first extent is listed again and again. -/

namespace LinuxEvfs.Ioctl.ExtentList

open LinuxEvfs.Errno LinuxEvfs.Lib.Bytes LinuxEvfs.Lib.Word LinuxEvfs.Lib.IndexTree
open LinuxEvfs.ExtTree.Basic LinuxEvfs.ExtTree.Cells LinuxEvfs.ExtTree.Tree
open LinuxEvfs.ExtMove.Model LinuxEvfs.Ioctl.Model LinuxEvfs.Ioctl.Structs LinuxEvfs.Ioctl.Extents

/-- An access to an entry of `out.exts`. -/
inductive Touch where
  | write (i : ℕ)
  | read (i : ℕ)
deriving DecidableEq

/-- The entries of `out.exts` that the loop of `evfs_extent_read` accesses, in order. -/
def touches (find : ℕ → Option Errno) (t : ExtRoot) : ℕ → ℕ → ℕ → Buf → List Touch
  | 0, _, _, _ => []
  | room + 1, count, block, exts =>
    match find count with
    | some _ => []
    | none =>
      match pExt t (ext4FindExtent t block) with
      | none => []
      | some ex =>
        if add32 ex.eeBlock (ext4ExtGetActualLen ex) ≤ block then []
        else
          let exts := exts.puts
            (extWrites (EXT_SIZE * count) ex.eeBlock (ext4ExtPblock ex) (ext4ExtGetActualLen ex))
          .write count :: .read (count + 1) ::
            touches find t room (count + 1)
              (add32 (exts.num (EXT_SIZE * (count + 1)) 4) (exts.num (EXT_SIZE * (count + 1) + 16) 4)) exts

/-- No entry is read before it is written, and none behind the array. -/
def ReadsWritten (max : ℕ) (ts : List Touch) : Prop :=
  ∀ l i r, ts = l ++ .read i :: r → i < max ∧ .write i ∈ l

/-- The fields of an entry of `out.exts`. -/
def entryAt (b : Buf) (i : ℕ) : ℕ × ℕ × ℕ :=
  (b.num (EXT_SIZE * i) 4, b.num (EXT_SIZE * i + 8) 8, b.num (EXT_SIZE * i + 16) 4)

/-- What the entry of an extent is to hold. -/
def shown (e : Extent) : ℕ × ℕ × ℕ := (e.eeBlock, ext4ExtPblock e, ext4ExtGetActualLen e)

/-- `num_exts` and the entries are the first extents of the file. -/
structure Listed (a : ExtRead) (m : Prior) : Prop where
  num : (evfsExtentRead a m).2.1.num 0 4 = min a.maxNumExts (exts a.tree).length
  entries : ∀ i < min a.maxNumExts (exts a.tree).length,
    some (entryAt (evfsExtentRead a m).2.2 i) = (exts a.tree)[i]?.map shown

/-- **The listing**: the first extents, from entries that are written before they are read. -/
structure Lists (a : ExtRead) (m : Prior) : Prop extends Listed a m where
  touched : ReadsWritten a.maxNumExts (touches a.find a.tree a.maxNumExts 0 0 m.heap)

/-! ### The passes -/

/-- The extent that a pass stores. -/
def hit (t : ExtRoot) (block : ℕ) : Option Extent :=
  (pExt t (ext4FindExtent t block)).filter fun ex => block < add32 ex.eeBlock (ext4ExtGetActualLen ex)

/-- The block that is looked up before entry `k` is stored, as the memory before the call holds it. -/
def nextBlock (heap : Buf) : ℕ → ℕ
  | 0 => 0
  | k + 1 => add32 (heap.num (EXT_SIZE * (k + 1)) 4) (heap.num (EXT_SIZE * (k + 1) + 16) 4)

/-- The extents that the loop stores, given the blocks that it looks up. -/
def hits (t : ExtRoot) (blocks : ℕ → ℕ) : ℕ → ℕ → List Extent
  | 0, _ => []
  | room + 1, count =>
    match hit t (blocks count) with
    | none => []
    | some ex => ex :: hits t blocks room (count + 1)

def entryWrites : ℕ → List Extent → List Write
  | _, [] => []
  | k, e :: es =>
    extWrites (EXT_SIZE * k) e.eeBlock (ext4ExtPblock e) (ext4ExtGetActualLen e) ++ entryWrites (k + 1) es

def entryTouches : ℕ → List Extent → List Touch
  | _, [] => []
  | k, _ :: es => .write k :: .read (k + 1) :: entryTouches (k + 1) es

variable {find : ℕ → Option Errno} {t : ExtRoot} {heap B : Buf} {a : ExtRead} {m : Prior} {block : ℕ} {e : Extent}

theorem hit_eq_some_iff :
    hit t block = some e ↔ pExt t (ext4FindExtent t block) = some e ∧
      block < add32 e.eeBlock (ext4ExtGetActualLen e) := by
  unfold hit
  rw [Option.filter_eq_some_iff, decide_eq_true_eq]

/-- The memory behind an entry is not changed by storing it. -/
theorem puts_extWrites_behind {k i : ℕ} (hi : EXT_SIZE * (k + 1) ≤ i) (log phy len : ℕ) :
    B.puts (extWrites (EXT_SIZE * k) log phy len) i = B i := by
  refine puts_of_not_covered ?_
  rw [← Bool.not_eq_true, covered_extWrites]
  unfold EXT_SIZE at hi ⊢
  omega

theorem nextBlock_congr {k : ℕ} (h : ∀ i, EXT_SIZE * k ≤ i → B i = heap i) : nextBlock B k = nextBlock heap k := by
  cases k with
  | zero => rfl
  | succ k =>
    rw [nextBlock, nextBlock, num_congr fun i hi _ => h i hi, num_congr fun i hi _ => h i (by omega)]

/-- A pass that stores nothing ends the loop. -/
theorem pass_stop (h : hit t block = none) (room count : ℕ) (B : Buf) :
    readLoop find t room count block B = (B, count) ∧ touches find t room count block B = [] := by
  cases room with
  | zero => exact ⟨by rw [readLoop], by rw [touches]⟩
  | succ room =>
    unfold readLoop touches
    cases find count with
    | some err => exact ⟨rfl, rfl⟩
    | none =>
      unfold hit at h
      dsimp only
      cases hp : pExt t (ext4FindExtent t block) with
      | none => exact ⟨rfl, rfl⟩
      | some ex =>
        rw [hp, Option.filter_eq_none_iff] at h
        have hle : add32 ex.eeBlock (ext4ExtGetActualLen ex) ≤ block :=
          not_lt.mp fun hlt => h ex rfl (decide_eq_true hlt)
        exact ⟨if_pos hle, if_pos hle⟩

/-- A pass that stores an extent. -/
theorem pass_hit {count : ℕ} (hf : find count = none) (h : hit t block = some e) (room : ℕ) (B : Buf) :
    readLoop find t (room + 1) count block B =
        readLoop find t room (count + 1) (nextBlock B (count + 1))
          (B.puts (extWrites (EXT_SIZE * count) e.eeBlock (ext4ExtPblock e) (ext4ExtGetActualLen e))) ∧
      touches find t (room + 1) count block B =
        .write count :: .read (count + 1) :: touches find t room (count + 1) (nextBlock B (count + 1))
          (B.puts (extWrites (EXT_SIZE * count) e.eeBlock (ext4ExtPblock e) (ext4ExtGetActualLen e))) := by
  obtain ⟨hp, hlt⟩ := hit_eq_some_iff.mp h
  refine ⟨readLoop_succ hf hp hlt room B, ?_⟩
  conv_lhs => unfold touches
  simp only [hf, hp, if_neg (not_le.mpr hlt)]
  rw [← nextBlock_congr fun i hi => puts_extWrites_behind hi _ _ _]
  rfl

/-- **The loop**, from any pass on: behind the entries stored, the memory is that of before the call. -/
theorem loop_hits (hfind : ∀ i, find i = none) (t : ExtRoot) (heap : Buf) : ∀ (room count : ℕ) (B : Buf),
    (∀ i, EXT_SIZE * (count + 1) ≤ i → B i = heap i) →
    readLoop find t room count (nextBlock heap count) B =
        (B.puts (entryWrites count (hits t (nextBlock heap) room count)),
          count + (hits t (nextBlock heap) room count).length) ∧
      touches find t room count (nextBlock heap count) B =
        entryTouches count (hits t (nextBlock heap) room count)
  | 0, count, B, _ => ⟨by rw [readLoop]; rfl, by rw [touches]; rfl⟩
  | room + 1, count, B, hB => by
    unfold hits
    cases hh : hit t (nextBlock heap count) with
    | none => exact pass_stop hh (room + 1) count B
    | some e =>
      obtain ⟨h1, h2⟩ := pass_hit (hfind count) hh room B
      rw [nextBlock_congr hB] at h1 h2
      obtain ⟨h1', h2'⟩ := loop_hits hfind t heap room (count + 1)
        (B.puts (extWrites (EXT_SIZE * count) e.eeBlock (ext4ExtPblock e) (ext4ExtGetActualLen e)))
        fun i hi => by
          have hi' : EXT_SIZE * (count + 1) ≤ i := le_trans (Nat.mul_le_mul_left _ (Nat.le_succ _)) hi
          rw [puts_extWrites_behind hi', hB i hi']
      rw [h1, h2, h1', h2']
      dsimp only [entryWrites, entryTouches, List.length_cons]
      rw [puts_append, Nat.add_assoc, Nat.add_comm 1]
      exact ⟨rfl, rfl⟩

theorem length_hits_le (blocks : ℕ → ℕ) : ∀ room count : ℕ, (hits t blocks room count).length ≤ room
  | 0, _ => le_rfl
  | room + 1, count => by
    unfold hits
    cases hit t (blocks count) with
    | none => exact Nat.zero_le _
    | some e => exact Nat.succ_le_succ (length_hits_le blocks room (count + 1))

theorem mem_hits {blocks : ℕ → ℕ} : ∀ {room count : ℕ}, e ∈ hits t blocks room count →
    ∃ block, hit t block = some e
  | room + 1, count, h => by
    unfold hits at h
    cases hh : hit t (blocks count) with
    | none => simp [hh] at h
    | some e' =>
      rw [hh] at h
      rcases List.mem_cons.mp h with rfl | h
      · exact ⟨_, hh⟩
      · exact mem_hits h

/-- The first extents of a list are stored exactly if the lookups find one after the other, and none behind the last. -/
theorem hits_eq_take_iff (t : ExtRoot) (blocks : ℕ → ℕ) (es : List Extent) : ∀ (room count : ℕ), count ≤ es.length →
    (hits t blocks room count = (es.drop count).take room ↔
      ∀ k < room, count + k ≤ es.length → hit t (blocks (count + k)) = es[count + k]?)
  | 0, count, _ => by simp [hits]
  | room + 1, count, hc => by
    have hstep : (∀ k < room + 1, count + k ≤ es.length → hit t (blocks (count + k)) = es[count + k]?) ↔
        hit t (blocks count) = es[count]? ∧ ∀ k < room, count + 1 + k ≤ es.length →
          hit t (blocks (count + 1 + k)) = es[count + 1 + k]? := by
      constructor
      · intro h
        refine ⟨h 0 (Nat.succ_pos _) hc, fun k hk hle => ?_⟩
        have := h (k + 1) (Nat.succ_lt_succ hk) (by omega)
        rwa [show count + (k + 1) = count + 1 + k by omega] at this
      · rintro ⟨h0, h⟩ k hk hle
        cases k with
        | zero => exact h0
        | succ k =>
          rw [show count + (k + 1) = count + 1 + k by omega] at hle ⊢
          exact h k (Nat.lt_of_succ_lt_succ hk) hle
    rw [hstep]
    rcases Nat.lt_or_eq_of_le hc with hlt | rfl
    · rw [List.drop_eq_getElem_cons hlt, List.take_succ_cons, List.getElem?_eq_getElem hlt, hits]
      cases hit t (blocks count) with
      | none => simp
      | some e => simp [hits_eq_take_iff t blocks es room (count + 1) hlt]
    · rw [List.drop_length, List.take_nil, hits, List.getElem?_eq_none le_rfl]
      cases hit t (blocks es.length) with
      | none => simpa using fun k _ hle => absurd hle (by omega)
      | some e => simp

/-! ### The entries -/

theorem covered_entryWrites {i : ℕ} : ∀ {k : ℕ} {es : List Extent}, i < EXT_SIZE * k →
    covered (entryWrites k es) i = false
  | _, [], _ => rfl
  | k, e :: es, h => by
    have htail : covered (entryWrites (k + 1) es) i = false :=
      covered_entryWrites (lt_of_lt_of_le h (Nat.mul_le_mul_left _ (Nat.le_succ k)))
    have hhead : covered (extWrites (EXT_SIZE * k) e.eeBlock (ext4ExtPblock e) (ext4ExtGetActualLen e)) i = false := by
      rw [← Bool.not_eq_true, covered_extWrites]
      omega
    rw [entryWrites, covered_append, hhead, htail, Bool.or_false]

theorem entryAt_congr {b b' : Buf} {k : ℕ} (h : ∀ i, EXT_SIZE * k ≤ i → i < EXT_SIZE * (k + 1) → b i = b' i) :
    entryAt b k = entryAt b' k := by
  have hsize : EXT_SIZE * (k + 1) = EXT_SIZE * k + 24 := Nat.mul_succ _ _
  unfold entryAt
  rw [num_congr fun i hi hi' => h i hi (by omega), num_congr fun i hi hi' => h i (by omega) (by omega),
    num_congr fun i hi hi' => h i (by omega) (by omega)]

/-- The entry of an extent holds its fields. -/
theorem entryAt_stored (h : Legal e) (B : Buf) (k : ℕ) :
    entryAt (B.puts (extWrites (EXT_SIZE * k) e.eeBlock (ext4ExtPblock e) (ext4ExtGetActualLen e))) k = shown e := by
  have hlast := h.last_le
  have hlen := h.len_le.1
  unfold Extent.last EXT_MAX_BLOCKS at hlast
  unfold EXT_INIT_MAX_LEN at hlen
  have hlog : e.eeBlock % 256 ^ 4 = e.eeBlock := Nat.mod_eq_of_lt (by norm_num; omega)
  have hphy : ext4ExtPblock e % 256 ^ 8 = ext4ExtPblock e :=
    Nat.mod_eq_of_lt (lt_of_lt_of_le h.start_lt (by decide))
  have hlen : ext4ExtGetActualLen e % 256 ^ 4 = ext4ExtGetActualLen e := Nat.mod_eq_of_lt (by norm_num; omega)
  unfold entryAt shown extWrites
  simp only [Buf.puts, List.foldl_cons, List.foldl_nil]
  rw [num_put_outside (by simp), num_put_outside (by simp), num_put_le, num_put_outside (by simp), num_put_le,
    num_put_le, hlog, hphy, hlen]

theorem entryAt_entryWrites : ∀ {es : List Extent} {k i : ℕ} {B : Buf}, (∀ e ∈ es, Legal e) → es[i]? = some e →
    entryAt (B.puts (entryWrites k es)) (k + i) = shown e
  | e' :: es, k, 0, B, hl, hi => by
    cases hi
    rw [entryWrites, puts_append, ← entryAt_stored (hl e List.mem_cons_self) B k]
    exact entryAt_congr fun i _ hlt => puts_of_not_covered (covered_entryWrites hlt)
  | e' :: es, k, i + 1, B, hl, hi => by
    rw [entryWrites, puts_append, show k + (i + 1) = k + 1 + i by omega]
    exact entryAt_entryWrites (fun e he => hl e (List.mem_cons_of_mem _ he)) hi

/-! ### On a well-formed tree -/

/-- What is stored is an extent of the file that ends behind the block looked up. -/
theorem mem_of_hit (hw : WellFormed t) (h : hit t block = some e) : e ∈ exts t := by
  obtain ⟨hp, -⟩ := hit_eq_some_iff.mp h
  rcases find_cases hw block with ⟨-, hnone⟩ | ⟨l, e', r, -, he, hsome, -, -⟩
  · rw [hp] at hnone
    cases hnone
  · rw [hp] at hsome
    rw [he, ← Option.some.inj hsome]
    exact List.mem_append_right l List.mem_cons_self

/-- The first lookup finds an extent unless there is none. -/
theorem hit_zero_eq_none_iff (hw : WellFormed t) : hit t 0 = none ↔ exts t = [] := by
  unfold hit
  rcases find_cases hw 0 with ⟨hnil, hp⟩ | ⟨l, e, r, -, he, hp, -, -⟩
  · rw [hp]
    exact iff_of_true rfl hnil
  · have hlegal : Legal e := hw.valid.legal e (by rw [he]; exact List.mem_append_right l List.mem_cons_self)
    have hlt : 0 < add32 e.eeBlock (ext4ExtGetActualLen e) := by
      rw [hlegal.end_eq]
      exact Nat.zero_lt_of_lt hlegal.block_lt_last
    rw [hp, Option.filter_some, if_pos (decide_eq_true hlt), he]
    simp

theorem eq_of_shown_eq (hw : WellFormed t) {e' : Extent} (h : e ∈ exts t) (h' : e' ∈ exts t)
    (heq : shown e = shown e') : e = e' := by
  have hblock : e.eeBlock = e'.eeBlock := congrArg Prod.fst heq
  have hlt := (hw.valid.legal e h).block_lt_last
  have hlt' := (hw.valid.legal e' h').block_lt_last
  exact hw.valid.eq_of_covers h h' ⟨le_rfl, hlt⟩ ⟨hblock.ge, hblock ▸ hlt'⟩

/-- The extents that a call stores. -/
def stored (a : ExtRead) (m : Prior) : List Extent := hits a.tree (nextBlock m.heap) a.maxNumExts 0

section
variable (hw : WellFormed a.tree) (hget : a.iget = none) (hfind : ∀ i, a.find i = none)

include hget hfind

theorem evfsExtentRead_stored (m : Prior) :
    evfsExtentRead a m = (0, (m.kArgs.from 8).put 0 (le 4 (stored a m).length),
      m.heap.puts (entryWrites 0 (stored a m))) := by
  have hloop := (loop_hits hfind a.tree m.heap a.maxNumExts 0 m.heap fun _ _ => rfl).1
  rw [Nat.zero_add, nextBlock] at hloop
  unfold evfsExtentRead
  rw [hget]
  dsimp only
  rw [hloop]
  rfl

omit hget in
theorem touches_stored (m : Prior) :
    touches a.find a.tree a.maxNumExts 0 0 m.heap = entryTouches 0 (stored a m) :=
  (loop_hits hfind a.tree m.heap a.maxNumExts 0 m.heap fun _ _ => rfl).2

include hw

theorem listed_iff_take (hmax : a.maxNumExts < 2 ^ 32) :
    Listed a m ↔ stored a m = (exts a.tree).take a.maxNumExts := by
  have hmem : ∀ e ∈ stored a m, e ∈ exts a.tree := fun e he => by
    obtain ⟨block, hb⟩ := mem_hits he
    exact mem_of_hit hw hb
  have hlegal : ∀ e ∈ stored a m, Legal e := fun e he => hw.valid.legal e (hmem e he)
  have hlen : (stored a m).length % 256 ^ 4 = (stored a m).length :=
    Nat.mod_eq_of_lt (lt_of_le_of_lt (length_hits_le _ _ _) hmax)
  have hread := evfsExtentRead_stored hget hfind m
  constructor
  · intro h
    have hnum := h.num
    rw [hread, num_put_le, hlen] at hnum
    refine List.ext_getElem (by rw [hnum, List.length_take]) fun i hi hi' => ?_
    have hentry := h.entries i (by rwa [← hnum])
    have hes : i < (exts a.tree).length := by
      rw [List.length_take] at hi'
      omega
    rw [hread, List.getElem?_eq_getElem hes, Option.map_some, Option.some.injEq] at hentry
    have hstored := entryAt_entryWrites (k := 0) (B := m.heap) hlegal (List.getElem?_eq_getElem hi)
    rw [Nat.zero_add, hentry] at hstored
    rw [List.getElem_take]
    exact eq_of_shown_eq hw (hmem _ (List.getElem_mem hi)) (List.getElem_mem hes) hstored.symm
  · intro h
    have hnum : (stored a m).length = min a.maxNumExts (exts a.tree).length := by rw [h, List.length_take]
    refine ⟨by rw [hread, num_put_le, hlen, hnum], fun i hi => ?_⟩
    have hi' : i < (stored a m).length := by rwa [hnum]
    have hstored := entryAt_entryWrites (k := 0) (B := m.heap) hlegal (List.getElem?_eq_getElem hi')
    rw [hread, ← Nat.zero_add i, hstored, Nat.zero_add, ← Option.map_some, ← List.getElem?_eq_getElem hi', h,
      List.getElem?_take_of_lt (by omega)]

/-- **The values listed** are right exactly if the memory before the call leads from each extent to the next, and from
the last one to none. -/
theorem listed_iff (hmax : a.maxNumExts < 2 ^ 32) :
    Listed a m ↔ ∀ k < a.maxNumExts, k ≤ (exts a.tree).length →
      hit a.tree (nextBlock m.heap k) = (exts a.tree)[k]? := by
  rw [listed_iff_take hw hget hfind hmax, stored]
  have h := hits_eq_take_iff a.tree (nextBlock m.heap) (exts a.tree) a.maxNumExts 0 (Nat.zero_le _)
  simpa only [List.drop_zero, Nat.zero_add] using h

end

/-- The first pass that stores an extent reads the entry behind it. -/
theorem not_readsWritten {max : ℕ} {es : List Extent} (h : es ≠ []) : ¬ ReadsWritten max (entryTouches 0 es) := by
  intro hr
  cases es with
  | nil => exact h rfl
  | cons e es => simpa using (hr [.write 0] 1 (entryTouches 1 es) rfl).2

/-- **Extent listing.** With every lookup successful, the list is right without an access to an entry that is not
written yet exactly if there is no room in it or nothing to list. -/
theorem extent_list_iff (a : ExtRead) (m : Prior) (hw : WellFormed a.tree) (hget : a.iget = none)
    (hfind : ∀ i, a.find i = none) : Lists a m ↔ a.maxNumExts = 0 ∨ exts a.tree = [] := by
  have hstored : stored a m = [] ↔ a.maxNumExts = 0 ∨ exts a.tree = [] := by
    rw [← hit_zero_eq_none_iff hw]
    unfold stored
    cases a.maxNumExts with
    | zero => simp [hits]
    | succ n =>
      rw [hits, nextBlock]
      cases hit a.tree 0 <;> simp
  rw [← hstored]
  constructor
  · intro h
    by_contra hne
    have ht := h.touched
    rw [touches_stored hfind] at ht
    exact not_readsWritten hne ht
  · intro h
    have hmin : min a.maxNumExts (exts a.tree).length = 0 := by
      rcases hstored.mp h with h0 | h0 <;> simp [h0]
    refine ⟨⟨?_, fun i hi => ?_⟩, ?_⟩
    · rw [evfsExtentRead_stored hget hfind, hmin, num_put_le, h]
      rfl
    · rw [hmin] at hi
      exact absurd hi (Nat.not_lt_zero i)
    · rw [touches_stored hfind, h]
      exact fun l i r hl => absurd hl (by simp [entryTouches])

/-- A file of two extents, of which up to three are asked for. -/
def twoExtents : ExtRead where
  user := ⟨true, true, 4, 72⟩
  iget := none
  find := fun _ => none
  tree := (leafInode [⟨0, 2, 100⟩, ⟨5, 1, 300⟩] 0).tree
  maxNumExts := 3

/-- In memory of zeros, three entries are listed, and all are the first extent. -/
theorem evfsExtentRead_repeats :
    WellFormed twoExtents.tree ∧
      (evfsExtentRead twoExtents (constPrior 0)).2.1.num 0 4 = 3 ∧
      (∀ i < 3, entryAt (evfsExtentRead twoExtents (constPrior 0)).2.2 i = (0, 100, 2)) ∧
      touches twoExtents.find twoExtents.tree 3 0 0 (constPrior 0).heap =
        [.write 0, .read 1, .write 1, .read 2, .write 2, .read 3] ∧
      ¬ Lists twoExtents (constPrior 0) := by
  have hw : WellFormed twoExtents.tree := ⟨trivial, by decide⟩
  have hnum : (evfsExtentRead twoExtents (constPrior 0)).2.1.num 0 4 = 3 := by decide
  refine ⟨hw, hnum, by decide, by decide, fun h => ?_⟩
  have := h.num.symm.trans hnum
  exact absurd this (by decide)

/-- A file without extents. -/
theorem extent_list_empty :
    Lists { twoExtents with tree := (leafInode [] 0).tree } (constPrior 0) := by
  have hw : WellFormed (leafInode [] 0).tree := ⟨trivial, by decide⟩
  exact (extent_list_iff { twoExtents with tree := (leafInode [] 0).tree } (constPrior 0) hw rfl
    fun _ => rfl).mpr (.inr rfl)

end LinuxEvfs.Ioctl.ExtentList
