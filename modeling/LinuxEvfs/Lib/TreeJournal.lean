import LinuxEvfs.Lib.IndexSplit
import LinuxEvfs.Lib.Journal

/-! # The blocks of an index tree and the journal

The blocks below the top block of an index tree have numbers, and their buffers are journalled. `Nums` gives
the number of the block at a list of positions from the top; the functions that end in `Nums` follow the numbers
through an insertion, those that end in `Evs` say what it does to the buffers. The top block has no buffer.

* `Safe evs`: the events grant every buffer before they change it and mark it dirty afterwards, whatever was
  granted before. Insertion is safe (`insert_safe`).
* `Known d nums g`: all numbers of a tree of depth `d` are in `g`. After an insertion the numbers are old ones or
  those of blocks that it has made (`insert_known`). -/

namespace LinuxEvfs.Lib.TreeJournal

open LinuxEvfs.Lib.IndexTree LinuxEvfs.Lib.IndexInsert LinuxEvfs.Lib.Journal

variable {β : Type}

/-! ### Numbers -/

/-- The number of the block at a list of positions from the top. -/
abbrev Nums := List ℕ → ℕ

/-- The numbers below the entry `i` of the top block. -/
def Nums.below (nums : Nums) (i : ℕ) : Nums := fun q => nums (i :: q)

/-- Other numbers below the entry `i`. -/
def Nums.setBelow (nums : Nums) (i : ℕ) (sub : Nums) : Nums
  | [] => nums []
  | j :: q => if j = i ∧ q ≠ [] then sub q else nums (j :: q)

/-- A new entry `i` with a block and the numbers below it. -/
def Nums.insertIdx (nums : Nums) (i no : ℕ) (sub : Nums) : Nums
  | [] => nums []
  | j :: q =>
    if j < i then nums (j :: q)
    else if j = i then if q = [] then no else sub q
    else nums ((j - 1) :: q)

/-- The top block becomes the block `no` under a new one. -/
def Nums.grow (nums : Nums) (no : ℕ) : Nums
  | [] => nums []
  | _ :: q => if q = [] then no else nums q

/-- The number of the leaf of a path; a leaf at the top has none. -/
def leafNo : (d : ℕ) → Option ℕ → Nums → Path d → Option ℕ
  | 0, self, _, _ => self
  | d + 1, _, nums, (p : ℕ × Path d) => leafNo d (some (nums [p.1])) (nums.below p.1) p.2

/-! ### Events -/

/-- A block is changed in one go. -/
def touch (no : Option ℕ) : List (Ev ℕ) := no.elim [] fun b => [.access b, .change b, .dirty b]

/-- A new block. -/
def make (b : ℕ) : List (Ev ℕ) := [.create b, .change b, .dirty b]

section insertion
variable (key : β → ℕ) (b : β) (bmax : ℕ)

/-- The index blocks in which a key is corrected after an insertion, from the lowest one. -/
def corrected : (d : ℕ) → Option ℕ → Nums → Tree β d → Path d → List (Option ℕ)
  | 0, _, _, _, _ => []
  | d + 1, self, nums, (t : Block (ℕ × Tree β d)), (p : ℕ × Path d) =>
    match t.entries[p.1]? with
    | none => []
    | some (_, c) =>
      corrected d (some (nums [p.1])) (nums.below p.1) c p.2 ++
        if (insertAt key b d c p.2).2 then [self] else []

def insertAtEvs (d : ℕ) (nums : Nums) (t : Tree β d) (p : Path d) : List (Ev ℕ) :=
  let leaf := leafNo d none nums p
  leaf.elim [] (fun no => [.access no, .change no]) ++ (corrected key b d none nums t p).flatMap touch ++
    leaf.elim [] (fun no => [.dirty no])

section new
variable (new : ℕ → ℕ)

/-- The numbers below what stays and below the new block; `new h` is the number of the new block at height
`h`. -/
def cutNums : (d : ℕ) → Nums → Tree β d → Path d → Nums × Nums
  | 0, nums, _, _ => (nums, nums)
  | d + 1, nums, (t : Block (ℕ × Tree β d)), (p : ℕ × Path d) =>
    match t.entries[p.1]? with
    | none => (nums, nums)
    | some (_, c) =>
      let r := cutNums d (nums.below p.1) c p.2
      (nums.setBelow p.1 r.1, Nums.insertIdx (fun q => nums ((p.1 + 1 + q.headD 0) :: q.tail)) 0 (new d) r.2)

/-- The new block is made, and what has moved to it is taken from the old one. -/
def cutEvs : (d : ℕ) → Option ℕ → Nums → Tree β d → Path d → List (Ev ℕ)
  | 0, self, _, (t : Block β), (p : Option ℕ) =>
    make (new 0) ++ if p.elim 0 (· + 1) < t.entries.length then touch self else []
  | d + 1, self, nums, (t : Block (ℕ × Tree β d)), (p : ℕ × Path d) =>
    match t.entries[p.1]? with
    | none => make (new (d + 1))
    | some (_, c) =>
      cutEvs d (some (nums [p.1])) (nums.below p.1) c p.2 ++ make (new (d + 1)) ++
        if p.1 + 1 < t.entries.length then touch self else []

/-- The numbers and the events of `splitPath`. -/
def splitPathJ : (d : ℕ) → Option ℕ → Nums → Tree β d → Path d → Option (Nums × List (Ev ℕ))
  | 0, _, _, _, _ => none
  | d + 1, self, nums, (t : Block (ℕ × Tree β d)), (p : ℕ × Path d) =>
    match t.entries[p.1]? with
    | none => none
    | some (k, c) =>
      match splitPathJ d (some (nums [p.1])) (nums.below p.1) c p.2 with
      | some r => some (nums.setBelow p.1 r.1, r.2)
      | none =>
        if t.entries.length < t.cap then
          let r := cutNums new d (nums.below p.1) c p.2
          let i := if k < (cut key b bmax d c p.2).2.1 then p.1 + 1 else p.1
          some ((nums.setBelow p.1 r.1).insertIdx i (new d) r.2,
            cutEvs new d (some (nums [p.1])) (nums.below p.1) c p.2 ++ touch self)
        else none

end new

variable (alloc : ℕ → ℕ → ℕ)

/-- The numbers and the events of `newLeaf`; `alloc n` are the numbers of the blocks made when there are `n`
attempts left. -/
def newLeafJ : ℕ → (d : ℕ) → Nums → Tree β d → Path d → Nums × List (Ev ℕ)
  | 0, _, nums, _, _ => (nums, [])
  | n + 1, d, nums, t, p =>
    match splitPathJ key b bmax (alloc n) d none nums t p with
    | some r => r
    | none =>
      let no := alloc n 0
      let t1 := grow key bmax d t
      let p1 := search key (key b) (d + 1) t1
      if leafFull (d + 1) t1 p1 then
        let r := newLeafJ n (d + 1) (nums.grow no) t1 p1
        (r.1, make no ++ r.2)
      else (nums.grow no, make no)

/-- The numbers and the events of `insert`. -/
def insertJ (d : ℕ) (nums : Nums) (t : Tree β d) (p : Path d) : Nums × List (Ev ℕ) :=
  if leafFull d t p = false then (nums, insertAtEvs key b d nums t p)
  else
    match (leafBehind key b d t p).filter fun p' => !leafFull d t p' with
    | some p' => (nums, insertAtEvs key b d nums t p')
    | none =>
      let t' := newLeaf key b bmax 2 d t p
      let r := newLeafJ key b bmax alloc 2 d nums t p
      (r.1, r.2 ++ insertAtEvs key b t'.1 r.1 t'.2 (search key (key b) t'.1 t'.2))

end insertion

/-! ### Insertion is safe -/

/-- Events of one handle that need no access granted before, mark dirty what they change, and take no access
away. -/
structure Safe (evs : List (Ev ℕ)) : Prop where
  accessed : ∀ g, Accessed g evs
  dirtied : Dirtied evs
  plain : ∀ e ∈ evs, e.plain = true

variable {evs evs' : List (Ev ℕ)}

theorem Safe.keeps (h : Safe evs) (g : List ℕ) : g ⊆ grants g evs := subset_grants h.plain

theorem Safe.nil : Safe [] := ⟨fun _ => trivial, trivial, nofun⟩

theorem Safe.append (h : Safe evs) (h' : Safe evs') : Safe (evs ++ evs') where
  accessed g := accessed_append.mpr ⟨h.accessed g, h'.accessed _⟩
  dirtied := h.dirtied.append h'.dirtied
  plain := List.forall_mem_append.mpr ⟨h.plain, h'.plain⟩

theorem Safe.ite {c : Prop} [Decidable c] (h : Safe evs) (h' : Safe evs') :
    Safe (if c then evs else evs') := by
  split_ifs
  · exact h
  · exact h'

/-- A buffer that is changed before others are and marked dirty after them. -/
theorem Safe.around (h : Safe evs) (no : ℕ) : Safe ([.access no, .change no] ++ evs ++ [.dirty no]) where
  accessed g := by
    rw [accessed_append, accessed_append]
    exact ⟨⟨by simp [Accessed, grant], h.accessed _⟩, by simp [Accessed]⟩
  dirtied := by
    refine ⟨by simp, fun b hb => ?_, h.dirtied.append (by simp [Dirtied])⟩
    cases hb
    exact settled_dirty h.plain
  plain := by
    refine List.forall_mem_append.mpr ⟨List.forall_mem_append.mpr ⟨?_, h.plain⟩, ?_⟩ <;> simp [Ev.plain]

theorem safe_touch (no : Option ℕ) : Safe (touch no) := by
  cases no with
  | none => exact Safe.nil
  | some b => exact Safe.nil.around b

theorem safe_make (b : ℕ) : Safe (make b) :=
  ⟨fun g => by simp [make, Accessed, grant], by simp [make, Dirtied, Settled], by simp [make, Ev.plain]⟩

theorem safe_flatMap_touch (nos : List (Option ℕ)) : Safe (nos.flatMap touch) := by
  induction nos with
  | nil => exact Safe.nil
  | cons no nos ih =>
    rw [List.flatMap_cons]
    exact (safe_touch no).append ih

section
variable (key : β → ℕ) (b : β) (bmax : ℕ)

theorem insertAt_safe (d : ℕ) (nums : Nums) (t : Tree β d) (p : Path d) :
    Safe (insertAtEvs key b d nums t p) := by
  unfold insertAtEvs
  have h := safe_flatMap_touch (corrected key b d none nums t p)
  cases leafNo d none nums p with
  | none => exact (Safe.nil.append h).append Safe.nil
  | some no => exact h.around no

theorem cut_safe (new : ℕ → ℕ) : ∀ (d : ℕ) (self : Option ℕ) (nums : Nums) (t : Tree β d) (p : Path d),
    Safe (cutEvs new d self nums t p)
  | 0, self, _, _, _ => (safe_make _).append ((safe_touch self).ite Safe.nil)
  | d + 1, self, nums, (t : Block (ℕ × Tree β d)), (p : ℕ × Path d) => by
    simp only [cutEvs]
    cases t.entries[p.1]? with
    | none => exact safe_make _
    | some e =>
      exact ((cut_safe new d _ _ e.2 p.2).append (safe_make _)).append ((safe_touch self).ite Safe.nil)

end

/-! ### Numbers are old or new -/

/-- All numbers of a tree of depth `d` are in `g`. -/
def Known (d : ℕ) (nums : Nums) (g : List ℕ) : Prop := ∀ q, q ≠ [] → q.length ≤ d → nums q ∈ g

variable {d i no : ℕ} {nums sub : Nums} {g g' : List ℕ}

theorem Known.mono (h : Known d nums g) (hg : g ⊆ g') : Known d nums g' :=
  fun q hq hd => hg (h q hq hd)

theorem known_zero : Known 0 nums g := fun q hq hd => absurd (List.length_eq_zero_iff.mp (by omega)) hq

theorem Known.below (h : Known (d + 1) nums g) (i : ℕ) : Known d (nums.below i) g :=
  fun q _ hd => h (i :: q) (List.cons_ne_nil i q) (Nat.succ_le_succ hd)

theorem Known.setBelow (h : Known (d + 1) nums g) (hs : Known d sub g) (i : ℕ) :
    Known (d + 1) (nums.setBelow i sub) g := by
  intro q hq hd
  cases q with
  | nil => exact absurd rfl hq
  | cons j q =>
    dsimp only [Nums.setBelow]
    split_ifs with hc
    · exact hs q hc.2 (Nat.le_of_succ_le_succ hd)
    · exact h (j :: q) hq hd

theorem Known.insertIdx (h : Known (d + 1) nums g) (hs : Known d sub g) (hno : no ∈ g) (i : ℕ) :
    Known (d + 1) (nums.insertIdx i no sub) g := by
  intro q hq hd
  cases q with
  | nil => exact absurd rfl hq
  | cons j q =>
    dsimp only [Nums.insertIdx]
    split_ifs with hlt heq hnil
    · exact h (j :: q) hq hd
    · exact hno
    · exact hs q hnil (Nat.le_of_succ_le_succ hd)
    · exact h ((j - 1) :: q) (List.cons_ne_nil _ q) hd

theorem Known.grow (h : Known d nums g) (hno : no ∈ g) : Known (d + 1) (nums.grow no) g := by
  intro q hq hd
  cases q with
  | nil => exact absurd rfl hq
  | cons j q =>
    dsimp only [Nums.grow]
    split_ifs with hnil
    · exact hno
    · exact h q hnil (Nat.le_of_succ_le_succ hd)

/-- The leaf of a path below the top. -/
theorem Known.leafNo_mem : ∀ {d : ℕ} {self : Option ℕ} {nums : Nums} {p : Path d}, Known d nums g →
    leafNo d self nums p = some no → self = some no ∨ no ∈ g
  | 0, _, _, _, _, h => .inl h
  | d + 1, _, _, (p : ℕ × Path d), hk, h => by
    simp only [leafNo] at h
    obtain h1 | h1 := (hk.below p.1).leafNo_mem h
    · cases h1
      exact .inr (hk [p.1] (List.cons_ne_nil _ _) (by simp))
    · exact .inr h1

theorem mem_grants_make : no ∈ grants g (make no) := by simp [make, grant]

/-- What stays and what is cut off have old and new numbers, and the new block is granted. -/
theorem cut_known (new : ℕ → ℕ) : ∀ (d : ℕ) (self : Option ℕ) (nums : Nums) (t : Tree β d) (p : Path d)
    (g : List ℕ), Known d nums g →
      Known d (cutNums new d nums t p).1 (grants g (cutEvs new d self nums t p)) ∧
        Known d (cutNums new d nums t p).2 (grants g (cutEvs new d self nums t p)) ∧
        new d ∈ grants g (cutEvs new d self nums t p)
  | 0, self, _, t, p, g, _ => by
    refine ⟨known_zero, known_zero, ?_⟩
    unfold cutEvs
    rw [grants_append]
    exact ((safe_touch self).ite Safe.nil).keeps _ mem_grants_make
  | d + 1, self, nums, (t : Block (ℕ × Tree β d)), (p : ℕ × Path d), g, h => by
    simp only [cutNums, cutEvs]
    cases t.entries[p.1]? with
    | none => exact ⟨h.mono ((safe_make _).keeps g), h.mono ((safe_make _).keeps g), mem_grants_make⟩
    | some e =>
      obtain ⟨h1, h2, h3⟩ := cut_known new d (some (nums [p.1])) (nums.below p.1) e.2 p.2 g (h.below p.1)
      have hc := cut_safe new d (some (nums [p.1])) (nums.below p.1) e.2 p.2
      have hrest := (safe_make (new (d + 1))).append
        ((safe_touch self).ite (c := p.1 + 1 < t.entries.length) Safe.nil)
      dsimp only
      rw [List.append_assoc, grants_append]
      have hold := h.mono fun _ hx => hrest.keeps _ (hc.keeps g hx)
      refine ⟨hold.setBelow (h1.mono (hrest.keeps _)) _, ?_, ?_⟩
      · have hshift : Known (d + 1) (fun q => nums ((p.1 + 1 + q.headD 0) :: q.tail))
            (grants (grants g (cutEvs new d (some (nums [p.1])) (nums.below p.1) e.2 p.2))
              (make (new (d + 1)) ++ if p.1 + 1 < t.entries.length then touch self else [])) := by
          intro q hq hd
          refine hold _ (List.cons_ne_nil _ _) ?_
          cases q with
          | nil => exact absurd rfl hq
          | cons j q => exact hd
        exact hshift.insertIdx (h2.mono (hrest.keeps _)) (hrest.keeps _ h3) 0
      · rw [grants_append]
        exact ((safe_touch self).ite Safe.nil).keeps _ mem_grants_make

section
variable (key : β → ℕ) (b : β) (bmax : ℕ)

theorem splitPath_known (new : ℕ → ℕ) : ∀ (d : ℕ) (self : Option ℕ) (nums : Nums) (t : Tree β d)
    (p : Path d) (r : Nums × List (Ev ℕ)), splitPathJ key b bmax new d self nums t p = some r →
      Safe r.2 ∧ ∀ g, Known d nums g → Known d r.1 (grants g r.2)
  | 0, _, _, _, _, _, h => nomatch h
  | d + 1, self, nums, (t : Block (ℕ × Tree β d)), (p : ℕ × Path d), r, h => by
    simp only [splitPathJ] at h
    cases he : t.entries[p.1]? with
    | none =>
      rw [he] at h
      cases h
    | some e =>
      simp only [he] at h
      cases hs : splitPathJ key b bmax new d (some (nums [p.1])) (nums.below p.1) e.2 p.2 with
      | some r' =>
        rw [hs] at h
        cases h
        obtain ⟨hsafe, hknown⟩ := splitPath_known new d _ _ _ _ _ hs
        exact ⟨hsafe, fun g hg => (hg.mono (hsafe.keeps g)).setBelow (hknown g (hg.below _)) _⟩
      | none =>
        rw [hs] at h
        dsimp only at h
        by_cases hroom : t.entries.length < t.cap
        swap
        · rw [if_neg hroom] at h
          cases h
        rw [if_pos hroom] at h
        cases h
        have hc := cut_safe new d (some (nums [p.1])) (nums.below p.1) e.2 p.2
        have ht := safe_touch self
        refine ⟨hc.append ht, fun g hg => ?_⟩
        obtain ⟨h1, h2, h3⟩ := cut_known new d (some (nums [p.1])) (nums.below p.1) e.2 p.2 g (hg.below p.1)
        rw [grants_append]
        have hold := hg.mono fun _ hx => ht.keeps _ (hc.keeps g hx)
        exact (hold.setBelow (h1.mono (ht.keeps _)) _).insertIdx (h2.mono (ht.keeps _)) (ht.keeps _ h3) _

/-- The same decision as in the tree. -/
theorem splitPathJ_isSome (new : ℕ → ℕ) : ∀ (d : ℕ) (self : Option ℕ) (nums : Nums) (t : Tree β d)
    (p : Path d), (splitPathJ key b bmax new d self nums t p).isSome = (splitPath key b bmax d t p).isSome
  | 0, _, _, _, _ => rfl
  | d + 1, self, nums, (t : Block (ℕ × Tree β d)), (p : ℕ × Path d) => by
    simp only [splitPathJ, splitPath]
    cases t.entries[p.1]? with
    | none => rfl
    | some e =>
      have ih := splitPathJ_isSome new d (some (nums [p.1])) (nums.below p.1) e.2 p.2
      dsimp only
      cases hs : splitPathJ key b bmax new d (some (nums [p.1])) (nums.below p.1) e.2 p.2 with
      | some r =>
        rw [hs] at ih
        obtain ⟨t', ht'⟩ := Option.isSome_iff_exists.mp ih.symm
        rw [ht']
        rfl
      | none =>
        rw [hs] at ih
        have hnone : splitPath key b bmax d e.2 p.2 = none :=
          Option.isNone_iff_eq_none.mp (Option.isSome_eq_false_iff.mp ih.symm)
        rw [hnone]
        dsimp only
        split_ifs <;> rfl

variable (alloc : ℕ → ℕ → ℕ)

theorem newLeaf_known : ∀ (n d : ℕ) (nums : Nums) (t : Tree β d) (p : Path d),
    Safe (newLeafJ key b bmax alloc n d nums t p).2 ∧ ∀ g, Known d nums g →
      Known (newLeaf key b bmax n d t p).1 (newLeafJ key b bmax alloc n d nums t p).1
        (grants g (newLeafJ key b bmax alloc n d nums t p).2)
  | 0, _, _, _, _ => ⟨Safe.nil, fun _ h => h⟩
  | n + 1, d, nums, t, p => by
    have hsome := splitPathJ_isSome key b bmax (alloc n) d none nums t p
    unfold newLeafJ newLeaf
    cases hs : splitPathJ key b bmax (alloc n) d none nums t p with
    | some r =>
      rw [hs] at hsome
      obtain ⟨t', ht'⟩ := Option.isSome_iff_exists.mp hsome.symm
      rw [ht']
      exact splitPath_known key b bmax (alloc n) d none nums t p r hs
    | none =>
      rw [hs] at hsome
      have hnone : splitPath key b bmax d t p = none :=
        Option.isNone_iff_eq_none.mp (Option.isSome_eq_false_iff.mp hsome.symm)
      rw [hnone]
      dsimp only
      have hgrow : ∀ g, Known d nums g →
          Known (d + 1) (nums.grow (alloc n 0)) (grants g (make (alloc n 0))) :=
        fun g hg => (hg.mono ((safe_make _).keeps g)).grow mem_grants_make
      split_ifs with hfull
      · obtain ⟨hsafe, hknown⟩ := newLeaf_known n (d + 1) (nums.grow (alloc n 0)) (grow key bmax d t)
          (search key (key b) (d + 1) (grow key bmax d t))
        refine ⟨(safe_make _).append hsafe, fun g hg => ?_⟩
        rw [grants_append]
        exact hknown _ (hgrow g hg)
      · exact ⟨safe_make _, hgrow⟩

/-- **Insertion.** It is safe, and every block below the top is one that was there or one it has made. -/
theorem insert_known (d : ℕ) (nums : Nums) (t : Tree β d) (p : Path d) :
    Safe (insertJ key b bmax alloc d nums t p).2 ∧ ∀ g, Known d nums g →
      Known (IndexInsert.insert key b bmax d t p).1 (insertJ key b bmax alloc d nums t p).1
        (grants g (insertJ key b bmax alloc d nums t p).2) := by
  have hold : ∀ p', Safe (insertAtEvs key b d nums t p') ∧ ∀ g, Known d nums g →
      Known d nums (grants g (insertAtEvs key b d nums t p')) :=
    fun p' => ⟨insertAt_safe key b d nums t p', fun g hg => hg.mono ((insertAt_safe key b d nums t p').keeps g)⟩
  unfold insertJ IndexInsert.insert
  split_ifs with hfull
  · exact hold p
  · cases (leafBehind key b d t p).filter fun p' => !leafFull d t p' with
    | some p' => exact hold p'
    | none =>
      obtain ⟨hsafe, hknown⟩ := newLeaf_known key b bmax alloc 2 d nums t p
      have hins := insertAt_safe key b (newLeaf key b bmax 2 d t p).1
        (newLeafJ key b bmax alloc 2 d nums t p).1 (newLeaf key b bmax 2 d t p).2
        (search key (key b) (newLeaf key b bmax 2 d t p).1 (newLeaf key b bmax 2 d t p).2)
      refine ⟨hsafe.append hins, fun g hg => ?_⟩
      dsimp only
      rw [grants_append]
      exact (hknown g hg).mono (hins.keeps _)

end

end LinuxEvfs.Lib.TreeJournal
