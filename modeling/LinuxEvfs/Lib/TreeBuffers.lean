import Mathlib.Data.Finset.Option
import Mathlib.Data.Finset.Card
import LinuxEvfs.Lib.IndexFrame

/-! # The buffers an insertion into an index tree hands over

* `handed`, `made`: the blocks that events hand over to the journal, and those among them that are new.
* `insertTop`: an insertion writes to the top block, which has no buffer of its own: there the first key below it is
  corrected, or it gets an entry, or it moves to a new block.
* `insert_room`: an insertion behind an item of a leaf with room hands over the leaf alone. -/

namespace LinuxEvfs.Lib.TreeBuffers

open LinuxEvfs.Lib.IndexTree LinuxEvfs.Lib.IndexInsert LinuxEvfs.Lib.Journal LinuxEvfs.Lib.TreeJournal
open LinuxEvfs.Lib.IndexFrame

/-! ### Events -/

/-- The block of an event, if it is handed over. -/
def handedOf : Ev ℕ → Option ℕ
  | .access b | .create b | .dirty b => some b
  | _ => none

/-- The new block of an event. -/
def madeOf : Ev ℕ → Option ℕ
  | .create b => some b
  | _ => none

def handed (evs : List (Ev ℕ)) : Finset ℕ := (evs.filterMap handedOf).toFinset

def made (evs : List (Ev ℕ)) : Finset ℕ := (evs.filterMap madeOf).toFinset

theorem handed_append (evs evs' : List (Ev ℕ)) : handed (evs ++ evs') = handed evs ∪ handed evs' := by
  simp [handed]

theorem made_append (evs evs' : List (Ev ℕ)) : made (evs ++ evs') = made evs ∪ made evs' := by
  simp [made]

theorem handed_touch (no : Option ℕ) : handed (touch no) = no.toFinset := by
  cases no with
  | none => rfl
  | some b =>
    ext x
    simp [handed, touch, handedOf, eq_comm]

theorem made_touch (no : Option ℕ) : made (touch no) = ∅ := by cases no <;> rfl

/-! ### The top block -/

variable {β : Type}

section top
variable (key : β → ℕ) (b : β) (bmax : ℕ)

/-- An insertion at a path changes the top block: it is the leaf, or its key is corrected. -/
def insertAtTop (d : ℕ) (nums : Nums) (t : Tree β d) (p : Path d) : Bool :=
  d == 0 || (corrected key b d none nums t p).contains none

/-- The entry for the new subtree goes into the top block. -/
def splitPathTop : (d : ℕ) → Tree β d → Path d → Bool
  | 0, _, _ => false
  | d + 1, (t : Block (ℕ × Tree β d)), (p : ℕ × Path d) =>
    match t.entries[p.1]? with
    | none => false
    | some (_, c) => (splitPath key b bmax d c p.2).isNone && t.entries.length < t.cap

/-- A new leaf changes the top block. -/
def newLeafTop (d : ℕ) (t : Tree β d) (p : Path d) : Bool :=
  match splitPath key b bmax d t p with
  | some _ => splitPathTop key b bmax d t p
  | none => true

def insertTop (alloc : ℕ → ℕ → ℕ) (d : ℕ) (nums : Nums) (t : Tree β d) (p : Path d) : Bool :=
  if leafFull d t p = false then insertAtTop key b d nums t p
  else
    match (leafBehind key b d t p).filter fun p' => !leafFull d t p' with
    | some p' => insertAtTop key b d nums t p'
    | none =>
      let t' := newLeaf key b bmax 2 d t p
      let r := newLeafJ key b bmax alloc 2 d nums t p
      newLeafTop key b bmax d t p ||
        insertAtTop key b t'.1 r.1 t'.2 (search key (key b) t'.1 t'.2)

end top

/-! ### Room in the leaf -/

/-- **An insertion behind an item of a leaf with room.** -/
theorem insert_room {key : β → ℕ} {a b : β} (hlt : key a < key b) {d : ℕ} {t : Tree β d} {p : Path d} {l r : List β}
    (hat : At d t p l (some a) r) (hroom : leafFull d t p = false) (bmax : ℕ) (alloc : ℕ → ℕ → ℕ) (nums : Nums) :
    IndexInsert.insert key b bmax d t p = ⟨d, updLeaf (insertBehind b) d t p⟩ ∧
      (insertJ key b bmax alloc d nums t p).1 = nums ∧
      handed (insertJ key b bmax alloc d nums t p).2 = (leafNo d none nums p).toFinset ∧
      made (insertJ key b bmax alloc d nums t p).2 = ∅ ∧
      insertTop key b bmax alloc d nums t p = (d == 0) := by
  have hevs : insertJ key b bmax alloc d nums t p = (nums, insertAtEvs key b d nums t p) := by
    rw [insertJ, if_pos hroom]
  refine ⟨?_, by rw [hevs], ?_, ?_, ?_⟩
  · rw [IndexInsert.insert, if_pos hroom, At.insertAt_behind hlt hat]
  · rw [hevs]
    simp only [insertAtEvs, At.corrected_behind hlt hat, List.flatMap_nil, List.append_nil]
    cases leafNo d none nums p with
    | none => rfl
    | some no =>
      ext x
      simp [handed, handedOf, eq_comm]
  · rw [hevs]
    simp only [insertAtEvs, At.corrected_behind hlt hat, List.flatMap_nil, List.append_nil]
    cases leafNo d none nums p <;> rfl
  · rw [insertTop, if_pos hroom, insertAtTop, At.corrected_behind hlt hat]
    simp

end LinuxEvfs.Lib.TreeBuffers
