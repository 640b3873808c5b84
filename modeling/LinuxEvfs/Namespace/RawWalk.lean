import LinuxEvfs.Lib.Bytes
import LinuxEvfs.Namespace.Block
import Mathlib.Logic.Relation

/-! # The walks over the bytes of a directory block

`evfs_dentry_read` and `evfs_dentry_update` follow the lengths in the records of the first block without checking
them. Here the block is bytes, followed by whatever lies behind it in memory, and a walk is the list of the bytes it
reads and writes through `curr_dentry`.

* `walk_total`: the walks end.
* `walk_found`, `walk_inside_iff`: where they end, and what they read on the way, in terms of the offsets that the
  lengths lead to (`Visited`).
* `dentry_walks_inside_iff`: all accesses are inside the block exactly if the headers at these offsets are and, for
  `evfs_dentry_read`, the name of the entry that is found is.
* `walk_records`: on the bytes of a well-formed block the walk finds the record that `nthLive` does.
* `evfsDentryRead_outside`: a dead record that ends one byte before the end of the block. -/

namespace LinuxEvfs.Namespace.RawWalk

open LinuxEvfs.Lib.Bytes LinuxEvfs.Namespace.Dir LinuxEvfs.Namespace.Block

/-- The bytes of an access, from the start of the block. -/
structure Access where
  off : ℕ
  len : ℕ
deriving DecidableEq

/-- Where the walk has ended, and the accesses on the way. -/
structure Walk where
  accesses : List Access
  found : Option ℕ
deriving DecidableEq

variable (mem : Buf) (limit target : ℕ)

/-- `curr_dentry->rec_len`. -/
def recLenAt (o : ℕ) : ℕ := mem.num (o + 4) 2

/-- `curr_dentry->inode`. -/
def inodeAt (o : ℕ) : ℕ := mem.num o 4

/-- `curr_dentry->name_len`. -/
def nameLenAt (o : ℕ) : ℕ := (mem (o + 6)).toNat

/-- The loop, with `offset` in 32 bits and `curr_dentry` at `ptr`; `none` where it has not ended yet. -/
def walk : ℕ → ℕ → ℕ → ℕ → Option Walk
  | 0, _, _, _ => none
  | fuel + 1, offset, ptr, entryCount =>
    if limit ≤ offset then some ⟨[], none⟩
    else if recLenAt mem ptr = 0 then some ⟨[⟨ptr + 4, 2⟩], none⟩
    else if inodeAt mem ptr ≠ 0 ∧ entryCount = target then some ⟨[⟨ptr + 4, 2⟩, ⟨ptr, 4⟩], some ptr⟩
    else
      (walk fuel ((offset + recLenAt mem ptr) % 2 ^ 32) (ptr + recLenAt mem ptr)
        (if inodeAt mem ptr ≠ 0 then entryCount + 1 else entryCount)).map
        fun w => ⟨⟨ptr + 4, 2⟩ :: ⟨ptr, 4⟩ :: w.accesses, w.found⟩

/-- `blocksize - trailing_checksum_size`, in 32 bits. -/
def walkLimit (blocksize : ℕ) (csum : Bool) : ℕ := (blocksize + 2 ^ 32 - if csum then 12 else 0) % 2 ^ 32

/-- The accesses of `evfs_dentry_read`: of the entry that is found, the inode, the type, the length of the name and
the name are copied. -/
def readAccesses (blocksize : ℕ) (csum : Bool) (fuel : ℕ) : Option (List Access) :=
  (walk mem (walkLimit blocksize csum) target fuel 0 0 0).map fun w =>
    w.accesses ++ w.found.elim [] fun p => [⟨p, 4⟩, ⟨p + 7, 1⟩, ⟨p + 6, 1⟩, ⟨p + 8, nameLenAt mem p⟩]

/-- The accesses of `evfs_dentry_update`. The inode of the entry is read, and written where the update gets so far
(`stores`). Where no entry is found, the number `-1UL` is no inode, and nothing is written. -/
def updateAccesses (blocksize : ℕ) (csum stores : Bool) (fuel : ℕ) : Option (List Access) :=
  (walk mem (walkLimit blocksize csum) target fuel 0 0 0).map fun w =>
    w.accesses ++ w.found.elim [] fun p => ⟨p, 4⟩ :: if stores then [⟨p, 4⟩] else []

/-- Every byte is in the block. -/
def Inside (blocksize : ℕ) (l : List Access) : Prop :=
  ∀ a ∈ l, ∀ i, a.off ≤ i → i < a.off + a.len → i < blocksize

/-- The walk ends, and all its accesses are in the block. -/
def Safe (blocksize : ℕ) (accesses : ℕ → Option (List Access)) : Prop :=
  ∃ fuel l, accesses fuel = some l ∧ Inside blocksize l

/-! ### The offsets that are visited -/

/-- The record at an offset below the limit is the one looked for. -/
def Hit (o n : ℕ) : Prop := o < limit ∧ recLenAt mem o ≠ 0 ∧ inodeAt mem o ≠ 0 ∧ n = target

/-- From an offset, with the live records before it counted, to the next. -/
def Next (a b : ℕ × ℕ) : Prop :=
  a.1 < limit ∧ recLenAt mem a.1 ≠ 0 ∧ ¬ (inodeAt mem a.1 ≠ 0 ∧ a.2 = target) ∧
    b = (a.1 + recLenAt mem a.1, if inodeAt mem a.1 ≠ 0 then a.2 + 1 else a.2)

/-- The offsets that the lengths lead to. -/
def Visited (a b : ℕ × ℕ) : Prop := Relation.ReflTransGen (Next mem limit target) a b

/-- The header fields up to the length are in the block, at every offset visited. -/
def HeadersFit (blocksize : ℕ) (a : ℕ × ℕ) : Prop :=
  ∀ b, Visited mem limit target a b → b.1 < limit → b.1 + 6 ≤ blocksize

/-- The name of the entry looked for is in the block. -/
def NameFits (blocksize : ℕ) (a : ℕ × ℕ) : Prop :=
  ∀ b, Visited mem limit target a b → Hit mem limit target b.1 b.2 → b.1 + 8 + nameLenAt mem b.1 ≤ blocksize

variable {mem limit target} {blocksize fuel o n : ℕ} {w : Walk} {l l' : List Access} {a : Access}

theorem recLenAt_lt (o : ℕ) : recLenAt mem o < 65536 := by
  have h₀ := (mem (o + 4)).toNat_lt
  have h₁ := (mem (o + 4 + 1)).toNat_lt
  simp only [recLenAt, Buf.num]
  omega

theorem inside_nil : Inside blocksize [] ↔ True := iff_true_intro fun _ h => absurd h List.not_mem_nil

theorem inside_cons : Inside blocksize (a :: l) ↔ (a.len = 0 ∨ a.off + a.len ≤ blocksize) ∧ Inside blocksize l := by
  unfold Inside
  rw [List.forall_mem_cons]
  refine and_congr_left fun _ => ⟨fun h => ?_, fun h i hle hlt => by omega⟩
  by_contra hne
  rw [not_or] at hne
  have := h (a.off + a.len - 1) (by omega) (by omega)
  omega

theorem inside_append : Inside blocksize (l ++ l') ↔ Inside blocksize l ∧ Inside blocksize l' :=
  List.forall_mem_append

/-- The length and the inode of a record. -/
theorem inside_header :
    Inside blocksize (⟨o + 4, 2⟩ :: ⟨o, 4⟩ :: l) ↔ o + 6 ≤ blocksize ∧ Inside blocksize l := by
  rw [inside_cons, inside_cons, ← and_assoc]
  refine and_congr_left fun _ => ?_
  dsimp only
  omega

/-- The fields of the entry that is found, and its name. -/
theorem inside_entry {k : ℕ} :
    Inside blocksize [⟨o, 4⟩, ⟨o + 7, 1⟩, ⟨o + 6, 1⟩, ⟨o + 8, k⟩] ↔ o + 8 + k ≤ blocksize := by
  simp only [inside_cons, inside_nil, and_true]
  omega

/-- What holds at every offset visited: at the first one, and from the next one on. -/
theorem forall_visited_iff {P : ℕ × ℕ → Prop} {a : ℕ × ℕ} :
    (∀ b, Visited mem limit target a b → P b) ↔
      P a ∧ ∀ c, Next mem limit target a c → ∀ b, Visited mem limit target c b → P b := by
  constructor
  · exact fun h => ⟨h a .refl, fun c hac b hcb => h b (.head hac hcb)⟩
  · rintro ⟨ha, hrest⟩ b hb
    rcases Relation.ReflTransGen.cases_head hb with rfl | ⟨c, hac, hcb⟩
    · exact ha
    · exact hrest c hac b hcb

/-! ### One walk -/

section walk
variable (hlimit : limit + 65535 < 2 ^ 32)
include hlimit

/-- `offset` does not wrap. -/
theorem offset_next (ho : o < limit) : (o + recLenAt mem o) % 2 ^ 32 = o + recLenAt mem o := by
  have hlt : recLenAt mem o < 65536 := recLenAt_lt o
  exact Nat.mod_eq_of_lt (by omega)

/-- The walk ends. -/
theorem walk_total (mem : Buf) (target : ℕ) : ∀ (fuel o n : ℕ), limit - o < fuel →
    ∃ w, walk mem limit target fuel o o n = some w
  | 0, _, _, h => absurd h (Nat.not_lt_zero _)
  | fuel + 1, o, n, h => by
    unfold walk
    by_cases hend : limit ≤ o
    · exact ⟨_, if_pos hend⟩
    by_cases hzero : recLenAt mem o = 0
    · exact ⟨_, by rw [if_neg hend, if_pos hzero]⟩
    by_cases hhit : inodeAt mem o ≠ 0 ∧ n = target
    · exact ⟨_, by rw [if_neg hend, if_neg hzero, if_pos hhit]⟩
    rw [if_neg hend, if_neg hzero, if_neg hhit, offset_next hlimit (not_le.mp hend)]
    obtain ⟨w, hw⟩ := walk_total mem target fuel (o + recLenAt mem o)
      (if inodeAt mem o ≠ 0 then n + 1 else n) (by omega)
    exact ⟨_, by rw [hw]; rfl⟩

/-- What one pass of the loop does. -/
theorem walk_cases (h : walk mem limit target (fuel + 1) o o n = some w) :
    (limit ≤ o ∧ w = ⟨[], none⟩) ∨
    (o < limit ∧ recLenAt mem o = 0 ∧ w = ⟨[⟨o + 4, 2⟩], none⟩) ∨
    (Hit mem limit target o n ∧ w = ⟨[⟨o + 4, 2⟩, ⟨o, 4⟩], some o⟩) ∨
    ∃ c w', Next mem limit target (o, n) c ∧ walk mem limit target fuel c.1 c.1 c.2 = some w' ∧
      w = ⟨⟨o + 4, 2⟩ :: ⟨o, 4⟩ :: w'.accesses, w'.found⟩ := by
  unfold walk at h
  by_cases hend : limit ≤ o
  · rw [if_pos hend] at h
    exact .inl ⟨hend, (Option.some.inj h).symm⟩
  have hlt : o < limit := not_le.mp hend
  rw [if_neg hend] at h
  by_cases hzero : recLenAt mem o = 0
  · rw [if_pos hzero] at h
    exact .inr (.inl ⟨hlt, hzero, (Option.some.inj h).symm⟩)
  rw [if_neg hzero] at h
  by_cases hhit : inodeAt mem o ≠ 0 ∧ n = target
  · rw [if_pos hhit] at h
    exact .inr (.inr (.inl ⟨⟨hlt, hzero, hhit.1, hhit.2⟩, (Option.some.inj h).symm⟩))
  rw [if_neg hhit, offset_next hlimit hlt] at h
  obtain ⟨w', hw', rfl⟩ := Option.map_eq_some_iff.mp h
  exact .inr (.inr (.inr ⟨_, w', ⟨hlt, hzero, hhit, rfl⟩, hw', rfl⟩))

end walk

/-- The next offset is determined. -/
theorem Next.unique {a b c : ℕ × ℕ} (hb : Next mem limit target a b) (hc : Next mem limit target a c) : b = c :=
  hb.2.2.2.trans hc.2.2.2.symm

theorem Hit.not_next (h : Hit mem limit target o n) (c : ℕ × ℕ) : ¬ Next mem limit target (o, n) c :=
  fun hc => hc.2.2.1 ⟨h.2.2.1, h.2.2.2⟩

/-- The walk goes no further. -/
theorem headersFit_stop (hno : ∀ c, ¬ Next mem limit target (o, n) c) :
    HeadersFit mem limit target blocksize (o, n) ↔ (o < limit → o + 6 ≤ blocksize) := by
  rw [HeadersFit, forall_visited_iff]
  exact ⟨fun h => h.1, fun h => ⟨h, fun c hc => absurd hc (hno c)⟩⟩

theorem headersFit_next {c : ℕ × ℕ} (hc : Next mem limit target (o, n) c) :
    HeadersFit mem limit target blocksize (o, n) ↔
      o + 6 ≤ blocksize ∧ HeadersFit mem limit target blocksize c := by
  rw [HeadersFit, forall_visited_iff]
  constructor
  · exact fun h => ⟨h.1 hc.1, h.2 c hc⟩
  · exact fun h => ⟨fun _ => h.1, fun c' hc' => hc.unique hc' ▸ h.2⟩

/-- **The accesses on the way.** -/
theorem walk_inside_iff (hlimit : limit + 65535 < 2 ^ 32) : ∀ {fuel o n : ℕ} {w : Walk},
    walk mem limit target fuel o o n = some w →
      (Inside blocksize w.accesses ↔ HeadersFit mem limit target blocksize (o, n))
  | 0, _, _, _, h => by cases h
  | fuel + 1, o, n, w, h => by
    rcases walk_cases hlimit h with ⟨hend, rfl⟩ | ⟨hlt, hzero, rfl⟩ | ⟨hhit, rfl⟩ | ⟨c, w', hc, hw', rfl⟩
    · rw [headersFit_stop fun c hc => absurd hc.1 (not_lt.mpr hend)]
      exact iff_of_true (inside_nil.mpr trivial) fun hlt => absurd hlt (not_lt.mpr hend)
    · rw [headersFit_stop fun c hc => absurd hzero hc.2.1, inside_cons, inside_nil, and_true]
      dsimp only
      omega
    · rw [headersFit_stop hhit.not_next, inside_header, inside_nil, and_true]
      exact ⟨fun h _ => h, fun h => h hhit.1⟩
    · rw [headersFit_next hc, ← walk_inside_iff hlimit hw']
      exact inside_header

/-- **Where it ends**: at the record looked for, if an offset visited holds it. -/
theorem walk_found_iff (hlimit : limit + 65535 < 2 ^ 32) : ∀ {fuel o n : ℕ} {w : Walk},
    walk mem limit target fuel o o n = some w →
      ∀ p, w.found = some p ↔ ∃ m, Visited mem limit target (o, n) (p, m) ∧ Hit mem limit target p m
  | 0, _, _, _, h => by cases h
  | fuel + 1, o, n, w, h => by
    have hstop : (∀ c, ¬ Next mem limit target (o, n) c) → ∀ p,
        (∃ m, Visited mem limit target (o, n) (p, m) ∧ Hit mem limit target p m) ↔
          p = o ∧ Hit mem limit target o n := by
      intro hno p
      constructor
      · rintro ⟨m, hv, hhit⟩
        rcases Relation.ReflTransGen.cases_head hv with heq | ⟨c, hc, -⟩
        · obtain ⟨rfl, rfl⟩ := Prod.mk.inj heq
          exact ⟨rfl, hhit⟩
        · exact absurd hc (hno c)
      · rintro ⟨rfl, hhit⟩
        exact ⟨n, .refl, hhit⟩
    intro p
    rcases walk_cases hlimit h with ⟨hend, rfl⟩ | ⟨hlt, hzero, rfl⟩ | ⟨hhit, rfl⟩ | ⟨c, w', hc, hw', rfl⟩
    · rw [hstop fun c hc => absurd hc.1 (not_lt.mpr hend)]
      exact iff_of_false nofun fun hp => absurd hp.2.1 (not_lt.mpr hend)
    · rw [hstop fun c hc => absurd hzero hc.2.1]
      exact iff_of_false nofun fun hp => absurd hzero hp.2.2.1
    · rw [hstop hhit.not_next]
      simp only [hhit, and_true, Option.some.injEq, eq_comm]
    · have hrest := walk_found_iff hlimit hw' p
      rw [show (⟨⟨o + 4, 2⟩ :: ⟨o, 4⟩ :: w'.accesses, w'.found⟩ : Walk).found = w'.found from rfl, hrest]
      refine exists_congr fun m => and_congr_left fun hhit => ⟨fun hv => .head hc hv, fun hv => ?_⟩
      rcases Relation.ReflTransGen.cases_head hv with heq | ⟨c', hc', hv'⟩
      · obtain ⟨rfl, rfl⟩ := Prod.mk.inj heq
        exact absurd hc (hhit.not_next c)
      · rwa [hc.unique hc']

/-! ### The two functions -/

theorem walkLimit_eq {csum : Bool} (hlo : 12 ≤ blocksize) (hhi : blocksize + 65535 < 2 ^ 32) :
    walkLimit blocksize csum = blocksize - if csum then 12 else 0 := by
  unfold walkLimit
  cases csum <;> simp <;> omega

section block
variable (hlo : 12 ≤ blocksize) (hhi : blocksize + 65535 < 2 ^ 32)
include hlo hhi

/-- The walk over a block, with what is accessed behind it. -/
theorem safe_iff (mem : Buf) (target : ℕ) (csum : Bool) (more : Walk → List Access) :
    Safe blocksize (fun fuel => (walk mem (walkLimit blocksize csum) target fuel 0 0 0).map
      fun w => w.accesses ++ more w) ↔
    ∃ fuel w, walk mem (walkLimit blocksize csum) target fuel 0 0 0 = some w ∧
      HeadersFit mem (walkLimit blocksize csum) target blocksize (0, 0) ∧ Inside blocksize (more w) := by
  have hlimit : walkLimit blocksize csum + 65535 < 2 ^ 32 := by
    rw [walkLimit_eq hlo hhi]
    omega
  unfold Safe
  refine exists_congr fun fuel => ?_
  constructor
  · rintro ⟨l, hl, hin⟩
    obtain ⟨w, hw, rfl⟩ := Option.map_eq_some_iff.mp hl
    rw [inside_append, walk_inside_iff hlimit hw] at hin
    exact ⟨w, hw, hin⟩
  · rintro ⟨w, hw, hin⟩
    rw [← walk_inside_iff hlimit hw, ← inside_append] at hin
    exact ⟨_, congrArg (Option.map _) hw, hin⟩

end block

/-- **Inside the block.** -/
theorem dentry_walks_inside_iff (blocksize : ℕ) (csum : Bool) (mem : Buf) (target : ℕ) (hlo : 12 ≤ blocksize)
    (hhi : blocksize + 65535 < 2 ^ 32) :
    (Safe blocksize (readAccesses mem target blocksize csum) ↔
      HeadersFit mem (walkLimit blocksize csum) target blocksize (0, 0) ∧
        NameFits mem (walkLimit blocksize csum) target blocksize (0, 0)) ∧
    ∀ stores, Safe blocksize (updateAccesses mem target blocksize csum stores) ↔
      HeadersFit mem (walkLimit blocksize csum) target blocksize (0, 0) := by
  have hlimit : walkLimit blocksize csum + 65535 < 2 ^ 32 := by
    rw [walkLimit_eq hlo hhi]
    omega
  obtain ⟨w₀, hw₀⟩ := walk_total hlimit mem target _ 0 0 (Nat.lt_succ_self _)
  constructor
  · refine (safe_iff hlo hhi mem target csum _).trans ⟨?_, ?_⟩
    · rintro ⟨fuel, w, hw, hh, hin⟩
      refine ⟨hh, fun b hv hhit => ?_⟩
      rw [(walk_found_iff hlimit hw b.1).mpr ⟨b.2, hv, hhit⟩] at hin
      exact inside_entry.mp hin
    · rintro ⟨hh, hname⟩
      refine ⟨_, w₀, hw₀, hh, ?_⟩
      cases hf : w₀.found with
      | none => exact inside_nil.mpr trivial
      | some p =>
        obtain ⟨m, hv, hhit⟩ := (walk_found_iff hlimit hw₀ p).mp hf
        exact inside_entry.mpr (hname _ hv hhit)
  · intro stores
    refine (safe_iff hlo hhi mem target csum _).trans ⟨fun ⟨_, _, _, hh, _⟩ => hh, fun hh => ⟨_, w₀, hw₀, hh, ?_⟩⟩
    cases hf : w₀.found with
    | none => exact inside_nil.mpr trivial
    | some p =>
      obtain ⟨m, hv, hhit⟩ := (walk_found_iff hlimit hw₀ p).mp hf
      have hp : p + 6 ≤ blocksize := hh _ hv hhit.1
      have hinode : (4 = 0 ∨ p + 4 ≤ blocksize) := .inr (by omega)
      cases stores with
      | false => exact inside_cons.mpr ⟨hinode, inside_nil.mpr trivial⟩
      | true => exact inside_cons.mpr ⟨hinode, inside_cons.mpr ⟨hinode, inside_nil.mpr trivial⟩⟩

/-! ### Blocks of records -/

/-- The bytes from `o` on are those of the records: the fields that the walks read. -/
def Encodes (mem : Buf) : ℕ → DirBlock → Prop
  | _, [] => True
  | o, de :: rest =>
    inodeAt mem o = de.inode ∧ recLenAt mem o = de.recLen ∧ nameLenAt mem o = de.name.length ∧
      Encodes mem (o + de.recLen) rest

section records
variable {sb : Sb} {b : DirBlock} (hlo : 12 ≤ sb.blocksize) (hhi : sb.blocksize + 65535 < 2 ^ 32)
include hlo hhi

theorem walkLimit_bufSize : walkLimit sb.blocksize sb.metadataCsum = sb.bufSize := walkLimit_eq hlo hhi

/-- **The records.** The walk over the bytes ends at the record that `nthLive` finds. -/
theorem walk_records : ∀ {b : DirBlock} {fuel o n : ℕ} {w : Walk}, Formed sb o b → Encodes mem o b → n ≤ target →
    walk mem (walkLimit sb.blocksize sb.metadataCsum) target fuel o o n = some w →
      w.found = (nthLive sb o (target - n) b).map fun k => o + ((b.take k).map DirEntry.recLen).sum
  | _, 0, _, _, _, _, _, _, h => by cases h
  | [], fuel + 1, o, n, w, hb, _, _, h => by
    rw [walkLimit_bufSize hlo hhi, walk, if_pos (Nat.le_of_eq (Eq.symm hb))] at h
    obtain rfl := Option.some.inj h
    rfl
  | de :: rest, fuel + 1, o, n, w, hb, henc, hn, h => by
    obtain ⟨hino, hlen, -, hrest⟩ := henc
    have hlimit : walkLimit sb.blocksize sb.metadataCsum + 65535 < 2 ^ 32 := by
      rw [walkLimit_eq hlo hhi]
      omega
    have hend : ¬ sb.bufSize ≤ o := not_le.mpr hb.lt
    have hpos : ¬ de.recLen = 0 := hb.1.pos.ne'
    -- the next pass, and the rest of the list
    have hstep : ∀ {m : ℕ} {w' : Walk}, m ≤ target →
        walk mem (walkLimit sb.blocksize sb.metadataCsum) target fuel (o + de.recLen) (o + de.recLen) m = some w' →
        w'.found = ((nthLive sb (o + de.recLen) (target - m) rest).map (· + 1)).map
          fun k => o + (((de :: rest).take k).map DirEntry.recLen).sum := by
      intro m w' hm hw'
      rw [walk_records hb.2 hrest hm hw', Option.map_map]
      refine congrArg (Option.map · _) (funext fun k => ?_)
      simp only [Function.comp, List.take_succ_cons, List.map_cons, List.sum_cons]
      omega
    unfold nthLive
    rw [if_neg hend, if_neg hpos]
    rcases walk_cases hlimit h with ⟨hend', -⟩ | ⟨-, hzero, -⟩ | ⟨hhit, rfl⟩ | ⟨c, w', hc, hw', rfl⟩
    · rw [walkLimit_bufSize hlo hhi] at hend'
      exact absurd hend' hend
    · exact absurd (hlen.symm.trans hzero) hpos
    · have hlive : de.inode ≠ 0 := hino ▸ hhit.2.2.1
      rw [if_pos hlive, hhit.2.2.2, Nat.sub_self]
      rfl
    · obtain ⟨-, -, hnot, rfl⟩ := hc
      dsimp only at hnot hw' ⊢
      rw [hino, hlen] at hw'
      rw [hino] at hnot
      by_cases hlive : de.inode ≠ 0
      · have hlt : n < target := lt_of_le_of_ne hn fun h => hnot ⟨hlive, h⟩
        rw [if_pos hlive] at hw' ⊢
        rw [show target - n = target - (n + 1) + 1 by omega]
        exact hstep hlt hw'
      · rw [if_neg hlive] at hw' ⊢
        exact hstep hn hw'

/-- The offsets visited in a well-formed block are those of its records, and its end. -/
theorem visited_formed {x y : ℕ × ℕ} (hv : Visited mem (walkLimit sb.blocksize sb.metadataCsum) target x y) :
    ∀ {b : DirBlock}, Formed sb x.1 b → Encodes mem x.1 b → ∃ b', Formed sb y.1 b' ∧ Encodes mem y.1 b' := by
  induction hv using Relation.ReflTransGen.head_induction_on with
  | refl => exact fun hb henc => ⟨_, hb, henc⟩
  | @head x z hxz _ ih =>
    intro b hb henc
    cases b with
    | nil =>
      have hlt := hxz.1
      rw [walkLimit_bufSize hlo hhi] at hlt
      exact absurd (show x.1 = sb.bufSize from hb) hlt.ne
    | cons de rest =>
      obtain ⟨-, hlen, -, hrest⟩ := henc
      have hz : z.1 = x.1 + de.recLen := by rw [hxz.2.2.2, hlen]
      refine ih (b := rest) ?_ ?_
      · rw [hz]
        exact hb.2
      · rw [hz]
        exact hrest

/-- Well-formed blocks are walked safely. -/
theorem formed_fits (hb : Formed sb 0 b) (henc : Encodes mem 0 b) :
    HeadersFit mem (walkLimit sb.blocksize sb.metadataCsum) target sb.blocksize (0, 0) ∧
      NameFits mem (walkLimit sb.blocksize sb.metadataCsum) target sb.blocksize (0, 0) := by
  have hat : ∀ x, Visited mem (walkLimit sb.blocksize sb.metadataCsum) target (0, 0) x →
      x.1 < walkLimit sb.blocksize sb.metadataCsum → x.1 + 8 + nameLenAt mem x.1 ≤ sb.blocksize := by
    intro x hv hlt
    rw [walkLimit_bufSize hlo hhi] at hlt
    obtain ⟨b', hb', henc'⟩ := visited_formed hlo hhi hv hb henc
    cases b' with
    | nil => exact absurd (show x.1 = sb.bufSize from hb') hlt.ne
    | cons de rest =>
      have hle := hb'.2.le
      have hlarge := hb'.1.large
      have hsize : sb.bufSize ≤ sb.blocksize := Nat.sub_le _ _
      rw [henc'.2.2.1]
      unfold ext4DirRecLen at hlarge
      omega
  refine ⟨fun x hv hlt => ?_, fun x hv hhit => hat x hv hhit.1⟩
  have := hat x hv hlt
  omega

end records

/-! ### A record that ends before the block does -/

/-- A dead record of 1023 bytes, and zeros. -/
def shortBlock : Buf := Buf.puts (fun _ => 0) [⟨4, le 2 1023⟩]

/-- **Outside the block.** The length of the next record is read behind the end. -/
theorem evfsDentryRead_outside :
    readAccesses shortBlock 0 1024 false 3 = some [⟨4, 2⟩, ⟨0, 4⟩, ⟨1027, 2⟩] ∧
      ¬ Safe 1024 (readAccesses shortBlock 0 1024 false) := by
  refine ⟨by decide, fun h => ?_⟩
  obtain ⟨_, _, _, hh, _⟩ := (safe_iff (by decide) (by decide) shortBlock 0 false _).mp h
  have hv : Visited shortBlock (walkLimit 1024 false) 0 (0, 0) (1023, 0) :=
    .single ⟨by decide, by decide, by decide, by decide⟩
  exact absurd (hh _ hv (by decide)) (by decide)

/-- A live record with a name of one byte, up to the end. -/
def wholeBlock : Buf := Buf.puts (fun _ => 0) [⟨0, le 4 2⟩, ⟨4, le 2 1024⟩, ⟨6, [1, 2, 46]⟩]

theorem dentry_walks_inside_whole :
    12 ≤ 1024 ∧ 1024 + 65535 < 2 ^ 32 ∧ HeadersFit wholeBlock (walkLimit 1024 false) 0 1024 (0, 0) ∧
      NameFits wholeBlock (walkLimit 1024 false) 0 1024 (0, 0) := by
  have hsafe : Safe 1024 (readAccesses wholeBlock 0 1024 false) := by
    refine ⟨1, [⟨4, 2⟩, ⟨0, 4⟩, ⟨0, 4⟩, ⟨7, 1⟩, ⟨6, 1⟩, ⟨8, 1⟩], by decide, ?_⟩
    simp [inside_cons, inside_nil]
  exact ⟨by decide, by decide, (dentry_walks_inside_iff 1024 false wholeBlock 0 (by decide) (by decide)).1.mp hsafe⟩

end LinuxEvfs.Namespace.RawWalk
