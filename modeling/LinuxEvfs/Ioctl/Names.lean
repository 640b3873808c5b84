import LinuxEvfs.Ioctl.Model
import LinuxEvfs.Namespace.Failures
import LinuxEvfs.Namespace.Insertion
import LinuxEvfs.Namespace.Listing
import LinuxEvfs.Namespace.Unique

/-! # Names across the ioctl

A name has up to 255 bytes, and so has the array that it is passed in. `EXT4_EVFS_DEN_ADD` clears the last byte of
the array before it takes the length of the string in it, and `evfs_dentry_read` clears it after the name is copied.

* `cString_placed`: `evfs_dentry_add` is given the first 254 bytes of the name.
* `denAdd_name_iff`: the entry created has the name, in every call that returns 0, exactly if the name has at most
  254 bytes.
* `denRead_shows_iff`: what `EXT4_EVFS_DEN_READ` returns is the name exactly if it has no byte there, or a zero.
* `ioctl_names_iff`: the two together.
* `denAdd_cuts`: a name of 255 bytes. -/

namespace LinuxEvfs.Ioctl.Names

open LinuxEvfs.Errno LinuxEvfs.Lib.Bytes LinuxEvfs.Ioctl.Model
open LinuxEvfs.Namespace.Dir LinuxEvfs.Namespace.Entries LinuxEvfs.Namespace.Model LinuxEvfs.Namespace.Edits
open LinuxEvfs.Namespace.Block LinuxEvfs.Namespace.View LinuxEvfs.Namespace.Listing
open LinuxEvfs.Namespace.Insertion LinuxEvfs.Namespace.Reclaim LinuxEvfs.Namespace.Failures
open LinuxEvfs.Namespace.Unique

/-! ### `EXT4_EVFS_DEN_ADD` -/

/-- The string in an array, up to the first zero. -/
def cString (bytes : List UInt8) : Name := bytes.takeWhile (· ≠ 0)

/-- The command, with the array `in.name`. -/
structure DenAdd where
  copyIn : Bool
  sb : Sb
  calls : Calls
  fs : Fs
  parentInoNum : ℕ
  childInoNum : ℕ
  name : List UInt8
  name_length : name.length = 255

/-- The command up to its end; the last byte of the array is cleared. -/
def DenAdd.exec (a : DenAdd) : Outcome :=
  if a.copyIn = false then .ret a.fs EFAULT.ret
  else evfsDentryAdd a.sb a.calls a.fs a.parentInoNum a.childInoNum (cString (a.name.set 254 0))

/-- The name is in the array, with a zero behind it where there is room. -/
def Placed (name : Name) (array : List UInt8) : Prop :=
  ∃ rest, array = name ++ rest ∧ (rest = [] ∨ ∃ tail, rest = 0 :: tail)

variable {name : Name} {array : List UInt8}

theorem cString_append {l : List UInt8} (hnul : ∀ x ∈ name, x ≠ 0) : cString (name ++ 0 :: l) = name := by
  unfold cString
  rw [List.takeWhile_append_of_pos (by simpa using hnul)]
  simp

/-- What `evfs_dentry_add` is given. -/
theorem cString_placed (hnul : ∀ x ∈ name, x ≠ 0) (hplaced : Placed name array) (hlen : array.length = 255) :
    cString (array.set 254 0) = name.take 254 := by
  obtain ⟨rest, rfl, rfl | ⟨tail, rfl⟩⟩ := hplaced
  · -- no room for a zero
    rw [List.append_nil] at hlen ⊢
    have hset : name.set 254 0 = name.take 254 ++ [0] := by
      rw [List.set_eq_take_append_cons_drop, if_pos (by omega), List.drop_of_length_le (by omega)]
    rw [hset]
    exact cString_append fun x hx => hnul x (List.mem_of_mem_take hx)
  · rw [List.length_append, List.length_cons] at hlen
    rw [List.take_of_length_le (by omega), List.set_append_right _ _ (by omega)]
    cases h : 254 - name.length with
    | zero => exact cString_append hnul
    | succ k => exact cString_append hnul

/-- An insertion of a name of 254 bytes into the root. -/
theorem filesFs_add (hlen : name.length = 254) :
    ∃ s', evfsDentryAdd smallSb quietCalls filesFs 2 15 name = .ret s' 0 := by
  have hready : Ready smallSb quietCalls filesFs 2 15 name :=
    { calls := fun _ => rfl, again := nofun, unlocked := fun _ => rfl
      readParent := ⟨by decide, .inr (by decide)⟩, readChild := ⟨by decide, .inr (by decide)⟩
      isDir := by decide, ne := by decide, length := by omega }
  obtain ⟨x, hx⟩ := hready.add_eq
  have hname : name ≠ [] := fun h => by simp [h] at hlen
  have hmatch : ∀ {de : DirEntry}, de.name.length ≠ 254 → ext4Match name de = false := by
    intro de hde
    have hne : de.name ≠ name := fun h => hde (by rw [h, hlen])
    simp [ext4Match, hne]
  have hdest : ext4FindDestDe smallSb name 0 ((filesFs.ino 2).dir.block 0) = .ok 2 := by
    have hblock : (filesFs.ino 2).dir.block 0 =
        [entry 2 12 [46], entry 2 12 [46, 46], ⟨14, 1000, [97], .regFile⟩] := rfl
    rw [hblock]
    simp [ext4FindDestDe, hlen, hmatch, ext4DirRecLen, smallSb, Sb.bufSize, Sb.csumSize, entry, Except.map]
  have hblocks : (addToBlocks smallSb quietCalls.env (newEntry smallSb filesFs 15 name)
      (filesFs.ino 2).dir.blocks).2 = none := by
    have hadd : (addToBlock smallSb quietCalls.env (newEntry smallSb filesFs 15 name)
        ((filesFs.ino 2).dir.block 0)).2 = none := by
      have hdest' : ext4FindDestDe smallSb (newEntry smallSb filesFs 15 name).name 0
          ((filesFs.ino 2).dir.block 0) = .ok 2 := hdest
      rw [addToBlock, if_neg (by decide), addDirentToBuf, Option.elim, hdest']
      rfl
    have hcons : (filesFs.ino 2).dir.blocks = [(filesFs.ino 2).dir.block 0] := rfl
    rw [hcons, addToBlocks]
    dsimp only
    rw [if_neg (by rw [hadd]; decide)]
    exact hadd
  have hnone : (ext4Link smallSb quietCalls.again quietCalls.env { filesFs with cached := x } 2 15 name).2 = none :=
    ext4Link_of_addToBlocks (s := { filesFs with cached := x }) (fun _ => rfl : ∀ y, quietCalls.env y = none) hname rfl
      hblocks quietCalls.again
  exact ⟨_, by rw [hx, hnone]; rfl⟩

/-- A name of 255 bytes in the array: the command returns 0 and makes an entry with the first 254 of them. -/
theorem denAdd_cut (hnul : ∀ x ∈ name, x ≠ 0) (hlen : name.length = 255) :
    ∃ s', (DenAdd.mk true smallSb quietCalls filesFs 2 15 name hlen).exec = .ret s' 0 ∧
      Named (s'.ino 2).dir 15 (name.take 254) ∧ ¬ Named (s'.ino 2).dir 15 name := by
  have hshort : (name.take 254).length = 254 := by rw [List.length_take]; omega
  obtain ⟨s', hs'⟩ := filesFs_add hshort
  refine ⟨s', ?_, (add_created hs').present, ?_⟩
  · unfold DenAdd.exec
    rw [if_neg Bool.noConfusion, cString_placed hnul ⟨[], (List.append_nil name).symm, .inl rfl⟩ hlen]
    exact hs'
  · rintro ⟨b, hb, de, hde, hi, hn⟩
    rcases (add_created hs').only b hb de hde (by rw [hi]; decide) with ⟨-, hcut⟩ | ⟨b', hb', de', hde', hi', -⟩
    · rw [← hcut, hn] at hshort
      omega
    · have hold : ∀ b ∈ (filesFs.ino 2).dir.blocks, ∀ de ∈ b, de.inode ≠ 15 := by decide
      exact hold b' hb' de' hde' (hi'.trans hi)

theorem denAdd_name_iff (hnul : ∀ x ∈ name, x ≠ 0) (hlen : name.length ≤ 255) :
    (∀ a : DenAdd, Placed name a.name → ∀ s', a.exec = .ret s' 0 →
      Created a.childInoNum name (a.fs.ino a.parentInoNum).dir (s'.ino a.parentInoNum).dir) ↔ name.length ≤ 254 := by
  constructor
  · intro h
    by_contra hlong
    have h255 : name.length = 255 := by omega
    obtain ⟨s', hexec, -, hnot⟩ := denAdd_cut hnul h255
    exact hnot (h _ ⟨[], (List.append_nil name).symm, .inl rfl⟩ s' hexec).present
  · intro hshort a hplaced s' hs'
    unfold DenAdd.exec at hs'
    split_ifs at hs' with hin
    · exact absurd (LinuxEvfs.Namespace.Steps.ret_value hs').symm EFAULT.ret_ne_zero
    · rw [cString_placed hnul hplaced a.name_length, List.take_of_length_le hshort] at hs'
      exact add_created hs'

/-! ### `EXT4_EVFS_DEN_READ` -/

/-- The walk reaches the live entry. -/
def Reached (a : DenRead) (de : DirEntry) : Prop :=
  ∃ k, nthLive a.sb 0 a.targetDentryIndex ((a.fs.ino a.dirInoNum).dir.block 0) = some k ∧
    ((a.fs.ino a.dirInoNum).dir.block 0)[k]? = some de

/-- `out.name_len` is the length of the name, and the first bytes of `out.name` are the name. -/
def Shows (r : Reply) (de : DirEntry) : Prop :=
  ∃ bytes, r.toUser = [bytes] ∧ (bytes[9]?).map UInt8.toNat = some de.name.length ∧
    (bytes.drop 10).take de.name.length = de.name

/-- `evfs_dentry_read` fails, or writes what the walk has reached. -/
theorem read_cases {sb : Sb} {c : Calls} {s s' : Fs} {dir index : ℕ} {ret : ℤ} {out : Option DentryOut}
    (h : evfsDentryRead sb c s dir index = .ret s' ret out) :
    (ret ≠ 0 ∧ out = none) ∨ (ret = 0 ∧ out = some (((nthLive sb 0 index ((s.ino dir).dir.block 0)).bind
      fun k => (((s.ino dir).dir.block 0)[k]?).map readOut).getD notFound)) := by
  unfold evfsDentryRead at h
  split at h
  · cases h
    exact .inl ⟨Errno.ret_ne_zero _, rfl⟩
  next s1 higet =>
  obtain ⟨⟨x, rfl⟩, -⟩ := iget_cached higet
  split_ifs at h
  · cases h
    exact .inl ⟨Errno.ret_ne_zero _, rfl⟩
  split at h
  · cases h
    exact .inl ⟨Errno.ret_ne_zero _, rfl⟩
  dsimp only at h
  split_ifs at h
  · cases h
    exact .inl ⟨Errno.ret_ne_zero _, rfl⟩
  · cases h
    exact .inr ⟨rfl, rfl⟩

/-- The bytes of `out` for an entry. -/
theorem out_bytes (m : Buf) {de : DirEntry} (hlive : de.inode ≠ 0) :
    m.puts (dentryWrites (readOut de)) 9 = UInt8.ofNat de.name.length ∧
      ∀ j < de.name.length, m.puts (dentryWrites (readOut de)) (10 + j) = ((de.name.set 254 0)[j]?).getD 0 := by
  have hname : (readOut de).name.length = de.name.length := List.length_set
  have hwrites : dentryWrites (readOut de) = [⟨0, le 8 de.inode⟩, ⟨8, [ftCode de.fileType]⟩,
      ⟨9, [UInt8.ofNat de.name.length]⟩, ⟨10, de.name.set 254 0⟩, ⟨264, [0]⟩] := by
    have hno : ¬ (readOut de).inoNum = 0 := hlive
    rw [dentryWrites, if_neg hno, hname]
    rfl
  rw [hwrites]
  simp only [puts_cons, puts_nil]
  constructor
  · rw [put_outside (.inl (by decide)), put_outside (.inl (by decide)), put_inside (Nat.le_refl _) (Nat.lt_succ_self 9)]
    rfl
  · intro j hj
    by_cases h254 : j = 254
    · subst h254
      rw [put_inside (by decide) (by decide), List.getElem?_set_self hj]
      rfl
    · rw [put_outside (by simp only [List.length_singleton]; omega), put_inside (Nat.le_add_right 10 j)
        (by rw [List.length_set]; omega), Nat.add_sub_cancel_left]

/-- A reply that is no error has all the bytes. -/
theorem copyOut_zero {room size : ℕ} {ret : ℤ} {out : Buf} (h : (copyOut room size ret out).ret = 0) :
    ret = 0 ∧ (copyOut room size ret out).toUser = [out.take size] := by
  unfold copyOut at h ⊢
  dsimp only at h ⊢
  split_ifs at h with hroom
  · exact absurd h EFAULT.ret_ne_zero
  · exact ⟨h, by rw [copyToUser, Nat.min_eq_right (not_lt.mp hroom)]⟩

/-- The name that is read off the bytes. -/
theorem taken_name (m : Buf) {de : DirEntry} (hlive : de.inode ≠ 0) (hlen : de.name.length ≤ 255) :
    (((m.puts (dentryWrites (readOut de))).take DEN_READ_SIZE).drop 10).take de.name.length = de.name.set 254 0 := by
  refine List.ext_getElem? fun j => ?_
  by_cases hj : j < de.name.length
  · have hlt : 10 + j < DEN_READ_SIZE := by unfold DEN_READ_SIZE; omega
    have hset : j < (de.name.set 254 0).length := by rwa [List.length_set]
    rw [List.getElem?_take_of_lt hj, List.getElem?_drop, take_getElem? hlt, (out_bytes m hlive).2 j hj,
      List.getElem?_eq_getElem hset]
    rfl
  · rw [List.getElem?_eq_none (by rw [List.length_take]; omega), List.getElem?_eq_none (by rw [List.length_set]; omega)]

theorem denRead_shows_iff {a : DenRead} {m : Prior} {de : DirEntry} {r : Reply} (hde : Reached a de)
    (hlen : de.name.length ≤ 255) (hr : a.reply m = some r) (h0 : r.ret = 0) :
    Shows r de ↔ (de.name[254]?).getD 0 = 0 := by
  obtain ⟨k, hk, hat⟩ := hde
  have hlive : de.inode ≠ 0 := by
    obtain ⟨de', hat', hlive⟩ := nthLive_some a.sb hk
    rwa [Option.some.inj (hat.symm.trans hat')]
  unfold DenRead.reply at hr
  split_ifs at hr with hin
  · obtain rfl := Option.some.inj hr
    exact absurd h0 EFAULT.ret_ne_zero
  split at hr
  · cases hr
  · next hread =>
    obtain rfl := Option.some.inj hr
    obtain ⟨hne, -⟩ | ⟨-, hout⟩ := read_cases hread
    · exact absurd (copyOut_zero h0).1 hne
    · cases hout
  next hread =>
  obtain rfl := Option.some.inj hr
  obtain ⟨-, hout⟩ | ⟨-, hout⟩ := read_cases hread
  · cases hout
  rw [hk, Option.bind_some, hat, Option.map_some, Option.getD_some] at hout
  obtain rfl := Option.some.inj hout
  rw [← set_last_eq_iff, ← taken_name m.kArgs hlive hlen]
  constructor
  · rintro ⟨bytes, hbytes, -, hname⟩
    rw [(copyOut_zero h0).2] at hbytes
    obtain rfl := List.singleton_inj.mp hbytes
    exact hname
  · refine fun hname => ⟨_, (copyOut_zero h0).2, ?_, hname⟩
    rw [take_getElem? (by decide), (out_bytes m.kArgs hlive).1, Option.map_some, UInt8.toNat_ofNat',
      Nat.mod_eq_of_lt (by omega)]

/-- **Names across the ioctl**: of a name that is to be created, and of an entry that is read. -/
theorem ioctl_names_iff (name : Name) (a : DenRead) (m : Prior) (de : DirEntry) (r : Reply) :
    ((∀ x ∈ name, x ≠ 0) → 1 ≤ name.length → name.length ≤ 255 →
      ((∀ a : DenAdd, Placed name a.name → ∀ s', a.exec = .ret s' 0 →
        Created a.childInoNum name (a.fs.ino a.parentInoNum).dir (s'.ino a.parentInoNum).dir) ↔
          name.length ≤ 254)) ∧
    (Reached a de → de.name.length ≤ 255 → a.reply m = some r → r.ret = 0 →
      (Shows r de ↔ (de.name[254]?).getD 0 = 0)) :=
  ⟨fun hnul _ hlen => denAdd_name_iff hnul hlen, fun hde hlen hr h0 => denRead_shows_iff hde hlen hr h0⟩

/-! ### A name of 255 bytes -/

/-- The name `aa…a`. -/
def longName : Name := List.replicate 255 97

/-- **The last byte is lost.** The call returns 0, and the entry has 254 bytes. -/
theorem denAdd_cuts :
    ∃ a : DenAdd, a.name = longName ∧ ∃ s', a.exec = .ret s' 0 ∧
      Named (s'.ino a.parentInoNum).dir a.childInoNum (List.replicate 254 97) ∧
      ¬ Named (s'.ino a.parentInoNum).dir a.childInoNum longName := by
  have hnul : ∀ x ∈ longName, x ≠ 0 := by
    intro x hx
    rw [List.eq_of_mem_replicate hx]
    decide
  obtain ⟨s', hexec, hshort, hlong⟩ := denAdd_cut hnul List.length_replicate
  rw [longName, List.take_replicate, Nat.min_eq_left (by decide)] at hshort
  exact ⟨_, rfl, s', hexec, hshort, hlong⟩

end LinuxEvfs.Ioctl.Names
