import Mathlib.Data.List.TakeWhile
import Xv6.Fs.Contents

/-! # Directories

A directory is a file of `struct dirent`s. The parts of `dirlookup`, `dirlink`, `isdirempty` and
`sys_unlink` that read and write them, over the bytes of the file.

* **`Fs.entry`** — entry `k` of a directory as its bytes spell it. -/

namespace Xv6.Fs

open Foundation
open Inodes (Dinode NDIRECT)

/-- `sizeof(struct dirent)`. -/
abbrev DIRENT : Nat := 16

/-- A name, or an array of `DIRSIZ` bytes that holds one. -/
abbrev Name := List UInt8

/-- The characters of a name that count: `DIRSIZ` of them at most, up to the first zero. -/
def cstr (name : Name) : Name := (name.take DIRSIZ).takeWhile (· ≠ 0)

/-- `namecmp(s, t) == 0`. -/
def namecmp (s t : Name) : Bool := cstr s = cstr t

/-- `struct dirent`, with the characters of its name that count. -/
structure Dirent where
  inum : Nat
  name : Name
  deriving DecidableEq, Repr

/-- The entry that an array of bytes spells. -/
def decodeAt (bytes : Nat → UInt8) (off : Nat) : Dirent :=
  ⟨numAt bytes off 2, cstr ((List.range DIRSIZ).map fun j => bytes (off + 2 + j))⟩

/-- `de.inum = inum; strncpy(de.name, name, DIRSIZ)`. -/
def encode (inum : Nat) (name : Name) : Nat → UInt8 :=
  fun k => if k < 2 then byteOf inum k else (cstr name).getD (k - 2) 0

/-- The number of times that a loop over the entries runs for a directory of this size. -/
def entries (size : Nat) : Nat := (size + (DIRENT - 1)) / DIRENT

/-- `readi(dp, (char*)&de, off, sizeof(de))`, which has to read all of the entry. -/
def readDirent (dp off : Nat) : Fallible Panic Fs Dirent := do
  match ← readi dp off DIRENT with
  | some l => do
    stopIf (l.length ≠ DIRENT) .dirRead
    pure (decodeAt (fun k => l.getD k 0) 0)
  | none => throw .dirRead

/-- `writei(dp, (char*)&de, off, sizeof(de))`, which has to write all of the entry. -/
def writeDirent (dp off : Nat) (src : Nat → UInt8) : Fallible Panic Fs PUnit := do
  let w ← writei dp src off DIRENT
  stopIf (w ≠ DIRENT) .dirWrite

/-- The loop of `dirlookup`: the number of the inode and the offset of the entry. -/
def dirfind (dp : Nat) (name : Name) : Fallible Panic Fs (Option (Nat × Nat)) := do
  let s ← get
  stopIf ((s.mem dp).data.type ≠ T_DIR) .notDir
  untilSome (fun k => do
    let de ← readDirent dp (DIRENT * k)
    pure (if de.inum ≠ 0 ∧ namecmp name de.name then some (de.inum, DIRENT * k) else none))
    (List.range' 0 (entries (s.mem dp).data.size))

/-- `dirlink` once the name is known not to be there: look for an empty place and write the
entry. -/
def dirwrite (dp : Nat) (name : Name) (inum : Nat) : Fallible Panic Fs PUnit := do
  let s ← get
  let r ← untilSome (fun k => do
    let de ← readDirent dp (DIRENT * k)
    pure (if de.inum = 0 then some k else none))
    (List.range' 0 (entries (s.mem dp).data.size))
  writeDirent dp (DIRENT * r.getD (entries (s.mem dp).data.size)) (encode inum name)

/-- `isdirempty`. -/
def isdirempty (dp : Nat) : Fallible Panic Fs Bool := do
  let s ← get
  let r ← untilSome (fun k => do
    let de ← readDirent dp (DIRENT * k)
    pure (if de.inum ≠ 0 then some k else none))
    (List.range' 2 (entries (s.mem dp).data.size - 2))
  pure r.isNone

/-- `sys_unlink` writes an entry of zeros. -/
def direrase (dp off : Nat) : Fallible Panic Fs PUnit := writeDirent dp off fun _ => 0

/-! ## Names and entries -/

@[simp] theorem cstr_cstr (name : Name) : cstr (cstr name) = cstr name := by
  have hlen : (cstr name).length ≤ DIRSIZ :=
    ((List.takeWhile_prefix _).length_le).trans (by simp)
  rw [cstr, List.take_of_length_le hlen, cstr, List.takeWhile_idem]

/-- **Filling a name up with zeros** does not change it. -/
theorem cstr_padded (name : Name) :
    cstr ((List.range DIRSIZ).map fun j => name.getD j 0) = cstr name := by
  have hpad : (List.range DIRSIZ).map (fun j => name.getD j 0)
      = name.take DIRSIZ ++ List.replicate (DIRSIZ - name.length) 0 := by
    apply List.ext_getElem
    · simp
      omega
    · intro j hj hj'
      simp only [List.getElem_map, List.getElem_range, List.getElem_append, List.getElem_replicate,
        List.getD_eq_getElem?_getD, List.getElem_take]
      split
      · rename_i hlt
        rw [List.length_take] at hlt
        simp [show j < name.length by omega]
      · rename_i hge
        rw [List.length_map, List.length_range] at hj
        rw [List.length_take] at hge
        simp [List.getElem?_eq_none (show name.length ≤ j by omega)]
  have hzeros : ∀ n, (List.replicate n (0 : UInt8)).takeWhile (· ≠ 0) = [] := by
    intro n
    cases n <;> simp [List.replicate_succ]
  rw [hpad, cstr, cstr, List.take_of_length_le (by simp; omega), List.takeWhile_append, hzeros,
    List.append_nil]
  split
  · rename_i hall
    exact ((List.takeWhile_prefix _).eq_of_length hall).symm
  · rfl

theorem decodeAt_congr {b b' : Nat → UInt8} {off off' : Nat}
    (h : ∀ k < DIRENT, b (off + k) = b' (off' + k)) : decodeAt b off = decodeAt b' off' := by
  rw [decodeAt, decodeAt, numAt_congr fun k hk => h k (by unfold DIRENT; omega)]
  congr 2
  apply List.map_congr_left
  intro j hj
  rw [Nat.add_assoc, Nat.add_assoc]
  apply h
  have := List.mem_range.1 hj
  unfold DIRSIZ at this
  unfold DIRENT
  omega

variable {s s' : Fs} {dp d j k : Nat} {name : Name}

/-- **Entry `k` of directory `d`.** -/
def entry (s : Fs) (d k : Nat) : Dirent := decodeAt (s.fileByte d) (DIRENT * k)

theorem entry_congr (h : s'.disk = s.disk) : s'.entry d k = s.entry d k := by
  have : s'.fileByte d = s.fileByte d := by
    funext k
    rw [fileByte, fileByte, h]
  rw [entry, entry, this]

/-! ## Reading entries -/

/-- **An entry is read**, unless the directory ends in the middle of it. -/
theorem readDirent_ends (h : s.Readable dp (DIRENT * k + DIRENT)) :
    Ends (readDirent dp (DIRENT * k)) s
      (fun de s' => s' = s ∧ de = s.entry dp k ∧ DIRENT * k + DIRENT ≤ (s.disk.inode dp).size)
      fun e _ => e = .dirRead ∧
        ((s.disk.inode dp).size < DIRENT * k + DIRENT ∨ wraps (DIRENT * k) DIRENT) := by
  rw [readDirent, ends_bind]
  refine (readi_ends h).mono ?_ fun _ _ hstop => hstop.elim
  rintro r s ⟨rfl, rfl⟩
  split
  · rename_i hif
    split at hif
    · rename_i hrange
      rw [Option.some.injEq] at hif
      subst hif
      simp only [ends_bind, ends_stopIf, ends_pure, List.length_map, List.length_range]
      refine ⟨fun hlen => ⟨trivial, .inl (by omega)⟩, fun hlen => ⟨trivial, ?_, by omega⟩⟩
      rw [not_not] at hlen
      apply decodeAt_congr
      intro j hj
      rw [Nat.zero_add, List.getD_eq_getElem?_getD, List.getElem?_map,
        List.getElem?_range (by omega)]
      rfl
    · cases hif
  · rename_i hif
    split at hif
    · cases hif
    · rename_i hrange
      refine ⟨rfl, ?_⟩
      by_contra hgood
      exact hrange ⟨by omega, fun hwrap => hgood (.inr hwrap)⟩

/-- **A name that is there is found**, whatever comes behind its entry. -/
theorem dirfind_found (h : s.Readable dp (DIRENT * k + DIRENT))
    (hdir : (s.disk.inode dp).type = T_DIR)
    (hsize : DIRENT * k + DIRENT ≤ (s.disk.inode dp).size) (hmax : ¬ wraps (DIRENT * k) DIRENT)
    (hbefore : ∀ j < k, ¬ ((s.entry dp j).inum ≠ 0 ∧ namecmp name (s.entry dp j).name))
    (hfound : (s.entry dp k).inum ≠ 0 ∧ namecmp name (s.entry dp k).name) :
    Ends (dirfind dp name) s (fun r s' => s' = s ∧ r = some ((s.entry dp k).inum, DIRENT * k))
      fun _ _ => False := by
  simp only [dirfind, ends_bind, ends_get, ends_stopIf, h.data]
  refine ⟨fun hne => absurd hdir hne, fun _ => ?_⟩
  apply ends_untilSome fun j s' => s' = s ∧ j ≤ k
  · exact ⟨rfl, Nat.zero_le k⟩
  · rintro j - - s ⟨rfl, hj⟩
    have hend : DIRENT * j + DIRENT ≤ DIRENT * k + DIRENT :=
      Nat.add_le_add_right (Nat.mul_le_mul_left _ hj) _
    rw [ends_bind]
    refine (readDirent_ends (h.mono hend)).mono ?_ ?_
    · rintro de s ⟨rfl, rfl, -⟩
      rw [ends_pure]
      rcases Nat.lt_or_eq_of_le hj with hlt | rfl
      · rw [if_neg (hbefore j hlt)]
        exact ⟨fun _ => ⟨rfl, hlt⟩, fun hne => absurd rfl hne⟩
      · rw [if_pos hfound]
        exact ⟨fun hnone => absurd hnone (Option.some_ne_none _), fun _ => ⟨rfl, rfl⟩⟩
    · rintro e _ ⟨-, hshort | hwrap⟩
      · omega
      · unfold wraps at hmax hwrap
        omega
  · rintro s ⟨rfl, hall⟩
    -- the loop does not pass the entry
    rw [Nat.zero_add, entries] at hall
    unfold DIRENT at *
    omega

end Xv6.Fs
