import Xv6.Fs.Image

/-! # Files are arrays of bytes

The content of an inode is a list of bytes as long as its size. For every sequence of calls of
`readi`, `writei` and `itrunc` on files and directories:

* **`Fs.files_are_arrays`** — the answers and the contents are those of an abstract file system that
  keeps the lists and nothing else, as long as `writei` finds the blocks it needs. In it `writei`
  replaces a slice and `readi` returns one, and both refuse a range that begins behind the end of
  the file or wraps around. -/

namespace Xv6.Fs

open Foundation Function
open Inodes (Dinode NDIRECT)

variable {s s' : Fs} {ip off n : Nat} {src : Nat → UInt8}

/-- **The content of an inode.** -/
def content (s : Fs) (i : Nat) : List UInt8 :=
  if (s.disk.inode i).type = 0 then []
  else (List.range (s.disk.inode i).size).map (s.fileByte i)

theorem content_congr (h : s'.disk = s.disk) : s'.content = s.content := by
  funext i
  have hbyte : s'.fileByte i = s.fileByte i := by
    funext k
    rw [fileByte, fileByte, h]
  rw [content, content, h, hbyte]

/-! ## Contents as lists -/

/-- `l` with the bytes from `off` to `off + n` replaced by those of `src`. -/
def splice (l : List UInt8) (src : Nat → UInt8) (off n : Nat) : List UInt8 :=
  l.take off ++ (List.range n).map src ++ l.drop (off + n)

theorem length_content (htype : (s.disk.inode ip).type ≠ 0) :
    (s.content ip).length = (s.disk.inode ip).size := by
  rw [content, if_neg htype, List.length_map, List.length_range]

theorem getElem_content {i k : Nat} (htype : (s.disk.inode i).type ≠ 0)
    (hk : k < (s.content i).length) : (s.content i)[k] = s.fileByte i k := by
  simp only [content, if_neg htype, List.getElem_map, List.getElem_range]

theorem slice_content (htype : (s.disk.inode ip).type ≠ 0) :
    ((s.content ip).drop off).take n
      = (List.range (min n ((s.disk.inode ip).size - off))).map fun k => s.fileByte ip
        (off + k) := by
  have hlen := length_content htype
  apply List.ext_getElem
  · simp [hlen]
  · intro k hk hk'
    simp [getElem_content htype]

section

variable (h : Stored ip src off n s s')

include h

theorem Stored.content_self (htype : (s.disk.inode ip).type ≠ 0)
    (hoff : off ≤ (s.disk.inode ip).size) : s'.content ip = splice (s.content ip) src off n := by
  have htype' : (s'.disk.inode ip).type ≠ 0 := by rwa [h.fields]
  have hsize : (s'.disk.inode ip).size = max (s.disk.inode ip).size (off + n) := by rw [h.fields]
  have hlen := length_content htype
  apply List.ext_getElem
  · rw [length_content htype', hsize, splice]
    simp only [List.length_append, List.length_take, List.length_map, List.length_range,
      List.length_drop, hlen]
    omega
  · intro k hk hk'
    rw [getElem_content htype' hk]
    rw [length_content htype', hsize] at hk
    simp only [splice, List.getElem_append, List.length_append, List.length_take, List.length_map,
      List.length_range, hlen, List.getElem_take, List.getElem_drop, List.getElem_map,
      List.getElem_range, Nat.min_eq_left hoff]
    -- before, inside and behind the bytes that were written
    split
    · split
      · rw [getElem_content htype, h.outside (by omega) htype (by omega)]
      · rw [h.inside (by omega) (by omega)]
    · rw [getElem_content htype, h.outside (by omega) htype (by omega)]
      congr 1
      omega

theorem Stored.content_of_ne {i : Nat} (hi : i ≠ ip) :
    s'.content i = s.content i := by
  rw [content, content, h.others hi]
  split
  · rfl
  · rename_i htype
    apply List.map_congr_left
    intro k hk
    exact h.outside (fun hin => hi hin.1) htype (List.mem_range.1 hk)

theorem Stored.content (htype : (s.disk.inode ip).type ≠ 0)
    (hoff : off ≤ (s.disk.inode ip).size) :
    s'.content = update s.content ip (splice (s.content ip) src off n) := by
  funext i
  by_cases hi : i = ip
  · subst hi
    rw [update_self, h.content_self htype hoff]
  · rw [update_of_ne hi, h.content_of_ne hi]

end

theorem Cut.content (h : Cut ip s s') : s'.content = update s.content ip [] := by
  funext i
  by_cases hi : i = ip
  · subst hi
    rw [update_self, Fs.content, h.inode, update_self]
    split <;> rfl
  · rw [update_of_ne hi, Fs.content, Fs.content, h.inode, update_of_ne hi]
    congr 1
    apply List.map_congr_left
    exact fun k _ => h.byte hi

/-! ## Sequences of calls -/

/-- A call of `readi`, `writei` or `itrunc`. -/
inductive FileOp
  | readi (ip : Nat) (off n : UInt32)
  | writei (ip : Nat) (src : Nat → UInt8) (off n : UInt32)
  | itrunc (ip : Nat)

/-- What a call returns: the bytes that were copied or -1, a count or -1, or nothing. -/
inductive Answer
  | bytes (l : Option (List UInt8))
  | count (r : Int)
  | none
  deriving DecidableEq

namespace FileOp

/-- The inode that a call works on. -/
def target : FileOp → Nat
  | readi ip .. => ip
  | writei ip .. => ip
  | itrunc ip => ip

/-- The call. -/
def exec : FileOp → Fallible Panic Fs Answer
  | readi ip off n => .bytes <$> Fs.readi ip off.toNat n.toNat
  | writei ip src off n => .count <$> Fs.writei ip src off.toNat n.toNat
  | itrunc ip => do
    Fs.itrunc ip
    pure .none

/-- There are enough free blocks for the call. -/
def Enough (s : Fs) : FileOp → Prop
  | writei ip _ off n => s.Accepts ip off.toNat n.toNat → s.demand ip off.toNat n.toNat ≤ s.free
  | _ => True

/-- **The abstract file system**: an array of bytes for every inode. -/
def spec (c : Nat → List UInt8) : FileOp → Answer × (Nat → List UInt8)
  | readi ip off n =>
    if off.toNat ≤ (c ip).length ∧ ¬ wraps off.toNat n.toNat then
      (.bytes (some (((c ip).drop off.toNat).take n.toNat)), c)
    else (.bytes none, c)
  | writei ip src off n =>
    if off.toNat ≤ (c ip).length ∧ ¬ wraps off.toNat n.toNat ∧
        off.toNat + n.toNat ≤ MAXFILE * BSIZE then
      (.count n.toNat, update c ip (splice (c ip) src off.toNat n.toNat))
    else (.count (-1), c)
  | itrunc ip => (.none, update c ip [])

end FileOp

/-- Calls one after the other. -/
def execAll : List FileOp → Fallible Panic Fs (List Answer)
  | [] => pure []
  | op :: ops => do
    let a ← op.exec
    let as ← execAll ops
    pure (a :: as)

/-- The same on the abstract file system. -/
def specAll : List FileOp → (Nat → List UInt8) → List Answer × (Nat → List UInt8)
  | [], c => ([], c)
  | op :: ops, c => ((op.spec c).1 :: (specAll ops (op.spec c).2).1, (specAll ops (op.spec c).2).2)

/-- There are enough free blocks whenever a call of the sequence begins. -/
def EnoughAll : List FileOp → Fs → Prop
  | [], _ => True
  | op :: ops, s => op.Enough s ∧ ∀ a s', Returns op.exec s a s' → EnoughAll ops s'

/-- Inode `ip` is a file or a directory that a call may work on. -/
structure Usable (s : Fs) (ip : Nat) : Prop extends s.InUse ip where
  kind : (s.disk.inode ip).type = T_FILE ∨ (s.disk.inode ip).type = T_DIR

theorem Usable.type_ne (h : s.Usable ip) : (s.disk.inode ip).type ≠ 0 := by
  rcases h.kind with hk | hk <;> simp [hk]

theorem Usable.not_dev (h : s.Usable ip) : (s.disk.inode ip).type ≠ T_DEV := by
  rcases h.kind with hk | hk <;> simp [hk]

theorem Usable.of_eq {i : Nat} (h : s.Usable i) (href : (s'.mem i).ref = (s.mem i).ref)
    (hvalid : (s'.mem i).valid = (s.mem i).valid)
    (htype : (s'.disk.inode i).type = (s.disk.inode i).type) : s'.Usable i where
  ref := href ▸ h.ref
  valid := hvalid ▸ h.valid
  kind := htype ▸ h.kind

/-- **One call** does what the abstract file system does. -/
theorem FileOp.exec_ends (op : FileOp) (h : s.Sound) (hu : s.Usable op.target)
    (henough : op.Enough s) :
    Ends op.exec s
      (fun a s' => a = (op.spec s.content).1 ∧ s'.content = (op.spec s.content).2 ∧ s'.Sound ∧
        ∀ i, s.Usable i → s'.Usable i)
      fun _ _ => False := by
  cases op with
  | readi ip off n =>
    replace hu : s.Usable ip := hu
    have hlen := length_content hu.type_ne
    rw [exec, map_eq_pure_bind, ends_bind]
    refine (readi_ends (h.readable hu.toInUse hu.not_dev)).mono ?_ fun _ _ hstop => hstop
    rintro r s ⟨rfl, rfl⟩
    simp only [ends_pure, spec, hlen, slice_content hu.type_ne]
    split <;> exact ⟨rfl, rfl, h, fun _ hi => hi⟩
  | writei ip src off n =>
    replace hu : s.Usable ip := hu
    have hlen := length_content hu.type_ne
    rw [exec, map_eq_pure_bind, ends_bind]
    refine (writei_ends h hu.toInUse hu.not_dev).mono ?_ ?_
    · intro r s' hr
      simp only [ends_pure, spec, hlen]
      split at hr
      · rename_i haccepts
        obtain ⟨rfl, hstored⟩ := hr
        simp only [if_pos (show _ ∧ _ ∧ _ from haccepts)]
        refine ⟨trivial, hstored.content hu.type_ne haccepts.1, hstored.sound, fun i hi => ?_⟩
        refine hi.of_eq (hstored.cached i).1 (hstored.cached i).2 ?_
        by_cases hip : i = ip
        · rw [hip, hstored.fields]
        · rw [hstored.others hip]
      · rename_i hrefuses
        obtain ⟨rfl, rfl⟩ := hr
        simp only [if_neg (show ¬ (_ ∧ _ ∧ _) from hrefuses), true_and]
        exact ⟨h, fun _ hi => hi⟩
    · rintro e _ ⟨-, haccepts, hshort⟩
      exact Nat.not_le_of_lt hshort (henough haccepts)
  | itrunc ip =>
    replace hu : s.Usable ip := hu
    rw [exec, ends_bind]
    refine (itrunc_cut h hu.toInUse).mono ?_ fun _ _ hstop => hstop
    intro _ s' hcut
    refine ⟨rfl, hcut.content, hcut.sound, fun i hi => hi.of_eq ?_ ?_ ?_⟩
    · by_cases hip : i = ip <;> simp [hcut.mem, hip]
    · by_cases hip : i = ip <;> simp [hcut.mem, hip]
    · by_cases hip : i = ip <;> simp [hcut.inode, hip, truncated]

/-- **Files refine arrays of bytes.** From any sound file system and for any sequence of calls on
files and directories in use, if there are enough free blocks whenever a call begins, then all calls
return, with the answers of the abstract file system, and they leave its contents and a sound file
system. -/
theorem files_are_arrays (s : Fs) (ops : List FileOp) (h : s.Sound)
    (hu : ∀ op ∈ ops, s.Usable op.target) (henough : EnoughAll ops s) :
    ∃ s', Returns (execAll ops) s (specAll ops s.content).1 s' ∧
      s'.content = (specAll ops s.content).2 ∧ s'.Sound := by
  induction ops generalizing s with
  | nil => exact ⟨s, rfl, rfl, h⟩
  | cons op ops ih =>
    have hop := (op.exec_ends h (hu op (by simp)) henough.1).and_returns
    obtain ⟨a, s1, ⟨ha, hcontent, hsound, huse⟩, hret⟩ := hop.exists_of_no_stop
    obtain ⟨s', hret', hcontent', hsound'⟩ :=
      ih s1 hsound (fun op' hop' => huse _ (hu op' (by simp [hop']))) (henough.2 a s1 hret)
    rw [hcontent] at hret' hcontent'
    refine ⟨s', ?_, hcontent', hsound'⟩
    rw [execAll, returns_bind]
    refine ⟨a, s1, hret, ?_⟩
    rw [returns_bind]
    exact ⟨_, s', hret', by rw [returns_pure, specAll, ha]; exact ⟨rfl, rfl⟩⟩

theorem usable_root : (blank.hold ROOTINO).Usable ROOTINO :=
  ⟨⟨by decide, by decide⟩, .inr (by decide)⟩

/-- A write over the end of the file, which takes a block more, and a read across it. -/
theorem files_are_arrays_root :
    ∃ s', Returns (execAll [.writei ROOTINO (fun _ => 7) 510 4, .readi ROOTINO 508 6])
      (blank.hold ROOTINO) [.count 4, .bytes (some [0, 0, 7, 7, 7, 7])] s' ∧ s'.Sound := by
  obtain ⟨s', hret, -, hsound⟩ := files_are_arrays (blank.hold ROOTINO)
    [.writei ROOTINO (fun _ => 7) 510 4, .readi ROOTINO 508 6] (sound_hold (by decide))
    (by simp only [List.mem_cons, List.not_mem_nil, or_false, forall_eq_or_imp, forall_eq]
        exact ⟨usable_root, usable_root⟩)
    ⟨fun _ => by decide +kernel, fun _ _ _ => ⟨trivial, fun _ _ _ => trivial⟩⟩
  have hanswers : (specAll [.writei ROOTINO (fun _ => 7) 510 4, .readi ROOTINO 508 6]
      (blank.hold ROOTINO).content).1 = [.count 4, .bytes (some [0, 0, 7, 7, 7, 7])] := by
    decide +kernel
  exact ⟨s', hanswers ▸ hret, hsound⟩

/-- A read whose range wraps around is refused with -1, although it begins inside the file. -/
theorem readi_wrapping : ∃ (s : Fs) (ip : Nat) (off n : UInt32), s.Sound ∧ s.Usable ip ∧
    ((s.content ip).drop off.toNat).take n.toNat ≠ [] ∧
    Returns (readi ip off.toNat n.toNat) s none s :=
  ⟨blank.hold ROOTINO, ROOTINO, 511, 4294967295, sound_hold (by decide), usable_root,
    by decide +kernel, rfl⟩

end Xv6.Fs
