import Xv6.Fs.Arrays
import Xv6.Fs.Directory
import Xv6.Fs.Inode

/-! # What operations leave alone

Every operation on the file system changes the content of the inode that it works on, and of no
other.

* **`Fs.Mild`** — only some inodes were changed, and the file system is sound.
* One lemma for each function of `fs.c`: **`Fs.writei_mild`**, **`Fs.freeUnlinked_mild`** and so on.
* **`Fs.dirfind_ends`** — the search for a name is a function of the content of the directory. -/

namespace Xv6.Fs

open Foundation Function
open Inodes (Dinode)

variable {s s' : Fs} {G H : List Nat} {ip dp i type off n : Nat} {name : Name}

/-- **Only the inodes `H` were changed**: the others keep their content, directories stay
directories, and what is valid in memory stays so. -/
structure Mild (H : List Nat) (s s' : Fs) : Prop where
  sound : s'.Sound
  content : ∀ {i}, i ∉ H → s'.content i = s.content i
  dir : ∀ {i}, i ∉ H → (s.disk.inode i).type = T_DIR → (s'.disk.inode i).type = T_DIR
  valid : ∀ {i}, i ∉ H → s.InUse i → (s'.mem i).valid = true

theorem content_eq (htype : (s'.disk.inode i).type = (s.disk.inode i).type)
    (hsize : (s'.disk.inode i).size = (s.disk.inode i).size)
    (hbyte : ∀ k, s'.fileByte i k = s.fileByte i k) : s'.content i = s.content i := by
  rw [Fs.content, Fs.content, htype, hsize, funext hbyte]

namespace Mild

theorem mono (h : Mild G s s') (hG : ∀ i ∈ G, i ∈ H) : Mild H s s' where
  sound := h.sound
  content hi := h.content fun hg => hi (hG _ hg)
  dir hi := h.dir fun hg => hi (hG _ hg)
  valid hi := h.valid fun hg => hi (hG _ hg)

theorem of_disk (hs : s'.Sound) (hdisk : s'.disk = s.disk)
    (hvalid : ∀ {i}, s.InUse i → (s'.mem i).valid = true) : Mild H s s' where
  sound := hs
  content _ := by rw [content_congr hdisk]
  dir _ hdir := by rwa [hdisk]
  valid _ := hvalid

section

variable (h : s.Sound)

include h

theorem refl : Mild H s s := .of_disk h rfl fun hu => hu.valid

theorem got : Mild H s (s.got i) :=
  .of_disk h.got rfl fun hu => by rw [valid_got hu.ref, hu.valid]

theorem relabel {f : Dinode → Dinode} (hu : s.InUse ip) (hf : Label f) :
    Mild H s (s.relabel ip f) := by
  have hfields : ∀ i, ((s.relabel ip f).disk.inode i).type = (s.disk.inode i).type ∧
      ((s.relabel ip f).disk.inode i).size = (s.disk.inode i).size := by
    intro i
    by_cases hi : i = ip <;> simp [relabel_inode h hu, hi, hf.type, hf.size]
  refine ⟨h.relabel hu hf, fun _ => content_eq (hfields _).1 (hfields _).2 fun k => ?_,
    fun _ hdir => (hfields _).1.trans hdir, fun _ hu' => by rw [valid_relabel, hu'.valid]⟩
  rw [fileByte, pointers_relabel hf h hu]
  rfl

theorem allocated (hfree : (s.disk.inode i).type = 0) : Mild H s ((s.typed i type).got i) where
  sound := (h.typed hfree).got
  content {j} _ := by
    by_cases hj : j = i
    · -- `ialloc` clears the inode, so that its size is 0
      subst hj
      simp [Fs.content, Fs.got, Fs.typed, hfree]
    · refine content_eq (by simp [Fs.got, Fs.typed, hj]) (by simp [Fs.got, Fs.typed, hj])
        fun k => ?_
      show s.disk.block (pointers (s.typed i type).disk.inode (s.typed i type).disk.block _) _ = _
      rw [pointers_typed type hfree, fileByte]
  dir {j} _ hdir := by
    -- what was free is no directory
    have hj : j ≠ i := by
      rintro rfl
      simp [hfree] at hdir
    simpa [Fs.got, Fs.typed, hj] using hdir
  valid {j} _ hu := by rw [valid_got (s := s.typed i type) hu.ref]; exact hu.valid

end

end Mild

theorem Stored.mild {src : Nat → UInt8} (h : Stored ip src off n s s') : Mild [ip] s s' where
  sound := h.sound
  content hi := h.content_of_ne (by simpa using hi)
  dir hi := by rw [h.others (by simpa using hi)]; exact id
  valid {i} _ hu := (h.cached i).2.trans hu.valid

theorem Freed.mild (h : Freed ip s s') : Mild [ip] s s' := by
  have hinode : ∀ {i}, i ∉ [ip] → s'.disk.inode i = s.disk.inode i := by
    intro i hi
    rw [h.inode, update_of_ne (by simpa using hi)]
  refine ⟨h.sound, fun hi => content_eq (by rw [hinode hi]) (by rw [hinode hi]) fun k => ?_,
    fun hi => by rw [hinode hi]; exact id, fun hi hu => ?_⟩
  · exact h.byte (by simpa using hi)
  · rw [h.others (by simpa using hi)]
    exact hu.valid

/-! ## Every function -/

section

variable (h : s.Sound)

include h

theorem iget_mild : Ends (iget i) s (fun _ s' => Mild [] s s') fun e _ => e ≠ .freeingFree := by
  refine iget_ends.mono ?_ ?_
  · rintro _ s' rfl
    exact .got h
  · rintro e _ ⟨rfl, -⟩
    decide

theorem idup_mild (href : 0 < (s.mem ip).ref) :
    Ends (idup ip) s (fun _ s' => Mild [] s s') fun e _ => e ≠ .freeingFree := by
  refine (idup_ends href).mono ?_ fun _ _ hstop => hstop.elim
  rintro _ s' rfl
  exact .got h

theorem load_mild (href : 0 < (s.mem ip).ref) :
    Ends (load ip) s (fun _ s' => Mild [] s s' ∧ (s'.mem ip).valid = true)
      fun e _ => e ≠ .freeingFree := by
  refine (load_ends fun hvalid => h.type_ne ⟨href, hvalid⟩).mono ?_ ?_
  · rintro _ s' ⟨rfl, htype⟩
    exact ⟨.of_disk (h.loaded htype) loaded_disk fun hu => valid_loaded_of hu.valid, valid_loaded⟩
  · rintro e _ ⟨rfl, -⟩
    decide

theorem dropRef_mild : Ends (dropRef ip) s (fun _ s' => Mild [] s s') fun e _ =>
    e ≠ .freeingFree := by
  simp only [dropRef, ends_bind, ends_get, ends_stopIf, ends_modify]
  refine ⟨fun _ => by decide, fun _ => .of_disk h.dropped rfl fun hu => ?_⟩
  exact valid_dropped.trans hu.valid

theorem freeUnlinked_mild :
    Ends (freeUnlinked ip) s (fun _ s' => Mild [ip] s s') fun e _ => e ≠ .freeingFree := by
  refine (freeUnlinked_ends h).mono ?_ fun _ _ hstop => hstop.elim
  intro _ s' hs'
  split at hs'
  · exact hs'.mild
  · rw [hs']
    exact .refl h

theorem ialloc_mild :
    Ends (ialloc type) s (fun i s' => Mild [] s s' ∧ (s.disk.inode i).type = 0 ∧
      (s'.disk.inode i).type = type ∧ s'.content i = []) fun e _ => e ≠ .freeingFree := by
  refine ialloc_ends.mono ?_ ?_
  · rintro i s' ⟨hfree, -, -, rfl⟩
    have hmild : Mild [] s ((s.typed i type).got i) := .allocated h hfree
    refine ⟨hmild, hfree, by simp [got, typed], ?_⟩
    rw [hmild.content (by simp), content, if_pos hfree]
  · rintro e _ (rfl | rfl) <;> decide

variable (hu : s.InUse ip)

include hu

theorem relabel_mild {f : Dinode → Dinode} (hf : Label f) :
    Ends (do modify fun s => s.setData ip f; iupdate ip) s (fun _ s' => Mild [] s s')
      fun e _ => e ≠ .freeingFree := by
  simp only [iupdate, ends_bind, ends_modify]
  simpa [relabel] using Mild.relabel h hu hf

theorem readi_same :
    Ends (readi ip off n) s (fun _ s' => s' = s) fun e _ => e ≠ .freeingFree := by
  by_cases hdev : (s.disk.inode ip).type = T_DEV
  · simp [readi, ends_bind, h.data_eq hu, hdev]
  · exact (readi_ends (h.readable hu hdev)).mono (fun _ _ hr => hr.1) fun _ _ hstop => hstop.elim

theorem writei_mild {src : Nat → UInt8} :
    Ends (writei ip src off n) s (fun _ s' => Mild [ip] s s' ∧ (s'.mem ip).valid = true)
      fun e _ => e ≠ .freeingFree := by
  by_cases hdev : (s.disk.inode ip).type = T_DEV
  · simp [writei, ends_bind, h.data_eq hu, hdev]
  · refine (writei_ends h hu hdev).mono ?_ ?_
    · intro r s' hr
      split at hr
      · exact ⟨hr.2.mild, (hr.2.cached ip).2.trans hu.valid⟩
      · rw [hr.2]
        exact ⟨.refl h, hu.valid⟩
    · rintro e _ ⟨rfl, -⟩
      decide

end

/-! ## Directories -/

/-- Inode `i` is a directory without entries. -/
def Blank (s : Fs) (i : Nat) : Prop := (s.disk.inode i).type = T_DIR ∧ s.content i = []

/-- Entry `k` of a directory with this content. -/
def direntAt (c : List UInt8) (k : Nat) : Dirent := decodeAt (fun j => c.getD j 0) (DIRENT * k)

/-- The entries of a directory with this content. -/
def dirents (c : List UInt8) : List Dirent := (List.range (entries c.length)).map (direntAt c)

/-- What `dirlookup` finds in a directory with this content. -/
def lookup (c : List UInt8) (name : Name) : Option (Nat × Nat) :=
  (List.range' 0 (entries c.length)).findSome? fun k =>
    if (direntAt c k).inum ≠ 0 ∧ namecmp name (direntAt c k).name then
      some ((direntAt c k).inum, DIRENT * k)
    else none

theorem mem_of_lookup {c : List UInt8} (h : lookup c name = some (i, off)) :
    ∃ e ∈ dirents c, e.inum = i ∧ namecmp name e.name = true := by
  obtain ⟨k, hk, hfound⟩ := List.exists_of_findSome?_eq_some h
  rw [Option.ite_none_right_eq_some, Option.some.injEq, Prod.mk.injEq] at hfound
  refine ⟨_, List.mem_map_of_mem (List.mem_range.2 ?_), hfound.2.1, hfound.1.2⟩
  simpa using (List.mem_range'_1.1 hk).2

section

variable (h : s.Sound) (hu : s.InUse dp)

include h hu

theorem readDirent_same {k : Nat} (hdir : (s.disk.inode dp).type = T_DIR) :
    Ends (readDirent dp (DIRENT * k)) s (fun de s' => s' = s ∧ de = direntAt (s.content dp) k)
      fun _ _ => True := by
  refine (readDirent_ends (h.readable hu (by simp [hdir]))).mono ?_ fun _ _ _ => trivial
  rintro de s' ⟨rfl, rfl, hsize⟩
  refine ⟨rfl, decodeAt_congr fun j hj => ?_⟩
  have hlen := length_content (h.type_ne hu)
  rw [List.getD_eq_getElem?_getD, List.getElem?_eq_getElem (by omega), Option.getD_some,
    getElem_content (h.type_ne hu)]

theorem dirfind_ends :
    Ends (dirfind dp name) s (fun r s' => s' = s ∧ r = lookup (s.content dp) name ∧
      (s.disk.inode dp).type = T_DIR) fun _ _ => True := by
  simp only [dirfind, ends_bind, ends_get, ends_stopIf, h.data_eq hu, not_not]
  refine ⟨fun _ => trivial, fun hdir => ?_⟩
  simp only [lookup, length_content (h.type_ne hu), hdir, and_true]
  refine ends_untilSome_pure fun k _ => ?_
  rw [ends_bind]
  refine (readDirent_same h hu hdir).mono ?_ fun _ _ _ => trivial
  rintro de _ ⟨rfl, rfl⟩
  exact ⟨rfl, rfl⟩

theorem search_same {β : Type} {g : Nat → Dirent → Option β} {lo n : Nat} :
    Ends (untilSome (fun k => do
      let de ← readDirent dp (DIRENT * k)
      pure (g k de)) (List.range' lo n)) s (fun _ s' => s' = s) fun _ _ => True := by
  refine ends_untilSome (fun _ s' => s' = s) rfl (fun k _ _ s' hs' => ?_) fun _ hs' => hs'
  subst hs'
  rw [ends_bind, readDirent, ends_bind]
  refine (readi_same h hu).mono ?_ fun _ _ _ => trivial
  rintro (_ | l) s' rfl
  · trivial
  · simp only [ends_bind, ends_stopIf, ends_pure, implies_true, and_self]

theorem writeDirent_mild {src : Nat → UInt8} :
    Ends (writeDirent dp off src) s (fun _ s' => Mild [dp] s s' ∧ (s'.mem dp).valid = true)
      fun _ _ => True := by
  simp only [writeDirent, ends_bind, ends_stopIf]
  exact (writei_mild h hu).mono (fun _ _ hs => ⟨fun _ => trivial, fun _ => hs⟩) fun _ _ _ => trivial

theorem dirwrite_blank {inum : Nat} (hblank : s.Blank dp) :
    Ends (dirwrite dp name inum) s
      (fun _ s' => s'.content dp = (List.range DIRENT).map (encode inum name)) fun _ _ => True := by
  have hsize : (s.disk.inode dp).size = 0 := by
    rw [← length_content (h.type_ne hu), hblank.2, List.length_nil]
  simp only [dirwrite, writeDirent, ends_bind, ends_get, h.data_eq hu, hsize]
  refine (writei_ends h hu (by simp [hblank.1])).mono ?_ fun _ _ _ => trivial
  intro r s' hr
  rw [ends_stopIf]
  refine ⟨fun _ => trivial, fun hw => ?_⟩
  -- there is no entry to look at, and the new one is written at offset 0
  split at hr
  · rw [hr.2.content_self (h.type_ne hu) (Nat.zero_le _), hblank.2, splice]
    simp
  · simp [hr.1] at hw

theorem dirwrite_mild {inum : Nat} :
    Ends (dirwrite dp name inum) s (fun _ s' => Mild [dp] s s' ∧ (s'.mem dp).valid = true ∧
      (s.Blank dp → s'.content dp = (List.range DIRENT).map (encode inum name)))
      fun _ _ => True := by
  have hmild : Ends (dirwrite dp name inum) s
      (fun _ s' => Mild [dp] s s' ∧ (s'.mem dp).valid = true) fun _ _ => True := by
    simp only [dirwrite, ends_bind, ends_get]
    refine (search_same h hu).imp ?_
    rintro _ s' rfl
    exact writeDirent_mild h hu
  refine ends_of_forall_returns (fun _ s' hret => ?_) fun _ _ => trivial
  obtain ⟨hs', hvalid⟩ := hmild.of_returns hret
  exact ⟨hs', hvalid, fun hblank => (dirwrite_blank h hu hblank).of_returns hret⟩

theorem isdirempty_same : Ends (isdirempty dp) s (fun _ s' => s' = s) fun _ _ => True := by
  simp only [isdirempty, ends_bind, ends_get, ends_pure]
  exact search_same h hu

end

end Xv6.Fs
