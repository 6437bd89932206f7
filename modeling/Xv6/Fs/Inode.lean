import Xv6.Fs.Contents

/-! # Inodes in memory

The functions of `fs.c` that move inodes between the disk and the cache, for one process at a time:
`ialloc`, `iget`, `idup`, and the parts of `ilock` and `iput` between the operations on the lock of
the inode.

Every function has a lemma that says which state it leaves, and that a sound file system stays
sound. -/

namespace Xv6.Fs

open Foundation Function
open Inodes (Dinode NDIRECT)

/-- The number of entries of the cache that are taken. -/
def cached (s : Fs) : Nat := (List.range s.sb.ninodes).countP fun i => 0 < (s.mem i).ref

/-- Change an entry of the cache. -/
@[simps -fullyApplied]
def setMem (s : Fs) (i : Nat) (m : Mem) : Fs := { s with mem := update s.mem i m }

/-- `iget`: one more reference to an inode that is cached, or a free entry for it. -/
def iget (i : Nat) : Fallible Panic Fs PUnit := do
  let s ← get
  if 0 < (s.mem i).ref then
    modify fun s => s.setMem i { s.mem i with ref := (s.mem i).ref + 1 }
  else
    stopIf (NINODE ≤ s.cached) .cacheFull
    modify fun s => s.setMem i { s.mem i with ref := 1, valid := false }

/-- `idup`. -/
def idup (ip : Nat) : Fallible Panic Fs PUnit :=
  modify fun s => s.setMem ip { s.mem ip with ref := (s.mem ip).ref + 1 }

/-- `ilock` once it has the lock: read the inode from the disk if necessary. -/
def load (ip : Nat) : Fallible Panic Fs PUnit := do
  let s ← get
  onlyIf ((s.mem ip).valid = false) do
    modify fun s => s.setMem ip { s.mem ip with data := s.disk.inode ip, valid := true }
    stopIf ((s.disk.inode ip).type = 0) .noType

/-- `iput` while it has the lock: free the inode if nothing refers to it. -/
def freeUnlinked (ip : Nat) : Fallible Panic Fs PUnit := do
  let s ← get
  onlyIf ((s.mem ip).valid = true ∧ (s.mem ip).data.nlink = 0 ∧ (s.mem ip).ref = 1) do
    itrunc ip
    modify fun s => s.setData ip fun d => { d with type := 0 }
    iupdate ip
    modify fun s => s.setMem ip { s.mem ip with valid := false }

/-- The end of `iput`. The model does not follow an `iput` without a reference. -/
def dropRef (ip : Nat) : Fallible Panic Fs PUnit := do
  let s ← get
  stopIf ((s.mem ip).ref = 0) .outside
  modify fun s => s.setMem ip { s.mem ip with ref := (s.mem ip).ref - 1 }

/-- `ialloc`: the first inode of type 0 is cleared, given its type, and referenced. -/
def ialloc (type : Nat) : Fallible Panic Fs Nat := do
  let s ← get
  match (List.range' 1 (s.sb.ninodes - 1)).find? fun i => (s.disk.inode i).type = 0 with
  | some i =>
    modify fun s => s.setInode i { type := type }
    iget i
    pure i
  | none => throw .noInodes

/-! ## What they leave -/

variable {s s' : Fs} {ip i : Nat}

/-- The file system with one more reference to `i`. -/
def got (s : Fs) (i : Nat) : Fs :=
  s.setMem i (if 0 < (s.mem i).ref then { s.mem i with ref := (s.mem i).ref + 1 }
    else { s.mem i with ref := 1, valid := false })

/-- The file system with `ip` read from the disk. -/
def loaded (s : Fs) (ip : Nat) : Fs :=
  if (s.mem ip).valid = true then s
  else s.setMem ip { s.mem ip with data := s.disk.inode ip, valid := true }

/-- The file system with one reference less to `ip`. -/
def dropped (s : Fs) (ip : Nat) : Fs := s.setMem ip { s.mem ip with ref := (s.mem ip).ref - 1 }

@[simp] theorem loaded_sb : (s.loaded i).sb = s.sb := by
  unfold loaded
  split <;> rfl

@[simp] theorem loaded_disk : (s.loaded i).disk = s.disk := by
  unfold loaded
  split <;> rfl

theorem ref_got (j : Nat) :
    ((s.got i).mem j).ref = (s.mem j).ref + if j = i then 1 else 0 := by
  by_cases hj : j = i
  · subst hj
    simp only [got, setMem_mem, update_self]
    split
    · simp
    · simp
      omega
  · simp [got, hj]

theorem valid_got {j : Nat} (href : 0 < (s.mem j).ref) :
    ((s.got i).mem j).valid = (s.mem j).valid := by
  by_cases hj : j = i
  · subst hj
    simp [got, href]
  · simp [got, hj]

@[simp] theorem ref_loaded (j : Nat) : ((s.loaded i).mem j).ref = (s.mem j).ref := by
  unfold loaded
  split
  · rfl
  · by_cases hj : j = i <;> simp [hj]

theorem ref_dropped (j : Nat) :
    ((s.dropped i).mem j).ref = (s.mem j).ref - if j = i then 1 else 0 := by
  by_cases hj : j = i <;> simp [dropped, hj]

theorem valid_loaded : ((s.loaded i).mem i).valid = true := by
  unfold loaded
  split
  · assumption
  · simp

theorem valid_loaded_of {j : Nat} (h : (s.mem j).valid = true) :
    ((s.loaded i).mem j).valid = true := by
  unfold loaded
  split
  · exact h
  · by_cases hj : j = i <;> simp [hj, h]

theorem valid_dropped {j : Nat} : ((s.dropped i).mem j).valid = (s.mem j).valid := by
  by_cases hj : j = i <;> simp [dropped, hj]

/-- **`iget`** adds a reference, unless it needs an entry and there is none. -/
theorem iget_ends :
    Ends (iget i) s (fun _ s' => s' = s.got i) fun e _ => e = .cacheFull ∧ NINODE ≤ s.cached := by
  rw [iget, ends_bind, ends_get]
  split
  · rename_i href
    rw [ends_modify, got, if_pos href]
  · rename_i href
    rw [ends_bind, ends_stopIf]
    refine ⟨fun hfull => ⟨rfl, hfull⟩, fun _ => ?_⟩
    rw [ends_modify, got, if_neg href]

theorem idup_ends (href : 0 < (s.mem ip).ref) :
    Ends (idup ip) s (fun _ s' => s' = s.got ip) fun _ _ => False := by
  rw [idup, ends_modify, got, if_pos href]

/-- **The end of `ilock`** leaves a valid inode, and fails if it is not allocated. -/
theorem load_ends (hlive : (s.mem ip).valid = true → (s.disk.inode ip).type ≠ 0) :
    Ends (load ip) s (fun _ s' => s' = s.loaded ip ∧ (s.disk.inode ip).type ≠ 0)
      fun e _ => e = .noType ∧ (s.disk.inode ip).type = 0 := by
  simp only [load, ends_bind, ends_get, ends_onlyIf, ends_modify, ends_stopIf]
  refine ⟨fun hvalid => ⟨fun htype => ⟨trivial, htype⟩, fun htype => ⟨?_, htype⟩⟩, fun hvalid => ?_⟩
  · rw [loaded, if_neg (by simp [hvalid])]
  · have hvalid' : (s.mem ip).valid = true := by simpa using hvalid
    exact ⟨by rw [loaded, if_pos hvalid'], hlive hvalid'⟩

theorem dropRef_ends (href : 0 < (s.mem ip).ref) :
    Ends (dropRef ip) s (fun _ s' => s' = s.dropped ip) fun _ _ => False := by
  simp only [dropRef, ends_bind, ends_get, ends_stopIf, ends_modify]
  exact ⟨fun hzero => by omega, fun _ => rfl⟩

/-! ## Soundness -/

theorem Coherent.got (h : s.Coherent) : (s.got i).Coherent := by
  refine h.of_one i (fun hj => by simp [Fs.got, hj]) (fun _ => rfl) fun _ hv => ?_
  simp only [Fs.got, setMem_mem, update_self] at hv ⊢
  split at hv
  · rename_i href
    rw [if_pos href]
    exact h i href hv
  · cases hv

theorem Coherent.loaded (h : s.Coherent) (htype : (s.disk.inode ip).type ≠ 0) :
    (s.loaded ip).Coherent := by
  unfold Fs.loaded
  split
  · exact h
  · exact h.of_one ip (fun hj => by simp [hj]) (fun _ => rfl) fun _ _ => by simp [htype]

theorem Coherent.dropped (h : s.Coherent) : (s.dropped ip).Coherent := by
  refine h.of_one ip (fun hj => by simp [Fs.dropped, hj]) (fun _ => rfl) fun hr hv => ?_
  simp only [Fs.dropped, setMem_mem, update_self] at hr hv ⊢
  exact h ip (by omega) hv

theorem Sound.got (h : s.Sound) : (s.got i).Sound := ⟨h.laid, h.coherent.got⟩

theorem Sound.loaded (h : s.Sound) (htype : (s.disk.inode ip).type ≠ 0) : (s.loaded ip).Sound :=
  ⟨by simpa using h.laid, h.coherent.loaded htype⟩

theorem Sound.dropped (h : s.Sound) : (s.dropped ip).Sound := ⟨h.laid, h.coherent.dropped⟩

/-- **What freeing an inode does**: it has no content and no type any more, and its blocks are
free. -/
structure Freed (ip : Nat) (s s' : Fs) : Prop where
  sound : s'.Sound
  inode : s'.disk.inode = update s.disk.inode ip
    { truncated (s.disk.inode ip) with type := 0 }
  others : ∀ {i}, i ≠ ip → s'.mem i = s.mem i
  byte : ∀ {i k}, i ≠ ip → s'.fileByte i k = s.fileByte i k

theorem pointers_free {T : Nat → Dinode} {B : Nat → Block} {d : Dinode} (hd : d.type = 0)
    (hnone : ∀ k, pointers T B (ip, k) = 0) : pointers (update T ip d) B = pointers T B := by
  funext ⟨i, k⟩
  by_cases hi : i = ip
  · subst hi
    rw [hnone, pointers_of_free (by rwa [update_self])]
  · exact pointers_update_of_ne hi

theorem Cut.freed {s'' : Fs} (h : Cut ip s s') (hsync : (s.mem ip).data = s.disk.inode ip)
    (hs'' : ((s'.setData ip fun d => { d with type := 0 }).setInode ip
      ((s'.setData ip fun d => { d with type := 0 }).mem ip).data).setMem ip
        { (((s'.setData ip fun d => { d with type := 0 }).setInode ip
          ((s'.setData ip fun d => { d with type := 0 }).mem ip).data).mem ip) with
            valid := false } = s'') : Freed ip s s'' := by
  have hdata : (s'.mem ip).data = truncated (s.disk.inode ip) := by
    rw [h.mem, setData_mem, update_self, hsync]
  have hnone : ∀ k, pointers s'.disk.inode s'.disk.block (ip, k) = 0 := by
    intro k
    rw [h.inode, pointers_truncated, emptied, if_pos ⟨rfl, trivial⟩]
  have hinode : s''.disk.inode = update s'.disk.inode ip
      { truncated (s.disk.inode ip) with type := 0 } := by
    rw [← hs'']
    simp [hdata]
  have hptr : pointers s''.disk.inode s''.disk.block = pointers s'.disk.inode s'.disk.block := by
    have hblock : s''.disk.block = s'.disk.block := by rw [← hs'']; rfl
    rw [hinode, hblock, pointers_free rfl hnone]
  have hother : ∀ {i}, i ≠ ip → s''.mem i = s'.mem i := by
    intro i hi
    rw [← hs'']
    simp [hi]
  have hvalid : (s''.mem ip).valid = false := by
    rw [← hs'']
    simp
  constructor
  case sound =>
    refine h.sound.of_one ip ?_ (fun _ => by rw [hptr]) hother ?_ ?_ ?_
    · rw [hptr, ← hs'']
      exact h.sound.laid.exact
    · intro i hi
      rw [hinode, update_of_ne hi]
    · intro bn htype
      rw [hinode, update_self] at htype
      exact absurd rfl htype
    · intro _ hv
      rw [hvalid] at hv
      cases hv
  case inode => rw [hinode, h.inode, update_idem]
  case others =>
    intro i hi
    rw [hother hi, h.mem, setData_mem, update_of_ne hi]
  case byte =>
    intro i k hi
    rw [← h.byte hi, fileByte, hptr, fileByte, ← hs'']
    rfl

theorem freeUnlinked_kept (h : ¬ ((s.mem ip).valid = true ∧ (s.mem ip).data.nlink = 0 ∧
    (s.mem ip).ref = 1)) :
    Ends (freeUnlinked ip) s (fun _ s' => s' = s) fun _ _ => False := by
  rw [freeUnlinked, ends_bind, ends_get, ends_onlyIf]
  exact ⟨fun hlast => absurd hlast h, fun _ => rfl⟩

/-- **The middle of `iput`** frees the inode if this is the last reference and it has no links. -/
theorem freeUnlinked_ends (h : s.Sound) :
    Ends (freeUnlinked ip) s
      (fun _ s' => if (s.mem ip).valid = true ∧ (s.mem ip).data.nlink = 0 ∧ (s.mem ip).ref = 1 then
        Freed ip s s' else s' = s)
      fun _ _ => False := by
  by_cases hlast : (s.mem ip).valid = true ∧ (s.mem ip).data.nlink = 0 ∧ (s.mem ip).ref = 1
  · simp only [if_pos hlast]
    rw [freeUnlinked, ends_bind, ends_get, ends_onlyIf]
    refine ⟨fun _ => ?_, fun hkeep => absurd hlast hkeep⟩
    have hu : s.InUse ip := ⟨by omega, hlast.1⟩
    rw [ends_bind]
    refine (itrunc_cut h hu).mono ?_ fun _ _ hstop => hstop
    intro _ s1 hcut
    simp only [ends_bind, ends_modify, iupdate]
    exact hcut.freed (h.data_eq hu) rfl
  · simp only [if_neg hlast]
    exact freeUnlinked_kept hlast

/-! ## Changing the fields of an inode -/

/-- A field of `ip` other than its type, size and block numbers is changed and written to the
disk. -/
def relabel (s : Fs) (ip : Nat) (f : Dinode → Dinode) : Fs :=
  (s.setData ip f).setInode ip (f (s.mem ip).data)

/-- The change leaves the type, the size and the block numbers alone. -/
structure Label (f : Dinode → Dinode) : Prop where
  type : ∀ d, (f d).type = d.type
  size : ∀ d, (f d).size = d.size
  addrs : ∀ d, (f d).addrs = d.addrs

section

variable {f : Dinode → Dinode}

theorem relabel_inode (h : s.Sound) (hu : s.InUse ip) :
    (s.relabel ip f).disk.inode = update s.disk.inode ip (f (s.disk.inode ip)) := by
  simp [relabel, h.data_eq hu]

theorem valid_relabel (i : Nat) : ((s.relabel ip f).mem i).valid = (s.mem i).valid := by
  by_cases hi : i = ip <;> simp [relabel, hi]

theorem pointers_relabel (hf : Label f) (h : s.Sound) (hu : s.InUse ip) :
    pointers (s.relabel ip f).disk.inode (s.relabel ip f).disk.block
      = pointers s.disk.inode s.disk.block := by
  rw [relabel_inode h hu]
  exact pointers_congr (hf.type _) (hf.addrs _)

/-- **A change of the other fields** keeps the file system sound. -/
theorem Sound.relabel (h : s.Sound) (hu : s.InUse ip) (hf : Label f) : (s.relabel ip f).Sound := by
  have hptr := pointers_relabel hf h hu
  have hinode := relabel_inode (f := f) h hu
  refine h.of_one ip (hptr ▸ h.laid.exact) (fun _ => by rw [hptr]) ?_ ?_ ?_ ?_
  · intro i hi
    simp [Fs.relabel, hi]
  · intro i hi
    rw [hinode, update_of_ne hi]
  · intro bn _ hsize
    rw [hinode, update_self, hf.size] at hsize
    rw [hptr]
    exact h.laid.covered (h.type_ne hu) hsize
  · intro _ _
    rw [hinode, update_self, hf.type]
    exact ⟨by simp [Fs.relabel, h.data_eq hu], h.type_ne hu⟩

end

/-! ## Allocating an inode -/

/-- A free inode is cleared and given a type. -/
def typed (s : Fs) (i type : Nat) : Fs := s.setInode i { type := type }

variable {type : Nat}

theorem pointers_typed (type : Nat) (hfree : (s.disk.inode i).type = 0) :
    pointers (s.typed i type).disk.inode (s.typed i type).disk.block
      = pointers s.disk.inode s.disk.block :=
  pointers_new hfree fun k => by simp [Dinode.addr]

theorem Sound.typed (h : s.Sound) (hfree : (s.disk.inode i).type = 0) : (s.typed i type).Sound := by
  have hptr := pointers_typed type hfree
  refine h.of_one i (hptr ▸ h.laid.exact) (fun _ => by rw [hptr]) (fun _ => rfl) ?_ ?_ ?_
  · intro j hj
    simp [Fs.typed, hj]
  · intro bn _ hsize
    simp [Fs.typed] at hsize
  · intro hr hv
    exact absurd hfree (h.type_ne ⟨hr, hv⟩)

/-- **`ialloc`** finds an inode of type 0 and returns it with a reference. -/
theorem ialloc_ends :
    Ends (ialloc type) s
      (fun i s' => (s.disk.inode i).type = 0 ∧ 0 < i ∧ i < s.sb.ninodes ∧
        s' = (s.typed i type).got i)
      fun e _ => e = .noInodes ∨ e = .cacheFull := by
  rw [ialloc, ends_bind, ends_get]
  rcases hfind : (List.range' 1 (s.sb.ninodes - 1)).find? fun i =>
    (s.disk.inode i).type = 0 with _ | i
  · exact .inl rfl
  · have hmem := List.mem_range'_1.1 (List.mem_of_find?_eq_some hfind)
    have hfree : (s.disk.inode i).type = 0 := by simpa using List.find?_some hfind
    simp only [ends_bind, ends_modify]
    refine iget_ends.mono ?_ fun _ _ he => .inr he.1
    rintro _ s' rfl
    exact ⟨hfree, by omega, by omega, rfl⟩

end Xv6.Fs
