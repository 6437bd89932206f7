import Xv6.Fs.Calls

/-! # Calls that nothing interrupts

A system call that runs alone. It takes references to inodes and their locks on its way and gives
all of them back; in between, the disk and the references of everybody else are known.

* **`Rest`** — what the file system is apart from the call, **`Visit`** — the state in the middle of
  a call that has some references and locks of its own.
* One lemma for each function of `fs.c` says how it moves from one such state to the next:
  **`Visit.ilock`**, **`Visit.iunlock`**, **`Visit.iput`**. -/

namespace Xv6.Fs

open Foundation Function
open Inodes (Dinode NDIRECT)

/-! ## Symbolic execution -/

/-- Code that `p` runs alone. -/
abbrev alone {α : Type} (p : Slot) (x : Code α) : Fallible Panic Sys α :=
    x.run .deadlock .badInode p

/-- Put another file system in place. -/
def setFs (t : Fs) (s : Sys) : Sys := { s with state := { s.state with fs := t } }

@[simp] theorem setFs_fs (t : Fs) (s : Sys) : (setFs t s).state.fs = t := rfl

/-- Set the lock of an inode. -/
@[simps -fullyApplied] def setLock (ip : Nat) (o : Option Slot) (s : Sys) : Sys :=
  { s with lock := update s.lock ip o }

section

variable {α : Type} {p : Slot} {s : Sys} {C : Panic → Sys → Prop} {ip : Nat}

theorem ends_act {m : Fallible Panic Kernel α} {Q : α → Sys → Prop} :
    Ends (alone p (act m)) s Q C ↔
      Ends m s.state (fun a t => Q a { s with state := t }) fun e t =>
        C e { s with state := t } := by
  simp only [alone, act, Script.run, ends_bind, ends_zoom, ends_pure]

theorem ends_onFs {m : Fallible Panic Fs α} {Q : α → Sys → Prop} :
    Ends (alone p (act (onFs m))) s Q C ↔
      Ends m s.state.fs (fun a t => Q a (setFs t s)) fun e t => C e (setFs t s) := by
  simp only [ends_act, onFs, ends_zoom]
  rfl

theorem ends_acquiresleep {Q : PUnit → Sys → Prop} :
    Ends (alone p (acquiresleep ip)) s Q C ↔
      (s.lock ip ≠ none → C .deadlock s) ∧ (s.lock ip = none → Q ⟨⟩ (setLock ip (some p) s)) := by
  simp only [alone, acquiresleep, Script.run, Script.take, ends_bind, ends_get, ends_stopIf,
    ends_modify, ends_pure, not_not]
  rfl

theorem ends_releasesleep {Q : PUnit → Sys → Prop} :
    Ends (alone p (releasesleep ip)) s Q C ↔
      (s.lock ip ≠ some p → C .badInode s) ∧ (s.lock ip = some p → Q ⟨⟩ (setLock ip none s)) := by
  simp only [alone, releasesleep, Script.run, Script.give, ends_bind, ends_get, ends_stopIf,
    ends_modify, ends_pure, not_not]
  rfl

theorem ends_inodeAt {Q : Dinode → Sys → Prop} :
    Ends (alone p (inodeAt ip)) s Q C ↔ Q (s.state.fs.mem ip).data s := by
  simp only [inodeAt, ends_act, ends_bind, ends_get, ends_pure]

end

/-! ## In the middle of a call -/

/-- The file system without its cache. -/
@[simps -fullyApplied] def bare (s : Fs) : Fs := { s with mem := fun _ => {} }

/-- **What is there apart from a call**: the disk, the references that others have, which of their
inodes are known to be valid in memory, the tables of open files and the working directories. -/
structure Rest where
  fs : Fs
  ref : Nat → Nat
  valid : Nat → Prop
  tables : Files.Tables
  cwd : Slot → Option Nat

/-- The references of the call together with the one to an inode that was found. -/
def withFound {β : Type} (o : Option (Nat × β)) (refs : List Nat) : List Nat :=
  match o with
  | none => refs
  | some (i, _) => i :: refs

theorem erase_second (i j : Nat) (l : List Nat) : (i :: j :: l).erase j = i :: l := by
  by_cases h : i = j
  · rw [h, List.erase_cons_head]
  · rw [List.erase_cons_tail (by simpa using h), List.erase_cons_head]

/-- **The state in the middle of a call** by `p`, which has the references `refs` and the locks
`held`. -/
structure Visit (p : Slot) (r : Rest) (refs held : List Nat) (s : Sys) : Prop where
  bare : s.state.fs.bare = r.fs
  ref : ∀ i, (s.state.fs.mem i).ref = r.ref i + refs.count i
  coherent : s.state.fs.Coherent
  valid : ∀ i, r.valid i → 0 < r.ref i ∧ (s.state.fs.mem i).valid = true
  nodup : held.Nodup
  loaded : ∀ i ∈ held, i ∈ refs ∧ (s.state.fs.mem i).valid = true
  lock : ∀ i, s.lock i = if i ∈ held then some p else none
  tables : s.state.tables = r.tables
  cwd : s.state.cwd = r.cwd

namespace Visit

variable {p : Slot} {r : Rest} {refs held : List Nat} {s : Sys} {ip dp : Nat} {name : Name}

section

variable (h : Visit p r refs held s)

include h

theorem disk : s.state.fs.disk = r.fs.disk := by
  rw [← h.bare]
  rfl

theorem sb : s.state.fs.sb = r.fs.sb := by
  rw [← h.bare]
  rfl

theorem ref_pos (hip : ip ∈ refs) : 0 < (s.state.fs.mem ip).ref := by
  rw [h.ref]
  exact Nat.add_pos_right _ (List.count_pos_iff.2 hip)

section

variable (hip : ip ∈ held)

include hip

theorem inUse : s.state.fs.InUse ip :=
  ⟨h.ref_pos (h.loaded ip hip).1, (h.loaded ip hip).2⟩

theorem data_eq : (s.state.fs.mem ip).data = r.fs.disk.inode ip := by
  rw [← h.disk]
  exact (h.coherent ip (h.inUse hip).ref (h.inUse hip).valid).1

theorem type_ne : (r.fs.disk.inode ip).type ≠ 0 := by
  rw [← h.disk]
  exact (h.coherent ip (h.inUse hip).ref (h.inUse hip).valid).2

theorem lock_held : s.lock ip = some p := by rw [h.lock, if_pos hip]

end

theorem lock_free (hip : ip ∉ held) : s.lock ip = none := by rw [h.lock, if_neg hip]

theorem got : Visit p r (ip :: refs) held (setFs (s.state.fs.got ip) s) where
  __ := h
  ref i := by
    rw [setFs_fs, ref_got, h.ref]
    by_cases hi : i = ip
    · subst hi
      simp [Nat.add_assoc]
    · simp [hi, Ne.symm hi]
  coherent := h.coherent.got
  valid i hi := by
    obtain ⟨href, hvalid⟩ := h.valid i hi
    refine ⟨href, ?_⟩
    rw [setFs_fs, valid_got (by rw [h.ref]; omega)]
    exact hvalid
  loaded i hi := by
    obtain ⟨hin, hvalid⟩ := h.loaded i hi
    refine ⟨List.mem_cons_of_mem _ hin, ?_⟩
    rw [setFs_fs, valid_got (h.ref_pos hin)]
    exact hvalid

theorem ilock (hip : ip ∈ refs) :
    Ends (alone p (ilock ip)) s
      (fun _ s' => Visit p r refs (ip :: held) s' ∧ ip ∉ held)
      fun e _ => e = .noType ∧ (r.fs.disk.inode ip).type = 0 ∨ e = .deadlock ∧ ip ∈ held := by
  have href := h.ref_pos hip
  simp only [Fs.ilock, Script.ends_run_bind, ends_onFs, checkRef, ends_bind, ends_get, ends_stopIf,
    ends_acquiresleep]
  refine ⟨fun hzero => absurd href (by omega), fun _ => ⟨fun hlock => .inr ⟨trivial, ?_⟩,
    fun hlock => ?_⟩⟩
  · by_contra hnot
    exact hlock (h.lock_free hnot)
  have hnot : ip ∉ held := by
    intro hin
    have := (h.lock_held hin).symm.trans hlock
    cases this
  refine (load_ends fun hvalid => (h.coherent ip href hvalid).2).mono ?_ fun _ _ hstop =>
    .inl ⟨hstop.1, h.disk ▸ hstop.2⟩
  rintro _ t ⟨rfl, htype⟩
  refine ⟨⟨?_, ?_, h.coherent.loaded htype, ?_, ?_, ?_, ?_, h.tables, h.cwd⟩, hnot⟩
  · rw [← h.bare]
    simp [Fs.bare]
  · intro i
    rw [setFs_fs, ref_loaded]
    exact h.ref i
  · exact fun i hi => ⟨(h.valid i hi).1, valid_loaded_of (h.valid i hi).2⟩
  · exact List.nodup_cons.2 ⟨hnot, h.nodup⟩
  · intro i hi
    rcases List.mem_cons.1 hi with rfl | hi
    · exact ⟨hip, valid_loaded⟩
    · exact ⟨(h.loaded i hi).1, valid_loaded_of (h.loaded i hi).2⟩
  · intro i
    show update s.lock ip (some p) i = _
    by_cases hi : i = ip
    · simp [hi]
    · simp [hi, h.lock i]

/-- **`iunlock`** of an inode that the call has locked. -/
theorem iunlock (hip : ip ∈ held) :
    Ends (alone p (iunlock ip)) s (fun _ s' => Visit p r refs (held.erase ip) s')
      fun _ _ => False := by
  have href := (h.inUse hip).ref
  simp only [Fs.iunlock, Script.ends_run_bind, ends_onFs, checkRef, ends_bind, ends_get,
    ends_stopIf, ends_releasesleep]
  refine ⟨fun hzero => by omega, fun _ => ⟨fun hlock => hlock (h.lock_held hip), fun _ => ?_⟩⟩
  refine { h with
    nodup := h.nodup.erase ip
    loaded := fun i hi => h.loaded i (List.mem_of_mem_erase hi)
    lock := fun i => ?_ }
  show update s.lock ip none i = _
  simp only [h.nodup.mem_erase_iff]
  by_cases hi : i = ip
  · simp [hi]
  · simp [hi, h.lock i]

theorem iput (hip : ip ∈ refs)
    (hkept : (r.fs.disk.inode ip).type ≠ 0 → (r.fs.disk.inode ip).nlink = 0 → 0 < r.ref ip ∨
      1 < refs.count ip) :
    Ends (alone p (iput ip)) s (fun _ s' => Visit p r (refs.erase ip) held s')
      fun e _ => e = .deadlock ∧ ip ∈ held := by
  have href := h.ref_pos hip
  have hcount : 0 < refs.count ip := List.count_pos_iff.2 hip
  simp only [Fs.iput, Script.ends_run_bind, ends_onFs, ends_acquiresleep, ends_releasesleep]
  refine ⟨fun hlock => ⟨trivial, ?_⟩, fun hlock => ?_⟩
  · by_contra hnot
    exact hlock (h.lock_free hnot)
  have hnot : ip ∉ held := by
    intro hin
    have := (h.lock_held hin).symm.trans hlock
    cases this
  have hneeded : ¬ ((s.state.fs.mem ip).valid = true ∧ (s.state.fs.mem ip).data.nlink = 0 ∧
      (s.state.fs.mem ip).ref = 1) := by
    rintro ⟨hvalid, hnlink, hone⟩
    obtain ⟨hdata, htype⟩ := h.coherent ip href hvalid
    rw [hdata, h.disk] at hnlink
    rw [h.disk] at htype
    rw [h.ref] at hone
    have := hkept htype hnlink
    omega
  refine (freeUnlinked_kept hneeded).mono ?_ fun _ _ hstop => hstop.elim
  rintro _ t rfl
  refine ⟨fun hother => absurd (update_self ..) hother, fun _ => ?_⟩
  refine (dropRef_ends href).mono ?_ fun _ _ hstop => hstop.elim
  rintro _ t rfl
  refine ⟨h.bare, fun i => ?_, h.coherent.dropped, fun i hi => ⟨(h.valid i hi).1, ?_⟩, h.nodup,
    fun i hi => ⟨?_, ?_⟩, fun i => ?_, h.tables, h.cwd⟩
  · rw [setFs_fs]
    show ((s.state.fs.dropped ip).mem i).ref = _
    rw [ref_dropped, h.ref, List.count_erase]
    by_cases hi : i = ip
    · subst hi
      simp only [if_true, beq_self_eq_true]
      omega
    · simp [hi, Ne.symm hi]
  · exact valid_dropped.trans (h.valid i hi).2
  · have hne : i ≠ ip := fun heq => hnot (heq ▸ hi)
    exact (List.mem_erase_of_ne hne).2 (h.loaded i hi).1
  · exact valid_dropped.trans (h.loaded i hi).2
  · show update (update s.lock ip (some p)) ip none i = _
    rw [update_idem, ← h.lock i]
    by_cases hi : i = ip
    · rw [hi, update_self, hlock]
    · rw [update_of_ne hi]

/-- **`iunlockput`** of an inode that somebody needs. -/
theorem iunlockput (hip : ip ∈ held)
    (hkept : (r.fs.disk.inode ip).type ≠ 0 → (r.fs.disk.inode ip).nlink = 0 → 0 < r.ref ip ∨
      1 < refs.count ip) :
    Ends (alone p (iunlockput ip)) s (fun _ s' => Visit p r (refs.erase ip) (held.erase ip) s')
      fun _ _ => False := by
  rw [Fs.iunlockput, Script.ends_run_bind]
  refine (h.iunlock hip).mono (fun _ s1 h1 => ?_) fun _ _ hstop => hstop
  refine (h1.iput (h.loaded ip hip).1 hkept).mono (fun _ s2 h2 => h2) fun _ _ hstop => ?_
  exact h.nodup.not_mem_erase hstop.2

/-! ## Directories and paths -/

/-- **`dirlookup`**, when it is known what the search finds. -/
theorem dirlookup_of {o : Option (Nat × Nat)} {C : Panic → Fs → Prop}
    (hfind : Ends (dirfind dp name) s.state.fs (fun o' t => t = s.state.fs ∧ o' = o) C) :
    Ends (alone p (Fs.dirlookup dp name)) s
      (fun o' s' => o' = o ∧ Visit p r (withFound o refs) held s')
      fun e s' => C e s'.state.fs ∨ e = .cacheFull ∧ NINODE ≤ s.state.fs.cached := by
  simp only [Fs.dirlookup, ends_act, ends_bind, ends_zoom, onFs]
  refine hfind.mono ?_ fun _ _ hstop => .inl hstop
  rintro o' t ⟨rfl, rfl⟩
  rcases o' with _ | ⟨i, off⟩
  · exact ⟨rfl, h⟩
  · simp only [ends_bind, ends_zoom, ends_pure]
    refine iget_ends.mono ?_ fun _ _ hstop => .inr hstop
    rintro _ t rfl
    exact ⟨trivial, h.got⟩

end

end Visit

end Xv6.Fs
