import Xv6.Fs.Frame

/-! # The allocation of blocks stays consistent

Any sequence of the operations that the system calls are made of, in any order and with any
arguments: references to inodes come and go, inodes are read from the disk, allocated, changed,
written, emptied and freed.

* **`Fs.blocks_consistent`** — from every sound image on, between any two operations no block is
  used twice, the free map is exact, files have their blocks and the inodes in memory are those on
  the disk; the panic "freeing free block" does not occur. -/

namespace Xv6.Fs

open Foundation
open Inodes (Dinode NDIRECT)

/-- An operation on the file system. -/
inductive FsOp
  | iget (i : Nat)
  | idup (ip : Nat)
  | ilock (ip : Nat)
  | ialloc (type : Nat)
  /-- New values for these fields, followed by `iupdate`. -/
  | iupdate (ip : Nat) (major minor nlink : Int)
  | readi (ip off n : Nat)
  | writei (ip : Nat) (src : Nat → UInt8) (off n : Nat)
  | itrunc (ip : Nat)
  | iput (ip : Nat)

namespace FsOp

/-- The code of an operation. -/
def exec : FsOp → Fallible Panic Fs PUnit
  | iget i => Fs.iget i
  | idup ip => Fs.idup ip
  | ilock ip => do
    let s ← get
    stopIf ((s.mem ip).ref < 1) .badInode
    load ip
  | ialloc type => do
    let _ ← Fs.ialloc type
    pure ⟨⟩
  | iupdate ip major minor nlink => do
    modify fun s => s.setData ip fun d => { d with major := major, minor := minor, nlink := nlink }
    Fs.iupdate ip
  | readi ip off n => do
    let _ ← Fs.readi ip off n
    pure ⟨⟩
  | writei ip src off n => do
    let _ ← Fs.writei ip src off n
    pure ⟨⟩
  | itrunc ip => Fs.itrunc ip
  | iput ip => do
    freeUnlinked ip
    dropRef ip

/-- How the system calls use the operations: through a reference, and what needs the lock of the
inode after `ilock`. -/
def Allowed (s : Fs) : FsOp → Prop
  | iget _ | ilock _ => True
  | ialloc type => type ≠ 0
  | idup ip | iput ip => 0 < (s.mem ip).ref
  | iupdate ip .. | readi ip .. | writei ip .. | itrunc ip =>
    0 < (s.mem ip).ref ∧ (s.mem ip).valid = true

instance (s : Fs) (op : FsOp) : Decidable (op.Allowed s) := by
  cases op <;> unfold Allowed <;> infer_instance

end FsOp

/-- An operation that returns. -/
def step (s : Fs) (op : FsOp) : Option Fs :=
  if op.Allowed s then
    match Foundation.exec op.exec s with
    | (.ok _, s') => some s'
    | (.error _, _) => none
  else none

variable {s s' s0 : Fs}

/-- **Every operation keeps the file system sound** and finds no block free that it frees. -/
theorem FsOp.exec_sound (op : FsOp) (h : s.Sound) (hop : op.Allowed s) :
    Ends op.exec s (fun _ s' => s'.Sound) fun e _ => e ≠ .freeingFree := by
  cases op with
  | iget i => exact (iget_mild h).imp fun _ _ hs => hs.sound
  | idup ip => exact (idup_mild h hop).imp fun _ _ hs => hs.sound
  | ilock ip =>
    simp only [exec, ends_bind, ends_get, ends_stopIf]
    exact ⟨fun _ => by decide, fun href => (load_mild h (by omega)).imp fun _ _ hs => hs.1.sound⟩
  | ialloc type =>
    rw [exec, ends_bind]
    exact (ialloc_mild h).imp fun _ _ hs => hs.1.sound
  | iupdate ip major minor nlink =>
    exact (relabel_mild h (f := fun d => { d with major := major, minor := minor, nlink := nlink })
      ⟨hop.1, hop.2⟩ ⟨fun _ => rfl, fun _ => rfl, fun _ => rfl⟩).imp fun _ _ hs => hs.sound
  | readi ip off n =>
    rw [exec, ends_bind]
    refine (readi_same h ⟨hop.1, hop.2⟩).imp ?_
    rintro _ _ rfl
    exact h
  | writei ip src off n =>
    rw [exec, ends_bind]
    exact (writei_mild h ⟨hop.1, hop.2⟩).imp fun _ _ hs => hs.1.sound
  | itrunc ip =>
    exact (itrunc_cut h ⟨hop.1, hop.2⟩).mono (fun _ _ hcut => hcut.sound)
      fun _ _ hstop => hstop.elim
  | iput ip =>
    rw [exec, ends_bind]
    exact (freeUnlinked_mild h).imp fun _ _ hs => (dropRef_mild hs.sound).imp fun _ _ hs => hs.sound

theorem Sound.step (h : s.Sound) {op : FsOp} (hs : s.step op = some s') : s'.Sound := by
  unfold Fs.step at hs
  split at hs
  · rename_i hop
    have hends := op.exec_sound h hop
    rw [Ends] at hends
    split at hs
    · rename_i hexec
      rw [hexec] at hends
      cases hs
      exact hends
    · cases hs
  · cases hs

/-- **The allocation of blocks is consistent.** -/
structure Consistent (s : Fs) : Prop where
  /-- No block number appears twice among the pointers of all allocated inodes: the direct ones, the
  one to the indirect block, and those that it lists. -/
  once : ∀ κ κ' : Place, pointers s.disk.inode s.disk.block κ ≠ 0 →
    pointers s.disk.inode s.disk.block κ = pointers s.disk.inode s.disk.block κ' → κ = κ'
  /-- The bits that are set are those of metadata and of these blocks. -/
  bitmap : ∀ b < s.sb.size, s.disk.bitmap b = true ↔ b < s.sb.nmeta ∨
    ∃ κ, pointers s.disk.inode s.disk.block κ ≠ 0 ∧ pointers s.disk.inode s.disk.block κ = b
  /-- An allocated inode has a pointer for every block of its size. -/
  mapped : ∀ i bn, (s.disk.inode i).type ≠ 0 →
    bn < ((s.disk.inode i).size + (BSIZE - 1)) / BSIZE →
    pointers s.disk.inode s.disk.block (i, slotOf bn) ≠ 0
  /-- A valid inode in memory is the one on the disk. -/
  synced : ∀ i, 0 < (s.mem i).ref → (s.mem i).valid = true → (s.mem i).data = s.disk.inode i

theorem Sound.consistent (h : s.Sound) : s.Consistent where
  once _ _ hκ heq := h.laid.exact.inj hκ heq
  bitmap _ hb := h.laid.exact.used_iff hb
  mapped i bn htype hbn := by
    apply h.laid.covered htype
    unfold BSIZE at *
    omega
  synced i hr hv := (h.coherent i hr hv).1

/-- **The allocation invariant.** In every state that any sequence of operations reaches from a
sound image, the allocation of blocks is consistent, and no operation panics with "freeing free
block". -/
theorem blocks_consistent (h0 : s0.Sound) (h : Reachable step s0 s) :
    s.Consistent ∧
      ∀ op : FsOp, op.Allowed s → ∀ s', Foundation.exec op.exec s ≠ (.error .freeingFree, s') := by
  have hsound : s.Sound := h.invariant Sound h0 fun _ _ _ hs _ hstep => hs.step hstep
  refine ⟨hsound.consistent, fun op hop s' hexec => ?_⟩
  have hends := op.exec_sound hsound hop
  rw [Ends, hexec] at hends
  exact hends rfl

/-- The root directory of the smallest image grows by a block. -/
theorem blocks_consistent_grown :
    ∃ s, Reachable step blank s ∧ s.Consistent ∧ s.disk.bitmap (firstBlock + 1) = true := by
  obtain ⟨s, hrun, hs⟩ := exists_run_of_runs step (fun _ _ => True) blank
    [.iget ROOTINO, .ilock ROOTINO, .writei ROOTINO (fun _ => 0) BSIZE 16, .iput ROOTINO]
    (fun s => s.disk.bitmap (firstBlock + 1)) (by decide +kernel)
  exact ⟨s, hrun, (blocks_consistent sound_blank hrun).1, hs⟩

end Xv6.Fs
