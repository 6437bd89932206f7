import Xv6.Fs.Contents

/-! # The smallest image

The image that `mkfs` builds when it is given no files: a root directory with its two entries in the
first block of data.

* **`Fs.sound_blank`** — it is sound, and so is every file system that has been started on it and
  has one inode in use. -/

namespace Xv6.Fs

open Foundation Function
open Inodes (Dinode NDIRECT)

/-- `ROOTINO` of `fs.h`. -/
abbrev ROOTINO : Nat := 1

/-- `NINODES` of `mkfs.c`. -/
abbrev NINODES : Nat := 200

/-- Inodes in a block of inodes, `IPB` of `fs.h`. -/
abbrev IPB : Nat := BSIZE / 64

/-- The superblock that `mkfs` writes. -/
def mkfsSuperblock : Superblock where
  size := FSSIZE
  ninodes := NINODES
  bmapstart := 2 + LOGSIZE + (NINODES / IPB + 1)
  size_lt := by decide
  ninodes_le := by decide

/-- The first block of data in an image that `mkfs` builds. -/
abbrev firstBlock : Nat := mkfsSuperblock.nmeta

/-- The entries `.` and `..` of the root directory. -/
def rootEntries : Block
  | 0 => 1
  | 2 => 46
  | 16 => 1
  | 18 => 46
  | 19 => 46
  | _ => 0

/-- The root directory; `mkfs` rounds its size up to whole blocks. -/
def rootInode : Dinode :=
    ({ type := T_DIR, nlink := 1, size := BSIZE } : Dinode).setAddr 0 firstBlock

/-- **The image that `mkfs` builds from no files**, with an empty inode cache. -/
def blank : Fs where
  sb := mkfsSuperblock
  disk :=
    { inode := update (fun _ => {}) ROOTINO rootInode
      bitmap := fun b => decide (b < firstBlock + 1)
      block := update (fun _ _ => 0) firstBlock rootEntries }
  mem := fun _ => {}

/-- Inode `i` is cached by one user and valid. -/
def hold (s : Fs) (i : Nat) : Fs :=
  { s with mem := update s.mem i { ref := 1, valid := true, data := s.disk.inode i } }

theorem pointers_blank : pointers blank.disk.inode blank.disk.block
    = update (fun _ => 0) (ROOTINO, 0) firstBlock := by
  have hempty : pointers (update (fun _ => {}) ROOTINO
      { type := T_DIR, nlink := 1, size := BSIZE }) blank.disk.block = fun _ => 0 := by
    funext ⟨i, k⟩
    by_cases hi : i = ROOTINO
    · simp [pointers, hi, Dinode.addr]
    · simp [pointers, hi]
  rw [← hempty, ← pointers_setAddr (by simp) (by decide)]
  simp [blank, rootInode]

theorem sound_blank : blank.Sound where
  laid := by
    constructor
    · rw [pointers_blank]
      have hnone : Exact (· < firstBlock) FSSIZE (fun b => decide (b < firstBlock))
          (fun _ : Place => 0) := by
        constructor <;> simp
      have hbitmap : blank.disk.bitmap
          = update (fun b => decide (b < firstBlock)) firstBlock true := by
        funext b
        by_cases hb : b = firstBlock
        · simp [blank, hb]
        · simp only [blank, update_of_ne hb, decide_eq_decide]
          omega
      rw [hbitmap]
      exact hnone.take (by decide) (by simp) rfl (by decide)
    · intro i bn htype hsize
      by_cases hi : i = ROOTINO
      · subst hi
        have hbn : bn = 0 := by
          have : bn * BSIZE < BSIZE := by simpa [blank, rootInode] using hsize
          unfold BSIZE at this
          omega
        rw [pointers_blank, hbn, show slotOf 0 = 0 from rfl, update_self]
        decide
      · simp [blank, hi] at htype
  coherent _ hr := by simp [blank] at hr

theorem sound_hold {i : Nat} (htype : (blank.disk.inode i).type ≠ 0) : (blank.hold i).Sound where
  laid := sound_blank.laid
  coherent j href _ := by
    by_cases hj : j = i
    · rw [hj]
      exact ⟨by simp [hold], htype⟩
    · simp [hold, hj, blank] at href

end Xv6.Fs
