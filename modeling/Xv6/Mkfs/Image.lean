import Xv6.Mkfs.Building

/-! # The images that `mkfs` writes

What a reader of the written image finds: the bitmap, which is written last, and the root directory,
whose size is rounded to whole blocks before. If the entries fill the last block of the directory,
the rounded size has one block more than the directory.

* **`finish_wellFormed`** — for at most 198 files, the image is well-formed exactly if the entries
  do not fill the last block. -/

namespace Xv6.Mkfs

open Foundation Fs Function
open Inodes (Dinode NDIRECT)

variable {s : Mkfs} {files : List HostFile} {u : Nat}

/-! ## The bitmap -/

theorem bitmapBytes_succ (used : Nat) :
    bitmapBytes (used + 1) = update (bitmapBytes used) (used / 8)
      (bitmapBytes used (used / 8) ||| UInt8.ofNat (2 ^ (used % 8))) := by
  rw [bitmapBytes, List.range_succ, List.foldl_append]
  rfl

theorem bitAt_bitmapBytes (used b : Nat) : bitAt (bitmapBytes used) b = decide (b < used) := by
  induction used with
  | zero => simp [bitmapBytes, bitAt]
  | succ used ih =>
    rw [bitAt] at ih
    rw [bitmapBytes_succ, bitAt]
    by_cases hbyte : b / 8 = used / 8
    · have hpow : 2 ^ (used % 8) < 2 ^ 8 := Nat.pow_lt_pow_right (by decide)
        (Nat.mod_lt _ (by decide))
      rw [hbyte] at ih ⊢
      rw [update_self, UInt8.toNat_or, Nat.testBit_or, ih, UInt8.toNat_ofNat',
        Nat.mod_eq_of_lt hpow, Nat.testBit_two_pow, Bool.eq_iff_iff]
      simp only [Bool.or_eq_true, decide_eq_true_eq]
      omega
    · rw [update_of_ne hbyte, ih, decide_eq_decide]
      omega

/-! ## The image as a disk -/

/-- The disk in the image. -/
def disk (s : Mkfs) : Disk := Disk.ofImage inodestart mkfsSuperblock s.image

/-- The block numbers in the inodes of the image. -/
def pointer (s : Mkfs) : Place → Nat := pointers s.disk.inode s.disk.block

/-- **The kernel sees this disk**, since it finds the superblock. -/
theorem mount_image (h : s.image 1 = superBytes) :
    mount s.image = some { sb := mkfsSuperblock, disk := s.disk, mem := fun _ => {} } := by
  have hnums : numAt superBytes 0 4 = FSSIZE ∧ numAt superBytes 8 4 = NINODES ∧
      numAt superBytes 20 4 = inodestart ∧ numAt superBytes 24 4 = bmapstart := by
    decide
  obtain ⟨hsize, hninodes, hstart, hbmap⟩ := hnums
  simp only [mount, h, hsize, hninodes, hstart, hbmap]
  rfl

theorem disk_put_bitmap (s : Mkfs) (bytes : Block) :
    (s.put bmapstart bytes).disk.inode = s.disk.inode ∧
      (s.put bmapstart bytes).disk.block = s.disk.block := by
  constructor
  · funext i
    simp only [disk, Disk.ofImage, put_image]
    split
    · rename_i hi
      have hne : i / IPB + inodestart ≠ bmapstart := Nat.ne_of_lt hi
      rw [update_of_ne hne]
    · rfl
  · funext b
    simp only [disk, Disk.ofImage, put_image]
    split
    · rename_i hb
      have hne : b ≠ bmapstart := by
        rw [nmeta_eq] at hb
        exact Nat.ne_of_gt hb
      rw [update_of_ne hne]
    · rfl

section

variable (h : Built (files.length + 1) (contents files) u s) (hn : files.length + 2 ≤ NINODES)
include h

theorem root_size : (s.fs.disk.inode ROOTINO).size = DIRENT * (files.length + 2) := by
  rw [h.size (by decide) (Nat.succ_le_succ (Nat.zero_le _)), length_root]

include hn

theorem fits_rounded : Fits (rounded (s.fs.disk.inode ROOTINO)) := by
  have hsize := root_size h
  obtain ⟨htype, hmajor, hminor, hnlink, -, haddrs⟩ := fits_inode (s := s) ROOTINO
  generalize s.fs.disk.inode ROOTINO = root at *
  rw [rounded]
  refine ⟨htype, hmajor, hminor, hnlink, ?_, haddrs⟩
  dsimp only
  unfold NINODES at hn
  unfold DIRENT at hsize
  unfold BSIZE
  omega

theorem finish_inode :
    s.finish.disk.inode = update s.fs.disk.inode ROOTINO (rounded (s.fs.disk.inode ROOTINO)) := by
  have hfs := stored_fs (s := s) (show ROOTINO < NINODES by decide) (fits_rounded h hn)
  rw [finish, (disk_put_bitmap _ _).1]
  show (s.stored _ _).fs.disk.inode = _
  rw [hfs, setInode_disk_inode]

theorem finish_block : s.finish.disk.block = s.fs.disk.block := by
  have hfs := stored_fs (s := s) (show ROOTINO < NINODES by decide) (fits_rounded h hn)
  rw [finish, (disk_put_bitmap _ _).2]
  show (s.stored _ _).fs.disk.block = _
  rw [hfs]
  rfl

theorem finish_pointer : s.finish.pointer = pointers s.fs.disk.inode s.fs.disk.block := by
  rw [pointer, finish_inode h hn, finish_block h hn]
  exact pointers_congr rfl rfl

omit h hn in
theorem finish_bitmap {b : Nat} (hb : b < BPB) :
    s.finish.disk.bitmap b = decide (b < s.freeblock) := by
  have hzero : b / BPB + mkfsSuperblock.bmapstart = bmapstart := by
    rw [Nat.div_eq_of_lt hb]
    exact Nat.zero_add _
  simp only [disk, Disk.ofImage, finish, put_image, hzero, update_self, Nat.mod_eq_of_lt hb,
    bitAt_bitmapBytes]

end

/-! ## Well-formed images -/

/-- An inode is in use if the program has given it out, or if it has a type in the image. -/
def Used (s : Mkfs) (i : Nat) : Prop := 0 < i ∧ i < s.freeinode ∨ (s.disk.inode i).type ≠ 0

/-- **A well-formed image.** -/
structure WellFormed (s : Mkfs) : Prop where
  inum_lt : ∀ i, s.Used i → i < NINODES
  range : ∀ κ, s.pointer κ ≠ 0 → nmeta ≤ s.pointer κ ∧ s.pointer κ < FSSIZE
  once : ∀ κ κ', s.pointer κ ≠ 0 → s.pointer κ = s.pointer κ' → κ = κ'
  bitmap : ∀ b < BPB, s.disk.bitmap b = true ↔ b < nmeta ∨ ∃ κ, s.pointer κ ≠ 0 ∧ s.pointer κ = b
  /-- A file has all blocks of its size. -/
  noHole : ∀ i, s.Used i → ∀ bn < ((s.disk.inode i).size + BSIZE - 1) / BSIZE,
    s.pointer (i, slotOf bn) ≠ 0

/-- **The written image**: the entries of the root directory may fill its last block. -/
theorem finish_wellFormed (h : Built (files.length + 1) (contents files) u s)
    (hn : files.length + 2 ≤ NINODES) :
    s.finish.WellFormed ↔ (files.length + 2) % 32 ≠ 0 := by
  have hexact := h.sane.sound.laid.exact
  have hsize := root_size h
  have hrounded : (s.finish.disk.inode ROOTINO).size =
      (DIRENT * (files.length + 2) / BSIZE + 1) * BSIZE := by
    rw [finish_inode h hn, update_self, rounded, hsize]
  have hused : ∀ i, s.finish.Used i ↔ 0 < i ∧ i < files.length + 2 := by
    intro i
    have htype : (s.finish.disk.inode i).type = typeOf (files.length + 1) i := by
      rw [← h.type, finish_inode h hn]
      by_cases hi : i = ROOTINO
      · rw [hi, update_self, rounded]
      · rw [update_of_ne hi]
    have hfree : s.finish.freeinode = files.length + 2 := h.freeinode
    rw [Used, htype, hfree]
    refine ⟨fun hu => hu.elim id fun hne => ?_, .inl⟩
    have : ¬ (i = 0 ∨ files.length + 1 < i) := fun hout => hne (if_pos hout)
    omega
  constructor
  · -- the block behind the last entry
    intro hw hfull
    have hroot : s.finish.Used ROOTINO := (hused _).2 ⟨by decide, by unfold ROOTINO; omega⟩
    refine hw.noHole ROOTINO hroot (DIRENT * (files.length + 2) / BSIZE) ?_ ?_
    · rw [hrounded]
      unfold BSIZE DIRENT
      omega
    · rw [finish_pointer h hn]
      apply h.sane.tight
      rw [hsize]
      unfold BSIZE DIRENT
      omega
  · intro hpart
    constructor
    · intro i hi
      have := (hused i).1 hi
      omega
    · intro κ hne
      rw [finish_pointer h hn] at hne ⊢
      have hlow := hexact.not_base hne
      rw [show s.fs.sb = mkfsSuperblock from rfl, nmeta_eq] at hlow
      exact ⟨Nat.le_of_not_lt hlow, hexact.lt_limit hne⟩
    · intro κ κ' hne heq
      rw [finish_pointer h hn] at hne heq
      exact hexact.inj hne heq
    · intro b hb
      rw [finish_bitmap hb, finish_pointer h hn, ← nmeta_eq]
      by_cases hlt : b < FSSIZE
      · exact hexact.used_iff hlt
      · -- no block behind the end is taken
        have hhigh := h.sane.fresh.high
        refine ⟨fun hbit => absurd (of_decide_eq_true hbit) (by omega), ?_⟩
        rintro (hmeta | ⟨κ, hne, rfl⟩)
        · rw [nmeta_eq] at hmeta
          exact absurd (hmeta.trans (by decide)) hlt
        · exact absurd (hexact.lt_limit hne) hlt
    · intro i hi bn hbn
      have hrange := (hused i).1 hi
      have htype : (s.fs.disk.inode i).type ≠ 0 := by
        rw [h.type]
        exact typeOf_ne (by omega) (by omega)
      rw [finish_pointer h hn]
      apply h.sane.sound.laid.covered htype
      by_cases hroot : i = ROOTINO
      · rw [hroot, hrounded] at hbn
        rw [hroot, hsize]
        unfold BSIZE DIRENT at *
        omega
      · rw [finish_inode h hn, update_of_ne hroot] at hbn
        unfold BSIZE at *
        omega

theorem main_returns (hn : files.length + 2 ≤ NINODES) (hsmall : Small files) :
    ∃ t, Built (files.length + 1) (contents files) (budget files) t ∧
      Returns (main files) start ⟨⟩ t.finish := by
  have hends := (main_ends rfl hn).and_returns.mono (fun _ _ h => h) fun _ _ hstop => hstop hsmall
  obtain ⟨_, _, ⟨t, ht, rfl⟩, hmain⟩ := hends.exists_of_no_stop
  exact ⟨t, ht, hmain⟩

/-- **`mkfs` writes a well-formed image** exactly if the inodes suffice and the entries of the root
directory do not fill its last block. -/
theorem main_wellFormed (hmain : Returns (main files) start ⟨⟩ s) :
    s.WellFormed ↔ files.length + 2 ≤ NINODES ∧ (files.length + 2) % 32 ≠ 0 := by
  by_cases hn : files.length + 2 ≤ NINODES
  · obtain ⟨t, ht, rfl⟩ := (main_ends rfl hn).of_returns hmain
    rw [finish_wellFormed ht hn]
    exact ⟨fun hpart => ⟨hn, hpart⟩, fun h => h.2⟩
  · -- an inode behind the last one is given out
    have hfree := (main_freeinode files rfl).of_returns hmain
    refine ⟨fun hw => absurd ?_ hn, fun h => absurd h.1 hn⟩
    have := hw.inum_lt (files.length + 1) (.inl ⟨Nat.succ_pos _, by omega⟩)
    omega

/-- An empty file with one letter as its name. -/
def emptyFile (k : Fin 30) : HostFile where
  arg := [UInt8.ofNat (65 + k)]
  chunks := some []
  nonzero := by
    revert k
    decide
  chunk := by simp

theorem small_emptyFiles (l : List (Fin 30)) (hl : l.length ≤ 30) : Small (l.map emptyFile) := by
  constructor
  · intro f hf
    obtain ⟨k, -, rfl⟩ := List.mem_map.1 hf
    have hletter : ∀ k, slash ∉ (emptyFile k).arg := by decide
    exact ⟨hletter k, by simp [emptyFile]⟩
  · have hbudget : budget (l.map emptyFile) = nmeta + 4 + l.length * 2 := by
      simp [budget, emptyFile, HostFile.content, comp_def]
    rw [hbudget]
    exact (Nat.add_le_add_left (Nat.mul_le_mul_right 2 hl) _).trans (by decide)

/-- A file of two bytes. -/
def shortFile : HostFile where
  arg := [82]
  chunks := some [[104, 105]]
  nonzero := by decide
  chunk := by decide

/-- A file with content. -/
theorem main_wellFormed_oneFile : ∃ s, Returns (main [shortFile]) start ⟨⟩ s ∧ s.WellFormed := by
  have hsmall : Small [shortFile] := by
    refine ⟨fun f hf => ?_, by decide⟩
    obtain rfl := List.mem_singleton.1 hf
    exact ⟨by decide, by decide⟩
  obtain ⟨t, -, hmain⟩ := main_returns (show [shortFile].length + 2 ≤ NINODES by decide) hsmall
  exact ⟨t.finish, hmain, (main_wellFormed hmain).2 (by decide)⟩

/-- **Thirty empty files**: the thirty-two entries fill the only block of the root directory, whose
size is that of two blocks. -/
theorem thirtyFiles_hole :
    ∃ s, Returns (main ((List.finRange 30).map emptyFile)) start ⟨⟩ s ∧
      (s.disk.inode ROOTINO).size = 2 * BSIZE ∧ s.pointer (ROOTINO, slotOf 1) = 0 ∧
        ¬ s.WellFormed := by
  generalize hfiles : (List.finRange 30).map emptyFile = files
  have hlen : files.length = 30 := by simp [← hfiles]
  have hn : files.length + 2 ≤ NINODES := by rw [hlen]; decide
  obtain ⟨t, ht, hmain⟩ := main_returns hn (hfiles ▸ small_emptyFiles _ (by simp))
  have hsize := root_size ht
  rw [hlen] at hsize
  refine ⟨t.finish, hmain, ?_, ?_, ?_⟩
  · rw [finish_inode ht hn, update_self, rounded, hsize]
    rfl
  · rw [finish_pointer ht hn]
    apply ht.sane.tight ROOTINO 1
    rw [hsize]
    decide
  · rw [finish_wellFormed ht hn, hlen]
    decide

end Xv6.Mkfs
