import Xv6.Fs.Calls

/-! # The format of the disk

How the kernel reads an image: `readsb`, the inodes as `ilock` copies them out of their blocks, and
the bits of the free map as `balloc` tests them. An image gives the bytes of every block.

* **`Disk.ofImage`** — the disk that an image holds, **`mount`** — the file system that a kernel
  starts from it.
* **`dinodeAt_putDinode_self`**, **`dinodeAt_putDinode_of_disjoint`** — an inode that was stored is
  read back, and the others in its block are not touched. -/

namespace Xv6

open Foundation
open Inodes (Dinode NDIRECT)

namespace Fs

/-! ## Inodes in a block -/

/-- `sizeof(struct dinode)`. -/
abbrev DINODE : Nat := 64

/-- A `short` as an unsigned number. -/
def ushort (x : Int) : Nat := (x % 2 ^ 16).toNat

/-- `struct dinode` at an offset of a block. -/
def dinodeAt (bytes : Block) (off : Nat) : Dinode where
  type := numAt bytes off 2
  major := short (numAt bytes (off + 2) 2)
  minor := short (numAt bytes (off + 4) 2)
  nlink := short (numAt bytes (off + 6) 2)
  size := numAt bytes (off + 8) 4
  addrs := fun k => numAt bytes (off + 12 + 4 * k) 4

/-- Byte `k` of a `struct dinode`. -/
def dinodeByte (d : Dinode) (k : Nat) : UInt8 :=
  if k < 2 then byteOf d.type k
  else if k < 4 then byteOf (ushort d.major) (k - 2)
  else if k < 6 then byteOf (ushort d.minor) (k - 4)
  else if k < 8 then byteOf (ushort d.nlink) (k - 6)
  else if k < 12 then byteOf d.size (k - 8)
  else byteOf (d.addr ((k - 12) / 4)) ((k - 12) % 4)

/-- `*dip = *ip`. -/
def putDinode (bytes : Block) (off : Nat) (d : Dinode) : Block :=
    overwrite bytes off DINODE (dinodeByte d)

/-- The numbers of an inode fit in its fields. -/
structure Fits (d : Dinode) : Prop where
  type : d.type < 2 ^ 16
  major : short d.major = d.major
  minor : short d.minor = d.minor
  nlink : short d.nlink = d.nlink
  size : d.size < 2 ^ 32
  addrs : ∀ k, d.addrs k < 2 ^ 32

theorem short_ushort (x : Int) : short (ushort x) = short x := by
  unfold short ushort
  rw [Int.toNat_of_nonneg (Int.emod_nonneg x (by decide))]
  exact Int.emod_bmod x (2 ^ 16)

theorem ushort_lt (x : Int) : ushort x < 256 ^ 2 := by
  unfold ushort
  have := Int.emod_lt_of_pos x (show (0 : Int) < 2 ^ 16 by decide)
  have := Int.emod_nonneg x (show (2 : Int) ^ 16 ≠ 0 by decide)
  omega

theorem short_short (x : Int) : short (short x) = short x := by
  unfold short
  exact Int.bmod_bmod

theorem fits_dinodeAt (bytes : Block) (off : Nat) : Fits (dinodeAt bytes off) := by
  constructor
  · exact (numAt_lt bytes off 2).trans_eq (by norm_num)
  · simp only [dinodeAt, short_short]
  · simp only [dinodeAt, short_short]
  · simp only [dinodeAt, short_short]
  · exact (numAt_lt bytes (off + 8) 4).trans_eq (by norm_num)
  · intro k
    exact (numAt_lt bytes (off + 12 + 4 * k) 4).trans_eq (by norm_num)

theorem dinodeAt_putDinode_self {bytes : Block} {off : Nat} {d : Dinode} (h : Fits d) :
    dinodeAt (putDinode bytes off d) off = d := by
  -- a field of `w` bytes at offset `at_` of the inode that holds the number `x`
  have hfield : ∀ at_ w x : Nat, at_ + w ≤ DINODE → x < 256 ^ w →
      (∀ k < w, dinodeByte d (at_ + k) = byteOf x k) → numAt (putDinode bytes off d)
        (off + at_) w = x := by
    intro at_ w x hend hx hbytes
    rw [numAt_of_bytes (x := x), Nat.mod_eq_of_lt hx]
    intro k hk
    rw [putDinode, overwrite, if_pos (by omega), ← hbytes k hk]
    congr 1
    omega
  have htype : numAt (putDinode bytes off d) off 2 = d.type :=
    hfield 0 2 d.type (by decide) h.type fun k hk => by rw [dinodeByte, Nat.zero_add, if_pos hk]
  have hmajor : numAt (putDinode bytes off d) (off + 2) 2 = ushort d.major :=
    hfield 2 2 _ (by decide) (ushort_lt _) fun k hk => by
      rw [dinodeByte, if_neg (by omega), if_pos (by omega), Nat.add_sub_cancel_left]
  have hminor : numAt (putDinode bytes off d) (off + 4) 2 = ushort d.minor :=
    hfield 4 2 _ (by decide) (ushort_lt _) fun k hk => by
      rw [dinodeByte, if_neg (by omega), if_neg (by omega), if_pos (by omega),
        Nat.add_sub_cancel_left]
  have hnlink : numAt (putDinode bytes off d) (off + 6) 2 = ushort d.nlink :=
    hfield 6 2 _ (by decide) (ushort_lt _) fun k hk => by
      rw [dinodeByte, if_neg (by omega), if_neg (by omega), if_neg (by omega), if_pos (by omega),
        Nat.add_sub_cancel_left]
  have hsize : numAt (putDinode bytes off d) (off + 8) 4 = d.size :=
    hfield 8 4 _ (by decide) h.size fun k hk => by
      rw [dinodeByte, if_neg (by omega), if_neg (by omega), if_neg (by omega), if_neg (by omega),
        if_pos (by omega), Nat.add_sub_cancel_left]
  have haddrs : ∀ k : Fin (NDIRECT + 1),
      numAt (putDinode bytes off d) (off + 12 + 4 * k) 4 = d.addrs k := by
    intro k
    have hk : k.val < 13 := k.isLt
    have haddr : d.addr k.val = d.addrs k := dif_pos k.isLt
    rw [Nat.add_assoc]
    refine hfield (12 + 4 * k) 4 _ (by unfold DINODE; omega) (h.addrs k) fun j hj => ?_
    rw [dinodeByte, if_neg (by omega), if_neg (by omega), if_neg (by omega), if_neg (by omega),
      if_neg (by omega), show (12 + 4 * k.val + j - 12) / 4 = k.val by omega,
      show (12 + 4 * k.val + j - 12) % 4 = j by omega, haddr]
  rw [dinodeAt, htype, hmajor, hminor, hnlink, hsize, funext haddrs, short_ushort,
    short_ushort, short_ushort, h.major, h.minor, h.nlink]

theorem dinodeAt_congr {b b' : Block} {off : Nat} (h : ∀ k, off ≤ k →
    k < off + DINODE → b k = b' k) :
    dinodeAt b off = dinodeAt b' off := by
  have hfield : ∀ at_ w, at_ + w ≤ DINODE → numAt b (off + at_) w = numAt b' (off + at_) w :=
    fun at_ w hend => numAt_congr fun k hk => h _ (by omega) (by omega)
  have htype := hfield 0 2 (by decide)
  have haddrs : ∀ k : Fin (NDIRECT + 1),
      numAt b (off + 12 + 4 * k) 4 = numAt b' (off + 12 + 4 * k) 4 := by
    intro k
    have hk : k.val < 13 := k.isLt
    rw [Nat.add_assoc]
    exact hfield (12 + 4 * k) 4 (by unfold DINODE; omega)
  rw [Nat.add_zero] at htype
  simp only [dinodeAt, htype, hfield 2 2 (by decide), hfield 4 2 (by decide),
    hfield 6 2 (by decide), hfield 8 4 (by decide), haddrs]

/-- **The other inodes of the block** are not touched. -/
theorem dinodeAt_putDinode_of_disjoint {bytes : Block} {off off' : Nat} {d : Dinode}
    (h : off + DINODE ≤ off' ∨ off' + DINODE ≤ off) :
    dinodeAt (putDinode bytes off d) off' = dinodeAt bytes off' :=
  dinodeAt_congr fun k h1 h2 => by rw [putDinode, overwrite, if_neg (by omega)]

theorem dinodeAt_zero (off : Nat) : dinodeAt (fun _ => 0) off = {} := by
  simp [dinodeAt, numAt, short]

/-! ## The disk of an image -/

/-- `data[i/8] & (1 << i%8)`: a bit of the free map. -/
def bitAt (bytes : Block) (i : Nat) : Bool := (bytes (i / 8)).toNat.testBit (i % 8)

/-- **The disk that an image holds**, with the blocks of inodes from `inodestart` up to the free
map. -/
def Disk.ofImage (inodestart : Nat) (sb : Superblock) (image : Nat → Block) : Disk where
  inode i :=
    if i / IPB + inodestart < sb.bmapstart then dinodeAt (image (i / IPB + inodestart))
      (DINODE * (i % IPB)) else {}
  bitmap b := bitAt (image (b / BPB + sb.bmapstart)) (b % BPB)
  block b := if sb.nmeta ≤ b then image b else fun _ => 0

/-- **The kernel starts from an image**: `readsb`, and an empty inode cache. The model follows it
only if the numbers of blocks and inodes are in range. -/
def mount (image : Nat → Block) : Option Fs :=
  if h : numAt (image 1) 0 4 < 2 ^ 31 ∧ numAt (image 1) 8 4 ≤ 2 ^ 16 then
    let sb : Superblock :=
      ⟨numAt (image 1) 0 4, numAt (image 1) 8 4, numAt (image 1) 24 4, h.1, h.2⟩
    some { sb, disk := Disk.ofImage (numAt (image 1) 20 4) sb image, mem := fun _ => {} }
  else none

end Fs

end Xv6
