import Xv6.Foundation.Fallible
import Xv6.Foundation.LittleEndian
import Xv6.Inodes.Cache

/-! # Blocks and the content of inodes

The lower half of `fs.c`, run by one process at a time: `balloc`, `bfree`, `bmap`, `itrunc`,
`readi`, `writei` and `iupdate`.

The disk is what `bread` returns. Its blocks are kept apart by use: the blocks of inodes are the
table `inode`, the blocks of the free map are `bitmap`, and `block` holds the bytes of the others.
Code that would use a block of the first two kinds for data leaves the model with `Panic.outside`.

The inode cache is a map from inode numbers: an inode is cached while its `ref` is positive, and a
`struct inode *` is the number of the inode it points to. There is one device. -/

namespace Xv6

open Foundation Function
open Inodes (Dinode NDIRECT)

/-! ## Block numbers of an inode -/

namespace Inodes.Dinode

/-- `addrs[k]`. -/
def addr (d : Dinode) (k : Nat) : Nat := if h : k < NDIRECT + 1 then d.addrs ⟨k, h⟩ else 0

/-- `addrs[k] = b`. -/
def setAddr (d : Dinode) (k b : Nat) : Dinode :=
  { d with addrs := fun i => if i.val = k then b else d.addrs i }

@[simp] theorem setAddr_type (d : Dinode) (k b : Nat) : (setAddr d k b).type = d.type := rfl

@[simp] theorem setAddr_size (d : Dinode) (k b : Nat) : (setAddr d k b).size = d.size := rfl

theorem addr_setAddr (d : Dinode) (k b l : Nat) :
    addr (setAddr d k b) l = if l = k ∧ k < NDIRECT + 1 then b else addr d l := by
  unfold addr setAddr
  by_cases hl : l < NDIRECT + 1
  · by_cases hk : l = k
    · subst hk
      simp [hl]
    · simp [hl, hk]
  · have : ¬ (l = k ∧ k < NDIRECT + 1) := by omega
    rw [if_neg this, dif_neg hl, dif_neg hl]

end Inodes.Dinode

namespace Fs

/-! ## Sizes and records -/

/-- `BSIZE` of `fs.h`: bytes of a block. -/
abbrev BSIZE : Nat := 512

/-- `NINDIRECT` of `fs.h`: block numbers in an indirect block. -/
abbrev NINDIRECT : Nat := BSIZE / 4

/-- `MAXFILE` of `fs.h`: blocks of the largest file. -/
abbrev MAXFILE : Nat := NDIRECT + NINDIRECT

/-- `BPB` of `fs.h`: bits of a block of the free map. -/
abbrev BPB : Nat := BSIZE * 8

/-- `T_DIR` of `stat.h`. -/
abbrev T_DIR : Nat := 1

/-- `T_FILE` of `stat.h`. -/
abbrev T_FILE : Nat := 2

/-- `T_DEV` of `stat.h`. -/
abbrev T_DEV : Nat := 3

/-- The fields of `struct superblock` that the code reads. -/
structure Superblock where
  size : Nat
  ninodes : Nat
  bmapstart : Nat
  /-- `balloc` counts blocks in an `int`. -/
  size_lt : size < 2 ^ 31
  /-- A directory entry has 16 bits for the number of an inode. -/
  ninodes_le : ninodes ≤ 2 ^ 16

/-- The blocks up to the end of the free map hold no data. -/
def Superblock.nmeta (sb : Superblock) : Nat := sb.bmapstart + sb.size / BPB + 1

/-- The bytes of a block. -/
abbrev Block := Nat → UInt8

/-- The disk as `bread` shows it. -/
structure Disk where
  inode : Nat → Dinode
  bitmap : Nat → Bool
  block : Nat → Block

/-- An entry of the inode cache. -/
structure Mem where
  ref : Nat := 0
  valid : Bool := false
  data : Dinode := {}

/-- Why a call does not return. -/
inductive Panic
  /-- "balloc: out of blocks" -/
  | outOfBlocks
  /-- "freeing free block" -/
  | freeingFree
  /-- "bmap: out of range" -/
  | bmapRange
  /-- "ialloc: no inodes" -/
  | noInodes
  /-- "iget: no inodes" -/
  | cacheFull
  /-- "ilock" and "iunlock": no reference, or the lock is not held. -/
  | badInode
  /-- "ilock: no type" -/
  | noType
  /-- "dirlookup not DIR" -/
  | notDir
  /-- "dirlookup read", "dirlink read", "isdirempty: readi" -/
  | dirRead
  /-- "dirlink", "unlink: writei" -/
  | dirWrite
  /-- "unlink: nlink < 1" -/
  | noLinks
  /-- "create dots", "create: dirlink" -/
  | createLink
  /-- "filedup" -/
  | filedup
  /-- "fileclose" -/
  | fileclose
  /-- "fileread", "filewrite": a file without a type. -/
  | noFile
  /-- "short filewrite" -/
  | shortWrite
  /-- "init exiting" -/
  | initExiting
  /-- The process waits for a sleep-lock that it holds itself. -/
  | deadlock
  /-- Something that the model does not follow: a device, or a block of the wrong kind. -/
  | outside
  deriving DecidableEq, Repr

end Fs

/-- The file system: the disk and the inode cache. -/
structure Fs where
  sb : Fs.Superblock
  disk : Fs.Disk
  mem : Nat → Fs.Mem

namespace Fs

/-- `((uint*)bp->data)[j]`: a number in an indirect block. -/
def listed (bytes : Block) (j : Nat) : Nat := numAt bytes (4 * j) 4

/-- `((uint*)bp->data)[j] = b`. -/
def setListed (bytes : Block) (j b : Nat) : Block := putNum bytes (4 * j) 4 b

/-! ## Changes of the state -/

/-- Change the copy of inode `ip` in memory. -/
@[simps -fullyApplied]
def setData (s : Fs) (ip : Nat) (f : Dinode → Dinode) : Fs :=
  { s with mem := update s.mem ip { s.mem ip with data := f (s.mem ip).data } }

/-- Change the bit of block `b` in the free map. -/
@[simps -fullyApplied]
def setBit (s : Fs) (b : Nat) (v : Bool) : Fs :=
  { s with disk := { s.disk with bitmap := update s.disk.bitmap b v } }

/-- Change the bytes of block `b`. -/
@[simps -fullyApplied]
def setBlock (s : Fs) (b : Nat) (bytes : Block) : Fs :=
  { s with disk := { s.disk with block := update s.disk.block b bytes } }

/-- Change inode `i` on the disk. -/
@[simps -fullyApplied]
def setInode (s : Fs) (i : Nat) (d : Dinode) : Fs :=
  { s with disk := { s.disk with inode := update s.disk.inode i d } }

/-! ## Blocks -/

/-- `bread` of a block of data. -/
def bread (b : Nat) : Fallible Panic Fs PUnit := do
  let s ← get
  stopIf (b < s.sb.nmeta ∨ s.sb.size ≤ b) .outside

/-- `bzero`. -/
def bzero (b : Nat) : Fallible Panic Fs PUnit := do
  bread b
  modify fun s => s.setBlock b fun _ => 0

/-- `balloc`: the first block whose bit is clear. -/
def balloc : Fallible Panic Fs Nat := do
  let s ← get
  match (List.range s.sb.size).find? fun b => !s.disk.bitmap b with
  | some b =>
    modify fun s => s.setBit b true
    bzero b
    pure b
  | none => throw .outOfBlocks

/-- `bfree`. -/
def bfree (b : Nat) : Fallible Panic Fs PUnit := do
  let s ← get
  stopIf (s.disk.bitmap b = false) .freeingFree
  modify fun s => s.setBit b false

/-! ## Inodes -/

/-- `iupdate`: all fields of the copy in memory go to the disk. -/
def iupdate (ip : Nat) : Fallible Panic Fs PUnit :=
  modify fun s => s.setInode ip (s.mem ip).data

/-- `ip->addrs[k]`, allocated if it is 0. -/
def addrAlloc (ip k : Nat) : Fallible Panic Fs Nat := do
  let s ← get
  if (s.mem ip).data.addr k = 0 then
    let b ← balloc
    modify fun s => s.setData ip fun d => d.setAddr k b
    pure b
  else
    pure ((s.mem ip).data.addr k)

/-- `bmap`: the block of the `bn`-th block of the file, allocated if there is none. -/
def bmap (ip bn : Nat) : Fallible Panic Fs Nat :=
  if bn < NDIRECT then addrAlloc ip bn
  else if bn - NDIRECT < NINDIRECT then do
    let addr ← addrAlloc ip NDIRECT
    bread addr
    let s ← get
    let a := listed (s.disk.block addr) (bn - NDIRECT)
    if a = 0 then
      let b ← balloc
      modify fun s => s.setBlock addr (setListed (s.disk.block addr) (bn - NDIRECT) b)
      pure b
    else
      pure a
  else throw .bmapRange

/-- The `i`-th iteration of the first loop of `itrunc`. -/
def freeDirect (ip i : Nat) : Fallible Panic Fs PUnit := do
  let s ← get
  onlyIf ((s.mem ip).data.addr i ≠ 0) do
    bfree ((s.mem ip).data.addr i)
    modify fun s => s.setData ip fun d => d.setAddr i 0

/-- The part of `itrunc` that frees the indirect block and the blocks it lists. -/
def freeIndirect (ip : Nat) : Fallible Panic Fs PUnit := do
  let s ← get
  let addr := (s.mem ip).data.addr NDIRECT
  onlyIf (addr ≠ 0) do
    bread addr
    (List.range' 0 NINDIRECT).forM fun j => do
      let a := listed (s.disk.block addr) j
      onlyIf (a ≠ 0) (bfree a)
    bfree addr
    modify fun s => s.setData ip fun d => d.setAddr NDIRECT 0

/-- `itrunc`. -/
def itrunc (ip : Nat) : Fallible Panic Fs PUnit := do
  (List.range' 0 NDIRECT).forM (freeDirect ip)
  freeIndirect ip
  modify fun s => s.setData ip fun d => { d with size := 0 }
  iupdate ip

/-! ## Reading and writing -/

/-- `off + n < off` for the type `uint`. -/
def wraps (off n : Nat) : Prop := (off + n) % 2 ^ 32 < off

instance (off n : Nat) : Decidable (wraps off n) := inferInstanceAs (Decidable (_ < _))

/-- The loop of `readi` from `off` on, with `n` bytes to go. Every round reads at least one of them,
so that `n` rounds are enough. -/
def readBlocks (ip : Nat) : (rounds off n : Nat) → Fallible Panic Fs (List UInt8)
  | 0, _, _ => pure []
  | rounds + 1, off, n =>
    if n = 0 then pure []
    else do
      let addr ← bmap ip (off / BSIZE)
      bread addr
      let s ← get
      let m := min n (BSIZE - off % BSIZE)
      let rest ← readBlocks ip rounds (off + m) (n - m)
      pure ((List.range m).map (fun k => s.disk.block addr (off % BSIZE + k)) ++ rest)

/-- `readi`: the bytes that are copied to `dst`, `none` for -1. -/
def readi (ip off n : Nat) : Fallible Panic Fs (Option (List UInt8)) := do
  let s ← get
  let d := (s.mem ip).data
  stopIf (d.type = T_DEV) .outside
  if off > d.size ∨ wraps off n then pure none
  else
    let n := if off + n > d.size then d.size - off else n
    some <$> readBlocks ip n off n

/-- `memmove(bp->data + off%BSIZE, src, m)`. -/
def overwrite (bytes : Block) (at_ m : Nat) (src : Nat → UInt8) : Block :=
  fun k => if at_ ≤ k ∧ k < at_ + m then src (k - at_) else bytes k

/-- The loop of `writei` from `off` on, with `n` bytes to go. -/
def writeBlocks (ip : Nat) : (rounds : Nat) → (src : Nat → UInt8) → (off n : Nat) →
    Fallible Panic Fs PUnit
  | 0, _, _, _ => pure ⟨⟩
  | rounds + 1, src, off, n =>
    if n = 0 then pure ⟨⟩
    else do
      let addr ← bmap ip (off / BSIZE)
      bread addr
      let m := min n (BSIZE - off % BSIZE)
      modify fun s => s.setBlock addr (overwrite (s.disk.block addr) (off % BSIZE) m src)
      writeBlocks ip rounds (fun k => src (m + k)) (off + m) (n - m)

/-- `writei`. -/
def writei (ip : Nat) (src : Nat → UInt8) (off n : Nat) : Fallible Panic Fs Int := do
  let s ← get
  let d := (s.mem ip).data
  stopIf (d.type = T_DEV) .outside
  if off > d.size ∨ wraps off n then pure (-1)
  else if off + n > MAXFILE * BSIZE then pure (-1)
  else
    writeBlocks ip n src off n
    onlyIf (n > 0 ∧ off + n > d.size) do
      modify fun s => s.setData ip fun d => { d with size := off + n }
      iupdate ip
    pure n

end Fs

end Xv6
