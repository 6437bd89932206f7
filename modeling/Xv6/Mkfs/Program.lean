import Xv6.Mkfs.Format

/-! # The program `mkfs`

The program that builds the first image, on the bytes of its blocks. The host stores numbers with
the low byte first like the machine the image is for, so that `xint` and `xshort` change nothing.

The host file that holds the image grows when a sector behind its end is written, and a sector
behind its end cannot be read. An input file is what the host gives of it: a name, and the pieces
that `read` returns one after the other. -/

namespace Xv6

open Foundation
open Inodes (Dinode NDIRECT)

namespace Mkfs

open Fs

/-- How the program ends early. -/
inductive Halt
  /-- An assertion fails. -/
  | assertion
  /-- `exit(1)`. -/
  | exit
  deriving DecidableEq, Repr

end Mkfs

/-- The image and the counters of the program. -/
structure Mkfs where
  /-- The sectors of the image file. -/
  sectors : Nat
  image : Nat → Fs.Block
  freeinode : Nat
  freeblock : Nat

namespace Mkfs

open Fs

/-- Code of the program. -/
abbrev Code := Fallible Halt Mkfs

/-! ## The layout -/

/-- `nbitmap`. -/
abbrev nbitmap : Nat := FSSIZE / (BSIZE * 8) + 1

/-- `ninodeblocks`. -/
abbrev ninodeblocks : Nat := NINODES / IPB + 1

/-- `sb.inodestart`. -/
abbrev inodestart : Nat := 2 + LOGSIZE

/-- `sb.bmapstart`. -/
abbrev bmapstart : Nat := 2 + LOGSIZE + ninodeblocks

/-- `nmeta`. -/
abbrev nmeta : Nat := 2 + LOGSIZE + ninodeblocks + nbitmap

/-- The block with the superblock. -/
def superBytes : Block :=
  putNum (putNum
    (putNum (putNum (putNum (putNum (putNum (fun _ => 0) 0 4 FSSIZE) 4 4 (FSSIZE - nmeta))
    8 4 NINODES) 12 4 LOGSIZE) 16 4 2) 20 4 inodestart) 24 4 bmapstart

/-! ## Sectors -/

/-- The sector that `lseek` to `sec * BSIZE` finds; the product is a `uint`. -/
def sector (sec : Nat) : Nat := sec % 2 ^ 23

/-- `rsect`. -/
def rsect (sec : Nat) : Code Block := do
  let s ← get
  stopIf (s.sectors ≤ sector sec) .exit
  pure (s.image (sector sec))

/-- `wsect`. -/
def wsect (sec : Nat) (bytes : Block) : Code PUnit :=
  modify fun s =>
    { s with
      sectors := max s.sectors (sector sec + 1)
      image := Function.update s.image (sector sec) bytes }

/-! ## Inodes -/

/-- `IBLOCK(inum, sb)`. -/
def iblock (inum : Nat) : Nat := inum / IPB + inodestart

/-- `winode`. -/
def winode (inum : Nat) (d : Dinode) : Code PUnit := do
  let buf ← rsect (iblock inum)
  wsect (iblock inum) (putDinode buf (DINODE * (inum % IPB)) d)

/-- `rinode`. -/
def rinode (inum : Nat) : Code Dinode := do
  let buf ← rsect (iblock inum)
  pure (dinodeAt buf (DINODE * (inum % IPB)))

/-- `ialloc`. -/
def ialloc (type : Nat) : Code Nat := do
  let s ← get
  modify fun s => { s with freeinode := s.freeinode + 1 }
  winode s.freeinode { type := type, nlink := 1 }
  pure s.freeinode

/-! ## Blocks -/

/-- `freeblock++`. -/
def nextBlock : Code Nat := do
  let s ← get
  modify fun s => { s with freeblock := s.freeblock + 1 }
  pure s.freeblock

/-- `din.addrs[k]`, filled if it is 0. -/
def allocAddr (din : Dinode) (k : Nat) : Code (Nat × Dinode) := do
  if din.addr k = 0 then
    let b ← nextBlock
    pure (b, din.setAddr k b)
  else
    pure (din.addr k, din)

/-- The part of `iappend` that finds the block number `fbn` of the file. -/
def blockFor (din : Dinode) (fbn : Nat) : Code (Nat × Dinode) :=
  if fbn < NDIRECT then allocAddr din fbn
  else do
    let (addr, din) ← allocAddr din NDIRECT
    let indirect ← rsect addr
    if listed indirect (fbn - NDIRECT) = 0 then
      let b ← nextBlock
      wsect addr (setListed indirect (fbn - NDIRECT) b)
      pure (b, din)
    else
      pure (listed indirect (fbn - NDIRECT), din)

/-- The loop of `iappend` from `off` on. Every round takes one byte at least, so that as many rounds
as there are bytes are enough. -/
def appendBlocks : (rounds : Nat) → (din : Dinode) → (off : Nat) → (data : List UInt8) →
    Code (Dinode × Nat)
  | 0, din, off, _ => pure (din, off)
  | rounds + 1, din, off, data =>
    if data.length = 0 then pure (din, off)
    else do
      let fbn := off / BSIZE
      stopIf (MAXFILE ≤ fbn) .assertion
      let (x, din) ← blockFor din fbn
      let n1 := min data.length ((fbn + 1) * BSIZE - off)
      let buf ← rsect x
      wsect x (overwrite buf (off - fbn * BSIZE) n1 fun k => data.getD k 0)
      appendBlocks rounds din (off + n1) (data.drop n1)

/-- `iappend`. -/
def iappend (inum : Nat) (data : List UInt8) : Code PUnit := do
  let din ← rinode inum
  let (din, off) ← appendBlocks data.length din din.size data
  winode inum { din with size := off }

/-- The block that `balloc` writes: one bit after the other is set. -/
def bitmapBytes (used : Nat) : Block :=
  (List.range used).foldl
    (fun buf i => Function.update buf (i / 8) (buf (i / 8) ||| UInt8.ofNat (2 ^ (i % 8))))
    fun _ => 0

/-- `balloc`. -/
def balloc (used : Nat) : Code PUnit := do
  stopIf (BSIZE * 8 ≤ used) .assertion
  wsect bmapstart (bitmapBytes used)

/-! ## The program -/

/-- `struct dirent`, with `strncpy` into its name. -/
def dirent (inum : Nat) (name : List UInt8) : List UInt8 :=
  [byteOf inum 0, byteOf inum 1] ++ (List.range DIRSIZ).map fun j => name.getD j 0

/-- `'_'`. -/
abbrev underscore : UInt8 := 95

/-- An argument of the program, and what the host gives of the file: `none` if it cannot be opened,
and else the pieces that `read` returns. -/
structure HostFile where
  arg : List UInt8
  chunks : Option (List (List UInt8))
  /-- An argument is a C string. -/
  nonzero : (0 : UInt8) ∉ arg
  /-- `read` returns one byte at least and at most as many as it is asked for. -/
  chunk : ∀ l ∈ chunks, ∀ c ∈ l, c ≠ [] ∧ c.length ≤ BSIZE

/-- The name in the image: one `_` at the front is left out. -/
def HostFile.name (f : HostFile) : List UInt8 :=
    if f.arg.head? = some underscore then f.arg.tail else f.arg

/-- The bytes of the file. -/
def HostFile.content (f : HostFile) : List UInt8 := (f.chunks.getD []).flatten

/-- The body of the loop over the files. -/
def addFile (f : HostFile) : Code PUnit := do
  stopIf (slash ∈ f.arg) .assertion
  match f.chunks with
  | none => throw .exit
  | some chunks => do
    let inum ← ialloc T_FILE
    iappend ROOTINO (dirent inum f.name)
    chunks.forM (iappend inum)

/-- The loop that fills the first sectors with zeros. It is irreducible, as it is run a thousand
times otherwise wherever a term about `main` is reduced. -/
@[irreducible] def clear (sectors : Nat) : Code PUnit := (List.range' 0 sectors).forM fun i =>
    wsect i fun _ => 0

/-- The image is filled with zeros, and the superblock is written. -/
def format : Code PUnit := do
  clear FSSIZE
  wsect 1 superBytes

/-- The root directory with its first two entries. -/
def makeRoot : Code PUnit := do
  let rootino ← ialloc T_DIR
  stopIf (rootino ≠ ROOTINO) .assertion
  iappend rootino (dirent rootino dot)
  iappend rootino (dirent rootino dotdot)

/-- The size of the root directory is rounded to whole blocks. -/
def fixRoot : Code PUnit := do
  let din ← rinode ROOTINO
  winode ROOTINO { din with size := (din.size / BSIZE + 1) * BSIZE }

/-- **`main`** from the point where the image file is open. -/
def main (files : List HostFile) : Code PUnit := do
  format
  makeRoot
  files.forM addFile
  fixRoot
  let s ← get
  balloc s.freeblock

/-- The program before it has written anything. -/
def start : Mkfs where
  sectors := 0
  image := fun _ _ => 0
  freeinode := 1
  freeblock := nmeta

end Mkfs

end Xv6
