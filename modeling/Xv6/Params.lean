import Mathlib.Init

/-! # The sizes that `param.h` fixes

The constants of `param.h` that the model uses, and the length of a name in a directory, which the
path walk and the directories share. -/

namespace Xv6

/-- Slots of the process table. -/
abbrev NPROC : Nat := 64

/-- Open files per process. -/
abbrev NOFILE : Nat := 16

/-- Open files per system. -/
abbrev NFILE : Nat := 100

/-- Active inodes. -/
abbrev NINODE : Nat := 50

/-- The device of the root file system. -/
abbrev ROOTDEV : Nat := 1

/-- Arguments of `exec`. -/
abbrev MAXARG : Nat := 32

/-- Blocks that `begin_op` reserves for one system call. -/
abbrev MAXOPBLOCKS : Nat := 10

/-- Blocks of a transaction, `3 * MAXOPBLOCKS`. -/
abbrev LOGSIZE : Nat := 30

/-- Buffers of the cache, `3 * MAXOPBLOCKS`. -/
abbrev NBUF : Nat := 30

/-- Blocks of the file system. -/
abbrev FSSIZE : Nat := 1000

/-- Timer interrupts after which the round robin policy takes a process off its CPU. -/
def QUANTUM : Nat := 10

/-- Bytes of a name in a directory, `DIRSIZ` of `fs.h`. -/
abbrev DIRSIZ : Nat := 14

end Xv6
