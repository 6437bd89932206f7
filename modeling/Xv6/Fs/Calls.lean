import Xv6.Files.Table
import Xv6.Foundation.Script
import Xv6.Fs.Directory
import Xv6.Fs.Image
import Xv6.Fs.Inode

/-! # System calls on files and directories

The upper half of `fs.c` (`ilock`, `iunlock`, `iput`, `dirlookup`, `dirlink`, `namex`) and the
system calls of `sysfile.c` and `proc.c` that use it, as scripts over the sleep-locks of the inodes.
What happens between two operations on those locks is one action or a few.

An argument that `argstr`, `argint` or `argptr` does not accept is `none`. Transactions (`begin_op`,
`end_op`) belong to the log and are left out. -/

namespace Xv6.Fs

open Foundation
open Inodes (Dinode)

/-- What the calls work on: the file system, the tables of open files and the working
directories. -/
structure Kernel where
  fs : Fs
  tables : Files.Tables
  cwd : Slot → Option Nat

/-- Code over the sleep-locks of inodes. -/
abbrev Code := Script Nat Panic Kernel

/-- The panics of the tables of open files. -/
def filePanic : Files.Panic → Panic
  | .filedup => .filedup
  | .fileclose => .fileclose
  | .initExiting => .initExiting

/-- An action on the file system. -/
def onFs {α : Type} (m : Fallible Panic Fs α) : Fallible Panic Kernel α :=
  zoom Kernel.fs (fun t s => { s with fs := t }) m

/-- An action on the tables of open files. -/
def onTables {α : Type} (m : Files.Code α) : Fallible Panic Kernel α :=
  zoom Kernel.tables (fun t s => { s with tables := t }) (translate filePanic m)

/-- An action. -/
def act {α : Type} (m : Fallible Panic Kernel α) : Code α := .act m .done

/-- `acquiresleep(&ip->lock)`. -/
def acquiresleep (ip : Nat) : Code PUnit := .acquire ip (.done ⟨⟩)

/-- `releasesleep(&ip->lock)`. -/
def releasesleep (ip : Nat) : Code PUnit := .release ip (.done ⟨⟩)

/-- The copy of inode `ip` in memory. -/
def inodeAt (ip : Nat) : Code Dinode := act do
  let s ← get
  pure (s.fs.mem ip).data

/-! ## Inodes -/

/-- Somebody has a reference to `ip`. -/
def checkRef (ip : Nat) : Fallible Panic Fs PUnit := do
  let s ← get
  stopIf ((s.mem ip).ref < 1) .badInode

/-- `ilock`. -/
def ilock (ip : Nat) : Code PUnit := do
  act (onFs (checkRef ip))
  acquiresleep ip
  act (onFs (load ip))

/-- `iunlock`. -/
def iunlock (ip : Nat) : Code PUnit := do
  act (onFs (checkRef ip))
  releasesleep ip

/-- `iput`. -/
def iput (ip : Nat) : Code PUnit := do
  acquiresleep ip
  act (onFs (freeUnlinked ip))
  releasesleep ip
  act (onFs (dropRef ip))

/-- `iunlockput`. -/
def iunlockput (ip : Nat) : Code PUnit := do
  iunlock ip
  iput ip

/-- A number in a `short`. -/
def short (x : Int) : Int := x.bmod (2 ^ 16)

/-- `ip->nlink += n; iupdate(ip)`. -/
def addLinks (ip : Nat) (n : Int) : Fallible Panic Fs PUnit := do
  modify fun s => s.setData ip fun d => { d with nlink := short (d.nlink + n) }
  iupdate ip

/-! ## Directories -/

/-- `"."`. -/
abbrev dot : Name := [46]

/-- `".."`. -/
abbrev dotdot : Name := [46, 46]

/-- `dirlookup`: the inode and the offset of its entry. -/
def dirlookup (dp : Nat) (name : Name) : Code (Option (Nat × Nat)) := act do
  match ← onFs (dirfind dp name) with
  | none => pure none
  | some (inum, off) => do
    onFs (iget inum)
    pure (some (inum, off))

/-- `dirlink`. -/
def dirlink (dp : Nat) (name : Name) (inum : Nat) : Code Int := do
  match ← dirlookup dp name with
  | some (ip, _) => do
    iput ip
    pure (-1)
  | none => do
    act (onFs (dirwrite dp name inum))
    pure 0

/-! ## Paths -/

/-- A path without the zero at its end. -/
abbrev Path := List UInt8

/-- `'/'`. -/
abbrev slash : UInt8 := 47

/-- `skipelem`: the first element, cut to `DIRSIZ` characters, and what comes after it. -/
def skipelem (path : Path) : Option (Name × Path) :=
  let path := path.dropWhile (· = slash)
  if path = [] then none
  else
    some ((path.takeWhile (· ≠ slash)).take DIRSIZ,
      (path.dropWhile (· ≠ slash)).dropWhile (· = slash))

/-- The elements of a path as the loop of `namex` meets them. Every element takes a character at
least, so that as many rounds as there are characters are enough. -/
def elements : (rounds : Nat) → Path → List Name
  | 0, _ => []
  | rounds + 1, path =>
    match skipelem path with
    | none => []
    | some (name, rest) => name :: elements rounds rest

/-- The loop of `namex` from inode `ip` on. -/
def walk (parent : Bool) : (ip : Nat) → List Name → Code (Option (Nat × Name))
  | ip, [] => do
    if parent then do
      iput ip
      pure none
    else pure (some (ip, []))
  | ip, name :: rest => do
    ilock ip
    let d ← inodeAt ip
    if d.type ≠ T_DIR then do
      iunlockput ip
      pure none
    else if parent = true ∧ rest = [] then do
      -- stop one level early
      iunlock ip
      pure (some (ip, name))
    else do
      match ← dirlookup ip name with
      | none => do
        iunlockput ip
        pure none
      | some (next, _) => do
        iunlockput ip
        walk parent next rest

/-- `idup(myproc()->cwd)`. -/
def dupCwd (p : Slot) : Fallible Panic Kernel Nat := do
  let s ← get
  match s.cwd p with
  | some ip => do
    onFs (idup ip)
    pure ip
  | none => throw .outside

/-- Where `namex` begins. -/
def startOf (p : Slot) (path : Path) : Fallible Panic Kernel Nat :=
  if path.head? = some slash then do
    onFs (iget ROOTINO)
    pure ROOTINO
  else dupCwd p

/-- `namex`. -/
def namex (p : Slot) (path : Path) (parent : Bool) : Code (Option (Nat × Name)) := do
  let ip ← act (startOf p path)
  walk parent ip (elements path.length path)

/-- `namei`. -/
def namei (p : Slot) (path : Path) : Code (Option (Nat × Name)) := namex p path false

/-- `nameiparent`. -/
def nameiparent (p : Slot) (path : Path) : Code (Option (Nat × Name)) := namex p path true

/-! ## Links -/

/-- The end of `sys_link` after the label `bad`. -/
def linkBad (ip : Nat) : Code Int := do
  ilock ip
  act (onFs (addLinks ip (-1)))
  iunlockput ip
  pure (-1)

/-- `sys_link` from the increment of `nlink` on, with `ip` locked. -/
def linkTo (p : Slot) (ip : Nat) (new : Path) : Code Int := do
  act (onFs (addLinks ip 1))
  iunlock ip
  match ← nameiparent p new with
  | none => linkBad ip
  | some (dp, name) => do
    ilock dp
    -- there is one device
    let r ← dirlink dp name ip
    if r < 0 then do
      iunlockput dp
      linkBad ip
    else do
      iunlockput dp
      iput ip
      pure 0

/-- `sys_link`. -/
def sysLink (p : Slot) (old new : Option Path) : Code Int :=
  match old, new with
  | some old, some new => do
    match ← namei p old with
    | none => pure (-1)
    | some (ip, _) => do
      ilock ip
      let d ← inodeAt ip
      if d.type = T_DIR then do
        iunlockput ip
        pure (-1)
      else linkTo p ip new
  | _, _ => pure (-1)

/-- A directory that goes gives back the link to its parent `dp`. -/
def unlinkParent (dp type : Nat) : Code PUnit :=
  if type = T_DIR then act (onFs (addLinks dp (-1))) else pure ⟨⟩

/-- `sys_unlink` once both inodes are locked and the entry may go. -/
def unlinkEntry (dp ip off : Nat) (type : Nat) : Code Int := do
  act (onFs (direrase dp off))
  unlinkParent dp type
  iunlockput dp
  act (onFs (addLinks ip (-1)))
  iunlockput ip
  pure 0

/-- The end of `sys_unlink` after the label `bad`. -/
def unlinkBad (dp : Nat) : Code Int := do
  iunlockput dp
  pure (-1)

/-- `ip->type == T_DIR && !isdirempty(ip)`. -/
def inUseDir (ip : Nat) : Fallible Panic Fs Bool := do
  let s ← get
  if (s.mem ip).data.type = T_DIR then do
    let r ← isdirempty ip
    pure !r
  else pure false

/-- `sys_unlink` of the inode `ip` that was found at `off`. -/
def unlinkFound (dp ip off : Nat) : Code Int := do
  ilock ip
  let d ← inodeAt ip
  act (stopIf (d.nlink < 1) .noLinks)
  let r ← act (onFs (inUseDir ip))
  if r then do
    iunlockput ip
    unlinkBad dp
  else unlinkEntry dp ip off d.type

/-- `sys_unlink`. -/
def sysUnlink (p : Slot) (path : Option Path) : Code Int :=
  match path with
  | none => pure (-1)
  | some path => do
    match ← nameiparent p path with
    | none => pure (-1)
    | some (dp, name) => do
      ilock dp
      if namecmp name dot || namecmp name dotdot then unlinkBad dp
      else do
        match ← dirlookup dp name with
        | none => unlinkBad dp
        | some (ip, off) => unlinkFound dp ip off

/-! ## New files -/

/-- The fields of an inode that `create` sets, and `iupdate`. -/
def initInode (ip : Nat) (major minor : Int) : Fallible Panic Fs PUnit := do
  modify fun s => s.setData ip fun d =>
    { d with major := short major, minor := short minor, nlink := 1 }
  iupdate ip

/-- A `dirlink` that has to succeed. -/
def mustLink (dp : Nat) (name : Name) (inum : Nat) : Code PUnit := do
  let r ← dirlink dp name inum
  act (stopIf (r < 0) .createLink)

/-- The entries `.` and `..` of a new directory, with the link to its parent `dp`. -/
def createDots (dp ip type : Nat) : Code PUnit :=
  if type = T_DIR then do
    act (onFs (addLinks dp 1))
    mustLink ip dot ip
    mustLink ip dotdot dp
  else pure ⟨⟩

/-- `create` once the name is known to be free, with `dp` locked. -/
def createIn (dp : Nat) (name : Name) (type : Nat) (major minor : Int) : Code Nat := do
  let ip ← act (onFs (ialloc type))
  ilock ip
  act (onFs (initInode ip major minor))
  createDots dp ip type
  mustLink dp name ip
  iunlockput dp
  pure ip

/-- `create`, when the name is taken by `ip`. -/
def createFound (dp ip : Nat) (type : Nat) : Code (Option Nat) := do
  iunlockput dp
  ilock ip
  let d ← inodeAt ip
  if type = T_FILE ∧ d.type = T_FILE then pure (some ip)
  else do
    iunlockput ip
    pure none

/-- `create`: the inode, locked. -/
def create (p : Slot) (path : Path) (type : Nat) (major minor : Int) : Code (Option Nat) := do
  match ← nameiparent p path with
  | none => pure none
  | some (dp, name) => do
    ilock dp
    match ← dirlookup dp name with
    | some (ip, _) => createFound dp ip type
    | none => do
      let ip ← createIn dp name type major minor
      pure (some ip)

/-- The end of `sys_mkdir` and `sys_mknod`. -/
def putCreated : Option Nat → Code Int
  | none => pure (-1)
  | some ip => do
    iunlockput ip
    pure 0

/-- `sys_mkdir`. -/
def sysMkdir (p : Slot) (path : Option Path) : Code Int :=
  match path with
  | none => pure (-1)
  | some path => do
    let r ← create p path T_DIR 0 0
    putCreated r

/-- `sys_mknod`. -/
def sysMknod (p : Slot) (path : Option Path) (major minor : Option Int) : Code Int :=
  match path, major, minor with
  | some path, some major, some minor => do
    let r ← create p path T_DEV major minor
    putCreated r
  | _, _, _ => pure (-1)

/-! ## Open files -/

/-- `O_CREATE` of `fcntl.h`. -/
abbrev O_CREATE : Nat := 512

/-- `filealloc` and `fdalloc` in `sys_open`. A file that `filealloc` has just found has no type, so
that `fileclose` has no inode to put. -/
def allocFile (p : Slot) : Fallible Panic Kernel (Option (Files.FileIx × Files.Fd)) := do
  match ← onTables Files.filealloc with
  | none => pure none
  | some f => do
    match ← onTables (Files.fdalloc p f) with
    | none => do
      let s ← get
      stopIf ((s.tables.file f).type = .inode) .outside
      onTables (Files.fileclose f)
      pure none
    | some fd => pure (some (f, fd))

/-- The fields of a file that `sys_open` sets. -/
def opened (f : Files.File) (ip omode : Nat) : Files.File :=
  { f with
    type := .inode
    ip := ip
    off := 0
    readable := omode &&& Files.O_WRONLY = 0
    writable := omode &&& Files.O_WRONLY ≠ 0 ∨ omode &&& Files.O_RDWR ≠ 0 }

/-- The end of `sys_open`. -/
def setFile (f : Files.FileIx) (ip omode : Nat) : Fallible Panic Kernel PUnit :=
  modify fun s => { s with tables := s.tables.setFile f (opened (s.tables.file f) ip omode) }

/-- `sys_open` once `ip` is there and locked. -/
def openInode (p : Slot) (ip omode : Nat) : Code Int := do
  match ← act (allocFile p) with
  | none => do
    iunlockput ip
    pure (-1)
  | some (f, fd) => do
    iunlock ip
    act (setFile f ip omode)
    pure (fd.val : Int)

/-- `sys_open`. -/
def sysOpen (p : Slot) (path : Option Path) (omode : Option UInt32) : Code Int :=
  match path, omode with
  | some path, some omode =>
    if omode.toNat &&& O_CREATE ≠ 0 then do
      match ← create p path T_FILE 0 0 with
      | none => pure (-1)
      | some ip => openInode p ip omode.toNat
    else do
      match ← namei p path with
      | none => pure (-1)
      | some (ip, _) => do
        ilock ip
        let d ← inodeAt ip
        if d.type = T_DIR ∧ omode ≠ 0 then do
          iunlockput ip
          pure (-1)
        else openInode p ip omode.toNat
  | _, _ => pure (-1)

/-- `fileclose`. -/
def fileclose (f : Files.FileIx) : Code PUnit := do
  let s ← act get
  act (onTables (Files.fileclose f))
  if (s.tables.file f).ref ≤ 1 ∧ (s.tables.file f).type = .inode then iput (s.tables.file f).ip
  else pure ⟨⟩

/-- Clear a descriptor. -/
def clearFd (p : Slot) (fd : Files.Fd) : Fallible Panic Kernel PUnit :=
  modify fun s => { s with tables := s.tables.setFd p fd none }

/-- `sys_close`. -/
def sysClose (p : Slot) (fd : Int) : Code Int := do
  let s ← act get
  match Files.argfd s.tables p fd with
  | none => pure (-1)
  | some (fd, f) => do
    act (clearFd p fd)
    fileclose f
    pure 0

/-! ## Processes -/

/-- Set a working directory. -/
def setCwd (p : Slot) (d : Option Nat) : Fallible Panic Kernel PUnit :=
  modify fun s => { s with cwd := Function.update s.cwd p d }

/-- `iput(curproc->cwd)`. -/
def putCwd (p : Slot) : Code PUnit := do
  let s ← act get
  match s.cwd p with
  | some d => iput d
  | none => act (throw .outside)

/-- `sys_chdir`. -/
def sysChdir (p : Slot) (path : Option Path) : Code Int :=
  match path with
  | none => pure (-1)
  | some path => do
    match ← namei p path with
    | none => pure (-1)
    | some (ip, _) => do
      ilock ip
      let d ← inodeAt ip
      if d.type ≠ T_DIR then do
        iunlockput ip
        pure (-1)
      else do
        iunlock ip
        putCwd p
        act (setCwd p (some ip))
        pure 0

/-- What `fork` and `thread_create` do with the files and the directory of the new process `np`,
`none` if there is no slot or no memory for it. -/
def fork (p : Slot) (np : Option Slot) : Code Int :=
  match np with
  | none => pure (-1)
  | some np => do
    let r ← act (onTables (Files.newProc p (some np)))
    let d ← act (dupCwd p)
    act (setCwd np (some d))
    pure r

/-- The loop of `exit` that closes all files. -/
def closeFiles (p : Slot) : List Files.Fd → Code PUnit
  | [] => pure ⟨⟩
  | fd :: fds => do
    let s ← act get
    match s.tables.ofile (p, fd) with
    | none => closeFiles p fds
    | some f => do
      fileclose f
      act (clearFd p fd)
      closeFiles p fds

/-- `exit`, as far as files and directories are concerned. -/
def exit (p : Slot) : Code Int := do
  -- `initproc` is the first process
  act (stopIf (p = 0) .initExiting)
  closeFiles p (List.finRange NOFILE)
  putCwd p
  act (setCwd p none)
  act (modify fun s => { s with tables := s.tables.setAlive p false })
  pure 0

/-! ## Reading and writing -/

/-- `CONSOLE` of `file.h`, the only device with functions in `devsw`. -/
abbrev CONSOLE : Int := 1

/-- `readi` of an open file. The console gives up the lock while it waits for input; `answer` is
what it returns then. -/
def readInode (ip off n : Nat) (answer : Int) : Code Int := do
  let d ← inodeAt ip
  if d.type = T_DEV then
    if d.major = CONSOLE then do
      iunlock ip
      ilock ip
      pure answer
    else pure (-1)
  else do
    let r ← act (onFs (readi ip off n))
    pure (r.elim (-1) fun l => (l.length : Int))

/-- `writei` of an open file. -/
def writeInode (ip : Nat) (src : Nat → UInt8) (off n : Nat) : Code Int := do
  let d ← inodeAt ip
  if d.type = T_DEV then
    if d.major = CONSOLE then do
      iunlock ip
      ilock ip
      pure n
    else pure (-1)
  else act (onFs (writei ip src off n))

/-- `f->off += r` if `r` is positive. -/
def advance (f : Files.FileIx) (r : Int) : Fallible Panic Kernel PUnit :=
  onlyIf (0 < r) do
    modify fun s => { s with tables := s.tables.setFile f { s.tables.file f with
      off := ((s.tables.file f).off + r.toNat) % 2 ^ 32 } }

/-- The offset of an open file. -/
def offsetOf (f : Files.FileIx) : Code Nat := act do
  let s ← get
  pure (s.tables.file f).off

/-- `fileread`; what a pipe answers is not followed. -/
def fileread (f : Files.FileIx) (n : Nat) (answer : Int) : Code Int := do
  let s ← act get
  if (s.tables.file f).readable = false then pure (-1)
  else
    match (s.tables.file f).type with
    | .pipe => pure answer
    | .inode => do
      ilock (s.tables.file f).ip
      let off ← offsetOf f
      let r ← readInode (s.tables.file f).ip off n answer
      act (advance f r)
      iunlock (s.tables.file f).ip
      pure r
    | .none => do
      act (throw .noFile)
      pure (-1)

/-- The most that `filewrite` writes at a time. -/
abbrev maxWrite : Nat := (MAXOPBLOCKS - 1 - 1 - 2) / 2 * BSIZE

/-- The loop of `filewrite` from byte `i` on; every round writes one byte at least. -/
def writeRounds (f : Files.FileIx) (ip : Nat) (src : Nat → UInt8) (n : Nat) :
    (rounds i : Nat) → Code Int
  | 0, i => pure (if i = n then n else -1)
  | rounds + 1, i =>
    if i < n then do
      ilock ip
      let off ← offsetOf f
      let r ← writeInode ip (fun k => src (i + k)) off (min (n - i) maxWrite)
      act (advance f r)
      iunlock ip
      if r < 0 then pure (if i = n then n else -1)
      else do
        act (stopIf (r ≠ min (n - i) maxWrite) .shortWrite)
        writeRounds f ip src n rounds (i + min (n - i) maxWrite)
    else pure (if i = n then n else -1)

/-- `filewrite`. -/
def filewrite (f : Files.FileIx) (src : Nat → UInt8) (n : Nat) (answer : Int) : Code Int := do
  let s ← act get
  if (s.tables.file f).writable = false then pure (-1)
  else
    match (s.tables.file f).type with
    | .pipe => pure answer
    | .inode => writeRounds f (s.tables.file f).ip src n n 0
    | .none => do
      act (throw .noFile)
      pure (-1)

/-- `sys_read` and `sys_write`: the file of a descriptor. -/
def withFile (p : Slot) (fd : Int) (body : Files.FileIx → Code Int) : Code Int := do
  let s ← act get
  match Files.argfd s.tables p fd with
  | none => pure (-1)
  | some (_, f) => body f

/-- `sys_read`. -/
def sysRead (p : Slot) (fd : Int) (n : Option Nat) (answer : Int) : Code Int :=
  withFile p fd fun f => n.elim (pure (-1)) fun n => fileread f n answer

/-- `sys_write`. -/
def sysWrite (p : Slot) (fd : Int) (src : Nat → UInt8) (n : Option Nat) (answer : Int) : Code Int :=
  withFile p fd fun f => n.elim (pure (-1)) fun n => filewrite f src n answer

/-- The reads that `exec` makes of a program. -/
def readAll (ip : Nat) : List (Nat × Nat) → Code PUnit
  | [] => pure ⟨⟩
  | (off, n) :: reads => do
    let _ ← readInode ip off n (-1)
    readAll ip reads

/-- `exec`, as far as the inode of the program is concerned. How much of the file it reads, and
whether the rest succeeds, is up to the file and the memory: `reads` and `answer` stand for it. -/
def sysExec (p : Slot) (path : Option Path) (reads : List (Nat × Nat)) (answer : Int) : Code Int :=
  match path with
  | none => pure (-1)
  | some path => do
    match ← namei p path with
    | none => pure (-1)
    | some (ip, _) => do
      ilock ip
      readAll ip reads
      iunlockput ip
      pure answer

/-! ## Calls -/

/-- The system calls that change directories, references to inodes, or both. -/
inductive Call
  | link (old new : Option Path)
  | unlink (path : Option Path)
  | mkdir (path : Option Path)
  | mknod (path : Option Path) (major minor : Option Int)
  | chdir (path : Option Path)
  | opens (path : Option Path) (omode : Option UInt32)
  | close (fd : Int)
  | fork (np : Option Slot)
  | exit
  deriving DecidableEq, Repr

/-- The code of a call by `p`. -/
def Call.code (p : Slot) : Call → Code Int
  | .link old new => sysLink p old new
  | .unlink path => sysUnlink p path
  | .mkdir path => sysMkdir p path
  | .mknod path major minor => sysMknod p path major minor
  | .chdir path => sysChdir p path
  | .opens path omode => sysOpen p path omode
  | .close fd => sysClose p fd
  | .fork np => Fs.fork p np
  | .exit => Fs.exit p

/-- The kernel and the sleep-locks of its inodes. -/
abbrev Sys := Locked Kernel Nat Slot

/-- Any system call that takes the lock of an inode. -/
inductive Request
  | call (c : Call)
  | read (fd : Int) (n : Option Nat) (answer : Int)
  | write (fd : Int) (src : Nat → UInt8) (n : Option Nat) (answer : Int)
  | exec (path : Option Path) (reads : List (Nat × Nat)) (answer : Int)

/-- The code of a request by `p`. -/
def Request.code (p : Slot) : Request → Code Int
  | .call c => c.code p
  | .read fd n answer => sysRead p fd n answer
  | .write fd src n answer => sysWrite p fd src n answer
  | .exec path reads answer => sysExec p path reads answer

end Xv6.Fs
