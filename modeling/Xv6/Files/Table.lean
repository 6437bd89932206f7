import Xv6.Foundation.Fallible
import Xv6.Foundation.References
import Xv6.Foundation.Runs
import Xv6.Processes.Table

/-! # The file table

`file.c`, `pipealloc` and `pipeclose` of `pipe.c`, and the system calls of `sysfile.c` and `proc.c`
that create and drop references to open files. What the file system and the page allocator answer is
an argument of the call. A pipe is named by the number of its allocation and counts how often its
page was freed, so that a page that is freed and allocated again is another pipe. -/

namespace Xv6.Files

open Foundation Function

/-- A slot of `ftable.file`. -/
abbrev FileIx := Fin NFILE

/-- A slot of `p->ofile`. -/
abbrev Fd := Fin NOFILE

/-- The type of an open file. -/
inductive FdType
  | none
  | pipe
  | inode
  deriving DecidableEq, Repr

/-- `struct file`. -/
structure File where
  type : FdType := .none
  ref : Int := 0
  readable : Bool := false
  writable : Bool := false
  pipe : Nat := 0
  ip : Nat := 0
  off : Nat := 0
  deriving DecidableEq, Repr

/-- The part of `struct pipe` that says which ends are open, and how often the page was freed. -/
structure Pipe where
  readopen : Bool := true
  writeopen : Bool := true
  freed : Nat := 0
  deriving DecidableEq, Repr

/-- The file table, the descriptor tables, the pipes allocated so far, and the slots that hold a
process that has not exited. -/
structure Tables where
  file : FileIx → File
  ofile : Slot × Fd → Option FileIx
  pipe : Nat → Pipe
  npipe : Nat
  alive : Slot → Bool

/-- The tables when the first process starts. -/
def boot : Tables where
  file := fun _ => {}
  ofile := fun _ => none
  pipe := fun _ => {}
  npipe := 0
  alive := fun p => p = 0

/-- The panics of `file.c`, and that of `exit`. -/
inductive Panic
  | filedup
  | fileclose
  | initExiting
  deriving DecidableEq, Repr

/-- Code on the tables. -/
abbrev Code := Fallible Panic Tables

namespace Tables

/-- Store into an entry of the file table. -/
@[simps] def setFile (s : Tables) (f : FileIx) (x : File) : Tables :=
  { s with file := update s.file f x }

/-- Store into a descriptor table. -/
@[simps] def setFd (s : Tables) (p : Slot) (fd : Fd) (x : Option FileIx) : Tables :=
  { s with ofile := update s.ofile (p, fd) x }

/-- Store into a pipe. -/
@[simps] def setPipe (s : Tables) (i : Nat) (x : Pipe) : Tables :=
  { s with pipe := update s.pipe i x }

/-- A new pipe. -/
@[simps] def newPipe (s : Tables) : Tables :=
  { s with pipe := update s.pipe s.npipe {}, npipe := s.npipe + 1 }

/-- A process comes or goes. -/
@[simps] def setAlive (s : Tables) (p : Slot) (b : Bool) : Tables :=
  { s with alive := update s.alive p b }

end Tables

/-! ## `file.c` and `pipe.c` -/

/-- `filealloc`. -/
def filealloc : Code (Option FileIx) := do
  let s ← get
  match (List.finRange NFILE).find? fun f => (s.file f).ref = 0 with
  | none => pure none
  | some f => do
    modify (·.setFile f { s.file f with ref := 1 })
    pure (some f)

/-- `filedup`. -/
def filedup (f : FileIx) : Code PUnit := do
  let s ← get
  stopIf ((s.file f).ref < 1) .filedup
  modify (·.setFile f { s.file f with ref := (s.file f).ref + 1 })

/-- One end of a pipe is closed; with the second one the page is freed. -/
def Pipe.closed (x : Pipe) (writable : Bool) : Pipe :=
  let x := if writable then { x with writeopen := false } else { x with readopen := false }
  if x.readopen = false ∧ x.writeopen = false then { x with freed := x.freed + 1 } else x

/-- `pipeclose`. -/
def pipeclose (i : Nat) (writable : Bool) : Code PUnit :=
  modify fun s => s.setPipe i ((s.pipe i).closed writable)

/-- `fileclose`. The `iput` of an inode is the business of the inode cache. -/
def fileclose (f : FileIx) : Code PUnit := do
  let s ← get
  let ff := s.file f
  stopIf (ff.ref < 1) .fileclose
  if 0 < ff.ref - 1 then
    modify (·.setFile f { ff with ref := ff.ref - 1 })
  else do
    modify (·.setFile f { ff with ref := 0, type := .none })
    match ff.type with
    | .pipe => pipeclose ff.pipe ff.writable
    | _ => pure ⟨⟩

/-- The clean-up of `pipealloc`. -/
def closeIf : Option FileIx → Code PUnit
  | none => pure ⟨⟩
  | some f => fileclose f

/-- `pipealloc`, where `memory` is the answer of `kalloc`. -/
def pipealloc (memory : Bool) : Code (Option (FileIx × FileIx)) := do
  match ← filealloc with
  | none => pure none
  | some f0 => do
    match ← filealloc with
    | none => do
      closeIf (some f0)
      pure none
    | some f1 => do
      if memory then do
        let s ← get
        modify (·.newPipe)
        modify (·.setFile f0
          { s.file f0 with type := .pipe, readable := true, writable := false, pipe := s.npipe })
        modify (·.setFile f1
          { s.file f1 with type := .pipe, readable := false, writable := true, pipe := s.npipe })
        pure (some (f0, f1))
      else do
        closeIf (some f0)
        closeIf (some f1)
        pure none

/-! ## System calls -/

/-- `fdalloc` by the process `p`. -/
def fdalloc (p : Slot) (f : FileIx) : Code (Option Fd) := do
  let s ← get
  match (List.finRange NOFILE).find? fun fd => s.ofile (p, fd) = none with
  | none => pure none
  | some fd => do
    modify (·.setFd p fd (some f))
    pure (some fd)

/-- `argfd`: the file of a descriptor, given as any integer. -/
def argfd (s : Tables) (p : Slot) (fd : Int) : Option (Fd × FileIx) :=
  if h : 0 ≤ fd ∧ fd < NOFILE then
    let fd : Fd := ⟨fd.toNat, by omega⟩
    (s.ofile (p, fd)).map fun f => (fd, f)
  else none

/-- `sys_dup`. -/
def sysDup (p : Slot) (fd : Int) : Code Int := do
  match argfd (← get) p fd with
  | none => pure (-1)
  | some (_, f) => do
    match ← fdalloc p f with
    | none => pure (-1)
    | some fd => do
      filedup f
      pure (fd.val : Int)

/-- `sys_close`. -/
def sysClose (p : Slot) (fd : Int) : Code Int := do
  match argfd (← get) p fd with
  | none => pure (-1)
  | some (fd, f) => do
    modify (·.setFd p fd none)
    fileclose f
    pure 0

/-- `O_WRONLY` of `fcntl.h`. -/
abbrev O_WRONLY : Nat := 1

/-- `O_RDWR` of `fcntl.h`. -/
abbrev O_RDWR : Nat := 2

/-- `sys_open`, where `ip` is the inode that the file system has found or created, `none` if the
call fails there. -/
def sysOpen (p : Slot) (ip : Option Nat) (omode : Nat) : Code Int := do
  match ip with
  | none => pure (-1)
  | some ip => do
    match ← filealloc with
    | none => pure (-1)
    | some f => do
      match ← fdalloc p f with
      | none => do
        fileclose f
        pure (-1)
      | some fd => do
        modify fun s => s.setFile f
          { s.file f with
            type := .inode
            ip := ip
            off := 0
            readable := omode &&& O_WRONLY = 0
            writable := omode &&& O_WRONLY ≠ 0 ∨ omode &&& O_RDWR ≠ 0 }
        pure (fd.val : Int)

/-- `sys_pipe`, where `ptr` says whether the argument is a good pointer. -/
def sysPipe (p : Slot) (ptr memory : Bool) : Code Int := do
  if ptr then do
    match ← pipealloc memory with
    | none => pure (-1)
    | some (rf, wf) => do
      match ← fdalloc p rf with
      | none => do
        fileclose rf
        fileclose wf
        pure (-1)
      | some fd0 => do
        match ← fdalloc p wf with
        | none => do
          modify (·.setFd p fd0 none)
          fileclose rf
          fileclose wf
          pure (-1)
        | some _ => pure 0
  else pure (-1)

/-- The loop of `fork` and `thread_create` that copies the descriptors of `p` to `np`. -/
def copyFiles (p np : Slot) : Code PUnit :=
  (List.finRange NOFILE).forM fun fd => do
    match (← get).ofile (p, fd) with
    | none => pure ⟨⟩
    | some f => do
      filedup f
      modify (·.setFd np fd (some f))

/-- The loop of `exit` that closes all files. -/
def closeFiles (p : Slot) : Code PUnit :=
  (List.finRange NOFILE).forM fun fd => do
    match (← get).ofile (p, fd) with
    | none => pure ⟨⟩
    | some f => do
      fileclose f
      modify (·.setFd p fd none)

/-- `fork` and `thread_create`, where `np` is the slot of the new process, `none` if there is no
slot or no memory. -/
def newProc (p : Slot) (np : Option Slot) : Code Int := do
  match np with
  | none => pure (-1)
  | some np => do
    -- `allocproc` has taken the slot
    modify (·.setAlive np true)
    copyFiles p np
    pure (np.val : Int)

/-- `exit`. -/
def exit (p : Slot) : Code Int := do
  -- `initproc` is the first process
  stopIf (p = 0) .initExiting
  closeFiles p
  modify (·.setAlive p false)
  pure 0

/-- The system calls that create and drop references. -/
inductive Call
  | sysOpen (ip : Option Nat) (omode : Nat)
  | sysPipe (ptr memory : Bool)
  | sysDup (fd : Int)
  | sysClose (fd : Int)
  | fork (np : Option Slot)
  | threadCreate (np : Option Slot)
  | exit
  deriving DecidableEq, Repr

/-- The code of a call by `p`. -/
def Call.code (p : Slot) : Call → Code Int
  | .sysOpen ip omode => Files.sysOpen p ip omode
  | .sysPipe ptr memory => Files.sysPipe p ptr memory
  | .sysDup fd => Files.sysDup p fd
  | .sysClose fd => Files.sysClose p fd
  | .fork np | .threadCreate np => newProc p np
  | .exit => Files.exit p

/-- The slot that a call fills with a new process. -/
def Call.creates : Call → Option Slot
  | .fork np | .threadCreate np => np
  | _ => none

/-- The process `p` may make the call: it has not exited, a new process gets a slot whose process
has, and the first process does not exit. -/
def Tables.enabled (s : Tables) (p : Slot) (call : Call) : Prop :=
  s.alive p = true ∧ (∀ np ∈ call.creates, s.alive np = false) ∧ (call = .exit → p ≠ 0)

instance (s : Tables) (p : Slot) (call : Call) : Decidable (s.enabled p call) :=
  inferInstanceAs (Decidable (_ ∧ _ ∧ _))

/-- **One step**: a call by a process. A panic is no step. -/
def Tables.step (s : Tables) (e : Slot × Call) : Option Tables :=
  if s.enabled e.1 e.2 then
    match exec (e.2.code e.1) s with
    | (.ok _, s') => some s'
    | (.error _, _) => none
  else none

end Xv6.Files
