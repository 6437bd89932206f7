import Mathlib.Data.Int.ModEq
import Mathlib.Data.List.FinRange
import Mathlib.Tactic.NormNum
import Xv6.Params

/-! # The process table

`proc.h` and the parts of `proc.c` that read and write `ptable` under its lock: the record of one
process, the global scheduler variables, and the code that finds a slot, publishes a new process,
puts one to sleep, wakes sleepers, reparents children at exit and reaps zombies.

A pointer into `ptable.proc` is a slot number, the null pointer is `none`. C's `int` and `uint`
are integers reduced by `int32` and `uint32`, so that a counter that wraps in C wraps here too.
The stores one piece of code makes into one record are a function on `Proc`; the code around it
applies the function to a slot with `Kernel.modify`. -/

namespace Xv6

/-! ## Machine integers -/

/-- The value of an integer in C's 32-bit `int` (two's complement). -/
def int32 (x : Int) : Int := x.bmod (2 ^ 32)

/-- The value of an integer in C's 32-bit `uint`. -/
def uint32 (x : Int) : Nat := (x % 2 ^ 32).toNat

theorem int32_modEq (x : Int) : int32 x ≡ x [ZMOD 2 ^ 32] := by
  unfold int32
  exact Int.bmod_emod

theorem int32_congr {x y : Int} (h : x ≡ y [ZMOD 2 ^ 32]) : int32 x = int32 y := by
  simp only [int32, Int.bmod_def]
  rw [show x % ((2 ^ 32 : Nat) : Int) = y % ((2 ^ 32 : Nat) : Int) from h]

@[simp] theorem int32_int32 (x : Int) : int32 (int32 x) = int32 x :=
  Int.bmod_bmod

theorem uint32_modEq (x : Int) : (uint32 x : Int) ≡ x [ZMOD 2 ^ 32] := by
  unfold uint32
  rw [Int.toNat_of_nonneg (Int.emod_nonneg x (by norm_num))]
  exact Int.mod_modEq x _

theorem int32_eq {x : Int} (h1 : -2 ^ 31 ≤ x) (h2 : x < 2 ^ 31) : int32 x = x := by
  unfold int32
  exact Int.bmod_eq_of_le (by norm_num; omega) (by norm_num; omega)

theorem uint32_eq {n : Nat} {z : Int} (hz : z = n) (hn : n < 2 ^ 32) : uint32 z = n := by
  unfold uint32
  omega

/-! ## Process records -/

/-- A slot of `ptable.proc`. -/
abbrev Slot := Fin NPROC

instance : NeZero NPROC := ⟨by decide⟩

/-- `enum procstate` of `proc.h`. -/
inductive ProcState
  | unused
  | embryo
  | sleeping
  | runnable
  | running
  | zombie
  deriving DecidableEq, Repr

/-- A live process: `SLEEPING`, `RUNNABLE` or `RUNNING`. -/
def ProcState.live : ProcState → Bool
  | .sleeping | .runnable | .running => true
  | .unused | .embryo | .zombie => false

/-- A sleep channel. `diagwait` and `thread_join` sleep on the address of the caller's own slot;
every other caller of `sleep` uses the address of some other kernel object. -/
inductive Chan
  | slot (p : Slot)
  | obj (addr : Nat)
  deriving DecidableEq, Repr

/-- The registers of `struct trapframe` that the kernel itself reads or sets. -/
structure TrapFrame where
  eax : Nat := 0
  eip : Nat := 0
  esp : Nat := 0
  deriving DecidableEq, Repr

/-- `struct proc` of `proc.h`. `pgdir` and `kstack` are the numbers of the physical pages the
pointers refer to, `0` for the null pointer. -/
structure Proc where
  sz : Nat := 0
  pgdir : Nat := 0
  kstack : Nat := 0
  state : ProcState := .unused
  pid : Int := 0
  parent : Option Slot := none
  tf : TrapFrame := {}
  chan : Option Chan := none
  killed : Bool := false
  firstPid : Int := 0
  priority : Nat := 0
  creationTime : Nat := 0
  lastChangeTime : Nat := 0
  totalWaitTime : Nat := 0
  totalCBT : Nat := 0
  ticketCount : Nat := 0
  deriving DecidableEq, Repr

/-- `struct procTimes` of `types.h`. -/
structure ProcTimes where
  CBT : Nat
  WT : Nat
  TT : Nat
  deriving DecidableEq, Repr

/-! ## Stores into one record -/

namespace Proc

/-- The stores of `allocproc` into the slot it found. -/
@[simps] def embryo (x : Proc) (pid : Int) (now : Nat) : Proc :=
  { x with
    state := .embryo
    priority := if pid = 1 then 1 else 3
    ticketCount := 10
    pid := pid
    creationTime := now
    lastChangeTime := now
    totalWaitTime := 0
    totalCBT := 0 }

/-- The failure paths of `allocproc`, `fork` and `thread_create`. -/
@[simps] def abandoned (x : Proc) : Proc :=
  { x with kstack := 0, state := .unused }

/-- The stores of `fork` and `thread_create` that place a new process in a family. -/
@[simps] def adopted (x : Proc) (firstPid : Int) (parent : Slot) : Proc :=
  { x with firstPid := firstPid, parent := some parent }

/-- A process becomes `RUNNABLE`, in `fork`, `thread_create`, `userinit`, `wakeup1` or `kill`. -/
@[simps] def readied (x : Proc) (now : Nat) : Proc :=
  { x with state := .runnable, lastChangeTime := now }

/-- The stores of `sched`, and of `get_proc_times`: charge the burst up to `now`. -/
@[simps] def charged (x : Proc) (now : Nat) : Proc :=
  { x with
    totalCBT := uint32 (x.totalCBT + ((now : Int) - x.lastChangeTime))
    lastChangeTime := now }

/-- The stores of `scheduler` into the process it starts. -/
@[simps] def dispatched (x : Proc) (now : Nat) : Proc :=
  { x with
    totalWaitTime := uint32 (x.totalWaitTime + ((now : Int) - x.lastChangeTime))
    lastChangeTime := now
    state := .running }

/-- The stores of `sleep` before `sched`. -/
@[simps] def asleep (x : Proc) (chan : Chan) : Proc :=
  { x with chan := some chan, state := .sleeping }

/-- The store of `sleep` after `sched`. -/
@[simps] def awake (x : Proc) : Proc :=
  { x with chan := none }

/-- The store of `yield` and of `exit` before `sched`. -/
@[simps] def withState (x : Proc) (s : ProcState) : Proc :=
  { x with state := s }

/-- The store of `exit` that hands a child to `init`. -/
@[simps] def handedTo (x : Proc) (init : Slot) : Proc :=
  { x with parent := some init }

/-- The store of `kill`. -/
@[simps] def marked (x : Proc) : Proc :=
  { x with killed := true }

/-- The store of `set_ticketCount`. -/
@[simps] def withTickets (x : Proc) (n : Int) : Proc :=
  { x with ticketCount := uint32 n }

/-- The stores of `diagwait` and `thread_join` that clear a reaped slot. -/
@[simps] def cleared (x : Proc) : Proc :=
  { x with
    kstack := 0
    pid := 0
    firstPid := 0
    parent := none
    killed := false
    state := .unused
    priority := 0
    creationTime := 0
    lastChangeTime := 0
    totalWaitTime := 0
    totalCBT := 0
    ticketCount := 0 }

/-- The times `diagwait` reports for a process it reaps. -/
def procTimes (x : Proc) : ProcTimes where
  CBT := x.totalCBT
  WT := x.totalWaitTime
  TT := uint32 ((x.lastChangeTime : Int) - x.creationTime)

end Proc

/-! ## The kernel state -/

/-- Where a process stands in the kernel between two of its critical sections. -/
inductive Ctl
  /-- In user mode, or at the start of a system call. -/
  | user
  /-- In `fork` (`thread = false`) or `thread_create`, `np` allocated and not yet filled in. -/
  | creating (np : Slot) (thread : Bool)
  /-- In `fork` or `thread_create`, `np` filled in and not yet `RUNNABLE`. -/
  | publishing (np : Slot)
  /-- Inside the `sleep` of `diagwait`. -/
  | diagwait
  /-- Inside the `sleep` of `thread_join(tid)`. -/
  | threadJoin (tid : Int)
  /-- Inside any other `sleep`. -/
  | sleep
  /-- In `set_ticketCount(n)`, `totalTicketCount` read as `total` and not yet written. -/
  | ticketRead (n : Int) (total : Int)
  /-- In `set_ticketCount(n)`, `totalTicketCount` written and `p->ticketCount` not yet. -/
  | ticketWritten (n : Int)
  deriving DecidableEq, Repr

/-- The process table with the global variables of `proc.c`, `ticks`, and `cpus[c].proc`. -/
structure Kernel where
  proc : Slot → Proc
  ctl : Slot → Ctl
  initproc : Option Slot
  nextpid : Int
  totalTicketCount : Int
  ticks : Nat
  ncpu : Nat
  cpu : Nat → Option Slot
  /-- A `thread_join` has returned without releasing `ptable.lock`. -/
  lockLost : Bool

/-- The kernel when `main` calls `userinit`: everything in the data segment is zero. -/
def boot (ncpu : Nat) : Kernel where
  proc := fun _ => {}
  ctl := fun _ => .user
  initproc := none
  nextpid := 1
  totalTicketCount := 0
  ticks := 0
  ncpu := ncpu
  cpu := fun _ => none
  lockLost := false

namespace Kernel

/-- Apply stores to the record in slot `p`. -/
@[simps] def modify (k : Kernel) (p : Slot) (f : Proc → Proc) : Kernel :=
  { k with proc := fun q => if q = p then f (k.proc q) else k.proc q }

/-- Move a process to another point of the kernel. -/
@[simps] def setCtl (k : Kernel) (p : Slot) (x : Ctl) : Kernel :=
  { k with ctl := fun q => if q = p then x else k.ctl q }

/-- Set `cpus[c].proc`. -/
@[simps] def setCpu (k : Kernel) (c : Nat) (x : Option Slot) : Kernel :=
  { k with cpu := fun c' => if c' = c then x else k.cpu c' }

/-- Add to `totalTicketCount`, an `int`. -/
@[simps] def addTickets (k : Kernel) (d : Int) : Kernel :=
  { k with totalTicketCount := int32 (k.totalTicketCount + d) }

/-- Set `initproc`. -/
@[simps] def setInit (k : Kernel) (p : Slot) : Kernel :=
  { k with initproc := some p }

/-! ## Creating a process -/

/-- The critical section of `allocproc` from the label `found` on. -/
@[simps] def takeSlot (k : Kernel) (p : Slot) : Kernel :=
  { k.modify p (·.embryo k.nextpid k.ticks) with nextpid := int32 (k.nextpid + 1) }

/-- The critical section of `allocproc`: take the first `UNUSED` slot, `none` if there is none. -/
def allocproc (k : Kernel) : Option (Slot × Kernel) :=
  match (List.finRange NPROC).find? fun p => (k.proc p).state = .unused with
  | none => none
  | some p => some (p, k.takeSlot p)

/-- Make `p` runnable and count its tickets: the last critical section of `userinit`, `fork` and
`thread_create`, and what `wakeup1` and `kill` do to a sleeping process. -/
def ready (k : Kernel) (p : Slot) : Kernel :=
  (k.modify p (·.readied k.ticks)).addTickets (k.proc p).ticketCount

/-- The stores of `fork` and `thread_create` that place the new process in the family of its
creator: its group is its own in `fork` and the creator's in `thread_create`. -/
def adopt (k : Kernel) (cur np : Slot) (thread : Bool) : Kernel :=
  k.modify np (·.adopted (if thread then (k.proc cur).firstPid else (k.proc np).pid) cur)

/-! ## Leaving the CPU and coming back -/

/-- `sched` up to `swtch`: charge the burst to the caller and leave CPU `c` idle. -/
def sched (k : Kernel) (c : Nat) (p : Slot) : Kernel :=
  (k.modify p (·.charged k.ticks)).setCpu c none

/-- `yield`: give up the CPU for one scheduling round. -/
def yield (k : Kernel) (c : Nat) (p : Slot) : Kernel :=
  (k.modify p (·.withState .runnable)).sched c p

/-- The part of `sleep` before `sched` returns. -/
def sleep (k : Kernel) (c : Nat) (p : Slot) (chan : Chan) : Kernel :=
  ((k.modify p (·.asleep chan)).addTickets (-(k.proc p).ticketCount)).sched c p

/-- The stores of `scheduler` that start the chosen process `p` on CPU `c`. -/
def dispatch (k : Kernel) (c : Nat) (p : Slot) : Kernel :=
  (k.modify p (·.dispatched k.ticks)).setCpu c (some p)

/-! ## Waking -/

/-- One iteration of the loop of `wakeup1`. -/
def wakeupAt (chan : Chan) (k : Kernel) (p : Slot) : Kernel :=
  if (k.proc p).state = .sleeping ∧ (k.proc p).chan = some chan then k.ready p else k

/-- `wakeup1`: wake every process sleeping on `chan`. -/
def wakeup1 (k : Kernel) (chan : Chan) : Kernel :=
  (List.finRange NPROC).foldl (wakeupAt chan) k

/-- `kill`: mark the first slot holding `pid`, and wake it if it sleeps. `true` is the return
value `0`, `false` is `-1`. -/
def kill (k : Kernel) (pid : Int) : Bool × Kernel :=
  match (List.finRange NPROC).find? fun p => (k.proc p).pid = pid with
  | none => (false, k)
  | some p =>
    (true, if (k.proc p).state = .sleeping then (k.modify p (·.marked)).ready p
      else k.modify p (·.marked))

/-! ## Exit -/

/-- One iteration of the loop of `exit`: pass an abandoned child to `init`, or wake a process
that might be waiting for the caller. -/
def exitAt (cur init : Slot) (k : Kernel) (p : Slot) : Kernel :=
  if (k.proc p).pid = 0 ∨ p = cur then k
  else if (k.proc p).parent = some cur then
    if (k.proc p).state = .zombie then (k.modify p (·.handedTo init)).wakeup1 (.slot init)
    else k.modify p (·.handedTo init)
  else if (k.proc p).firstPid = (k.proc cur).firstPid ∨ (k.proc cur).parent = some p then
    k.wakeup1 (.slot p)
  else k

/-- The end of `exit`: the caller becomes a zombie and leaves the CPU for ever. -/
def becomeZombie (k : Kernel) (c : Nat) (cur : Slot) : Kernel :=
  ((k.modify cur (·.withState .zombie)).addTickets (-(k.proc cur).ticketCount)).sched c cur

/-- `exit`, from taking `ptable.lock` on. -/
def exit (k : Kernel) (c : Nat) (cur init : Slot) : Kernel :=
  ((List.finRange NPROC).foldl (exitAt cur init) k).becomeZombie c cur

/-! ## Reaping -/

/-- What the scan of `diagwait` finds. -/
inductive WaitScan
  /-- A zombie child to reap. -/
  | found (p : Slot)
  /-- Children, none of them a zombie. -/
  | kids
  /-- No children at all. -/
  | noKids
  deriving DecidableEq, Repr

/-- The scan of `diagwait` over the slots still to visit. -/
def waitScan (k : Kernel) (cur : Slot) : List Slot → Bool → WaitScan
  | [], havekids => if havekids then .kids else .noKids
  | p :: ps, havekids =>
    if (k.proc p).pid ≠ (k.proc p).firstPid ∨ (k.proc p).parent ≠ some cur then
      k.waitScan cur ps havekids
    else if (k.proc p).state = .zombie then .found p
    else k.waitScan cur ps true

/-- What the scan of `thread_join` finds. -/
inductive JoinScan
  /-- The target is the group's first process: `return -2`, with the lock still held. -/
  | leader
  /-- The target is a zombie, to be reaped. -/
  | found (p : Slot)
  /-- The target exists and has not exited. -/
  | alive
  /-- There is no such target. -/
  | absent
  deriving DecidableEq, Repr

/-- The scan of `thread_join` over the slots still to visit. -/
def joinScan (k : Kernel) (cur : Slot) (tid : Int) : List Slot → Bool → JoinScan
  | [], targetexists => if targetexists then .alive else .absent
  | p :: ps, targetexists =>
    if p = cur ∨ (k.proc p).firstPid ≠ (k.proc cur).firstPid ∨ (k.proc p).pid ≠ tid then
      k.joinScan cur tid ps targetexists
    else if (k.proc p).pid = (k.proc p).firstPid then .leader
    else if (k.proc p).state = .zombie then .found p
    else k.joinScan cur tid ps true

end Kernel

end Xv6
