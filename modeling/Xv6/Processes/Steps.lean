import Xv6.Foundation.Runs
import Xv6.Processes.Table

/-! # System calls as steps of the process table

Every system call of `proc.c` is cut at the points where it gives up `ptable.lock` or leaves the
CPU: one event is one critical section under the lock, or one stretch of unlocked stores. Between
two of its events a process is at one of the points of `Ctl`, and any other process may run.

`step k e` is `none` when the event cannot happen: nobody runs on that CPU, the caller is in the
middle of something else, the kernel panics, or the lock was lost and is never released. -/

namespace Xv6

open Foundation

/-- What a running process does next. -/
inductive Op
  /-- `fork` or `thread_create`: the critical section of `allocproc`. -/
  | allocproc (thread : Bool)
  /-- No memory for the kernel stack or the address space: the creation is given up. -/
  | abandon
  /-- The creator fills in the new process. -/
  | adopt
  /-- The creator makes the new process `RUNNABLE`. -/
  | publish
  /-- `yield`, by a timer interrupt or at the end of a call. -/
  | yield
  /-- `exit`. -/
  | exit
  /-- `diagwait` or `wait`: a scan, at the first call or after a wakeup. -/
  | diagwait
  /-- `thread_join(tid)`: a scan, at the first call or after a wakeup. -/
  | threadJoin (tid : Int)
  /-- `sleep` on a kernel object. -/
  | sleep (addr : Nat)
  /-- The return from `sleep` on a kernel object. -/
  | awake
  /-- `kill(pid)`. -/
  | kill (pid : Int)
  /-- `set_ticketCount(n)` in one piece. -/
  | setTicketCount (n : Int)
  /-- `set_ticketCount(n)`: the load of `totalTicketCount`. -/
  | ticketRead (n : Int)
  /-- `set_ticketCount`: the store to `totalTicketCount`. -/
  | ticketStore
  /-- `set_ticketCount`: the store to `p->ticketCount`. -/
  | ticketCommit
  /-- `get_proc_times`. -/
  | getProcTimes
  deriving DecidableEq, Repr

/-- One event of the system. -/
inductive Event
  /-- `main` sets up the first process. -/
  | userinit
  /-- The timer interrupt increments `ticks`. -/
  | tick
  /-- An interrupt handler or another call wakes the sleepers on a kernel object. -/
  | wakeup (addr : Nat)
  /-- The scheduler of CPU `c` starts the `RUNNABLE` process `p`. -/
  | dispatch (c : Nat) (p : Slot)
  /-- The process running on CPU `c` takes a step. -/
  | call (c : Nat) (op : Op)
  deriving DecidableEq, Repr

/-- The CPU on which an event takes the step `o`. -/
def Event.cpuOf (o : Op) : Event → Option Nat
  | .call c o' => if o' = o then some c else none
  | _ => none

/-- The thread that an event joins. -/
def Event.joins : Event → Option Int
  | .call _ (.threadJoin tid) => some tid
  | _ => none

/-- The events that call `allocproc`. -/
def Event.allocates : Event → Bool
  | .userinit | .call _ (.allocproc _) => true
  | _ => false

/-- Whether a step takes `ptable.lock`. -/
def Op.locks : Op → Bool
  | .abandon | .adopt | .setTicketCount _ | .ticketRead _ | .ticketStore | .ticketCommit
  | .getProcTimes => false
  | _ => true

namespace Kernel

/-- `set_ticketCount`: the stores for a positive argument. -/
def setTicketCount (k : Kernel) (p : Slot) (n : Int) : Kernel :=
  if 0 < n then (k.addTickets (n - (k.proc p).ticketCount)).modify p (·.withTickets n) else k

/-- The times `get_proc_times` reports, once it has charged the running burst. -/
def reportedTimes (k : Kernel) (p : Slot) : ProcTimes where
  CBT := ((k.proc p).charged k.ticks).totalCBT
  WT := ((k.proc p).charged k.ticks).totalWaitTime
  TT := uint32 ((k.ticks : Int) - (k.proc p).creationTime)

/-- The times that `diagwait` by `cur` stores for its caller when it reaps a child. -/
def diagwaitTimes (k : Kernel) (cur : Slot) : Option ProcTimes :=
  match k.waitScan cur (List.finRange NPROC) false with
  | .found p => some (k.proc p).procTimes
  | .kids | .noKids => none

/-- One round of the loop of `diagwait` by `cur` on CPU `c`: the value returned, `none` if the
caller went to sleep instead, and the state after it. -/
def diagwait (k : Kernel) (c : Nat) (cur : Slot) : Option Int × Kernel :=
  match k.waitScan cur (List.finRange NPROC) false with
  | .found p => (some (k.proc p).pid, (k.modify p (·.cleared)).setCtl cur .user)
  | .noKids => (some (-1), k.setCtl cur .user)
  | .kids =>
    if (k.proc cur).killed then (some (-1), k.setCtl cur .user)
    else (none, (k.sleep c cur (.slot cur)).setCtl cur .diagwait)

/-- One round of the loop of `thread_join(tid)` by `cur` on CPU `c`. -/
def threadJoin (k : Kernel) (c : Nat) (cur : Slot) (tid : Int) : Option Int × Kernel :=
  match k.joinScan cur tid (List.finRange NPROC) false with
  | .leader => (some (-2), { k.setCtl cur .user with lockLost := true })
  | .found p =>
    (some (if (k.proc p).killed then -1 else 0), (k.modify p (·.cleared)).setCtl cur .user)
  | .absent => (some (-2), k.setCtl cur .user)
  | .alive =>
    if (k.proc cur).killed then (some (-2), k.setCtl cur .user)
    else (none, (k.sleep c cur (.slot cur)).setCtl cur (.threadJoin tid))

/-- The step of the process `cur` running on CPU `c`. -/
def op (k : Kernel) (c : Nat) (cur : Slot) : Op → Option Kernel
  | .allocproc thread =>
    if k.ctl cur = .user then
      match k.allocproc with
      | none => some k
      | some (np, k) => some ((k.setCtl np .user).setCtl cur (.creating np thread))
    else none
  | .abandon =>
    match k.ctl cur with
    | .creating np _ => some ((k.modify np (·.abandoned)).setCtl cur .user)
    | _ => none
  | .adopt =>
    match k.ctl cur with
    | .creating np thread => some ((k.adopt cur np thread).setCtl cur (.publishing np))
    | _ => none
  | .publish =>
    match k.ctl cur with
    | .publishing np => some ((k.ready np).setCtl cur .user)
    | _ => none
  | .yield => some (k.yield c cur)
  | .exit =>
    match k.initproc with
    | none => none
    | some init =>
      -- "init exiting" is a panic
      if k.ctl cur = .user ∧ cur ≠ init then some (k.exit c cur init) else none
  | .diagwait =>
    if k.ctl cur = .user then some (k.diagwait c cur).2
    else if k.ctl cur = .diagwait then some ((k.modify cur (·.awake)).diagwait c cur).2
    else none
  | .threadJoin tid =>
    if k.ctl cur = .user then
      -- a caller that names itself returns before it takes the lock
      if tid = (k.proc cur).pid then some k else some (k.threadJoin c cur tid).2
    else if k.ctl cur = .threadJoin tid then
      some ((k.modify cur (·.awake)).threadJoin c cur tid).2
    else none
  | .sleep addr =>
    if k.ctl cur = .user then some ((k.sleep c cur (.obj addr)).setCtl cur .sleep) else none
  | .awake =>
    if k.ctl cur = .sleep then some ((k.modify cur (·.awake)).setCtl cur .user) else none
  | .kill pid => if k.ctl cur = .user then some (k.kill pid).2 else none
  | .setTicketCount n =>
    if k.ctl cur = .user then some (k.setTicketCount cur (int32 n)) else none
  | .ticketRead n =>
    if k.ctl cur = .user ∧ 0 < int32 n then
      some (k.setCtl cur (.ticketRead (int32 n) k.totalTicketCount))
    else none
  | .ticketStore =>
    match k.ctl cur with
    | .ticketRead n total =>
      some { k.setCtl cur (.ticketWritten n) with
        totalTicketCount := int32 (total + (n - (k.proc cur).ticketCount)) }
    | _ => none
  | .ticketCommit =>
    match k.ctl cur with
    | .ticketWritten n => some ((k.modify cur (·.withTickets n)).setCtl cur .user)
    | _ => none
  | .getProcTimes =>
    if k.ctl cur = .user then some (k.modify cur (·.charged k.ticks)) else none

/-- **One step of the system.** -/
def step (k : Kernel) : Event → Option Kernel
  | .userinit =>
    match k.initproc, k.allocproc with
    | none, some (p, k) => some ((k.setInit p).ready p)
    | _, _ => none
  | .tick => some { k with ticks := uint32 (k.ticks + 1) }
  | .wakeup addr => if k.lockLost then none else some (k.wakeup1 (.obj addr))
  | .dispatch c p =>
    if k.lockLost = false ∧ c < k.ncpu ∧ k.cpu c = none ∧ (k.proc p).state = .runnable then
      some (k.dispatch c p)
    else none
  | .call c op =>
    match k.cpu c with
    | none => none
    | some cur => if op.locks && k.lockLost then none else k.op c cur op

end Kernel

/-- The state `k` is reached by some run from boot on `ncpu` CPUs. -/
abbrev Kernel.Reachable (ncpu : Nat) (k : Kernel) : Prop :=
  Foundation.Reachable Kernel.step (boot ncpu) k

end Xv6
