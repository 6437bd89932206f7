import Xv6.Locking.Spinlock

/-! # The calls that take `ptable.lock`

The functions of `proc.c` with every `acquire`, `release`, `pushcli` and `popcli` they make, in the
order of the source. What happens outside the call is an input. `swtch` takes the next entry of
`script`, which says on which CPU and with which table the scheduler resumes the caller. `oracle`
answers what depends on data that is not modelled here: whether memory is left, how many pages an
address space has, how many files are open.

The table is the one that `acquire` finds. A timer interrupt that arrives between two critical
sections runs `yield`, itself one of the calls. -/

namespace Xv6.Locking

open Foundation

/-! ## Code around the process table -/

/-- The next answer of the oracle. -/
def ask : Code Nat := do
  let s ← get
  modify fun s => { s with oracle := s.oracle.tail }
  return s.oracle.headD 0

/-- Execute the code `n` times. -/
def times : Nat → Code PUnit → Code PUnit
  | 0, _ => pure ⟨⟩
  | n + 1, m => do
    m
    times n m

/-- `kalloc`; the answer is whether there was a page. -/
def kalloc : Code Bool := do
  acquire .kmem
  let r ← ask
  release .kmem
  return r ≠ 0

/-- `kfree`. -/
def kfree : Code PUnit := do
  acquire .kmem
  release .kmem

/-- `freevm` and `freethread`: one `kfree` for each page that goes. -/
def freevm : Code PUnit := do
  let n ← ask
  times n kfree

/-- `copyuvm` and `linkuvm`: page after page is allocated, and freed again if one cannot be had. -/
def copyuvm : Code Bool := do
  let n ← ask
  times n (do let _ ← kalloc)
  freevm
  let r ← ask
  return r ≠ 0

/-- `filedup`. -/
def filedup : Code PUnit := do
  acquire .ftable
  release .ftable

/-- `idup`. -/
def idup : Code PUnit := do
  acquire .icache
  release .icache

/-- `cprintf`, which takes the console lock once `cons.locking` is set. -/
def cprintf : Code PUnit := do
  let locking ← ask
  onlyIf (locking ≠ 0) do
    acquire .cons
    release .cons

/-! ## Leaving the CPU -/

/-- The table with which the caller is resumed: whatever the others made of it, only that nobody
touches the identity of a process that has not exited. -/
def Resume.table (r : Resume) (k : Kernel) (cur : Slot) : Kernel :=
  r.kernel.modify cur fun x =>
    { x with pid := (k.proc cur).pid, firstPid := (k.proc cur).firstPid }

/-- The scheduler at the top of its loop, on the CPU that will resume the caller. -/
def Resume.idle (r : Resume) (s : Core) (cur : Slot) (script : List Resume) : Core where
  id := r.cpu
  cpu := { ncli := 0, intena := false, eflagsIF := false, schedAlg := r.schedAlg }
  -- between two rounds of its loop the scheduler holds no lock
  holder := fun lk => if r.holder lk = some r.cpu then none else r.holder lk
  kernel := r.table s.kernel cur
  script := script
  oracle := s.oracle

/-- `swtch` to the scheduler, until a scheduler switches back: it enables interrupts, takes
`ptable.lock`, and picks the caller. -/
def swtch (cur : Slot) : Code PUnit := do
  let s ← get
  match s.script with
  | [] => throw .never
  | r :: rs =>
    modify fun s => r.idle s cur rs
    modify (·.setIF true)
    acquire .ptable

/-- `sched`. -/
def sched (cur : Slot) : Code PUnit := do
  myproc
  modify (·.mapKernel fun k => k.modify cur (·.charged k.ticks))
  let r ← holding .ptable
  stopIf (r = false) (.panic "sched ptable.lock")
  let c ← mycpu
  stopIf (c.ncli ≠ 1) (.panic "sched locks")
  let s ← get
  stopIf ((s.kernel.proc cur).state = .running) (.panic "sched running")
  stopIf s.cpu.eflagsIF (.panic "sched interruptible")
  swtch cur
  modify (·.setIntena c.intena)

/-- `yield`. -/
def yield (cur : Slot) : Code PUnit := do
  acquire .ptable
  myproc
  modify (·.mapKernel (·.modify cur (·.withState .runnable)))
  sched cur
  release .ptable

/-- The end of `fork`, `thread_create` and `kill`: yield under the priority policies. -/
def yieldIfPriority (cur : Slot) : Code PUnit := do
  pushcli
  let c ← mycpu
  popcli
  onlyIf (c.schedAlg = 2 ∨ c.schedAlg = 3) (yield cur)

/-- `sleep(chan, lk)`. -/
def sleep (cur : Slot) (chan : Chan) (lk : Lock) : Code PUnit := do
  myproc
  onlyIf (lk ≠ .ptable) do
    acquire .ptable
    release lk
  modify (·.mapKernel fun k =>
    (k.modify cur (·.asleep chan)).addTickets (-(k.proc cur).ticketCount))
  sched cur
  modify (·.mapKernel (·.modify cur (·.awake)))
  onlyIf (lk ≠ .ptable) do
    release .ptable
    acquire lk

/-! ## Creating a process -/

/-- `allocproc`; `none` is the null pointer. -/
def allocproc : Code (Option Slot) := do
  acquire .ptable
  let s ← get
  match s.kernel.allocproc with
  | none =>
    release .ptable
    return none
  | some (p, k) =>
    modify (·.mapKernel fun _ => k)
    release .ptable
    let ok ← kalloc
    if ok then return some p
    else
      modify (·.mapKernel (·.modify p (·.abandoned)))
      return none

/-- The part of `fork` and `thread_create` after the address space is there. -/
def publish (cur np : Slot) (thread : Bool) : Code Int := do
  modify (·.mapKernel (·.adopt cur np thread))
  let files ← ask
  times files filedup
  idup
  let s ← get
  acquire .ptable
  modify (·.mapKernel (·.ready np))
  release .ptable
  yieldIfPriority cur
  return (s.kernel.proc np).pid

/-- `fork`. -/
def fork (cur : Slot) : Code Int := do
  myproc
  let r ← allocproc
  match r with
  | none => return -1
  | some np =>
    let ok ← copyuvm
    if ok then publish cur np false
    else
      kfree
      modify (·.mapKernel (·.modify np (·.abandoned)))
      return -1

/-- `thread_create`, which also prints what failed. -/
def threadCreate (cur : Slot) : Code Int := do
  myproc
  let r ← allocproc
  match r with
  | none =>
    cprintf
    return -1
  | some np =>
    let ok ← copyuvm
    if ok then publish cur np true
    else
      kfree
      modify (·.mapKernel (·.modify np (·.abandoned)))
      cprintf
      return -1

/-! ## Waiting and waking -/

/-- The loop of `diagwait`. A round that does not return has slept, so that the length of `script`
bounds the number of rounds. -/
def diagwaitLoop (cur : Slot) : Nat → Code Int
  | 0 => throw .never
  | fuel + 1 => do
    let s ← get
    match s.kernel.waitScan cur (List.finRange NPROC) false with
    | .found p =>
      kfree
      freevm
      modify (·.mapKernel (·.modify p (·.cleared)))
      release .ptable
      return (s.kernel.proc p).pid
    | .noKids =>
      release .ptable
      return -1
    | .kids =>
      if (s.kernel.proc cur).killed then
        release .ptable
        return -1
      else
        sleep cur (.slot cur) .ptable
        diagwaitLoop cur fuel

/-- `diagwait`. -/
def diagwait (cur : Slot) : Code Int := do
  myproc
  acquire .ptable
  let s ← get
  diagwaitLoop cur (s.script.length + 1)

/-- The loop of `thread_join`. -/
def threadJoinLoop (cur : Slot) (tid : Int) : Nat → Code Int
  | 0 => throw .never
  | fuel + 1 => do
    let s ← get
    match s.kernel.joinScan cur tid (List.finRange NPROC) false with
    | .leader => return -2
    | .found p =>
      kfree
      freevm
      modify (·.mapKernel (·.modify p (·.cleared)))
      release .ptable
      return if (s.kernel.proc p).killed then -1 else 0
    | .absent =>
      release .ptable
      return -2
    | .alive =>
      if (s.kernel.proc cur).killed then
        release .ptable
        return -2
      else
        sleep cur (.slot cur) .ptable
        threadJoinLoop cur tid fuel

/-- `thread_join(tid)`. -/
def threadJoin (cur : Slot) (tid : Int) : Code Int := do
  myproc
  let s ← get
  if tid = (s.kernel.proc cur).pid then return -2
  else
    acquire .ptable
    threadJoinLoop cur tid (s.script.length + 1)

/-- `wakeup`. -/
def wakeup (chan : Chan) : Code PUnit := do
  acquire .ptable
  modify (·.mapKernel (·.wakeup1 chan))
  release .ptable

/-- `kill(pid)`. -/
def kill (cur : Slot) (pid : Int) : Code Int := do
  acquire .ptable
  let s ← get
  match (List.finRange NPROC).find? fun p => (s.kernel.proc p).pid = pid with
  | none =>
    release .ptable
    return -1
  | some p =>
    modify (·.mapKernel fun k => (k.kill pid).2)
    release .ptable
    onlyIf ((s.kernel.proc p).state = .sleeping) (yieldIfPriority cur)
    return 0

/-- The calls of the process `cur`. -/
inductive Call
  | fork
  | threadCreate
  | diagwait
  | threadJoin (tid : Int)
  | kill (pid : Int)
  | yield
  | sleep (chan : Chan) (lk : Lock)
  | wakeup (chan : Chan)
  | allocproc
  deriving DecidableEq, Repr

/-- The code of a call; its value is dropped. -/
def Call.run (cur : Slot) : Call → Code PUnit
  | .fork => do let _ ← Locking.fork cur
  | .threadCreate => do let _ ← Locking.threadCreate cur
  | .diagwait => do let _ ← Locking.diagwait cur
  | .threadJoin tid => do let _ ← Locking.threadJoin cur tid
  | .kill pid => do let _ ← Locking.kill cur pid
  | .yield => Locking.yield cur
  | .sleep chan lk => Locking.sleep cur chan lk
  | .wakeup chan => Locking.wakeup chan
  | .allocproc => do let _ ← Locking.allocproc

end Xv6.Locking
