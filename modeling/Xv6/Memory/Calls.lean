import Xv6.Memory.Spaces
import Xv6.Processes.Steps

/-! # System calls on memory

The process table together with the physical memory. A system call that allocates or frees pages is
one step here: it takes the critical sections of `Kernel.step` in order and runs the code of `vm.c`
between them. A call of `diagwait` or `thread_join` that finds nothing to reap goes to sleep, and
its next round is a step of its own.

A step fails, as in `Kernel.step`, when it cannot happen or the kernel does not survive it. The
caller of a system call is the process running on the given CPU. -/

namespace Xv6.Memory

open Foundation

/-- The process table and the physical memory. -/
structure Machine where
  kernel : Kernel
  mem : Mem

namespace Machine

/-- Replace the process table. -/
@[simps] def setKernel (s : Machine) (k : Kernel) : Machine := { s with kernel := k }

/-- Replace the memory. -/
@[simps] def setMem (s : Machine) (m : Mem) : Machine := { s with mem := m }

/-- Apply stores to the record in slot `p`. -/
@[simps!] def modify (s : Machine) (p : Slot) (f : Proc → Proc) : Machine :=
  s.setKernel (s.kernel.modify p f)

end Machine

/-- The stores of `allocproc` and of the creator of a process that concern its memory. -/
@[simps] def withStack (f : Frame) (x : Proc) : Proc := { x with kstack := f }

/-- The stores that give a process an address space and the registers to start with. -/
@[simps] def withSpace (d sz : Nat) (tf : TrapFrame) (x : Proc) : Proc :=
  { x with pgdir := d, sz := sz, tf := tf }

/-- The store of `growproc`. -/
@[simps] def withSize (sz : Nat) (x : Proc) : Proc := { x with sz := sz }

/-- User code sets its stack pointer. -/
@[simps] def withEsp (esp : Nat) (x : Proc) : Proc := { x with tf := { x.tf with esp := esp } }

/-- Code over the process table and the memory. -/
abbrev Sys := Fallible Stop Machine

/-- Code that only uses the memory. -/
def onMem {α : Type} (m : Code α) : Sys α := zoom Machine.mem (fun m s => s.setMem m) m

/-- A critical section of the process table. -/
def tableStep (e : Event) : Sys Unit := do
  match (← get).kernel.step e with
  | none => throw .disabled
  | some k => modify (·.setKernel k)

/-- `myproc()` on CPU `c`. -/
def myproc (c : Nat) : Sys Slot := do
  match (← get).kernel.cpu c with
  | none => throw .disabled
  | some cur => pure cur

/-- The record of a process. -/
def procOf (p : Slot) : Sys Proc := do
  return (← get).kernel.proc p

/-- The process running on CPU `c`, which is in user mode and enters the kernel. -/
def caller (c : Nat) : Sys Slot := do
  let cur ← myproc c
  stopIf ((← get).kernel.ctl cur ≠ .user) .disabled
  pure cur

/-- The check of `fetchint` on the address of the first argument of a system call. -/
def argint (x : Proc) : Prop :=
  uint32 (x.tf.esp + 4) < x.sz ∧ uint32 (uint32 (x.tf.esp + 4) + 4) ≤ x.sz

instance (x : Proc) : Decidable (argint x) := by
  unfold argint
  infer_instance

variable (L : Layout)

/-! ## Creating processes -/

/-- The part that `fork` and `thread_create` share: `build` makes the address space of the new
process from the record of the caller, and gives its size and its registers. -/
def create (c : Nat) (thread : Bool)
    (build : Proc → Code (Option (Frame × Nat × TrapFrame))) : Sys Unit := do
  let cur ← caller c
  tableStep (.call c (.allocproc thread))
  match (← get).kernel.ctl cur with
  | .creating np _ => do
    match ← onMem kalloc with
    | none => tableStep (.call c .abandon)
    | some kstack => do
      onMem (modify fun m => m.setPage kstack (.kernel (m.page kstack).byte))
      modify (·.modify np (withStack kstack))
      match ← onMem (build (← procOf cur)) with
      | none => do
        onMem (kfree L kstack)
        tableStep (.call c .abandon)
      | some (d, sz, tf) => do
        modify (·.modify np (withSpace d sz tf))
        tableStep (.call c .adopt)
        tableStep (.call c .publish)
  | _ => pure ()

/-- The address space that `fork` gives to its child. -/
def forkSpace (x : Proc) : Code (Option (Frame × Nat × TrapFrame)) := do
  match ← copyuvm L x.pgdir x.sz with
  | none => pure none
  | some d => pure (some (d, x.sz, { x.tf with eax := 0 }))

/-- `fork`. -/
def fork (c : Nat) : Sys Unit := create L c false (forkSpace L)

/-- The address space that `thread_create(stack)` gives to the new thread. -/
def threadSpace (stack : Nat) (x : Proc) : Code (Option (Frame × Nat × TrapFrame)) := do
  let origStackBeg := pgRoundDown x.tf.esp
  match ← linkuvm L x.pgdir x.sz origStackBeg stack with
  | none => pure none
  | some d => do
    let esp := uint32 (origStackBeg + stack % PGSIZE)
    let eip ← loadWord x.pgdir esp
    pure (some (d, uint32 (origStackBeg + PGSIZE),
      { eax := 0, eip := eip, esp := uint32 (esp + 4) }))

/-- `thread_create(stack)`. -/
def threadCreate (c stack : Nat) : Sys Unit := create L c true (threadSpace L stack)

/-- `sys_thread_create`, with `stack` the word on the caller's stack. -/
def sysThreadCreate (c stack : Nat) : Sys Unit := do
  let x ← procOf (← caller c)
  onlyIf (argint x) (threadCreate L c (uint32 stack))

/-- `userinit`. -/
def userinit : Sys Unit := do
  tableStep .userinit
  match (← get).kernel.initproc with
  | none => throw .disabled
  | some p => do
    match ← onMem kalloc with
    | none => throw .fault
    | some kstack => do
      onMem (modify fun m => m.setPage kstack (.kernel (m.page kstack).byte))
      match ← onMem (setupkvm L) with
      | none => throw (.panic "userinit: out of memory?")
      | some d => do
        onMem (inituvm d L.initcode)
        modify (·.modify p fun x =>
          withSpace d PGSIZE { esp := PGSIZE } (withStack kstack x))

/-! ## Changing an address space -/

/-- `growproc(n)`, of the process `cur`. -/
def growproc (cur : Slot) (n : Int) : Sys Unit := do
  let x ← procOf cur
  if 0 < n then do
    let sz ← onMem (allocuvm L x.pgdir x.sz (uint32 (x.sz + n)))
    onlyIf (sz ≠ 0) (modify (·.modify cur (withSize sz)))
  else if n < 0 then do
    let sz ← onMem (deallocuvm L x.pgdir x.sz (uint32 (x.sz + n)))
    onlyIf (sz ≠ 0) (modify (·.modify cur (withSize sz)))
  else pure ()

/-- `sys_sbrk`, with `n` the word on the caller's stack. -/
def sbrk (c : Nat) (n : Int) : Sys Unit := do
  let cur ← caller c
  let x ← procOf cur
  onlyIf (argint x) (growproc L cur (int32 n))

/-- `getpage`. -/
def getpage (c : Nat) : Sys Unit := do
  let cur ← caller c
  let x ← procOf cur
  let r ← onMem (palloc x.pgdir (pgRoundUp x.sz))
  modify (·.modify cur fun x => { x with tf := { x.tf with eax := r } })

/-- `sys_detachpage`, with `loc` the word on the caller's stack. -/
def detachpage (c loc : Nat) : Sys Unit := do
  let cur ← caller c
  let x ← procOf cur
  let r ← if argint x then onMem (unmappages x.firstPid x.pgdir (uint32 loc))
    else pure (uint32 (-1))
  modify (·.modify cur fun x => { x with tf := { x.tf with eax := r } })

/-- `exec`. -/
def execve (c : Nat) (prog : Option Program) (args : List (List UInt8)) : Sys Unit := do
  let cur ← caller c
  let x ← procOf cur
  match ← onMem (execImage L prog args) with
  | none => pure ()
  | some (d, sz, sp) => do
    modify (·.modify cur
      (withSpace d sz { x.tf with eip := (prog.map Program.entry).getD 0, esp := sp }))
    onMem (freevm L x.pgdir)

/-! ## Reaping -/

/-- The zombie that a round of `diagwait` by `cur` reaps. -/
def waitReaps (k : Kernel) (cur : Slot) : Option Slot :=
  match k.waitScan cur (List.finRange NPROC) false with
  | .found z => some z
  | .kids | .noKids => none

/-- The zombie that a round of `thread_join(tid)` by `cur` reaps. -/
def joinReaps (k : Kernel) (cur : Slot) (tid : Int) : Option Slot :=
  if k.ctl cur = .user ∧ tid = (k.proc cur).pid then none
  else
    match k.joinScan cur tid (List.finRange NPROC) false with
    | .found z => some z
    | .leader | .alive | .absent => none

/-- The part that `diagwait` and `thread_join` share: a round of the scan, and if it finds the
zombie `z`, free its kernel stack and, with `release`, its address space. -/
def reap (e : Event) (z : Option Slot) (release : Frame → Code Unit) : Sys Unit := do
  match z with
  | none => tableStep e
  | some z => do
    let x ← procOf z
    tableStep e
    onMem (kfree L x.kstack)
    onMem (release x.pgdir)

/-- One round of `diagwait`. -/
def diagwait (c : Nat) : Sys Unit := do
  let cur ← myproc c
  let k := (← get).kernel
  reap L (.call c .diagwait) (waitReaps k cur) (freevm L)

/-- One round of `thread_join(tid)`, with `tid` the word on the caller's stack. -/
def threadJoin (c : Nat) (tid : Int) : Sys Unit := do
  let cur ← myproc c
  let k := (← get).kernel
  onlyIf (k.ctl cur = .user → argint (k.proc cur)) <|
    reap L (.call c (.threadJoin tid)) (joinReaps k cur tid) fun d =>
      freethread L d (pgRoundDown (k.proc cur).tf.esp)

/-! ## The machine -/

/-- What happens to the machine. -/
inductive Action
  /-- `main` sets up the first process. -/
  | userinit
  /-- A step of the process table that concerns no memory. -/
  | table (e : Event)
  /-- User code on CPU `c` sets its stack pointer. -/
  | setEsp (c esp : Nat)
  /-- User code on CPU `c` stores a byte. -/
  | store (c va : Nat) (b : UInt8)
  | fork (c : Nat)
  | threadCreate (c stack : Nat)
  | sbrk (c : Nat) (n : Int)
  | getpage (c : Nat)
  | detachpage (c loc : Nat)
  | exec (c : Nat) (prog : Option Program) (args : List (List UInt8))
  | diagwait (c : Nat)
  | threadJoin (c : Nat) (tid : Int)

/-- The steps of the process table that concern no memory. -/
def plain : Event → Bool
  | .userinit => false
  | .call _ op =>
    match op with
    | .allocproc _ | .abandon | .adopt | .publish | .diagwait | .threadJoin _ => false
    | _ => true
  | .tick | .wakeup _ | .dispatch _ _ => true

/-- A store of user code through its own page directory. -/
def userStore (c va : Nat) (b : UInt8) : Sys Unit := do
  let x ← procOf (← caller c)
  let e := (← get).mem.pte x.pgdir (va / PGSIZE)
  -- a store without permission is a page fault, which ends the process
  stopIf (UPAGES ≤ va / PGSIZE ∨ ¬ (e.p ∧ e.w ∧ e.u)) .disabled
  onMem (pokeByte e.ppn (va % PGSIZE) b)

/-- The code of an action. -/
def Action.code : Action → Sys Unit
  | .userinit => Memory.userinit L
  | .table e => if plain e then tableStep e else throw .disabled
  | .setEsp c esp => do
    let cur ← caller c
    modify (·.modify cur (withEsp (uint32 esp)))
  | .store c va b => userStore c va b
  | .fork c => Memory.fork L c
  | .threadCreate c stack => sysThreadCreate L c stack
  | .sbrk c n => Memory.sbrk L c n
  | .getpage c => Memory.getpage c
  | .detachpage c loc => Memory.detachpage c loc
  | .exec c prog args => execve L c prog args
  | .diagwait c => Memory.diagwait L c
  | .threadJoin c tid => Memory.threadJoin L c tid

/-- An action together with the outcomes of its calls of `kalloc`. -/
abbrev Machine.Event := Action × List Bool

/-- The machine when the action of `e` starts. -/
@[simps] def Machine.start (s : Machine) (refuse : List Bool) : Machine :=
  { s with mem := { s.mem with refuse := refuse } }

/-- **One step of the machine.** -/
def Machine.step (s : Machine) (e : Machine.Event) : Option Machine :=
  match Foundation.exec (e.1.code L) (s.start e.2) with
  | (.ok _, s') => some s'
  | (.error _, _) => none

/-! ## The memory at boot -/

/-- The pages `lo + n - 1, …, lo`: what freeing `lo, …, lo + n - 1` in order puts on the free
list. -/
def framesDown (lo : Frame) : Nat → List Frame
  | 0 => []
  | n + 1 => (lo + n) :: framesDown lo n

/-- The pages below 4 MB that are left on the free list when `main` calls `userinit`: `kinit1` has
freed those from `end` on, and the page directory of the kernel and the stacks of the other CPUs
were taken from the top. -/
def lowFrames (L : Layout) (ncpu : Nat) : Nat :=
  1024 - pagesIn L.kend - (1 + kernelTables.length + (ncpu - 1))

/-- The free list at that point: over the pages of `kinit1`, the pages up to `PHYSTOP` that `kinit2`
has freed. -/
def bootFree (L : Layout) (ncpu : Nat) : List Frame :=
  framesDown 1024 (PHYSTOP / PGSIZE - 1024) ++ framesDown (pagesIn L.kend) (lowFrames L ncpu)

/-- A page of the free list at boot. -/
def bootFreeFrame (L : Layout) (ncpu : Nat) (f : Frame) : Prop :=
  (1024 ≤ f ∧ f < PHYSTOP / PGSIZE) ∨
    (pagesIn L.kend ≤ f ∧ f < pagesIn L.kend + lowFrames L ncpu)

instance (L : Layout) (ncpu : Nat) : DecidablePred (bootFreeFrame L ncpu) := fun f => by
  unfold bootFreeFrame
  infer_instance

/-- The memory at boot. -/
def bootMem (L : Layout) (ncpu : Nat) (byte : Frame → Nat → UInt8) : Mem where
  page := fun f => if bootFreeFrame L ncpu f then .free (byte f) else .kernel (byte f)
  freelist := bootFree L ncpu
  detached := fun _ => none
  refuse := []

/-- The machine at boot, whatever the memory holds. -/
def Machine.boot (L : Layout) (ncpu : Nat) (byte : Frame → Nat → UInt8) : Machine where
  kernel := Xv6.boot ncpu
  mem := bootMem L ncpu byte

end Xv6.Memory
