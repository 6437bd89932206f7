import Xv6.Processes.Invariant

/-! # Switching processes under the lock

`Kernel.step` takes a whole critical section at once. Here the sections are taken apart as the code
runs them: `scheduler` takes `ptable.lock`, names the process in `c->proc`, calls `switchuvm` and
switches to the process, which releases the lock; a process that gives up the CPU takes the lock,
changes its state and switches to the scheduler, which clears `c->proc` and releases it. While one
CPU is at it, the others run on, and so do the parts of `fork` and `thread_create` that take no
lock.

* **`one_cpu`** — whenever the lock is free, a `RUNNING` process is the `c->proc` of exactly one
  CPU, every `c->proc` is `RUNNING`, and every live process has a kernel stack and a page directory;
  `switchuvm` never panics. -/

namespace Xv6

open Foundation

/-- What a CPU is executing. -/
inductive Point
  /-- `scheduler`, without the lock. -/
  | idle
  /-- `scheduler`, with the lock and no process. -/
  | choosing
  /-- `scheduler`, with the lock and `c->proc` set to `p`. -/
  | starting (p : Slot)
  /-- The process `p`, in user mode or in the kernel. -/
  | running (p : Slot)
  /-- The process `p`, with the lock, before the critical section of `o`. -/
  | locked (p : Slot) (o : Op)
  /-- The process `p`, about to release the lock. -/
  | releasing (p : Slot)
  /-- `scheduler`, with the lock, after `p` has switched to it. -/
  | leaving (p : Slot)
  /-- `scheduler`, about to release the lock. -/
  | unlocking
  /-- An interrupt handler or another call, with the lock, in `wakeup`. -/
  | waking (p : Option Slot) (addr : Nat)
  /-- `wakeup`, about to release the lock. -/
  | woken (p : Option Slot)
  deriving DecidableEq, Repr

namespace Point

/-- The process that `c->proc` names. -/
def proc : Point → Option Slot
  | .idle | .choosing | .unlocking => none
  | .starting p | .running p | .locked p _ | .releasing p | .leaving p => some p
  | .waking p _ | .woken p => p

/-- The process whose code or whose interrupt handler runs, once it is `RUNNING`. -/
def runs : Point → Option Slot
  | .idle | .choosing | .unlocking | .starting _ | .leaving _ => none
  | .running p | .locked p _ | .releasing p => some p
  | .waking p _ | .woken p => p

/-- The CPU holds the lock. -/
def holds : Point → Bool
  | .idle | .running _ => false
  | _ => true

/-- The point from which a CPU without the lock goes on after an interrupt. -/
def resumed : Option Slot → Point
  | none => .idle
  | some p => .running p

end Point

/-- Where a process goes on that `scheduler` has switched to: it holds the lock, and either scans
the table again, or ends its `sleep`, or releases the lock in `forkret` or `yield`. -/
def Ctl.resume (p : Slot) : Ctl → Point
  | .diagwait => .locked p .diagwait
  | .threadJoin tid => .locked p (.threadJoin tid)
  | .sleep => .locked p .awake
  | _ => .releasing p

/-- How far `fork` or `thread_create` has come with the pages of the new process. -/
inductive Stage
  /-- No page yet. -/
  | none
  /-- The kernel stack is there. -/
  | stack
  /-- The kernel stack and the page directory are there. -/
  | space
  deriving DecidableEq, Repr

/-- The store of `p->kstack`. -/
@[simps] def Proc.withKstack (x : Proc) (page : Nat) : Proc := { x with kstack := page }

/-- The store of `p->pgdir`. -/
@[simps] def Proc.withPgdir (x : Proc) (page : Nat) : Proc := { x with pgdir := page }

/-- A process that can run: `switchuvm` accepts it. -/
def Proc.Backed (x : Proc) : Prop := x.kstack ≠ 0 ∧ x.pgdir ≠ 0

instance (x : Proc) : Decidable x.Backed := inferInstanceAs (Decidable (_ ∧ _))

/-- What a CPU does next. -/
inductive Micro
  /-- `scheduler` takes the lock. -/
  | acquire
  /-- `scheduler` chooses the `RUNNABLE` process `p` and sets `c->proc`. -/
  | choose (p : Slot)
  /-- `scheduler` finds nothing to run. -/
  | pass
  /-- `switchuvm`, the store of `p->state`, and `swtch` to the process. -/
  | switch
  /-- The process takes the lock for the critical section of `o`. -/
  | enter (o : Op)
  /-- The critical section, up to the release of the lock or to `swtch`. -/
  | body
  /-- `scheduler`, after `swtch`: `c->proc = 0`. -/
  | clear
  /-- The release of the lock. -/
  | release
  /-- A step of a call that takes no lock. -/
  | unlocked (o : Op)
  /-- `allocproc` gets the kernel stack, `0` if there is no memory. -/
  | kalloc (page : Nat)
  /-- `copyuvm` or `linkuvm` makes the address space, `0` if there is no memory. -/
  | copyuvm (page : Nat)
  /-- `fork` or `thread_create` fills in the new process. -/
  | adopt
  /-- `exec` installs a new page directory. -/
  | exec (page : Nat)
  /-- The CPU takes the lock for a `wakeup` on a kernel object. -/
  | interrupt (addr : Nat)
  /-- The critical section of `wakeup`. -/
  | wakeup
  deriving DecidableEq, Repr

/-- One event of the machine. -/
inductive CpuEvent
  /-- `userinit`, with the pages it gets. -/
  | userinit (kstack pgdir : Nat)
  /-- The timer interrupt increments `ticks`. -/
  | tick
  /-- A CPU takes a step. -/
  | cpu (c : Nat) (a : Micro)
  deriving DecidableEq, Repr

/-- The kernel, the holder of `ptable.lock`, and what every CPU is executing. -/
structure Cpus where
  kernel : Kernel
  lock : Option Nat
  point : Nat → Point
  stage : Slot → Stage

namespace Cpus

/-- The machine when `main` calls `userinit`. -/
def boot (ncpu : Nat) : Cpus := ⟨Xv6.boot ncpu, none, fun _ => .idle, fun _ => .none⟩

/-- Move CPU `c` to another point. -/
@[simps] def move (s : Cpus) (c : Nat) (x : Point) : Cpus :=
  { s with point := fun d => if d = c then x else s.point d }

/-- Replace the kernel. -/
@[simps] def withKernel (s : Cpus) (k : Kernel) : Cpus := { s with kernel := k }

/-- The lock is taken or released. -/
@[simps] def setLock (s : Cpus) (x : Option Nat) : Cpus := { s with lock := x }

/-- Another stage of the creation by `cur`. -/
@[simps] def setStage (s : Cpus) (cur : Slot) (x : Stage) : Cpus :=
  { s with stage := fun q => if q = cur then x else s.stage q }

/-- The point after the critical section that has left the kernel `k`: a process that calls `sched`
is left behind, and `thread_join` may return without having released the lock. -/
def after (k : Kernel) (c : Nat) (p : Slot) : Point :=
  if k.cpu c = none then .leaving p else if k.lockLost then .running p else .releasing p

/-- The step of `cur` in `fork` or `thread_create` that gets a page for the new process: without
memory the creation is given up. -/
def getPage (s : Cpus) (c : Nat) (cur : Slot) (before after : Stage) (page : Nat)
    (store : Proc → Nat → Proc) : Option Cpus :=
  match s.kernel.ctl cur with
  | .creating np _ =>
    if s.stage cur = before then
      if page = 0 then (s.kernel.op c cur .abandon).map s.withKernel
      else some ((s.withKernel (s.kernel.modify np (store · page))).setStage cur after)
    else none
  | _ => none

/-- **One step of CPU `c`.** -/
def act (s : Cpus) (c : Nat) : Micro → Option Cpus
  | .acquire =>
    if s.point c = .idle ∧ s.lock = none then some ((s.move c .choosing).setLock (some c)) else none
  | .choose p =>
    if s.point c = .choosing ∧ (s.kernel.proc p).state = .runnable then
      some ((s.withKernel (s.kernel.setCpu c (some p))).move c (.starting p))
    else none
  | .pass => if s.point c = .choosing then some (s.move c .unlocking) else none
  | .switch =>
    match s.point c with
    | .starting p =>
      -- `switchuvm` panics without a kernel stack or a page directory
      if (s.kernel.proc p).Backed then
        some ((s.withKernel (s.kernel.modify p (·.dispatched s.kernel.ticks))).move c
          ((s.kernel.ctl p).resume p))
      else none
    | _ => none
  | .enter o =>
    match s.point c with
    | .running p =>
      if s.lock = none ∧ o.locks then some ((s.move c (.locked p o)).setLock (some c)) else none
    | _ => none
  | .body =>
    match s.point c with
    | .locked p o =>
      (s.kernel.op c p o).map fun k =>
        -- `c->proc` is the scheduler's, and is cleared after `swtch`
        let s' := (s.withKernel { k with cpu := s.kernel.cpu }).move c (after k c p)
        match o with
        | .allocproc _ => s'.setStage p .none
        | _ => s'
    | _ => none
  | .clear =>
    match s.point c with
    | .leaving _ => some ((s.withKernel (s.kernel.setCpu c none)).move c .unlocking)
    | _ => none
  | .release =>
    match s.point c with
    | .releasing p => some ((s.move c (.running p)).setLock none)
    | .unlocking => some ((s.move c .idle).setLock none)
    | .woken p => some ((s.move c (.resumed p)).setLock none)
    | _ => none
  | .unlocked o =>
    match s.point c with
    | .running p =>
      if o.locks = false ∧ o ≠ .abandon ∧ o ≠ .adopt then
        (s.kernel.op c p o).map s.withKernel
      else none
    | _ => none
  | .kalloc page =>
    match s.point c with
    | .running p => s.getPage c p .none .stack page Proc.withKstack
    | _ => none
  | .copyuvm page =>
    match s.point c with
    | .running p => s.getPage c p .stack .space page Proc.withPgdir
    | _ => none
  | .adopt =>
    match s.point c with
    | .running p =>
      if s.stage p = .space then (s.kernel.op c p .adopt).map s.withKernel else none
    | _ => none
  | .exec page =>
    match s.point c with
    | .running p =>
      if s.kernel.ctl p = .user ∧ page ≠ 0 then
        some (s.withKernel (s.kernel.modify p (·.withPgdir page)))
      else none
    | _ => none
  | .interrupt addr =>
    match s.point c with
    | .idle | .running _ =>
      if s.lock = none then
        some ((s.move c (.waking (s.point c).proc addr)).setLock (some c))
      else none
    | _ => none
  | .wakeup =>
    match s.point c with
    | .waking p addr => some ((s.withKernel (s.kernel.wakeup1 (.obj addr))).move c (.woken p))
    | _ => none

/-- **One step of the machine.** -/
def step (s : Cpus) : CpuEvent → Option Cpus
  | .userinit kstack pgdir =>
    -- a first process without its pages is a panic
    if s.lock = none ∧ kstack ≠ 0 ∧ pgdir ≠ 0 then
      (s.kernel.step .userinit).map fun k =>
        s.withKernel (k.initproc.elim k fun p =>
          k.modify p fun x => (x.withKstack kstack).withPgdir pgdir)
    else none
  | .tick => (s.kernel.step .tick).map s.withKernel
  | .cpu c a => if c < s.kernel.ncpu then s.act c a else none

/-- **What holds when the lock is free.** -/
structure Sound (s : Cpus) : Prop where
  /-- A `RUNNING` process is the `c->proc` of exactly one CPU. -/
  once : ∀ p, (s.kernel.proc p).state = .running → ∃! c, s.kernel.cpu c = some p
  /-- Every `c->proc` is `RUNNING`. -/
  running : ∀ c p, s.kernel.cpu c = some p → (s.kernel.proc p).state = .running
  /-- Every live process has a kernel stack and a page directory. -/
  backed : ∀ p, (s.kernel.proc p).state.live → (s.kernel.proc p).Backed

end Cpus

/-! ## Pages of a process -/

namespace Kernel

/-- Every live process has its pages, and so has one about to become live. -/
structure Built (k : Kernel) (stage : Slot → Stage) : Prop where
  live : ∀ p, (k.proc p).state.live → (k.proc p).Backed
  publishing : ∀ cur np, k.ctl cur = .publishing np → (k.proc np).Backed
  creating : ∀ cur np thread, k.ctl cur = .creating np thread →
    (stage cur ≠ .none → (k.proc np).kstack ≠ 0) ∧ (stage cur = .space → (k.proc np).pgdir ≠ 0)

section

variable {k k' : Kernel} {c : Nat} {cur : Slot} {o : Op}

theorem Built.keep {stage : Slot → Stage} (hb : k.Built stage) (hctl : k'.ctl = k.ctl)
    (hlive : ∀ p, (k'.proc p).state.live → (k.proc p).state.live)
    (hkstack : ∀ p, (k.proc p).kstack ≠ 0 → (k'.proc p).kstack ≠ 0)
    (hpgdir : ∀ p, (k.proc p).pgdir ≠ 0 → (k'.proc p).pgdir ≠ 0) : k'.Built stage := by
  have hback : ∀ p, (k.proc p).Backed → (k'.proc p).Backed := fun p hp =>
    ⟨hkstack p hp.1, hpgdir p hp.2⟩
  constructor
  · exact fun p hp => hback p (hb.live p (hlive p hp))
  · exact fun r np hr => hback np (hb.publishing r np (hctl ▸ hr))
  · intro r np thread hr
    have hmade := hb.creating r np thread (hctl ▸ hr)
    exact ⟨fun hst => hkstack np (hmade.1 hst), fun hst => hpgdir np (hmade.2 hst)⟩

theorem Effect.pages (hk : k.Wf) (hcur : k.cpu c = some cur) (h : k.Effect c cur o k') (q : Slot)
    (hq : (k'.proc q).state ≠ .unused) :
    (k'.proc q).kstack = (k.proc q).kstack ∧ (k'.proc q).pgdir = (k.proc q).pgdir := by
  have hleaves := h.leaves hk hcur q
  generalize k'.proc q = x, k'.ctl q = y at hleaves hq
  cases hleaves with
  | abandoned | reaped => simp at hq
  | orphaned init =>
    exact ⟨orphaned_field (·.kstack) Proc.readied_kstack Proc.handedTo_kstack k cur init q,
      orphaned_field (·.pgdir) Proc.readied_pgdir Proc.handedTo_pgdir k cur init q⟩
  | own hqc hown => cases hown <;> exact ⟨rfl, rfl⟩
  | _ => exact ⟨rfl, rfl⟩

theorem Effect.live (hk : k.Wf) (hcur : k.cpu c = some cur) (h : k.Effect c cur o k') (q : Slot)
    (hq : (k'.proc q).state.live) : (k.proc q).state.live ∨ k.ctl cur = .publishing q := by
  have hleaves := h.leaves hk hcur q
  generalize k'.proc q = x, k'.ctl q = y at hleaves hq
  cases hleaves with
  | same | adopted | marked => exact .inl hq
  | taken | abandoned | reaped => simp [ProcState.live] at hq
  | published _ hctl => exact .inr hctl
  | roused _ hs => exact .inl (by rw [hs]; rfl)
  | orphaned init =>
    obtain ⟨hr, -⟩ | ⟨-, hs⟩ := k.orphaned_state cur init q
    · exact .inl (by rw [hr.1]; rfl)
    · exact .inl (hs ▸ hq)
  | own hqc => exact .inl (by rw [hqc, (hk.onCpu c cur hcur).1]; rfl)

theorem Effect.ctl (hk : k.Wf) (hcur : k.cpu c = some cur) (h : k.Effect c cur o k') (r : Slot) :
    k'.ctl r = k.ctl r ∨ (k'.ctl r).makes = none ∨
      r = cur ∧ ((∃ np thread, o = .allocproc thread ∧ k'.ctl r = .creating np thread) ∨
        ∃ np thread, o = .adopt ∧ k.ctl r = .creating np thread ∧ k'.ctl r = .publishing np) := by
  have hleaves := h.leaves hk hcur r
  generalize k'.proc r = x, k'.ctl r = y at hleaves
  cases hleaves with
  | taken => exact .inr (.inl rfl)
  | own hr hown =>
    cases hown with
    | create np => exact .inr (.inr ⟨hr, .inl ⟨np, _, rfl, rfl⟩⟩)
    | adopt hctl => exact .inr (.inr ⟨hr, .inr ⟨_, _, rfl, hctl, rfl⟩⟩)
    | yield | exit | setTicketCount | charge => exact .inl rfl
    | _ => exact .inr (.inl rfl)
  | _ => exact .inl rfl

/-- **A step of a running process** keeps the pages of everybody who needs them. -/
theorem Effect.built (hk : k.Wf) (hcur : k.cpu c = some cur) (h : k.Effect c cur o k')
    {stage stage' : Slot → Stage} (hb : k.Built stage) (hk' : k'.Wf)
    (hadopt : o = .adopt → stage cur = .space)
    (hstage : ∀ q, stage' q = stage q ∨ q = cur ∧ stage' q = .none)
    (halloc : ∀ thread, o = .allocproc thread → stage' cur = .none) : k'.Built stage' := by
  have hbacked : ∀ q, (k'.proc q).state ≠ .unused → (k.proc q).Backed → (k'.proc q).Backed := by
    intro q hq hback
    obtain ⟨hkstack, hpgdir⟩ := h.pages hk hcur q hq
    unfold Proc.Backed
    rwa [hkstack, hpgdir]
  -- somebody who is being created is an embryo, and keeps the pages
  have hembryo : ∀ r np, (k'.ctl r).makes = some np → (k'.proc np).state ≠ .unused := by
    intro r np hr
    rw [hk'.makes r np hr]
    exact ProcState.noConfusion
  constructor
  · intro q hq
    have hused : (k'.proc q).state ≠ .unused := by
      intro hu
      rw [hu] at hq
      cases hq
    rcases h.live hk hcur q hq with hold | hpub
    · exact hbacked q hused (hb.live q hold)
    · exact hbacked q hused (hb.publishing cur q hpub)
  · intro r np hr
    refine hbacked np (hembryo r np (by simp [hr])) ?_
    rcases h.ctl hk hcur r with hsame | hnone |
      ⟨rfl, ⟨_, _, -, hcreate⟩ | ⟨np', thread, ho, hold, hnew⟩⟩
    · exact hb.publishing r np (hsame ▸ hr)
    · simp [hr] at hnone
    · simp [hr] at hcreate
    · obtain rfl : np = np' := by simpa [hr] using hnew
      have hmade := hb.creating r np thread hold
      exact ⟨hmade.1 (by rw [hadopt ho]; exact Stage.noConfusion), hmade.2 (hadopt ho)⟩
  · intro r np thread hr
    obtain ⟨hkstack, hpgdir⟩ := h.pages hk hcur np (hembryo r np (by simp [hr]))
    rw [hkstack, hpgdir]
    rcases hstage r with hst | ⟨rfl, hst⟩
    swap
    · simp [hst]
    rw [hst]
    rcases h.ctl hk hcur r with hsame | hnone | ⟨rfl, ⟨_, thread', ho, -⟩ | ⟨_, _, -, -, hnew⟩⟩
    · exact hb.creating r np thread (hsame ▸ hr)
    · simp [hr] at hnone
    · rw [← hst, halloc thread' ho]
      simp
    · simp [hr] at hnew

end

/-- The kernel with other occupants of the CPUs. -/
@[simps] def withCpu (k : Kernel) (f : Nat → Option Slot) : Kernel := { k with cpu := f }

theorem withCpu_self (k : Kernel) : k.withCpu k.cpu = k := rfl

theorem op_withCpu (k : Kernel) (f : Nat → Option Slot) (c : Nat) (cur : Slot) {o : Op}
    (ho : o.locks = false) :
    (k.withCpu f).op c cur o = (k.op c cur o).map (withCpu · f) := by
  cases o with
  | abandon | adopt | ticketStore | ticketCommit | ticketRead n | getProcTimes =>
    simp only [op, withCpu_ctl]
    split <;> rfl
  | setTicketCount n =>
    simp only [op, withCpu_ctl, setTicketCount]
    split
    · split <;> rfl
    · rfl
  | _ => cases ho

theorem op_unlocked_cpu {k k' : Kernel} {c : Nat} {cur : Slot} {o : Op} (ho : o.locks = false)
    (h : k.op c cur o = some k') : k'.cpu = k.cpu := by
  have hsame := k.op_withCpu k.cpu c cur ho
  rw [withCpu_self, h, Option.map_some] at hsame
  rw [Option.some.inj hsame]
  rfl

theorem op_unlocked_state {k k' : Kernel} {c : Nat} {cur : Slot} {o : Op} (hk : k.Wf)
    (ho : o.locks = false) (h : k.op c cur o = some k') (q : Slot)
    (hq : (k.proc q).state ≠ .embryo) : (k'.proc q).state = (k.proc q).state := by
  cases o with
  | abandon =>
    simp only [op] at h
    split at h <;> cases h
    rename_i np _ hctl
    have hne : q ≠ np := by
      rintro rfl
      exact hq (hk.makes cur q (by simp [hctl]))
    simp [hne]
  | adopt =>
    simp only [op] at h
    split at h <;> cases h
    rw [Kernel.adopt, setCtl_proc, modify_field (·.state) (fun x => Proc.adopted_state x _ _)]
  | setTicketCount n =>
    simp only [op, setTicketCount] at h
    split at h
    · split at h <;> cases h
      · exact modify_field (·.state) (fun x => Proc.withTickets_state x _) _ _ q
      · rfl
    · cases h
  | ticketRead n | ticketStore =>
    simp only [op] at h
    split at h <;> cases h
    rfl
  | ticketCommit =>
    simp only [op] at h
    split at h <;> cases h
    exact modify_field (·.state) (fun x => Proc.withTickets_state x _) _ _ q
  | getProcTimes =>
    simp only [op] at h
    split at h <;> cases h
    exact modify_field (·.state) (fun x => Proc.charged_state x _) _ _ q
  | _ => cases ho

end Kernel

/-! ## The invariant -/

namespace Cpus

/-- The kernel as it is once no CPU is on its way into or out of a process. -/
def settled (s : Cpus) : Kernel := s.kernel.withCpu fun c => (s.point c).runs

/-- **The invariant.** -/
structure Ok (s : Cpus) : Prop where
  wf : s.settled.Wf
  /-- `c->proc` is the process of the code that CPU `c` executes. -/
  occupant : ∀ c, s.kernel.cpu c = (s.point c).proc
  /-- A CPU in a critical section holds the lock. -/
  holder : ∀ c, (s.point c).holds → s.lock = some c
  /-- The process that the scheduler has chosen waits to be started. -/
  chosen : ∀ c p, s.point c = .starting p → (s.kernel.proc p).state = .runnable
  /-- A critical section is one of a call that takes the lock. -/
  locks : ∀ c p o, s.point c = .locked p o → o.locks
  built : s.kernel.Built s.stage

theorem boot_ok (ncpu : Nat) : (boot ncpu).Ok := by
  constructor
  · exact Kernel.boot_wf ncpu
  · exact fun _ => rfl
  · simp [boot, Point.holds]
  · simp [boot]
  · simp [boot]
  · constructor <;> simp [boot, Xv6.boot, ProcState.live]

section

variable {s s' : Cpus} {c : Nat}

theorem Ok.settled_eq (h : s.Ok) (hon : ∀ c, (s.point c).runs = (s.point c).proc) :
    s.settled = s.kernel := by
  have hcpu : (fun c => (s.point c).runs) = s.kernel.cpu := by
    funext c
    rw [h.occupant, hon]
  rw [settled, hcpu]
  rfl

variable {x : Point} {k : Kernel} {stage : Slot → Stage} {p : Slot}

theorem Point.runs_of_not_holds (h : x.holds = false) : x.runs = x.proc := by
  cases x <;> first | rfl | cases h

section

variable (h : s.Ok)

include h

theorem Ok.settled_of_free (hfree : s.lock = none) : s.settled = s.kernel := by
  refine h.settled_eq fun c => Point.runs_of_not_holds ?_
  by_contra hc
  rw [Bool.not_eq_false] at hc
  rw [h.holder c hc] at hfree
  cases hfree

theorem Ok.settled_of_holder (hc : (s.point c).holds)
    (hon : (s.point c).runs = (s.point c).proc) : s.settled = s.kernel := by
  refine h.settled_eq fun d => ?_
  by_cases hd : (s.point d).holds
  · obtain rfl : c = d := by simpa [h.holder c hc] using h.holder d hd
    exact hon
  · exact Point.runs_of_not_holds (by simpa using hd)

/-- The kernel changes, and a CPU moves with the lock or without, in any way that keeps the
invariant. -/
theorem Ok.next {lock : Option Nat}
    (hwf : (k.withCpu fun d => if d = c then x.runs else (s.point d).runs).Wf)
    (hcpu : ∀ d, k.cpu d = if d = c then x.proc else s.kernel.cpu d)
    (hother : ∀ d ≠ c, (s.point d).holds → lock = some d) (hx : x.holds → lock = some c)
    (hchosen : ∀ d ≠ c, ∀ p, s.point d = .starting p → (k.proc p).state = .runnable)
    (hstart : ∀ p, x = .starting p → (k.proc p).state = .runnable)
    (hlocks : ∀ p o, x = .locked p o → o.locks) (hbuilt : k.Built stage) :
    Ok ⟨k, lock, fun d => if d = c then x else s.point d, stage⟩ := by
  constructor
  · have hruns : (fun d => if d = c then x.runs else (s.point d).runs)
        = fun d => (if d = c then x else s.point d).runs := by
      funext d
      split <;> rfl
    rw [hruns] at hwf
    exact hwf
  · intro d
    show k.cpu d = (if d = c then x else s.point d).proc
    rw [hcpu, h.occupant]
    split <;> rfl
  · intro d hd
    by_cases hdc : d = c
    · exact hdc ▸ hx (by simpa [hdc] using hd)
    · exact hother d hdc (by simpa [hdc] using hd)
  · intro d p hd
    by_cases hdc : d = c
    · exact hstart p (by simpa [hdc] using hd)
    · exact hchosen d hdc p (by simpa [hdc] using hd)
  · intro d p o hd
    by_cases hdc : d = c
    · exact hlocks p o (by simpa [hdc] using hd)
    · exact h.locks d p o (by simpa [hdc] using hd)
  · exact hbuilt

omit h in
theorem runs_same (hruns : x.runs = (s.point c).runs) :
    (fun d => if d = c then x.runs else (s.point d).runs) = fun d => (s.point d).runs := by
  funext d
  split
  · rename_i hdc
    rw [hdc, hruns]
  · rfl

theorem Ok.moved {lock : Option Nat} (hruns : x.runs = (s.point c).runs)
    (hproc : x.proc = (s.point c).proc) (hstart : ∀ p, x ≠ .starting p)
    (hlocks : ∀ p o, x = .locked p o → o.locks)
    (hother : ∀ d ≠ c, (s.point d).holds → lock = some d) (hx : x.holds → lock = some c) :
    ((s.move c x).setLock lock).Ok := by
  refine h.next ?_ (fun d => ?_) hother hx (fun d _ p hd => h.chosen d p hd)
    (fun p hp => absurd hp (hstart p)) hlocks h.built
  · rw [runs_same hruns]
    exact h.wf
  · split
    · rename_i hdc
      rw [hdc, hproc]
      exact h.occupant c
    · rfl

theorem Ok.inside (hc : (s.point c).holds)
    (hwf : (k.withCpu fun d => if d = c then x.runs else (s.point d).runs).Wf)
    (hcpu : ∀ d, k.cpu d = if d = c then x.proc else s.kernel.cpu d)
    (hstart : ∀ p, x = .starting p → (k.proc p).state = .runnable)
    (hlocks : ∀ p o, x = .locked p o → o.locks) (hbuilt : k.Built stage) :
    Ok ⟨k, s.lock, fun d => if d = c then x else s.point d, stage⟩ := by
  refine h.next hwf hcpu (fun d _ => h.holder d) (fun _ => h.holder c hc) (fun d hdc p hd => ?_)
    hstart hlocks hbuilt
  -- another CPU that starts a process would hold the lock
  exact absurd (by simpa [h.holder c hc] using (h.holder d (by rw [hd]; rfl)).symm) hdc

theorem Ok.take (hfree : s.lock = none) (hruns : x.runs = (s.point c).runs)
    (hproc : x.proc = (s.point c).proc) (hstart : ∀ p, x ≠ .starting p)
    (hlocks : ∀ p o, x = .locked p o → o.locks) : ((s.move c x).setLock (some c)).Ok := by
  refine h.moved hruns hproc hstart hlocks (fun d _ hd => ?_) fun _ => rfl
  rw [h.holder d hd] at hfree
  cases hfree

theorem Ok.drop (hc : (s.point c).holds) (hruns : x.runs = (s.point c).runs)
    (hproc : x.proc = (s.point c).proc) (hx : x.holds = false) :
    ((s.move c x).setLock none).Ok := by
  refine h.moved hruns hproc ?_ ?_ (fun d hdc hd => ?_) (by simp [hx])
  · rintro p rfl
    cases hx
  · rintro p o rfl
    cases hx
  · exact absurd (by simpa [h.holder c hc] using (h.holder d hd).symm) hdc

theorem Ok.withKernel (hwf : (k.withCpu fun d => (s.point d).runs).Wf)
    (hcpu : k.cpu = s.kernel.cpu)
    (hchosen : ∀ p, (s.kernel.proc p).state = .runnable → (k.proc p).state = .runnable)
    (hbuilt : k.Built stage) : Ok ⟨k, s.lock, s.point, stage⟩ := by
  constructor
  · exact hwf
  · intro d
    show k.cpu d = (s.point d).proc
    rw [hcpu, h.occupant]
  · exact h.holder
  · exact fun d p hd => hchosen p (h.chosen d p hd)
  · exact h.locks
  · exact hbuilt

theorem Ok.unlocked {o : Op} (hp : s.point c = .running p) (ho : o.locks = false)
    (hs : s.kernel.op c p o = some k) (hadopt : o = .adopt → s.stage p = .space) :
    (s.withKernel k).Ok := by
  -- the step is the same in the settled kernel
  have hop : s.settled.op c p o = some (k.withCpu fun d => (s.point d).runs) := by
    rw [settled, Kernel.op_withCpu _ _ _ _ ho, hs]
    rfl
  have hcur : s.settled.cpu c = some p := by
    show (s.point c).runs = some p
    rw [hp]
    rfl
  have heff := Kernel.op_effect h.wf hcur hop
  have hwf := heff.wf h.wf hcur
  refine h.withKernel hwf (Kernel.op_unlocked_cpu ho hs) ?_ ?_
  · intro q hq
    refine (Kernel.op_unlocked_state h.wf ho hop q ?_).trans hq
    show (s.kernel.proc q).state ≠ .embryo
    rw [hq]
    exact ProcState.noConfusion
  · have hb : s.settled.Built s.stage := ⟨h.built.live, h.built.publishing, h.built.creating⟩
    have hb' := heff.built h.wf hcur hb hwf hadopt (fun q => .inl rfl) (fun thread hal => ?_)
    · exact ⟨hb'.live, hb'.publishing, hb'.creating⟩
    · subst hal
      cases ho

theorem Ok.modify (p : Slot) {f : Proc → Proc} (hstate : ∀ x, (f x).state = x.state)
    (hchan : ∀ x, (f x).chan = x.chan) (hbuilt : (s.kernel.modify p f).Built stage) :
    Ok ⟨s.kernel.modify p f, s.lock, s.point, stage⟩ := by
  refine h.withKernel (h.wf.modify p hstate hchan) rfl (fun q hq => ?_) hbuilt
  rw [Kernel.modify_field (·.state) hstate]
  exact hq

/-- **A page for a process that is being created**, or its creation is given up. -/
theorem Ok.getPage {before after : Stage} {page : Nat} {store : Proc → Nat → Proc}
    (hp : s.point c = .running p) (hs : s.getPage c p before after page store = some s')
    (hstate : ∀ x n, (store x n).state = x.state) (hchan : ∀ x n, (store x n).chan = x.chan)
    (hstore : ∀ np thread, page ≠ 0 → s.kernel.ctl p = .creating np thread → s.stage p = before →
      (after ≠ .none → (store (s.kernel.proc np) page).kstack ≠ 0) ∧
        (after = .space → (store (s.kernel.proc np) page).pgdir ≠ 0)) :
    s'.Ok := by
  unfold Cpus.getPage at hs
  split at hs
  case h_2 => cases hs
  rename_i np thread hctl
  rw [Option.ite_none_right_eq_some] at hs
  obtain ⟨hstage, hs⟩ := hs
  split at hs
  · obtain ⟨k, hk, rfl⟩ := Option.map_eq_some_iff.1 hs
    exact h.unlocked hp rfl hk (by simp)
  rename_i hpage
  cases hs
  refine h.modify np (hstate · page) (hchan · page) ?_
  -- nobody else depends on the embryo
  have hembryo : (s.kernel.proc np).state = .embryo := h.wf.makes p np (by simp [settled, hctl])
  have hother : ∀ q np', (s.kernel.ctl q).makes = some np' → q ≠ p → np' ≠ np := by
    rintro q np' hq hne rfl
    exact hne (h.wf.maker q p np' hq (by simp [settled, hctl]))
  constructor
  · intro q hq
    have hne : q ≠ np := by
      rintro rfl
      simp [hstate, hembryo, ProcState.live] at hq
    simp only [Kernel.modify_proc, if_neg hne] at hq ⊢
    exact h.built.live q hq
  · intro q np' hq
    have hqp : q ≠ p := by
      rintro rfl
      simp [hctl] at hq
    have hq : s.kernel.ctl q = .publishing np' := hq
    simp only [Kernel.modify_proc, if_neg (hother q np' (by simp [hq]) hqp)]
    exact h.built.publishing q np' hq
  · intro q np' thread' hq
    have hq : s.kernel.ctl q = .creating np' thread' := hq
    by_cases hqp : q = p
    · subst hqp
      obtain ⟨rfl, rfl⟩ : np = np' ∧ thread = thread' := by simpa [hctl] using hq
      simpa using hstore np thread hpage hctl hstage
    · simp only [Kernel.modify_proc, if_neg (hother q np' (by simp [hq]) hqp), if_neg hqp]
      exact h.built.creating q np' thread' hq

theorem Ok.body {o : Op} (hp : s.point c = .locked p o) (hs : s.kernel.op c p o = some k)
    (hstage : ∀ q, stage q = s.stage q ∨ q = p ∧ stage q = .none)
    (halloc : ∀ thread, o = .allocproc thread → stage p = .none) :
    Ok ⟨{ k with cpu := s.kernel.cpu }, s.lock,
      fun d => if d = c then Cpus.after k c p else s.point d, stage⟩ := by
  have hset : s.settled = s.kernel := h.settled_of_holder (by rw [hp]; rfl) (by rw [hp]; rfl)
  have hwf : s.kernel.Wf := hset ▸ h.wf
  have hcur : s.kernel.cpu c = some p := by
    rw [h.occupant, hp]
    rfl
  have heff := Kernel.op_effect hwf hcur hs
  have hk := heff.wf hwf hcur
  -- once the scheduler has cleared `c->proc`, the kernel is the one after the section
  have hruns : (Cpus.after k c p).runs = k.cpu c ∧ (Cpus.after k c p).proc = some p := by
    unfold Cpus.after
    split
    · rename_i hnone
      exact ⟨hnone.symm, rfl⟩
    · rename_i hsome
      have hstay : k.cpu c = some p := by
        rcases heff.cpu hwf hcur with ⟨-, hcpu⟩ | ⟨-, hcpu⟩
        · rw [hcpu, hcur]
        · exact absurd (by rw [hcpu c, if_pos rfl]) hsome
      split <;> exact ⟨hstay.symm, rfl⟩
  have hsettled : (fun d => if d = c then (Cpus.after k c p).runs else (s.point d).runs)
      = k.cpu := by
    funext d
    by_cases hdc : d = c
    · rw [if_pos hdc, hdc, hruns.1]
    · rw [if_neg hdc]
      have hold : (s.point d).runs = s.kernel.cpu d := congrFun (congrArg Kernel.cpu hset) d
      rcases heff.cpu hwf hcur with ⟨-, hcpu⟩ | ⟨-, hcpu⟩
      · rw [hold, hcpu]
      · rw [hold, hcpu d, if_neg hdc]
  have ho := h.locks c p o hp
  have hb := heff.built hwf hcur h.built hk (fun ha => by subst ha; cases ho) hstage halloc
  refine h.inside (by rw [hp]; rfl) ?_ ?_ ?_ ?_ { hb with }
  · rw [hsettled]
    exact hk
  · intro d
    by_cases hdc : d = c
    · rw [if_pos hdc, hruns.2, hdc]
      exact hcur
    · rw [if_neg hdc]
  · intro q hq
    unfold Cpus.after at hq
    split at hq
    · cases hq
    · split at hq <;> cases hq
  · intro q o' hq
    unfold Cpus.after at hq
    split at hq
    · cases hq
    · split at hq <;> cases hq

theorem Ok.setCpu (hc : (s.point c).holds) (hold : (s.point c).runs = none)
    (hx : x.runs = none) (hstart : ∀ p, x = .starting p → (s.kernel.proc p).state = .runnable)
    (hlocks : ∀ p o, x = .locked p o → o.locks) :
    Ok ⟨s.kernel.setCpu c x.proc, s.lock, fun d => if d = c then x else s.point d, s.stage⟩ := by
  refine h.inside hc ?_ (fun d => rfl) hstart hlocks
    ⟨h.built.live, h.built.publishing, h.built.creating⟩
  rw [runs_same (hx.trans hold.symm)]
  exact h.wf

/-- **The scheduler starts the process it has chosen.** -/
theorem Ok.switch (hp : s.point c = .starting p) (hc : c < s.kernel.ncpu) :
    Ok ⟨s.kernel.modify p (·.dispatched s.kernel.ticks), s.lock,
      fun d => if d = c then (s.kernel.ctl p).resume p else s.point d, s.stage⟩ := by
  have hready := h.chosen c p hp
  have hresume : ((s.kernel.ctl p).resume p).runs = some p ∧
      ((s.kernel.ctl p).resume p).proc = some p ∧
      (∀ q, (s.kernel.ctl p).resume p ≠ .starting q) ∧
      ∀ q o, (s.kernel.ctl p).resume p = .locked q o → o.locks := by
    cases s.kernel.ctl p <;> simp [Ctl.resume, Point.runs, Point.proc] <;> rfl
  refine h.inside (by rw [hp]; rfl) ?_ ?_ (fun q hq => absurd hq (hresume.2.2.1 q)) hresume.2.2.2 ?_
  · -- the settled kernel is the one after a dispatch
    have hidle : s.settled.cpu c = none := by
      show (s.point c).runs = none
      rw [hp]
      rfl
    have hwf := Kernel.wf_dispatch h.wf hc hidle hready
    have hsame : (s.kernel.modify p (·.dispatched s.kernel.ticks)).withCpu
        (fun d => if d = c then ((s.kernel.ctl p).resume p).runs else (s.point d).runs)
        = s.settled.dispatch c p := by
      rw [hresume.1]
      rfl
    rw [hsame]
    exact hwf
  · intro d
    by_cases hdc : d = c
    · rw [if_pos hdc, hresume.2.1, hdc]
      show s.kernel.cpu c = some p
      rw [h.occupant, hp]
      rfl
    · rw [if_neg hdc]
      rfl
  · refine h.built.keep rfl (fun q hq => ?_) (fun q hq => ?_) fun q hq => ?_
    · by_cases hqp : q = p
      · rw [hqp, hready]
        rfl
      · simpa [hqp] using hq
    · rwa [Kernel.modify_field (·.kstack) (Proc.dispatched_kstack · _)]
    · rwa [Kernel.modify_field (·.pgdir) (Proc.dispatched_pgdir · _)]

theorem Ok.wakeup {q : Option Slot} {addr : Nat} (hp : s.point c = .waking q addr) :
    Ok ⟨s.kernel.wakeup1 (.obj addr), s.lock, fun d => if d = c then .woken q else s.point d,
      s.stage⟩ := by
  have hset : s.settled = s.kernel := h.settled_of_holder (by rw [hp]; rfl) (by rw [hp]; rfl)
  obtain ⟨hglob, hctl, hcpu⟩ := s.kernel.wakeup1_globals (.obj addr)
  have hproc := s.kernel.wakeup1_proc (.obj addr)
  have hq : ∀ d, (if d = c then (Point.woken q).runs else (s.point d).runs) = s.kernel.cpu d ∧
      (if d = c then (Point.woken q).proc else s.kernel.cpu d) = s.kernel.cpu d := by
    intro d
    have hold : (s.point d).runs = s.kernel.cpu d := congrFun (congrArg Kernel.cpu hset) d
    by_cases hdc : d = c
    · subst hdc
      rw [hp] at hold
      rw [if_pos rfl, if_pos rfl]
      exact ⟨hold, hold⟩
    · rw [if_neg hdc, if_neg hdc]
      exact ⟨hold, rfl⟩
  refine h.inside (by rw [hp]; rfl) ?_ ?_ (fun _ => Point.noConfusion)
      (fun _ _ => Point.noConfusion)
    ?_
  · have hwf := Kernel.wf_wakeup1 (hset ▸ h.wf) (.obj addr)
    have hsame : (fun d => if d = c then (Point.woken q).runs else (s.point d).runs)
        = (s.kernel.wakeup1 (.obj addr)).cpu := by
      funext d
      rw [(hq d).1, hcpu]
    rw [hsame, Kernel.withCpu_self]
    exact hwf
  · intro d
    rw [(hq d).2, hcpu]
  · refine h.built.keep hctl (fun p hlive => ?_) (fun p hp => ?_) fun p hp => ?_
    · rw [hproc] at hlive
      split at hlive
      · rename_i hsleep
        rw [hsleep.1]
        rfl
      · exact hlive
    · rw [hproc]
      split <;> exact hp
    · rw [hproc]
      split <;> exact hp

theorem Ok.act {a : Micro} (hc : c < s.kernel.ncpu) (hs : s.act c a = some s') :
    s'.Ok := by
  cases a with
  | acquire =>
    simp only [Cpus.act, Option.ite_none_right_eq_some] at hs
    obtain ⟨⟨hp, hfree⟩, hs⟩ := hs
    cases hs
    exact h.take hfree (by rw [hp]; rfl) (by rw [hp]; rfl) (fun _ => Point.noConfusion)
      fun _ _ => Point.noConfusion
  | choose p =>
    simp only [Cpus.act, Option.ite_none_right_eq_some] at hs
    obtain ⟨⟨hp, hready⟩, hs⟩ := hs
    cases hs
    refine h.setCpu (x := .starting p) (by rw [hp]; rfl) (by rw [hp]; rfl) rfl (fun q hq => ?_)
      fun _ _ => Point.noConfusion
    obtain rfl := Point.starting.inj hq
    exact hready
  | pass =>
    simp only [Cpus.act, Option.ite_none_right_eq_some] at hs
    obtain ⟨hp, hs⟩ := hs
    cases hs
    show ((s.move c .unlocking).setLock s.lock).Ok
    exact h.moved (by rw [hp]; rfl) (by rw [hp]; rfl) (fun _ => Point.noConfusion)
      (fun _ _ => Point.noConfusion) (fun d _ hd => h.holder d hd)
      fun _ => h.holder c (by rw [hp]; rfl)
  | switch =>
    simp only [Cpus.act] at hs
    split at hs
    case h_2 => cases hs
    rename_i p hp
    split at hs <;> cases hs
    exact h.switch hp hc
  | enter o =>
    simp only [Cpus.act] at hs
    split at hs
    case h_2 => cases hs
    rename_i p hp
    rw [Option.ite_none_right_eq_some] at hs
    obtain ⟨⟨hfree, ho⟩, hs⟩ := hs
    cases hs
    refine h.take hfree (by rw [hp]; rfl) (by rw [hp]; rfl) (fun _ => Point.noConfusion) ?_
    rintro q o' hq
    obtain ⟨-, rfl⟩ := Point.locked.inj hq
    exact ho
  | body =>
    simp only [Cpus.act] at hs
    split at hs
    case h_2 => cases hs
    rename_i p o hp
    obtain ⟨k, hk, rfl⟩ := Option.map_eq_some_iff.1 hs
    split
    · refine h.body hp hk (fun q => ?_) fun _ _ => by simp
      by_cases hq : q = p
      · exact .inr ⟨hq, by simp [hq]⟩
      · exact .inl (by simp [hq])
    · rename_i hno
      exact h.body hp hk (fun _ => .inl rfl) fun thread ho => absurd ho (hno thread)
  | clear =>
    simp only [Cpus.act] at hs
    split at hs <;> cases hs
    rename_i p hp
    exact h.setCpu (x := .unlocking) (by rw [hp]; rfl) (by rw [hp]; rfl) rfl
      (fun _ => Point.noConfusion) fun _ _ => Point.noConfusion
  | release =>
    simp only [Cpus.act] at hs
    split at hs <;> cases hs
    · rename_i p hp
      exact h.drop (by rw [hp]; rfl) (by rw [hp]; rfl) (by rw [hp]; rfl) rfl
    · rename_i hp
      exact h.drop (by rw [hp]; rfl) (by rw [hp]; rfl) (by rw [hp]; rfl) rfl
    · rename_i p hp
      cases p <;> exact h.drop (by rw [hp]; rfl) (by rw [hp]; rfl) (by rw [hp]; rfl) rfl
  | unlocked o =>
    simp only [Cpus.act] at hs
    split at hs
    case h_2 => cases hs
    rename_i p hp
    rw [Option.ite_none_right_eq_some] at hs
    obtain ⟨⟨ho, -, hadopt⟩, hs⟩ := hs
    obtain ⟨k, hk, rfl⟩ := Option.map_eq_some_iff.1 hs
    exact h.unlocked hp ho hk fun ha => absurd ha hadopt
  | kalloc page =>
    simp only [Cpus.act] at hs
    split at hs
    case h_2 => cases hs
    rename_i p hp
    exact h.getPage hp hs (fun _ _ => rfl) (fun _ _ => rfl) fun np thread hpage _ _ =>
      ⟨fun _ => hpage, Stage.noConfusion⟩
  | copyuvm page =>
    simp only [Cpus.act] at hs
    split at hs
    case h_2 => cases hs
    rename_i p hp
    refine h.getPage hp hs (fun _ _ => rfl) (fun _ _ => rfl) fun np thread hpage hctl hst =>
      ⟨fun _ => ?_, fun _ => hpage⟩
    exact (h.built.creating p np thread hctl).1 (by rw [hst]; exact Stage.noConfusion)
  | adopt =>
    simp only [Cpus.act] at hs
    split at hs
    case h_2 => cases hs
    rename_i p hp
    rw [Option.ite_none_right_eq_some] at hs
    obtain ⟨hst, hs⟩ := hs
    obtain ⟨k, hk, rfl⟩ := Option.map_eq_some_iff.1 hs
    exact h.unlocked hp rfl hk fun _ => hst
  | exec page =>
    simp only [Cpus.act] at hs
    split at hs
    case h_2 => cases hs
    rename_i p hp
    rw [Option.ite_none_right_eq_some] at hs
    obtain ⟨⟨-, hpage⟩, hs⟩ := hs
    cases hs
    refine h.modify p (fun _ => rfl) (fun _ => rfl) ?_
    -- the page directory of one process is another one, and not null
    refine h.built.keep rfl (fun q hq => ?_) (fun q hq => ?_) fun q hq => ?_
    · rwa [Kernel.modify_field (·.state) (Proc.withPgdir_state · _)] at hq
    · rwa [Kernel.modify_field (·.kstack) (Proc.withPgdir_kstack · _)]
    · by_cases hqp : q = p
      · simpa [hqp] using hpage
      · simpa [hqp] using hq
  | interrupt addr =>
    simp only [Cpus.act] at hs
    split at hs
    case h_3 => cases hs
    all_goals
      rename_i hp
      rw [Option.ite_none_right_eq_some] at hs
      obtain ⟨hfree, hs⟩ := hs
      cases hs
      exact h.take hfree (by rw [hp]; rfl) (by rw [hp]; rfl) (fun _ => Point.noConfusion)
        fun _ _ => Point.noConfusion
  | wakeup =>
    simp only [Cpus.act] at hs
    split at hs
    case h_2 => cases hs
    rename_i q addr hp
    rw [← Option.some.inj hs]
    have hok := h.wakeup hp
    -- keep the unifier from running `wakeup1`
    generalize s.kernel.wakeup1 (.obj addr) = k at hok ⊢
    exact hok

theorem Ok.step {e : CpuEvent} (hs : s.step e = some s') : s'.Ok := by
  cases e with
  | userinit kstack pgdir =>
    simp only [Cpus.step, Option.ite_none_right_eq_some] at hs
    obtain ⟨⟨hfree, hkstack, hpgdir⟩, hs⟩ := hs
    obtain ⟨k, hk, rfl⟩ := Option.map_eq_some_iff.1 hs
    have hset := h.settled_of_free hfree
    have hwf : s.kernel.Wf := hset ▸ h.wf
    have hk' := Kernel.step_wf hwf hk
    obtain ⟨p, -, hun, rfl⟩ := Kernel.step_userinit hwf hk
    -- the table was empty: nobody else is alive or being created
    have hmakes : ∀ r np, (s.kernel.ctl r).makes ≠ some np := by
      intro r np hr
      have hnp := hwf.makes r np hr
      simp [hun np] at hnp
    show Ok ⟨(((s.kernel.takeSlot p).setInit p).ready p).modify p
      (fun x => (x.withKstack kstack).withPgdir pgdir), s.lock, s.point, s.stage⟩
    refine h.withKernel ?_ rfl (fun q hq => ?_) ⟨fun q hq => ?_, fun r np hr => ?_, ?_⟩
    · have hruns : (fun d => (s.point d).runs) = s.kernel.cpu := congrArg Kernel.cpu hset
      rw [hruns]
      exact hk'.modify p (f := fun x => (x.withKstack kstack).withPgdir pgdir) (fun _ => rfl)
        (fun _ => rfl)
    · simp [hun q] at hq
    · by_cases hqp : q = p
      · simp [hqp, Proc.Backed, hkstack, hpgdir]
      · simp [hqp, Kernel.ready, hun q, ProcState.live] at hq
    · exact absurd (by simp [show s.kernel.ctl r = .publishing np from hr]) (hmakes r np)
    · intro r np thread hr
      exact absurd (by simp [show s.kernel.ctl r = .creating np thread from hr]) (hmakes r np)
  | tick =>
    simp only [Cpus.step] at hs
    obtain ⟨k, hk, rfl⟩ := Option.map_eq_some_iff.1 hs
    cases hk
    refine h.withKernel ?_ rfl (fun _ hp => hp) ⟨h.built.live, h.built.publishing, h.built.creating⟩
    exact Kernel.step_wf (e := .tick) h.wf rfl
  | cpu c a =>
    simp only [Cpus.step, Option.ite_none_right_eq_some] at hs
    exact h.act hs.1 hs.2

end

/-- **A process runs on at most one CPU**: whenever the lock is free, the `RUNNING` processes are
the `c->proc` of one CPU each and all live processes have their pages; and `switchuvm` never
panics. -/
theorem one_cpu {ncpu : Nat} {s : Cpus} (h : Reachable Cpus.step (boot ncpu) s) :
    (s.lock = none → s.Sound) ∧ ∀ c p, s.point c = .starting p → (s.kernel.proc p).Backed := by
  have hok : s.Ok := Run.invariant Ok (boot_ok ncpu) (fun _ _ _ h _ hs => h.step hs) h
  constructor
  · intro hfree
    have hwf : s.kernel.Wf := hok.settled_of_free hfree ▸ hok.wf
    constructor
    · intro p hp
      obtain ⟨c, hc⟩ := hwf.running p hp
      exact ⟨c, hc, fun d hd => hwf.cpuInj d c p hd hc⟩
    · exact fun c p hc => (hwf.onCpu c p hc).1
    · exact hok.built.live
  · intro c p hp
    exact hok.built.live p (by rw [hok.chosen c p hp]; rfl)

/-- A process and its child run on two CPUs, and the lock is free. -/
theorem one_cpu_each : ∃ s, Reachable Cpus.step (boot 2) s ∧
    (s.lock = none ∧ s.kernel.cpu 0 = some 0 ∧ s.kernel.cpu 1 = some 1) ∧ s.Sound := by
  obtain ⟨s, hrun, hs⟩ := exists_run_of_runs Cpus.step (fun _ _ => True) (boot 2)
    [.userinit 1 2, .cpu 0 .acquire, .cpu 0 (.choose 0), .cpu 0 .switch, .cpu 0 .release,
      .cpu 0 (.enter (.allocproc false)), .cpu 0 .body, .cpu 0 .release, .cpu 0 (.kalloc 3),
      .cpu 0 (.copyuvm 4), .cpu 0 .adopt, .cpu 0 (.enter .publish), .cpu 0 .body, .cpu 0 .release,
      .cpu 1 .acquire, .cpu 1 (.choose 1), .cpu 1 .switch, .cpu 1 .release]
    (fun s => decide (s.lock = none ∧ s.kernel.cpu 0 = some 0 ∧ s.kernel.cpu 1 = some 1))
    (by decide +kernel)
  have hs := of_decide_eq_true hs
  exact ⟨s, hrun, hs, (one_cpu hrun).1 hs.1⟩

end

end Cpus

end Xv6
