import Xv6.Foundation.Fallible
import Xv6.Processes.Table

/-! # Spinlocks

`spinlock.c`: locks that are held by a CPU, and the counted disabling of interrupts they rest on.
The state is that of the CPU the code runs on, together with the process table; a panic stops the
code. The other CPUs are not stepped: `acquire` of a lock that another CPU holds waits for it, so
it returns with the lock taken.

What a caller sees of a CPU is its `View`: the depth of `pushcli` and the locks it holds. Each
operation has one effect on it (`acquire_view`, `release_view`, `holding_view`, `myproc_view`). -/

namespace Xv6.Locking

open Foundation

/-- The spinlocks that the functions below take. -/
inductive Lock
  | ptable
  | kmem
  | ftable
  | icache
  | cons
  /-- The lock of a driver or of a file system object, passed to `sleep`. -/
  | other (n : Nat)
  deriving DecidableEq, Repr

/-- The fields of `struct cpu` that count interrupt disabling, the interrupt flag of the CPU, and
its scheduling policy. -/
structure Cpu where
  ncli : Int
  intena : Bool
  eflagsIF : Bool
  schedAlg : Nat
  deriving DecidableEq, Repr

/-- How the scheduler resumes a process that has called `sched`. -/
structure Resume where
  /-- The CPU that picks the process up, and its policy. -/
  cpu : Nat
  schedAlg : Nat
  /-- The locks that the CPUs hold by then. -/
  holder : Lock → Option Nat
  /-- The process table by then. -/
  kernel : Kernel

/-- What the code of one call can see and change. -/
structure Core where
  /-- The CPU that runs the call. -/
  id : Nat
  cpu : Cpu
  /-- The CPU that holds a lock, `none` for a free one. -/
  holder : Lock → Option Nat
  kernel : Kernel
  script : List Resume
  oracle : List Nat

/-- Why a call does not return. -/
inductive Stop
  | panic (msg : String)
  /-- The scheduler never picks the caller up again. -/
  | never
  deriving DecidableEq, Repr

/-- Kernel code that runs on one CPU. -/
abbrev Code := Fallible Stop Core

namespace Core

/-- `lk->locked && lk->cpu == mycpu()`. -/
def holds (s : Core) (lk : Lock) : Bool := s.holder lk = some s.id

/-- Set the interrupt flag: `cli` and `sti`. -/
@[simps] def setIF (s : Core) (b : Bool) : Core := { s with cpu := { s.cpu with eflagsIF := b } }

/-- Set `mycpu()->intena`. -/
@[simps] def setIntena (s : Core) (b : Bool) : Core :=
  { s with cpu := { s.cpu with intena := b } }

/-- Add to `mycpu()->ncli`. -/
@[simps] def addNcli (s : Core) (d : Int) : Core :=
  { s with cpu := { s.cpu with ncli := s.cpu.ncli + d } }

/-- Set the CPU that holds a lock. -/
@[simps] def setHolder (s : Core) (lk : Lock) (x : Option Nat) : Core :=
  { s with holder := fun l => if l = lk then x else s.holder l }

/-- Change the process table. -/
@[simps] def mapKernel (s : Core) (f : Kernel → Kernel) : Core := { s with kernel := f s.kernel }

@[simp] theorem mapKernel_holds (s : Core) (f : Kernel → Kernel) :
    (s.mapKernel f).holds = s.holds :=
  rfl

end Core

/-! ## `spinlock.c` -/

/-- `mycpu`. -/
def mycpu : Code Cpu := do
  let s ← get
  stopIf s.cpu.eflagsIF (.panic "mycpu called with interrupts enabled\n")
  return s.cpu

/-- `pushcli`. -/
def pushcli : Code PUnit := do
  let s ← get
  modify (·.setIF false)
  let c ← mycpu
  onlyIf (c.ncli = 0) (modify (·.setIntena s.cpu.eflagsIF))
  modify (·.addNcli 1)

/-- `popcli`. -/
def popcli : Code PUnit := do
  let s ← get
  stopIf s.cpu.eflagsIF (.panic "popcli - interruptible")
  modify (·.addNcli (-1))
  let c ← mycpu
  stopIf (c.ncli < 0) (.panic "popcli")
  onlyIf (c.ncli = 0 ∧ c.intena) (modify (·.setIF true))

/-- `holding`. -/
def holding (lk : Lock) : Code Bool := do
  pushcli
  let s ← get
  popcli
  return s.holds lk

/-- `acquire`. The loop on `xchg` ends when the lock is free. -/
def acquire (lk : Lock) : Code PUnit := do
  pushcli
  let r ← holding lk
  stopIf r (.panic "acquire")
  let _ ← mycpu
  modify fun s => s.setHolder lk (some s.id)

/-- `release`. -/
def release (lk : Lock) : Code PUnit := do
  let r ← holding lk
  stopIf (r = false) (.panic "release")
  modify (·.setHolder lk none)
  popcli

/-- `myproc`, which reads `mycpu()->proc` with interrupts off. -/
def myproc : Code PUnit := do
  pushcli
  let _ ← mycpu
  popcli

/-! ## The view of a CPU -/

/-- The depth of `pushcli` and the locks that the CPU holds. -/
@[ext] structure View where
  ncli : Int
  held : Lock → Bool

namespace View

/-- The view once `lk` is taken. -/
@[simps] def take (v : View) (lk : Lock) : View where
  ncli := v.ncli + 1
  held := fun l => l = lk || v.held l

/-- The view once `lk` is given back. -/
@[simps] def drop (v : View) (lk : Lock) : View where
  ncli := v.ncli - 1
  held := fun l => l ≠ lk && v.held l

end View

/-- The view of the CPU that runs the code. -/
@[simps] def Core.view (s : Core) : View where
  ncli := s.cpu.ncli
  held := s.holds

/-- What an operation on the locks leaves alone: the table and the inputs to come. -/
structure Quiet (s s' : Core) : Prop where
  kernel : s'.kernel = s.kernel
  script : s'.script = s.script
  oracle : s'.oracle = s.oracle

theorem Quiet.trans {s s' s'' : Core} (h : Quiet s s') (h' : Quiet s' s'') : Quiet s s'' :=
  ⟨h'.1.trans h.1, h'.2.trans h.2, h'.3.trans h.3⟩

section

variable {s s' : Core} {lk : Lock} {u : PUnit}

theorem mycpu_returns {c : Cpu} (h : Returns mycpu s c s') : c = s.cpu ∧ s' = s := by
  simp only [mycpu, returns_bind, returns_get, returns_stopIf, returns_pure] at h
  obtain ⟨_, _, ⟨rfl, rfl⟩, _, _, ⟨-, rfl⟩, rfl, rfl⟩ := h
  exact ⟨rfl, rfl⟩

theorem pushcli_returns (h : Returns pushcli s u s') :
    s'.cpu.ncli = s.cpu.ncli + 1 ∧ s'.id = s.id ∧ s'.holder = s.holder ∧ Quiet s s' := by
  simp only [pushcli, returns_bind, returns_get, returns_modify, returns_onlyIf] at h
  obtain ⟨_, _, ⟨rfl, rfl⟩, _, _, rfl, c, _, hc, _, _, h, rfl⟩ := h
  obtain ⟨rfl, rfl⟩ := mycpu_returns hc
  obtain ⟨-, rfl⟩ | ⟨-, rfl⟩ := h
  · exact ⟨rfl, rfl, rfl, rfl, rfl, rfl⟩
  · exact ⟨rfl, rfl, rfl, rfl, rfl, rfl⟩

theorem popcli_returns (h : Returns popcli s u s') :
    s'.cpu.ncli = s.cpu.ncli - 1 ∧ s'.id = s.id ∧ s'.holder = s.holder ∧ Quiet s s' := by
  simp only [popcli, returns_bind, returns_get, returns_modify, returns_stopIf,
    returns_onlyIf] at h
  obtain ⟨_, _, ⟨rfl, rfl⟩, _, _, ⟨-, rfl⟩, _, _, rfl, c, _, hc, _, _, ⟨-, rfl⟩, h⟩ := h
  obtain ⟨rfl, rfl⟩ := mycpu_returns hc
  obtain ⟨-, rfl⟩ | ⟨-, rfl⟩ := h
  · exact ⟨rfl, rfl, rfl, rfl, rfl, rfl⟩
  · exact ⟨rfl, rfl, rfl, rfl, rfl, rfl⟩

theorem view_push_pop {s1 s2 : Core} {u1 u2 : PUnit} (h1 : Returns pushcli s u1 s1)
    (h2 : Returns popcli s1 u2 s2) : s2.view = s.view ∧ s2.id = s.id ∧ Quiet s s2 := by
  obtain ⟨hn1, hid1, hh1, hq1⟩ := pushcli_returns h1
  obtain ⟨hn2, hid2, hh2, hq2⟩ := popcli_returns h2
  refine ⟨View.ext ?_ ?_, hid2.trans hid1, hq1.trans hq2⟩
  · simp only [Core.view_ncli]
    omega
  · funext l
    simp [Core.holds, hid1, hid2, hh1, hh2]

theorem holding_view {b : Bool} (h : Returns (holding lk) s b s') :
    b = s.view.held lk ∧ s'.view = s.view ∧ s'.id = s.id ∧ Quiet s s' := by
  simp only [holding, returns_bind, returns_get, returns_pure] at h
  obtain ⟨_, s1, h1, _, _, ⟨rfl, rfl⟩, _, _, h2, rfl, rfl⟩ := h
  obtain ⟨-, hid, hh, -⟩ := pushcli_returns h1
  exact ⟨by simp [Core.holds, hid, hh], view_push_pop h1 h2⟩

/-- **`acquire` takes the lock**, which this CPU did not hold. -/
theorem acquire_view (h : Returns (acquire lk) s u s') :
    s.view.held lk = false ∧ s'.view = s.view.take lk ∧ Quiet s s' := by
  simp only [acquire, returns_bind, returns_stopIf, returns_modify] at h
  obtain ⟨_, s1, h1, b, _, h2, _, _, ⟨hb, rfl⟩, c, s2, hc, rfl⟩ := h
  obtain ⟨-, rfl⟩ := mycpu_returns hc
  obtain ⟨hn, hid, hh, hq⟩ := pushcli_returns h1
  obtain ⟨rfl, hview, -, hq'⟩ := holding_view h2
  have hheld : s1.holds = s.holds := by
    funext l
    simp [Core.holds, hid, hh]
  refine ⟨by simpa [hheld] using hb, View.ext ?_ ?_, ⟨?_, ?_, ?_⟩⟩
  · have hn2 : s2.cpu.ncli = s1.cpu.ncli := congrArg View.ncli hview
    simp [hn2, hn]
  · have hheld2 : s2.holds = s.holds := (congrArg View.held hview).trans hheld
    funext l
    by_cases hl : l = lk
    · simp [Core.holds, hl]
    · simpa [Core.holds, hl] using congrFun hheld2 l
  · exact (hq.trans hq').kernel
  · exact (hq.trans hq').script
  · exact (hq.trans hq').oracle

/-- **`release` gives the lock back**, which this CPU held. -/
theorem release_view (h : Returns (release lk) s u s') :
    s.view.held lk = true ∧ s'.view = s.view.drop lk ∧ Quiet s s' := by
  simp only [release, returns_bind, returns_stopIf, returns_modify] at h
  obtain ⟨b, _, h1, _, s1, ⟨hb, rfl⟩, _, _, rfl, h2⟩ := h
  obtain ⟨rfl, hview, hid, hq⟩ := holding_view h1
  obtain ⟨hn, hid2, hh, hq'⟩ := popcli_returns h2
  refine ⟨by simpa using hb, View.ext ?_ ?_, ?_, ?_, ?_⟩
  · have hn1 : s1.cpu.ncli = s.cpu.ncli := congrArg View.ncli hview
    simp [hn, hn1, sub_eq_add_neg]
  · have hheld : s1.holds = s.holds := congrArg View.held hview
    funext l
    by_cases hl : l = lk
    · simp [Core.holds, hl, hh]
    · simpa [Core.holds, hl, hh, hid2] using congrFun hheld l
  · exact hq'.kernel.trans hq.kernel
  · exact hq'.script.trans hq.script
  · exact hq'.oracle.trans hq.oracle

theorem myproc_view (h : Returns myproc s u s') : s'.view = s.view ∧ s'.id = s.id ∧ Quiet s s' := by
  simp only [myproc, returns_bind] at h
  obtain ⟨_, s1, h1, c, _, hc, h2⟩ := h
  obtain ⟨-, rfl⟩ := mycpu_returns hc
  exact view_push_pop h1 h2

end

end Xv6.Locking
