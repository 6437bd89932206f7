import Xv6.Processes.Scheduler

/-! # Preemption by priority

One CPU with its traps: a process leaves user mode by a system call, by an interrupt or by an
exception, and comes back when `trap` returns. `fork`, `thread_create` and `kill` end with a look at
the policy and give up the CPU under policies 2 and 3; the timer gives it up when the quantum is
used. Nothing else does: neither a `wakeup` in an interrupt or in a system call, nor `set_priority`,
nor `change_policy`.

* **`preemptive`** — as long as no such step makes a process more urgent than the one on the CPU,
  and no scan of the table starts behind its end, no more urgent process is left waiting;
* **`overtaken`** — an interrupt wakes `init` while a child executes user code, and `trap` returns
  to the child. -/

namespace Xv6

open Foundation

/-- Where a process is with respect to user mode. -/
inductive Place
  /-- In `forkret`, before it comes to user mode for the first time. -/
  | start
  /-- In user mode. -/
  | user
  /-- In a system call, or in `trap` on the way to `exit`. -/
  | kernel
  /-- At the end of `fork`, `thread_create` or `kill`, before the look at the policy. -/
  | checking
  /-- In `trap` after a timer interrupt in user mode, behind `yield`. -/
  | trapped
  deriving DecidableEq, Repr

/-- The process table, the scheduling variables of the CPU, and the places of the processes. -/
structure Uni where
  kernel : Kernel
  schedAlg : Nat
  last : Option Nat
  ctr : Nat
  place : Slot → Place

/-- The store of `set_priority`. -/
@[simps] def Proc.withPriority (x : Proc) (prio : Nat) : Proc := { x with priority := prio }

/-- The value that `set_priority(prio)` stores. -/
def clampPriority (prio : Int) : Nat := if prio < 1 ∨ 6 < prio then 5 else prio.toNat

/-- What the CPU does next. -/
inductive Trap
  /-- `main` sets up the first process. -/
  | userinit
  /-- An iteration of `scheduler`, with what `fastrand` returns. -/
  | schedule (rand : Int)
  /-- A system call begins. -/
  | syscall
  /-- An exception in user mode: the process is to exit. -/
  | fault
  /-- A step of a system call, or of `exit`. -/
  | op (o : Op)
  /-- A system call wakes the sleepers on a kernel object. -/
  | wake (addr : Nat)
  /-- `set_priority(prio)`. -/
  | setPriority (prio : Int)
  /-- `change_policy(policy)`. -/
  | changePolicy (policy : Int)
  /-- The look at the policy at the end of `fork`, `thread_create` and `kill`. -/
  | check
  /-- The interrupt of a device, which wakes the sleepers on an object or nobody. -/
  | device (addr : Option Nat)
  /-- The timer interrupt. -/
  | timer
  /-- The way back to user mode. -/
  | ret
  deriving DecidableEq, Repr

/-- The channel `&ticks`. -/
def ticksChan : Nat := 0

/-- The steps of `sleep` on a kernel object. -/
def Op.sleeps : Op → Bool
  | .sleep _ | .awake => true
  | _ => false

/-- `--(c->ctr)`, of an unsigned number. -/
def decrement (n : Nat) : Nat := if n = 0 then 2 ^ 32 - 1 else n - 1

namespace Uni

/-- The machine at boot. -/
def boot : Uni where
  kernel := Xv6.boot 1
  schedAlg := 0
  last := none
  ctr := 0
  place := fun _ => .start

/-- The process on the CPU. -/
def cur (s : Uni) : Option Slot := s.kernel.cpu 0

/-- Replace the process table. -/
@[simps] def withKernel (s : Uni) (k : Kernel) : Uni := { s with kernel := k }

/-- Move a process. -/
@[simps] def setPlace (s : Uni) (p : Slot) (x : Place) : Uni :=
  { s with place := fun q => if q = p then x else s.place q }

/-- Policies 2 and 3. -/
def ByPriority (s : Uni) : Prop := s.schedAlg = 2 ∨ s.schedAlg = 3

instance (s : Uni) : Decidable s.ByPriority := inferInstanceAs (Decidable (_ ∨ _))

/-- The call of `kill(pid)` makes a process runnable. -/
def rouses (k : Kernel) (pid : Int) : Bool :=
  ((List.finRange NPROC).find? fun p => (k.proc p).pid = pid).any fun p =>
    (k.proc p).state = .sleeping

/-- The calls that look at the policy at their end. -/
def checks (k : Kernel) : Op → Bool
  | .publish => true
  | .kill pid => rouses k pid
  | _ => false

/-- A step of the process `p` in the kernel; slots that are not in use get new processes. -/
def runOp (s : Uni) (p : Slot) (o : Op) : Option Uni :=
  (s.kernel.step (.call 0 o)).map fun k =>
    { s with
      kernel := k
      place := fun q =>
        if q = p then (if checks s.kernel o then .checking else s.place p)
        else if (s.kernel.proc q).state = .unused then .start
        else s.place q }

/-- `yield`. -/
def yield (s : Uni) : Option Uni := (s.kernel.step (.call 0 .yield)).map s.withKernel

/-- A `wakeup`, of nobody if there is no object. -/
def wakeup (s : Uni) : Option Nat → Option Uni
  | none => some s
  | some addr => (s.kernel.step (.wakeup addr)).map s.withKernel

/-- The end of `trap` for an interrupt of the process `p`: a process that was killed in user mode is
to exit. -/
def leave (s : Uni) (p : Slot) : Uni :=
  if s.place p = .user ∧ (s.kernel.proc p).killed then s.setPlace p .kernel else s

/-- The end of `trap` for a timer interrupt of the process `p`. -/
def countDown (s : Uni) (p : Slot) : Option Uni :=
  if s.place p = .user ∧ (s.kernel.proc p).killed then some (s.setPlace p .kernel)
  else
    let s := { s with ctr := decrement s.ctr }
    if s.ctr = 0 then (if s.place p = .user then s.setPlace p .trapped else s).yield else some s

/-- An iteration of `scheduler` that has chosen. -/
def start (s : Uni) (c : Choice) : Option Uni :=
  match c.chosen with
  | none => some { s with last := some c.last }
  | some i =>
    -- an entry behind the table is no process
    if h : i < NPROC then
      (s.kernel.step (.dispatch 0 ⟨i, h⟩)).map fun k =>
        { s with kernel := k, ctr := c.timeQ, last := some c.last }
    else none

/-- **One step of the CPU.** -/
def step (beyond : Proc) (s : Uni) : Trap → Option Uni
  | .userinit => (s.kernel.step .userinit).map s.withKernel
  | .schedule rand =>
    if s.cur = none then
      -- a policy out of range is set to 0, but the iteration goes on as under policy 1
      (s.kernel.choose beyond s.schedAlg s.last rand).bind
        (start { s with schedAlg := if s.schedAlg ≤ 4 then s.schedAlg else 0 })
    else none
  | .syscall =>
    s.cur.bind fun p => if s.place p = .user then some (s.setPlace p .kernel) else none
  | .fault =>
    s.cur.bind fun p =>
      if s.place p = .user then
        some ((s.withKernel (s.kernel.modify p (·.marked))).setPlace p .kernel)
      else none
  | .op o =>
    s.cur.bind fun p =>
      -- the first process sleeps in `forkret`, where the log is read
      if o ≠ .yield ∧ (s.place p = .kernel ∨
          s.place p = .start ∧ s.kernel.initproc = some p ∧ o.sleeps) then
        s.runOp p o
      else none
  | .wake addr =>
    s.cur.bind fun p =>
      if s.place p = .kernel ∨ s.place p = .start ∧
        s.kernel.initproc = some p then s.wakeup (some addr)
      else none
  | .setPriority prio =>
    s.cur.bind fun p =>
      if s.place p = .kernel ∧ s.kernel.ctl p = .user then
        some (s.withKernel (s.kernel.modify p (·.withPriority (clampPriority prio))))
      else none
  | .changePolicy policy =>
    s.cur.bind fun p =>
      if s.place p = .kernel ∧ s.kernel.ctl p = .user then
        some (if policy < 0 ∨ 4 < policy then s else { s with schedAlg := policy.toNat })
      else none
  | .check =>
    s.cur.bind fun p =>
      if s.place p = .checking then
        if s.ByPriority then (s.setPlace p .kernel).yield else some (s.setPlace p .kernel)
      else none
  | .device addr =>
    match s.cur with
    | none => s.wakeup addr
    | some p => if s.place p ≠ .trapped then (s.wakeup addr).map (·.leave p) else none
  | .timer =>
    (s.kernel.step .tick).bind fun k =>
      match s.cur with
      | none => (s.withKernel k).wakeup (some ticksChan)
      | some p =>
        if s.place p ≠ .trapped then
          ((s.withKernel k).wakeup (some ticksChan)).bind (·.countDown p)
        else none
  | .ret =>
    s.cur.bind fun p =>
      if s.kernel.ctl p = .user then
        match s.place p with
        | .start => some (s.setPlace p .user)
        | .kernel => if (s.kernel.proc p).killed then none else some (s.setPlace p .user)
        | .trapped => some (s.setPlace p (if (s.kernel.proc p).killed then .kernel else .user))
        | .user | .checking => none
      else none

/-- The process `p` is at least as urgent as every `RUNNABLE` one. -/
def Urgent (s : Uni) (p : Slot) : Prop :=
  ∀ q, (s.kernel.proc q).state = .runnable → (s.kernel.proc p).priority ≤ (s.kernel.proc q).priority

/-- **Preemptive scheduling**: under policies 2 and 3, a process that is back in user mode is at
least as urgent as every `RUNNABLE` one. -/
def Preemptive (s : Uni) : Prop :=
  s.ByPriority → ∀ p, s.cur = some p → s.place p = .user → s.Urgent p

/-- A `wakeup` on `addr` reaches no process that is more urgent than the one on the CPU, or that one
is about to give up the CPU. -/
def Gentle (s : Uni) (addr : Nat) : Prop :=
  ∀ p, s.cur = some p → s.place p ≠ .checking →
    ∀ q, (s.kernel.proc q).state = .sleeping → (s.kernel.proc q).chan = some (.obj addr) →
      (s.kernel.proc p).priority ≤ (s.kernel.proc q).priority

/-- The timer interrupt takes the CPU away: the quantum is used, and the process is not to exit at
once. -/
def Expires (s : Uni) : Prop :=
  s.ctr = 1 ∧ ∀ p, s.cur = some p → s.place p = .user → (s.kernel.proc p).killed = false

/-- **The condition on the steps** under policies 2 and 3. A `wakeup` reaches no process that is
more urgent than the one on the CPU, unless that one gives up the CPU in the same step;
`set_priority` makes its caller no less urgent than a `RUNNABLE` process; the policy is changed to
these by a process that is urgent enough; and the scan of the table does not start behind its
end. -/
def Careful (s : Uni) : Trap → Prop
  | .wake addr => s.ByPriority → s.Gentle addr
  | .device addr => s.ByPriority → ∀ a, addr = some a → s.Gentle a
  | .timer => s.ByPriority → s.Expires ∨ s.Gentle ticksChan
  | .setPriority prio =>
    s.ByPriority → ∀ q, (s.kernel.proc q).state = .runnable →
      clampPriority prio ≤ (s.kernel.proc q).priority
  | .changePolicy policy => policy = 2 ∨ policy = 3 → ¬ s.ByPriority → ∀ p, s.cur = some p →
    s.Urgent p
  | .schedule _ => s.ByPriority → s.last ≠ some 63
  | .userinit | .syscall | .fault | .op _ | .check | .ret => True

end Uni

/-! ## Priorities -/

namespace Kernel

variable {k k' : Kernel} {c : Nat} {cur : Slot} {o : Op}

theorem step_priority {e : Event} (hk : k.Wf) (h : k.step e = some k') (q : Slot)
    (hq : (k'.proc q).state ≠ .unused) :
    ((k.proc q).state ≠ .unused ∧ (k'.proc q).priority = (k.proc q).priority) ∨
      (k.proc q).state = .unused ∧ 1 ≤ (k'.proc q).priority ∧ (k'.proc q).priority ≤ 6 := by
  have hnew : 1 ≤ ((k.proc q).embryo k.nextpid k.ticks).priority ∧
      ((k.proc q).embryo k.nextpid k.ticks).priority ≤ 6 := by
    rw [Proc.embryo_priority]
    split <;> omega
  have halters := step_alters hk h q
  generalize k'.proc q = x, k'.ctl q = y at halters hq
  cases halters with
  | same => exact .inl ⟨hq, rfl⟩
  | first hs => exact .inr ⟨hs, hnew⟩
  | woken _ hs | started _ hs => exact .inl ⟨by simp [hs], rfl⟩
  | call _ hrun hleaves =>
    cases hleaves with
    | same | marked => exact .inl ⟨hq, rfl⟩
    | taken _ hs => exact .inr ⟨hs, hnew⟩
    | abandoned | reaped => simp at hq
    | adopted _ hs | published hs | roused _ hs => exact .inl ⟨by simp [hs], rfl⟩
    | orphaned =>
      exact .inl ⟨mt orphaned_unused.2 hq,
        orphaned_field (·.priority) Proc.readied_priority Proc.handedTo_priority k _ _ q⟩
    | own hqc hown =>
      refine .inl ⟨by simp [hqc, hrun], ?_⟩
      cases hown <;> rfl

theorem step_ranked {e : Event} (hk : k.Wf) (h : k.step e = some k') (hr : k.Ranked) :
    k'.Ranked := by
  intro q hq
  rcases step_priority hk h q hq with ⟨huse, hprio⟩ | ⟨-, hnew⟩
  · rw [hprio]
    exact hr q huse
  · exact hnew

/-- A process that stays on its CPU makes nobody runnable, other than by `fork`, `thread_create` and
`kill`. -/
theorem Effect.quiet (hk : k.Wf) (hcur : k.cpu c = some cur) (h : k.Effect c cur o k')
    (hcpu : k'.cpu c = some cur) (hpublish : o ≠ .publish) (hkill : ∀ pid, o ≠ .kill pid) {q : Slot}
    (hq : (k'.proc q).state = .runnable) : (k.proc q).state = .runnable := by
  have hrun := (hk.onCpu c cur hcur).1
  cases h with
  | idle => exact hq
  | alloc thread np hctl hnp | @abandon np _ hctl =>
    by_cases h1 : q = np
    · simp [h1] at hq
    · simpa [h1] using hq
  | @adopt np _ hctl =>
    rwa [Kernel.adopt, setCtl_proc, modify_field (·.state)
      (fun x => Proc.adopted_state x _ _)] at hq
  | publish => exact absurd rfl hpublish
  | mark pid | rouse pid => exact absurd rfl (hkill pid)
  | @exit init =>
    rw [(k.exit_rest c cur init).2.2, if_pos rfl] at hcpu
    cases hcpu
  | yield | waitChild | waitThread | waitObject => simp [Kernel.yield, Kernel.sleep, sched] at hcpu
  | @reap _ p hctl hne hp =>
    by_cases h1 : q = p
    · simp [h1] at hq
    · by_cases h2 : q = cur
      · simp [h2, hne.symm, hrun] at hq
      · simpa [h1, h2] using hq
  | _ =>
    by_cases h1 : q = cur
    · simp [h1, hrun] at hq
    · simpa [h1] using hq

theorem kill_quiet {pid : Int} (h : Uni.rouses k pid = false) (q : Slot) :
    ((k.kill pid).2.proc q).state = (k.proc q).state := by
  unfold Uni.rouses at h
  unfold kill
  split
  · rfl
  · rename_i p hp
    rw [hp] at h
    have hno : (k.proc p).state ≠ .sleeping := by simpa using h
    dsimp only
    rw [if_neg hno]
    exact modify_field (·.state) Proc.marked_state k p q

end Kernel

/-! ## The invariant -/

namespace Uni

/-- What holds of the process table whatever the policy. -/
structure Sane (s : Uni) : Prop where
  wf : s.kernel.Wf
  ncpu : s.kernel.ncpu = 1
  ranked : s.kernel.Ranked

/-- **The invariant**: a process on the CPU that is not about to give it up is urgent. -/
structure Ok (s : Uni) : Prop extends Sane s where
  urgent : s.ByPriority → ∀ p, s.cur = some p → s.place p ≠ .checking → s.Urgent p

theorem boot_ok : boot.Ok where
  wf := Kernel.boot_wf 1
  ncpu := rfl
  ranked := fun _ h => absurd rfl h
  urgent := fun _ _ h => nomatch h

/-- What it takes to be urgent still: the priority is the same, and a process that has become
runnable is not more urgent. -/
theorem Urgent.of {s s' : Uni} {p : Slot} (h : s.Urgent p)
    (hp : (s'.kernel.proc p).priority = (s.kernel.proc p).priority)
    (hq : ∀ q, (s'.kernel.proc q).state = .runnable →
      (s'.kernel.proc q).priority = (s.kernel.proc q).priority ∧
        ((s.kernel.proc q).state = .runnable ∨
          (s.kernel.proc p).priority ≤ (s.kernel.proc q).priority)) :
    s'.Urgent p := by
  intro q hrun
  obtain ⟨hprio, hbefore | hless⟩ := hq q hrun
  · rw [hp, hprio]
    exact h q hbefore
  · rw [hp, hprio]
    exact hless

variable {s s' : Uni} {p : Slot}

section

variable (h : s.Sane)

include h

theorem Sane.running (hp : s.cur = some p) : (s.kernel.proc p).state = .running :=
  (h.wf.onCpu 0 p hp).1

omit h in
theorem Ok.setPlace (h : s.Ok) (p : Slot) {x : Place} (hp : s.place p ≠ .checking) :
    (s.setPlace p x).Ok where
  wf := h.wf
  ncpu := h.ncpu
  ranked := h.ranked
  urgent := by
    intro hpol q hq hplace
    refine h.urgent hpol q hq fun hcheck => hplace ?_
    have hne : q ≠ p := by
      rintro rfl
      exact hp hcheck
    rw [setPlace_place, if_neg hne]
    exact hcheck

variable {k : Kernel} {o : Op} {beyond : Proc}

theorem Sane.kernel {e : Event} (hk : s.kernel.step e = some k) :
    (s.withKernel k).Sane :=
  ⟨Kernel.step_wf h.wf hk, (Kernel.step_ncpu h.wf hk).trans h.ncpu,
    Kernel.step_ranked h.wf hk h.ranked⟩

theorem Sane.idle (hidle : s.cur = none) : s.Ok :=
  ⟨h, fun _ p hp => by rw [hidle] at hp; cases hp⟩

omit h in
/-- **A wakeup** moves nobody and keeps the priorities; who is runnable afterwards was so before, or
slept on the channel. -/
theorem wakeup_spec {addr : Nat} (hs : s.wakeup (some addr) = some s') :
    s'.cur = s.cur ∧ s'.place = s.place ∧ s'.schedAlg = s.schedAlg ∧ s'.ctr = s.ctr ∧
        s'.kernel.ncpu = s.kernel.ncpu ∧
      ∀ q, (s'.kernel.proc q).priority = (s.kernel.proc q).priority ∧
        (s'.kernel.proc q).killed = (s.kernel.proc q).killed ∧
        ((s'.kernel.proc q).state ≠ .unused → (s.kernel.proc q).state ≠ .unused) ∧
        ((s'.kernel.proc q).state = .runnable → (s.kernel.proc q).state = .runnable ∨
          (s.kernel.proc q).state = .sleeping ∧ (s.kernel.proc q).chan = some (.obj addr)) := by
  obtain ⟨k, hk, rfl⟩ := Option.map_eq_some_iff.1 hs
  have heq := Kernel.step_wakeup hk
  obtain ⟨hglobals, -, hcpu⟩ := s.kernel.wakeup1_globals (.obj addr)
  rw [← heq] at hglobals hcpu
  refine ⟨congrFun hcpu 0, rfl, rfl, rfl, hglobals.ncpu, fun q => ?_⟩
  rw [withKernel_kernel, heq, Kernel.wakeup1_proc]
  by_cases hq : (s.kernel.proc q).state = .sleeping ∧ (s.kernel.proc q).chan = some (.obj addr)
  · rw [if_pos hq]
    exact ⟨rfl, rfl, fun _ => by simp [hq.1], fun _ => .inr hq⟩
  · rw [if_neg hq]
    exact ⟨rfl, rfl, id, .inl⟩

theorem Sane.wakeup {addr : Nat} (hs : s.wakeup (some addr) = some s') : s'.Sane := by
  obtain ⟨k, hk, rfl⟩ := Option.map_eq_some_iff.1 hs
  exact h.kernel hk

omit h in
theorem Ok.wakeup (h : s.Ok) {addr : Nat} (hgentle : s.ByPriority → s.Gentle addr)
    (hs : s.wakeup (some addr) = some s') : s'.Ok := by
  refine ⟨h.toSane.wakeup hs, fun hpol p hp hplace => ?_⟩
  obtain ⟨hcur, hplaces, halg, -, -, hproc⟩ := wakeup_spec hs
  rw [hcur] at hp
  rw [hplaces] at hplace
  rw [ByPriority, halg] at hpol
  refine (h.urgent hpol p hp hplace).of (hproc p).1 fun q hq => ⟨(hproc q).1, ?_⟩
  refine ((hproc q).2.2.2 hq).imp_right fun hsleep => ?_
  exact hgentle hpol p hp hplace q hsleep.1 hsleep.2

theorem Sane.call (hp : s.cur = some p) (hk : s.kernel.step (.call 0 o) = some k) :
    (s.withKernel k).Sane ∧ s.kernel.Effect 0 p o k := by
  obtain ⟨q, hq, heffect⟩ := Kernel.step_call h.wf hk
  obtain rfl : p = q := Option.some.inj (hp.symm.trans hq)
  exact ⟨h.kernel hk, heffect⟩

theorem Sane.yield (hp : s.cur = some p) (hs : s.yield = some s') : s'.Ok := by
  obtain ⟨k, hk, rfl⟩ := Option.map_eq_some_iff.1 hs
  refine (h.call hp hk).1.idle ?_
  have hcpu : s.kernel.cpu 0 = some p := hp
  simp only [Kernel.step, hcpu, Kernel.op] at hk
  split at hk
  · cases hk
  · cases hk
    simp [cur, Kernel.yield, Kernel.sched]

theorem Sane.quiet (hp : s.cur = some p) (hk : s.kernel.step (.call 0 o) = some k)
    (hcpu : k.cpu 0 = some p) (hchecks : checks s.kernel o = false) {q : Slot}
    (hq : (k.proc q).state = .runnable) : (s.kernel.proc q).state = .runnable := by
  by_cases hkill : ∃ pid, o = .kill pid
  · obtain ⟨pid, rfl⟩ := hkill
    have hcur : s.kernel.cpu 0 = some p := hp
    simp only [Kernel.step, hcur, Kernel.op] at hk
    split at hk
    · cases hk
    split at hk
    · rw [← Option.some.inj hk, Kernel.kill_quiet hchecks] at hq
      exact hq
    · cases hk
  · refine (h.call hp hk).2.quiet h.wf hp hcpu ?_ (fun pid heq => hkill ⟨pid, heq⟩) hq
    rintro rfl
    cases hchecks

omit h in
theorem Ok.runOp (h : s.Ok) (hp : s.cur = some p) (hplace : s.place p ≠ .checking)
    (hs : s.runOp p o = some s') : s'.Ok := by
  obtain ⟨k, hk, rfl⟩ := Option.map_eq_some_iff.1 hs
  obtain ⟨hsane, heffect⟩ := h.call hp hk
  refine ⟨{ hsane with }, fun hpol q hq hcheck => ?_⟩
  have hq : k.cpu 0 = some q := hq
  -- whoever is on the CPU now was so before
  have hsame : k.cpu 0 = some p := by
    rcases heffect.cpu h.wf hp with ⟨-, hcpu⟩ | ⟨-, hcpu⟩
    · rw [hcpu]
      exact hp
    · rw [hcpu, if_pos rfl] at hq
      cases hq
  obtain rfl : p = q := Option.some.inj (hsame.symm.trans hq)
  have hchecks : checks s.kernel o = false := by
    by_contra hchecks
    refine hcheck ?_
    dsimp only
    rw [if_pos rfl, if_pos (by simpa using hchecks)]
  have hprio : ∀ r, (k.proc r).state ≠ .unused → (s.kernel.proc r).state ≠ .unused →
      (k.proc r).priority = (s.kernel.proc r).priority := by
    intro r hr hr'
    rcases Kernel.step_priority h.wf hk r hr with ⟨-, hprio⟩ | ⟨hunused, -⟩
    · exact hprio
    · exact absurd hunused hr'
  refine (h.urgent hpol p hp hplace).of (hprio p ?_ ?_) fun r hr => ?_
  · have hrun : (k.proc p).state = .running := (hsane.wf.onCpu 0 p hsame).1
    simp [hrun]
  · simp [h.running hp]
  · have hr : (k.proc r).state = .runnable := hr
    have hbefore := h.quiet hp hk hsame hchecks hr
    exact ⟨hprio r (by simp [hr]) (by simp [hbefore]), .inl hbefore⟩

/-- **An iteration of the scheduler** starts a process that is urgent. -/
theorem Sane.start {alg : Nat} {rand : Int} {c : Choice} (halg : s.ByPriority → alg = 2 ∨ alg = 3)
    (hlast : s.ByPriority → s.last ≠ some 63)
    (hc : s.kernel.choose beyond alg s.last rand = some c) (hidle : s.cur = none)
    (hs : s.start c = some s') : s'.Ok := by
  unfold Uni.start at hs
  split at hs
  · cases hs
    exact Sane.idle { h with } hidle
  · rename_i i hchosen
    split at hs
    case isFalse => cases hs
    rename_i hi
    obtain ⟨k, hk, rfl⟩ := Option.map_eq_some_iff.1 hs
    obtain ⟨⟨-, -, hrun⟩, rfl⟩ := Kernel.step_dispatch hk
    have hproc : ∀ q, ((s.kernel.dispatch 0 ⟨i, hi⟩).proc q).priority =
        (s.kernel.proc q).priority :=
      fun q => Kernel.modify_field (·.priority) (fun x => Proc.dispatched_priority x _)
        s.kernel ⟨i, hi⟩ q
    have hstate : ∀ q, q ≠ ⟨i, hi⟩ →
        ((s.kernel.dispatch 0 ⟨i, hi⟩).proc q).state = (s.kernel.proc q).state :=
      fun q hq => by simp [Kernel.dispatch, hq]
    obtain ⟨hwf, hncpu, hranked⟩ := h.kernel hk
    refine ⟨⟨hwf, hncpu, hranked⟩, fun hpol p hp _ => ?_⟩
    obtain rfl : p = ⟨i, hi⟩ := by
      have hp : (s.kernel.dispatch 0 ⟨i, hi⟩).cpu 0 = some p := hp
      simpa [Kernel.dispatch, eq_comm] using hp
    intro q hq
    rw [hproc, hproc]
    have hpol : s.ByPriority := hpol
    have hscan := (Kernel.choose_priority (halg hpol) hc).1
    rw [hchosen] at hscan
    rcases Kernel.priorityScan_min beyond h.ranked (startIndex_lt (hlast hpol)) with
      ⟨hnone, -⟩ | ⟨m, hm, -, hmin⟩
    · rw [hnone] at hscan
      cases hscan
    · rw [hm] at hscan
      obtain rfl : m = ⟨i, hi⟩ := Fin.ext (Option.some.inj hscan).symm
      by_cases hqi : q = ⟨i, hi⟩
      · rw [hqi]
      · exact hmin q ((hstate q hqi).symm.trans hq)

/-- **The scheduler**, which repairs a policy out of range. -/
theorem Sane.schedule {rand : Int} (hlast : s.ByPriority → s.last ≠ some 63)
    (hs : s.step beyond (.schedule rand) = some s') : s'.Ok := by
  simp only [step] at hs
  split at hs
  case isFalse => cases hs
  rename_i hidle
  obtain ⟨c, hc, hs⟩ := Option.bind_eq_some_iff.1 hs
  have hrepaired : Sane { s with schedAlg := if s.schedAlg ≤ 4 then s.schedAlg else 0 } :=
    { h with }
  have hsame : ByPriority { s with schedAlg := if s.schedAlg ≤ 4 then s.schedAlg else 0 } →
      s.ByPriority := by
    intro hpol
    simp only [ByPriority] at hpol ⊢
    split at hpol
    · exact hpol
    · omega
  exact hrepaired.start hsame (fun hpol => hlast (hsame hpol)) hc hidle hs

theorem Sane.userinit (hk : s.kernel.step .userinit = some k) :
    (s.withKernel k).Ok := by
  obtain ⟨p, hinit, hunused, heq⟩ := Kernel.step_userinit h.wf hk
  have hidle : s.cur = none := by
    rw [Option.eq_none_iff_forall_ne_some]
    intro q hq
    have hrun := h.running hq
    rw [hunused q] at hrun
    cases hrun
  refine (h.kernel hk).idle ?_
  rw [cur, withKernel_kernel, heq]
  exact hidle

end

theorem Ok.modify (h : s.Ok) (p : Slot) {f : Proc → Proc} (hstate : ∀ x, (f x).state = x.state)
    (hchan : ∀ x, (f x).chan = x.chan) (hprio : ∀ x, (f x).priority = x.priority) :
    (s.withKernel (s.kernel.modify p f)).Ok := by
  have hs := Kernel.modify_field (·.state) hstate s.kernel p
  have hr := Kernel.modify_field (·.priority) hprio s.kernel p
  refine ⟨⟨h.wf.modify p hstate hchan, h.ncpu, fun q hq => ?_⟩, fun hpol q hq hplace => ?_⟩
  · rw [withKernel_kernel, hs] at hq
    rw [withKernel_kernel, hr]
    exact h.ranked q hq
  · refine (h.urgent hpol q hq hplace).of (hr q) fun r hrun => ⟨hr r, .inl ?_⟩
    rwa [withKernel_kernel, hs] at hrun

/-- **`set_priority`** by a process that stays urgent. -/
theorem Ok.withPriority (h : s.Ok) (hp : s.cur = some p) {prio : Nat} (hrange : 1 ≤ prio ∧ prio ≤ 6)
    (hless : s.ByPriority → ∀ q, (s.kernel.proc q).state = .runnable →
      prio ≤ (s.kernel.proc q).priority) :
    (s.withKernel (s.kernel.modify p (·.withPriority prio))).Ok := by
  have hs := Kernel.modify_field (·.state) (fun x => Proc.withPriority_state x prio) s.kernel p
  have hrun := h.running hp
  refine ⟨⟨h.wf.modify p (fun x => x.withPriority_state prio) (fun x => x.withPriority_chan prio),
    h.ncpu, fun q hq => ?_⟩, fun hpol q hq hplace r hr => ?_⟩
  · by_cases hqp : q = p
    · simpa [hqp] using hrange
    · rw [withKernel_kernel, hs] at hq
      simpa [hqp] using h.ranked q hq
  · obtain rfl : p = q := Option.some.inj (hp.symm.trans hq)
    rw [withKernel_kernel, hs] at hr
    have hrp : r ≠ p := by
      rintro rfl
      rw [hrun] at hr
      cases hr
    simpa [hrp] using hless hpol r hr

theorem clampPriority_range (prio : Int) : 1 ≤ clampPriority prio ∧ clampPriority prio ≤ 6 := by
  unfold clampPriority
  split <;> omega

/-- **`change_policy`** by a process that is urgent under the new policy. -/
theorem Ok.policy (h : s.Ok) {policy : Nat}
    (hurgent : policy = 2 ∨ policy = 3 → ¬ s.ByPriority → ∀ p, s.cur = some p → s.Urgent p) :
    Ok { s with schedAlg := policy } where
  wf := h.wf
  ncpu := h.ncpu
  ranked := h.ranked
  urgent := by
    intro hpol p hp hplace
    by_cases hbefore : s.ByPriority
    · exact h.urgent hbefore p hp hplace
    · exact hurgent hpol hbefore p hp

/-- A process that looks at the policy gives up the CPU, or the policy does not go by priority. -/
theorem Sane.check (h : s.Sane) (hp : s.cur = some p)
    (hs : (if s.ByPriority then (s.setPlace p .kernel).yield else some (s.setPlace p .kernel))
      = some s') :
    s'.Ok := by
  have hsane : (s.setPlace p .kernel).Sane := { h with }
  split at hs
  · exact hsane.yield hp hs
  · rename_i hpol
    cases hs
    exact ⟨hsane, fun h => absurd h hpol⟩

theorem Ok.leave (h : s.Ok) (p : Slot) : (s.leave p).Ok := by
  unfold Uni.leave
  split
  · rename_i hcond
    exact h.setPlace p (by simp [hcond.1])
  · exact h

/-- **The end of `trap` for the timer**, for a process that is urgent or gives up the CPU. -/
theorem Sane.countDown (h : s.Sane) (hp : s.cur = some p) (hok : s.Ok ∨ s.Expires)
    (hs : s.countDown p = some s') : s'.Ok := by
  unfold Uni.countDown at hs
  split at hs
  · rename_i hkilled
    cases hs
    rcases hok with hok | hexp
    · exact hok.setPlace p (by simp [hkilled.1])
    · rw [hexp.2 p hp hkilled.1] at hkilled
      exact absurd hkilled.2 Bool.false_ne_true
  · dsimp only at hs
    generalize hleft : decrement s.ctr = left at hs
    split at hs
    · refine Sane.yield (p := p) ?_ ?_ hs
      · split
        · exact { h with }
        · exact { h with }
      · split
        · exact hp
        · exact hp
    · rename_i hctr
      cases hs
      rcases hok with hok | hexp
      · exact ⟨{ h with }, hok.urgent⟩
      · rw [hexp.1] at hleft
        exact absurd hleft.symm hctr

theorem Ok.timer (h : s.Ok) (hguard : s.ByPriority → s.Expires ∨ s.Gentle ticksChan)
    (hs : s.step beyond .timer = some s') : s'.Ok := by
  simp only [step] at hs
  obtain ⟨k, hk, hs⟩ := Option.bind_eq_some_iff.1 hs
  -- the tick itself only counts
  have htick : (s.withKernel k).Ok := by
    have hwf := Kernel.step_wf h.wf hk
    cases hk
    exact ⟨⟨hwf, h.ncpu, h.ranked⟩, h.urgent⟩
  cases hk
  split at hs
  · rename_i hidle
    exact (htick.toSane.wakeup hs).idle ((wakeup_spec hs).1.trans hidle)
  · rename_i p hp
    split at hs
    case isFalse => cases hs
    obtain ⟨u, hu, hs⟩ := Option.bind_eq_some_iff.1 hs
    obtain ⟨hcur, hplace, halg, hctr, -, hproc⟩ := wakeup_spec hu
    refine (htick.toSane.wakeup hu).countDown (hcur.trans hp) ?_ hs
    by_cases hexp : s.Expires
    · refine .inr ⟨hctr.trans hexp.1, fun q hq hq' => ?_⟩
      rw [(hproc q).2.1]
      exact hexp.2 q (hcur ▸ hq) (hplace ▸ hq')
    · exact .inl (htick.wakeup (fun hpol => (hguard hpol).resolve_left hexp) hu)

theorem Ok.device (h : s.Ok) {addr : Option Nat}
    (hguard : s.ByPriority → ∀ a, addr = some a → s.Gentle a)
    (hs : s.step beyond (.device addr) = some s') : s'.Ok := by
  have hwake : ∀ t, s.wakeup addr = some t → t.Ok := by
    intro t ht
    cases addr with
    | none =>
      cases ht
      exact h
    | some a => exact h.wakeup (fun hpol => hguard hpol a rfl) ht
  simp only [step] at hs
  split at hs
  · exact hwake s' hs
  · split at hs
    case isFalse => cases hs
    obtain ⟨t, ht, rfl⟩ := Option.map_eq_some_iff.1 hs
    exact (hwake t ht).leave _

theorem of_cur {P : Slot → Prop} [DecidablePred P] {f : Slot → Option Uni}
    (hs : (s.cur.bind fun p => if P p then f p else none) = some s') :
    ∃ p, s.cur = some p ∧ P p ∧ f p = some s' := by
  simpa only [Option.bind_eq_some_iff, Option.ite_none_right_eq_some] using hs

theorem Ok.ret (h : s.Ok) (hs : s.step beyond .ret = some s') : s'.Ok := by
  obtain ⟨p, -, -, hs⟩ := of_cur hs
  split at hs
  · rename_i hplace
    cases hs
    exact h.setPlace p (by simp [hplace])
  · rename_i hplace
    split at hs
    · cases hs
    · cases hs
      exact h.setPlace p (by simp [hplace])
  · rename_i hplace
    cases hs
    exact h.setPlace p (by simp [hplace])
  · cases hs
  · cases hs

/-- **Every step** that meets the condition keeps the invariant. -/
theorem Ok.step (h : s.Ok) {e : Trap} (hguard : s.Careful e) (hs : s.step beyond e = some s') :
    s'.Ok := by
  cases e with
  | userinit =>
    obtain ⟨k, hk, rfl⟩ := Option.map_eq_some_iff.1 hs
    exact h.toSane.userinit hk
  | schedule rand => exact h.toSane.schedule hguard hs
  | syscall =>
    obtain ⟨p, -, hplace, hs⟩ := of_cur hs
    cases hs
    exact h.setPlace p (by simp [hplace])
  | fault =>
    obtain ⟨p, -, hplace, hs⟩ := of_cur hs
    cases hs
    refine (h.modify p Proc.marked_state Proc.marked_chan Proc.marked_priority).setPlace p ?_
    simp [hplace]
  | op o =>
    obtain ⟨p, hp, hcond, hs⟩ := of_cur hs
    refine h.runOp hp ?_ hs
    rcases hcond.2 with hplace | ⟨hplace, -⟩
    · simp [hplace]
    · simp [hplace]
  | wake addr =>
    obtain ⟨p, -, -, hs⟩ := of_cur hs
    exact h.wakeup hguard hs
  | setPriority prio =>
    obtain ⟨p, hp, -, hs⟩ := of_cur hs
    cases hs
    exact h.withPriority hp (clampPriority_range prio) hguard
  | changePolicy policy =>
    obtain ⟨p, -, -, hs⟩ := of_cur hs
    cases hs
    split
    · exact h
    · refine h.policy fun hpol => hguard ?_
      omega
  | check =>
    obtain ⟨p, hp, -, hs⟩ := of_cur hs
    exact h.toSane.check hp hs
  | device addr => exact h.device hguard hs
  | timer => exact h.timer hguard hs
  | ret => exact h.ret hs

/-- **Scheduling by priority is preemptive** in every run whose steps meet the condition. -/
theorem preemptive (beyond : Proc) (h : Run (Uni.step beyond) Careful boot s) : s.Preemptive := by
  have hok : s.Ok := h.invariant Ok boot_ok fun _ _ _ hok hguard hs => hok.step hguard hs
  intro hpol p hp hplace
  exact hok.urgent hpol p hp (by simp [hplace])

instance (s : Uni) (p : Slot) : Decidable (s.Urgent p) := Nat.decidableForallFin _

instance (s : Uni) (addr : Nat) : Decidable (s.Gentle addr) := Nat.decidableForallFin _

instance (s : Uni) : Decidable s.Expires := instDecidableAnd

instance (s : Uni) : (e : Trap) → Decidable (s.Careful e)
  | .wake _ => inferInstanceAs (Decidable (_ → _))
  | .device none => isTrue fun _ _ h => nomatch h
  | .device (some a) =>
    decidable_of_iff (s.ByPriority → s.Gentle a)
      ⟨fun h hpol _ heq => Option.some.inj heq ▸ h hpol, fun h hpol => h hpol a rfl⟩
  | .timer => inferInstanceAs (Decidable (_ → _))
  | .setPriority _ => inferInstanceAs (Decidable (_ → _))
  | .changePolicy _ => inferInstanceAs (Decidable (_ → _))
  | .schedule _ => inferInstanceAs (Decidable (_ → _))
  | .userinit | .syscall | .fault | .op _ | .check | .ret => isTrue trivial

/-- `init` makes a child, chooses policy 2 and waits for the disk, and the child comes to user
mode. -/
def childRuns : List Trap :=
  [.userinit, .schedule 0, .ret, .syscall, .op (.allocproc false), .op .adopt, .op .publish, .check,
    .changePolicy 2, .op (.sleep 7), .schedule 0, .ret]

/-- The child waits as well; when `init` is back in user mode, the child is woken and is
compared. -/
theorem preemptive_wakes_child : ∃ s, Run (Uni.step {}) Careful boot s ∧ s.ByPriority ∧
    s.cur = some 0 ∧ s.place 0 = .user ∧ (s.kernel.proc 1).state = .runnable ∧
      (s.kernel.proc 0).priority ≤ (s.kernel.proc 1).priority := by
  obtain ⟨s, hrun, hs⟩ := exists_run_of_runs (Uni.step {}) Careful boot
    (childRuns ++ [.syscall, .op (.sleep 9), .device (some 7), .schedule 0, .op .awake, .ret,
      .device (some 9)])
    (fun s => decide (s.ByPriority ∧ s.cur = some 0 ∧ s.place 0 = .user ∧
      (s.kernel.proc 1).state = .runnable)) (by decide +kernel)
  obtain ⟨hpol, hcur, hplace, hrunnable⟩ := of_decide_eq_true hs
  exact ⟨s, hrun, hpol, hcur, hplace, hrunnable, preemptive {} hrun hpol 0 hcur hplace 1 hrunnable⟩

/-- **A more urgent process is left waiting.** The disk interrupt wakes `init`, and `trap` goes back
to the child. -/
theorem overtaken : ∃ s, Reachable (Uni.step {}) boot s ∧ ¬ s.Preemptive := by
  obtain ⟨s, hrun, hs⟩ := exists_run_of_runs (Uni.step {}) (fun _ _ => True) boot
    (childRuns ++ [.device (some 7)])
    (fun s => decide (s.ByPriority ∧ s.cur = some 1 ∧ s.place 1 = .user ∧
      (s.kernel.proc 0).state = .runnable ∧
        (s.kernel.proc 0).priority < (s.kernel.proc 1).priority))
    (by decide +kernel)
  obtain ⟨hpol, hcur, hplace, hrunnable, hless⟩ := of_decide_eq_true hs
  exact ⟨s, hrun, fun h => absurd (h hpol 1 hcur hplace 0 hrunnable) (by omega)⟩

end Uni

end Xv6
