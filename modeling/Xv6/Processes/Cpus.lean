import Xv6.Processes.Preemption

/-! # Several CPUs

The scheduling variables of every CPU, `c->schedAlg`, `c->RRLastProc` and `c->ctr`, over one process
table. An iteration of `scheduler` holds `ptable.lock` and is one step; `change_policy` holds no
lock, so each of its stores is a step, and one of them may fall between the two times that an
iteration under policy 2 or 3 reads `c->schedAlg`. Where a trap finds a process, in user mode or in
the kernel, is part of the event.

* **`selectsRight_iff`** — in every reachable state, an iteration under policy 2 or 3 reads the
  table only and selects a most urgent process if and only if `c->RRLastProc` is not at the last
  slot;
* **`quantum_accounting`** — a process on a CPU has at least one tick left, and it is taken off at
  exactly the tick at which its quantum is used up;
* **`last_slot`** — idle iterations under policy 4 move the pointer to the last slot. -/

namespace Xv6

open Foundation

/-- The process table and the scheduling variables of the CPUs. -/
structure Smp where
  kernel : Kernel
  schedAlg : Nat → Nat
  last : Nat → Option Nat
  ctr : Nat → Nat

namespace Smp

/-- What happens on one of the CPUs. -/
inductive Event
  /-- `main` sets up the first process. -/
  | userinit
  /-- An iteration of `scheduler` on CPU `c`, with what lies behind the table, what `fastrand`
  returns, and `c->schedAlg` as it is read for the second time. -/
  | schedule (c : Nat) (beyond : Proc) (rand : Int) (again : Nat)
  /-- A step of the process on CPU `c` in the kernel. -/
  | op (c : Nat) (o : Op)
  /-- An interrupt or a system call wakes the sleepers on a kernel object. -/
  | wakeup (addr : Nat)
  /-- An exception in user mode on CPU `c`: the process is to exit. -/
  | fault (c : Nat)
  /-- `set_priority(prio)` on CPU `c`. -/
  | setPriority (c : Nat) (prio : Int)
  /-- `change_policy(policy)` on CPU `c`: the store to `cpus[i].schedAlg`. -/
  | storePolicy (c i : Nat) (policy : Int)
  /-- The timer interrupt on CPU `c`, in user mode or in the kernel. -/
  | timer (c : Nat) (user : Bool)
  deriving DecidableEq, Repr

/-- The machine at boot. -/
def boot (ncpu : Nat) : Smp where
  kernel := Xv6.boot ncpu
  schedAlg := fun _ => 0
  last := fun _ => none
  ctr := fun _ => 0

/-- Replace the process table. -/
@[simps] def withKernel (s : Smp) (k : Kernel) : Smp := { s with kernel := k }

/-- Some CPU other than `c` runs a process. -/
def OtherRuns (s : Smp) (c : Nat) : Prop := ∃ d < s.kernel.ncpu, d ≠ c ∧ s.kernel.cpu d ≠ none

instance (s : Smp) (c : Nat) : Decidable (s.OtherRuns c) := inferInstanceAs (Decidable (∃ d < _, _))

/-- The policy of an iteration: `c->schedAlg` as the `switch` reads it; policies 2 and 3 read it
again, to know which of the two it is. -/
def policy (s : Smp) (c again : Nat) : Nat :=
  if s.schedAlg c = 2 ∨ s.schedAlg c = 3 then (if again = 3 then 3 else 2) else s.schedAlg c

/-- `c->RRLastProc` and `c->schedAlg` after an iteration. -/
@[simps] def leave (s : Smp) (c : Nat) (last alg : Nat) : Smp :=
  { s with
    last := fun d => if d = c then some last else s.last d
    schedAlg := fun d => if d = c then alg else s.schedAlg d }

/-- Set `c->ctr`. -/
@[simps] def setCtr (s : Smp) (c n : Nat) : Smp :=
    { s with ctr := fun d => if d = c then n else s.ctr d }

/-- An iteration of `scheduler` on CPU `c` that has chosen. -/
def start (s : Smp) (c : Nat) (ch : Choice) : Option Smp :=
  match ch.chosen with
  | none => some s
  | some i =>
    -- an entry behind the table is no process
    if h : i < NPROC then
      (s.kernel.step (.dispatch c ⟨i, h⟩)).map fun k => (s.withKernel k).setCtr c ch.timeQ
    else none

/-- The end of `trap` for a timer interrupt on CPU `c`. -/
def countDown (s : Smp) (c : Nat) (user : Bool) : Option Smp :=
  match s.kernel.cpu c with
  | none => some s
  | some p =>
    -- a process that was killed in user mode goes on to `exit`
    if user ∧ (s.kernel.proc p).killed then some s
    else
      let s := s.setCtr c (decrement (s.ctr c))
      if s.ctr c = 0 then (s.kernel.step (.call c .yield)).map s.withKernel else some s

/-- What a timer interrupt does on CPU 0 first: `ticks++` and `wakeup(&ticks)`. -/
def tick (s : Smp) (c : Nat) : Option Smp :=
  if c = 0 then
    ((s.kernel.step .tick).bind fun k => k.step (.wakeup ticksChan)).map s.withKernel
  else some s

/-- **One step of the machine.** -/
def step (s : Smp) : Event → Option Smp
  | .userinit => (s.kernel.step .userinit).map s.withKernel
  | .schedule c beyond rand again =>
    if c < s.kernel.ncpu ∧ s.kernel.cpu c = none ∧ s.kernel.lockLost = false ∧
        (again = s.schedAlg c ∨ again ≤ 4 ∧ s.OtherRuns c) then
      (s.kernel.choose beyond (s.policy c again) (s.last c) rand).bind fun ch =>
        (s.leave c ch.last (if s.schedAlg c ≤ 4 then again else 0)).start c ch
    else none
  | .op c o => (s.kernel.step (.call c o)).map s.withKernel
  | .wakeup addr => (s.kernel.step (.wakeup addr)).map s.withKernel
  | .fault c => (s.kernel.cpu c).map fun p => s.withKernel (s.kernel.modify p (·.marked))
  | .setPriority c prio =>
    (s.kernel.cpu c).map fun p => s.withKernel
      (s.kernel.modify p (·.withPriority (clampPriority prio)))
  | .storePolicy c i policy =>
    (s.kernel.cpu c).map fun _ =>
      if policy < 0 ∨ 4 < policy then s
      else { s with schedAlg := fun d => if d = i then policy.toNat else s.schedAlg d }
  | .timer c user => (s.tick c).bind fun s => s.countDown c user

end Smp

/-! ## The process table -/

namespace Kernel

variable {k k' : Kernel}

theorem step_cpu {e : Event} (hk : k.Wf) (h : k.step e = some k') (hne : ∀ c p, e ≠ .dispatch c p)
    {c : Nat} {p : Slot} (hp : k'.cpu c = some p) : k.cpu c = some p := by
  cases e with
  | userinit =>
    obtain ⟨q, -, -, rfl⟩ := step_userinit hk h
    exact hp
  | tick =>
    cases h
    exact hp
  | wakeup addr =>
    rw [step_wakeup h, (k.wakeup1_globals _).2.2] at hp
    exact hp
  | dispatch c p => exact absurd rfl (hne c p)
  | call d o =>
    obtain ⟨cur, hcur, heffect⟩ := step_call hk h
    rcases heffect.cpu hk hcur with ⟨-, hcpu⟩ | ⟨-, hcpu⟩
    · rwa [hcpu] at hp
    · rw [hcpu] at hp
      split at hp
      · cases hp
      · exact hp

theorem Ranked.modify (h : k.Ranked) (p : Slot) {f : Proc → Proc}
    (hstate : ∀ x, (f x).state = x.state)
    (hprio : ∀ x, 1 ≤ x.priority ∧ x.priority ≤ 6 → 1 ≤ (f x).priority ∧ (f x).priority ≤ 6) :
    (k.modify p f).Ranked := by
  intro q hq
  rw [modify_field (·.state) hstate] at hq
  by_cases hqp : q = p
  · rw [modify_proc, if_pos hqp]
    exact hprio _ (h q hq)
  · rw [modify_proc, if_neg hqp]
    exact h q hq

end Kernel

namespace Smp

variable {s s' : Smp} {c : Nat} {p : Slot}

/-- What every step keeps of the process table. -/
structure Sane (s : Smp) : Prop where
  wf : s.kernel.Wf
  ranked : s.kernel.Ranked

theorem boot_sane (ncpu : Nat) : (boot ncpu).Sane := ⟨Kernel.boot_wf ncpu, fun _ h => absurd rfl h⟩

variable {k : Kernel} {user : Bool} {beyond : Proc} {rand : Int}

theorem Sane.kernel (h : s.Sane) {e : Xv6.Event} (hk : s.kernel.step e = some k) :
    (s.withKernel k).Sane :=
  ⟨Kernel.step_wf h.wf hk, Kernel.step_ranked h.wf hk h.ranked⟩

/-! ## The timer interrupt -/

/-- **What CPU 0 does at a tick** concerns no CPU: who runs, who is killed and the counters stay. -/
theorem tick_spec (h : s.Sane) (hs : s.tick c = some s') :
    s'.Sane ∧ s'.kernel.cpu = s.kernel.cpu ∧ s'.ctr = s.ctr ∧
        s'.kernel.lockLost = s.kernel.lockLost ∧
      ∀ q, (s'.kernel.proc q).killed = (s.kernel.proc q).killed := by
  unfold tick at hs
  split at hs
  · obtain ⟨k, hk, rfl⟩ := Option.map_eq_some_iff.1 hs
    obtain ⟨k1, hk1, hk⟩ := Option.bind_eq_some_iff.1 hk
    have hsane := (h.kernel hk1).kernel (k := k) hk
    cases hk1
    have heq := Kernel.step_wakeup hk
    refine ⟨hsane, ?_, rfl, ?_, fun q => ?_⟩
    · rw [withKernel_kernel, heq, (Kernel.wakeup1_globals _ _).2.2]
    · rw [withKernel_kernel, heq, (Kernel.wakeup1_globals _ _).1.lockLost]
    · rw [withKernel_kernel, heq, Kernel.wakeup1_proc]
      split <;> rfl
  · cases hs
    exact ⟨h, rfl, rfl, rfl, fun _ => rfl⟩

theorem step_yield (hp : k.cpu c = some p) :
    k.step (.call c .yield) = if k.lockLost then none else some (k.yield c p) := by
  simp [Kernel.step, hp, Op.locks, Kernel.op]

/-- **The end of `trap` for a timer interrupt** of the process `p`. -/
theorem countDown_eq (hp : s.kernel.cpu c = some p) (user : Bool) :
    s.countDown c user =
      if user ∧ (s.kernel.proc p).killed then some s
      else if decrement (s.ctr c) = 0 then
        (if s.kernel.lockLost then none
          else some ((s.setCtr c (decrement (s.ctr c))).withKernel (s.kernel.yield c p)))
      else some (s.setCtr c (decrement (s.ctr c))) := by
  rw [countDown, hp]
  dsimp only
  split
  · rfl
  · simp only [setCtr_ctr, if_true, setCtr_kernel, step_yield hp]
    split
    · split <;> rfl
    · rfl

@[simp] theorem yield_cpu (k : Kernel) (c : Nat) (p : Slot) (d : Nat) :
    (k.yield c p).cpu d = if d = c then none else k.cpu d := rfl

/-- **What the end of `trap` leaves** after a timer interrupt on CPU `c`. -/
inductive TimerEnd (s : Smp) (c : Nat) (user : Bool) : Smp → Prop
  /-- Nobody is on the CPU. -/
  | idle (hidle : s.kernel.cpu c = none) : TimerEnd s c user s
  /-- The process was killed in user mode. -/
  | exits {p : Slot} (hp : s.kernel.cpu c = some p) (huser : user = true)
      (hkilled : (s.kernel.proc p).killed) :
      TimerEnd s c user s
  /-- The process has some time left. -/
  | counts {p : Slot} (hp : s.kernel.cpu c = some p) (hne : decrement (s.ctr c) ≠ 0) :
      TimerEnd s c user (s.setCtr c (decrement (s.ctr c)))
  /-- The process gives up the CPU. -/
  | yields {p : Slot} (hp : s.kernel.cpu c = some p) (hzero : decrement (s.ctr c) = 0)
      (hlock : s.kernel.lockLost = false) :
      TimerEnd s c user ((s.setCtr c (decrement (s.ctr c))).withKernel (s.kernel.yield c p))

theorem countDown_end (hs : s.countDown c user = some s') : TimerEnd s c user s' := by
  rcases hp : s.kernel.cpu c with _ | p
  · rw [countDown, hp] at hs
    cases hs
    exact .idle hp
  rw [countDown_eq hp] at hs
  split at hs
  · rename_i hexit
    cases hs
    exact .exits hp hexit.1 hexit.2
  split at hs
  · rename_i hzero
    split at hs
    · cases hs
    · rename_i hlock
      cases hs
      exact .yields hp hzero (Bool.eq_false_iff.2 hlock)
  · rename_i hne
    cases hs
    exact .counts hp hne

theorem TimerEnd.sane (ht : TimerEnd s c user s') (h : s.Sane) : s'.Sane := by
  cases ht with
  | idle | exits => exact h
  | counts => exact ⟨h.wf, h.ranked⟩
  | @yields p hp hzero hlock =>
    have hyield : s.kernel.step (.call c .yield) = some (s.kernel.yield c p) := by
      rw [step_yield hp, hlock]
      rfl
    exact ⟨(h.kernel hyield).wf, (h.kernel hyield).ranked⟩

/-! ## An iteration of the scheduler -/

/-- **What an iteration does**: nobody was found, or the choice is started. -/
theorem step_schedule {again : Nat} (hs : s.step (.schedule c beyond rand again) = some s') :
    s.kernel.cpu c = none ∧ ∃ ch, s.kernel.choose beyond (s.policy c again) (s.last c)
        rand = some ch ∧
      ((ch.chosen = none ∧ s'.kernel = s.kernel ∧ s'.ctr = s.ctr) ∨
        ∃ p : Slot, ch.chosen = some p.val ∧ s.kernel.step (.dispatch c p) = some s'.kernel ∧
          ∀ d, s'.ctr d = if d = c then ch.timeQ else s.ctr d) := by
  simp only [step] at hs
  split at hs
  case isFalse => cases hs
  rename_i hcond
  obtain ⟨ch, hch, hs⟩ := Option.bind_eq_some_iff.1 hs
  refine ⟨hcond.2.1, ch, hch, ?_⟩
  unfold start at hs
  split at hs
  · rename_i hnone
    cases hs
    exact .inl ⟨hnone, rfl, rfl⟩
  · rename_i i hi
    split at hs
    case isFalse => cases hs
    rename_i hlt
    obtain ⟨k, hk, rfl⟩ := Option.map_eq_some_iff.1 hs
    exact .inr ⟨⟨i, hlt⟩, hi, hk, fun _ => rfl⟩

theorem Sane.step (h : s.Sane) {e : Event} (hs : s.step e = some s') : s'.Sane := by
  cases e with
  | userinit | op | wakeup =>
    obtain ⟨k, hk, rfl⟩ := Option.map_eq_some_iff.1 hs
    exact h.kernel hk
  | schedule c beyond rand again =>
    obtain ⟨-, ch, -, ⟨-, hk, -⟩ | ⟨p, -, hk, -⟩⟩ := step_schedule hs
    · exact ⟨hk ▸ h.wf, hk ▸ h.ranked⟩
    · exact ⟨(h.kernel hk).wf, (h.kernel hk).ranked⟩
  | fault c =>
    obtain ⟨p, -, rfl⟩ := Option.map_eq_some_iff.1 hs
    exact ⟨h.wf.modify p Proc.marked_state Proc.marked_chan, h.ranked.modify p Proc.marked_state
      fun _ hx => hx⟩
  | setPriority c prio =>
    obtain ⟨p, -, rfl⟩ := Option.map_eq_some_iff.1 hs
    have hstate := fun x => Proc.withPriority_state x (clampPriority prio)
    exact ⟨h.wf.modify p hstate fun x => Proc.withPriority_chan x (clampPriority prio),
      h.ranked.modify p hstate fun _ _ => Uni.clampPriority_range prio⟩
  | storePolicy c i policy =>
    obtain ⟨p, -, rfl⟩ := Option.map_eq_some_iff.1 hs
    split
    · exact h
    · exact ⟨h.wf, h.ranked⟩
  | timer c user =>
    obtain ⟨s1, hs1, hs⟩ := Option.bind_eq_some_iff.1 hs
    exact (countDown_end hs).sane (tick_spec h hs1).1

theorem reachable_sane {ncpu : Nat} (h : Reachable step (boot ncpu) s) : s.Sane :=
  Run.invariant Sane (boot_sane ncpu) (fun _ _ _ hs _ hstep => hs.step hstep) h

/-! ## Selection by priority -/

/-- **An iteration under policy 2 or 3 selects right**: it reads slots of the table only, it selects
a process if one is `RUNNABLE`, and what it selects is `RUNNABLE`, most urgent, and has a priority
that is an index into `PRIORITY_Q`. -/
structure SelectsRight (k : Kernel) (beyond : Proc) (alg : Nat) (last : Option Nat) (rand : Int) :
    Prop where
  reads : ∀ i ∈ k.priorityReads beyond NPROC (startIndex last) (0, none), i < NPROC
  selects : ∃ ch, k.choose beyond alg last rand = some ch ∧
    ((∃ p, (k.proc p).state = .runnable) → ch.chosen ≠ none) ∧
    ∀ i, ch.chosen = some i → ∃ p : Slot, i = p.val ∧ (k.proc p).state = .runnable ∧
      (∀ q, (k.proc q).state = .runnable → (k.proc p).priority ≤ (k.proc q).priority) ∧
      1 ≤ (k.proc p).priority ∧ (k.proc p).priority - 1 ≤ 5

theorem SelectsRight.not_last {alg : Nat} : ¬ SelectsRight k beyond alg (some 63) rand := by
  intro h
  have := h.reads NPROC (by
    rw [startIndex_last]
    exact Kernel.start_mem_priorityReads k beyond 63 NPROC (0, none))
  exact this.false

theorem policy_cases (hpol : s.schedAlg c = 2 ∨ s.schedAlg c = 3) (again : Nat) :
    s.policy c again = 2 ∨ s.policy c again = 3 := by
  rw [policy, if_pos hpol]
  split
  · exact .inr rfl
  · exact .inl rfl

/-- **Selection by priority**, on any number of CPUs: an iteration under policy 2 or 3 is right if
and only if `c->RRLastProc` is not at the last slot. -/
theorem selectsRight_iff {ncpu : Nat} (h : Reachable step (boot ncpu) s) (c : Nat)
    (hpol : s.schedAlg c = 2 ∨ s.schedAlg c = 3) (beyond : Proc) (rand : Int) (again : Nat) :
    SelectsRight s.kernel beyond (s.policy c again) (s.last c) rand ↔ s.last c ≠ some 63 := by
  have hranked := (reachable_sane h).ranked
  constructor
  · intro hright hlast
    rw [hlast] at hright
    exact SelectsRight.not_last hright
  · intro hlast
    have hstart := startIndex_lt hlast
    obtain ⟨ch, hch⟩ := Kernel.exists_choose beyond (s.policy c again) rand hranked hlast
    have hchosen := (Kernel.choose_priority (policy_cases hpol again) hch).1
    refine ⟨fun i hi => Kernel.priorityReads_lt beyond NPROC hstart hi, ch, hch, ?_⟩
    rcases Kernel.priorityScan_min beyond hranked hstart with ⟨hnone, hno⟩ | ⟨p, hp, hrun, hmin⟩
    · rw [hchosen, hnone]
      exact ⟨fun ⟨p, hp⟩ => absurd hp (hno p), nofun⟩
    · rw [hchosen, hp]
      refine ⟨fun _ => Option.some_ne_none _, fun i hi => ?_⟩
      have := hranked p (by simp [hrun])
      exact ⟨p, (Option.some.inj hi).symm, hrun, hmin, by omega, by omega⟩

/-- A process in slot 1 is chosen by the scheduler of the only CPU. -/
def childRuns : List Event :=
  [.userinit, .schedule 0 {} 0 0, .op 0 (.allocproc false), .op 0 .adopt, .op 0 .publish,
    .op 0 (.sleep 5),
    .schedule 0 {} 0 0]

/-- The process in slot 1 changes to policy 2 and is runnable. -/
theorem selectsRight_child : ∃ s, Reachable step (boot 1) s ∧ s.schedAlg 0 = 2 ∧
    (s.kernel.proc 1).state = .runnable ∧
    SelectsRight s.kernel {} (s.policy 0 2) (s.last 0) 0 := by
  obtain ⟨s, hs, htest⟩ := exists_run_of_runs step (fun _ _ => True) (boot 1)
    (childRuns ++ [.storePolicy 0 0 2, .op 0 .yield])
    (p := fun s => decide (s.schedAlg 0 = 2 ∧ s.last 0 = some 1 ∧
      (s.kernel.proc 1).state = .runnable))
    (by decide +kernel)
  obtain ⟨halg, hlast, hrun⟩ := of_decide_eq_true htest
  exact ⟨s, hs, halg, hrun, (selectsRight_iff hs 0 (.inl halg) {} 0 2).2 (by simp [hlast])⟩

/-- **The pointer at the last slot.** The process in slot 1 changes to policy 4 and sleeps; the
iterations that find nobody move the pointer on, until it is at slot 63 when the process is back and
changes to policy 2. The next iteration reads behind the table. -/
theorem last_slot : ∃ s, Reachable step (boot 1) s ∧ s.schedAlg 0 = 2 ∧
    (s.kernel.proc 1).state = .runnable ∧
    ¬ SelectsRight s.kernel {} (s.policy 0 2) (s.last 0) 0 := by
  obtain ⟨s, hs, htest⟩ := exists_run_of_runs step (fun _ _ => True) (boot 1)
    (childRuns ++ [.storePolicy 0 0 4, .op 0 (.sleep 7)] ++
      List.replicate 61 (.schedule 0 {} 0 4) ++
      [.wakeup 7, .schedule 0 {} 0 4, .op 0 .awake, .storePolicy 0 0 2, .op 0 .yield])
    (p := fun s => decide (s.schedAlg 0 = 2 ∧ s.last 0 = some 63 ∧
      (s.kernel.proc 1).state = .runnable))
    (by decide +kernel)
  obtain ⟨halg, hlast, hrun⟩ := of_decide_eq_true htest
  refine ⟨s, hs, halg, hrun, ?_⟩
  rw [hlast]
  exact SelectsRight.not_last

/-! ## The quantum -/

/-- The quantum under the policy `alg` of a process with the given priority. -/
def quantumOf (alg priority : Nat) : Option Nat :=
  match alg with
  | 0 | 2 | 4 => some 1
  | 3 => priorityQ priority
  | _ => some QUANTUM

theorem priorityQ_pos {n timeQ : Nat} (h : priorityQ n = some timeQ) : 1 ≤ timeQ := by
  unfold priorityQ at h
  split at h
  · cases h
  · have hmem := List.mem_of_getElem? h
    simp only [List.mem_cons, List.not_mem_nil, or_false] at hmem
    omega

/-- **The time an iteration gives** to the process it chooses. -/
theorem choose_timeQ {alg : Nat} {last : Option Nat} {ch : Choice}
    (h : k.choose beyond alg last rand = some ch) (hp : ch.chosen = some p.val) :
    quantumOf alg (k.proc p).priority = some ch.timeQ ∧ 1 ≤ ch.timeQ := by
  unfold Kernel.choose at h
  split at h
  · cases h
    exact ⟨rfl, le_rfl⟩
  · dsimp only at h
    split at h
    · cases h
      cases hp
    · obtain ⟨timeQ, htime, rfl⟩ := Option.map_eq_some_iff.1 h
      cases hp
      rw [Kernel.entry_val] at htime
      exact ⟨htime, priorityQ_pos htime⟩
  · cases h
    exact ⟨rfl, le_rfl⟩
  · cases h
    exact ⟨rfl, le_rfl⟩
  · rename_i h2 h3 h4 h0
    cases h
    refine ⟨?_, show 1 ≤ QUANTUM by decide⟩
    unfold quantumOf
    split
    · exact absurd rfl h0
    · exact absurd rfl h2
    · exact absurd rfl h4
    · exact absurd rfl h3
    · rfl

/-- **How a process is on CPU `c` after a step.** -/
inductive OnCpu (s : Smp) (c : Nat) (p : Slot) (s' : Smp) : Event → Prop
  /-- It was there, and the step is no timer interrupt on this CPU. -/
  | stays {e : Event} (he : ∀ user, e ≠ .timer c user) (hp : s.kernel.cpu c = some p)
      (hctr : s'.ctr c = s.ctr c) :
      OnCpu s c p s' e
  /-- The timer interrupt finds that it was killed: it is on its way to `exit`. -/
  | exits (hp : s.kernel.cpu c = some p) (hkilled : (s.kernel.proc p).killed)
      (hctr : s'.ctr c = s.ctr c) :
      OnCpu s c p s' (.timer c true)
  /-- The timer interrupt leaves it some time. -/
  | counts {user : Bool} (hp : s.kernel.cpu c = some p) (hctr : s'.ctr c = decrement (s.ctr c))
      (hne : decrement (s.ctr c) ≠ 0) : OnCpu s c p s' (.timer c user)
  /-- The scheduler has started it. -/
  | starts {beyond : Proc} {rand : Int} {again : Nat} {ch : Choice} (hidle : s.kernel.cpu c = none)
      (hch : s.kernel.choose beyond (s.policy c again) (s.last c) rand = some ch)
        (hp : ch.chosen = some p.val)
      (hctr : s'.ctr c = ch.timeQ) : OnCpu s c p s' (.schedule c beyond rand again)

/-- **Who is on a CPU after a step**, and with what time. -/
theorem step_onCpu (h : s.Sane) {e : Event} (hs : s.step e = some s')
    (hp : s'.kernel.cpu c = some p) :
    OnCpu s c p s' e := by
  cases e with
  | userinit | op | wakeup =>
    obtain ⟨k, hk, rfl⟩ := Option.map_eq_some_iff.1 hs
    exact .stays nofun (Kernel.step_cpu h.wf hk nofun hp) rfl
  | fault d | setPriority d prio =>
    obtain ⟨q, -, rfl⟩ := Option.map_eq_some_iff.1 hs
    exact .stays nofun hp rfl
  | storePolicy d i policy =>
    obtain ⟨q, -, rfl⟩ := Option.map_eq_some_iff.1 hs
    split at hp
    · rename_i hcond
      rw [if_pos hcond]
      exact .stays nofun hp rfl
    · rename_i hcond
      rw [if_neg hcond]
      exact .stays nofun hp rfl
  | schedule d beyond rand again =>
    obtain ⟨hidle, ch, hch, ⟨-, hk, hctr⟩ | ⟨q, hq, hk, hctr⟩⟩ := step_schedule hs
    · exact .stays nofun (hk ▸ hp) (by rw [hctr])
    · obtain ⟨-, heq⟩ := Kernel.step_dispatch hk
      rw [heq, Kernel.dispatch, Kernel.setCpu_cpu] at hp
      by_cases hcd : c = d
      · subst hcd
        rw [if_pos rfl] at hp
        cases hp
        exact .starts hidle hch hq (by rw [hctr, if_pos rfl])
      · rw [if_neg hcd] at hp
        exact .stays nofun hp (by rw [hctr, if_neg hcd])
  | timer d user =>
    obtain ⟨s1, hs1, hs⟩ := Option.bind_eq_some_iff.1 hs
    obtain ⟨-, hcpu, hctr, -, hkilled⟩ := tick_spec h hs1
    have hend := countDown_end hs
    by_cases hcd : c = d
    · subst hcd
      cases hend with
      | idle hidle =>
        rw [hidle] at hp
        cases hp
      | @exits q hq huser hk =>
        obtain rfl := Option.some.inj (hq.symm.trans hp)
        rw [huser]
        exact .exits (hcpu ▸ hp) (hkilled q ▸ hk) (by rw [hctr])
      | counts hq hne =>
        rw [hctr] at hne ⊢
        exact .counts (hcpu ▸ hp) (by rw [setCtr_ctr, if_pos rfl]) hne
      | yields =>
        rw [withKernel_kernel, yield_cpu, if_pos rfl] at hp
        cases hp
    · -- the interrupt of another CPU
      have hother : ∀ user', Event.timer d user ≠ .timer c user' := by
        intro user' heq
        injection heq with hdc
        exact hcd hdc.symm
      cases hend with
      | idle | exits => exact .stays hother (hcpu ▸ hp) (by rw [hctr])
      | counts => exact .stays hother (hcpu ▸ hp) (by rw [setCtr_ctr, if_neg hcd, hctr])
      | yields =>
        rw [withKernel_kernel, yield_cpu, if_neg hcd] at hp
        exact .stays hother (hcpu ▸ hp) (by rw [withKernel_ctr, setCtr_ctr, if_neg hcd, hctr])

theorem decrement_of_pos {n : Nat} (h : 1 ≤ n) : decrement n = n - 1 := if_neg (by omega)

/-- On a CPU there is some time left. -/
def Timed (s : Smp) : Prop := ∀ c p, s.kernel.cpu c = some p → 1 ≤ s.ctr c

theorem Timed.step (h : s.Sane) (ht : s.Timed) {e : Event} (hs : s.step e = some s') :
    s'.Timed := by
  intro c p hp
  cases step_onCpu h hs hp with
  | stays _ hp hctr | exits hp _ hctr => exact hctr ▸ ht c p hp
  | counts _ hctr hne => omega
  | starts _ hch hp hctr => exact hctr ▸ (choose_timeQ hch hp).2

theorem reachable_timed {ncpu : Nat} (h : Reachable step (boot ncpu) s) : s.Sane ∧ s.Timed :=
  Run.invariant (fun s => s.Sane ∧ s.Timed) ⟨boot_sane ncpu, fun _ _ hp => nomatch hp⟩
    (fun _ _ _ hs _ hstep => ⟨hs.1.step hstep, hs.2.step hs.1 hstep⟩) h

/-- The timer interrupt on CPU `c` finds that the process there was killed, and it is on its way to
`exit`. -/
def Exits (s : Smp) (c : Nat) (p : Slot) (e : Event) : Prop := e = .timer c true ∧
    (s.kernel.proc p).killed

/-- The event is a timer interrupt on CPU `c`. -/
def Event.ticks (c : Nat) : Event → Bool
  | .timer d _ => d = c
  | _ => false

/-- **The process `p` stays on CPU `c`** from `s` to `s'`, through `j` timer interrupts on that CPU:
it does not leave by itself. -/
inductive Stays (c : Nat) (p : Slot) (s : Smp) : Nat → Smp → Prop
  | refl : Stays c p s 0 s
  | next {j : Nat} {s' s'' : Smp} {e : Event} (h : Stays c p s j s') (hs : s'.step e = some s'')
      (hexit : ¬ s'.Exits c p e) (hp : s''.kernel.cpu c = some p) :
      Stays c p s (if e.ticks c then j + 1 else j) s''

theorem Stays.ctr {s₁ : Smp} {j : Nat} (hst : Stays c p s₁ j s') (h : s₁.Sane) (ht : s₁.Timed)
    (hp : s₁.kernel.cpu c = some p) :
    s'.Sane ∧ s'.Timed ∧ s'.kernel.cpu c = some p ∧ s'.ctr c + j = s₁.ctr c := by
  induction hst with
  | refl => exact ⟨h, ht, hp, rfl⟩
  | @next j s' s'' e _ hs hexit hp' ih =>
    obtain ⟨hsane, htimed, hon, hctr⟩ := ih
    refine ⟨hsane.step hs, htimed.step hsane hs, hp', ?_⟩
    have hpos := htimed c p hon
    cases step_onCpu hsane hs hp' with
    | stays he _ heq =>
      have hticks : e.ticks c = false := by
        cases e with
        | timer d user =>
          refine decide_eq_false fun hdc => he user ?_
          rw [hdc]
        | _ => rfl
      rw [hticks, heq]
      exact hctr
    | exits _ hkilled => exact absurd ⟨rfl, hkilled⟩ hexit
    | @counts user _ heq hne =>
      have hticks : (Event.timer c user).ticks c = true := decide_eq_true rfl
      rw [hticks, heq, if_pos rfl, decrement_of_pos hpos]
      omega
    | starts hidle =>
      rw [hidle] at hon
      cases hon

theorem exists_tick (h : s.kernel.lockLost = false) (c : Nat) : ∃ s', s.tick c = some s' := by
  unfold tick
  split
  · simp [Kernel.step, h]
  · exact ⟨s, rfl⟩

/-- **The next timer interrupt** of a process that is not on its way to `exit`. -/
theorem timer_spec (h : s.Sane) (ht : s.Timed) (hp : s.kernel.cpu c = some p)
    (hexit : ¬ s.Exits c p (.timer c user)) :
    (∀ s', s.step (.timer c user) = some s' →
      if s.ctr c = 1 then s'.kernel.cpu c = none ∧ (s'.kernel.proc p).state = .runnable
      else s'.kernel.cpu c = some p) ∧
      (s.kernel.lockLost = false → ∃ s', s.step (.timer c user) = some s') := by
  have hpos := ht c p hp
  have hnot : ∀ s1, s.tick c = some s1 → ¬ (user ∧ (s1.kernel.proc p).killed) := by
    rintro s1 hs1 ⟨huser, hkilled⟩
    rw [(tick_spec h hs1).2.2.2.2] at hkilled
    exact hexit ⟨by rw [huser], hkilled⟩
  constructor
  · intro s' hs
    obtain ⟨s1, hs1, hs⟩ := Option.bind_eq_some_iff.1 hs
    obtain ⟨-, hcpu, hctr, -, -⟩ := tick_spec h hs1
    have hp1 : s1.kernel.cpu c = some p := hcpu ▸ hp
    rw [countDown_eq hp1, if_neg (hnot s1 hs1), hctr, decrement_of_pos hpos] at hs
    by_cases hone : s.ctr c = 1
    · rw [if_pos (by omega)] at hs
      split at hs
      · cases hs
      · cases hs
        rw [if_pos hone]
        simp [Kernel.yield, Kernel.sched]
    · rw [if_neg (by omega)] at hs
      cases hs
      rw [if_neg hone]
      exact hp1
  · intro hlock
    obtain ⟨s1, hs1⟩ := exists_tick hlock c
    obtain ⟨-, hcpu, hctr, hlock1, -⟩ := tick_spec h hs1
    have hp1 : s1.kernel.cpu c = some p := hcpu ▸ hp
    simp only [step, hs1, Option.bind_some, countDown_eq hp1, if_neg (hnot s1 hs1), hlock1, hlock]
    split
    · exact ⟨_, rfl⟩
    · exact ⟨_, rfl⟩

/-- **Quantum accounting**, on any number of CPUs. Whoever is on a CPU has at least one tick left.
And a process that an iteration has started with the quantum of its policy, and that does not leave
the CPU by itself, is taken off by `yield` at exactly the timer interrupt at which the quantum is
used up; that interrupt can be taken unless `thread_join` has lost `ptable.lock`. -/
theorem quantum_accounting {ncpu : Nat} (h : Reachable step (boot ncpu) s) :
    (∀ c p, s.kernel.cpu c = some p → 1 ≤ s.ctr c) ∧
      ∀ c beyond rand again s₁ p, s.step (.schedule c beyond rand again) = some s₁ →
          s₁.kernel.cpu c = some p →
        ∃ timeQ, quantumOf (s.policy c again) (s.kernel.proc p).priority = some timeQ ∧
          ∀ j s₂, Stays c p s₁ j s₂ → j < timeQ ∧ s₂.ctr c = timeQ - j ∧
            ∀ user, ¬ s₂.Exits c p (.timer c user) →
              (∀ s₃, s₂.step (.timer c user) = some s₃ →
                if j + 1 = timeQ then s₃.kernel.cpu c = none ∧ (s₃.kernel.proc p).state = .runnable
                else s₃.kernel.cpu c = some p) ∧
              (s₂.kernel.lockLost = false → ∃ s₃, s₂.step (.timer c user) = some s₃) := by
  obtain ⟨hsane, htimed⟩ := reachable_timed h
  refine ⟨htimed, fun c beyond rand again s₁ p hs hp => ?_⟩
  have hidle := (step_schedule hs).1
  cases step_onCpu hsane hs hp with
  | stays _ hp' =>
    rw [hidle] at hp'
    cases hp'
  | starts _ hch hchosen hctr =>
    refine ⟨_, (choose_timeQ hch hchosen).1, fun j s₂ hst => ?_⟩
    obtain ⟨hsane2, htimed2, hp2, hsum⟩ := hst.ctr (hsane.step hs) (htimed.step hsane hs) hp
    have hpos := htimed2 c p hp2
    rw [hctr] at hsum
    refine ⟨by omega, by omega, fun user hexit => ?_⟩
    obtain ⟨hnext, hexists⟩ := timer_spec hsane2 htimed2 hp2 hexit
    refine ⟨fun s₃ hs3 => ?_, hexists⟩
    have hlast := hnext s₃ hs3
    by_cases hj : s₂.ctr c = 1
    · rw [if_pos hj] at hlast
      rwa [if_pos (by omega)]
    · rw [if_neg hj] at hlast
      rwa [if_neg (by omega)]

instance (s : Smp) (c : Nat) (p : Slot) (e : Event) : Decidable (s.Exits c p e) :=
  inferInstanceAs (Decidable (_ ∧ _))

/-- The event leaves the process `p` on CPU `c`. -/
def KeepsOn (c : Nat) (p : Slot) (s : Smp) (e : Event) : Prop :=
  ¬ s.Exits c p e ∧ ∀ s' ∈ s.step e, s'.kernel.cpu c = some p

instance (c : Nat) (p : Slot) (s : Smp) (e : Event) : Decidable (KeepsOn c p s e) :=
  inferInstanceAs (Decidable (_ ∧ _))

theorem stays_of_run (h : Run step (KeepsOn c p) s s') : ∃ j, Stays c p s j s' := by
  induction h with
  | refl => exact ⟨0, .refl⟩
  | next e _ hkeeps hs ih =>
    obtain ⟨j, hst⟩ := ih
    exact ⟨_, hst.next hs hkeeps.1 (hkeeps.2 _ hs)⟩

/-- Under policy 1 the process in slot 1 is interrupted nine times, and the tenth interrupt takes it
off. -/
theorem quantum_accounting_robin : ∃ s s₁ s₂ s₃, Reachable step (boot 1) s ∧
    s.step (.schedule 0 {} 0 1) = some s₁ ∧ Stays 0 1 s₁ 9 s₂ ∧ s₂.step (.timer 0 true) = some s₃ ∧
      s₃.kernel.cpu 0 = none := by
  obtain ⟨s, hs, htest⟩ := exists_run_of_runs step (fun _ _ => True) (boot 1)
    (childRuns ++ [.storePolicy 0 0 1, .op 0 .yield, .schedule 0 {} 0 1])
    (p := fun s => decide (s.policy 0 1 = 1) && ((s.step (.schedule 0 {} 0 1)).bind fun s₁ =>
      (runs step (KeepsOn 0 1) s₁ (List.replicate 9 (.timer 0 true))).map fun s₂ =>
        decide (s₁.kernel.cpu 0 = some 1 ∧ s₂.ctr 0 = 1 ∧ ¬ s₂.Exits 0 1 (.timer 0 true) ∧
          s₂.kernel.lockLost = false)) = some true)
    (by decide +kernel)
  obtain ⟨hpol, hstep⟩ := Bool.and_eq_true_iff.1 htest
  obtain ⟨s1, hs1, hrest⟩ := Option.bind_eq_some_iff.1 (of_decide_eq_true hstep)
  obtain ⟨s2, hruns, hend⟩ := Option.map_eq_some_iff.1 hrest
  obtain ⟨hcpu, hctr, hexit, hlock⟩ := of_decide_eq_true hend
  obtain ⟨timeQ, hquantum, hstays⟩ := (quantum_accounting hs).2 0 {} 0 1 s1 1 hs1 hcpu
  rw [of_decide_eq_true hpol] at hquantum
  obtain rfl : QUANTUM = timeQ := Option.some.inj hquantum
  obtain ⟨j, hst⟩ := stays_of_run (run_of_runs .refl hruns)
  obtain ⟨hlt, hleft, hlast⟩ := hstays j s2 hst
  obtain rfl : j = 9 := by
    rw [hctr] at hleft
    unfold QUANTUM at hlt hleft
    omega
  obtain ⟨hoff, hexists⟩ := hlast true hexit
  obtain ⟨s3, hs3⟩ := hexists hlock
  exact ⟨s, s1, s2, s3, hs, hs1, hst, hs3, (hoff s3 hs3).1⟩

end Smp

end Xv6
