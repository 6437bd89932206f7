import Mathlib.Combinatorics.Enumerative.DoubleCounting
import Mathlib.Data.Nat.Count
import Mathlib.Order.Interval.Finset.Nat
import Xv6.Processes.Invariant

/-! # Process times

`lastChangeTime` is overwritten at almost every change of state, and only some of the changes
charge the interval that ends there. An observer that writes down the state of every process at
every timer interrupt shows that each tick of a process's life up to `lastChangeTime` is charged
exactly once, to the state the process was in.

* `process_time` — the conservation law, and `CBT + WT ≤ TT` for the reported times;
* `burst_le_cpu_time` — the processes are charged no more time than the CPUs have. -/

namespace Xv6

open Foundation

/-! ## The observer -/

/-- A kernel, the number `now` of timer interrupts so far, and the state `seen p i` of the process
in slot `p` at the interrupt number `i`. -/
structure Timed where
  kernel : Kernel
  now : Nat
  seen : Slot → Nat → ProcState

namespace Timed

/-- The observed kernel at boot. -/
def boot (ncpu : Nat) : Timed where
  kernel := Xv6.boot ncpu
  now := 0
  seen := fun _ _ => .unused

/-- At a timer interrupt the observer writes down the state of every process. -/
def observe (t : Timed) : Event → Kernel → Timed
  | .tick, k =>
    { kernel := k
      now := t.now + 1
      seen := fun p i => if i = t.now then (t.kernel.proc p).state else t.seen p i }
  | .userinit, k | .wakeup _, k | .dispatch _ _, k | .call _ _, k => { t with kernel := k }

/-- One step of the observed kernel. -/
def step (t : Timed) (e : Event) : Option Timed :=
  (t.kernel.step e).map (t.observe e)

/-- Observed runs. -/
abbrev Reachable (ncpu : Nat) (t : Timed) : Prop :=
  Foundation.Reachable step (boot ncpu) t

end Timed

/-! ## Ticks spent in a state -/

/-- The number of the interrupts from `a` to `b` that found the process in state `s`. -/
def spent (seen : Nat → ProcState) (s : ProcState) (a b : Nat) : Nat :=
  ((Finset.Ico a b).filter fun i => seen i = s).card

theorem spent_self (seen : Nat → ProcState) (s : ProcState) (a : Nat) : spent seen s a a = 0 := by
  simp [spent]

variable {a b : Nat} {seen : Nat → ProcState}

theorem spent_add (seen : Nat → ProcState) (s : ProcState) {c : Nat} (hab : a ≤ b) (hbc : b ≤ c) :
    spent seen s a c = spent seen s a b + spent seen s b c := by
  rw [spent, spent, spent, ← Finset.Ico_union_Ico_eq_Ico hab hbc, Finset.filter_union,
    Finset.card_union_of_disjoint]
  exact Finset.disjoint_filter_filter (Finset.Ico_disjoint_Ico_consecutive a b c)

theorem spent_const {s : ProcState} (h : ∀ i, a ≤ i → i < b → seen i = s) (s' : ProcState) :
    spent seen s' a b = if s' = s then b - a else 0 := by
  unfold spent
  split
  · subst s'
    rw [Finset.filter_true_of_mem, Nat.card_Ico]
    intro i hi
    exact h i (Finset.mem_Ico.1 hi).1 (Finset.mem_Ico.1 hi).2
  · rename_i hne
    rw [Finset.card_eq_zero, Finset.filter_eq_empty_iff]
    intro i hi hs
    exact hne (hs ▸ h i (Finset.mem_Ico.1 hi).1 (Finset.mem_Ico.1 hi).2)

theorem spent_congr {seen' : Nat → ProcState} {s : ProcState} (h : ∀ i, i < b → seen' i = seen i) :
    spent seen' s a b = spent seen s a b := by
  unfold spent
  congr 1
  refine Finset.filter_congr fun i hi => ?_
  rw [h i (Finset.mem_Ico.1 hi).2]

theorem spent_active (hab : a ≤ b) (h : ∀ i, a ≤ i → i < b → seen i ≠ .zombie ∧ seen i ≠ .unused) :
    spent seen .running a b + spent seen .runnable a b
      + (spent seen .sleeping a b + spent seen .embryo a b) = b - a := by
  induction b, hab using Nat.le_induction with
  | base => simp [spent_self]
  | succ b hab ih =>
    have hone := fun s => spent_const (a := b) (b := b + 1) (s := seen b)
      (fun i h1 h2 => by rw [show i = b by omega]) s
    have hb := h b hab (by omega)
    have ih := ih fun i h1 h2 => h i h1 (by omega)
    simp only [spent_add seen _ hab (Nat.le_succ b), hone]
    cases hs : seen b <;> simp_all <;> omega

/-! ## Clocks that agree with the observer -/

/-- The clock `x` of a process in use is what the observer saw of it by the time `now`. -/
structure Clock.Exact (x : Clock) (seen : Nat → ProcState) (now : Nat) : Prop where
  created : x.creationTime ≤ x.lastChangeTime
  changed : x.lastChangeTime ≤ now
  cbt : x.totalCBT = spent seen .running x.creationTime x.lastChangeTime
  wait : x.totalWaitTime = spent seen .runnable x.creationTime x.lastChangeTime
  active : ∀ i, x.creationTime ≤ i → i < x.lastChangeTime →
    seen i ≠ .zombie ∧ seen i ≠ .unused
  since : ∀ i, x.lastChangeTime ≤ i → i < now → seen i = x.state

section

variable {x y : Clock} {seen : Nat → ProcState} {now : Nat}

theorem Clock.Exact.readied (h : x.Exact seen now) (hs : x.state = .embryo ∨ x.state = .sleeping) :
    (x.readied now).Exact seen now := by
  have hsince := fun s => spent_const h.since s
  refine ⟨h.created.trans h.changed, le_rfl, ?_, ?_, fun i h1 h2 => ?_, fun i h1 h2 => ?_⟩
  · simp only [Clock.readied]
    rw [spent_add seen _ h.created h.changed, hsince, ← h.cbt]
    rcases hs with hs | hs <;> simp [hs]
  · simp only [Clock.readied]
    rw [spent_add seen _ h.created h.changed, hsince, ← h.wait]
    rcases hs with hs | hs <;> simp [hs]
  · by_cases hi : i < x.lastChangeTime
    · exact h.active i h1 hi
    · rw [h.since i (by omega) h2]
      rcases hs with hs | hs <;> simp [hs]
  · simp only [Clock.readied] at h1
    omega

theorem Clock.Exact.charged (h : x.Exact seen now) (hs : x.state = .running)
    (hnow : now < 2 ^ 32) (s : ProcState) : (x.charged now s).Exact seen now := by
  have hsince := fun s => spent_const h.since s
  have hle := h.created
  have hle' := h.changed
  have htotal := spent_active h.created h.active
  refine ⟨h.created.trans h.changed, le_rfl, ?_, ?_, fun i h1 h2 => ?_, fun i h1 h2 => ?_⟩
  · simp only [Clock.charged]
    rw [spent_add seen _ h.created h.changed, hsince, ← h.cbt, if_pos hs.symm]
    exact uint32_eq (by omega) (by have := h.cbt; omega)
  · simp only [Clock.charged]
    rw [spent_add seen _ h.created h.changed, hsince, ← h.wait]
    simp [hs]
  · by_cases hi : i < x.lastChangeTime
    · exact h.active i h1 hi
    · rw [h.since i (by omega) h2]
      simp [hs]
  · simp only [Clock.charged] at h1
    omega

theorem Clock.Exact.dispatched (h : x.Exact seen now) (hs : x.state = .runnable)
    (hnow : now < 2 ^ 32) : (x.dispatched now).Exact seen now := by
  have hsince := fun s => spent_const h.since s
  have hle := h.created
  have hle' := h.changed
  have htotal := spent_active h.created h.active
  refine ⟨h.created.trans h.changed, le_rfl, ?_, ?_, fun i h1 h2 => ?_, fun i h1 h2 => ?_⟩
  · simp only [Clock.dispatched]
    rw [spent_add seen _ h.created h.changed, hsince, ← h.cbt]
    simp [hs]
  · simp only [Clock.dispatched]
    rw [spent_add seen _ h.created h.changed, hsince, ← h.wait, if_pos hs.symm]
    exact uint32_eq (by omega) (by have := h.wait; omega)
  · by_cases hi : i < x.lastChangeTime
    · exact h.active i h1 hi
    · rw [h.since i (by omega) h2]
      simp [hs]
  · simp only [Clock.dispatched] at h1
    omega

theorem Clock.exact_create (seen : Nat → ProcState) (now : Nat) :
    Clock.Exact ⟨.embryo, now, now, 0, 0⟩ seen now := by
  refine ⟨le_rfl, le_rfl, ?_, ?_, fun i h1 h2 => ?_, fun i h1 h2 => ?_⟩
  · exact (spent_self seen _ now).symm
  · exact (spent_self seen _ now).symm
  · simp only at h1 h2; omega
  · simp only at h1 h2; omega

/-- **Every move along the life cycle keeps the clock exact.** -/
theorem Clock.Move.exact {own : Prop} (hm : Clock.Move now own x y) (hnow : now < 2 ^ 32)
    (hx : x.state ≠ .unused → x.Exact seen now) (hy : y.state ≠ .unused) : y.Exact seen now := by
  cases hm with
  | stay => exact hx hy
  | create _ => exact Clock.exact_create seen now
  | abandon _ | clear _ => exact absurd rfl hy
  | ready h =>
    refine (hx ?_).readied h
    rcases h with h | h <;> simp [h]
  | charge _ h hs => exact (hx (by simp [h])).charged h hnow _

theorem Clock.Exact.tick (h : x.Exact seen now) :
    x.Exact (fun i => if i = now then x.state else seen i) (now + 1) := by
  have hsame : ∀ i, i < x.lastChangeTime → (if i = now then x.state else seen i) = seen i := by
    intro i hi
    rw [if_neg]
    have := h.changed
    omega
  refine ⟨h.created, h.changed.trans (Nat.le_succ now), ?_, ?_, fun i h1 h2 => ?_,
    fun i h1 h2 => ?_⟩
  · rw [spent_congr hsame, h.cbt]
  · rw [spent_congr hsame, h.wait]
  · rw [hsame i h2]
    exact h.active i h1 h2
  · split
    · rfl
    · exact h.since i h1 (by omega)

end

/-! ## Observed runs -/

namespace Timed

/-- While the tick counter has not wrapped, it is right and every clock is exact. -/
def Exact (t : Timed) : Prop :=
  t.now < 2 ^ 32 → t.kernel.ticks = t.now ∧
    ∀ p, (t.kernel.proc p).state ≠ .unused → (t.kernel.proc p).clock.Exact (t.seen p) t.now

variable {t t' : Timed}

theorem exact_of_clock {k : Kernel} (h : t.Exact) (hticks : k.ticks = t.kernel.ticks)
    (hclock : t.now < 2 ^ 32 → t.kernel.ticks = t.now →
      ∀ p, ((t.kernel.proc p).state ≠ .unused →
          (t.kernel.proc p).clock.Exact (t.seen p) t.now) →
        (k.proc p).state ≠ .unused → (k.proc p).clock.Exact (t.seen p) t.now) :
    Exact { t with kernel := k } := by
  intro hnow
  obtain ⟨ht, hx⟩ := h hnow
  exact ⟨hticks.trans ht, fun p => hclock hnow ht p (hx p)⟩

theorem step_exact {e : Event} (hk : t.kernel.Wf) (h : t.Exact) (hs : t.step e = some t') :
    t'.Exact := by
  rw [step, Option.map_eq_some_iff] at hs
  obtain ⟨k, hstep, rfl⟩ := hs
  cases e with
  | userinit =>
    obtain ⟨p, -, hun, rfl⟩ := Kernel.step_userinit hk hstep
    refine exact_of_clock h rfl fun hnow ht q hx hq => ?_
    by_cases hqp : q = p
    · have hready := (Clock.exact_create (t.seen q) t.now).readied (.inl rfl)
      simpa [hqp, Kernel.ready, ht] using hqp ▸ hready
    · simp [hqp, Kernel.ready, hun] at hq
  | tick =>
    cases hstep
    intro hnow
    simp only [observe] at hnow ⊢
    obtain ⟨ht, hx⟩ := h (by omega)
    refine ⟨?_, fun p hp => (hx p hp).tick⟩
    rw [ht]
    exact uint32_eq (by omega) hnow
  | wakeup addr =>
    rw [Kernel.step_wakeup hstep]
    refine exact_of_clock h (t.kernel.wakeup1_globals _).1.ticks fun hnow ht q hx hq => ?_
    rw [Kernel.wakeup1_proc] at hq ⊢
    by_cases hsleep : (t.kernel.proc q).state = .sleeping ∧
        (t.kernel.proc q).chan = some (.obj addr)
    · rw [if_pos hsleep, Proc.clock_readied, ht]
      exact (hx (by simp [hsleep.1])).readied (.inr hsleep.1)
    · rw [if_neg hsleep] at hq ⊢
      exact hx hq
  | dispatch c p =>
    obtain ⟨⟨-, -, hp⟩, rfl⟩ := Kernel.step_dispatch hstep
    refine exact_of_clock h rfl fun hnow ht q hx hq => ?_
    by_cases hqp : q = p
    · subst hqp
      have hrun := (hx (by simp [hp])).dispatched hp hnow
      simpa [Kernel.dispatch, ht, Proc.clock_dispatched] using hrun
    · simpa [Kernel.dispatch, hqp] using hx (by simpa [Kernel.dispatch, hqp] using hq)
  | call c o =>
    obtain ⟨cur, hcur, heff⟩ := Kernel.step_call hk hstep
    refine exact_of_clock h heff.globals.2.2 fun hnow ht q hx hq => ?_
    have hmove := heff.move hk hcur q
    rw [ht] at hmove
    exact hmove.exact hnow hx hq

theorem reachable_exact {ncpu : Nat} (h : Reachable ncpu t) : t.kernel.Wf ∧ t.Exact := by
  refine Run.invariant (fun t => t.kernel.Wf ∧ t.Exact) ⟨Kernel.boot_wf ncpu, ?_⟩ ?_ h
  · intro _
    exact ⟨rfl, fun p hp => absurd rfl hp⟩
  · rintro t e t' ⟨hk, hx⟩ - hs
    refine ⟨?_, step_exact hk hx hs⟩
    rw [step, Option.map_eq_some_iff] at hs
    obtain ⟨k, hstep, rfl⟩ := hs
    have hkernel : (t.observe e k).kernel = k := by cases e <;> rfl
    rw [hkernel]
    exact Kernel.step_wf hk hstep

theorem running_card_le {k : Kernel} (hk : k.Wf) :
    (Finset.univ.filter fun p => (k.proc p).state = .running).card ≤ k.ncpu := by
  have hsub : (Finset.univ.filter fun p => (k.proc p).state = .running).image some ⊆
      (Finset.range k.ncpu).image k.cpu := by
    intro x hx
    obtain ⟨p, hp, rfl⟩ := Finset.mem_image.1 hx
    obtain ⟨c, hc⟩ := hk.running p (Finset.mem_filter.1 hp).2
    exact Finset.mem_image.2 ⟨c, Finset.mem_range.2 (hk.onCpu c p hc).2, hc⟩
  rw [← Finset.card_image_of_injective _ (Option.some_injective _)]
  exact (Finset.card_le_card hsub).trans (Finset.card_image_le.trans (Finset.card_range _).le)

/-- The number of processes that the interrupt number `i` found `RUNNING`. -/
def busy (t : Timed) (i : Nat) : Nat := (Finset.univ.filter fun p => t.seen p i = .running).card

theorem reachable_busy_le {ncpu : Nat} (h : Reachable ncpu t) (i : Nat) : t.busy i ≤ ncpu := by
  refine (Run.invariant (fun t => t.kernel.Wf ∧ t.kernel.ncpu = ncpu ∧ ∀ i, t.busy i ≤ ncpu)
    ⟨Kernel.boot_wf ncpu, rfl, by simp [busy, boot]⟩ ?_ h).2.2 i
  rintro t e t' ⟨hk, hn, hseen⟩ - hs
  rw [step, Option.map_eq_some_iff] at hs
  obtain ⟨k, hstep, rfl⟩ := hs
  have hkernel : (t.observe e k).kernel = k := by cases e <;> rfl
  rw [hkernel]
  refine ⟨Kernel.step_wf hk hstep, (Kernel.step_ncpu hk hstep).trans hn, fun i => ?_⟩
  cases e with
  | tick =>
    simp only [busy, observe]
    split
    · exact hn ▸ running_card_le hk
    · exact hseen i
  | _ => exact hseen i

end Timed

theorem Clock.Exact.burst_add_wait_le {x : Clock} {seen : Nat → ProcState} {now : Nat}
    (h : x.Exact seen now) : x.totalCBT + x.totalWaitTime ≤ x.lastChangeTime - x.creationTime := by
  have htotal := spent_active h.created h.active
  rw [h.cbt, h.wait]
  omega

/-- **Conservation of process time.** In every observed run, while `ticks` has not wrapped: for
every process from its `allocproc` to its reaping, `totalCBT` is the time it was seen `RUNNING` and
`totalWaitTime` the time it was seen `RUNNABLE` up to `lastChangeTime`, and with the time seen
`SLEEPING` or `EMBRYO` they make up the time since its creation. Hence the times reported by
`diagwait` and by `get_proc_times` satisfy `CBT + WT ≤ TT`. -/
theorem process_time {ncpu : Nat} {t : Timed} (h : t.Reachable ncpu) (hnow : t.now < 2 ^ 32) :
    (∀ p, (t.kernel.proc p).state ≠ .unused →
      let x := t.kernel.proc p
      x.creationTime ≤ x.lastChangeTime ∧
        x.totalCBT = spent (t.seen p) .running x.creationTime x.lastChangeTime ∧
        x.totalWaitTime = spent (t.seen p) .runnable x.creationTime x.lastChangeTime ∧
        x.totalCBT + x.totalWaitTime
            + (spent (t.seen p) .sleeping x.creationTime x.lastChangeTime
              + spent (t.seen p) .embryo x.creationTime x.lastChangeTime)
          = x.lastChangeTime - x.creationTime) ∧
      (∀ cur times, t.kernel.diagwaitTimes cur = some times →
        times.CBT + times.WT ≤ times.TT) ∧
      ∀ c p, t.kernel.cpu c = some p →
        (t.kernel.reportedTimes p).CBT + (t.kernel.reportedTimes p).WT
          ≤ (t.kernel.reportedTimes p).TT := by
  obtain ⟨hwf, hexact⟩ := Timed.reachable_exact h
  obtain ⟨hticks, hclock⟩ := hexact hnow
  refine ⟨fun p hp => ?_, fun cur times htimes => ?_, fun c p hp => ?_⟩
  · have hx := hclock p hp
    have htotal := spent_active hx.created hx.active
    refine ⟨hx.created, hx.cbt, hx.wait, ?_⟩
    have hcbt := hx.cbt
    have hwait := hx.wait
    simp only [Proc.clock] at hcbt hwait htotal
    rw [hcbt, hwait]
    exact htotal
  · unfold Kernel.diagwaitTimes at htimes
    split at htimes
    · rename_i p hscan
      obtain ⟨-, hz⟩ := Kernel.waitScan_found hscan
      cases htimes
      have hx := hclock p (by simp [hz])
      have hle := hx.burst_add_wait_le
      have hc := hx.created
      have hl := hx.changed
      simp only [Proc.clock] at hle hc hl
      simp only [Proc.procTimes]
      rw [uint32_eq (n := (t.kernel.proc p).lastChangeTime - (t.kernel.proc p).creationTime)
        (by omega) (by omega)]
      exact hle
    · cases htimes
    · cases htimes
  · have hrun := (hwf.onCpu c p hp).1
    have hx := (hclock p (by simp [hrun])).charged hrun hnow .running
    have hle := hx.burst_add_wait_le
    have hc := hx.created
    simp only [Clock.charged, Proc.clock] at hle hc
    simp only [Kernel.reportedTimes, Proc.charged, hticks]
    rw [uint32_eq (z := (t.now : Int) - (t.kernel.proc p).creationTime)
      (n := t.now - (t.kernel.proc p).creationTime) (by omega) (by omega)]
    exact hle

/-- The first process waits for one tick, runs for two, and is taken off its CPU. -/
theorem process_time_two_ticks :
    ∃ t : Timed, t.Reachable 1 ∧ t.now < 2 ^ 32 ∧ (t.kernel.proc 0).totalCBT = 2 ∧
      (t.kernel.proc 0).totalCBT = spent (t.seen 0) .running (t.kernel.proc 0).creationTime
        (t.kernel.proc 0).lastChangeTime := by
  obtain ⟨t, hrun, ht⟩ := exists_run_of_runs Timed.step (fun _ _ => True) (Timed.boot 1)
    [.userinit, .tick, .dispatch 0 0, .tick, .tick, .call 0 .yield, .tick]
    (p := fun t => decide (t.now < 2 ^ 32 ∧ (t.kernel.proc 0).state ≠ .unused ∧
      (t.kernel.proc 0).totalCBT = 2)) (by decide +kernel)
  obtain ⟨hnow, hused, hcbt⟩ := of_decide_eq_true ht
  exact ⟨t, hrun, hnow, hcbt, ((process_time hrun hnow).1 0 hused).2.1⟩

/-- **CPU time is not created.** While `ticks` has not wrapped, the processes in use have been
charged no more burst time altogether than the CPUs have had since boot. -/
theorem burst_le_cpu_time {ncpu : Nat} {t : Timed} (h : t.Reachable ncpu) (hnow : t.now < 2 ^ 32) :
    ∑ p with (t.kernel.proc p).state ≠ .unused, (t.kernel.proc p).totalCBT ≤ t.now * ncpu := by
  have hclock := ((Timed.reachable_exact h).2 hnow).2
  calc ∑ p with (t.kernel.proc p).state ≠ .unused, (t.kernel.proc p).totalCBT
      ≤ ∑ p with (t.kernel.proc p).state ≠ .unused, spent (t.seen p) .running 0 t.now := by
        refine Finset.sum_le_sum fun p hp => ?_
        have hx := hclock p (Finset.mem_filter.1 hp).2
        refine hx.cbt.le.trans (Finset.card_le_card (Finset.filter_subset_filter _ ?_))
        exact Finset.Ico_subset_Ico (Nat.zero_le _) hx.changed
    _ ≤ ∑ p, spent (t.seen p) .running 0 t.now := Finset.sum_le_sum_of_subset
      (Finset.filter_subset _ _)
    _ = ∑ i ∈ Finset.Ico 0 t.now, t.busy i :=
        Finset.sum_card_bipartiteAbove_eq_sum_card_bipartiteBelow fun p i => t.seen p i = .running
    _ ≤ t.now * ncpu := by
        simpa using Finset.sum_le_card_nsmul (Finset.Ico 0 t.now) _ ncpu fun i _ =>
          Timed.reachable_busy_le h i

/-- One CPU has run a process for two of four ticks. -/
theorem burst_le_cpu_time_four : ∃ t : Timed, t.Reachable 1 ∧ t.now = 4 ∧
    ∑ p with (t.kernel.proc p).state ≠ .unused, (t.kernel.proc p).totalCBT ≤ 4 := by
  obtain ⟨t, hrun, ht⟩ := exists_run_of_runs Timed.step (fun _ _ => True) (Timed.boot 1)
    [.userinit, .tick, .dispatch 0 0, .tick, .tick, .call 0 .yield, .tick] (fun t => t.now == 4)
      (by decide +kernel)
  have hnow : t.now = 4 := eq_of_beq ht
  exact ⟨t, hrun, hnow, (burst_le_cpu_time hrun (by omega)).trans (by omega)⟩

end Xv6
