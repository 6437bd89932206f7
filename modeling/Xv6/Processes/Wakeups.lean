import Xv6.Processes.Family

/-! # Lost wakeups

A process that sleeps in `diagwait` or `thread_join` relies on `exit` to wake it. The loop of
`exit` hands the caller's children to `init` in one branch and wakes relatives in the other, so
that a child which is joining its exiting creator is not woken. And since `userinit` leaves
`first_pid` at zero, a thread of the first group can mistake a slot that is not in use, or not yet
filled in, for the thread it joins.

* `no_lost_wakeup` — in every run in which neither happens, a process asleep in `diagwait` has no
  zombie to collect and one asleep in `thread_join` has a target that has not exited;
* `wakeup_lost` — and a run in which a wakeup is lost. -/

namespace Xv6

open Foundation

namespace Forest

/-- The slot `q` holds no process, or one that has not been placed in the family. -/
def Blank (f : Forest) (q : Slot) : Prop :=
  (f.kin q).phase = .free ∨ ∃ r, f.birth r = some (q, false)

/-- No zombie waits for `p` to collect it with `diagwait`. -/
def NothingToCollect (f : Forest) (p : Slot) : Prop :=
  ∀ z, (f.kin z).phase = .zombie → (f.kin z).pid = (f.kin z).firstPid →
    (f.kin z).parent ≠ some p

/-- The group of `p` has a process `tid` that has not exited. -/
def TargetRemains (f : Forest) (p : Slot) (tid : Int) : Prop :=
  ∃ q, ¬ f.Blank q ∧ (f.kin q).phase ≠ .zombie ∧ (f.kin q).firstPid = (f.kin p).firstPid ∧
    (f.kin q).pid = tid

section

variable {f f' : Forest} {p : Slot}

theorem NothingToCollect.setKin (h : f.NothingToCollect p) {r : Slot} {x : Kin}
    (hx : x.phase ≠ .zombie) : (f.setKin r x).NothingToCollect p := by
  intro z hz
  have hzr : z ≠ r := by rintro rfl; simp [hx] at hz
  simpa [hzr] using h z (by simpa [hzr] using hz)

/-- **Only an exit gives `diagwait` something to collect.** -/
theorem Step.nothingToCollect (h : f.Step none f') (hok : f.Ok)
    (hp : f.NothingToCollect p) : f'.NothingToCollect p := by
  generalize hl : (none : Option Slot) = l at h
  cases h with
  | stay => exact hp
  | boot q hinit => exact hp.setKin (r := q) (x := (f.kin q).named .live f.nextpid) (by simp)
  | create cur np =>
    exact hp.setKin (r := np) (x := (f.kin np).named .embryo f.nextpid) (by simp)
  | abandon cur np => exact hp.setKin (r := np) (x := (f.kin np).withPhase .free) (by simp)
  | adopt cur np firstPid hb =>
    exact hp.setKin (r := np) (x := (f.kin np).adopted firstPid cur)
      (by simp [(hok.born cur np _ hb).1])
  | publish cur np => exact hp.setKin (r := np) (x := (f.kin np).withPhase .live) (by simp)
  | exit => cases hl
  | reap z => exact hp.setKin (by simp)

theorem TargetRemains.mono {tid : Int} (h : f.TargetRemains p tid)
    (hp : (f'.kin p).firstPid = (f.kin p).firstPid)
    (hq : ∀ q, ¬ f.Blank q → (f.kin q).phase ≠ .zombie → ¬ f'.Blank q ∧
      (f'.kin q).phase ≠ .zombie ∧ (f'.kin q).firstPid = (f.kin q).firstPid ∧
      (f'.kin q).pid = (f.kin q).pid) : f'.TargetRemains p tid := by
  obtain ⟨q, hb, hz, hgroup, hpid⟩ := h
  obtain ⟨hb', hz', hgroup', hpid'⟩ := hq q hb hz
  exact ⟨q, hb', hz', by rw [hgroup', hgroup, hp], by rw [hpid', hpid]⟩

theorem TargetRemains.change {tid : Int} (h : f.TargetRemains p tid) (cur np : Slot)
    (hkin : ∀ q ≠ np, f'.kin q = f.kin q) (hbirth : ∀ r ≠ cur, f'.birth r = f.birth r)
    (hcur : ∀ q ≠ np, f'.birth cur = some (q, false) → f.birth cur = some (q, false))
    (hp : p ≠ np) (hnp : f.Blank np ∨ (f.kin np).phase = .zombie) : f'.TargetRemains p tid := by
  refine h.mono (by rw [hkin p hp]) fun q hb hz => ?_
  have hqn : q ≠ np := by
    rintro rfl
    exact hnp.elim hb hz
  rw [hkin q hqn]
  refine ⟨?_, hz, rfl, rfl⟩
  rintro (hfree | ⟨r, hr⟩)
  · rw [hkin q hqn] at hfree
    exact hb (.inl hfree)
  · by_cases hrc : r = cur
    · subst hrc
      exact hb (.inr ⟨r, hcur q hqn hr⟩)
    · exact hb (.inr ⟨r, hbirth r hrc ▸ hr⟩)

/-- **Only an exit takes the target of a join away.** -/
theorem Step.targetRemains {tid : Int} (h : f.Step none f') (hok : f.Ok)
    (hp : (f.kin p).phase = .live) (ht : f.TargetRemains p tid) : f'.TargetRemains p tid := by
  have hne : ∀ np, (f.kin np).phase ≠ .live → p ≠ np := by
    rintro np hnp rfl
    exact hnp hp
  generalize hl : (none : Option Slot) = l at h
  cases h with
  | stay => exact ht
  | boot q hinit =>
    rw [(hok.fresh hinit).2 p] at hp
    cases hp
  | create cur np hcur hnp =>
    refine ht.change cur np (fun q hq => by simp [hq])
      (fun r hr => by simp [hr]) ?_ (hne np (by simp [hnp])) (.inl (.inl hnp))
    intro q hq h
    simp [hq.symm] at h
  | abandon cur np hb | adopt cur np firstPid hb =>
    have hnp := (hok.born cur np _ hb).1
    exact ht.change cur np (fun q hq => by simp [hq])
      (fun r hr => by simp [hr]) (by simp) (hne np (by simp [hnp])) (.inl (.inr ⟨cur, hb⟩))
  | publish cur np hb =>
    have hnp := (hok.born cur np _ hb).1
    refine ht.mono (by simp [hne np (by simp [hnp])]) fun q hblank hz => ?_
    refine ⟨?_, ?_, ?_, ?_⟩
    · rintro (hfree | ⟨r, hr⟩)
      · by_cases hq : q = np
        · simp [hq] at hfree
        · exact hblank (.inl (by simpa [hq] using hfree))
      · by_cases hrc : r = cur
        · simp [hrc] at hr
        · exact hblank (.inr ⟨r, by simpa [hrc] using hr⟩)
    · by_cases hq : q = np <;> simp [hq, hz]
    · by_cases hq : q = np <;> simp [hq]
    · by_cases hq : q = np <;> simp [hq]
  | exit => cases hl
  | reap z hz =>
    exact ht.change z z (fun q hq => by simp [hq]) (fun r _ => rfl)
      (fun q _ h => h) (hne z (by simp [hz])) (.inr hz)

end

end Forest

namespace Kernel

/-- A process asleep in `diagwait` has nothing to collect, and one asleep in `thread_join` has a
target that has not exited. -/
def Alert (k : Kernel) : Prop :=
  ∀ p, (k.proc p).state = .sleeping →
    (k.ctl p = .diagwait → k.forest.NothingToCollect p) ∧
      ∀ tid, k.ctl p = .threadJoin tid → k.forest.TargetRemains p tid

/-- The condition on the steps: pids are left; an exiting process has no child asleep in a join of
it; and no thread joins a slot that holds no process, or one not yet placed in the family. -/
def WakesJoiners (k : Kernel) (e : Event) : Prop :=
  k.PidsLeft e ∧
    (∀ c ∈ e.cpuOf .exit, ∀ cur ∈ k.cpu c, ∀ p,
      ¬ ((k.proc p).parent = some cur ∧ (k.proc p).state = .sleeping ∧
        k.ctl p = .threadJoin (k.proc cur).pid ∧
        (k.proc p).firstPid = (k.proc cur).firstPid)) ∧
    ∀ tid ∈ e.joins, ∀ c ∈ e.cpuOf (.threadJoin tid), ∀ cur ∈ k.cpu c, ∀ q,
      k.JoinTarget cur tid q → ¬ k.forest.Blank q

instance (f : Forest) (q : Slot) : Decidable (f.Blank q) :=
  inferInstanceAs (Decidable ((f.kin q).phase = .free ∨ ∃ r, f.birth r = some (q, false)))

instance (k : Kernel) (e : Event) : Decidable (k.WakesJoiners e) := by
  unfold WakesJoiners JoinTarget
  infer_instance

section

variable {k k' : Kernel}

variable {c : Nat} {cur p : Slot}

theorem Effect.sleeper {o : Op} (hk : k.Wf) (hcur : k.cpu c = some cur) (h : k.Effect c cur o k')
    (hp : (k'.proc p).state = .sleeping) :
    ((k.proc p).state = .sleeping ∧ k'.ctl p = k.ctl p) ∨
      (p = cur ∧ k'.forest = k.forest ∧
        ((k'.ctl p = .diagwait ∧ ∀ z, k.WaitTarget cur z → (k.proc z).state ≠ .zombie) ∨
          (∃ tid, o = .threadJoin tid ∧ k'.ctl p = .threadJoin tid ∧
            (∃ q, k.JoinTarget cur tid q) ∧
            ∀ q, k.JoinTarget cur tid q → (k.proc q).state ≠ .zombie) ∨
          k'.ctl p = .sleep)) := by
  have hrun := (hk.onCpu c cur hcur).1
  by_cases hpc : p = cur
  · subst hpc
    right
    cases h with
    | waitChild hctl hall =>
      exact ⟨rfl, forest_sleep hrun (Ctl.birth_eq_none hctl) rfl, .inl ⟨by simp, hall⟩⟩
    | @waitThread tid hctl hex hall =>
      exact ⟨rfl, forest_sleep hrun (Ctl.birth_eq_none hctl) rfl,
        .inr (.inl ⟨tid, rfl, by simp, hex, hall⟩)⟩
    | waitObject addr hctl =>
      exact ⟨rfl, forest_sleep hrun (by simp [hctl]) rfl, .inr (.inr (by simp))⟩
    | idle | ticketRead | ticketStore
    | «return» | loseLock | setTicketCount | ticketCommit | charge => simp [hrun] at hp
    | alloc thread np hctl hnp =>
      have hne : p ≠ np := by rintro rfl; simp [hnp] at hrun
      simp [hne, hrun] at hp
    | @abandon np _ hctl | @adopt np _ hctl | @publish np hctl =>
      obtain ⟨-, hne⟩ := hk.makes_ne np hrun (by simp [hctl])
      simp [Kernel.adopt, ready, hne.symm, hrun] at hp
    | yield => simp [Kernel.yield, sched] at hp
    | exit => simp [exit_proc_self c _ hrun] at hp
    | reap _ hctl hne => simp [hne.symm, hrun] at hp
    | mark _ q =>
      rw [modify_field (·.state) Proc.marked_state, hrun] at hp
      cases hp
    | @rouse _ q hq =>
      have hne : p ≠ q := by rintro rfl; simp [hq] at hrun
      simp [ready, hne, hrun] at hp
  · left
    have hmove := h.move hk hcur p
    have hsleep : (k.proc p).state = .sleeping := by
      rw [← Proc.clock_state] at hp ⊢
      generalize (k.proc p).clock = x at hmove
      generalize (k'.proc p).clock = y at hmove hp
      cases hmove with
      | stay => exact hp
      | charge hown => exact absurd hown hpc
      | create | abandon | ready | clear => simp [Clock.readied] at hp
    refine ⟨hsleep, ?_⟩
    cases h with
    | alloc thread np hctl hnp =>
      have hne : p ≠ np := by rintro rfl; simp [hnp] at hsleep
      simp [hpc, hne]
    | @exit init => rw [(k.exit_rest c cur init).2.1]
    | _ => simp [hpc, Kernel.adopt, ready, Kernel.yield, Kernel.sleep, sched]

/-- A process that still sleeps on its own slot after an exit is no relative of the process that
exits, other than a child of it. -/
theorem not_exitKin_of_sleeping {init : Slot} (hk : k.Wf) (hpc : p ≠ cur) (hctl : k.ctl p ≠ .sleep)
    (hp : ((k.exit c cur init).proc p).state = .sleeping) :
    (k.proc p).state = .sleeping ∧ ¬ k.ExitWakes cur init (.slot p) := by
  rw [exit_proc_ne k c hpc] at hp
  obtain ⟨-, hs⟩ | ⟨hr, hs⟩ := k.orphaned_state cur init p
  · rw [hs] at hp
    cases hp
  · rw [hs] at hp
    refine ⟨hp, fun hw => hr ⟨hp, .slot p, ?_, hw⟩⟩
    have hfit := hk.fits p
    have hwaits := hk.waits hp
    rw [hp] at hfit
    cases hx : k.ctl p <;> simp_all

theorem alert_exit {init : Slot} (hk : k.Wf) (hok : k.forest.Ok) (ha : k.Alert)
    (hcur : k.cpu c = some cur)
    (hguard : ∀ p, ¬ ((k.proc p).parent = some cur ∧ (k.proc p).state = .sleeping ∧
      k.ctl p = .threadJoin (k.proc cur).pid ∧ (k.proc p).firstPid = (k.proc cur).firstPid)) :
    (k.exit c cur init).Alert := by
  have hrun := (hk.onCpu c cur hcur).1
  have hsame := (k.exit_rest c cur init).2.1
  intro p hp
  have hpc : p ≠ cur := by
    rintro rfl
    simp [exit_proc_self c init hrun] at hp
  rw [hsame]
  refine ⟨fun hctl z hz hlead hpar => ?_, fun tid hctl => ?_⟩
  · obtain ⟨hsleep, hnot⟩ := not_exitKin_of_sleeping hk hpc (by simp [hctl]) hp
    have hlive : 1 ≤ (k.proc p).pid := (hok.pid p (by simp [hsleep])).1
    simp only [forest_kin] at hz hlead hpar
    by_cases hzc : z = cur
    · -- the parent of the exiting process is woken: it is not at the same time its child
      subst hzc
      rw [exit_proc_self c init hrun] at hpar
      have hparent : (k.proc z).parent = some p := by simpa [Proc.kin] using hpar
      have hlt := (hok.parent z p hparent).2.2
      refine hnot ⟨p, .inr ⟨⟨by omega, hpc, fun hback => ?_, .inr hparent⟩, rfl⟩⟩
      have hlt' := (hok.parent p z hback).2.2
      omega
    · rw [exit_proc_ne k c hzc] at hz hlead hpar
      have hzombie : (k.proc z).state = .zombie := by
        obtain ⟨-, hs⟩ | ⟨-, hs⟩ := k.orphaned_state cur init z
        · simp [Proc.kin, hs] at hz
        · rw [zombie_iff_phase, ← hs]
          exact hz
      obtain ⟨hchild, hinitpar⟩ | ⟨-, hsamepar⟩ := k.orphaned_parent cur init z
      · -- a zombie handed to `init` wakes `init`
        obtain rfl : init = p := by
          rw [Proc.kin_parent, hinitpar] at hpar
          exact Option.some.inj hpar
        exact hnot ⟨z, .inl ⟨hchild, hzombie, rfl⟩⟩
      · rw [Proc.kin_parent, hsamepar] at hpar
        exact (ha p hsleep).1 hctl z (by simp [hzombie]) (by simpa [Proc.kin] using hlead) hpar
  · obtain ⟨hsleep, hnot⟩ := not_exitKin_of_sleeping hk hpc (by simp [hctl]) hp
    have hlive : 1 ≤ (k.proc p).pid := (hok.pid p (by simp [hsleep])).1
    obtain ⟨q, hblank, hz, hgroup, hpid⟩ := (ha p hsleep).2 tid hctl
    have hqc : q ≠ cur := by
      -- the joiners of the exiting process are woken, except its children
      rintro rfl
      simp only [forest_kin, Proc.kin_firstPid, Proc.kin_pid] at hgroup hpid
      refine hnot ⟨p, .inr ⟨⟨by omega, hpc, fun hback => ?_, .inl hgroup.symm⟩, rfl⟩⟩
      exact hguard p ⟨hback, hsleep, by rw [hctl, hpid], hgroup.symm⟩
    have hkin : ∀ r, r ≠ cur → ((k.exit c cur init).proc r).kin
        = (k.forest.afterExit cur init).kin r := by
      intro r hr
      rw [exit_proc_ne k c hr]
      exact k.orphaned_kin hr
    refine ⟨q, ?_, ?_, ?_, ?_⟩
    · rintro (hfree | ⟨r, hr⟩)
      · rw [forest_kin, hkin q hqc, Forest.afterExit_phase, if_neg hqc] at hfree
        exact hblank (.inl hfree)
      · rw [forest_birth, hsame] at hr
        exact hblank (.inr ⟨r, hr⟩)
    · rw [forest_kin, hkin q hqc, Forest.afterExit_phase, if_neg hqc]
      exact hz
    · simp only [forest_kin, hkin q hqc, hkin p hpc, Forest.afterExit_firstPid]
      exact hgroup
    · rw [forest_kin, hkin q hqc, Forest.afterExit_pid]
      exact hpid

theorem alert_old (hok : k.forest.Ok) (ha : k.Alert) (hstep : k.forest.Step none k'.forest)
    (hsleep : (k.proc p).state = .sleeping) (hctl : k'.ctl p = k.ctl p) :
    (k'.ctl p = .diagwait → k'.forest.NothingToCollect p) ∧
      ∀ tid, k'.ctl p = .threadJoin tid → k'.forest.TargetRemains p tid := by
  rw [hctl]
  exact ⟨fun h => hstep.nothingToCollect hok ((ha p hsleep).1 h),
    fun tid h => hstep.targetRemains hok (by simp [hsleep]) ((ha p hsleep).2 tid h)⟩

/-- **No step loses a wakeup**, under the condition. -/
theorem step_alert {e : Event} (hk : k.Wf) (hok : k.forest.Ok) (hg : k.WakesJoiners e)
    (h : k.step e = some k') (ha : k.Alert) : k'.Alert := by
  cases e with
  | userinit =>
    obtain ⟨p, -, hun, rfl⟩ := step_userinit hk h
    intro q hq
    by_cases hqp : q = p <;> simp [hqp, ready, hun] at hq
  | tick =>
    cases h
    exact ha
  | wakeup addr =>
    have hstep := step_forest_none hk h (fun _ => by simp)
    rw [step_wakeup h] at hstep ⊢
    intro p hp
    rw [wakeup1_proc] at hp
    split at hp
    · cases hp
    · exact alert_old hok ha hstep hp (by rw [(k.wakeup1_globals _).2.1])
  | dispatch c q =>
    have hstep := step_forest_none hk h (fun _ => by simp)
    obtain ⟨⟨-, -, hq⟩, rfl⟩ := step_dispatch h
    intro p hp
    have hpq : p ≠ q := by rintro rfl; simp [dispatch] at hp
    exact alert_old hok ha hstep (by simpa [dispatch, hpq] using hp) rfl
  | call c o =>
    obtain ⟨cur, hcur, heff⟩ := step_call hk h
    obtain hstep | ⟨rfl, -, init, -, rfl⟩ := heff.forest hk hcur
    · intro p hp
      obtain ⟨hsleep, hctl⟩ | ⟨rfl, hsame, hnew⟩ := heff.sleeper hk hcur hp
      · exact alert_old hok ha hstep hsleep hctl
      · rw [hsame]
        obtain ⟨hctl, hall⟩ | ⟨tid, rfl, hctl, ⟨q, hq⟩, hall⟩ | hctl := hnew
        · refine ⟨fun _ z hz hlead hpar => ?_, by simp [hctl]⟩
          exact hall z ⟨hlead, hpar⟩ (zombie_iff_phase.2 hz)
        · refine ⟨by simp [hctl], fun tid' htid => ?_⟩
          obtain rfl : tid = tid' := by simpa [hctl] using htid
          refine ⟨q, hg.2.2 tid rfl c (by simp [Event.cpuOf]) p hcur q hq, ?_, hq.2.1, hq.2.2⟩
          exact fun hz => hall q hq (zombie_iff_phase.2 hz)
        · simp [hctl]
    · exact alert_exit hk hok ha hcur (hg.2.1 c (by simp [Event.cpuOf]) cur hcur)

end

/-- **No lost wakeup.** In every run that meets the condition, a process asleep in `diagwait` has
no exited child to collect, and the group of a process asleep in `thread_join(tid)` has a process
`tid` in use that has not exited. -/
theorem no_lost_wakeup {ncpu : Nat} {k : Kernel} (h : Run step WakesJoiners (boot ncpu) k)
    {p : Slot} (hp : (k.proc p).state = .sleeping) :
    (k.ctl p = .diagwait → ¬ ∃ z, (k.proc z).state = .zombie ∧
        (k.proc z).pid = (k.proc z).firstPid ∧ (k.proc z).parent = some p) ∧
      ∀ tid, k.ctl p = .threadJoin tid →
        ∃ q, (k.proc q).firstPid = (k.proc p).firstPid ∧ (k.proc q).pid = tid ∧
          (k.proc q).state ≠ .unused ∧ (k.proc q).state ≠ .zombie := by
  have hinv : k.Wf ∧ k.forest.Ok ∧ k.Alert := by
    refine Run.invariant (fun k => k.Wf ∧ k.forest.Ok ∧ k.Alert)
      ⟨boot_wf ncpu, boot_forest_ok ncpu, ?_⟩ ?_ h
    · intro p hp
      simp [boot] at hp
    · rintro k e k' ⟨hk, hok, ha⟩ hg hs
      exact ⟨step_wf hk hs, step_forest_ok hk hok hg.1 hs, step_alert hk hok hg hs ha⟩
  obtain ⟨hcollect, hjoin⟩ := hinv.2.2 p hp
  refine ⟨fun hctl => ?_, fun tid hctl => ?_⟩
  · rintro ⟨z, hz, hlead, hpar⟩
    exact hcollect hctl z (by simp [hz]) hlead hpar
  · obtain ⟨q, hblank, hz, hgroup, hpid⟩ := hjoin tid hctl
    refine ⟨q, hgroup, hpid, fun hun => hblank (.inl (by simp [hun])), fun hzom => hz ?_⟩
    simp [hzom]

/-- The first process forks a child, and the child creates a thread that creates another. -/
def threadOfThread : List Event :=
  [.userinit, .dispatch 0 0, .call 0 (.allocproc false), .call 0 .adopt, .call 0 .publish,
    .call 0 .yield, .dispatch 0 1, .call 0 (.allocproc true), .call 0 .adopt, .call 0 .publish,
    .call 0 .yield, .dispatch 0 2, .call 0 (.allocproc true), .call 0 .adopt, .call 0 .publish]

/-- The child, in slot 1, joins the first thread, in slot 2. -/
theorem no_lost_wakeup_join :
    ∃ k, Run step WakesJoiners (boot 1) k ∧ (k.proc 1).state = .sleeping ∧
      k.ctl 1 = .threadJoin 3 ∧
      ∃ q, (k.proc q).firstPid = (k.proc 1).firstPid ∧ (k.proc q).pid = 3 ∧
        (k.proc q).state ≠ .unused ∧ (k.proc q).state ≠ .zombie := by
  obtain ⟨k, hrun, hk⟩ := exists_run_of_runs step WakesJoiners (boot 1)
    (threadOfThread ++ [.call 0 .yield, .dispatch 0 1, .call 0 (.threadJoin 3)])
    (p := fun k => decide ((k.proc 1).state = .sleeping ∧ k.ctl 1 = .threadJoin 3))
    (by decide +kernel)
  obtain ⟨hsleep, hctl⟩ := of_decide_eq_true hk
  exact ⟨k, hrun, hsleep, hctl, (no_lost_wakeup hrun hsleep).2 3 hctl⟩

/-- **A wakeup is lost**: the thread in slot 3 joins its creator in slot 2, which exits, hands it to
`init` and does not wake it. -/
theorem wakeup_lost :
    ∃ k, Reachable 1 k ∧ (k.proc 3).state = .sleeping ∧ k.ctl 3 = .threadJoin 3 ∧
      ¬ ∃ q, (k.proc q).firstPid = (k.proc 3).firstPid ∧ (k.proc q).pid = 3 ∧
        (k.proc q).state ≠ .unused ∧ (k.proc q).state ≠ .zombie := by
  obtain ⟨k, hrun, hk⟩ := exists_run_of_runs step (fun _ _ => True) (boot 1)
    (threadOfThread ++ [.call 0 .yield, .dispatch 0 3, .call 0 (.threadJoin 3),
      .dispatch 0 2, .call 0 .exit])
    (p := fun k => decide ((k.proc 3).state = .sleeping ∧ k.ctl 3 = .threadJoin 3 ∧
      ¬ ∃ q, (k.proc q).firstPid = (k.proc 3).firstPid ∧ (k.proc q).pid = 3 ∧
        (k.proc q).state ≠ .unused ∧ (k.proc q).state ≠ .zombie))
    (by decide +kernel)
  exact ⟨k, hrun, of_decide_eq_true hk⟩

end Kernel

end Xv6
