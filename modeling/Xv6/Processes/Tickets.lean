import Mathlib.Algebra.BigOperators.Fin
import Mathlib.Tactic.Abel
import Mathlib.Tactic.Ring
import Xv6.Processes.Invariant

/-! # The ticket counter

`totalTicketCount` is a running total, updated by hand wherever a process starts or stops competing
for a CPU. `set_ticketCount` updates it without `ptable.lock`, in three separate accesses, so that
an update made by another CPU in between is lost.

* `totalTicketCount_modEq` — the counter is right, modulo `2 ^ 32`, in every run in which each
  store of `set_ticketCount` finds the counter as it was read;
* `ticket_update_lost` — and a run in which it is not. -/

namespace Xv6

open Foundation

/-- The states in which a process holds its tickets in the pot. -/
@[simp] def ProcState.competes : ProcState → Bool
  | .runnable | .running => true
  | .unused | .embryo | .sleeping | .zombie => false

/-- The new ticket count that `totalTicketCount` holds already and the process does not. -/
@[simp] def Ctl.written : Ctl → Option Int
  | .ticketWritten n => some n
  | .user | .creating _ _ | .publishing _ | .diagwait | .threadJoin _ | .sleep
  | .ticketRead _ _ => none

/-- The value of `totalTicketCount` that a `set_ticketCount` in progress has read. -/
@[simp] def Ctl.read : Ctl → Option Int
  | .ticketRead _ total => some total
  | .user | .creating _ _ | .publishing _ | .diagwait | .threadJoin _ | .sleep
  | .ticketWritten _ => none

theorem Ctl.written_eq_none {x : Ctl} (h : x = .user ∨ x.waits) : x.written = none := by
  rcases h with rfl | h
  · rfl
  · cases x <;> simp_all

namespace Kernel

/-- What a process contributes to `totalTicketCount`. -/
def stake (k : Kernel) (p : Slot) : Int :=
  match (k.ctl p).written with
  | some n => n
  | none => if (k.proc p).state.competes then (k.proc p).ticketCount else 0

/-- The counter is an `int` that agrees with the sum of all contributions, up to wrapping. -/
def Balanced (k : Kernel) : Prop :=
  k.totalTicketCount ≡ ∑ p, k.stake p [ZMOD 2 ^ 32] ∧
    int32 k.totalTicketCount = k.totalTicketCount

section

variable {k k' : Kernel}

variable {q cur : Slot} {c : Nat}

theorem stake_congr (hw : (k'.ctl q).written = (k.ctl q).written)
    (hs : (k'.proc q).state.competes = (k.proc q).state.competes)
    (ht : (k'.proc q).ticketCount = (k.proc q).ticketCount) : k'.stake q = k.stake q := by
  rw [stake, stake, hw, hs, ht]

theorem stake_eq_zero (hw : (k.ctl q).written = none) (hs : (k.proc q).state.competes = false) :
    k.stake q = 0 := by
  simp only [stake, hw, hs]
  rfl

theorem stake_eq_ticketCount (hw : (k.ctl q).written = none) (hs : (k.proc q).state.competes) :
    k.stake q = (k.proc q).ticketCount := by
  simp only [stake, hw, hs]
  rfl

theorem stake_eq_written {n : Int} (hw : (k.ctl q).written = some n) : k.stake q = n := by
  simp only [stake, hw]

section

variable (h : k.Balanced)

include h

theorem Balanced.same (ht : k'.totalTicketCount = k.totalTicketCount)
    (hs : ∀ q, k'.stake q = k.stake q) : k'.Balanced := by
  rw [Balanced, ht, Finset.sum_congr rfl fun q _ => hs q]
  exact h

theorem Balanced.change (p : Slot)
    (hint : int32 k'.totalTicketCount = k'.totalTicketCount)
    (ht : k'.totalTicketCount ≡ k.totalTicketCount + (k'.stake p - k.stake p) [ZMOD 2 ^ 32])
    (hs : ∀ q ≠ p, k'.stake q = k.stake q) : k'.Balanced := by
  have hsum : ∑ q, k'.stake q = ∑ q, k.stake q + (k'.stake p - k.stake p) := by
    rw [← Finset.add_sum_erase _ _ (Finset.mem_univ p),
      ← Finset.add_sum_erase _ k.stake (Finset.mem_univ p),
      Finset.sum_congr rfl fun q hq => hs q (Finset.ne_of_mem_erase hq)]
    ring
  rw [Balanced, hsum]
  exact ⟨ht.trans (h.1.add_right _), hint⟩

theorem Balanced.modify {p : Slot} {f : Proc → Proc}
    (hs : (f (k.proc p)).state.competes = (k.proc p).state.competes)
    (ht : (k.proc p).state.competes → (f (k.proc p)).ticketCount = (k.proc p).ticketCount) :
    (k.modify p f).Balanced := by
  refine h.same rfl fun q => ?_
  rcases eq_or_ne q p with rfl | hq
  · simp only [stake, modify_ctl, modify_proc, if_true, hs]
    cases hc : (k.proc q).state.competes with
    | false => rfl
    | true => rw [ht hc]
  · exact stake_congr rfl (by simp [hq]) (by simp [hq])

theorem Balanced.setCtl {p : Slot} {x : Ctl} (hx : x.written = (k.ctl p).written) :
    (k.setCtl p x).Balanced := by
  refine h.same rfl fun q => stake_congr ?_ rfl rfl
  rcases eq_or_ne q p with rfl | hq
  · rw [setCtl_ctl, if_pos rfl, hx]
  · simp [hq]

theorem Balanced.takeSlot {p : Slot} (hs : (k.proc p).state = .unused) :
    (k.takeSlot p).Balanced :=
  (h.modify (p := p) (f := (·.embryo k.nextpid k.ticks)) (by simp [hs]) (by simp [hs])).same
    rfl fun _ => rfl

theorem balanced_ready {p : Slot} (hw : (k.ctl p).written = none)
    (hs : (k.proc p).state.competes = false) : (k.ready p).Balanced := by
  refine h.change p (int32_int32 _) ?_ fun q hq => ?_
  · rw [stake_eq_zero hw hs, stake_eq_ticketCount (k := k.ready p) (by exact hw) (by simp [ready])]
    simpa [ready] using int32_modEq _
  · exact stake_congr rfl (by simp [ready, hq]) (by simp [ready, hq])

end

/-- The contributions are right, and no sleeping process is in the middle of
`set_ticketCount`. -/
def Settled (k : Kernel) : Prop :=
  k.Balanced ∧ ∀ q, (k.proc q).state = .sleeping → (k.ctl q).written = none

theorem settled_wakeupAt (h : k.Settled) (ch : Chan) (p : Slot) : (wakeupAt ch k p).Settled := by
  unfold wakeupAt
  split
  · rename_i hp
    refine ⟨balanced_ready h.1 (h.2 p hp.1) (by simp [hp.1]), fun q hq => ?_⟩
    by_cases hqp : q = p
    · simp [ready, hqp] at hq
    · exact h.2 q (by simpa [ready, hqp] using hq)
  · exact h

theorem settled_wakeup1 (h : k.Settled) (ch : Chan) : (k.wakeup1 ch).Settled :=
  foldl_keeps Settled (fun _ p hs => settled_wakeupAt hs ch p) _ h

theorem settled_exitAt (h : k.Settled) (cur init p : Slot) : (exitAt cur init k p).Settled := by
  have hhand : (k.modify p (·.handedTo init)).Settled := by
    refine ⟨h.1.modify rfl fun _ => rfl, fun q hq => h.2 q ?_⟩
    rwa [modify_field (·.state) fun x => Proc.handedTo_state x init] at hq
  unfold exitAt
  split
  · exact h
  · split
    · split
      · exact settled_wakeup1 hhand _
      · exact hhand
    · split
      · exact settled_wakeup1 h _
      · exact h

theorem balanced_leave (h : k.Balanced) {p : Slot} (hp : (k.proc p).state = .running)
    (hw : (k.ctl p).written = none) (hw' : (k'.ctl p).written = none)
    (hs : (k'.proc p).state.competes = false)
    (ht : k'.totalTicketCount = int32 (k.totalTicketCount + -(k.proc p).ticketCount))
    (hq : ∀ q ≠ p, k'.stake q = k.stake q) : k'.Balanced := by
  refine h.change p (by rw [ht, int32_int32]) ?_ hq
  rw [stake_eq_ticketCount hw (by simp [hp]), stake_eq_zero hw' hs, ht, zero_sub]
  exact int32_modEq _

/-- `exit` takes the caller's tickets out of the pot, and puts in those of the processes it
wakes. -/
theorem balanced_exit (hk : k.Wf) (h : k.Balanced) {init : Slot}
    (hrun : (k.proc cur).state = .running) (hctl : k.ctl cur = .user) :
    (k.exit c cur init).Balanced := by
  have hsettled : k.Settled := ⟨h, fun q hq => Ctl.written_eq_none (.inr (hk.waits hq))⟩
  have hloop : ((List.finRange NPROC).foldl (exitAt cur init) k).Settled :=
    foldl_keeps Settled (fun _ p hs => settled_exitAt hs cur init p) _ hsettled
  have hself := exitLoop_self init hrun
  have hsame := (k.exitVisited_all cur init).ctl
  rw [exit]
  generalize (List.finRange NPROC).foldl (exitAt cur init) k = k1 at hloop hself hsame
  refine balanced_leave hloop.1 (p := cur) (by rw [hself, hrun]) (by simp [hsame, hctl]) ?_ ?_ rfl
    fun q hq => ?_
  · simp [becomeZombie, sched, hsame, hctl]
  · simp [becomeZombie, sched]
  · exact stake_congr rfl (by simp [becomeZombie, sched, hq]) (by simp [becomeZombie, sched, hq])

theorem balanced_sleep (h : k.Balanced) {ch : Chan} {x : Ctl} (hrun : (k.proc cur).state = .running)
    (hw : (k.ctl cur).written = none) (hx : x.written = none) :
    ((k.sleep c cur ch).setCtl cur x).Balanced := by
  refine balanced_leave h hrun hw (by rw [setCtl_ctl, if_pos rfl, hx])
    (by simp [Kernel.sleep, sched]) rfl fun q hq => ?_
  exact stake_congr (by simp [hq, Kernel.sleep, sched]) (by simp [Kernel.sleep, sched, hq])
    (by simp [Kernel.sleep, sched, hq])

/-- The condition under which the unlocked store of `set_ticketCount` loses no update: the counter
still has the value that was read. -/
def TicketsCurrent (k : Kernel) (e : Event) : Prop :=
  ∀ c ∈ e.cpuOf .ticketStore, ∀ cur ∈ k.cpu c, ∀ total ∈ (k.ctl cur).read,
    total = k.totalTicketCount

instance (k : Kernel) (e : Event) : Decidable (k.TicketsCurrent e) :=
  inferInstanceAs (Decidable (∀ c ∈ e.cpuOf .ticketStore, ∀ cur ∈ k.cpu c,
    ∀ total ∈ (k.ctl cur).read, total = k.totalTicketCount))

/-- **A step of a running process keeps the counter right.** -/
theorem Effect.balanced {o : Op} (hk : k.Wf) (hcur : k.cpu c = some cur)
    (hg : k.TicketsCurrent (.call c o)) (h : k.Effect c cur o k') (hb : k.Balanced) :
    k'.Balanced := by
  have hrun := (hk.onCpu c cur hcur).1
  cases h with
  | idle => exact hb
  | alloc thread np hctl hnp =>
    have hne : cur ≠ np := by rintro rfl; simp [hnp] at hrun
    have huser := ((hk.fits np).user (by simp [hnp, ProcState.live])).1
    exact ((hb.takeSlot hnp).setCtl (by simp [huser])).setCtl (by simp [hne, hctl])
  | @abandon np _ hctl =>
    obtain ⟨hnp, -⟩ := hk.makes_ne np hrun (by simp [hctl])
    exact (hb.modify (by simp [hnp]) (by simp)).setCtl (by simp [hctl])
  | @adopt np _ hctl => exact (hb.modify (by simp) (by simp)).setCtl (by simp [hctl])
  | @publish np hctl =>
    obtain ⟨hnp, -⟩ := hk.makes_ne np hrun (by simp [hctl])
    have huser := ((hk.fits np).user (by simp [hnp, ProcState.live])).1
    have hready := balanced_ready hb (p := np) (by simp [huser]) (by simp [hnp])
    exact hready.setCtl (by simp [ready, hctl])
  | yield =>
    have hstate := hb.modify (p := cur) (f := (·.withState .runnable)) (by simp [hrun]) (by simp)
    exact (hstate.modify (p := cur) (f := (·.charged k.ticks)) (by simp) (by simp)).same
      rfl fun _ => rfl
  | exit hinit hctl hne => exact balanced_exit hk hb hrun hctl
  | @reap _ p hctl hne hp =>
    have hawake := hb.modify (p := cur) (f := Proc.awake) (by simp) (by simp)
    refine (hawake.modify ?_ ?_).setCtl (Ctl.written_eq_none hctl).symm
    · simp [hne, hp.1]
    · simp [hne, hp.1]
  | «return» _ hctl | loseLock _ hctl =>
    exact (hb.modify (by simp) (by simp)).setCtl (Ctl.written_eq_none hctl).symm
  | waitChild hctl | waitThread hctl =>
    exact balanced_sleep hb hrun (Ctl.written_eq_none hctl) rfl
  | waitObject addr hctl => exact balanced_sleep hb hrun (by simp [hctl]) rfl
  | mark _ p => exact hb.modify (by simp) (by simp)
  | @rouse _ p hp =>
    have hmark : (k.modify p (·.marked)).Balanced := hb.modify (by simp) (by simp)
    exact balanced_ready hmark (Ctl.written_eq_none (.inr (hk.waits hp))) (by simp [hp])
  | @setTicketCount n hctl hn =>
    refine hb.change cur (int32_int32 _) ?_ fun q hq => ?_
    · rw [stake_eq_ticketCount (k := k) (by simp [hctl]) (by simp [hrun]),
        stake_eq_ticketCount (by simp [hctl]) (by simp [hrun])]
      simp only [modify_totalTicketCount, addTickets_totalTicketCount, modify_proc, if_pos,
        Proc.withTickets_ticketCount]
      refine (int32_modEq _).trans (Int.ModEq.add_left _ ?_)
      exact ((uint32_modEq _).symm.sub_right _)
    · exact stake_congr rfl (by simp [hq]) (by simp [hq])
  | ticketRead hctl => exact hb.setCtl (by simp [hctl])
  | @ticketStore n total hctl =>
    obtain rfl := hg c rfl cur hcur total (by simp [hctl])
    refine hb.change cur (int32_int32 _) ?_ fun q hq => ?_
    · rw [stake_eq_ticketCount (k := k) (by simp [hctl]) (by simp [hrun]),
        stake_eq_written (n := n) (by simp)]
      exact int32_modEq _
    · exact stake_congr (by simp [hq]) rfl rfl
  | @ticketCommit n hctl =>
    refine hb.change cur hb.2 ?_ fun q hq => ?_
    · rw [stake_eq_written (k := k) (n := n) (by simp [hctl]),
        stake_eq_ticketCount (by simp) (by simp [hrun])]
      simp only [setCtl_totalTicketCount, modify_totalTicketCount, setCtl_proc, modify_proc,
        if_pos, Proc.withTickets_ticketCount]
      have hzero := (uint32_modEq n).sub_right n
      rw [sub_self] at hzero
      simpa using (hzero.add_left k.totalTicketCount).symm
    · exact stake_congr (by simp [hq]) (by simp [hq]) (by simp [hq])
  | charge => exact hb.modify (by simp) (by simp)

/-- **Every step keeps the counter right**, as long as no update is lost. -/
theorem step_balanced {e : Event} (hk : k.Wf) (hg : k.TicketsCurrent e)
    (h : k.step e = some k') (hb : k.Balanced) : k'.Balanced := by
  cases e with
  | userinit =>
    obtain ⟨p, -, hun, rfl⟩ := step_userinit hk h
    have huser := ((hk.fits p).user (by simp [hun, ProcState.live])).1
    exact balanced_ready (k := (k.takeSlot p).setInit p) (hb.takeSlot (hun p))
      (by simp [huser]) (by simp)
  | tick =>
    cases h
    exact hb
  | wakeup addr =>
    rw [step_wakeup h]
    refine (settled_wakeup1 ⟨hb, fun q hq => ?_⟩ _).1
    exact Ctl.written_eq_none (.inr (hk.waits hq))
  | dispatch c p =>
    obtain ⟨⟨-, -, hp⟩, rfl⟩ := step_dispatch h
    exact (hb.modify (p := p) (f := (·.dispatched k.ticks)) (by simp [hp]) (by simp)).same
      rfl fun _ => rfl
  | call c o =>
    obtain ⟨cur, hcur, heff⟩ := step_call hk h
    exact heff.balanced hk hcur hg hb

end

/-- The sum of `ticketCount` over the `RUNNABLE` and `RUNNING` processes. -/
def competingTickets (k : Kernel) : Int :=
  ∑ p with (k.proc p).state = .runnable ∨ (k.proc p).state = .running,
    ((k.proc p).ticketCount : Int)

theorem sum_stake {k : Kernel} (h : ∀ p, (k.ctl p).written = none) :
    ∑ p, k.stake p = k.competingTickets := by
  rw [competingTickets, Finset.sum_filter]
  refine Finset.sum_congr rfl fun p _ => ?_
  rw [stake, h p]
  cases (k.proc p).state <;> simp

theorem run_balanced {ncpu : Nat} {k : Kernel} (h : Run step TicketsCurrent (boot ncpu) k) :
    k.Wf ∧ k.Balanced := by
  refine Run.invariant (fun k => k.Wf ∧ k.Balanced) ⟨boot_wf ncpu, ?_⟩ ?_ h
  · have hzero : ∀ p, (boot ncpu).stake p = 0 := fun p => rfl
    simp only [Balanced, hzero, Finset.sum_const_zero]
    exact ⟨rfl, rfl⟩
  · rintro k e k' ⟨hk, hb⟩ hg hs
    exact ⟨step_wf hk hs, step_balanced hk hg hs hb⟩

/-- **No lost ticket update.** On any number of CPUs, in every run in which each unlocked store of
`set_ticketCount` finds the counter as it was read, the counter is the sum of the tickets of the
`RUNNABLE` and `RUNNING` processes whenever no `set_ticketCount` is in progress. -/
theorem totalTicketCount_modEq {ncpu : Nat} {k : Kernel}
    (h : Run step TicketsCurrent (boot ncpu) k)
    (hdone : ∀ p, (k.ctl p).read = none ∧ (k.ctl p).written = none) :
    k.totalTicketCount ≡ k.competingTickets [ZMOD 2 ^ 32] := by
  rw [← sum_stake fun p => (hdone p).2]
  exact (run_balanced h).2.1

/-- Two CPUs, and the first process forks a child, which CPU `1` starts. -/
def twoRunning : List Event :=
  [.userinit, .dispatch 0 0, .call 0 (.allocproc false), .call 0 .adopt, .call 0 .publish,
    .dispatch 1 1]

/-- A child that sets its ticket count while nobody else touches the counter. -/
theorem totalTicketCount_modEq_quiet :
    ∃ k, Run step TicketsCurrent (boot 2) k ∧ (k.proc 1).ticketCount = 20 ∧
      k.totalTicketCount ≡ k.competingTickets [ZMOD 2 ^ 32] := by
  obtain ⟨k, hrun, hk⟩ := exists_run_of_runs step TicketsCurrent (boot 2)
    (twoRunning ++ [.call 1 (.ticketRead 20), .call 1 .ticketStore, .call 1 .ticketCommit])
    (p := fun k => decide ((k.proc 1).ticketCount = 20 ∧
      ∀ p, (k.ctl p).read = none ∧ (k.ctl p).written = none)) (by decide +kernel)
  obtain ⟨hcount, hdone⟩ := of_decide_eq_true hk
  exact ⟨k, hrun, hcount, totalTicketCount_modEq hrun hdone⟩

/-- **A ticket update is lost.** The child on CPU `1` reads the counter; before it writes the
counter back, the process on CPU `0` forks again and adds the tickets of the new child. -/
theorem ticket_update_lost :
    ∃ k, Reachable 2 k ∧ (∀ p, (k.ctl p).read = none ∧ (k.ctl p).written = none) ∧
      ¬ k.totalTicketCount ≡ k.competingTickets [ZMOD 2 ^ 32] := by
  obtain ⟨k, hrun, hk⟩ := exists_run_of_runs step (fun _ _ => True) (boot 2)
    (twoRunning ++ [.call 1 (.ticketRead 20), .call 0 (.allocproc false), .call 0 .adopt,
      .call 0 .publish, .call 1 .ticketStore, .call 1 .ticketCommit])
    (p := fun k => decide ((∀ p, (k.ctl p).read = none ∧ (k.ctl p).written = none) ∧
      ¬ k.totalTicketCount ≡ k.competingTickets [ZMOD 2 ^ 32])) (by decide +kernel)
  exact ⟨k, hrun, of_decide_eq_true hk⟩

end Kernel

end Xv6
