import Xv6.Processes.Invariant

/-! # Whom kill hits

`kill` compares the `pid` field of every slot, used or not. A reaped slot has pid 0 and keeps no
mark, but a slot whose creation was given up keeps the pid it was given, and `allocproc` never
clears `killed`. So a mark put on an unused slot stays there for the next process.

* **`kill_hits_live`** — `kill` hits live processes only, and no process is born marked, in every
  run in which no `kill` names a pid that an unused slot holds and no marked creation is given up;
* **`killed_at_birth`** — and a run in which `kill(0)` marks the process that the next `fork`
  makes. -/

namespace Xv6

open Foundation

/-- The pid that an event kills. -/
def Event.kills : Event → Option Int
  | .call _ (.kill pid) => some pid
  | _ => none

theorem Event.kills_eq_some {e : Event} {pid : Int} (h : e.kills = some pid) :
    ∃ c, e = .call c (.kill pid) := by
  unfold Event.kills at h
  split at h
  · cases h
    exact ⟨_, rfl⟩
  · cases h

/-- `kill(pid)` is right in `k`: some process has that pid, or the call fails and changes
nothing. -/
def Kernel.KillRight (k : Kernel) (pid : Int) : Prop :=
  (∃ p, (k.proc p).pid = pid ∧ (k.proc p).state ≠ .unused) ∨ k.kill pid = (false, k)

/-- A kernel, with the processes that a `kill` has named since they were allocated. -/
structure Killing where
  kernel : Kernel
  named : Slot → Bool

namespace Killing

/-- The kernel at boot. -/
def start (ncpu : Nat) : Killing := ⟨boot ncpu, fun _ => false⟩

/-- **One step**: of the kernel, and of the record of who was named. -/
def step (s : Killing) (e : Event) : Option Killing :=
  (s.kernel.step e).map fun k =>
    { kernel := k
      named := fun p =>
        if (s.kernel.proc p).state = .unused ∧ (k.proc p).state ≠ .unused then false
        else s.named p || decide (e.kills = some (s.kernel.proc p).pid) }

/-- **Marks come from kills**: a `kill` is right, and a process that `fork` or `thread_create` makes
`RUNNABLE` is marked only if a `kill` has named it. -/
def Right (s : Killing) (e : Event) : Prop :=
  (∀ pid ∈ e.kills, s.kernel.KillRight pid) ∧
    ∀ c ∈ e.cpuOf .publish, ∀ cur ∈ s.kernel.cpu c, ∀ np, s.kernel.ctl cur = .publishing np →
      (s.kernel.proc np).killed = true → s.named np = true

/-- The condition on the steps: a `kill` names no pid that an unused slot still holds, and a
creation is not given up after the new process was killed. -/
def Spares (s : Killing) (e : Event) : Prop :=
  (∀ pid ∈ e.kills, ∀ p, (s.kernel.proc p).state = .unused → (s.kernel.proc p).pid ≠ pid) ∧
    ∀ c ∈ e.cpuOf .abandon, ∀ cur ∈ s.kernel.cpu c, ∀ np ∈ (s.kernel.ctl cur).makes,
      (s.kernel.proc np).killed = false

instance (s : Killing) (e : Event) : Decidable (s.Spares e) := by
  unfold Spares
  infer_instance

/-- **The invariant**: a mark is on a process that a `kill` has named. -/
def Ok (s : Killing) : Prop :=
  ∀ p, (s.kernel.proc p).killed = true → (s.kernel.proc p).state ≠ .unused ∧ s.named p = true

end Killing

namespace Kernel

section

variable {k k' : Kernel} {c : Nat} {cur : Slot}

/-- **Nothing but `kill` marks a process**, and a slot that becomes unused is cleared, unless its
creation is given up. -/
theorem step_killed {e : Event} (hk : k.Wf) (h : k.step e = some k') (he : e.kills = none)
    (q : Slot) (hq : (k'.proc q).killed = true) :
    (k.proc q).killed = true ∧ ((k'.proc q).state = .unused → (k.proc q).state = .unused ∨
      ∃ c ∈ e.cpuOf .abandon, ∃ cur ∈ k.cpu c, (k.ctl cur).makes = some q) := by
  have halters := step_alters hk h q
  generalize k'.proc q = x, k'.ctl q = y at halters hq
  cases halters with
  | same => exact ⟨hq, .inl⟩
  | first hs => exact ⟨hq, fun _ => .inl hs⟩
  | woken | started => exact ⟨hq, by simp⟩
  | @call c cur _ _ _ hcur hrun hleaves =>
    cases hleaves with
    | same => exact ⟨hq, .inl⟩
    | taken _ hs => exact ⟨hq, fun _ => .inl hs⟩
    | abandoned _ hmakes => exact ⟨hq, fun _ => .inr ⟨c, by simp [Event.cpuOf], cur, hcur, hmakes⟩⟩
    | adopted _ hs => exact ⟨hq, fun hu => by simp [hs] at hu⟩
    | published => exact ⟨hq, by simp⟩
    | reaped => simp at hq
    | marked | roused => cases he
    | orphaned init =>
      rw [orphaned_killed] at hq
      exact ⟨hq, fun hu => .inl (orphaned_unused.1 hu)⟩
    | own hqc hown =>
      subst hqc
      cases hown <;> exact ⟨hq, by simp [hrun]⟩

theorem step_kill {pid : Int} (h : k.step (.call c (.kill pid)) = some k') :
    k' = (k.kill pid).2 := by
  simp only [step] at h
  split at h
  · cases h
  · split at h
    · cases h
    · simp only [op, Option.ite_none_right_eq_some] at h
      exact (Option.some.inj h.2).symm

/-- **`kill` marks one slot**, and the slot holds the pid. -/
theorem kill_proc (k : Kernel) (pid : Int) (q : Slot) :
    ((k.kill pid).2.proc q).pid = (k.proc q).pid ∧
      (((k.kill pid).2.proc q).state = .unused ↔ (k.proc q).state = .unused) ∧
      (((k.kill pid).2.proc q).killed = true → (k.proc q).killed = true ∨
        (k.proc q).pid = pid) := by
  unfold kill
  split
  · simp +contextual
  · rename_i p hp
    have hpid : (k.proc p).pid = pid := by simpa using List.find?_some hp
    by_cases hqp : q = p
    · subst hqp
      split <;> simp_all [ready]
    · split <;> simp +contextual [ready, hqp]

end

end Kernel

namespace Killing

variable {s s' : Killing}

theorem killRight_of_unused {k : Kernel} {pid : Int}
    (h : ∀ p, (k.proc p).state = .unused → (k.proc p).pid ≠ pid) : k.KillRight pid := by
  by_cases hex : ∃ p, (k.proc p).pid = pid
  · obtain ⟨p, hp⟩ := hex
    exact .inl ⟨p, hp, fun hu => h p hu hp⟩
  · refine .inr ?_
    have hnone : (List.finRange NPROC).find? (fun p => decide ((k.proc p).pid = pid)) = none := by
      simpa using fun p => not_exists.1 hex p
    rw [Kernel.kill, hnone]

theorem Ok.step {e : Event} (hk : s.kernel.Wf) (h : s.Ok) (hg : s.Spares e)
    (hs : s.step e = some s') : s'.Ok := by
  rw [Killing.step, Option.map_eq_some_iff] at hs
  obtain ⟨k', hk', rfl⟩ := hs
  intro p hp
  -- a process that was marked before stays named
  have hold (hmark : (s.kernel.proc p).killed = true) (hstate : (k'.proc p).state ≠ .unused) :
      (k'.proc p).state ≠ .unused ∧ (if (s.kernel.proc p).state = .unused ∧
        (k'.proc p).state ≠ .unused then false
        else s.named p || decide (e.kills = some (s.kernel.proc p).pid)) = true := by
    obtain ⟨hused, hnamed⟩ := h p hmark
    simp [hused, hnamed, hstate]
  rcases Option.eq_none_or_eq_some e.kills with he | ⟨pid, he⟩
  · obtain ⟨hmark, hstate⟩ := Kernel.step_killed hk hk' he p hp
    refine hold hmark fun hu => ?_
    rcases hstate hu with hu | ⟨c, hc, cur, hcur, hmakes⟩
    · exact (h p hmark).1 hu
    · have hno := hg.2 c hc cur hcur p hmakes
      simp [hno] at hmark
  · obtain ⟨c, rfl⟩ := Event.kills_eq_some he
    obtain rfl := Kernel.step_kill hk'
    obtain ⟨-, hstate, hmark⟩ := s.kernel.kill_proc pid p
    rcases hmark hp with hmark | hpid
    · exact hold hmark fun hu => (h p hmark).1 (hstate.1 hu)
    · -- the slot that is marked now is in use
      have hused : (s.kernel.proc p).state ≠ .unused := fun hu => hg.1 pid rfl p hu hpid
      exact ⟨fun hu => hused (hstate.1 hu), by simp [hused, Event.kills, hpid]⟩

/-- **`kill` hits live processes only, and nobody is born marked**, in every run in which no `kill`
names a pid that an unused slot holds and no marked creation is given up. -/
theorem kill_hits_live {ncpu : Nat} (h : Run Killing.step Spares (start ncpu) s) {e : Event}
    (hg : s.Spares e) : s.Right e := by
  have hinv : s.kernel.Wf ∧ s.Ok := by
    refine Run.invariant (fun s => s.kernel.Wf ∧ s.Ok)
      ⟨Kernel.boot_wf ncpu, by simp [Ok, start, boot]⟩ ?_ h
    rintro s e s' ⟨hk, hok⟩ hg hs
    refine ⟨?_, hok.step hk hg hs⟩
    rw [Killing.step, Option.map_eq_some_iff] at hs
    obtain ⟨k', hk', rfl⟩ := hs
    exact Kernel.step_wf hk hk'
  refine ⟨fun pid hpid => killRight_of_unused (hg.1 pid hpid), ?_⟩
  intro c _ cur _ np _ hkilled
  exact (hinv.2 np hkilled).2

/-- The child of the first process is killed under its pid on another CPU before `fork` makes it
`RUNNABLE`. -/
theorem kill_hits_embryo : ∃ s, Run Killing.step Spares (start 2) s ∧
    ((s.kernel.proc 2).killed = true ∧ s.kernel.ctl 0 = .publishing 2) ∧
    s.Right (.call 0 .publish) := by
  obtain ⟨s, hrun, hs⟩ := exists_run_of_runs Killing.step Spares (start 2)
    [.userinit, .dispatch 0 0, .call 0 (.allocproc false), .call 0 .adopt, .call 0 .publish,
      .dispatch 1 1, .call 0 (.allocproc false), .call 1 (.kill 3), .call 0 .adopt]
    (fun s => decide (((s.kernel.proc 2).killed = true ∧ s.kernel.ctl 0 = .publishing 2) ∧
      s.Spares (.call 0 .publish))) (by decide +kernel)
  obtain ⟨hmark, hspares⟩ := of_decide_eq_true hs
  exact ⟨s, hrun, hmark, kill_hits_live hrun hspares⟩

/-- **A process killed at birth**: nobody has pid 0, but `kill(0)` returns 0 and marks the first
unused slot; the process that `fork` makes there becomes `RUNNABLE` with the mark. -/
theorem killed_at_birth :
    (∃ s, Reachable Killing.step (start 1) s ∧ (s.kernel.kill 0).1 = true ∧
      ¬ s.Right (.call 0 (.kill 0))) ∧
    ∃ s, Reachable Killing.step (start 1) s ∧ ¬ s.Right (.call 0 .publish) := by
  constructor
  · obtain ⟨s, hrun, hs⟩ := exists_run_of_runs Killing.step (fun _ _ => True) (start 1)
      [.userinit, .dispatch 0 0]
      (fun s => decide ((s.kernel.kill 0).1 = true ∧ ∀ p, (s.kernel.proc p).pid = 0 →
        (s.kernel.proc p).state = .unused)) (by decide +kernel)
    obtain ⟨hzero, hunused⟩ := of_decide_eq_true hs
    refine ⟨s, hrun, hzero, fun hright => ?_⟩
    rcases hright.1 0 rfl with ⟨p, hp, hused⟩ | hfail
    · exact hused (hunused p hp)
    · simp [hfail] at hzero
  · obtain ⟨s, hrun, hs⟩ := exists_run_of_runs Killing.step (fun _ _ => True) (start 1)
      [.userinit, .dispatch 0 0, .call 0 (.kill 0), .call 0 (.allocproc false), .call 0 .adopt]
      (fun s => decide (s.kernel.cpu 0 = some 0 ∧ s.kernel.ctl 0 = .publishing 1 ∧
        (s.kernel.proc 1).killed = true ∧ s.named 1 = false)) (by decide +kernel)
    obtain ⟨hcpu, hctl, hkilled, hnamed⟩ := of_decide_eq_true hs
    refine ⟨s, hrun, fun hright => ?_⟩
    have hbad := hright.2 0 rfl 0 hcpu 1 hctl hkilled
    simp [hnamed] at hbad

end Killing

end Xv6
