import Xv6.Processes.Family

/-! # Who reaps a zombie

`diagwait` collects exited children that are not threads, `thread_join` exited threads of the
caller's own group. Nobody collects an exited thread whose group has no live member left, although
`exit` hands it to `init`.

* `zombie_reapable` — every zombie can be reaped in every run in which the last live member of a
  group exits only as its leader, with all other threads of the group joined;
* `zombie_unreapable` — and a run after which one cannot. -/

namespace Xv6

open Foundation

namespace Forest

/-- An exited thread still has a live member of its group to join it. -/
def Joinable (f : Forest) : Prop :=
  ∀ z, (f.kin z).phase = .zombie → (f.kin z).pid ≠ (f.kin z).firstPid →
    ∃ q, (f.kin q).phase = .live ∧ (f.kin q).firstPid = (f.kin z).firstPid

/-- The exit of `cur` leaves nobody behind: another member of its group is alive, or `cur` is the
leader and no other thread of the group waits to be joined. -/
def LeavesNobody (f : Forest) (cur : Slot) : Prop :=
  (∃ q, q ≠ cur ∧ (f.kin q).phase = .live ∧ (f.kin q).firstPid = (f.kin cur).firstPid) ∨
    ((f.kin cur).pid = (f.kin cur).firstPid ∧
      ∀ z, z ≠ cur → (f.kin z).phase = .zombie → (f.kin z).firstPid = (f.kin cur).firstPid →
        (f.kin z).pid = (f.kin z).firstPid)

section

variable {f f' : Forest}

theorem Joinable.mono (h : f.Joinable)
    (hlive : ∀ q, (f.kin q).phase = .live → (f'.kin q).phase = .live ∧
      (f'.kin q).firstPid = (f.kin q).firstPid)
    (hzombie : ∀ z, (f'.kin z).phase = .zombie → f'.kin z = f.kin z) : f'.Joinable := by
  intro z hz hne
  have hsame := hzombie z hz
  rw [hsame] at hz hne ⊢
  obtain ⟨q, hq, hgroup⟩ := h z hz hne
  exact ⟨q, (hlive q hq).1, (hlive q hq).2.trans hgroup⟩

theorem Joinable.setKin (h : f.Joinable) {p : Slot} {x : Kin} (hp : (f.kin p).phase ≠ .live)
    (hx : x.phase ≠ .zombie) : (f.setKin p x).Joinable := by
  refine h.mono (fun q hq => ?_) (fun z hz => ?_)
  · have hqp : q ≠ p := by rintro rfl; exact hp hq
    simp [hqp, hq]
  · have hzp : z ≠ p := by rintro rfl; simp [hx] at hz
    simp [hzp]

/-- **Exited threads stay joinable**, as long as no exit leaves somebody behind. -/
theorem Step.joinable {l : Option Slot} (h : f.Step l f') (hok : f.Ok)
    (hexit : ∀ cur ∈ l, f.LeavesNobody cur) (hj : f.Joinable) : f'.Joinable := by
  cases h with
  | stay => exact hj
  | boot p hinit =>
    exact hj.setKin (p := p) (x := (f.kin p).named .live f.nextpid)
      (by simp [(hok.fresh hinit).2 p]) (by simp)
  | create cur np hcur hnp =>
    exact hj.setKin (p := np) (x := (f.kin np).named .embryo f.nextpid) (by simp [hnp]) (by simp)
  | abandon cur np hb =>
    exact hj.setKin (p := np) (x := (f.kin np).withPhase .free)
      (by simp [(hok.born cur np _ hb).1]) (by simp)
  | adopt cur np firstPid hb =>
    have hnp := (hok.born cur np _ hb).1
    exact hj.setKin (p := np) (x := (f.kin np).adopted firstPid cur) (by simp [hnp])
      (by simp [hnp])
  | publish cur np hb =>
    exact hj.setKin (p := np) (x := (f.kin np).withPhase .live)
      (by simp [(hok.born cur np _ hb).1]) (by simp)
  | reap z hz => exact hj.setKin (by simp [hz]) (by simp)
  | exit cur init hinit hne hcur hb =>
    -- a live member of the group of `z` other than `cur` survives the exit
    have hsurvivor : ∀ z, (∃ q, q ≠ cur ∧ (f.kin q).phase = .live ∧
          (f.kin q).firstPid = (f.kin z).firstPid) →
        ∃ q, ((f.afterExit cur init).kin q).phase = .live ∧
          ((f.afterExit cur init).kin q).firstPid
            = ((f.afterExit cur init).kin z).firstPid := by
      rintro z ⟨q, hq, hlive, hgroup⟩
      exact ⟨q, by simp [hq, hlive], by simp [hgroup]⟩
    intro z hz hthread
    rw [afterExit_pid, afterExit_firstPid] at hthread
    apply hsurvivor
    obtain ⟨q, hq, hlive, hgroup⟩ | ⟨hleader, hjoined⟩ := hexit cur rfl
    · by_cases hzc : z = cur
      · exact ⟨q, hq, hlive, hzc ▸ hgroup⟩
      · rw [afterExit_phase, if_neg hzc] at hz
        obtain ⟨r, hr, hrz⟩ := hj z hz hthread
        by_cases hrc : r = cur
        · exact ⟨q, hq, hlive, by rw [hgroup, ← hrc, hrz]⟩
        · exact ⟨r, hrc, hr, hrz⟩
    · have hzc : z ≠ cur := by rintro rfl; exact hthread hleader
      rw [afterExit_phase, if_neg hzc] at hz
      obtain ⟨r, hr, hrz⟩ := hj z hz hthread
      refine ⟨r, ?_, hr, hrz⟩
      rintro rfl
      exact hthread (hjoined z hzc hz hrz.symm)

end

end Forest

namespace Kernel

/-- The condition on the steps: pids are left, and nobody is left behind by an exit. -/
def LeavesNobody (k : Kernel) (e : Event) : Prop :=
  k.PidsLeft e ∧ ∀ c ∈ e.cpuOf .exit, ∀ cur ∈ k.cpu c, k.forest.LeavesNobody cur

instance (k : Kernel) (e : Event) : Decidable (k.LeavesNobody e) := by
  unfold LeavesNobody Forest.LeavesNobody
  infer_instance

/-- `z` can be reaped: as a leader by its live parent with `diagwait`, or as a thread by a live
member of its group with `thread_join`. -/
def CanBeReaped (k : Kernel) (z : Slot) : Prop :=
  ((k.proc z).pid = (k.proc z).firstPid ∧
      ∃ q, (k.proc z).parent = some q ∧ (k.proc q).state.live) ∨
    ((k.proc z).pid ≠ (k.proc z).firstPid ∧
      ∃ q, q ≠ z ∧ (k.proc q).state.live ∧ (k.proc q).firstPid = (k.proc z).firstPid)

/-- **No unreapable zombie**, in every run in which no exit leaves somebody behind. -/
theorem zombie_reapable {ncpu : Nat} {k : Kernel} (h : Run step LeavesNobody (boot ncpu) k)
    {z : Slot} (hz : (k.proc z).state = .zombie) : k.CanBeReaped z := by
  have hinv : k.Wf ∧ k.forest.Ok ∧ k.forest.Joinable := by
    refine Run.invariant (fun k => k.Wf ∧ k.forest.Ok ∧ k.forest.Joinable)
      ⟨boot_wf ncpu, boot_forest_ok ncpu, ?_⟩ ?_ h
    · intro z hz
      simp [boot] at hz
    · rintro k e k' ⟨hk, hok, hj⟩ ⟨hpids, hexit⟩ hs
      obtain ⟨l, hstep, hl⟩ := step_forest hk hs
      refine ⟨step_wf hk hs, step_forest_ok hk hok hpids hs, hstep.joinable hok ?_ hj⟩
      intro cur hcur
      obtain ⟨c, rfl, hc⟩ := hl cur hcur
      exact hexit c (by simp [Event.cpuOf]) cur hc
  obtain ⟨-, hok, hj⟩ := hinv
  have hphase : (k.forest.kin z).phase = .zombie := by simp [hz]
  by_cases hlead : (k.proc z).pid = (k.proc z).firstPid
  · -- the parent of a zombie is alive, since `init` is nobody's child and never exits
    have hroot : k.forest.init ≠ some z := by
      intro hi
      rw [(hok.root z hi).1] at hphase
      cases hphase
    cases hpar : (k.proc z).parent with
    | none => exact absurd hpar (hok.parented z (.inr hphase) hroot)
    | some q =>
      refine .inl ⟨hlead, q, hpar, ?_⟩
      exact live_iff_phase.2 (hok.parent z q hpar).2.1
  · obtain ⟨q, hq, hgroup⟩ := hj z hphase hlead
    refine .inr ⟨hlead, q, ?_, live_iff_phase.2 hq, hgroup⟩
    rintro rfl
    rw [hq] at hphase
    cases hphase

/-- The first process forks a child, the child creates a thread, and the thread exits. -/
def threadExits : List Event :=
  [.userinit, .dispatch 0 0, .call 0 (.allocproc false), .call 0 .adopt, .call 0 .publish,
    .call 0 .yield, .dispatch 0 1, .call 0 (.allocproc true), .call 0 .adopt, .call 0 .publish,
    .call 0 .yield, .dispatch 0 2, .call 0 .exit]

/-- The thread in slot 2 has exited and its creator in slot 1 is alive. -/
theorem zombie_reapable_thread :
    ∃ k, Run step LeavesNobody (boot 1) k ∧ (k.proc 2).state = .zombie ∧ k.CanBeReaped 2 := by
  obtain ⟨k, hrun, hk⟩ := exists_run_of_runs step LeavesNobody
    (boot 1) threadExits (p := fun k => decide ((k.proc 2).state = .zombie))
    (by decide +kernel)
  have hz := of_decide_eq_true hk
  exact ⟨k, hrun, hz, zombie_reapable hrun hz⟩

/-- **A zombie nobody can reap**: the creator exits without having joined its exited thread. -/
theorem zombie_unreapable :
    ∃ k, Reachable 1 k ∧ (k.proc 2).state = .zombie ∧ ¬ k.CanBeReaped 2 := by
  obtain ⟨k, hrun, hk⟩ := exists_run_of_runs step (fun _ _ => True)
    (boot 1) (threadExits ++ [.dispatch 0 1, .call 0 .exit])
    (p := fun k => decide ((k.proc 2).state = .zombie ∧ (k.proc 2).pid ≠ (k.proc 2).firstPid ∧
      ∀ q, (k.proc q).state.live → (k.proc q).firstPid ≠ (k.proc 2).firstPid))
    (by decide +kernel)
  obtain ⟨hz, hthread, hnone⟩ := of_decide_eq_true hk
  refine ⟨k, hrun, hz, ?_⟩
  rintro (⟨hlead, -⟩ | ⟨-, q, -, hlive, hgroup⟩)
  · exact hthread hlead
  · exact hnone q hlive hgroup

end Kernel

end Xv6
