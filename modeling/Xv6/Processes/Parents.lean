import Xv6.Processes.Family

/-! # Parents are alive

The family stays a forest rooted at `init` as long as no pid is used twice: up to and including the
creation that uses the last positive pid (`run_counted`). Hence every process other than `init` has
a living parent, who is older (`parents_alive`): the slot a parent pointer names was not recycled,
or it would hold a younger process. -/

namespace Xv6

open Foundation

namespace Forest

/-- The family is a forest when its pids are counted without wrapping, and `nextpid` has wrapped at
most once. -/
def Counted (f : Forest) : Prop :=
  ∃ n ≤ 2 ^ 31, f.nextpid = int32 n ∧ (f.withNext n).Ok

section

variable {f f' : Forest}

theorem Step.withNext {l : Option Slot} (h : f.Step l f') (hn : f'.nextpid = f.nextpid) (n : Int) :
    (f.withNext n).Step l (f'.withNext n) := by
  cases h with
  | stay => exact .stay
  | boot | create => exact absurd hn (int32_succ_ne f.nextpid)
  | abandon cur np hb => exact .abandon cur np hb
  | adopt cur np firstPid hb => exact .adopt cur np firstPid hb
  | publish cur np hb => exact .publish cur np hb
  | exit cur init hinit hne hcur hb => exact .exit cur init hinit hne hcur hb
  | reap z hz => exact .reap z hz

/-- **Every change keeps the family a forest**, if it does not use a pid after the last one. -/
theorem Step.counted {l : Option Slot} (h : f.Step l f') (hf : f.Counted)
    (hpids : f'.nextpid = f.nextpid ∨ 0 < f.nextpid) : f'.Counted := by
  obtain ⟨n, hle, hn, hok⟩ := hf
  by_cases hsame : f'.nextpid = f.nextpid
  · exact ⟨n, hle, hsame.trans hn, (h.withNext hsame n).ok hok (.inl rfl)⟩
  · -- a pid is used up, so the count has not wrapped yet
    have hpos := hpids.resolve_left hsame
    have hone : 1 ≤ n := hok.next
    have hlt : n < 2 ^ 31 := by
      refine lt_of_le_of_ne hle ?_
      rintro rfl
      rw [hn] at hpos
      exact absurd hpos (by decide)
    have hnext : f.nextpid = n := hn.trans (int32_eq (by omega) hlt)
    have hf : f.withNext n = f := by rw [← hnext]; rfl
    rw [hf] at hok
    refine ⟨n + 1, by omega, ?_, h.ok_next hok ?_⟩
    · rw [h.nextpid.resolve_left hsame, hnext]
    · rw [if_neg hsame, hnext]

end

end Forest

namespace Kernel

/-- The steps that use up a pid come before `nextpid` has wrapped: fewer than `2 ^ 31` processes are
created. -/
def PidsFresh (k : Kernel) (e : Event) : Prop :=
  e.allocates → 0 < k.nextpid

instance (k : Kernel) (e : Event) : Decidable (k.PidsFresh e) :=
  inferInstanceAs (Decidable (e.allocates → 0 < k.nextpid))

theorem boot_counted (ncpu : Nat) : (boot ncpu).forest.Counted :=
  ⟨1, by norm_num, rfl, boot_forest_ok ncpu⟩

theorem step_counted {k k' : Kernel} {e : Event} (hk : k.Wf) (hf : k.forest.Counted)
    (hg : k.PidsFresh e) (h : k.step e = some k') : k'.forest.Counted := by
  obtain ⟨l, hstep, -⟩ := step_forest hk h
  exact hstep.counted hf ((step_nextpid hk h).imp_right hg)

/-- **The family is a forest in every run** that uses no pid twice. -/
theorem run_counted {ncpu : Nat} {k : Kernel} (h : Run step PidsFresh (boot ncpu) k) :
    k.Wf ∧ k.forest.Counted := by
  refine Run.invariant (fun k => k.Wf ∧ k.forest.Counted) ⟨boot_wf ncpu, boot_counted ncpu⟩ ?_ h
  rintro k e k' ⟨hk, hf⟩ hg hs
  exact ⟨step_wf hk hs, step_counted hk hf hg hs⟩

/-- The slot reached from `q` by following `n` parent pointers. -/
def ancestor (k : Kernel) : Nat → Slot → Option Slot
  | 0, q => some q
  | n + 1, q => (k.proc q).parent.bind (k.ancestor n)

/-- **Parents are alive**: a live process or zombie other than `init` has a parent that is alive and
older, and the chain of parents ends at `init`. -/
def ParentsAlive (k : Kernel) : Prop :=
  ∀ q, (k.proc q).state.live ∨ (k.proc q).state = .zombie →
    (k.initproc ≠ some q → ∃ r, (k.proc q).parent = some r ∧ (k.proc r).state.live ∧
      (k.proc r).pid < (k.proc q).pid) ∧
    ∃ n init, k.initproc = some init ∧ k.ancestor n q = some init

/-- **Every parent is alive and the chain of parents ends at `init`**, in every run with fewer than
`2 ^ 31` creations. -/
theorem parents_alive {ncpu : Nat} {k : Kernel} (h : Run step PidsFresh (boot ncpu) k) :
    k.ParentsAlive := by
  obtain ⟨-, n, -, -, hok⟩ := run_counted h
  have hparent : ∀ q, (k.proc q).state.live ∨ (k.proc q).state = .zombie → k.initproc ≠ some q →
      ∃ r, (k.proc q).parent = some r ∧ (k.proc r).state.live ∧
        (k.proc r).pid < (k.proc q).pid := by
    intro q hq hne
    have hphase := hq.imp live_iff_phase.1 zombie_iff_phase.1
    obtain ⟨r, hr⟩ := Option.ne_none_iff_exists'.1 (hok.parented q hphase hne)
    obtain ⟨-, hlive, hlt⟩ := hok.parent q r hr
    exact ⟨r, hr, live_iff_phase.2 hlive, hlt⟩
  have hpos : ∀ q, (k.proc q).state.live ∨ (k.proc q).state = .zombie → 1 ≤ (k.proc q).pid := by
    intro q hq
    refine (hok.pid q ?_).1
    show (k.proc q).state.phase ≠ .free
    rcases hq with hq | hq
    · rw [live_iff_phase.1 hq]
      exact Phase.noConfusion
    · rw [zombie_iff_phase.1 hq]
      exact Phase.noConfusion
  -- parents are older, so the chain cannot go on for ever
  have hchain : ∀ m : Nat, ∀ q, (k.proc q).state.live ∨ (k.proc q).state = .zombie →
      (k.proc q).pid ≤ m → ∃ n init, k.initproc = some init ∧ k.ancestor n q = some init := by
    intro m
    induction m with
    | zero =>
      intro q hq hm
      have := hpos q hq
      omega
    | succ m ih =>
      intro q hq hm
      by_cases hinit : k.initproc = some q
      · exact ⟨0, q, hinit, rfl⟩
      · obtain ⟨r, hr, hlive, hlt⟩ := hparent q hq hinit
        obtain ⟨n, init, hi, hn⟩ := ih r (.inl hlive) (by omega)
        exact ⟨n + 1, init, hi, by rw [ancestor, hr, Option.bind_some, hn]⟩
  intro q hq
  refine ⟨hparent q hq, hchain (k.proc q).pid.toNat q hq ?_⟩
  have := hpos q hq
  omega

/-- The creator of a thread has exited, and its thread is a child of `init`. -/
theorem parents_alive_after_exit : ∃ k, Run step PidsFresh (boot 1) k ∧
    ((k.proc 1).state = .zombie ∧ (k.proc 2).state = .runnable ∧ (k.proc 2).parent = some 0) ∧
    k.ParentsAlive := by
  obtain ⟨k, hrun, hk⟩ := exists_run_of_runs step PidsFresh (boot 1)
    [.userinit, .dispatch 0 0, .call 0 (.allocproc false), .call 0 .adopt, .call 0 .publish,
      .call 0 .yield, .dispatch 0 1, .call 0 (.allocproc true), .call 0 .adopt, .call 0 .publish,
      .call 0 .exit]
    (fun k => decide ((k.proc 1).state = .zombie ∧ (k.proc 2).state = .runnable ∧
      (k.proc 2).parent = some 0)) (by decide +kernel)
  exact ⟨k, hrun, of_decide_eq_true hk, parents_alive hrun⟩

end Kernel

end Xv6
