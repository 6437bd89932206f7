import Xv6.Locking.Calls
import Xv6.Processes.Effects

/-! # The balance of `ptable.lock`

A call is balanced when it returns with the depth of `pushcli` it was entered with, and with
`ptable.lock` held exactly if it was held on entry. Code that is balanced in every run `Keeps` the
balance, and code entered with the lock that gives it back `Drops` it; both compose along binds, so
that each call is settled by following its text.

* **`lock_balance`** — a call that returns is balanced unless it is a `thread_join` of the group's
  first process, which returns with the lock still held. -/

namespace Xv6.Locking

open Foundation

/-- The balance of a call entered in `s` that returns in `s'`. -/
structure Balanced (s s' : Core) : Prop where
  ncli : s'.cpu.ncli = s.cpu.ncli
  ptable : s'.holds .ptable = s.holds .ptable

/-- Code that is balanced whenever it returns. -/
def Keeps {α : Type} (m : Code α) : Prop :=
  ∀ s a s', Returns m s a s' → Balanced s s'

/-- Code that, entered with `ptable.lock`, has released it whenever it returns. -/
def Drops {α : Type} (m : Code α) : Prop :=
  ∀ s a s', Returns m s a s' → s.holds .ptable = true →
    s'.cpu.ncli = s.cpu.ncli - 1 ∧ s'.holds .ptable = false

/-! ## The rules -/

section

variable {α β : Type} {s s' s'' : Core}

theorem Balanced.refl (s : Core) : Balanced s s := ⟨rfl, rfl⟩

theorem Balanced.trans (h : Balanced s s') (h' : Balanced s' s'') : Balanced s s'' :=
  ⟨h'.ncli.trans h.ncli, h'.ptable.trans h.ptable⟩

theorem Balanced.of_view (h : s'.view = s.view) : Balanced s s' :=
  ⟨congrArg View.ncli h, congrFun (congrArg View.held h) .ptable⟩

theorem Keeps.pure (a : α) : Keeps (pure a : Code α) := by
  intro s b s' h
  obtain ⟨-, rfl⟩ := returns_pure.1 h
  exact .refl _

theorem Keeps.get : Keeps (get : Code Core) := by
  intro s b s' h
  obtain ⟨-, rfl⟩ := returns_get.1 h
  exact .refl _

theorem Keeps.mapKernel (f : Kernel → Kernel) :
    Keeps (modify (·.mapKernel f) : Code PUnit) := by
  intro s b s' h
  obtain rfl := returns_modify.1 h
  exact ⟨rfl, rfl⟩

theorem Keeps.bind {m : Code α} {f : α → Code β} (hm : Keeps m) (hf : ∀ a, Keeps (f a)) :
    Keeps (m >>= f) := by
  intro s b s'' h
  obtain ⟨a, s', h, h'⟩ := returns_bind.1 h
  exact (hm s a s' h).trans (hf a s' b s'' h')

theorem Keeps.onlyIf {p : Prop} [Decidable p] {m : Code PUnit} (hm : Keeps m) :
    Keeps (onlyIf p m) := by
  intro s u s' h
  obtain ⟨-, h⟩ | ⟨-, rfl⟩ := returns_onlyIf.1 h
  · exact hm s u s' h
  · exact .refl _

theorem Keeps.times {m : Code PUnit} (hm : Keeps m) : ∀ n, Keeps (times n m)
  | 0 => .pure _
  | n + 1 => hm.bind fun _ => Keeps.times hm n

theorem Drops.bind {m : Code α} {f : α → Code β} (hm : Keeps m) (hf : ∀ a, Drops (f a)) :
    Drops (m >>= f) := by
  intro s b s'' h hs
  obtain ⟨a, s', h, h'⟩ := returns_bind.1 h
  have hk := hm s a s' h
  obtain ⟨hn, hp⟩ := hf a s' b s'' h' (hk.ptable.trans hs)
  exact ⟨by rw [hn, hk.ncli], hp⟩

theorem Drops.release {f : PUnit → Code β} (hf : ∀ u, Keeps (f u)) :
    Drops (release .ptable >>= f) := by
  intro s b s'' h _
  obtain ⟨u, s', h, h'⟩ := returns_bind.1 h
  obtain ⟨-, hview, -⟩ := release_view h
  have hk := hf u s' b s'' h'
  have hn : s'.cpu.ncli = s.cpu.ncli - 1 := congrArg View.ncli hview
  have hp : s'.holds .ptable = false := by
    simpa using congrFun (congrArg View.held hview) .ptable
  exact ⟨hk.ncli.trans hn, hk.ptable.trans hp⟩

/-- **A critical section of `ptable.lock`**: what follows the `acquire` gives it back. -/
theorem Keeps.acquire {f : PUnit → Code β} (hf : ∀ u, Drops (f u)) :
    Keeps (acquire .ptable >>= f) := by
  intro s b s'' h
  obtain ⟨u, s', h, h'⟩ := returns_bind.1 h
  obtain ⟨hfree, hview, -⟩ := acquire_view h
  have hn : s'.cpu.ncli = s.cpu.ncli + 1 := congrArg View.ncli hview
  have hp : s'.holds .ptable = true := by
    simpa using congrFun (congrArg View.held hview) .ptable
  obtain ⟨hn', hp'⟩ := hf u s' b s'' h' hp
  exact ⟨by omega, hp'.trans hfree.symm⟩

theorem Keeps.locked {lk : Lock} {m : Code α} {f : α → Code β} (hlk : lk ≠ .ptable) (hm : Keeps m)
    (hf : ∀ a, Keeps (f a)) :
    Keeps (do Locking.acquire lk; let a ← m; Locking.release lk; f a) := by
  intro s b s'' h
  simp only [returns_bind] at h
  obtain ⟨_, s1, h1, a, s2, h2, _, s3, h3, h4⟩ := h
  obtain ⟨-, hv1, -⟩ := acquire_view h1
  obtain ⟨-, hv3, -⟩ := release_view h3
  have hk2 := hm s1 a s2 h2
  have hk4 := hf a s3 b s'' h4
  have hn1 : s1.cpu.ncli = s.cpu.ncli + 1 := congrArg View.ncli hv1
  have hn3 : s3.cpu.ncli = s2.cpu.ncli - 1 := congrArg View.ncli hv3
  have hp1 : s1.holds .ptable = s.holds .ptable := by
    simpa [hlk.symm] using congrFun (congrArg View.held hv1) .ptable
  have hp3 : s3.holds .ptable = s2.holds .ptable := by
    simpa [hlk.symm] using congrFun (congrArg View.held hv3) .ptable
  refine ⟨?_, ?_⟩
  · have := hk2.ncli
    have := hk4.ncli
    omega
  · rw [hk4.ptable, hp3, hk2.ptable, hp1]

end

/-! ## The code around the process table -/

theorem myproc_keeps : Keeps myproc :=
  fun _ _ _ h => .of_view (myproc_view h).1

theorem ask_keeps : Keeps ask := by
  intro s a s' h
  obtain ⟨_, _, ⟨rfl, rfl⟩, _, _, rfl, -, rfl⟩ := h
  exact ⟨rfl, rfl⟩

theorem acquire_release_keeps {lk : Lock} (hlk : lk ≠ .ptable) :
    Keeps (do acquire lk; release lk) := by
  simpa using Keeps.locked hlk (Keeps.pure PUnit.unit) Keeps.pure

theorem kalloc_keeps : Keeps kalloc :=
  .locked (by decide) ask_keeps fun _ => .pure _

theorem kfree_keeps : Keeps kfree := acquire_release_keeps (by decide)

theorem freevm_keeps : Keeps freevm :=
  ask_keeps.bind fun n => .times kfree_keeps n

theorem copyuvm_keeps : Keeps copyuvm :=
  ask_keeps.bind fun n => (Keeps.times (kalloc_keeps.bind fun _ => .pure _) n).bind fun _ =>
    freevm_keeps.bind fun _ => ask_keeps.bind fun _ => .pure _

theorem cprintf_keeps : Keeps cprintf :=
  ask_keeps.bind fun _ => .onlyIf (acquire_release_keeps (by decide))

/-! ## Leaving the CPU -/

section

variable {cur : Slot} {s s' : Core} {u : PUnit}

theorem swtch_returns (h : Returns (swtch cur) s u s') :
    s'.cpu.ncli = 1 ∧ s'.holds .ptable = true ∧
      (s'.kernel.proc cur).firstPid = (s.kernel.proc cur).firstPid := by
  simp only [swtch, returns_bind, returns_get] at h
  obtain ⟨_, _, ⟨rfl, rfl⟩, h⟩ := h
  split at h
  · exact absurd h returns_throw
  · rename_i r rs _
    simp only [returns_bind, returns_modify] at h
    obtain ⟨_, _, rfl, _, _, rfl, h⟩ := h
    obtain ⟨-, hview, hquiet⟩ := acquire_view h
    refine ⟨congrArg View.ncli hview, ?_, ?_⟩
    · simpa using congrFun (congrArg View.held hview) .ptable
    · simp [hquiet.kernel, Resume.idle, Resume.table]

/-- **What `sched` requires and what it gives back**: depth one and `ptable.lock`, both times. -/
theorem sched_returns (h : Returns (sched cur) s u s') :
    s.cpu.ncli = 1 ∧ s.holds .ptable = true ∧ s'.cpu.ncli = 1 ∧ s'.holds .ptable = true ∧
      (s'.kernel.proc cur).firstPid = (s.kernel.proc cur).firstPid := by
  simp only [sched, returns_bind, returns_modify, returns_stopIf, returns_get] at h
  obtain ⟨_, s1, h1, _, _, rfl, b, s2, h2, _, _, ⟨hb, rfl⟩, c, _, hc, _, _, ⟨hn, rfl⟩, _, _,
    ⟨rfl, rfl⟩, _, _, ⟨-, rfl⟩, _, _, ⟨-, rfl⟩, _, s3, h3, rfl⟩ := h
  obtain ⟨rfl, rfl⟩ := mycpu_returns hc
  obtain ⟨hv1, -, hq1⟩ := myproc_view h1
  obtain ⟨rfl, hv2, -, hq2⟩ := holding_view h2
  obtain ⟨hn3, hp3, hg3⟩ := swtch_returns h3
  have hn1 : s1.cpu.ncli = s.cpu.ncli := congrArg View.ncli hv1
  have hp1 : s1.holds .ptable = s.holds .ptable := congrFun (congrArg View.held hv1) .ptable
  have hn2 := congrArg View.ncli hv2
  refine ⟨?_, ?_, hn3, hp3, ?_⟩
  · rw [← hn1]
    exact hn2.symm.trans (not_not.1 hn)
  · rw [← hp1]
    simpa using hb
  · rw [Core.setIntena_kernel, hg3, hq2.kernel]
    simp [hq1.kernel]

theorem sched_keeps : Keeps (sched cur) := by
  intro s u s' h
  obtain ⟨hn, hp, hn', hp', -⟩ := sched_returns h
  exact ⟨hn'.trans hn.symm, hp'.trans hp.symm⟩

theorem yield_keeps : Keeps (yield cur) := by
  refine .acquire fun _ => .bind myproc_keeps fun _ => .bind (.mapKernel _) fun _ =>
    .bind sched_keeps fun _ => ?_
  simpa using Drops.release (f := Pure.pure) Keeps.pure

theorem yieldIfPriority_keeps : Keeps (yieldIfPriority cur) := by
  intro s u s' h
  simp only [yieldIfPriority, returns_bind] at h
  obtain ⟨_, s1, h1, c, _, hc, _, s2, h2, h3⟩ := h
  obtain ⟨-, rfl⟩ := mycpu_returns hc
  exact (Balanced.of_view (view_push_pop h1 h2).1).trans (Keeps.onlyIf yield_keeps _ _ _ h3)

/-- **`sleep` is balanced**: `lk` is given up for `ptable.lock` and taken back for it. -/
theorem sleep_keeps (chan : Chan) (lk : Lock) : Keeps (sleep cur chan lk) := by
  intro s u s' h
  simp only [sleep, returns_bind, returns_modify, returns_onlyIf] at h
  obtain ⟨_, s1, h1, _, s2, h2, _, _, rfl, _, s3, h3, _, _, rfl, h4⟩ := h
  have hk1 := myproc_keeps s _ s1 h1
  have hk3 := sched_keeps _ _ s3 h3
  obtain ⟨hlk, _, s1', ha, hr⟩ | ⟨hlk, rfl⟩ := h2
  · obtain ⟨-, _, s3', hr', ha'⟩ | ⟨h, -⟩ := h4
    · -- the depth: up, down, over `sched`, down, up
      obtain ⟨hfree, hva, -⟩ := acquire_view ha
      obtain ⟨-, hvr, -⟩ := release_view hr
      obtain ⟨-, hvr', -⟩ := release_view hr'
      obtain ⟨-, hva', -⟩ := acquire_view ha'
      have na : s1'.cpu.ncli = s1.cpu.ncli + 1 := congrArg View.ncli hva
      have nr : s2.cpu.ncli = s1'.cpu.ncli - 1 := congrArg View.ncli hvr
      have nr' : s3'.cpu.ncli = s3.cpu.ncli - 1 := congrArg View.ncli hvr'
      have na' : s'.cpu.ncli = s3'.cpu.ncli + 1 := congrArg View.ncli hva'
      have hdown : s3'.holds .ptable = false := by
        simpa using congrFun (congrArg View.held hvr') .ptable
      have hback : s'.holds .ptable = s3'.holds .ptable := by
        simpa [hlk.symm] using congrFun (congrArg View.held hva') .ptable
      refine ⟨?_, ?_⟩
      · have h1 := hk1.ncli
        have h3 : s3.cpu.ncli = s2.cpu.ncli := hk3.ncli
        omega
      · rw [hback, hdown, ← hk1.ptable]
        exact hfree.symm
    · exact absurd hlk h
  · obtain ⟨h, -⟩ | ⟨-, rfl⟩ := h4
    · exact absurd h hlk
    · exact hk1.trans ⟨hk3.ncli, hk3.ptable⟩

theorem sleep_group {chan : Chan} (h : Returns (sleep cur chan .ptable) s u s') :
    (s'.kernel.proc cur).firstPid = (s.kernel.proc cur).firstPid := by
  simp only [sleep, returns_bind, returns_modify, returns_onlyIf, ne_eq, not_true_eq_false,
    false_and, not_false_eq_true, true_and, false_or] at h
  obtain ⟨_, s1, h1, _, _, rfl, _, _, rfl, _, s3, h3, _, _, rfl, rfl⟩ := h
  obtain ⟨-, -, -, -, hgroup⟩ := sched_returns h3
  simp [hgroup, (myproc_view h1).2.2.kernel]

/-! ## Creating a process -/

theorem release_drops {α : Type} (a : α) : Drops (do release .ptable; return a) :=
  .release fun _ => .pure _

theorem allocproc_keeps : Keeps allocproc := by
  refine .acquire fun _ => .bind .get fun s => ?_
  split
  · exact release_drops _
  · refine .bind (.mapKernel _) fun _ => .release fun _ => kalloc_keeps.bind fun ok => ?_
    split
    · exact .pure _
    · exact .bind (.mapKernel _) fun _ => .pure _

theorem publish_keeps (np : Slot) (thread : Bool) : Keeps (publish cur np thread) := by
  refine .bind (.mapKernel _) fun _ => ask_keeps.bind fun files =>
    (Keeps.times (acquire_release_keeps (by decide)) files).bind fun _ =>
    (acquire_release_keeps (by decide)).bind fun _ => .bind .get fun s => ?_
  refine .acquire fun _ => .bind (.mapKernel _) fun _ => .release fun _ =>
    yieldIfPriority_keeps.bind fun _ => .pure _

theorem fork_keeps : Keeps (fork cur) := by
  refine myproc_keeps.bind fun _ => allocproc_keeps.bind fun r => ?_
  cases r with
  | none => exact .pure _
  | some np =>
    refine copyuvm_keeps.bind fun ok => ?_
    split
    · exact publish_keeps np false
    · exact kfree_keeps.bind fun _ => .bind (.mapKernel _) fun _ => .pure _

theorem threadCreate_keeps : Keeps (threadCreate cur) := by
  refine myproc_keeps.bind fun _ => allocproc_keeps.bind fun r => ?_
  cases r with
  | none => exact cprintf_keeps.bind fun _ => .pure _
  | some np =>
    refine copyuvm_keeps.bind fun ok => ?_
    split
    · exact publish_keeps np true
    · exact kfree_keeps.bind fun _ => .bind (.mapKernel _) fun _ =>
        cprintf_keeps.bind fun _ => .pure _

/-! ## Waiting and waking -/

theorem reap_drops {α : Type} (p : Slot) (a : α) :
    Drops (do
      kfree
      freevm
      modify (·.mapKernel (·.modify p (·.cleared)))
      release .ptable
      return a) :=
  .bind kfree_keeps fun _ => .bind freevm_keeps fun _ => .bind (.mapKernel _) fun _ =>
    release_drops a

theorem diagwaitLoop_drops : ∀ fuel, Drops (diagwaitLoop cur fuel)
  | 0 => fun _ _ _ h => absurd h returns_throw
  | fuel + 1 => by
    refine .bind .get fun s => ?_
    split
    · exact reap_drops _ _
    · exact release_drops _
    · split
      · exact release_drops _
      · exact .bind (sleep_keeps _ _) fun _ => diagwaitLoop_drops fuel

theorem diagwait_keeps : Keeps (diagwait cur) :=
  myproc_keeps.bind fun _ => .acquire fun _ => .bind .get fun _ => diagwaitLoop_drops _

theorem wakeup_keeps (chan : Chan) : Keeps (wakeup chan) := by
  refine .acquire fun _ => .bind (.mapKernel _) fun _ => ?_
  simpa using release_drops PUnit.unit

theorem kill_keeps (pid : Int) : Keeps (kill cur pid) := by
  refine .acquire fun _ => .bind .get fun s => ?_
  split
  · exact release_drops _
  · exact .bind (.mapKernel _) fun _ => .release fun _ =>
      (Keeps.onlyIf yieldIfPriority_keeps).bind fun _ => .pure _

end

/-! ## `thread_join` -/

/-- The scan of `thread_join(tid)` by `cur` finds the group's first process: this is the branch
that returns without `release`. -/
def Leaks (k : Kernel) (cur : Slot) : Call → Prop
  | .threadJoin tid =>
    tid ≠ (k.proc cur).pid ∧ tid = (k.proc cur).firstPid ∧ ∃ p, k.JoinTarget cur tid p
  | _ => False

section

variable {cur : Slot} {tid : Int} {s s' : Core} {a : Int}

theorem joinScan_leader_all {k : Kernel} :
    k.joinScan cur tid (List.finRange NPROC) false = .leader ↔
      tid = (k.proc cur).firstPid ∧ ∃ p, k.JoinTarget cur tid p := by
  simp [Kernel.joinScan_leader_iff]

theorem threadJoinLoop_leader {fuel : Nat} (h : Returns (threadJoinLoop cur tid fuel) s a s')
    (hscan : s.kernel.joinScan cur tid (List.finRange NPROC) false = .leader) : s' = s := by
  cases fuel with
  | zero => exact absurd h returns_throw
  | succ fuel =>
    simp only [threadJoinLoop, returns_bind, returns_get] at h
    obtain ⟨_, _, ⟨rfl, rfl⟩, h⟩ := h
    rw [hscan] at h
    exact (returns_pure.1 h).2

/-- **The loop of `thread_join` releases the lock** if its first round does not find the group's
first process. By induction on the rounds: a caller that slept was joining somebody else, and it
wakes up in the same group, so that no later round finds the first process either. -/
theorem threadJoinLoop_drops {fuel : Nat} (h : Returns (threadJoinLoop cur tid fuel) s a s')
    (hscan : s.kernel.joinScan cur tid (List.finRange NPROC) false ≠ .leader)
    (hs : s.holds .ptable = true) :
    s'.cpu.ncli = s.cpu.ncli - 1 ∧ s'.holds .ptable = false := by
  induction fuel generalizing s with
  | zero => exact absurd h returns_throw
  | succ fuel ih =>
    simp only [threadJoinLoop, returns_bind, returns_get] at h
    obtain ⟨_, _, ⟨rfl, rfl⟩, h⟩ := h
    split at h
    · rename_i hlead
      exact absurd hlead hscan
    · exact reap_drops _ _ _ _ _ h hs
    · exact release_drops _ _ _ _ h hs
    · rename_i halive
      split at h
      · exact release_drops _ _ _ _ h hs
      · obtain ⟨u, s1, hsleep, h⟩ := returns_bind.1 h
        have hk := sleep_keeps _ _ _ _ _ hsleep
        have hne : tid ≠ (s1.kernel.proc cur).firstPid := by
          obtain ⟨hex, hall⟩ := Kernel.joinScan_alive halive
          obtain ⟨p, hp, ht⟩ := hex.resolve_left (by simp)
          rw [sleep_group hsleep, ← ht.2.1, ← ht.2.2]
          exact (hall p hp ht).1
        obtain ⟨hn, hp⟩ := ih h (fun hl => hne (joinScan_leader_all.1 hl).1)
          (hk.ptable.trans hs)
        exact ⟨by rw [hn, hk.ncli], hp⟩

/-- **`thread_join` is balanced unless it finds the group's first process.** -/
theorem threadJoin_balanced (h : Returns (threadJoin cur tid) s a s') :
    Balanced s s' ↔ ¬ Leaks s.kernel cur (.threadJoin tid) := by
  simp only [threadJoin, returns_bind, returns_get] at h
  obtain ⟨_, _, h1, _, s1, ⟨rfl, rfl⟩, h⟩ := h
  have hk1 := myproc_keeps _ _ _ h1
  rw [← (myproc_view h1).2.2.kernel, Leaks, ← joinScan_leader_all]
  split at h
  · rename_i hself
    obtain ⟨-, rfl⟩ := returns_pure.1 h
    simp [hk1, hself]
  · rename_i hself
    obtain ⟨u, s2, h2, h⟩ := returns_bind.1 h
    obtain ⟨hfree, hview, hquiet⟩ := acquire_view h2
    have hn : s2.cpu.ncli = s1.cpu.ncli + 1 := congrArg View.ncli hview
    have hp : s2.holds .ptable = true := by
      simpa using congrFun (congrArg View.held hview) .ptable
    rw [← hquiet.kernel] at hself ⊢
    refine ⟨fun hb hl => ?_, fun hl => hk1.trans ?_⟩
    · -- the lock was free on entry and is held on return
      obtain rfl := threadJoinLoop_leader h hl.2
      have hheld := hb.ptable.symm.trans hp
      rw [← hk1.ptable] at hheld
      exact absurd (hheld.symm.trans hfree) (by simp)
    · obtain ⟨hn', hp'⟩ := threadJoinLoop_drops h (fun hscan => hl ⟨hself, hscan⟩) hp
      exact ⟨by omega, hp'.trans hfree.symm⟩

end

/-! ## Every call -/

theorem Call.keeps (cur : Slot) (call : Call) (h : ∀ tid, call ≠ .threadJoin tid) :
    Keeps (call.run cur) := by
  cases call with
  | fork => exact fork_keeps.bind fun _ => .pure _
  | threadCreate => exact threadCreate_keeps.bind fun _ => .pure _
  | diagwait => exact diagwait_keeps.bind fun _ => .pure _
  | threadJoin tid => exact absurd rfl (h tid)
  | kill pid => exact (kill_keeps pid).bind fun _ => .pure _
  | yield => exact yield_keeps
  | sleep chan lk => exact sleep_keeps chan lk
  | wakeup chan => exact wakeup_keeps chan
  | allocproc => exact allocproc_keeps.bind fun _ => .pure _

/-- **The balance of `ptable.lock`.** For every process table, caller, CPU and behaviour of the
rest of the system: a call that returns is balanced exactly if it is not a `thread_join` whose
target is the first process of the caller's group. -/
theorem lock_balance {cur : Slot} {call : Call} {s s' : Core} {u : PUnit}
    (h : Returns (call.run cur) s u s') : Balanced s s' ↔ ¬ Leaks s.kernel cur call := by
  by_cases hjoin : ∃ tid, call = .threadJoin tid
  · obtain ⟨tid, rfl⟩ := hjoin
    simp only [Call.run, returns_bind, returns_pure] at h
    obtain ⟨a, _, h, -, rfl⟩ := h
    exact threadJoin_balanced h
  · have hne : ∀ tid, call ≠ .threadJoin tid := fun tid htid => hjoin ⟨tid, htid⟩
    refine iff_of_true (call.keeps cur hne s u s' h) ?_
    cases call <;> simp_all [Leaks]

/-- A group of two on CPU 0, idle but for the caller: the process in slot 1 with pid 2 and its
thread in slot 2 with pid 3. -/
def pair : Core where
  id := 0
  cpu := { ncli := 0, intena := false, eflagsIF := true, schedAlg := 0 }
  holder := fun _ => none
  kernel :=
    ((boot 1).modify 1 fun _ => { state := .runnable, pid := 2, firstPid := 2 }).modify 2 fun _ =>
      { state := .running, pid := 3, firstPid := 2, parent := some 1 }
  script := []
  oracle := []

/-- The process in slot 1 is killed by its thread, which returns balanced. -/
theorem lock_balance_kill : ∃ s', Returns ((Call.kill 2).run 2) pair ⟨⟩ s' ∧ Balanced pair s' := by
  obtain ⟨u, s', h, -⟩ := exists_returns (m := (Call.kill 2).run 2) (s := pair)
    (p := fun _ _ => true) (by decide +kernel)
  exact ⟨s', h, (lock_balance h).2 (by simp [Leaks])⟩

/-- **The lock is lost**: the thread in slot 2 joins its group's first process, and returns with
`ptable.lock` held and interrupts off. -/
theorem threadJoin_keeps_lock :
    ∃ s', Returns ((Call.threadJoin 2).run 2) pair ⟨⟩ s' ∧ ¬ Balanced pair s' ∧
      s'.holds .ptable = true ∧ s'.cpu.ncli = 1 := by
  obtain ⟨u, s', h, hs⟩ := exists_returns (m := (Call.threadJoin 2).run 2) (s := pair)
    (p := fun _ s => s.holds .ptable && s.cpu.ncli == 1) (by decide +kernel)
  simp only [Bool.and_eq_true, beq_iff_eq] at hs
  refine ⟨s', h, fun hb => ?_, hs⟩
  have hdepth := hb.ncli
  simp [hs.2, pair] at hdepth

end Xv6.Locking
