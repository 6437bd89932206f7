import Xv6.Processes.Effects

/-! # Steps of a well-formed kernel

The invariant `Kernel.Wf` ties the process records to the CPUs and to the control points, and
`Kernel.op_effect` says, once and for all, what a step of a running process can do to a well-formed
kernel. The invariants of the later modules are proved by cases on `Kernel.Effect`; none of them
unfolds `Kernel.op`. -/

namespace Xv6

open Foundation

/-- The process that a creator at this point is creating. -/
@[simp] def Ctl.makes : Ctl → Option Slot
  | .creating np _ | .publishing np => some np
  | .user | .diagwait | .threadJoin _ | .sleep | .ticketRead _ _ | .ticketWritten _ => none

/-- The points inside a call of `sleep`. -/
@[simp] def Ctl.waits : Ctl → Bool
  | .diagwait | .threadJoin _ | .sleep => true
  | .user | .creating _ _ | .publishing _ | .ticketRead _ _ | .ticketWritten _ => false

variable {x : Ctl} {p : Slot} {ch : Option Chan}

theorem Ctl.makes_eq_none (h : x = .user ∨ x.waits) : x.makes = none := by
  rcases h with rfl | h
  · rfl
  · cases x <;> simp_all

/-- A state and a channel that fit the control point `x` of the process in slot `p`. -/
@[simp] def Fits (p : Slot) (s : ProcState) (ch : Option Chan) : Ctl → Prop
  | .user => ch = none ∧ s ≠ .sleeping
  | .diagwait | .threadJoin _ => s.live ∧ (s = .sleeping → ch = some (.slot p))
  | .sleep => s.live
  | .creating _ _ | .publishing _ | .ticketRead _ _ | .ticketWritten _ =>
    ch = none ∧ (s = .runnable ∨ s = .running)

theorem Fits.user {s : ProcState} (h : Fits p s ch x) (hs : s.live = false) :
    x = .user ∧ ch = none := by
  cases s <;> cases x <;> simp_all [ProcState.live]

theorem Fits.runnable {s : ProcState} (h : Fits p s ch x) (_ : s.live) : Fits p .runnable ch x := by
  cases x <;> simp_all [ProcState.live]

theorem Fits.running (h : Fits p .runnable ch x) : Fits p .running ch x := by
  cases x <;> simp_all [ProcState.live]

namespace Kernel

/-- **Well-formed kernels.** -/
structure Wf (k : Kernel) : Prop where
  /-- Only live processes are inside the kernel, only those in `sleep` sleep, and `diagwait` and
  `thread_join` sleep on the caller's own slot. -/
  fits : ∀ p, Fits p (k.proc p).state (k.proc p).chan (k.ctl p)
  /-- The process on a CPU is `RUNNING`. -/
  onCpu : ∀ c p, k.cpu c = some p → (k.proc p).state = .running ∧ c < k.ncpu
  /-- A `RUNNING` process is on a CPU. -/
  running : ∀ p, (k.proc p).state = .running → ∃ c, k.cpu c = some p
  /-- No process is on two CPUs. -/
  cpuInj : ∀ c c' p, k.cpu c = some p → k.cpu c' = some p → c = c'
  /-- A process being created is an `EMBRYO`. -/
  makes : ∀ p np, (k.ctl p).makes = some np → (k.proc np).state = .embryo
  /-- Nobody is being created twice. -/
  maker : ∀ p q np, (k.ctl p).makes = some np → (k.ctl q).makes = some np → p = q
  /-- Before `userinit` the table is empty. -/
  early : k.initproc = none → ∀ p, (k.proc p).state = .unused

theorem boot_wf (ncpu : Nat) : (boot ncpu).Wf := by
  constructor <;> simp [boot, Ctl.makes, Fits]

variable {k : Kernel} {p cur : Slot} {c : Nat}

theorem Wf.chanNull (hk : k.Wf) (h : k.ctl p = .user) : (k.proc p).chan = none := by
  have hp := hk.fits p
  rw [h] at hp
  exact hp.1

theorem Wf.waits (hk : k.Wf) (h : (k.proc p).state = .sleeping) : (k.ctl p).waits := by
  have hp := hk.fits p
  rw [h] at hp
  cases hx : k.ctl p <;> simp_all

/-! ## Inversion -/

/-- A zombie that `cur` may reap: an exited child that is not a thread, or an exited thread of the
caller's group. -/
def Reapable (k : Kernel) (cur p : Slot) : Prop :=
  (k.proc p).state = .zombie ∧
    (k.WaitTarget cur p ∨ (∃ tid, k.JoinTarget cur tid p) ∧ (k.proc p).pid ≠ (k.proc p).firstPid)

/-- **What one step of the process `cur` on CPU `c` does.** A call that was asleep clears its
channel first; in a call that was not, the channel is null already. -/
inductive Effect (k : Kernel) (c : Nat) (cur : Slot) : Op → Kernel → Prop
  /-- The call fails, or has nothing to do. -/
  | idle (op : Op) : Effect k c cur op k
  | alloc (thread : Bool) (np : Slot) (hctl : k.ctl cur = .user)
      (hnp : (k.proc np).state = .unused) :
      Effect k c cur (.allocproc thread)
        (((k.takeSlot np).setCtl np .user).setCtl cur (.creating np thread))
  | abandon {np : Slot} {thread : Bool} (hctl : k.ctl cur = .creating np thread) :
      Effect k c cur .abandon ((k.modify np (·.abandoned)).setCtl cur .user)
  | adopt {np : Slot} {thread : Bool} (hctl : k.ctl cur = .creating np thread) :
      Effect k c cur .adopt ((k.adopt cur np thread).setCtl cur (.publishing np))
  | publish {np : Slot} (hctl : k.ctl cur = .publishing np) :
      Effect k c cur .publish ((k.ready np).setCtl cur .user)
  | yield : Effect k c cur .yield (k.yield c cur)
  | exit {init : Slot} (hinit : k.initproc = some init) (hctl : k.ctl cur = .user)
      (hne : cur ≠ init) : Effect k c cur .exit (k.exit c cur init)
  /-- `diagwait` or `thread_join` collects a zombie. -/
  | reap (op : Op) {p : Slot} (hctl : k.ctl cur = .user ∨ (k.ctl cur).waits) (hne : p ≠ cur)
      (hp : k.Reapable cur p) :
      Effect k c cur op (((k.modify cur (·.awake)).modify p (·.cleared)).setCtl cur .user)
  /-- A call that slept, or could have, returns. -/
  | return (op : Op) (hctl : k.ctl cur = .user ∨ (k.ctl cur).waits) :
      Effect k c cur op ((k.modify cur (·.awake)).setCtl cur .user)
  /-- `thread_join` returns with the lock held. -/
  | loseLock (tid : Int) (hctl : k.ctl cur = .user ∨ (k.ctl cur).waits) :
      Effect k c cur (.threadJoin tid)
        { (k.modify cur (·.awake)).setCtl cur .user with lockLost := true }
  | waitChild (hctl : k.ctl cur = .user ∨ (k.ctl cur).waits)
      (hall : ∀ p, k.WaitTarget cur p → (k.proc p).state ≠ .zombie) :
      Effect k c cur .diagwait ((k.sleep c cur (.slot cur)).setCtl cur .diagwait)
  | waitThread {tid : Int} (hctl : k.ctl cur = .user ∨ (k.ctl cur).waits)
      (hex : ∃ p, k.JoinTarget cur tid p)
      (hall : ∀ p, k.JoinTarget cur tid p → (k.proc p).state ≠ .zombie) :
      Effect k c cur (.threadJoin tid) ((k.sleep c cur (.slot cur)).setCtl cur (.threadJoin tid))
  | waitObject (addr : Nat) (hctl : k.ctl cur = .user) :
      Effect k c cur (.sleep addr) ((k.sleep c cur (.obj addr)).setCtl cur .sleep)
  /-- `kill` of a process that does not sleep. -/
  | mark (pid : Int) (p : Slot) : Effect k c cur (.kill pid) (k.modify p (·.marked))
  /-- `kill` of a sleeping process. -/
  | rouse (pid : Int) {p : Slot} (hp : (k.proc p).state = .sleeping) :
      Effect k c cur (.kill pid) ((k.modify p (·.marked)).ready p)
  | setTicketCount {n : Int} (hctl : k.ctl cur = .user) (hn : 0 < int32 n) :
      Effect k c cur (.setTicketCount n)
        ((k.addTickets (int32 n - (k.proc cur).ticketCount)).modify cur
          (·.withTickets (int32 n)))
  | ticketRead {n : Int} (hctl : k.ctl cur = .user) (hn : 0 < int32 n) :
      Effect k c cur (.ticketRead n) (k.setCtl cur (.ticketRead (int32 n) k.totalTicketCount))
  | ticketStore {n total : Int} (hctl : k.ctl cur = .ticketRead n total) :
      Effect k c cur .ticketStore
        { k.setCtl cur (.ticketWritten n) with
          totalTicketCount := int32 (total + (n - (k.proc cur).ticketCount)) }
  | ticketCommit {n : Int} (hctl : k.ctl cur = .ticketWritten n) :
      Effect k c cur .ticketCommit ((k.modify cur (·.withTickets n)).setCtl cur .user)
  | charge (hctl : k.ctl cur = .user) :
      Effect k c cur .getProcTimes (k.modify cur (·.charged k.ticks))

theorem modify_awake_eq (h : (k.proc p).chan = none) : k.modify p (·.awake) = k := by
  have hproc : (k.modify p (·.awake)).proc = k.proc := by
    funext q
    rw [modify_proc]
    split
    · subst q
      cases hp : k.proc p
      simp_all [Proc.awake]
    · rfl
  cases k
  simpa [modify] using hproc

theorem modify_awake_sleep (k : Kernel) (c : Nat) (p : Slot) (ch : Chan) :
    (k.modify p (·.awake)).sleep c p ch = k.sleep c p ch := by
  have h : ((k.modify p (·.awake)).modify p (·.asleep ch)) = k.modify p (·.asleep ch) := by
    unfold modify
    congr 1
    funext q
    by_cases hq : q = p <;> simp [hq, Proc.awake, Proc.asleep]
  simp [sleep, h]

theorem modify_field {α : Type} (g : Proc → α) {f : Proc → Proc} (hf : ∀ x, g (f x) = g x)
    (k : Kernel) (p q : Slot) : g ((k.modify p f).proc q) = g (k.proc q) := by
  rw [modify_proc]
  split
  · exact hf _
  · rfl

theorem waitTarget_awake {q : Slot} :
    (k.modify q (·.awake)).WaitTarget cur p ↔ k.WaitTarget cur p := by
  simp only [WaitTarget, modify_field (·.pid) Proc.awake_pid,
    modify_field (·.firstPid) Proc.awake_firstPid, modify_field (·.parent) Proc.awake_parent]

theorem joinTarget_awake {q : Slot} {tid : Int} :
    (k.modify q (·.awake)).JoinTarget cur tid p ↔ k.JoinTarget cur tid p := by
  simp only [JoinTarget, modify_field (·.pid) Proc.awake_pid,
    modify_field (·.firstPid) Proc.awake_firstPid]

theorem diagwait_effect (hrun : (k.proc cur).state = .running)
    (hctl : k.ctl cur = .user ∨ (k.ctl cur).waits) :
    k.Effect c cur .diagwait ((k.modify cur (·.awake)).diagwait c cur).2 := by
  have hstate := modify_field (·.state) Proc.awake_state k cur
  rw [diagwait]
  split
  · rename_i p hscan
    obtain ⟨ht, hz⟩ := waitScan_found hscan
    rw [waitTarget_awake] at ht
    rw [hstate] at hz
    refine .reap _ hctl ?_ ⟨hz, .inl ht⟩
    rintro rfl
    simp [hz] at hrun
  · exact .return _ hctl
  · rename_i hscan
    split
    · exact .return _ hctl
    · rw [modify_awake_sleep]
      refine .waitChild hctl fun p hp => ?_
      rw [← hstate]
      exact waitScan_kids hscan (List.mem_finRange p) (waitTarget_awake.2 hp)

theorem threadJoin_effect (tid : Int) (hctl : k.ctl cur = .user ∨ (k.ctl cur).waits) :
    k.Effect c cur (.threadJoin tid) ((k.modify cur (·.awake)).threadJoin c cur tid).2 := by
  have hpid := modify_field (·.pid) Proc.awake_pid k cur
  have hfirst := modify_field (·.firstPid) Proc.awake_firstPid k cur
  have hstate := modify_field (·.state) Proc.awake_state k cur
  rw [threadJoin]
  split
  · exact .loseLock tid hctl
  · rename_i p hscan
    obtain ⟨ht, hthread, hz⟩ := joinScan_found hscan
    rw [joinTarget_awake] at ht
    rw [hpid, hfirst] at hthread
    rw [hstate] at hz
    exact .reap _ hctl ht.1 ⟨hz, .inr ⟨⟨tid, ht⟩, hthread⟩⟩
  · exact .return _ hctl
  · rename_i hscan
    split
    · exact .return _ hctl
    · rw [modify_awake_sleep]
      obtain ⟨hex, hall⟩ := joinScan_alive hscan
      refine .waitThread hctl ?_ fun p hp => ?_
      · obtain ⟨p, -, ht⟩ := hex.resolve_left (by simp)
        exact ⟨p, joinTarget_awake.1 ht⟩
      · rw [← hstate]
        exact (hall p (List.mem_finRange p) (joinTarget_awake.2 hp)).2

theorem allocproc_some {k' : Kernel} (h : k.allocproc = some (p, k')) :
    (k.proc p).state = .unused ∧ k' = k.takeSlot p := by
  unfold allocproc at h
  split at h
  · simp at h
  · rename_i q hq
    obtain ⟨rfl, rfl⟩ : q = p ∧ k.takeSlot q = k' := by simpa using h
    exact ⟨by simpa using List.find?_some hq, rfl⟩

theorem kill_effect (k : Kernel) (c : Nat) (cur : Slot) (pid : Int) :
    k.Effect c cur (.kill pid) (k.kill pid).2 := by
  unfold kill
  split
  · exact .idle _
  · dsimp only
    split
    · exact .rouse pid ‹_›
    · exact .mark pid _

theorem op_effect {k' : Kernel} {o : Op} (hk : k.Wf) (hcur : k.cpu c = some cur)
    (h : k.op c cur o = some k') : k.Effect c cur o k' := by
  have hrun := (hk.onCpu c cur hcur).1
  -- a fresh call finds its channel null, so it starts like a resumed one
  have hfresh : k.ctl cur = .user → k.modify cur (·.awake) = k :=
    fun hctl => modify_awake_eq (hk.chanNull hctl)
  cases o with
  | allocproc thread =>
    simp only [op] at h
    split at h
    · rename_i hctl
      split at h
      · cases h; exact .idle _
      · rename_i np k1 halloc
        obtain ⟨hnp, rfl⟩ := allocproc_some halloc
        cases h
        exact .alloc thread np hctl hnp
    · cases h
  | abandon | adopt | publish | sleep | ticketStore | ticketCommit | getProcTimes =>
    simp only [op] at h
    split at h
    · cases h
      first
        | exact .abandon ‹_› | exact .adopt ‹_› | exact .publish ‹_› | exact .waitObject _ ‹_›
        | exact .ticketStore ‹_› | exact .ticketCommit ‹_› | exact .charge ‹_›
    · cases h
  | yield =>
    cases h
    exact .yield
  | exit =>
    simp only [op] at h
    split at h
    · cases h
    · rename_i init hinit
      split at h
      · rename_i hexit
        cases h
        exact .exit hinit hexit.1 hexit.2
      · cases h
  | diagwait =>
    simp only [op] at h
    split at h
    · rename_i hctl
      cases h
      have heff := diagwait_effect (c := c) hrun (.inl hctl)
      rwa [hfresh hctl] at heff
    · split at h
      · rename_i hctl
        cases h
        exact diagwait_effect hrun (.inr (by simp [hctl, Ctl.waits]))
      · cases h
  | threadJoin tid =>
    simp only [op] at h
    split at h
    · rename_i hctl
      split at h
      · cases h; exact .idle _
      · cases h
        have heff := threadJoin_effect (c := c) tid (.inl hctl)
        rwa [hfresh hctl] at heff
    · split at h
      · rename_i hctl
        cases h
        exact threadJoin_effect tid (.inr (by simp [hctl, Ctl.waits]))
      · cases h
  | awake =>
    simp only [op] at h
    split at h
    · rename_i hctl
      cases h
      exact .return _ (.inr (by simp [hctl, Ctl.waits]))
    · cases h
  | kill pid =>
    simp only [op] at h
    split at h
    · cases h; exact kill_effect k c cur pid
    · cases h
  | setTicketCount n =>
    simp only [op, setTicketCount] at h
    split at h
    · rename_i hctl
      cases h
      split
      · exact .setTicketCount hctl ‹_›
      · exact .idle _
    · cases h
  | ticketRead n =>
    simp only [op] at h
    split at h
    · rename_i hread
      cases h
      exact .ticketRead hread.1 hread.2
    · cases h

end Kernel

end Xv6
