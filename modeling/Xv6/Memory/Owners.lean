import Xv6.Memory.Rules

/-! # Processes that have an address space

From `userinit`, `fork` or `thread_create` to the moment it is reaped a process has a page directory
and a kernel stack. Only the system calls of `Calls` change what it has: **`plain_space`** says that
every other step of the process table leaves it alone. -/

namespace Xv6

/-- A process that has an address space. -/
def ProcState.used : ProcState → Bool
  | .unused | .embryo => false
  | .sleeping | .runnable | .running | .zombie => true

theorem ProcState.used_of_live {x : ProcState} (h : x.live) : x.used := by
  cases x <;> simp_all [live, used]

/-- What the record of a process says about its memory. -/
structure Space where
  pgdir : Nat
  kstack : Nat
  sz : Nat
  tf : TrapFrame
  firstPid : Int
  used : Bool

namespace Proc

/-- The part of the record that is about memory. -/
def space (x : Proc) : Space := ⟨x.pgdir, x.kstack, x.sz, x.tf, x.firstPid, x.state.used⟩

theorem space_congr {x y : Proc} (h1 : y.pgdir = x.pgdir) (h2 : y.kstack = x.kstack)
    (h3 : y.sz = x.sz) (h4 : y.tf = x.tf) (h5 : y.firstPid = x.firstPid)
    (h6 : y.state.used = x.state.used) : y.space = x.space := by
  simp [space, h1, h2, h3, h4, h5, h6]

theorem space_readied {x : Proc} (h : x.state = .sleeping) (now : Nat) :
    (x.readied now).space = x.space :=
  space_congr rfl rfl rfl rfl rfl (by simp [h, ProcState.used])

end Proc

namespace Kernel

variable {k k' : Kernel}

variable {p : Slot}

/-- A process whose record did not change, or changed in a way that does not concern memory. -/
theorem space_modify {f : Proc → Proc} (hf : (f (k.proc p)).space = (k.proc p).space) (q : Slot) :
    ((k.modify p f).proc q).space = (k.proc q).space := by
  rw [modify_proc]
  split
  · rename_i hq
    rw [hq, hf]
  · rfl

theorem space_wakeup1 (k : Kernel) (ch : Chan) (q : Slot) :
    ((k.wakeup1 ch).proc q).space = (k.proc q).space := by
  rw [wakeup1_proc]
  split
  · rename_i h
    exact Proc.space_readied h.1 _
  · rfl

theorem space_orphaned (k : Kernel) (cur init q : Slot) :
    (k.orphaned cur init q).space = (k.proc q).space := by
  have hhand : (k.handed init (k.ExitChild cur) q).space = (k.proc q).space := by
    unfold handed
    split <;> rfl
  by_cases h : k.Roused (k.ExitWakes cur init) q
  · rw [orphaned, relinked, if_pos h, Proc.space_readied (by rw [handed_state]; exact h.1), hhand]
  · rw [orphaned, relinked, if_neg h, hhand]

theorem space_of_ne (hne : ∀ q ≠ p, k'.proc q = k.proc q)
    (hp : (k'.proc p).space = (k.proc p).space) (q : Slot) :
    (k'.proc q).space = (k.proc q).space := by
  by_cases hq : q = p
  · rw [hq, hp]
  · rw [hne q hq]

theorem space_sleep (c : Nat) (hp : (k.proc p).state = .running) (ch : Chan) (q : Slot) :
    ((k.sleep c p ch).proc q).space = (k.proc q).space :=
  space_of_ne (p := p) (fun q hq => by simp [sleep, sched, hq])
    (Proc.space_congr (by simp [sleep, sched]) (by simp [sleep, sched]) (by simp [sleep, sched])
      (by simp [sleep, sched]) (by simp [sleep, sched])
        (by simp [sleep, sched, hp, ProcState.used])) q

theorem space_ready (hp : (k.proc p).state = .sleeping) (q : Slot) :
    ((k.ready p).proc q).space = (k.proc q).space :=
  space_of_ne (p := p) (fun q hq => by simp [ready, hq])
    (by simpa [ready] using Proc.space_readied hp k.ticks) q

theorem space_yield {c : Nat} (hp : (k.proc p).state = .running) (q : Slot) :
    ((k.yield c p).proc q).space = (k.proc q).space :=
  space_of_ne (p := p) (fun q hq => by simp [yield, sched, hq])
    (Proc.space_congr (by simp [yield, sched]) (by simp [yield, sched]) (by simp [yield, sched])
      (by simp [yield, sched]) (by simp [yield, sched])
        (by simp [yield, sched, hp, ProcState.used])) q

theorem space_dispatch {c : Nat} (hp : (k.proc p).state = .runnable) (q : Slot) :
    ((k.dispatch c p).proc q).space = (k.proc q).space :=
  space_of_ne (p := p) (fun q hq => by simp [dispatch, hq])
    (Proc.space_congr (by simp [dispatch]) (by simp [dispatch]) (by simp [dispatch])
      (by simp [dispatch]) (by simp [dispatch]) (by simp [dispatch, hp, ProcState.used])) q

theorem plain_space {e : Event} (hk : k.Wf) (he : Memory.plain e) (h : k.step e = some k')
    (q : Slot) : (k'.proc q).space = (k.proc q).space := by
  cases e with
  | userinit => cases he
  | tick =>
    cases h
    rfl
  | wakeup addr =>
    rw [step_wakeup h]
    exact space_wakeup1 k _ q
  | dispatch c p =>
    obtain ⟨⟨-, -, hp⟩, rfl⟩ := step_dispatch h
    exact space_dispatch hp q
  | call c o =>
    simp only [step] at h
    split at h
    · cases h
    rename_i cur hcur
    split at h
    · cases h
    have hrun := (hk.onCpu c cur hcur).1
    cases o with
    | allocproc thread | abandon | adopt | publish | diagwait | threadJoin tid =>
      cases he
    | yield =>
      cases h
      exact space_yield hrun q
    | exit =>
      simp only [op] at h
      split at h
      · cases h
      rename_i init hinit
      split at h
      · cases h
        by_cases hq : q = cur
        · rw [hq, exit_proc_self c init hrun]
          exact Proc.space_congr rfl rfl rfl rfl rfl (by simp [hrun, ProcState.used])
        · rw [exit_proc_ne k c hq, space_orphaned]
      · cases h
    | sleep addr =>
      simp only [op] at h
      split at h
      · cases h
        exact space_sleep c hrun _ q
      · cases h
    | awake =>
      simp only [op] at h
      split at h
      · cases h
        exact space_modify (f := Proc.awake) (p := cur) rfl q
      · cases h
    | kill pid =>
      simp only [op] at h
      split at h
      · cases h
        unfold kill
        split
        · rfl
        · rename_i p _
          dsimp only
          split
          · rename_i hp
            rw [space_ready (by simp [hp])]
            exact space_modify (f := Proc.marked) (p := p) rfl q
          · exact space_modify (f := Proc.marked) (p := p) rfl q
      · cases h
    | setTicketCount n =>
      simp only [op] at h
      split at h
      · cases h
        unfold setTicketCount
        split
        · exact space_modify (f := (Proc.withTickets · _)) (p := cur) rfl q
        · rfl
      · cases h
    | ticketRead n | ticketStore =>
      simp only [op] at h
      split at h
      · cases h
        rfl
      · cases h
    | ticketCommit =>
      simp only [op] at h
      split at h
      · cases h
        exact space_modify (f := (Proc.withTickets · _)) (p := cur) rfl q
      · cases h
    | getProcTimes =>
      simp only [op] at h
      split at h
      · cases h
        exact space_modify (f := (Proc.charged · k.ticks)) (p := cur) rfl q
      · cases h

/-! ## Creation -/

theorem modify_id (k : Kernel) (p : Slot) : k.modify p id = k := by
  simp [Kernel.modify]

section

open Memory Memory.Created

variable {c : Nat} {cur np : Slot} {thread : Bool} {f d sz : Nat} {tf : TrapFrame}
  (hk : k.Wf) (hcur : k.cpu c = some cur) (hctl : k.ctl cur = .user)
  (hnp : (k.proc np).state = .unused)
include hk hcur hctl hnp

theorem wf_begun (thread : Bool) : (begun k cur np thread).Wf :=
  Effect.wf hk hcur (.alloc thread np hctl hnp)

theorem wf_givenUp {g : Proc → Proc} (hs : ∀ x, (g x).state = x.state)
    (hc : ∀ x, (g x).chan = x.chan) :
    (givenUp ((begun k cur np thread).modify np g) cur np).Wf := by
  have hcreating : ((begun k cur np thread).modify np g).ctl cur = .creating np thread := by
    simp [begun]
  exact Effect.wf ((wf_begun hk hcur hctl hnp thread).modify np hs hc) (by simp [begun, hcur])
    (.abandon (c := c) hcreating)

theorem wf_launched :
    (launched (((begun k cur np thread).modify np (withStack f)).modify np (withSpace d sz tf))
      cur np thread).Wf := by
  set k1 := ((begun k cur np thread).modify np (withStack f)).modify np (withSpace d sz tf) with hk1
  have h1 : k1.Wf := ((wf_begun hk hcur hctl hnp thread).modify np (f := withStack f)
    (fun _ => rfl) fun _ => rfl).modify np (f := withSpace d sz tf) (fun _ => rfl) fun _ => rfl
  have hcpu : k1.cpu c = some cur := by
    simp [hk1, begun, hcur]
  have hcreating : k1.ctl cur = .creating np thread := by
    simp [hk1, begun]
  have h2 := Effect.wf h1 hcpu (.adopt hcreating)
  have hpublishing :
      ((k1.adopt cur np thread).setCtl cur (.publishing np)).ctl cur = .publishing np := by
    simp
  exact Effect.wf (c := c) h2 (by simpa [adopt] using hcpu) (.publish hpublishing)

end

section

open Memory Memory.Created

variable {cur np : Slot} {thread : Bool} {f d sz : Nat} {tf : TrapFrame}

theorem givenUp_proc {g : Proc → Proc} {q : Slot} (hq : q ≠ np) :
    (givenUp ((begun k cur np thread).modify np g) cur np).proc q = k.proc q := by
  simp [givenUp, begun, hq]

theorem givenUp_self {g : Proc → Proc} :
    ((givenUp ((begun k cur np thread).modify np g) cur np).proc np).state = .unused := by
  simp [givenUp]

theorem launched_proc {q : Slot} (hq : q ≠ np) :
    (launched (((begun k cur np thread).modify np (withStack f)).modify np (withSpace d sz tf))
      cur np thread).proc q = k.proc q := by
  simp [launched, ready, adopt, begun, hq]

/-- **The new process** has what its creator gave it. -/
theorem launched_self (hne : cur ≠ np) :
    ((launched (((begun k cur np thread).modify np (withStack f)).modify np (withSpace d sz tf))
      cur np thread).proc np).space =
      ⟨d, f, sz, tf, if thread then (k.proc cur).firstPid else k.nextpid, true⟩ := by
  simp [launched, ready, adopt, begun, hne, Proc.space, ProcState.used]

end

/-! ## Reaping -/

theorem waitScan_awake (k : Kernel) (cur p : Slot) (l : List Slot) (b : Bool) :
    (k.modify p (·.awake)).waitScan cur l b = k.waitScan cur l b := by
  induction l generalizing b with
  | nil => rfl
  | cons q l ih =>
    simp only [waitScan, modify_field (·.pid) Proc.awake_pid,
      modify_field (·.firstPid) Proc.awake_firstPid, modify_field (·.parent) Proc.awake_parent,
      modify_field (·.state) Proc.awake_state, ih]

theorem joinScan_awake (k : Kernel) (cur p : Slot) (tid : Int) (l : List Slot) (b : Bool) :
    (k.modify p (·.awake)).joinScan cur tid l b = k.joinScan cur tid l b := by
  induction l generalizing b with
  | nil => rfl
  | cons q l ih =>
    simp only [joinScan, modify_field (·.pid) Proc.awake_pid,
      modify_field (·.firstPid) Proc.awake_firstPid, modify_field (·.state) Proc.awake_state, ih]

/-- What a round of `diagwait` or `thread_join` that may reap `z` does to the processes. -/
structure Reaped (k k' : Kernel) (z : Option Slot) : Prop where
  zombie : ∀ p, z = some p → (k.proc p).state = .zombie ∧ (k'.proc p).state = .unused
  other : ∀ q, z ≠ some q → (k'.proc q).space = (k.proc q).space

theorem reaped_none (h : ∀ q, (k'.proc q).space = (k.proc q).space) : Reaped k k' none :=
  ⟨fun p hp => absurd hp (Option.some_ne_none p).symm, fun q _ => h q⟩

theorem reaped_some {p cur : Slot} (hz : (k.proc p).state = .zombie) :
    Reaped k (((k.modify cur (·.awake)).modify p (·.cleared)).setCtl cur .user) (some p) := by
  refine ⟨fun q hq => ?_, fun q hq => ?_⟩
  · cases hq
    simp [hz]
  · have hne : q ≠ p := fun heq => hq (by rw [heq])
    simp only [setCtl_proc, modify_proc, hne, if_false]
    split <;> rfl

theorem diagwait_reaped {c : Nat} {cur : Slot} (hk : k.Wf) (hcur : k.cpu c = some cur)
    (h : k.step (.call c .diagwait) = some k') : Reaped k k' (Memory.waitReaps k cur) := by
  have hrun := (hk.onCpu c cur hcur).1
  simp only [step, hcur] at h
  split at h
  · cases h
  simp only [op] at h
  -- a fresh call finds its channel null, so it starts like a resumed one
  have hround : k' = ((k.modify cur (·.awake)).diagwait c cur).2 := by
    split at h
    · rename_i hctl
      rw [modify_awake_eq (hk.chanNull hctl)]
      exact (Option.some.inj h).symm
    · split at h
      · exact (Option.some.inj h).symm
      · cases h
  have hawake : ∀ q, ((k.modify cur (·.awake)).proc q).space = (k.proc q).space :=
    space_modify (f := Proc.awake) rfl
  subst hround
  unfold Memory.waitReaps diagwait
  rw [waitScan_awake]
  cases hscan : k.waitScan cur (List.finRange NPROC) false with
  | found p => exact reaped_some (waitScan_found hscan).2
  | kids =>
    dsimp only
    split
    · exact reaped_none fun q => hawake q
    · refine reaped_none fun q => ?_
      rw [modify_awake_sleep]
      exact space_sleep c hrun _ q
  | noKids => exact reaped_none fun q => hawake q

theorem threadJoin_reaped {c : Nat} {cur : Slot} {tid : Int} (hk : k.Wf) (hcur : k.cpu c = some cur)
    (h : k.step (.call c (.threadJoin tid)) = some k') :
    Reaped k k' (Memory.joinReaps k cur tid) := by
  have hrun := (hk.onCpu c cur hcur).1
  simp only [step, hcur] at h
  split at h
  · cases h
  simp only [op] at h
  unfold Memory.joinReaps
  by_cases hself : k.ctl cur = .user ∧ tid = (k.proc cur).pid
  · -- a caller that names itself returns before it looks for anyone
    rw [if_pos hself.1, if_pos hself.2] at h
    cases h
    rw [if_pos hself]
    exact reaped_none fun _ => rfl
  rw [if_neg hself]
  have hround : k' = ((k.modify cur (·.awake)).threadJoin c cur tid).2 := by
    split at h
    · rename_i hctl
      rw [if_neg fun htid => hself ⟨hctl, htid⟩] at h
      rw [modify_awake_eq (hk.chanNull hctl)]
      exact (Option.some.inj h).symm
    · split at h
      · exact (Option.some.inj h).symm
      · cases h
  have hawake : ∀ q, ((k.modify cur (·.awake)).proc q).space = (k.proc q).space :=
    space_modify (f := Proc.awake) rfl
  subst hround
  unfold threadJoin
  rw [joinScan_awake]
  cases hscan : k.joinScan cur tid (List.finRange NPROC) false with
  | leader | absent => exact reaped_none fun q => hawake q
  | found p => exact reaped_some (joinScan_found hscan).2.2
  | alive =>
    dsimp only
    split
    · exact reaped_none fun q => hawake q
    · refine reaped_none fun q => ?_
      rw [modify_awake_sleep]
      exact space_sleep c hrun _ q

end Kernel

end Xv6

namespace Xv6.Memory

open Foundation Created

/-- **A new process**, after `fork` or `thread_create`: how its address space was built, and that
the other processes were left alone. -/
theorem create_new {L : Layout} {s s' : Machine} {c : Nat} {thread : Bool}
    {build : Proc → Code (Option (Frame × Nat × TrapFrame))} {cur np : Slot}
    (hcur : s.kernel.cpu c = some cur) (hrun : (s.kernel.proc cur).state = .running)
    (hret : Returns (create L c thread build) s () s') (hnp : (s.kernel.proc np).state = .unused)
    (hnew : (s'.kernel.proc np).state = .runnable) :
    ∃ f m d sz tf, Returns kalloc s.mem (some f) m ∧
      Returns (build (s.kernel.proc cur)) (m.setPage f (.kernel (m.page f).byte))
        (some (d, sz, tf)) s'.mem ∧
      (s'.kernel.proc np).space =
        ⟨d, f, sz, tf, if thread then (s.kernel.proc cur).firstPid else s.kernel.nextpid, true⟩ ∧
      ∀ q ≠ np, s'.kernel.proc q = s.kernel.proc q := by
  have hstop : ∀ (e : Stop) (m : Mem), Calm False False e m := fun _ _ => False.elim
  -- a slot that was free and was not taken is not runnable
  have hfree : ∀ {k : Kernel}, k.proc np = s.kernel.proc np → (k.proc np).state ≠ .runnable :=
    fun heq h => by simp [heq, hnp] at h
  have hup : ∀ np' g, ((givenUp ((begun s.kernel cur np' thread).modify np' g) cur np').proc
      np).state ≠ .runnable := by
    intro np' g h
    by_cases hq : np = np'
    · subst hq
      simp [Kernel.givenUp_self] at h
    · exact hfree (Kernel.givenUp_proc hq) h
  refine Ends.of_returns (C := Calm False False) (Q := fun _ s' => (s'.kernel.proc np).state =
    .runnable → ∃ f m d sz tf, Returns kalloc s.mem (some f) m ∧
      Returns (build (s.kernel.proc cur)) (m.setPage f (.kernel (m.page f).byte))
        (some (d, sz, tf)) s'.mem ∧ (s'.kernel.proc np).space =
        ⟨d, f, sz, tf, if thread then (s.kernel.proc cur).firstPid else s.kernel.nextpid, true⟩ ∧
      ∀ q ≠ np, s'.kernel.proc q = s.kernel.proc q) ?_ hret hnew
  refine create_ends (fun h => absurd h (hfree rfl)) fun cur' np' hcur' _ hnp' => ?_
  obtain rfl : cur = cur' := Option.some.inj (hcur.symm.trans hcur')
  have hne : cur ≠ np' := fun heq => by simp [← heq, hrun] at hnp'
  refine ends_of_forall_returns ?_ hstop
  rintro (_ | f) m hkalloc
  · intro h
    exact absurd h (by simpa [Kernel.modify_id] using hup np' id)
  have hrec : ((begun s.kernel cur np' thread).modify np' (withStack f)).proc cur =
      s.kernel.proc cur := by
    simp [begun, hne]
  dsimp only
  rw [hrec]
  refine ends_of_forall_returns ?_ hstop
  rintro (_ | ⟨d, sz, tf⟩) m' hbuild
  · exact kfree_ends L fun h => absurd h (hup np' (withStack f))
  · intro h
    obtain rfl : np = np' := by
      by_contra hq
      exact hfree (Kernel.launched_proc hq) h
    exact ⟨f, m, d, sz, tf, hkalloc, hbuild, Kernel.launched_self hne,
      fun q hq => Kernel.launched_proc hq⟩

end Xv6.Memory
