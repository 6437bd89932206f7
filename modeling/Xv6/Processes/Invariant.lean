import Xv6.Processes.Inversion

/-! # The invariant of the process table

Every step keeps the kernel well formed (`step_wf`), and every step of a running process moves each
process along its life cycle (`Effect.move`). -/

namespace Xv6

open Foundation

namespace Kernel

/-! ## One step of a running process -/

section

variable {k k' : Kernel} {c : Nat} {cur : Slot} {o : Op}

theorem Wf.makes_ne (hk : k.Wf) (np : Slot) (hrun : (k.proc cur).state = .running)
    (h : (k.ctl cur).makes = some np) : (k.proc np).state = .embryo ∧ np ≠ cur := by
  have hnp := hk.makes cur np h
  refine ⟨hnp, ?_⟩
  rintro rfl
  simp [hnp] at hrun

/-- **What a step of the process in slot `q` leaves in its own slot**: the record and the control
point. -/
inductive Own (k : Kernel) (q : Slot) : Op → Proc → Ctl → Prop
  | create (np : Slot) {thread : Bool} (hctl : k.ctl q = .user) :
      Own k q (.allocproc thread) (k.proc q) (.creating np thread)
  | giveUp {np : Slot} {thread : Bool} (hctl : k.ctl q = .creating np thread) :
      Own k q .abandon (k.proc q) .user
  | adopt {np : Slot} {thread : Bool} (hctl : k.ctl q = .creating np thread) :
      Own k q .adopt (k.proc q) (.publishing np)
  | publish {np : Slot} (hctl : k.ctl q = .publishing np) : Own k q .publish (k.proc q) .user
  | yield : Own k q .yield (((k.proc q).withState .runnable).charged k.ticks) (k.ctl q)
  | exit (hctl : k.ctl q = .user) :
      Own k q .exit (((k.proc q).withState .zombie).charged k.ticks) (k.ctl q)
  | waitChild : Own k q .diagwait (((k.proc q).asleep (.slot q)).charged k.ticks) .diagwait
  | waitThread (tid : Int) :
      Own k q (.threadJoin tid) (((k.proc q).asleep (.slot q)).charged k.ticks) (.threadJoin tid)
  | waitObject (addr : Nat) :
      Own k q (.sleep addr) (((k.proc q).asleep (.obj addr)).charged k.ticks) .sleep
  /-- A call that slept, or could have, returns. -/
  | back (o : Op) (hctl : k.ctl q = .user ∨ (k.ctl q).waits) : Own k q o (k.proc q).awake .user
  | setTicketCount {n : Int} (hctl : k.ctl q = .user) (hn : 0 < int32 n) :
      Own k q (.setTicketCount n) ((k.proc q).withTickets (int32 n)) (k.ctl q)
  | ticketRead {n : Int} (hctl : k.ctl q = .user) (hn : 0 < int32 n) :
      Own k q (.ticketRead n) (k.proc q) (.ticketRead (int32 n) k.totalTicketCount)
  | ticketStore {n total : Int} (hctl : k.ctl q = .ticketRead n total) :
      Own k q .ticketStore (k.proc q) (.ticketWritten n)
  | ticketCommit {n : Int} (hctl : k.ctl q = .ticketWritten n) :
      Own k q .ticketCommit ((k.proc q).withTickets n) .user
  | charge : Own k q .getProcTimes ((k.proc q).charged k.ticks) (k.ctl q)

/-- **What a step of the process `cur` leaves in slot `q`.** -/
inductive Leaves (k : Kernel) (cur q : Slot) : Op → Proc → Ctl → Prop
  | same (o : Op) : Leaves k cur q o (k.proc q) (k.ctl q)
  | own {o : Op} {x : Proc} {y : Ctl} (hq : q = cur) (h : k.Own q o x y) : Leaves k cur q o x y
  | taken (thread : Bool) (hq : (k.proc q).state = .unused) :
      Leaves k cur q (.allocproc thread) ((k.proc q).embryo k.nextpid k.ticks) .user
  | abandoned (hq : (k.proc q).state = .embryo) (hmakes : (k.ctl cur).makes = some q) :
      Leaves k cur q .abandon (k.proc q).abandoned (k.ctl q)
  | adopted (firstPid : Int) (hq : (k.proc q).state = .embryo) :
      Leaves k cur q .adopt ((k.proc q).adopted firstPid cur) (k.ctl q)
  | published (hq : (k.proc q).state = .embryo) (hctl : k.ctl cur = .publishing q) :
      Leaves k cur q .publish ((k.proc q).readied k.ticks) (k.ctl q)
  | orphaned (init : Slot) : Leaves k cur q .exit (k.orphaned cur init q) (k.ctl q)
  | reaped (o : Op) (hq : (k.proc q).state = .zombie) : Leaves k cur q o
      (k.proc q).cleared (k.ctl q)
  | marked (pid : Int) : Leaves k cur q (.kill pid) (k.proc q).marked (k.ctl q)
  | roused (pid : Int) (hq : (k.proc q).state = .sleeping) :
      Leaves k cur q (.kill pid) ((k.proc q).marked.readied k.ticks) (k.ctl q)

theorem Effect.leaves (hk : k.Wf) (hcur : k.cpu c = some cur) (h : k.Effect c cur o k') (q : Slot) :
    k.Leaves cur q o (k'.proc q) (k'.ctl q) := by
  have hrun := (hk.onCpu c cur hcur).1
  -- the caller's own slot, another one that the step is about, and the slots that it does not touch
  have hown {x : Proc} {y : Ctl} (h : k.Own cur o x y) (hself : k'.proc cur = x ∧ k'.ctl cur = y)
      (hother : q ≠ cur → k.Leaves cur q o (k'.proc q) (k'.ctl q)) :
      k.Leaves cur q o (k'.proc q) (k'.ctl q) := by
    by_cases hq : q = cur
    · subst hq
      rw [hself.1, hself.2]
      exact .own rfl h
    · exact hother hq
  have hsame (h : k'.proc q = k.proc q ∧ k'.ctl q = k.ctl q) :
      k.Leaves cur q o (k'.proc q) (k'.ctl q) := by
    rw [h.1, h.2]
    exact .same o
  cases h with
  | idle => exact .same o
  | alloc thread np hctl hnp =>
    have hne : cur ≠ np := by rintro rfl; simp [hnp] at hrun
    refine hown (.create np hctl) (by simp [hne]) fun h1 => ?_
    by_cases h2 : q = np
    · subst h2
      simpa [h1] using .taken thread hnp
    · exact hsame (by simp [h1, h2])
  | @abandon np _ hctl =>
    obtain ⟨hnp, hne⟩ := hk.makes_ne np hrun (by simp [hctl])
    refine hown (.giveUp hctl) (by simp [hne.symm]) fun h1 => ?_
    by_cases h2 : q = np
    · subst h2
      simpa [h1] using .abandoned hnp (by simp [hctl])
    · exact hsame (by simp [h1, h2])
  | @adopt np _ hctl =>
    obtain ⟨hnp, hne⟩ := hk.makes_ne np hrun (by simp [hctl])
    refine hown (.adopt hctl) (by simp [Kernel.adopt, hne.symm]) fun h1 => ?_
    by_cases h2 : q = np
    · subst h2
      simpa [Kernel.adopt, h1] using .adopted _ hnp
    · exact hsame (by simp [Kernel.adopt, h1, h2])
  | @publish np hctl =>
    obtain ⟨hnp, hne⟩ := hk.makes_ne np hrun (by simp [hctl])
    refine hown (.publish hctl) (by simp [ready, hne.symm]) fun h1 => ?_
    by_cases h2 : q = np
    · subst h2
      simpa [ready, h1] using .published hnp hctl
    · exact hsame (by simp [ready, h1, h2])
  | @exit init hinit hctl hne =>
    have hctl' := (k.exit_rest c cur init).2.1
    refine hown (.exit hctl) ⟨exit_proc_self c init hrun, by rw [hctl']⟩ fun h1 => ?_
    rw [exit_proc_ne k c h1, hctl']
    exact .orphaned init
  | @reap _ p hctl hne hp =>
    refine hown (.back o hctl) (by simp [hne.symm]) fun h1 => ?_
    by_cases h2 : q = p
    · subst h2
      simpa [h1] using .reaped o hp.1
    · exact hsame (by simp [h1, h2])
  | mark pid p =>
    by_cases h1 : q = p
    · subst h1
      simpa using .marked pid
    · exact hsame (by simp [h1])
  | @rouse pid p hp =>
    by_cases h1 : q = p
    · subst h1
      simpa [ready] using .roused pid hp
    · exact hsame (by simp [ready, h1])
  | yield =>
    exact hown .yield (by simp [Kernel.yield, sched]) fun h1 =>
      hsame (by simp [Kernel.yield, sched, h1])
  | «return» _ hctl | loseLock _ hctl =>
    exact hown (.back _ hctl) (by simp) fun h1 => hsame (by simp [h1])
  | waitChild =>
    exact hown .waitChild (by simp [Kernel.sleep, sched]) fun h1 =>
      hsame (by simp [Kernel.sleep, sched, h1])
  | @waitThread tid =>
    refine hown (.waitThread tid) (by simp [Kernel.sleep, sched]) fun h1 => ?_
    exact hsame (by simp [Kernel.sleep, sched, h1])
  | waitObject addr =>
    refine hown (.waitObject addr) (by simp [Kernel.sleep, sched]) fun h1 => ?_
    exact hsame (by simp [Kernel.sleep, sched, h1])
  | setTicketCount hctl hn =>
    exact hown (.setTicketCount hctl hn) (by simp) fun h1 => hsame (by simp [h1])
  | ticketRead hctl hn => exact hown (.ticketRead hctl hn) (by simp) fun h1 => hsame (by simp [h1])
  | ticketStore hctl => exact hown (.ticketStore hctl) (by simp) fun h1 => hsame (by simp [h1])
  | ticketCommit hctl => exact hown (.ticketCommit hctl) (by simp) fun h1 => hsame (by simp [h1])
  | charge => exact hown .charge (by simp) fun h1 => hsame (by simp [h1])

theorem Effect.fits (hk : k.Wf) (hcur : k.cpu c = some cur) (h : k.Effect c cur o k') (q : Slot) :
    Fits q (k'.proc q).state (k'.proc q).chan (k'.ctl q) := by
  have hq := hk.fits q
  have hleaves := h.leaves hk hcur q
  generalize k'.proc q = x, k'.ctl q = y at hleaves
  cases hleaves with
  | same | adopted | marked => exact hq
  | taken _ hs => simp [(hq.user (by simp [hs, ProcState.live])).2]
  | abandoned hs | published hs | reaped _ hs => simp [hq.user (by simp [hs, ProcState.live])]
  | roused _ hs => exact hq.runnable (by simp [hs, ProcState.live])
  | orphaned init =>
    rw [orphaned_chan]
    obtain ⟨hr, hs⟩ | ⟨-, hs⟩ := k.orphaned_state cur init q
    · rw [hs]; exact hq.runnable (by simp [hr.1, ProcState.live])
    · rw [hs]; exact hq
  | own hqc hown =>
    subst hqc
    have hrun := (hk.onCpu c q hcur).1
    cases hown with
    | create _ hctl | ticketRead hctl => simp [hrun, hk.chanNull hctl]
    | giveUp hctl | adopt hctl | publish hctl | ticketStore hctl | ticketCommit hctl =>
      rw [hctl] at hq
      simp [hrun, hq.1]
    | yield => exact hq.runnable (by simp [hrun, ProcState.live])
    | exit hctl => simp [hctl, hk.chanNull hctl]
    | waitChild | waitThread | waitObject => simp [ProcState.live]
    | back => simp [hrun]
    | setTicketCount | charge => exact hq

/-- **A step moves every process along its life cycle**, and only the process that takes it can
leave the CPU. -/
theorem Effect.move (hk : k.Wf) (hcur : k.cpu c = some cur) (h : k.Effect c cur o k') (q : Slot) :
    Clock.Move k.ticks (q = cur) (k.proc q).clock (k'.proc q).clock := by
  have hleaves := h.leaves hk hcur q
  generalize k'.proc q = x, k'.ctl q = y at hleaves
  cases hleaves with
  | same | adopted | marked => exact .stay
  | taken _ hs => exact .create hs
  | abandoned hs => exact .abandon hs
  | published hs => exact .ready (.inl hs)
  | roused _ hs => exact .ready (.inr hs)
  | reaped _ hs => exact .clear hs
  | orphaned init =>
    obtain ⟨hr, hs⟩ | ⟨-, hs⟩ := k.orphaned_clock cur init q
    · rw [hs]
      exact .ready (.inr hr.1)
    · rw [hs]
      exact .stay
  | own hqc hown =>
    subst hqc
    have hrun := (hk.onCpu c q hcur).1
    cases hown with
    | yield => exact .charge rfl hrun (s := .runnable) (by simp)
    | exit => exact .charge rfl hrun (s := .zombie) (by simp)
    | waitChild | waitThread | waitObject => exact .charge rfl hrun (s := .sleeping) (by simp)
    | charge => exact .charge rfl hrun (s := (k.proc q).state) (by simp [hrun])
    | _ => exact .stay

theorem Effect.running_iff (hk : k.Wf) (hcur : k.cpu c = some cur) (h : k.Effect c cur o k')
    {q : Slot} (hq : q ≠ cur) :
    (k'.proc q).state = .running ↔ (k.proc q).state = .running := by
  have hmove := h.move hk hcur q
  simp only [← Proc.clock_state] at *
  generalize (k.proc q).clock = x at hmove
  generalize (k'.proc q).clock = y at hmove
  cases hmove with
  | stay => rfl
  | create h | abandon h | clear h => simp [h]
  | ready h => rcases h with h | h <;> simp [Clock.readied, h]
  | charge hown => exact absurd hown hq

theorem Effect.cpu (hk : k.Wf) (hcur : k.cpu c = some cur) (h : k.Effect c cur o k') :
    ((k'.proc cur).state = .running ∧ k'.cpu = k.cpu) ∨
      ((k'.proc cur).state ≠ .running ∧ ∀ c', k'.cpu c' = if c' = c then none else k.cpu c') := by
  have hrun := (hk.onCpu c cur hcur).1
  cases h with
  | yield => exact .inr (by simp [Kernel.yield, sched])
  | @exit init =>
    refine .inr ⟨?_, (k.exit_rest c cur init).2.2⟩
    rw [exit_proc_self c init hrun]
    simp
  | waitChild | waitThread | waitObject => exact .inr (by simp [Kernel.sleep, sched])
  | idle => exact .inl ⟨hrun, rfl⟩
  | alloc thread np hctl hnp =>
    have hne : cur ≠ np := by rintro rfl; simp [hnp] at hrun
    exact .inl ⟨by simp [hne, hrun], rfl⟩
  | @abandon np _ hctl | @adopt np _ hctl | @publish np hctl =>
    obtain ⟨-, hne⟩ := hk.makes_ne np hrun (by simp [hctl])
    exact .inl ⟨by simp [Kernel.adopt, Kernel.ready, hne.symm, hrun], rfl⟩
  | reap _ hctl hne => exact .inl ⟨by simp [hne.symm, hrun], rfl⟩
  | mark _ p =>
    refine .inl ⟨?_, rfl⟩
    rw [modify_field (·.state) Proc.marked_state, hrun]
  | @rouse _ p hp =>
    have hne : cur ≠ p := by rintro rfl; simp [hp] at hrun
    exact .inl ⟨by simp [Kernel.ready, hne, hrun], rfl⟩
  | «return» | loseLock | setTicketCount | ticketRead | ticketStore | ticketCommit | charge =>
    exact .inl ⟨by simp [hrun], rfl⟩

theorem Effect.cpu_iff (hk : k.Wf) (hcur : k.cpu c = some cur) (h : k.Effect c cur o k') {d : Nat}
    {p : Slot} : k'.cpu d = some p ↔ k.cpu d = some p ∧ (k'.proc p).state = .running := by
  have hother (hp : p ≠ cur) (hd : k.cpu d = some p) : (k'.proc p).state = .running :=
    (h.running_iff hk hcur hp).2 (hk.onCpu d p hd).1
  obtain ⟨hrun, hcpu⟩ | ⟨hrun, hcpu⟩ := h.cpu hk hcur
  · rw [hcpu]
    refine ⟨fun hd => ⟨hd, ?_⟩, And.left⟩
    by_cases hp : p = cur
    · rwa [hp]
    · exact hother hp hd
  · rw [hcpu]
    split
    · rename_i hdc
      refine ⟨nofun, fun ⟨hd, hp⟩ => ?_⟩
      rw [hdc, hcur] at hd
      exact absurd (Option.some.inj hd ▸ hp) hrun
    · rename_i hdc
      refine ⟨fun hd => ⟨hd, hother ?_ hd⟩, And.left⟩
      rintro rfl
      exact hdc (hk.cpuInj d c p hd hcur)

theorem Effect.globals (h : k.Effect c cur o k') :
    k'.ncpu = k.ncpu ∧ k'.initproc = k.initproc ∧ k'.ticks = k.ticks := by
  cases h with
  | @exit init =>
    obtain ⟨hg, -⟩ := k.exit_rest c cur init
    exact ⟨hg.ncpu, hg.initproc, hg.ticks⟩
  | _ => exact ⟨rfl, rfl, rfl⟩

theorem Effect.makes_same (hk : k.Wf) (hcur : k.cpu c = some cur) (h : k.Effect c cur o k')
    (hmakes : (k'.ctl cur).makes = (k.ctl cur).makes)
    (hnone : o = .abandon ∨ o = .publish → (k.ctl cur).makes = none) :
    (∀ q, (k'.ctl q).makes = (k.ctl q).makes) ∧
      ∀ np, (k.proc np).state = .embryo → (k'.proc np).state = .embryo := by
  refine ⟨fun q => ?_, fun np hnp => ?_⟩
  · by_cases hq : q = cur
    · rw [hq, hmakes]
    have hleaves := h.leaves hk hcur q
    generalize k'.proc q = x, k'.ctl q = y at hleaves ⊢
    cases hleaves with
    | own hqc => exact absurd hqc hq
    | taken _ hun => rw [((hk.fits q).user (by simp [hun, ProcState.live])).1]
    | _ => rfl
  · have hleaves := h.leaves hk hcur np
    generalize k'.proc np = x, k'.ctl np = y at hleaves ⊢
    cases hleaves with
    | same | adopted | marked => exact hnp
    | own hqc => simp [hqc, (hk.onCpu c cur hcur).1] at hnp
    | abandoned _ hmk => cases (hnone (.inl rfl)).symm.trans hmk
    | published _ hctl => simpa [hctl] using hnone (.inr rfl)
    | taken _ hs | reaped _ hs | roused _ hs => simp [hs] at hnp
    | orphaned init =>
      obtain ⟨hr, -⟩ | ⟨-, hs⟩ := k.orphaned_state cur init np
      · simp [hr.1] at hnp
      · rw [hs, hnp]

/-- What a step changes in who creates whom: nothing, one process allocated by `cur`, or the
process that `cur` was creating, which is no longer an embryo. -/
theorem Effect.makes (hk : k.Wf) (hcur : k.cpu c = some cur) (h : k.Effect c cur o k') :
    ((∀ q, (k'.ctl q).makes = (k.ctl q).makes) ∧
        ∀ np, (k.proc np).state = .embryo → (k'.proc np).state = .embryo) ∨
      (∃ np, (k.proc np).state = .unused ∧ (k'.proc np).state = .embryo ∧
        (k'.ctl cur).makes = some np ∧ (∀ q ≠ cur, (k'.ctl q).makes = (k.ctl q).makes) ∧
        ∀ q ≠ np, (k'.proc q).state = (k.proc q).state) ∨
      (∃ np, (k.ctl cur).makes = some np ∧ (k'.ctl cur).makes = none ∧
        (∀ q ≠ cur, (k'.ctl q).makes = (k.ctl q).makes) ∧
        ∀ q ≠ np, (k'.proc q).state = (k.proc q).state) := by
  have hsame := h.makes_same hk hcur
  cases h with
  | idle => exact .inl ⟨fun _ => rfl, fun _ h => h⟩
  | alloc thread np hctl hnp =>
    have huser := ((hk.fits np).user (by simp [hnp, ProcState.live])).1
    refine .inr (.inl ⟨np, hnp, by simp, by simp, fun q hq => ?_, fun q hq => by simp [hq]⟩)
    by_cases hqn : q = np
    · subst hqn
      simp [hq, huser]
    · simp [hq, hqn]
  | @abandon np _ hctl | @publish np hctl =>
    exact .inr (.inr ⟨np, by simp [hctl], by simp, fun q hq => by simp [hq, ready],
      fun q hq => by simp [hq, ready]⟩)
  | @exit init => exact .inl (hsame (by rw [(k.exit_rest c cur init).2.1]) (by simp))
  | reap _ hctl | «return» _ hctl | loseLock _ hctl | waitChild hctl | waitThread hctl =>
    have hnone := Ctl.makes_eq_none hctl
    exact .inl (hsame (by rw [hnone]; simp) fun _ => hnone)
  | adopt hctl | waitObject _ hctl | ticketRead hctl | ticketStore hctl | ticketCommit hctl =>
    exact .inl (hsame (by simp [hctl]) (by simp))
  | yield | mark | rouse | setTicketCount | charge => exact .inl (hsame rfl (by simp))

/-- **A step of a running process keeps the kernel well formed.** -/
theorem Effect.wf (hk : k.Wf) (hcur : k.cpu c = some cur) (h : k.Effect c cur o k') : k'.Wf := by
  obtain ⟨hncpu, hinit, -⟩ := h.globals
  refine ⟨h.fits hk hcur, fun c1 p hp => ?_, fun p hp => ?_, fun c1 c2 p h1 h2 => ?_,
    fun p np hp => ?_, fun p q np hp hq => ?_, fun hnone p => ?_⟩
  · obtain ⟨hold, hnew⟩ := (h.cpu_iff hk hcur).1 hp
    exact ⟨hnew, hncpu ▸ (hk.onCpu c1 p hold).2⟩
  · have hold : (k.proc p).state = .running := by
      by_cases hpc : p = cur
      · exact hpc ▸ (hk.onCpu c cur hcur).1
      · exact (h.running_iff hk hcur hpc).1 hp
    obtain ⟨c1, h1⟩ := hk.running p hold
    exact ⟨c1, (h.cpu_iff hk hcur).2 ⟨h1, hp⟩⟩
  · exact hk.cpuInj c1 c2 p ((h.cpu_iff hk hcur).1 h1).1 ((h.cpu_iff hk hcur).1 h2).1
  · obtain ⟨hmk, hemb⟩ | ⟨np0, hun, hemb, hmk, hoth, hst⟩ | ⟨np0, hmk, hmk', hoth, hst⟩ :=
      h.makes hk hcur
    · exact hemb np (hk.makes p np (hmk p ▸ hp))
    · by_cases hpc : p = cur
      · obtain rfl : np0 = np := by
          rw [hpc, hmk] at hp
          exact Option.some.inj hp
        exact hemb
      · rw [hoth p hpc] at hp
        have hnp := hk.makes p np hp
        rw [hst np, hnp]
        rintro rfl
        simp [hun] at hnp
    · by_cases hpc : p = cur
      · rw [hpc, hmk'] at hp
        cases hp
      · rw [hoth p hpc] at hp
        rw [hst np, hk.makes p np hp]
        rintro rfl
        exact hpc (hk.maker p cur np hp hmk)
  · obtain ⟨hmk, -⟩ | ⟨np0, hun, -, hmk, hoth, -⟩ | ⟨np0, hmk, hmk', hoth, -⟩ := h.makes hk hcur
    · rw [hmk] at hp hq
      exact hk.maker p q np hp hq
    · -- an unused slot was nobody's before
      have hnew : ∀ r, (k.ctl r).makes ≠ some np0 := by
        intro r hr
        simp [hk.makes r np0 hr] at hun
      by_cases hpc : p = cur <;> by_cases hqc : q = cur
      · rw [hpc, hqc]
      · rw [hpc, hmk] at hp
        rw [hoth q hqc, ← hp] at hq
        exact absurd hq (hnew q)
      · rw [hqc, hmk] at hq
        rw [hoth p hpc, ← hq] at hp
        exact absurd hp (hnew p)
      · rw [hoth p hpc] at hp
        rw [hoth q hqc] at hq
        exact hk.maker p q np hp hq
    · have hpc : p ≠ cur := by rintro rfl; rw [hmk'] at hp; cases hp
      have hqc : q ≠ cur := by rintro rfl; rw [hmk'] at hq; cases hq
      rw [hoth p hpc] at hp
      rw [hoth q hqc] at hq
      exact hk.maker p q np hp hq
  · rw [hinit] at hnone
    have hrunning := (hk.onCpu c cur hcur).1
    rw [hk.early hnone cur] at hrunning
    cases hrunning

end

/-! ## One step of the system -/

section

variable {k k' : Kernel}

theorem step_userinit (hk : k.Wf) (h : k.step .userinit = some k') :
    ∃ p, k.initproc = none ∧ (∀ q, (k.proc q).state = .unused) ∧
      k' = ((k.takeSlot p).setInit p).ready p := by
  simp only [step] at h
  split at h
  · rename_i p k1 hinit halloc
    obtain ⟨-, rfl⟩ := allocproc_some halloc
    exact ⟨p, hinit, hk.early hinit, (Option.some.inj h).symm⟩
  · cases h

theorem step_wakeup {addr : Nat} (h : k.step (.wakeup addr) = some k') :
    k' = k.wakeup1 (.obj addr) := by
  simp only [step] at h
  split at h
  · cases h
  · exact (Option.some.inj h).symm

variable {c : Nat} {p : Slot} {e : Event}

theorem step_dispatch (h : k.step (.dispatch c p) = some k') :
    (c < k.ncpu ∧ k.cpu c = none ∧ (k.proc p).state = .runnable) ∧ k' = k.dispatch c p := by
  simp only [step] at h
  split at h
  · rename_i hcond
    exact ⟨hcond.2, (Option.some.inj h).symm⟩
  · cases h

section

variable (hk : k.Wf)

include hk

theorem step_call {o : Op} (h : k.step (.call c o) = some k') :
    ∃ cur, k.cpu c = some cur ∧ k.Effect c cur o k' := by
  simp only [step] at h
  split at h
  · cases h
  · rename_i cur hcur
    split at h
    · cases h
    · exact ⟨cur, hcur, op_effect hk hcur h⟩

/-- **What a step leaves in slot `q`.** -/
inductive Alters (k : Kernel) (q : Slot) : Event → Proc → Ctl → Prop
  | same (e : Event) : Alters k q e (k.proc q) (k.ctl q)
  | first (hq : (k.proc q).state = .unused) :
      Alters k q .userinit (((k.proc q).embryo k.nextpid k.ticks).readied k.ticks) (k.ctl q)
  | woken (addr : Nat) (hq : (k.proc q).state = .sleeping) :
      Alters k q (.wakeup addr) ((k.proc q).readied k.ticks) (k.ctl q)
  | started (c : Nat) (hq : (k.proc q).state = .runnable) :
      Alters k q (.dispatch c q) ((k.proc q).dispatched k.ticks) (k.ctl q)
  | call {c : Nat} {cur : Slot} {o : Op} {x : Proc} {y : Ctl} (hcur : k.cpu c = some cur)
      (hrun : (k.proc cur).state = .running) (h : k.Leaves cur q o x y) : Alters k q (.call c o) x y

theorem step_alters (h : k.step e = some k') (q : Slot) :
    k.Alters q e (k'.proc q) (k'.ctl q) := by
  cases e with
  | userinit =>
    obtain ⟨p, -, hun, rfl⟩ := step_userinit hk h
    by_cases hq : q = p
    · subst hq
      simpa [ready] using .first (hun q)
    · simpa [ready, hq] using .same _
  | tick =>
    cases h
    exact .same _
  | wakeup addr =>
    rw [step_wakeup h, wakeup1_proc, (k.wakeup1_globals _).2.1]
    split
    · rename_i hs
      exact .woken addr hs.1
    · exact .same _
  | dispatch c p =>
    obtain ⟨⟨-, -, hp⟩, rfl⟩ := step_dispatch h
    by_cases hq : q = p
    · subst hq
      simpa [dispatch] using .started c hp
    · simpa [dispatch, hq] using .same _
  | call c o =>
    obtain ⟨cur, hcur, heff⟩ := step_call hk h
    exact .call hcur (hk.onCpu c cur hcur).1 (heff.leaves hk hcur q)

theorem wf_userinit (hun : ∀ q, (k.proc q).state = .unused) :
    (((k.takeSlot p).setInit p).ready p).Wf := by
  have huser := fun q => (hk.fits q).user (by simp [hun, ProcState.live])
  have hidle : ∀ c q, k.cpu c ≠ some q := fun c q hc => by
    have hrun := (hk.onCpu c q hc).1
    simp [hun] at hrun
  constructor
  · intro q
    by_cases hq : q = p
    · simp [hq, ready, huser]
    · simp [hq, ready, huser, hun]
  · exact fun c q hc => absurd hc (hidle c q)
  · intro q hq
    by_cases hqp : q = p <;> simp [hqp, ready, hun] at hq
  · exact fun c _ q hc => absurd hc (hidle c q)
  · intro q np hq
    simp [ready, huser] at hq
  · intro q _ np hq
    simp [ready, huser] at hq
  · simp [ready]

theorem Wf.of_state (hstate : ∀ q, ((k'.proc q).state = (k.proc q).state ∨
      (k.proc q).state = .sleeping ∧ (k'.proc q).state = .runnable) ∧
      (k'.proc q).chan = (k.proc q).chan)
    (hctl : k'.ctl = k.ctl) (hcpu : k'.cpu = k.cpu) (hncpu : k'.ncpu = k.ncpu)
    (hinit : k'.initproc = k.initproc) : k'.Wf := by
  have hs : ∀ q s, s ≠ .runnable → s ≠ .sleeping →
      ((k'.proc q).state = s ↔ (k.proc q).state = s) := by
    intro q s h1 h2
    rcases (hstate q).1 with h | ⟨h, h'⟩
    · rw [h]
    · simp [h, h', h1.symm, h2.symm]
  constructor
  · intro q
    rw [hctl, (hstate q).2]
    rcases (hstate q).1 with h | ⟨h, h'⟩
    · rw [h]
      exact hk.fits q
    · rw [h']
      exact (hk.fits q).runnable (by simp [h, ProcState.live])
  · intro c q hc
    rw [hcpu] at hc
    rw [hncpu, hs q _ (by simp) (by simp)]
    exact hk.onCpu c q hc
  · intro q hq
    rw [hcpu]
    exact hk.running q ((hs q _ (by simp) (by simp)).1 hq)
  · rw [hcpu]
    exact hk.cpuInj
  · intro q np hq
    rw [hctl] at hq
    exact (hs np _ (by simp) (by simp)).2 (hk.makes q np hq)
  · rw [hctl]
    exact hk.maker
  · intro hnone q
    rw [hinit] at hnone
    exact (hs q _ (by simp) (by simp)).2 (hk.early hnone q)

theorem wf_wakeup1 (ch : Chan) : (k.wakeup1 ch).Wf := by
  obtain ⟨hg, hctl, hcpu⟩ := k.wakeup1_globals ch
  refine hk.of_state (fun q => ?_) hctl hcpu hg.ncpu hg.initproc
  rw [k.wakeup1_proc ch]
  split
  · exact ⟨.inr ⟨‹_ ∧ _›.1, rfl⟩, rfl⟩
  · exact ⟨.inl rfl, rfl⟩

theorem wf_dispatch (hc : c < k.ncpu) (hidle : k.cpu c = none)
    (hp : (k.proc p).state = .runnable) : (k.dispatch c p).Wf := by
  have hoff : ∀ c', k.cpu c' ≠ some p := fun c' h => by
    have hrun := (hk.onCpu c' p h).1
    simp [hp] at hrun
  constructor
  · intro q
    have hq := hk.fits q
    by_cases hqp : q = p
    · subst hqp
      rw [hp] at hq
      simpa [dispatch] using hq.running
    · simpa [dispatch, hqp] using hq
  · intro c' q h
    by_cases hcc : c' = c
    · obtain rfl : p = q := by simpa [dispatch, hcc] using h
      simp [dispatch, hcc, hc]
    · replace h : k.cpu c' = some q := by simpa [dispatch, hcc] using h
      have hqp : q ≠ p := by rintro rfl; exact hoff c' h
      simpa [dispatch, hqp] using hk.onCpu c' q h
  · intro q h
    by_cases hqp : q = p
    · exact ⟨c, by simp [dispatch, hqp]⟩
    · obtain ⟨c', h'⟩ := hk.running q (by simpa [dispatch, hqp] using h)
      have hcc : c' ≠ c := by rintro rfl; simp [hidle] at h'
      exact ⟨c', by simp [dispatch, hcc, h']⟩
  · intro c1 c2 q h1 h2
    by_cases hc1 : c1 = c <;> by_cases hc2 : c2 = c
    · rw [hc1, hc2]
    · obtain rfl : p = q := by simpa [dispatch, hc1] using h1
      exact absurd (by simpa [dispatch, hc2] using h2) (hoff c2)
    · obtain rfl : p = q := by simpa [dispatch, hc2] using h2
      exact absurd (by simpa [dispatch, hc1] using h1) (hoff c1)
    · exact hk.cpuInj c1 c2 q (by simpa [dispatch, hc1] using h1)
        (by simpa [dispatch, hc2] using h2)
  · intro q np h
    have hnp := hk.makes q np h
    have hne : np ≠ p := by rintro rfl; simp [hp] at hnp
    simp [dispatch, hne, hnp]
  · exact hk.maker
  · intro hinit q
    simp [hk.early hinit p] at hp

theorem Wf.modify (p : Slot) {f : Proc → Proc} (hstate : ∀ x, (f x).state = x.state)
    (hchan : ∀ x, (f x).chan = x.chan) : (k.modify p f).Wf := by
  exact hk.of_state (fun q => ⟨.inl (modify_field (·.state) hstate k p q),
    modify_field (·.chan) hchan k p q⟩) rfl rfl rfl rfl

theorem step_wf (h : k.step e = some k') : k'.Wf := by
  cases e with
  | userinit =>
    obtain ⟨p, -, hun, rfl⟩ := step_userinit hk h
    exact wf_userinit hk hun
  | tick =>
    cases h
    exact { hk with }
  | wakeup addr =>
    rw [step_wakeup h]
    exact wf_wakeup1 hk _
  | dispatch c p =>
    obtain ⟨⟨hc, hidle, hp⟩, rfl⟩ := step_dispatch h
    exact wf_dispatch hk hc hidle hp
  | call c o =>
    obtain ⟨cur, hcur, heff⟩ := step_call hk h
    exact heff.wf hk hcur

theorem step_ncpu (h : k.step e = some k') : k'.ncpu = k.ncpu := by
  cases e with
  | userinit =>
    obtain ⟨p, -, -, rfl⟩ := step_userinit hk h
    rfl
  | tick =>
    cases h
    rfl
  | wakeup addr =>
    rw [step_wakeup h]
    exact (k.wakeup1_globals _).1.ncpu
  | dispatch c p =>
    obtain ⟨-, rfl⟩ := step_dispatch h
    rfl
  | call c o =>
    obtain ⟨cur, -, heff⟩ := step_call hk h
    exact heff.globals.1

end

end

end Kernel

end Xv6
