import Xv6.Foundation.Sweep
import Xv6.Processes.Steps

/-! # What the loops and scans of `proc.c` do

One specification for each loop, so that no later proof looks inside one:

* `wakeup1_proc` — `wakeup1` wakes exactly the sleepers on its channel;
* `exit_proc_ne`, `exit_proc_self` — `exit` hands the caller's children to `init`, wakes the
  sleepers on the channels of `ExitWakes`, and turns the caller into a zombie;
* `waitScan_found` and its siblings — what the outcome of a scan says about the table. -/

namespace Xv6

open Foundation

/-! ## The clock of a process -/

/-- What the time accounting of one process reads and writes. -/
@[ext] structure Clock where
  state : ProcState
  creationTime : Nat
  lastChangeTime : Nat
  totalWaitTime : Nat
  totalCBT : Nat

/-- The clock in a process record. -/
@[simps] def Proc.clock (x : Proc) : Clock :=
  ⟨x.state, x.creationTime, x.lastChangeTime, x.totalWaitTime, x.totalCBT⟩

/-- The clock of a process made runnable at `now`. -/
def Clock.readied (x : Clock) (now : Nat) : Clock :=
  { x with state := .runnable, lastChangeTime := now }

/-- The clock of a process whose burst up to `now` is charged, in its next state `s`. -/
def Clock.charged (x : Clock) (now : Nat) (s : ProcState) : Clock :=
  { x with
    state := s
    totalCBT := uint32 (x.totalCBT + ((now : Int) - x.lastChangeTime))
    lastChangeTime := now }

/-- The clock of a process started at `now`. -/
def Clock.dispatched (x : Clock) (now : Nat) : Clock :=
  { x with
    state := .running
    totalWaitTime := uint32 (x.totalWaitTime + ((now : Int) - x.lastChangeTime))
    lastChangeTime := now }

theorem Proc.clock_readied (x : Proc) (now : Nat) :
    (x.readied now).clock = x.clock.readied now := rfl

theorem Proc.clock_dispatched (x : Proc) (now : Nat) :
    (x.dispatched now).clock = x.clock.dispatched now := rfl

/-- **The life cycle of a process**, as its clock sees it. `own` says that the process itself takes
the step. -/
inductive Clock.Move (now : Nat) (own : Prop) (x : Clock) : Clock → Prop
  | stay : Move now own x x
  | create (h : x.state = .unused) : Move now own x ⟨.embryo, now, now, 0, 0⟩
  | abandon (h : x.state = .embryo) : Move now own x { x with state := .unused }
  | ready (h : x.state = .embryo ∨ x.state = .sleeping) : Move now own x (x.readied now)
  | charge (hown : own) (h : x.state = .running) {s : ProcState}
      (hs : s ≠ .unused ∧ s ≠ .embryo) : Move now own x (x.charged now s)
  | clear (h : x.state = .zombie) : Move now own x ⟨.unused, 0, 0, 0, 0⟩

namespace Kernel

/-! ## Stores -/

/-- Everything in the kernel but the process records, the control points, `totalTicketCount` and
the CPUs: what no loop of `proc.c` touches. -/
structure SameGlobals (k k' : Kernel) : Prop where
  initproc : k'.initproc = k.initproc
  nextpid : k'.nextpid = k.nextpid
  ticks : k'.ticks = k.ticks
  ncpu : k'.ncpu = k.ncpu
  lockLost : k'.lockLost = k.lockLost

theorem SameGlobals.refl (k : Kernel) : SameGlobals k k := ⟨rfl, rfl, rfl, rfl, rfl⟩

theorem SameGlobals.trans {k k' k'' : Kernel} (h : SameGlobals k k') (h' : SameGlobals k' k'') :
    SameGlobals k k'' :=
  ⟨h'.1.trans h.1, h'.2.trans h.2, h'.3.trans h.3, h'.4.trans h.4, h'.5.trans h.5⟩

theorem SameGlobals.modify {k k' : Kernel} (h : SameGlobals k k') (p : Slot)
    (f : Proc → Proc) : SameGlobals k (k'.modify p f) :=
  { h with }

/-! ## Waking -/

theorem wakeup1_proc (k : Kernel) (chan : Chan) (p : Slot) :
    (k.wakeup1 chan).proc p
      = if (k.proc p).state = .sleeping ∧ (k.proc p).chan = some chan then
          (k.proc p).readied k.ticks
        else k.proc p := by
  have h := foldl_entry (fun k : Kernel => k.proc) (f := wakeupAt chan)
    (fun _ x => if x.state = .sleeping ∧ x.chan = some chan then x.readied k.ticks else x)
    (fun k' => k'.ticks = k.ticks) ?_ ?_ ?_ (List.finRange NPROC) (List.nodup_finRange NPROC) rfl p
  · simpa [wakeup1] using h
  · intro s i hs
    unfold wakeupAt; split
    · exact hs
    · exact hs
  · intro s i hs
    unfold wakeupAt; split
    · simp [ready, hs]
    · rfl
  · intro s i j _ hj
    unfold wakeupAt; split
    · simp [ready, hj]
    · rfl

theorem wakeup1_globals (k : Kernel) (chan : Chan) :
    SameGlobals k (k.wakeup1 chan) ∧ (k.wakeup1 chan).ctl = k.ctl ∧
      (k.wakeup1 chan).cpu = k.cpu := by
  refine foldl_keeps (fun k' => SameGlobals k k' ∧ k'.ctl = k.ctl ∧ k'.cpu = k.cpu) ?_ _
    ⟨.refl k, rfl, rfl⟩
  rintro s i ⟨⟨h1, h2, h3, h4, h5⟩, hctl, hcpu⟩
  unfold wakeupAt; split
  · exact ⟨⟨h1, h2, h3, h4, h5⟩, hctl, hcpu⟩
  · exact ⟨⟨h1, h2, h3, h4, h5⟩, hctl, hcpu⟩

/-! ## Exit -/

/-- The sleepers that a set `W` of woken channels makes runnable. -/
def Roused (k : Kernel) (W : Chan → Prop) (q : Slot) : Prop :=
  (k.proc q).state = .sleeping ∧ ∃ chan, (k.proc q).chan = some chan ∧ W chan

open Classical in
/-- The record of `q` once the processes in `C` have been handed to `init`. -/
noncomputable def handed (k : Kernel) (init : Slot) (C : Slot → Prop) (q : Slot) : Proc :=
  if C q then (k.proc q).handedTo init else k.proc q

@[simp] theorem handed_state (k : Kernel) (init : Slot) (C : Slot → Prop) (q : Slot) :
    (k.handed init C q).state = (k.proc q).state := by
  unfold handed; split <;> rfl

@[simp] theorem handed_chan (k : Kernel) (init : Slot) (C : Slot → Prop) (q : Slot) :
    (k.handed init C q).chan = (k.proc q).chan := by
  unfold handed; split <;> rfl

@[simp] theorem handed_pid (k : Kernel) (init : Slot) (C : Slot → Prop) (q : Slot) :
    (k.handed init C q).pid = (k.proc q).pid := by
  unfold handed; split <;> rfl

@[simp] theorem handed_firstPid (k : Kernel) (init : Slot) (C : Slot → Prop) (q : Slot) :
    (k.handed init C q).firstPid = (k.proc q).firstPid := by
  unfold handed; split <;> rfl

theorem handed_of_mem {k : Kernel} {init : Slot} {C : Slot → Prop} {q : Slot} (h : C q) :
    k.handed init C q = (k.proc q).handedTo init := by
  rw [handed, if_pos h]

theorem handed_of_notMem {k : Kernel} {init : Slot} {C : Slot → Prop} {q : Slot} (h : ¬ C q) :
    k.handed init C q = k.proc q := by
  rw [handed, if_neg h]

open Classical in
/-- The record of `q` once, besides, the sleepers on the channels in `W` have been woken. -/
noncomputable def relinked (k : Kernel) (init : Slot) (C : Slot → Prop) (W : Chan → Prop)
    (q : Slot) : Proc :=
  if k.Roused W q then (k.handed init C q).readied k.ticks else k.handed init C q

theorem relinked_fields (k : Kernel) (init : Slot) (C : Slot → Prop) (W : Chan → Prop)
    (q : Slot) :
    (k.relinked init C W q).pid = (k.proc q).pid ∧
      (k.relinked init C W q).firstPid = (k.proc q).firstPid ∧
      ((k.relinked init C W q).state = .zombie ↔ (k.proc q).state = .zombie) ∧
      (k.relinked init C W q).parent = (k.handed init C q).parent := by
  by_cases h : k.Roused W q
  · rw [relinked, if_pos h]
    simp [Proc.readied, h.1]
  · rw [relinked, if_neg h]
    simp

variable {k k' : Kernel} {init p cur : Slot} {C : Slot → Prop} {W : Chan → Prop} {l : List Slot}
  {b : Bool} {tid : Int}

theorem wakeup1_relinked (hproc : ∀ q, k'.proc q = k.relinked init C W q)
    (hticks : k'.ticks = k.ticks) (ch : Chan) (q : Slot) :
    (k'.wakeup1 ch).proc q = k.relinked init C (fun chan => W chan ∨ chan = ch) q := by
  rw [wakeup1_proc, hticks]
  by_cases h : k.Roused W q
  · have h' : k.Roused (fun chan => W chan ∨ chan = ch) q := by
      obtain ⟨hs, chan, hc, hW⟩ := h
      exact ⟨hs, chan, hc, Or.inl hW⟩
    rw [relinked, if_pos h', if_neg, hproc, relinked, if_pos h]
    rw [hproc, relinked, if_pos h]
    simp [Proc.readied]
  · have hq : k'.proc q = k.handed init C q := by rw [hproc, relinked, if_neg h]
    rw [hq, handed_state, handed_chan]
    by_cases hch : (k.proc q).state = .sleeping ∧ (k.proc q).chan = some ch
    · have h' : k.Roused (fun chan => W chan ∨ chan = ch) q := ⟨hch.1, ch, hch.2, Or.inr rfl⟩
      rw [relinked, if_pos h', if_pos hch]
    · have h' : ¬ k.Roused (fun chan => W chan ∨ chan = ch) q := by
        rintro ⟨hs, chan, hc, hW | rfl⟩
        · exact h ⟨hs, chan, hc, hW⟩
        · exact hch ⟨hs, hc⟩
      rw [relinked, if_neg h', if_neg hch]

theorem modify_relinked (hproc : ∀ q, k'.proc q = k.relinked init C W q) (hp : ¬ C p) (q : Slot) :
    (k'.modify p (·.handedTo init)).proc q = k.relinked init (fun q => C q ∨ q = p) W q := by
  rw [modify_proc]
  by_cases hq : q = p
  · subst hq
    have hq : k.handed init (fun r => C r ∨ r = q) q = (k.proc q).handedTo init :=
      handed_of_mem (Or.inr rfl)
    rw [if_pos rfl, hproc, relinked, relinked, hq, handed_of_notMem hp]
    split <;> rfl
  · have hC : k.handed init (fun q => C q ∨ q = p) q = k.handed init C q := by
      by_cases h : C q
      · rw [handed_of_mem h, handed_of_mem (Or.inl h)]
      · rw [handed_of_notMem h, handed_of_notMem (by simp [h, hq])]
    rw [if_neg hq, hproc, relinked, relinked, hC]

/-- `p` is a child that `exit` of `cur` hands to `init`. -/
def ExitChild (k : Kernel) (cur p : Slot) : Prop :=
  (k.proc p).pid ≠ 0 ∧ p ≠ cur ∧ (k.proc p).parent = some cur

/-- `p` is a process on whose channel `exit` of `cur` calls `wakeup1`: another thread of the group
or the parent, and not a child of `cur`. -/
def ExitKin (k : Kernel) (cur p : Slot) : Prop :=
  (k.proc p).pid ≠ 0 ∧ p ≠ cur ∧ (k.proc p).parent ≠ some cur ∧
    ((k.proc p).firstPid = (k.proc cur).firstPid ∨ (k.proc cur).parent = some p)

/-- The channel `chan` is woken when the loop of `exit` visits `p`. -/
def ExitWakesAt (k : Kernel) (cur init p : Slot) (chan : Chan) : Prop :=
  (k.ExitChild cur p ∧ (k.proc p).state = .zombie ∧ chan = .slot init) ∨
    (k.ExitKin cur p ∧ chan = .slot p)

/-- The channels that `exit` of `cur` wakes. -/
def ExitWakes (k : Kernel) (cur init : Slot) (chan : Chan) : Prop :=
  ∃ p, k.ExitWakesAt cur init p chan

/-- The state after the loop of `exit` has visited the slots `l`, starting from `k`. -/
structure ExitVisited (k : Kernel) (cur init : Slot) (l : List Slot) (k' : Kernel) : Prop where
  proc : ∀ q, k'.proc q = k.relinked init (fun p => p ∈ l ∧ k.ExitChild cur p)
    (fun chan => ∃ p ∈ l, k.ExitWakesAt cur init p chan) q
  globals : SameGlobals k k'
  ctl : k'.ctl = k.ctl
  cpu : k'.cpu = k.cpu

theorem relinked_congr (k : Kernel) (init : Slot) {C' : Slot → Prop} {W' : Chan → Prop}
    (hC : ∀ p, C p ↔ C' p) (hW : ∀ ch, W ch ↔ W' ch) (q : Slot) :
    k.relinked init C W q = k.relinked init C' W' q := by
  rw [show C = C' from funext fun p => propext (hC p),
    show W = W' from funext fun ch => propext (hW ch)]

theorem ExitVisited.next (hp : p ∉ l) (h : k.ExitVisited cur init l k') :
    k.ExitVisited cur init (l ++ [p]) (k'.exitAt cur init p) := by
  obtain ⟨hproc, hg, hctl, hcpu⟩ := h
  -- the fields the iteration decides by are still those of `k`
  obtain ⟨hpid, hfirst, hzombie, hparent⟩ := k.relinked_fields init
    (fun p => p ∈ l ∧ k.ExitChild cur p) (fun ch => ∃ p ∈ l, k.ExitWakesAt cur init p ch) p
  obtain ⟨-, hcurFirst, -, hcurParent⟩ := k.relinked_fields init
    (fun p => p ∈ l ∧ k.ExitChild cur p) (fun ch => ∃ p ∈ l, k.ExitWakesAt cur init p ch) cur
  rw [handed_of_notMem (by simp [hp])] at hparent
  rw [handed_of_notMem (by simp [ExitChild])] at hcurParent
  rw [← hproc] at hpid hfirst hzombie hparent hcurFirst hcurParent
  have hmem : ∀ q, q ∈ l ++ [p] ∧ k.ExitChild cur q ↔
      (q ∈ l ∧ k.ExitChild cur q) ∨ (q = p ∧ k.ExitChild cur p) := by
    intro q; simp only [List.mem_append, List.mem_singleton]; grind
  have hwake : ∀ ch, (∃ q ∈ l ++ [p], k.ExitWakesAt cur init q ch) ↔
      (∃ q ∈ l, k.ExitWakesAt cur init q ch) ∨ k.ExitWakesAt cur init p ch := by
    intro ch; simp only [List.mem_append, List.mem_singleton]; grind
  unfold exitAt
  rw [hpid, hparent, hfirst, hcurFirst, hcurParent]
  split
  · rename_i hskip
    have hC : ¬ k.ExitChild cur p := by simp only [ExitChild]; tauto
    have hK : ¬ k.ExitKin cur p := by simp only [ExitKin]; tauto
    refine ⟨fun q => (hproc q).trans (relinked_congr k init ?_ ?_ q), hg, hctl, hcpu⟩
    · intro q; rw [hmem]; simp [hC]
    · intro ch; rw [hwake]; simp [ExitWakesAt, hC, hK]
  · rename_i hskip
    split
    · rename_i hpar
      have hC : k.ExitChild cur p := by simp only [ExitChild]; tauto
      have hK : ¬ k.ExitKin cur p := by simp only [ExitKin]; tauto
      have hset := modify_relinked hproc (p := p) (by simp [hp])
      have hgset := hg.modify p (·.handedTo init)
      by_cases hzom : (k.proc p).state = .zombie
      · rw [if_pos (hzombie.2 hzom)]
        obtain ⟨hg', hctl', hcpu'⟩ := wakeup1_globals (k'.modify p (·.handedTo init)) (.slot init)
        have hw := wakeup1_relinked hset hgset.ticks (.slot init)
        refine ⟨fun q => (hw q).trans (relinked_congr k init ?_ ?_ q), hgset.trans hg',
          hctl'.trans hctl, hcpu'.trans hcpu⟩
        · intro q; rw [hmem]; simp [hC]
        · intro ch; rw [hwake]; simp [ExitWakesAt, hC, hK, hzom]
      · rw [if_neg (mt hzombie.1 hzom)]
        refine ⟨fun q => (hset q).trans (relinked_congr k init ?_ ?_ q), hgset, hctl, hcpu⟩
        · intro q; rw [hmem]; simp [hC]
        · intro ch; rw [hwake]; simp [ExitWakesAt, hK, hzom]
    · rename_i hpar
      have hC : ¬ k.ExitChild cur p := by simp only [ExitChild]; tauto
      split
      · rename_i hkin
        have hK : k.ExitKin cur p := by simp only [ExitKin]; tauto
        obtain ⟨hg', hctl', hcpu'⟩ := wakeup1_globals k' (.slot p)
        refine ⟨fun q => (wakeup1_relinked hproc hg.ticks (.slot p) q).trans
          (relinked_congr k init ?_ ?_ q), hg.trans hg', hctl'.trans hctl, hcpu'.trans hcpu⟩
        · intro q; rw [hmem]; simp [hC]
        · intro ch; rw [hwake]; simp [ExitWakesAt, hC, hK]
      · rename_i hkin
        have hK : ¬ k.ExitKin cur p := by simp only [ExitKin]; tauto
        refine ⟨fun q => (hproc q).trans (relinked_congr k init ?_ ?_ q), hg, hctl, hcpu⟩
        · intro q; rw [hmem]; simp [hC]
        · intro ch; rw [hwake]; simp [ExitWakesAt, hC, hK]

theorem exitVisited_all (k : Kernel) (cur init : Slot) :
    k.ExitVisited cur init (List.finRange NPROC)
      ((List.finRange NPROC).foldl (exitAt cur init) k) := by
  refine foldl_visited (k.ExitVisited cur init) (fun l p k' hp h => h.next hp)
    (List.nodup_finRange NPROC) ⟨fun q => ?_, .refl k, rfl, rfl⟩
  have h : ¬ k.Roused (fun chan => ∃ p ∈ ([] : List Slot), k.ExitWakesAt cur init p chan) q := by
    simp [Roused]
  rw [relinked, if_neg h, handed_of_notMem (by simp)]

/-- The record of a process other than the caller after `exit`: a child of the caller now belongs
to `init`, and a sleeper on one of the channels of `ExitWakes` is runnable. -/
noncomputable def orphaned (k : Kernel) (cur init q : Slot) : Proc :=
  k.relinked init (k.ExitChild cur) (k.ExitWakes cur init) q

theorem exitLoop_proc (k : Kernel) (cur init q : Slot) :
    ((List.finRange NPROC).foldl (exitAt cur init) k).proc q = k.orphaned cur init q := by
  rw [(k.exitVisited_all cur init).proc, orphaned]
  exact relinked_congr k init (by simp) (by simp [ExitWakes]) q

theorem exit_proc_ne (k : Kernel) (c : Nat) {q : Slot} (hq : q ≠ cur) :
    (k.exit c cur init).proc q = k.orphaned cur init q := by
  simp [exit, becomeZombie, sched, hq, exitLoop_proc]

theorem exitLoop_self (init : Slot) (hcur : (k.proc cur).state = .running) :
    ((List.finRange NPROC).foldl (exitAt cur init) k).proc cur = k.proc cur := by
  rw [exitLoop_proc, orphaned, relinked, if_neg (by simp [Roused, hcur]),
    handed_of_notMem (by simp [ExitChild])]

theorem exit_proc_self (c : Nat) (init : Slot) (hcur : (k.proc cur).state = .running) :
    (k.exit c cur init).proc cur = ((k.proc cur).withState .zombie).charged k.ticks := by
  have hself := exitLoop_self init hcur
  have hticks := (k.exitVisited_all cur init).globals.ticks
  simp [exit, becomeZombie, sched, hself, hticks]

theorem exit_rest (k : Kernel) (c : Nat) (cur init : Slot) :
    SameGlobals k (k.exit c cur init) ∧ (k.exit c cur init).ctl = k.ctl ∧
      ∀ c', (k.exit c cur init).cpu c' = if c' = c then none else k.cpu c' := by
  obtain ⟨-, hg, hctl, hcpu⟩ := k.exitVisited_all cur init
  rw [exit]
  generalize (List.finRange NPROC).foldl (exitAt cur init) k = k' at hg hctl hcpu
  refine ⟨{ hg with }, hctl, fun c' => ?_⟩
  simp [becomeZombie, sched, hcpu]

@[simp] theorem orphaned_pid (k : Kernel) (cur init q : Slot) :
    (k.orphaned cur init q).pid = (k.proc q).pid :=
  (k.relinked_fields init _ _ q).1

@[simp] theorem orphaned_firstPid (k : Kernel) (cur init q : Slot) :
    (k.orphaned cur init q).firstPid = (k.proc q).firstPid :=
  (k.relinked_fields init _ _ q).2.1

theorem orphaned_field {α : Type} (g : Proc → α) (hready : ∀ x now, g (Proc.readied x now) = g x)
    (hhand : ∀ x init, g (Proc.handedTo x init) = g x) (k : Kernel) (cur init q : Slot) :
    g (k.orphaned cur init q) = g (k.proc q) := by
  have hhanded : g (k.handed init (k.ExitChild cur) q) = g (k.proc q) := by
    unfold handed
    split
    · exact hhand _ _
    · rfl
  by_cases h : k.Roused (k.ExitWakes cur init) q
  · rw [orphaned, relinked, if_pos h, hready, hhanded]
  · rw [orphaned, relinked, if_neg h, hhanded]

@[simp] theorem orphaned_chan (k : Kernel) (cur init q : Slot) :
    (k.orphaned cur init q).chan = (k.proc q).chan :=
  orphaned_field (·.chan) Proc.readied_chan Proc.handedTo_chan k cur init q

@[simp] theorem orphaned_ticketCount (k : Kernel) (cur init q : Slot) :
    (k.orphaned cur init q).ticketCount = (k.proc q).ticketCount :=
  orphaned_field (·.ticketCount) Proc.readied_ticketCount Proc.handedTo_ticketCount k cur init q

@[simp] theorem orphaned_killed (k : Kernel) (cur init q : Slot) :
    (k.orphaned cur init q).killed = (k.proc q).killed :=
  orphaned_field (·.killed) Proc.readied_killed Proc.handedTo_killed k cur init q

theorem orphaned_parent (k : Kernel) (cur init q : Slot) :
    (k.ExitChild cur q ∧ (k.orphaned cur init q).parent = some init) ∨
      (¬ k.ExitChild cur q ∧ (k.orphaned cur init q).parent = (k.proc q).parent) := by
  rw [orphaned, (k.relinked_fields init _ _ q).2.2.2]
  by_cases h : k.ExitChild cur q
  · exact .inl ⟨h, by rw [handed_of_mem h, Proc.handedTo_parent]⟩
  · exact .inr ⟨h, by rw [handed_of_notMem h]⟩

theorem orphaned_state (k : Kernel) (cur init q : Slot) :
    (k.Roused (k.ExitWakes cur init) q ∧ (k.orphaned cur init q).state = .runnable) ∨
      (¬ k.Roused (k.ExitWakes cur init) q ∧
        (k.orphaned cur init q).state = (k.proc q).state) := by
  by_cases h : k.Roused (k.ExitWakes cur init) q
  · exact .inl ⟨h, by rw [orphaned, relinked, if_pos h, Proc.readied_state]⟩
  · exact .inr ⟨h, by rw [orphaned, relinked, if_neg h, handed_state]⟩

theorem orphaned_unused {q : Slot} :
    (k.orphaned cur init q).state = .unused ↔ (k.proc q).state = .unused := by
  obtain ⟨hr, hs⟩ | ⟨-, hs⟩ := k.orphaned_state cur init q
  · simp [hs, hr.1]
  · rw [hs]

theorem orphaned_clock (k : Kernel) (cur init q : Slot) :
    (k.Roused (k.ExitWakes cur init) q ∧
        (k.orphaned cur init q).clock = ((k.proc q).readied k.ticks).clock) ∨
      (¬ k.Roused (k.ExitWakes cur init) q ∧
        (k.orphaned cur init q).clock = (k.proc q).clock) := by
  have hhand : (k.handed init (k.ExitChild cur) q).clock = (k.proc q).clock := by
    unfold handed; split <;> rfl
  by_cases h : k.Roused (k.ExitWakes cur init) q
  · refine .inl ⟨h, ?_⟩
    rw [orphaned, relinked, if_pos h, Proc.clock_readied, Proc.clock_readied, hhand]
  · exact .inr ⟨h, by rw [orphaned, relinked, if_neg h, hhand]⟩

/-! ## Scans -/

/-- `p` is a child that the scan of `diagwait` by `cur` considers. -/
def WaitTarget (k : Kernel) (cur p : Slot) : Prop :=
  (k.proc p).pid = (k.proc p).firstPid ∧ (k.proc p).parent = some cur

/-- `p` is a slot that the scan of `thread_join(tid)` by `cur` takes for its target. -/
def JoinTarget (k : Kernel) (cur : Slot) (tid : Int) (p : Slot) : Prop :=
  p ≠ cur ∧ (k.proc p).firstPid = (k.proc cur).firstPid ∧ (k.proc p).pid = tid

theorem waitScan_found (h : k.waitScan cur l b = .found p) :
    k.WaitTarget cur p ∧ (k.proc p).state = .zombie := by
  induction l generalizing b with
  | nil => cases b <;> simp [waitScan] at h
  | cons q l ih =>
    rw [waitScan] at h
    split at h
    · exact ih h
    · rename_i hq
      split at h
      · rename_i hz
        obtain rfl : q = p := by simpa using h
        exact ⟨by simpa [WaitTarget, not_or] using hq, hz⟩
      · exact ih h

theorem waitScan_kids (h : k.waitScan cur l b = .kids) (hp : p ∈ l) (hw : k.WaitTarget cur p) :
    (k.proc p).state ≠ .zombie := by
  induction l generalizing b with
  | nil => simp at hp
  | cons q l ih =>
    rw [waitScan] at h
    split at h
    · rename_i hq
      rcases List.mem_cons.1 hp with rfl | hp
      · exact absurd hw (by simpa [WaitTarget, imp_iff_not_or] using hq)
      · exact ih h hp
    · split at h
      · simp at h
      · rename_i hz
        rcases List.mem_cons.1 hp with rfl | hp
        · exact hz
        · exact ih h hp

theorem joinScan_found (h : k.joinScan cur tid l b = .found p) :
    k.JoinTarget cur tid p ∧ (k.proc p).pid ≠ (k.proc p).firstPid ∧
      (k.proc p).state = .zombie := by
  induction l generalizing b with
  | nil => cases b <;> simp [joinScan] at h
  | cons q l ih =>
    rw [joinScan] at h
    split at h
    · exact ih h
    · rename_i hq
      split at h
      · simp at h
      · rename_i hlead
        split at h
        · rename_i hz
          obtain rfl : q = p := by simpa using h
          exact ⟨by simpa [JoinTarget, not_or] using hq, hlead, hz⟩
        · exact ih h

/-- `thread_join` gives up on the group's first process exactly when it is asked to join it. -/
theorem joinScan_leader_iff :
    k.joinScan cur tid l b = .leader ↔
      tid = (k.proc cur).firstPid ∧ ∃ p ∈ l, k.JoinTarget cur tid p := by
  induction l generalizing b with
  | nil => cases b <;> simp [joinScan]
  | cons q l ih =>
    rw [joinScan]
    split
    · rename_i hq
      have hq : ¬ k.JoinTarget cur tid q := by
        rintro ⟨h1, h2, h3⟩
        simp [h1, h2, h3] at hq
      simp [ih, hq]
    · rename_i hq
      have hq : k.JoinTarget cur tid q := by simpa [JoinTarget, not_or] using hq
      have hlead : (k.proc q).pid = (k.proc q).firstPid ↔ tid = (k.proc cur).firstPid := by
        rw [hq.2.1, hq.2.2]
      split
      · rename_i h
        exact ⟨fun _ => ⟨hlead.1 h, q, List.mem_cons_self, hq⟩, fun _ => rfl⟩
      · rename_i h
        have hne : tid ≠ (k.proc cur).firstPid := fun heq => h (hlead.2 heq)
        split
        · simp [hne]
        · simp [ih, hne]

theorem joinScan_alive (h : k.joinScan cur tid l b = .alive) :
    (b = true ∨ ∃ p ∈ l, k.JoinTarget cur tid p) ∧
      ∀ p ∈ l, k.JoinTarget cur tid p →
        (k.proc p).pid ≠ (k.proc p).firstPid ∧ (k.proc p).state ≠ .zombie := by
  induction l generalizing b with
  | nil => cases b <;> simp [joinScan] at h ⊢
  | cons q l ih =>
    rw [joinScan] at h
    split at h
    · rename_i hq
      have hq : ¬ k.JoinTarget cur tid q := by
        rintro ⟨h1, h2, h3⟩
        simp [h1, h2, h3] at hq
      obtain ⟨hex, hall⟩ := ih h
      refine ⟨hex.imp_right fun ⟨p, hp, ht⟩ => ⟨p, List.mem_cons_of_mem _ hp, ht⟩, ?_⟩
      rintro p hp ht
      rcases List.mem_cons.1 hp with rfl | hp
      · exact absurd ht hq
      · exact hall p hp ht
    · rename_i hq
      have hq : k.JoinTarget cur tid q := by simpa [JoinTarget, not_or] using hq
      split at h
      · simp at h
      · rename_i hlead
        split at h
        · simp at h
        · rename_i hz
          refine ⟨.inr ⟨q, List.mem_cons_self, hq⟩, fun p hp ht => ?_⟩
          rcases List.mem_cons.1 hp with rfl | hp
          · exact ⟨hlead, hz⟩
          · exact (ih h).2 p hp ht

end Kernel

end Xv6
