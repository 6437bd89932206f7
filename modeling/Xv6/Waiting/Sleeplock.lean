import Xv6.Foundation.Monitor

/-! # Sleep-locks

`sleeplock.c`: a lock that is waited for asleep. Any number of processes take the lock, use it, ask
whether they have it, give it back and kill each other; every operation on `lk->lk` and on
`ptable.lock` is a step.

* **`Sleeplocks.handed_over`** — at most one process has the sleep-lock, and nobody sleeps on it
  while it is free, once nobody is busy with it.
* **`Sleeplocks.holdingsleep_right`** — `holdingsleep` says whether the process has it. -/

namespace Xv6.Sleeplocks

open Foundation

/-- `struct sleeplock` without its spin-lock. -/
structure Sleeplock (P : Type) where
  locked : Bool := false
  pid : Option P := none
  deriving DecidableEq

/-- The points of `acquiresleep`, `releasesleep`, `holdingsleep` and `kill`. -/
inductive Pc (P : Type)
  /-- Without the lock, in no call. -/
  | outside
  | acquireEnter
  /-- At the condition of the loop. -/
  | acquireWhile
  | acquireSleep
  | acquireTake
  | acquireLeave
  /-- With the lock, in no call. -/
  | inside
  | releaseEnter
  | releaseSet
  | releaseWake
  | releaseLeave
  /-- `holdingsleep`, of a process that has the lock or does not. -/
  | holdingEnter (inside : Bool)
  | holdingRead (inside : Bool)
  | holdingLeave (inside result : Bool)
  /-- `kill`, of a process that has the lock or does not. -/
  | killEnter (inside : Bool) (target : P)
  deriving DecidableEq, Repr

namespace Pc

variable {P : Type}

/-- Where `holdingsleep` and `kill` go back to. -/
def returns (inside : Bool) : Pc P := if inside then .inside else .outside

/-- A process at this point has the sleep-lock. -/
def holds : Pc P → Bool
  | acquireLeave | inside | releaseEnter | releaseSet => true
  | holdingEnter b | holdingRead b | holdingLeave b _ | killEnter b _ => b
  | _ => false

end Pc

section

variable {P : Type} [DecidableEq P]

/-- The code of `sleeplock.c`; the channel is the lock. -/
def code (p : P) : Pc P → Instr (Pc P) Unit Unit P (Sleeplock P)
  | .outside | .inside => .halt
  | .acquireEnter => .acquire (some ()) .acquireWhile
  | .acquireWhile => .act fun lk => (if lk.locked then .acquireSleep else .acquireTake, lk)
  | .acquireSleep => .sleep () (some ()) .acquireWhile
  | .acquireTake => .act fun _ => (.acquireLeave, ⟨true, some p⟩)
  | .acquireLeave => .release (some ()) .inside
  | .releaseEnter => .acquire (some ()) .releaseSet
  | .releaseSet => .act fun _ => (.releaseWake, ⟨false, none⟩)
  | .releaseWake => .wakeup () .releaseLeave
  | .releaseLeave => .release (some ()) .outside
  | .holdingEnter b => .acquire (some ()) (.holdingRead b)
  | .holdingRead b => .act fun lk => (.holdingLeave b (lk.locked && lk.pid = some p), lk)
  | .holdingLeave b _ => .release (some ()) (Pc.returns b)
  | .killEnter b t => .kill t (Pc.returns b)

/-- A process that has the lock may give it back, one that has not may take it, and both may ask and
kill. -/
def entry (_ : P) : Pc P → Pc P → Bool
  | .outside, .acquireEnter => true
  | .inside, .releaseEnter => true
  | .outside, .holdingEnter b | .outside, .killEnter b _ => !b
  | .inside, .holdingEnter b | .inside, .killEnter b _ => b
  | _, _ => false

/-- Processes that share a sleep-lock. -/
abbrev State (P : Type) := Monitor (Pc P) Unit Unit P (Sleeplock P)

/-- After `initsleeplock`, with processes that may have been killed or not. -/
def boot (killed : P → Bool) : State P where
  data := {}
  lock := fun _ => none
  place := fun _ => .on .outside
  killed := killed

/-- Process `p` has the sleep-lock. -/
def Has (s : State P) (p : P) : Prop := (Monitor.Place.pc (s.place p)).holds = true

instance (s : State P) (p : P) : Decidable (Has s p) := inferInstanceAs (Decidable (_ = _))

/-! ## The proof outline -/

/-- The two fields agree. -/
def Agree (lk : Sleeplock P) : Prop := lk.locked = lk.pid.isSome

/-- **The outline**: `lk->pid` is the process that has the lock, and one sleeps while it is
locked. -/
def outline : Outline (Pc P) Unit P (Sleeplock P) where
  inv := Agree
  wait _ lk := lk.locked = true
  own p pc lk := pc.holds = true ↔ lk.pid = some p
  free _
    | .outside | .inside | .acquireEnter | .releaseEnter | .holdingEnter _ | .killEnter _ _ => True
    | _ => False
  held p pc lk owed := Agree lk ∧ (pc.holds = true ↔ lk.pid = some p) ∧
    match pc with
    | .acquireWhile | .holdingRead _ | .acquireLeave | .releaseSet => owed = ∅
    | .acquireSleep => owed = ∅ ∧ lk.locked = true
    | .acquireTake => owed = ∅ ∧ lk.locked = false
    | .releaseWake => lk.pid = none
    | .releaseLeave => owed = ∅ ∧ lk.pid = none
    | .holdingLeave b r => owed = ∅ ∧ r = b
    | _ => False

omit [DecidableEq P] in
theorem outline_entry {p : P} {old pc : Pc P} (h : entry p old pc = true) :
    outline.free p pc ∧ pc.holds = old.holds := by
  unfold entry at h
  split at h
  case h_7 => cases h
  all_goals exact ⟨trivial, by simp_all [Pc.holds]⟩

theorem outline_free {p : P} {pc : Pc P} (h : outline.free p pc) :
    outline.FreeStep p pc (code p pc) := by
  cases pc with
  | outside | inside => trivial
  | acquireEnter | releaseEnter | holdingEnter b =>
    exact ⟨fun lk hinv hown => ⟨hinv, hown, rfl⟩, fun lk hown => hown⟩
  | killEnter b t => exact ⟨by cases b <;> trivial, fun lk hown => by cases b <;> exact hown⟩
  | _ => exact h.elim

theorem outline_held {allow : Pc P → Sleeplock P → Bool → Prop} {p : P} {pc : Pc P}
    {lk : Sleeplock P}
    {owed : Set Unit} (h : outline.held p pc lk owed) :
    outline.HeldStep (allow pc) p lk owed (code p pc) := by
  obtain ⟨hagree, hpid, hpc⟩ := h
  cases pc with
  | acquireWhile =>
    obtain rfl := hpc
    refine ⟨?_, fun q _ pc hown => hown⟩
    have hsame : (∅ ∪ {c | outline.wait c lk ∧ ¬ outline.wait c lk} : Set Unit) = ∅ := by simp
    show outline.held p (if lk.locked then .acquireSleep else .acquireTake) lk _
    rw [hsame]
    split
    · rename_i hlocked
      exact ⟨hagree, hpid, rfl, hlocked⟩
    · rename_i hlocked
      exact ⟨hagree, hpid, rfl, by simpa using hlocked⟩
  | acquireSleep =>
    obtain ⟨rfl, hlocked⟩ := hpc
    exact ⟨⟨hagree, fun c hc => hc.elim⟩, hlocked, fun lk hinv hown => ⟨hinv, hown, rfl⟩, hpid⟩
  | acquireTake =>
    obtain ⟨rfl, hlocked⟩ := hpc
    refine ⟨⟨rfl, by simp [Pc.holds], ?_⟩, fun q hq pc hown => hown.trans ?_⟩
    · simp [outline]
    · -- nobody had the lock
      have hnone : lk.pid = none := by simpa [Agree, hlocked] using hagree
      simp [hnone, hq.symm]
  | acquireLeave =>
    obtain rfl := hpc
    exact ⟨⟨hagree, fun c hc => hc.elim⟩, trivial, hpid⟩
  | releaseSet =>
    obtain rfl := hpc
    refine ⟨⟨rfl, by simp [Pc.holds], rfl⟩, fun q hq pc hown => hown.trans ?_⟩
    -- the lock was that of `p`
    simp [hpid.1 rfl, hq.symm]
  | releaseWake =>
    refine ⟨hagree, hpid, ?_, hpc⟩
    exact Set.eq_empty_of_forall_notMem fun c hc => hc.2 rfl
  | releaseLeave =>
    obtain ⟨rfl, -⟩ := hpc
    exact ⟨⟨hagree, fun c hc => hc.elim⟩, trivial, hpid⟩
  | holdingRead b =>
    obtain rfl := hpc
    refine ⟨⟨hagree, hpid, ?_⟩, fun q _ pc hown => hown⟩
    -- a process that is found in `lk->pid` has locked it
    have hb : (lk.pid = some p) = (b = true) := propext hpid.symm
    cases b <;> simp_all [Agree]
  | holdingLeave b r =>
    obtain ⟨rfl, -⟩ := hpc
    refine ⟨⟨hagree, fun c hc => hc.elim⟩, ?_, ?_⟩
    · cases b <;> trivial
    · cases b <;> exact hpid
  | _ => exact hpc.elim

theorem outline_valid {allow : Pc P → Sleeplock P → Bool → Prop} :
    outline.Valid (code (P := P)) entry allow where
  entry h _ := ⟨(outline_entry h).1,
    fun _ hown => (Iff.of_eq (congrArg (· = true) (outline_entry h).2)).trans hown⟩
  free := outline_free
  held := outline_held

variable {killed : P → Bool} {s : State P}

theorem safe_of_reachable (h : Reachable (Monitor.step code entry) (boot killed) s) :
    outline.Safe s := by
  have hboot : outline.Safe (boot killed) := by
    refine Outline.safe_of_idle (fun _ => rfl) (fun p => ⟨.outside, rfl, trivial, ?_⟩) rfl
    simp [outline, boot, Pc.holds]
  have hvalid : outline.Valid (code (P := P)) entry fun _ _ _ => True := outline_valid
  refine Outline.safe hvalid hboot (h.mono fun s e _ => ?_)
  cases e with
  | start p pc => trivial
  | turn p => exact fun _ _ => trivial

theorem pid_of_has (h : outline.Safe s) {p : P} (hp : Has s p) : s.data.pid = some p :=
  (h.own (fun _ _ _ _ hheld => hheld.2.1) p).1 hp

/-- **The sleep-lock is handed over without losing a wakeup.** However the steps of any number of
processes interleave, at most one process has the sleep-lock, and while `lk->lk` and `ptable.lock`
are free, a process that sleeps on the lock does so because it is locked. -/
theorem handed_over (h : Reachable (Monitor.step code entry) (boot killed) s) :
    (∀ p q, Has s p → Has s q → p = q) ∧
      (s.lock (some ()) = none → s.lock none = none →
        ∀ p l pc, s.place p = .asleep () l pc → s.data.locked = true) := by
  have hsafe := safe_of_reachable h
  constructor
  · intro p q hp hq
    have hpq := (pid_of_has hsafe hp).symm.trans (pid_of_has hsafe hq)
    exact Option.some.inj hpq
  · intro hfree _ p l pc hp
    refine (hsafe.rest hfree).2 p () ?_ (Set.notMem_empty ())
    rw [hp]
    rfl

/-- One process has the lock and kills another one that sleeps on it, which then sleeps again. -/
theorem handed_over_asleep :
    ∃ s : State (Fin 2), Reachable (Monitor.step code entry) (boot fun _ => false) s ∧
      s.place 1 = .asleep () (some ()) .acquireWhile ∧ s.killed 1 = true ∧ s.lock (some ()) = none ∧
      s.lock none = none ∧ s.data.locked = true := by
  obtain ⟨s, hrun, hs⟩ := exists_run_of_runs (Monitor.step code entry) (fun _ _ => True)
    (boot (P := Fin 2) fun _ => false)
    (.start 0 .acquireEnter :: List.replicate 4 (.turn 0) ++
      .start 1 .acquireEnter :: List.replicate 5 (.turn 1) ++
      .start 0 (.killEnter true 1) :: List.replicate 3 (.turn 0) ++ List.replicate 7 (.turn 1))
    (fun s => decide (s.place 1 = .asleep () (some ()) .acquireWhile ∧ s.killed 1 = true ∧
      s.lock (some ()) = none ∧ s.lock none = none)) (by decide +kernel)
  obtain ⟨hplace, hkilled, hlock, htable⟩ := of_decide_eq_true hs
  exact ⟨s, hrun, hplace, hkilled, hlock, htable, (handed_over hrun).2 hlock htable 1 _ _ hplace⟩

/-- **`holdingsleep`** answers whether the process has the sleep-lock. -/
theorem holdingsleep_right (h : Reachable (Monitor.step code entry) (boot killed) s) {p : P}
    {b r : Bool} (hp : s.place p = .on (.holdingLeave b r)) : r = true ↔ Has s p := by
  rcases (safe_of_reachable h).free_or_held hp with ⟨hfree, -⟩ | ⟨owed, -, -, -, rfl⟩
  · exact hfree.elim
  · rw [Has, hp]
    rfl

end

end Xv6.Sleeplocks
