import Xv6.Foundation.Killable
import Xv6.Processes.Table
import Xv6.Waiting.Console
import Xv6.Waiting.Pipe

/-! # Kills and sleepers

The waits that a kill is meant to end, in one system: `piperead` and `pipewrite` on any number of
pipes, `consoleread`, `sys_sleep`, `diagwait` and `thread_join`, by any number of processes, with
`kill`. Beside them there are the handlers of the console and of the timer, and the rest of the
kernel, which changes the process table under `ptable.lock` and wakes channels as it likes.

A party is a process from its creation on, and `slotOf` says which slot of the table it has. Of the
table, the scans of `diagwait` and `thread_join` read who is whose child or thread and who is a
zombie; the flag `killed` and who sleeps are kept by the monitor. `iunlock` and `ilock` at the ends
of `consoleread` are left out.

* **`Kills.sleepers_not_killed`** — nobody who sleeps in one of these waits is killed, unless a kill
  falls between a test of the flag and the sleep that follows it (`Kills.killed_reader_asleep`).
  `diagwait` and `thread_join` test under `ptable.lock`, where no kill can fall. -/

namespace Xv6.Kills

open Foundation

/-- The locks other than `ptable.lock`. -/
inductive Lk
  | pipe (i : Nat)
  | cons
  | ticks
  deriving DecidableEq

/-- The channels. -/
inductive Ch
  | pipe (i : Nat) (c : Pipes.Chan)
  | input
  | ticks
  | slot (q : Slot)
  deriving DecidableEq

/-- What the calls share. -/
structure Shared (P : Type) where
  pipe : Nat → Pipes.Pipe P
  input : Consoles.Input
  ticks : Nat
  table : Kernel

/-- The points of the calls. -/
inductive Pc (P : Type)
  | idle
  | pipe (i : Nat) (pc : Pipes.Pc P)
  | console (pc : Consoles.Pc)
  | sleepEnter (n : Int)
  | sleepStart (n : Int)
  /-- At the condition of the loop of `sys_sleep`. -/
  | sleepWhile (n : Int) (ticks0 : Nat)
  | sleepTest (n : Int) (ticks0 : Nat)
  | sleepSleep (n : Int) (ticks0 : Nat)
  | tickEnter
  | tickAdd
  | tickWake
  /-- Releases `tickslock`. -/
  | ticksLeave
  | waitEnter
  | waitScan
  | waitTest
  | waitSleep
  | joinEnter (tid : Int)
  | joinAcquire (tid : Int)
  | joinScan (tid : Int)
  | joinTest (tid : Int)
  | joinSleep (tid : Int)
  /-- Releases `ptable.lock`. -/
  | tableLeave
  /-- The rest of the kernel changes the table. -/
  | changeEnter (f : Kernel → Kernel)
  | change (f : Kernel → Kernel)
  /-- The rest of the kernel wakes a channel. -/
  | wake (c : Ch)
  | kill (t : P)

section

variable {P : Type} [DecidableEq P] (slotOf : P → Slot)

/-- What the scan of `diagwait` leads to. -/
def afterWaitScan (cur : Slot) (d : Shared P) : Pc P × Shared P :=
  match d.table.waitScan cur (List.finRange NPROC) false with
  | .found q => (.tableLeave, { d with table := d.table.modify q (·.cleared) })
  | .noKids => (.tableLeave, d)
  | .kids => (.waitTest, d)

/-- What the scan of `thread_join` leads to. -/
def afterJoinScan (cur : Slot) (tid : Int) (d : Shared P) : Pc P × Shared P :=
  match d.table.joinScan cur tid (List.finRange NPROC) false with
  -- returns with the lock
  | .leader => (.idle, d)
  | .found q => (.tableLeave, { d with table := d.table.modify q (·.cleared) })
  | .absent => (.tableLeave, d)
  | .alive => (.joinTest tid, d)

/-- The code of the waits and of what goes on beside them. -/
def code (p : P) : Pc P → Instr (Pc P) Lk Ch P (Shared P)
  | .idle => .halt
  | .pipe i pc => (Pipes.code p pc).lift (.pipe i) (fun _ => .pipe i) (.pipe i) (·.pipe i)
      fun d x => { d with pipe := Function.update d.pipe i x }
  | .console pc => (Consoles.code p pc).lift .console (fun _ => .cons) (fun _ => .input) (·.input)
      fun d x => { d with input := x }
  | .sleepEnter n => .acquire (some .ticks) (.sleepStart n)
  | .sleepStart n => .act fun d => (.sleepWhile n d.ticks, d)
  | .sleepWhile n ticks0 => .act fun d =>
    (if wrapSub d.ticks ticks0 < Consoles.toUint n then .sleepTest n ticks0 else .ticksLeave, d)
  | .sleepTest n ticks0 => .test fun _ killed =>
    if killed then .ticksLeave else .sleepSleep n ticks0
  | .sleepSleep n ticks0 => .sleep .ticks (some .ticks) (.sleepWhile n ticks0)
  | .tickEnter => .acquire (some .ticks) .tickAdd
  | .tickAdd => .act fun d => (.tickWake, { d with ticks := wrap (d.ticks + 1) })
  | .tickWake => .wakeup .ticks .ticksLeave
  | .ticksLeave => .release (some .ticks) .idle
  | .waitEnter => .acquire none .waitScan
  | .waitScan => .act (afterWaitScan (slotOf p))
  | .waitTest => .test fun _ killed => if killed then .tableLeave else .waitSleep
  | .waitSleep => .sleep (.slot (slotOf p)) none .waitScan
  | .joinEnter tid => .act fun d =>
    (if tid = (d.table.proc (slotOf p)).pid then .idle else .joinAcquire tid, d)
  | .joinAcquire tid => .acquire none (.joinScan tid)
  | .joinScan tid => .act (afterJoinScan (slotOf p) tid)
  | .joinTest tid => .test fun _ killed => if killed then .tableLeave else .joinSleep tid
  | .joinSleep tid => .sleep (.slot (slotOf p)) none (.joinScan tid)
  | .tableLeave => .release none .idle
  | .changeEnter f => .acquire none (.change f)
  | .change f => .act fun d => (.tableLeave, { d with table := f d.table })
  | .wake c => .wakeup c .idle
  | .kill t => .kill t .idle

/-- Whoever is in no call may begin any. -/
def entry (p : P) (_ : Pc P) : Pc P → Bool
  | .pipe _ pc => Pipes.entry p .idle pc
  | .console pc => Consoles.entry p .idle pc
  | .sleepEnter _ | .tickEnter | .waitEnter | .joinEnter _ | .changeEnter _ | .wake _ | .kill _ =>
    true
  | _ => false

/-- Processes, pipes, the console, the clock and the table. -/
abbrev State (P : Type) := Monitor (Pc P) Lk Ch P (Shared P)

/-- Everybody is outside the calls, and the data is anything. -/
def boot (d : Shared P) (killed : P → Bool) : State P where
  data := d
  lock := fun _ => none
  place := fun _ => .on .idle
  killed := killed

/-! ## The marks -/

/-- Between the test of the flag and the sleep, in `pipe.c`. -/
def pipeTested : Pipes.Pc P → Bool
  | .writeWake _ _ _ _ | .writeSleep _ _ _ _ | .readSleep _ => true
  | _ => false

/-- Between the test of the flag and the sleep, in `consoleread`. -/
def consoleTested : Consoles.Pc → Bool
  | .readSleep _ _ => true
  | _ => false

/-- **The marks**: where the flag was found down, and where `ptable.lock` is held. -/
def marks : Marks (Pc P) where
  tested
    | .pipe _ pc => pipeTested pc
    | .console pc => consoleTested pc
    | .sleepSleep _ _ | .waitSleep | .joinSleep _ => true
    | _ => false
  keeps
    | .waitScan | .waitTest | .waitSleep | .joinScan _ | .joinTest _ | .joinSleep _ | .tableLeave
    | .change _ => true
    | _ => false

variable {slotOf}

theorem fits_pipe (i : Nat) (p : P) (pc : Pipes.Pc P) :
    ((marks (P := P)).comap (.pipe i)).Fits pc (Pipes.code p pc) := by
  cases pc with
  | idle => trivial
  | writeEnter addr n | leave | readEnter n | readLeave n j | closeEnter w => exact ⟨rfl, nofun⟩
  | writeFor addr n j since =>
    refine Marks.fits_act (fun d => ?_) fun _ => nofun
    by_cases hj : (j : Int) < n
    · rw [if_pos hj]
      rfl
    · rw [if_neg hj]
      rfl
  | writeWhile addr n j since =>
    refine Marks.fits_act (fun d => ?_) fun _ => nofun
    cases hfull : d.full with
    | false | true => rfl
  | writeTest addr n j since =>
    refine Marks.fits_test (fun d => ?_) fun _ _ => nofun
    rw [if_pos (Or.inr rfl)]
    rfl
  | writeWake addr n j since => exact ⟨fun _ => rfl, rfl⟩
  | writeSleep addr n j since | readSleep n => exact ⟨rfl, rfl, rfl⟩
  | writeStore addr n j since | writeFail addr j | closeSet w =>
    exact Marks.fits_act (fun _ => rfl) fun _ => nofun
  | writeEnd | readEnd n j | closeWake w => exact ⟨nofun, rfl⟩
  | readWhile n =>
    refine Marks.fits_act (fun d => ?_) fun _ => nofun
    by_cases hwait : d.empty = true ∧ d.writeopen = true
    · rw [if_pos hwait]
      rfl
    · rw [if_neg hwait]
      rfl
  | readTest n => exact Marks.fits_test (fun _ => rfl) fun _ _ => nofun
  | readFor n j =>
    refine Marks.fits_act (fun d => ?_) fun _ => nofun
    by_cases hgo : (j : Int) < n ∧ d.empty = false
    · rw [if_pos hgo]
      rfl
    · rw [if_neg hgo]
      rfl
  | kill t => exact ⟨rfl, rfl⟩

theorem not_tested_intrSwitch (c : UInt8) (cs : List UInt8) (d : Consoles.Input) :
    consoleTested (Consoles.intrSwitch c cs d).1 = false := by
  unfold Consoles.intrSwitch
  split
  · rfl
  split
  · rfl
  split
  · rfl
  · unfold Consoles.intrDefault
    dsimp only
    generalize (if c = Consoles.carriageReturn then Consoles.newline else c) = b
    split
    · split <;> rfl
    · rfl

theorem not_tested_readByte (target : Nat) (n : Int) (d : Consoles.Input) :
    consoleTested (Consoles.readByte target n d).1 = false := by
  unfold Consoles.readByte
  dsimp only
  split
  · split <;> rfl
  · split <;> rfl

omit [DecidableEq P] in
theorem fits_console (p : P) (pc : Consoles.Pc) :
    ((marks (P := P)).comap .console).Fits pc (Consoles.code p pc) := by
  cases pc with
  | idle => trivial
  | intrEnter cs | leave | readEnter n | readLeave target n => exact ⟨rfl, nofun⟩
  | intrLoop cs =>
    cases cs with
    | nil => exact Marks.fits_act (fun _ => rfl) fun _ => nofun
    | cons c cs =>
      exact Marks.fits_act (fun d => not_tested_intrSwitch c cs (d.type c)) fun _ => nofun
  | intrKill cs =>
    refine Marks.fits_act (fun d => ?_) fun _ => nofun
    split
    · rfl
    · rfl
  | intrWake cs => exact ⟨nofun, rfl⟩
  | readOuter target n =>
    refine Marks.fits_act (fun d => ?_) fun _ => nofun
    by_cases hn : 0 < n
    · simp only [hn, if_true]
      rfl
    · simp only [hn, if_false]
      rfl
  | readInner target n =>
    refine Marks.fits_act (fun d => ?_) fun _ => nofun
    by_cases hr : d.r = d.w
    · simp only [hr, if_true]
      rfl
    · simp only [hr, if_false]
      rfl
  | readTest target n => exact Marks.fits_test (fun _ => rfl) fun _ _ => nofun
  | readSleep target n => exact ⟨rfl, rfl, rfl⟩
  | readByte target n => exact Marks.fits_act (not_tested_readByte target n) fun _ => nofun
  | readDone target n => exact Marks.fits_act (fun _ => rfl) fun _ => nofun

omit [DecidableEq P] in
theorem not_tested_afterWaitScan (cur : Slot) (d : Shared P) :
    marks.tested (afterWaitScan cur d).1 = false := by
  unfold afterWaitScan
  split
  · rfl
  · rfl
  · rfl

omit [DecidableEq P] in
theorem not_tested_afterJoinScan (cur : Slot) (tid : Int) (d : Shared P) :
    marks.tested (afterJoinScan cur tid d).1 = false := by
  unfold afterJoinScan
  split
  · rfl
  · rfl
  · rfl
  · rfl

theorem fits_code (p : P) (pc : Pc P) : marks.Fits pc (code slotOf p pc) := by
  cases pc with
  | idle => trivial
  | pipe i pc =>
    unfold code
    exact marks.fits_lift (fits_pipe i p pc)
  | console pc =>
    unfold code
    exact marks.fits_lift (fits_console p pc)
  | sleepEnter n | tickEnter | ticksLeave => exact ⟨rfl, nofun⟩
  | sleepStart n | tickAdd => exact Marks.fits_act (fun _ => rfl) fun _ => nofun
  | sleepWhile n ticks0 =>
    have hnext : ∀ d : Shared P, marks.tested (if wrapSub d.ticks ticks0 < Consoles.toUint n then
          Pc.sleepTest n ticks0 else .ticksLeave : Pc P) = false ∧
        marks.keeps (if wrapSub d.ticks ticks0 < Consoles.toUint n then
          Pc.sleepTest n ticks0 else .ticksLeave : Pc P) = false := by
      intro d
      split
      · exact ⟨rfl, rfl⟩
      · exact ⟨rfl, rfl⟩
    refine Marks.fits_act (fun d => (hnext d).1) fun d hk => ?_
    exact absurd (hk.symm.trans (hnext d).2) nofun
  | sleepTest n ticks0 =>
    refine Marks.fits_test (fun _ => rfl) fun d b hk => ?_
    cases b <;> cases hk
  | sleepSleep n ticks0 | waitSleep | joinSleep tid => exact ⟨rfl, rfl, rfl⟩
  | tickWake | wake c => exact ⟨nofun, rfl⟩
  | waitEnter | joinAcquire tid | changeEnter f => rfl
  | waitScan => exact Marks.fits_act (not_tested_afterWaitScan _) fun _ _ => rfl
  | waitTest | joinTest tid => exact Marks.fits_test (fun _ => rfl) fun _ _ _ => rfl
  | joinEnter tid =>
    have hnext : ∀ b : Prop, [Decidable b] →
        marks.tested (if b then .idle else .joinAcquire tid : Pc P) = false ∧
        marks.keeps (if b then .idle else .joinAcquire tid : Pc P) = false := by
      intro b _
      split
      · exact ⟨rfl, rfl⟩
      · exact ⟨rfl, rfl⟩
    refine Marks.fits_act (fun d => (hnext _).1) fun d hk => ?_
    exact absurd (hk.symm.trans (hnext _).2) nofun
  | joinScan tid => exact Marks.fits_act (not_tested_afterJoinScan _ tid) fun _ _ => rfl
  | tableLeave | kill t => exact ⟨rfl, rfl⟩
  | change f => exact Marks.fits_act (fun _ => rfl) fun _ _ => rfl

theorem marks_valid : marks.Valid (code slotOf) (entry (P := P)) where
  code := fits_code
  entry := by
    intro p old pc h
    cases pc with
    | pipe i pc | console pc =>
      refine ⟨?_, nofun⟩
      cases pc <;> first | rfl | cases h
    | sleepEnter n | tickEnter | waitEnter | joinEnter tid | changeEnter f | wake c | kill t =>
      exact ⟨rfl, nofun⟩
    | _ => cases h

/-! ## Main results -/

/-- **A kill is not slept through**, in runs in which no kill strikes a process that has tested its
flag, does not have `ptable.lock` and is about to sleep: whoever sleeps in one of the waits is not
killed. -/
theorem sleepers_not_killed {d : Shared P} {killed : P → Bool} {s : State P}
    (h : Run (Monitor.step (code slotOf) entry) marks.Spared (boot d killed) s) {p : P} {c : Ch}
    {l : Option Lk} {pc : Pc P} (hp : s.place p = .asleep c l pc) : s.killed p = false := by
  have hboot : marks.Ok (boot d killed) :=
    ⟨fun _ hk => (by cases hk), fun _ ht => (by cases ht), fun _ => trivial⟩
  refine (Marks.ok marks_valid hboot h).killed p ?_
  rw [hp]
  rfl

end

/-- Nothing has happened. -/
def start : State (Fin 2) :=
  boot ⟨fun _ => { data := fun _ => 0 }, {}, 0, Xv6.boot 2⟩ fun _ => false

/-- Whether a process sleeps in `piperead`. -/
def readerAsleep : Foundation.Place (Pc P) Lk Ch P → Bool
  | .asleep (.pipe 0 .nread) _ _ => true
  | _ => false

/-- Process `0` is killed in its sleep at an empty pipe and gives up; process `1`, which has killed
it, then sleeps there itself. -/
theorem sleepers_not_killed_reader :
    ∃ s : State (Fin 2),
      Run (Monitor.step (code fun p => p.castLE (by decide)) entry) marks.Spared start s ∧
        s.killed 0 = true ∧ Monitor.Place.waitsOn (.pipe 0 .nread) (s.place 1) = true ∧
        s.killed 1 = false := by
  obtain ⟨s, hrun, hs⟩ := exists_run_of_runs
    (Monitor.step (code fun p : Fin 2 => p.castLE (by decide)) entry) marks.Spared start
    (.start 0 (.pipe 0 (.readEnter 1)) :: List.replicate 6 (.turn 0) ++
      .start 1 (.kill 0) :: List.replicate 3 (.turn 1) ++ List.replicate 6 (.turn 0) ++
      .start 1 (.pipe 0 (.readEnter 1)) :: List.replicate 6 (.turn 1))
    (fun s => s.killed 0 && readerAsleep (s.place 1)) (by decide +kernel)
  obtain ⟨hkilled, hasleep⟩ := Bool.and_eq_true_iff.1 hs
  unfold readerAsleep at hasleep
  split at hasleep
  · rename_i hplace
    refine ⟨s, hrun, hkilled, ?_, sleepers_not_killed hrun hplace⟩
    rw [hplace]
    rfl
  · cases hasleep

/-- **A killed reader sleeps.** Process `0` finds its flag down in `piperead`; process `1` kills it;
process `0` falls asleep, and nobody has `ptable.lock`. -/
theorem killed_reader_asleep :
    ∃ s : State (Fin 2),
      Reachable (Monitor.step (code fun p => p.castLE (by decide)) entry) start s ∧
        s.lock none = none ∧ (∃ l pc, s.place 0 = .asleep (.pipe 0 .nread) l pc) ∧
          s.killed 0 = true := by
  obtain ⟨s, hrun, hs⟩ := exists_run_of_runs
    (Monitor.step (code fun p : Fin 2 => p.castLE (by decide)) entry) (fun _ _ => True) start
    (.start 0 (.pipe 0 (.readEnter 1)) :: List.replicate 3 (.turn 0) ++
      .start 1 (.kill 0) :: List.replicate 3 (.turn 1) ++ List.replicate 3 (.turn 0))
    (fun s => decide (s.lock none = none ∧ s.killed 0 = true) && readerAsleep (s.place 0))
    (by decide +kernel)
  obtain ⟨hdec, hplace⟩ := Bool.and_eq_true_iff.1 hs
  obtain ⟨hlock, hkilled⟩ := of_decide_eq_true hdec
  unfold readerAsleep at hplace
  split at hplace
  · rename_i l pc hplace'
    exact ⟨s, hrun, hlock, ⟨l, pc, hplace'⟩, hkilled⟩
  · cases hplace

end Xv6.Kills
