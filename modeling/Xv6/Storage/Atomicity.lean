import Xv6.Foundation.Runs
import Xv6.Storage.Log

/-! # Crash atomicity of the redo log

The file system calls, crashes and reboots as steps of one system. The power may fail at any block
write, of `commit` or of `recover_from_log`, and any number of times. An observer writes down the
transactions that were committed, with whether their `commit` returned.

* **`crash_atomicity`** — whenever the system is up, each home block on the disk has the content
  that some of these transactions gave it: every transaction whose `commit` returned, and of the
  interrupted ones each as a whole or not at all. -/

namespace Xv6.Storage

open Foundation

/-! ## The system -/

/-- The machine: off, with the disk it was left with, or up. -/
inductive Machine
  | down (disk : Nat → Words)
  | up (s : Store)

/-- What happens to the machine. -/
inductive Event
  /-- The machine is started and runs `initlog`; the power lasts for `budget` block writes. -/
  | boot (budget : Nat)
  /-- A system call enters the file system. -/
  | beginOp
  /-- A system call changes the content of block `b` by `f` and logs it. -/
  | write (b : Nat) (f : Words → Words)
  /-- Some process reads block `b`. -/
  | read (b : Nat)
  /-- A system call leaves the file system; the power lasts for `budget` block writes. -/
  | endOp (budget : Nat)
  /-- The power fails between two calls. -/
  | crash

/-- The machine after a piece of code: up if it returned, and off with the disk as it is then if it
stopped. -/
def Machine.after (m : Code PUnit) (s : Store) : Machine :=
  match exec m s with
  | (.ok _, s') => .up s'
  | (.error _, s') => .down s'.disk

/-- **One step of the machine.** `begin_op` waits, so the event does not happen, while the log may
run out; system calls never touch the log area themselves. -/
def Machine.step (A : LogArea) : Machine → Event → Option Machine
  | .down disk, .boot budget => some (.after (recoverFromLog A) (.cold disk budget))
  | .up s, .beginOp =>
    if s.lh.length + (s.outstanding + 1) * MAXOPBLOCKS ≤ LOGSIZE then
      some (.up (s.setOutstanding (s.outstanding + 1)))
    else none
  | .up s, .write b f => if A.Home b then some (.after (update A b f) s) else none
  | .up s, .read b => some (.after (do let i ← bread ROOTDEV b; brelse i) s)
  | .up s, .endOp budget => some (.after (endOp A) (s.setBudget budget))
  | .up s, .crash => some (.down s.disk)
  | _, _ => none

/-! ## The observer -/

/-- A logged change: a block and what is done to its content. -/
structure Write where
  block : Nat
  change : Words → Words

/-- The writes of one transaction, in order. -/
abbrev Transaction := List Write

/-- The content of the home blocks after a transaction. -/
def Transaction.apply (t : Transaction) (d : Nat → Words) : Nat → Words :=
  t.foldl (fun d w => put d w.block (w.change (d w.block))) d

/-- The content after a list of transactions. -/
def contentAfter (d : Nat → Words) (ts : List Transaction) : Nat → Words :=
  ts.foldl (fun d t => Transaction.apply t d) d

/-- The observed machine. -/
structure Observed where
  machine : Machine
  /-- The writes since the last commit. -/
  pending : Transaction
  /-- The transactions for which `commit` was called, and whether it returned. -/
  commits : List (Transaction × Bool)

/-- Whether the machine is up. -/
def Machine.isUp : Machine → Bool
  | .up _ => true
  | .down _ => false

/-- Whether `end_op` will commit. -/
def Machine.committing : Machine → Bool
  | .up s => s.outstanding = 1
  | .down _ => false

/-- What the observer writes down when the event `e` takes the machine to `m`. -/
def Observed.observe (o : Observed) (m : Machine) : Event → Observed
  | .write b f => { o with machine := m, pending := if m.isUp then o.pending ++ [⟨b, f⟩] else [] }
  | .endOp _ =>
    if o.machine.committing then
      { machine := m, pending := [], commits := o.commits ++ [(o.pending, m.isUp)] }
    else { o with machine := m }
  | .crash => { o with machine := m, pending := [] }
  | .read _ => { o with machine := m, pending := if m.isUp then o.pending else [] }
  | .boot _ | .beginOp => { o with machine := m }

/-- One step of the observed machine. -/
def Observed.step (A : LogArea) (o : Observed) (e : Event) : Option Observed :=
  (o.machine.step A e).map fun m => o.observe m e

/-- A machine that was never started, with the disk `d`. -/
def Observed.fresh (d : Nat → Words) : Observed where
  machine := .down d
  pending := []
  commits := []

/-- `kept` is a choice among the committed transactions: all that returned, and any of the
interrupted ones. -/
inductive Kept : List (Transaction × Bool) → List Transaction → Prop
  | nil : Kept [] []
  | returned {cs ts} (t : Transaction) : Kept cs ts → Kept (cs ++ [(t, true)]) (ts ++ [t])
  | survived {cs ts} (t : Transaction) : Kept cs ts → Kept (cs ++ [(t, false)]) (ts ++ [t])
  | lost {cs ts} (t : Transaction) : Kept cs ts → Kept (cs ++ [(t, false)]) ts

/-! ## The invariant -/

section

variable {A : LogArea} {R R' mem : Nat → Words}

theorem Recoverable.congr {d : Nat → Words} (h : Recoverable A d R)
    (hR : ∀ b, A.Home b → R b = R' b) : Recoverable A d R' :=
  { h with replay := fun b hb => (h.replay b hb).trans (hR b hb) }

variable {s : Store}

section

variable (h : Settled A s R mem)

include h

theorem Settled.congr (hR : ∀ b, A.Home b → R b = R' b) :
    Settled A s R' mem :=
  { h with disk := fun b hb => (h.disk b hb).trans (hR b hb) }

omit h in
theorem after_of_ends {m : Code PUnit} {Q : PUnit → Store → Prop} {C : Stop → Store → Prop}
    (h : Ends m s Q C) :
    (∃ s', Machine.after m s = .up s' ∧ Q ⟨⟩ s') ∨
      ∃ e s', Machine.after m s = .down s'.disk ∧ C e s' := by
  unfold Ends at h
  unfold Machine.after
  revert h
  rcases exec m s with ⟨e | u, s'⟩ <;> intro h
  · exact .inr ⟨e, s', rfl, h⟩
  · exact .inl ⟨s', rfl, h⟩

/-- The machine with the content `R` and the writes `pending` on top of it: off, the disk is worth
`R`; up, the disk holds `R` and the cache has the writes. -/
def Machine.Carries (A : LogArea) (R : Nat → Words) (pending : Transaction) : Machine → Prop
  | .down d => pending = [] ∧ Recoverable A d R
  | .up s => ∃ mem, Settled A s R mem ∧ ∀ b, A.Home b → mem b = pending.apply R b

theorem carries_of_settled (hlh : s.lh = []) :
    (Machine.up s).Carries A R [] :=
  ⟨mem, h, fun _ hb => h.mem_eq hb (by simp [hlh])⟩

theorem Settled.setOutstanding (n : Int) :
    Settled A (s.setOutstanding n) R mem :=
  { h with coherent := { h.coherent with } }

theorem Settled.setBudget (n : Nat) : Settled A (s.setBudget n) R mem :=
  { h with coherent := { h.coherent with } }

end

theorem apply_append (t : Transaction) (w : Write) (d : Nat → Words) :
    Transaction.apply (t ++ [w]) d = put (t.apply d) w.block (w.change (t.apply d w.block)) := by
  simp [Transaction.apply, List.foldl_append]

theorem contentAfter_append (d : Nat → Words) (ts : List Transaction) (t : Transaction) :
    contentAfter d (ts ++ [t]) = t.apply (contentAfter d ts) := by
  simp [contentAfter, List.foldl_append]

/-- **Starting the machine** keeps what the disk is worth. -/
theorem carries_boot {d : Nat → Words} (h : Recoverable A d R) (budget : Nat) :
    (Machine.after (recoverFromLog A) (.cold d budget)).Carries A R [] := by
  obtain ⟨s, hs, hlh, mem, hset⟩ | ⟨e, s, hs, hrec, -⟩ := after_of_ends (recover_spec h budget)
  · rw [hs]
    exact carries_of_settled hset hlh
  · rw [hs]
    exact ⟨rfl, hrec⟩

/-- **A commit** moves the pending writes into the content, or the machine stops with the old or
the new content. -/
theorem carries_commit {pending : Transaction} {m : Code PUnit}
    (hmem : ∀ b, A.Home b → mem b = pending.apply R b)
    (hm : Ends m s (fun _ s' => s'.lh = [] ∧ ∃ mem', Settled A s' mem mem') fun _ s' =>
      Recoverable A s'.disk R ∨ Recoverable A s'.disk mem) :
    ((Machine.after m s).isUp = true ∧ (Machine.after m s).Carries A (pending.apply R) []) ∨
      ((Machine.after m s).isUp = false ∧ ((Machine.after m s).Carries A R [] ∨
        (Machine.after m s).Carries A (pending.apply R) [])) := by
  obtain ⟨s', hs, hlh, mem', hset⟩ | ⟨e, s', hs, hrec⟩ := after_of_ends hm
  · rw [hs]
    exact .inl ⟨rfl, carries_of_settled (hset.congr hmem) hlh⟩
  · rw [hs]
    exact .inr ⟨rfl, hrec.imp (fun h => ⟨rfl, h⟩) fun h => ⟨rfl, h.congr hmem⟩⟩

/-- What holds in every observed state. -/
def Observed.Inv (A : LogArea) (d0 : Nat → Words) (o : Observed) : Prop :=
  ∃ kept, Kept o.commits kept ∧ o.machine.Carries A (contentAfter d0 kept) o.pending

theorem step_inv {d0 : Nat → Words} {o o' : Observed} {e : Event} (hinv : o.Inv A d0)
    (h : o.step A e = some o') : o'.Inv A d0 := by
  obtain ⟨kept, hkept, hcar⟩ := hinv
  obtain ⟨m, hm, rfl⟩ := Option.map_eq_some_iff.1 h
  obtain ⟨machine, pending, commits⟩ := o
  cases machine with
  | down d =>
    obtain ⟨rfl, hrec⟩ := hcar
    cases e with
    | boot budget =>
      cases hm
      exact ⟨kept, hkept, carries_boot hrec budget⟩
    | _ => simp [Machine.step] at hm
  | up s =>
    obtain ⟨mem, hset, hmem⟩ := hcar
    cases e with
    | boot budget => simp [Machine.step] at hm
    | beginOp =>
      simp only [Machine.step, Option.ite_none_right_eq_some, Option.some.injEq] at hm
      obtain ⟨-, rfl⟩ := hm
      exact ⟨kept, hkept, mem, hset.setOutstanding _, hmem⟩
    | write b f =>
      simp only [Machine.step, Option.ite_none_right_eq_some, Option.some.injEq] at hm
      obtain ⟨hb, rfl⟩ := hm
      refine ⟨kept, hkept, ?_⟩
      obtain ⟨s', hs, hset'⟩ | ⟨_, s', hs, hdisk⟩ := after_of_ends (update_spec hset hb f)
      · simp only [Observed.observe, hs, Machine.isUp, if_true]
        refine ⟨_, hset', fun c hc => ?_⟩
        rw [apply_append]
        by_cases hcb : c = b
        · subst hcb
          simp [hmem c hc]
        · simpa [put_of_ne hcb] using hmem c hc
      · simp only [Observed.observe, hs, Machine.isUp, Bool.false_eq_true, if_false]
        exact ⟨rfl, hdisk ▸ hset.recoverable⟩
    | read b =>
      cases hm
      refine ⟨kept, hkept, ?_⟩
      obtain ⟨s', hs, hset'⟩ | ⟨_, s', hs, hdisk⟩ := after_of_ends (read_spec hset b)
      · simp only [Observed.observe, hs, Machine.isUp, if_true]
        exact ⟨mem, hset', hmem⟩
      · simp only [Observed.observe, hs, Machine.isUp, Bool.false_eq_true, if_false]
        exact ⟨rfl, hdisk ▸ hset.recoverable⟩
    | crash =>
      cases hm
      exact ⟨kept, hkept, rfl, hset.recoverable⟩
    | endOp budget =>
      cases hm
      have hset' := (hset.setBudget budget).setOutstanding (s.outstanding - 1)
      by_cases hlast : s.outstanding = 1
      · -- the last system call commits
        have hends : Ends (endOp A) (s.setBudget budget)
            (fun _ s' => s'.lh = [] ∧ ∃ mem', Settled A s' mem mem') fun _ s' =>
            Recoverable A s'.disk (contentAfter d0 kept) ∨ Recoverable A s'.disk mem := by
          rw [endOp, ends_bind, ends_get, ends_bind, ends_modify, ends_onlyIf]
          exact ⟨fun _ => commit_spec hset', fun hno => absurd hlast (by
            simp only [Store.setBudget_outstanding] at hno
            omega)⟩
        simp only [Observed.observe, Machine.committing, hlast, decide_true, if_true]
        obtain ⟨hup, hcar⟩ | ⟨hdown, hcar⟩ :=
          carries_commit hmem hends
        · refine ⟨kept ++ [pending], ?_, ?_⟩
          · simpa [hup] using Kept.returned pending hkept
          · rwa [contentAfter_append]
        · obtain hold | hnew := hcar
          · exact ⟨kept, by simpa [hdown] using Kept.lost pending hkept, hold⟩
          · refine ⟨kept ++ [pending], ?_, ?_⟩
            · simpa [hdown] using Kept.survived pending hkept
            · rwa [contentAfter_append]
      · have hends : Ends (endOp A) (s.setBudget budget)
            (fun _ s' => Settled A s' (contentAfter d0 kept) mem) fun _ _ => False := by
          rw [endOp, ends_bind, ends_get, ends_bind, ends_modify, ends_onlyIf]
          exact ⟨fun hyes => absurd hlast (by
            simp only [Store.setBudget_outstanding] at hyes
            omega), fun _ => hset'⟩
        simp only [Observed.observe, Machine.committing, hlast, decide_false,
          Bool.false_eq_true, if_false]
        obtain ⟨s', hs, hset''⟩ | ⟨_, _, -, hfalse⟩ := after_of_ends hends
        · exact ⟨kept, hkept, by rw [hs]; exact ⟨mem, hset'', hmem⟩⟩
        · exact hfalse.elim

end

/-! ## The results -/

theorem recoverable_fresh {A : LogArea} {d : Nat → Words} (h : headBlocks (d A.start) = []) :
    Recoverable A d d := by
  refine .of_empty ?_ h fun _ _ => rfl
  have hlen := congrArg List.length h
  simp only [headBlocks, List.length_map, List.length_range, List.length_nil] at hlen
  simp only [LOGSIZE]
  omega

theorem run_inv {A : LogArea} {d0 : Nat → Words} (hclean : headBlocks (d0 A.start) = [])
    {o : Observed} (h : Reachable (Observed.step A) (.fresh d0) o) : o.Inv A d0 := by
  have hfresh : (Observed.fresh d0).Inv A d0 := ⟨[], .nil, rfl, recoverable_fresh hclean⟩
  exact h.invariant (Observed.Inv A d0) hfresh fun _ _ _ hinv _ hstep => step_inv hinv hstep

/-- **Crash atomicity of the redo log.** On a disk that starts with an empty log: whenever the
machine is up, in particular when `recover_from_log` has just completed, each home block on the
disk has the content after a choice among the committed transactions that has every one whose
`commit` returned, and each interrupted one as a whole or not at all. -/
theorem crash_atomicity {A : LogArea} {d0 : Nat → Words} (hclean : headBlocks (d0 A.start) = [])
    {o : Observed} (h : Reachable (Observed.step A) (.fresh d0) o) {s : Store}
    (hup : o.machine = .up s) :
    ∃ kept, Kept o.commits kept ∧ ∀ b, A.Home b → s.disk b = contentAfter d0 kept b := by
  obtain ⟨kept, hkept, hcar⟩ := run_inv hclean h
  rw [hup] at hcar
  obtain ⟨mem, hset, -⟩ := hcar
  exact ⟨kept, hkept, hset.disk⟩

/-- The machine is up after one transaction, whose `end_op` was cut off. -/
def upAfterOne (p : Store → Bool) (o : Observed) : Bool :=
  match o.machine, o.commits with
  | .up s, [(_, false)] => p s
  | _, _ => false

/-- The power fails between the header write and the first write of a home block; after the next
reboot the transaction is there. -/
theorem crash_atomicity_header :
    ∃ (A : LogArea) (o : Observed) (s : Store),
      Reachable (Observed.step A) (.fresh fun _ _ => 0) o ∧ o.machine = .up s ∧
      s.disk 40 0 = 7 ∧ (∃ t, o.commits = [(t, false)]) ∧
      ∃ kept, Kept o.commits kept ∧
        ∀ b, A.Home b → s.disk b = contentAfter (fun _ _ => 0) kept b := by
  let A : LogArea := { start := 2, size := 30, pos := by decide, fits := by decide }
  obtain ⟨o, hrun, ho⟩ := exists_run_of_runs (Observed.step A) (fun _ _ => True)
    (.fresh fun _ _ => 0)
    [.boot 1, .beginOp, .write 40 fun _ _ => 7, .endOp 2, .boot 0, .boot 2]
    (upAfterOne fun s => s.disk 40 0 == 7) (by decide +kernel)
  unfold upAfterOne at ho
  split at ho
  · rename_i s t hm hc
    exact ⟨A, o, s, hrun, hm, by simpa using ho, ⟨t, hc⟩,
      crash_atomicity (by decide +kernel) hrun hm⟩
  · simp at ho

/-- **Recovery completes** after every crash, if the power lasts for its block writes. -/
theorem recovery_completes {A : LogArea} {d0 d : Nat → Words}
    (hclean : headBlocks (d0 A.start) = []) {o : Observed}
    (h : Reachable (Observed.step A) (.fresh d0) o) (hdown : o.machine = .down d) {budget : Nat}
    (hbudget : LOGSIZE + 1 ≤ budget) : ∃ s, o.machine.step A (.boot budget) = some (.up s) := by
  obtain ⟨kept, -, hcar⟩ := run_inv hclean h
  rw [hdown] at hcar ⊢
  obtain ⟨s, hs, -⟩ | ⟨e, s, -, -, -, hlt⟩ := after_of_ends (recover_spec hcar.2 budget)
  · exact ⟨s, by simp [Machine.step, hs]⟩
  · omega

/-- The machine is off. -/
def Machine.off : Machine → Bool
  | .down _ => true
  | .up _ => false

/-- The power fails in a commit, and again in the recovery after it. -/
theorem recovery_completes_twice : ∃ (A : LogArea) (o : Observed),
    Reachable (Observed.step A) (.fresh fun _ _ => 0) o ∧ o.machine.off ∧
      ∃ s, o.machine.step A (.boot (LOGSIZE + 1)) = some (.up s) := by
  let A : LogArea := { start := 2, size := 30, pos := by decide, fits := by decide }
  obtain ⟨o, hrun, ho⟩ := exists_run_of_runs (Observed.step A) (fun _ _ => True)
      (.fresh fun _ _ => 0)
    [.boot 1, .beginOp, .write 40 fun _ _ => 7, .endOp 2, .boot 0] (fun o => o.machine.off)
      (by decide +kernel)
  refine ⟨A, o, hrun, ho, ?_⟩
  cases hm : o.machine with
  | down d => exact hm ▸ recovery_completes (by decide +kernel) hrun hm le_rfl
  | up s => simp [hm, Machine.off] at ho

end Xv6.Storage
