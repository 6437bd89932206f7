import Mathlib.Algebra.Order.BigOperators.Group.Finset
import Xv6.Foundation.References
import Xv6.Foundation.Runs
import Xv6.Storage.Log

/-! # Group commit

`begin_op`, `log_write` and `end_op` of `log.c`, called by any number of processes. Every section
under `log.lock` is a step, and so are the two unlocked checks of `log_write` and every access of
`commit`, which runs without the lock, to the header in memory.

An operation is what a process does between a `begin_op` and the matching `end_op`; the `k`th one of
`p` is `(p, k)`. A state records which operation logged which block since the header was last
cleared, and the same for every commit so far.

* **`group_commit`** — no commit while an operation is outstanding, no block twice in the header,
  and every commit consists of whole operations that have reached their `end_op`. -/

namespace Xv6.Storage

open Foundation Function

/-- Where a process is in the code of the log. -/
inductive LogPoint
  | out
  /-- In the loop of `begin_op`. -/
  | waiting
  /-- Between `begin_op` and `end_op`. -/
  | inside
  /-- `log_write` of a block has checked `log.lh.n`, and checks `log.outstanding` next. -/
  | checkOutstanding (b : Nat)
  /-- `log_write` takes the lock and stores the block number next. -/
  | append (b : Nat)
  /-- `commit` looks at `log.lh.n` next. -/
  | commit
  /-- The loop of `write_log`. -/
  | writeLog (tail : Nat)
  /-- `commit` writes the header next. -/
  | writeHead
  /-- The loop of `install_trans`. -/
  | installTrans (tail : Nat)
  /-- `commit` clears `log.lh.n` next. -/
  | clear
  /-- `commit` erases the header on the disk next. -/
  | erase
  /-- `end_op` clears `log.committing` next. -/
  | finish
  deriving DecidableEq, Repr

namespace LogPoint

/-- The process is in an operation. -/
def inOp : LogPoint → Bool
  | .inside | .checkOutstanding _ | .append _ => true
  | _ => false

/-- The process commits. -/
def inCommit : LogPoint → Bool
  | .commit | .writeLog _ | .writeHead | .installTrans _ | .clear | .erase | .finish => true
  | _ => false

end LogPoint

/-- Why the log stops the kernel. -/
inductive LogStop
  /-- Panic "log.committing". -/
  | committing
  /-- Panic "log_write outside of trans". -/
  | outsideTrans
  /-- Panic "too big a transaction". -/
  | tooBig
  /-- A store beyond the end of `log.lh.block`. -/
  | overrun
  deriving DecidableEq, Repr

/-- A commit: the blocks copied to the log, those in the header written to the disk, those
installed, and the `log_write` calls since the commit before it, each by its operation. -/
structure Commit (P : Type*) where
  log : List Nat := []
  header : List Nat := []
  home : List Nat := []
  writes : List ((P × Nat) × Nat) := []

/-- The variables of `struct log`, where the processes are, and what they have done. -/
structure OpLog (P : Type*) where
  outstanding : Int
  committing : Bool
  lh : List Nat
  point : P → LogPoint
  stopped : Option LogStop
  /-- How many operations the process has begun. -/
  ops : P → Nat
  /-- The commit that is being filled. -/
  current : Commit P
  commits : List (Commit P)

/-- What a process does: call `begin_op`, `log_write` of a block or `end_op`, or go on with the code
it is in. -/
inductive LogAct
  | beginOp
  | logWrite (b : Nat)
  | endOp
  | run
  deriving DecidableEq, Repr

namespace OpLog

variable {P : Type*} [DecidableEq P]

/-- The log after `initlog`. -/
def boot : OpLog P where
  outstanding := 0
  committing := false
  lh := []
  point := fun _ => .out
  stopped := none
  ops := fun _ => 0
  current := {}
  commits := []

/-- The process goes to a point. -/
@[simps] def move (s : OpLog P) (p : P) (pt : LogPoint) : OpLog P :=
  { s with point := Function.update s.point p pt }

/-- The kernel stops. -/
@[simps] def stop (s : OpLog P) (e : LogStop) : OpLog P := { s with stopped := some e }

/-- `begin_op` lets an operation in. -/
@[simps] def letIn (s : OpLog P) (p : P) : OpLog P :=
  { s with outstanding := s.outstanding + 1, ops := Function.update s.ops p (s.ops p + 1) }

/-- `log_write` stores a block number. -/
@[simps] def log (s : OpLog P) (p : P) (b : Nat) : OpLog P :=
  { s with
    lh := absorb s.lh b
    current := { s.current with writes := s.current.writes ++ [((p, s.ops p), b)] } }

/-- `end_op` lets an operation out. -/
@[simps] def leave (s : OpLog P) : OpLog P := { s with outstanding := s.outstanding - 1 }

/-- Set `log.committing`. -/
@[simps] def setCommitting (s : OpLog P) (b : Bool) : OpLog P := { s with committing := b }

/-- The commit gets on. -/
@[simps] def setCurrent (s : OpLog P) (c : Commit P) : OpLog P := { s with current := c }

/-- `log.lh.n = 0` at the end of `commit`. -/
@[simps] def clear (s : OpLog P) : OpLog P :=
  { s with lh := [], current := {}, commits := s.commits ++ [s.current] }

/-- The next step of the code that `p` is in; `none` while it sleeps. -/
def run (s : OpLog P) (p : P) : Option (OpLog P) :=
  match s.point p with
  | .out | .inside => none
  | .waiting =>
    if s.committing then none
    else if LOGSIZE < s.lh.length + (s.outstanding + 1) * MAXOPBLOCKS then none
    else some ((s.letIn p).move p .inside)
  | .checkOutstanding b =>
    if s.outstanding < 1 then some (s.stop .outsideTrans) else some (s.move p (.append b))
  | .append b =>
    if LOGSIZE < (absorb s.lh b).length then some (s.stop .overrun)
    else some ((s.log p b).move p .inside)
  | .commit =>
    if 0 < s.lh.length then some ((s.setCurrent { s.current with log := [] }).move p (.writeLog 0))
    else some (s.move p .finish)
  | .writeLog tail =>
    match s.lh[tail]? with
    | some b =>
      some ((s.setCurrent { s.current with log := s.current.log ++ [b] }).move p
        (.writeLog (tail + 1)))
    | none => some (s.move p .writeHead)
  | .writeHead =>
    some ((s.setCurrent { s.current with header := s.lh, home := [] }).move p (.installTrans 0))
  | .installTrans tail =>
    match s.lh[tail]? with
    | some b =>
      some ((s.setCurrent { s.current with home := s.current.home ++ [b] }).move p
        (.installTrans (tail + 1)))
    | none => some (s.move p .clear)
  | .clear => some (s.clear.move p .erase)
  | .erase => some (s.move p .finish)
  | .finish => some ((s.setCommitting false).move p .out)

/-- What `p` does, with the log of `size` blocks that the superblock names. -/
def next (size : Nat) (s : OpLog P) (p : P) : LogAct → Option (OpLog P)
  | .beginOp => if s.point p = .out then some (s.move p .waiting) else none
  | .logWrite b =>
    if s.point p = .inside then
      if LOGSIZE ≤ s.lh.length ∨ (size : Int) - 1 ≤ s.lh.length then some (s.stop .tooBig)
      else some (s.move p (.checkOutstanding b))
    else none
  | .endOp =>
    if s.point p = .inside then
      if s.committing then some (s.leave.stop .committing)
      else if s.outstanding - 1 = 0 then some ((s.leave.setCommitting true).move p .commit)
      else some (s.leave.move p .out)
    else none
  | .run => s.run p

/-- **One step** of a process; none once the kernel has stopped. -/
def step (size : Nat) (s : OpLog P) (e : P × LogAct) : Option (OpLog P) :=
  if s.stopped = none then s.next size e.1 e.2 else none

/-- The operation has reached its `end_op`. -/
def Ended (s : OpLog P) (o : P × Nat) : Prop :=
  o.2 < s.ops o.1 ∨ o.2 = s.ops o.1 ∧ (s.point o.1).inOp = false

end OpLog

/-! ## The invariant -/

section

variable {P : Type*}

/-- No operation has a part in both commits. -/
def Commit.Apart (c c' : Commit P) : Prop := ∀ w ∈ c.writes, ∀ w' ∈ c'.writes, w.1 ≠ w'.1

/-- The commit wrote the same blocks to the log, to the header and to their places, and they are
those that the operations logged. -/
def Commit.Whole (c : Commit P) : Prop :=
  c.header = c.log ∧ c.home = c.log ∧ ∀ b, b ∈ c.log ↔ ∃ o, (o, b) ∈ c.writes

/-- How far a commit has got, by where its process is. -/
def LogPoint.Progress : LogPoint → (lh : List Nat) → Commit P → Prop
  | .writeLog tail, lh, c => c.log = lh.take tail
  | .writeHead, lh, c => c.log = lh
  | .installTrans tail, lh, c => c.log = lh ∧ c.header = lh ∧ c.home = lh.take tail
  | .clear, lh, c => c.log = lh ∧ c.header = lh ∧ c.home = lh
  | _, _, _ => True

theorem LogPoint.progress_of_not_inCommit {pt : LogPoint} (h : pt.inCommit = false) (lh : List Nat)
    (c : Commit P) : pt.Progress lh c := by
  cases pt <;> trivial

/-- How many operations a process at this point is in. -/
def LogPoint.weight (pt : LogPoint) : Nat := if pt.inOp then 1 else 0

end

namespace OpLog

variable {P : Type*} [Fintype P]

/-- **The invariant.** -/
structure Ok (s : OpLog P) : Prop where
  count : s.outstanding = (∑ p, (s.point p).weight : Nat)
  calm : s.stopped ≠ some .committing ∧ s.stopped ≠ some .outsideTrans
  exclusive : s.committing = true → s.outstanding = 0
  single : ∀ p, (s.point p).inCommit = true →
    s.committing = true ∧ ∀ q, (s.point q).inCommit = true → q = p
  nodup : s.lh.Nodup
  /-- The header has the blocks logged since it was cleared. -/
  same : ∀ b, b ∈ s.lh ↔ ∃ o, (o, b) ∈ s.current.writes
  begun : ∀ w ∈ s.current.writes, w.1.2 ≤ s.ops w.1.1
  ended : ∀ c ∈ s.commits, ∀ w ∈ c.writes, s.Ended w.1
  apart : s.commits.Pairwise Commit.Apart
  apart_current : ∀ c ∈ s.commits, c.Apart s.current
  whole : ∀ c ∈ s.commits, c.Whole
  progress : ∀ p, (s.point p).Progress s.lh s.current

section

variable {s : OpLog P} {p : P}

theorem boot_ok : (boot : OpLog P).Ok := by
  constructor
  · simp [boot, LogPoint.weight, LogPoint.inOp]
  · exact ⟨nofun, nofun⟩
  · exact nofun
  · exact fun p hp => Bool.noConfusion hp
  · exact List.nodup_nil
  · simp [boot]
  · simp [boot]
  · simp [boot]
  · simp [boot]
  · simp [boot]
  · simp [boot]
  · exact fun _ => trivial

theorem Ok.outstanding_pos (h : s.Ok) (hp : (s.point p).inOp = true) : 0 < s.outstanding := by
  have hle : (s.point p).weight ≤ ∑ q, (s.point q).weight :=
    Finset.single_le_sum (f := fun q => (s.point q).weight) (fun _ _ => Nat.zero_le _)
      (Finset.mem_univ p)
  rw [LogPoint.weight, if_pos hp] at hle
  rw [h.count]
  omega

theorem Ok.not_inOp (h : s.Ok) (hc : s.committing = true) (p : P) : (s.point p).inOp = false := by
  rw [← Bool.not_eq_true]
  intro hp
  have hpos := h.outstanding_pos hp
  have hzero := h.exclusive hc
  omega

theorem Ok.not_inCommit (h : s.Ok) (hp : (s.point p).inOp = true) (q : P) :
    (s.point q).inCommit = false := by
  rw [← Bool.not_eq_true]
  intro hq
  have hnot := h.not_inOp (h.single q hq).1 p
  simp [hp] at hnot

theorem Ok.stop (h : s.Ok) {e : LogStop} (he : e ≠ .committing ∧ e ≠ .outsideTrans) :
    (s.stop e).Ok :=
  { h with calm := by simpa using he }

theorem Ok.ended_current (h : s.Ok) (hc : s.committing = true) :
    ∀ w ∈ s.current.writes, s.Ended w.1 := by
  intro w hw
  rcases (h.begun w hw).lt_or_eq with hlt | heq
  · exact Or.inl hlt
  · exact Or.inr ⟨heq, h.not_inOp hc w.1.1⟩

end

end OpLog

namespace OpLog

variable {P : Type*} [DecidableEq P] {s s' : OpLog P} {p : P} {t : LogPoint}

theorem Ended.move {o : P × Nat} (h : s.Ended o) (hpt : t.inOp = true → (s.point p).inOp = true) :
    (s.move p t).Ended o := by
  rcases h with hlt | ⟨heq, hout⟩
  · exact Or.inl hlt
  · refine Or.inr ⟨heq, ?_⟩
    rw [move_point]
    by_cases ho : o.1 = p
    · rw [ho, update_self, ← Bool.not_eq_true]
      intro hin
      have := hpt hin
      rw [← ho, hout] at this
      cases this
    · rwa [update_of_ne ho]

theorem inCommit_move {q : P} (hpt : t.inCommit = true → (s.point p).inCommit = true)
    (hq : ((s.move p t).point q).inCommit = true) : (s.point q).inCommit = true := by
  by_cases hqp : q = p
  · subst hqp
    rw [move_point, update_self] at hq
    exact hpt hq
  · rwa [move_point, update_of_ne hqp] at hq

variable [Fintype P]

theorem sum_weight_move (s : OpLog P) (p : P) (t : LogPoint) :
    (∑ q, ((s.move p t).point q).weight) + (s.point p).weight
      = (∑ q, (s.point q).weight) + t.weight := by
  have hsum := sum_change (f := fun q => (s.point q).weight)
    (g := fun q => ((s.move p t).point q).weight) (a := p)
    fun q hq => by rw [move_point, update_of_ne hq]
  simpa using hsum

theorem sum_weight_move_eq (hOp : t.inOp = (s.point p).inOp) :
    ∑ q, ((s.move p t).point q).weight = ∑ q, (s.point q).weight := by
  have hsum := sum_weight_move s p t
  have hw : t.weight = (s.point p).weight := by rw [LogPoint.weight, LogPoint.weight, hOp]
  omega

section

variable (h : s.Ok)

include h

/-- **A process moves** inside or outside of an operation, and nothing else changes. -/
theorem Ok.move (hOp : t.inOp = (s.point p).inOp)
    (hCommit : t.inCommit = true → (s.point p).inCommit = true)
    (hprog : t.Progress s.lh s.current) : (s.move p t).Ok := by
  refine { h with count := ?_, single := fun q hq => ?_, ended := fun c hc w hw => ?_
                  progress := fun q => ?_ }
  · rw [sum_weight_move_eq hOp]
    exact h.count
  · obtain ⟨hc, hone⟩ := h.single q (inCommit_move hCommit hq)
    exact ⟨hc, fun q' hq' => hone q' (inCommit_move hCommit hq')⟩
  · exact (h.ended c hc w hw).move fun hin => hOp ▸ hin
  · by_cases hqp : q = p
    · subst hqp
      simpa using hprog
    · simpa [hqp] using h.progress q

/-- **The commit gets on**: what was logged does not change. -/
theorem Ok.advance {c : Commit P} (hp : (s.point p).inCommit = true)
    (hOp : t.inOp = false) (hw : c.writes = s.current.writes) (hprog : t.Progress s.lh c) :
    ((s.setCurrent c).move p t).Ok := by
  have hpOp : (s.point p).inOp = false := h.not_inOp (h.single p hp).1 p
  refine ⟨?_, h.calm, h.exclusive, fun q hq => ?_, h.nodup, ?_, ?_, fun c' hc' w hw' => ?_,
    h.apart, ?_, h.whole, fun q => ?_⟩
  · rw [sum_weight_move_eq (s := s.setCurrent c) (hOp.trans hpOp.symm)]
    exact h.count
  · obtain ⟨hc, hone⟩ := h.single q (inCommit_move (s := s) (t := t) (fun _ => hp) hq)
    exact ⟨hc, fun q' hq' => hone q' (inCommit_move (s := s) (t := t) (fun _ => hp) hq')⟩
  · intro b
    rw [move_current, setCurrent_current, hw]
    exact h.same b
  · rw [move_current, setCurrent_current, hw]
    exact h.begun
  · exact (h.ended c' hc' w hw').move fun hin => by simp [hOp] at hin
  · intro c' hc' w hwc w' hw'
    rw [move_current, setCurrent_current, hw] at hw'
    exact h.apart_current c' hc' w hwc w' hw'
  · by_cases hqp : q = p
    · subst hqp
      simpa using hprog
    -- the others do not commit, so `c` is nothing to them
    · have hnot : (s.point q).inCommit = false := by
        rw [← Bool.not_eq_true]
        exact fun hq => hqp ((h.single p hp).2 q hq)
      simpa [hqp] using LogPoint.progress_of_not_inCommit hnot s.lh c

theorem Ok.letIn (hp : s.point p = .waiting) (hc : s.committing = false) :
    ((s.letIn p).move p .inside).Ok := by
  have hended : ∀ o, s.Ended o → ((s.letIn p).move p .inside).Ended o := by
    rintro ⟨q, k⟩ hend
    by_cases hqp : q = p
    · subst hqp
      refine Or.inl ?_
      have : k ≤ s.ops q := by
        rcases hend with hlt | ⟨heq, -⟩
        · exact Nat.le_of_lt hlt
        · exact Nat.le_of_eq heq
      simpa using Nat.lt_succ_of_le this
    · simpa [Ended, hqp] using hend
  refine { h with count := ?_, exclusive := ?_, single := fun q hq => ?_, begun := fun w hw => ?_
                  ended := fun c hc w hw => ?_, progress := fun q => ?_ }
  · have hsum := sum_weight_move (s.letIn p) p .inside
    have hcount := h.count
    simp only [letIn_point] at hsum
    rw [hp, show LogPoint.waiting.weight = 0 from rfl,
      show LogPoint.inside.weight = 1 from rfl] at hsum
    rw [move_outstanding, letIn_outstanding]
    omega
  · exact fun hc' => absurd hc' (by simp [hc])
  · have hq := inCommit_move (s := s) (p := p) (t := .inside) nofun hq
    exact absurd (h.single q hq).1 (by simp [hc])
  · have hle := h.begun w hw
    by_cases hqp : w.1.1 = p
    · simp only [move_ops, letIn_ops, hqp, update_self] at hle ⊢
      omega
    · simpa [hqp] using hle
  · exact hended _ (h.ended c hc w hw)
  · by_cases hqp : q = p
    · subst hqp
      simp [LogPoint.Progress]
    · simpa [hqp] using h.progress q

theorem Ok.log {b : Nat} (hp : s.point p = .append b) : ((s.log p b).move p .inside).Ok := by
  have hOp : (s.point p).inOp = true := by rw [hp]; rfl
  have hcommit := h.not_inCommit hOp
  have hcurrent : ((s.log p b).move p .inside).current.writes
      = s.current.writes ++ [((p, s.ops p), b)] := rfl
  -- the operation has not ended, so it has no part in a commit
  have hopen : ¬ s.Ended (p, s.ops p) := by
    rintro (hlt | ⟨-, hout⟩)
    · exact lt_irrefl _ hlt
    · simp [hOp] at hout
  refine ⟨?_, h.calm, h.exclusive, fun q hq => ?_, ?_, fun b' => ?_, ?_, fun c hc w hw => ?_,
    h.apart, fun c hc w hw w' hw' => ?_, h.whole, fun q => ?_⟩
  · rw [sum_weight_move_eq (s := s.log p b) (t := .inside) hOp.symm]
    exact h.count
  · have hq := inCommit_move (s := s) (p := p) (t := .inside) nofun hq
    simp [hcommit q] at hq
  · rw [move_lh, log_lh, absorb]
    split
    · exact h.nodup
    · rename_i hnew
      rw [List.nodup_append]
      refine ⟨h.nodup, List.nodup_singleton b, fun x hx y hy => ?_⟩
      obtain rfl := List.mem_singleton.1 hy
      exact fun heq => hnew (heq ▸ hx)
  · rw [move_lh, log_lh, mem_absorb, hcurrent, h.same b']
    simp only [List.mem_append, List.mem_singleton, Prod.mk.injEq, exists_or]
    constructor
    · rintro (hold | rfl)
      · exact Or.inl hold
      · exact Or.inr ⟨_, rfl, rfl⟩
    · rintro (hold | ⟨_, -, rfl⟩)
      · exact Or.inl hold
      · exact Or.inr rfl
  · rw [hcurrent]
    intro w hw
    rcases List.mem_append.1 hw with hold | hnew
    · exact h.begun w hold
    · rw [List.mem_singleton.1 hnew]
      exact le_rfl
  · exact (h.ended c hc w hw).move fun _ => hOp
  · rw [hcurrent] at hw'
    rcases List.mem_append.1 hw' with hold | hnew
    · exact h.apart_current c hc w hw w' hold
    · rw [List.mem_singleton.1 hnew]
      rintro heq
      exact hopen (by simpa [heq] using h.ended c hc w hw)
  · by_cases hqp : q = p
    · subst hqp
      simp [LogPoint.Progress]
    · have hq := LogPoint.progress_of_not_inCommit (hcommit q) (s.log p b).lh (s.log p b).current
      simpa [hqp] using hq

/-- **`end_op`** lets an operation out, and begins a commit if it was the last one. -/
theorem Ok.leave (hp : s.point p = .inside)
    (hpt : t.inOp = false) (hprog : t.Progress s.lh s.current) {b : Bool}
    (hcommit : t.inCommit = true → b = true) (hlast : b = true → s.outstanding - 1 = 0) :
    ((s.leave.setCommitting b).move p t).Ok := by
  have hOp : (s.point p).inOp = true := by rw [hp]; rfl
  have hothers : ∀ q, ((s.move p t).point q).inCommit = true → q = p := by
    intro q hq
    by_contra hqp
    rw [move_point, update_of_ne hqp, h.not_inCommit hOp] at hq
    cases hq
  refine { h with count := ?_, exclusive := hlast, single := fun q hq => ?_
                  ended := fun c hc w hw => ?_, progress := fun q => ?_ }
  · have hsum := sum_weight_move (s.leave.setCommitting b) p t
    have hcount := h.count
    have hw : t.weight = 0 := by rw [LogPoint.weight, hpt]; rfl
    simp only [setCommitting_point, leave_point] at hsum
    rw [hp, hw, show LogPoint.inside.weight = 1 from rfl] at hsum
    rw [move_outstanding, setCommitting_outstanding, leave_outstanding]
    omega
  · obtain rfl := hothers q hq
    refine ⟨hcommit ?_, fun q' hq' => hothers q' hq'⟩
    simpa using hq
  · exact (h.ended c hc w hw).move fun hin => by simp [hpt] at hin
  · by_cases hqp : q = p
    · subst hqp
      simpa using hprog
    · simpa [hqp] using h.progress q

theorem Ok.clear (hp : s.point p = .clear) : (s.clear.move p .erase).Ok := by
  have hin : (s.point p).inCommit = true := by rw [hp]; rfl
  obtain ⟨hc, hone⟩ := h.single p hin
  have hprog := h.progress p
  rw [hp] at hprog
  obtain ⟨hlog, hheader, hhome⟩ := hprog
  refine ⟨?_, h.calm, h.exclusive, fun q hq => ?_, List.nodup_nil, ?_, ?_, fun c hc' w hw => ?_, ?_,
    fun c _ w _ w' hw' => ?_, fun c hc' => ?_, fun q => ?_⟩
  · rw [sum_weight_move_eq (s := s.clear) (t := .erase) (h.not_inOp hc p).symm]
    exact h.count
  · have hq := inCommit_move (s := s) (t := .erase) (fun _ => hin) hq
    obtain rfl := hone q hq
    exact ⟨hc, fun q' hq' => hone q' (inCommit_move (s := s) (t := .erase) (fun _ => hin) hq')⟩
  · simp
  · simp
  · refine Ended.move ?_ nofun
    rcases List.mem_append.1 hc' with hold | hnew
    · exact h.ended c hold w hw
    · rw [List.mem_singleton.1 hnew] at hw
      exact h.ended_current hc w hw
  · rw [move_commits, clear_commits, List.pairwise_append]
    refine ⟨h.apart, List.pairwise_singleton _ _, fun a ha c hc' => ?_⟩
    rw [List.mem_singleton.1 hc']
    exact h.apart_current a ha
  · simp at hw'
  · rcases List.mem_append.1 hc' with hold | hnew
    · exact h.whole c hold
    · rw [List.mem_singleton.1 hnew]
      refine ⟨by rw [hheader, hlog], by rw [hhome, hlog], fun b => ?_⟩
      rw [hlog]
      exact h.same b
  · by_cases hqp : q = p
    · subst hqp
      simp [LogPoint.Progress]
    · have hnot : (s.point q).inCommit = false := by
        rw [← Bool.not_eq_true]
        exact fun hq => hqp (hone q hq)
      simpa [hqp] using LogPoint.progress_of_not_inCommit hnot s.clear.lh s.clear.current

theorem Ok.finish (hp : s.point p = .finish) :
    ((s.setCommitting false).move p .out).Ok := by
  have hin : (s.point p).inCommit = true := by rw [hp]; rfl
  have hmove := h.move (p := p) (t := .out) (by rw [hp]; rfl) nofun trivial
  refine { hmove with exclusive := nofun, single := fun q hq => ?_ }
  have hq' := inCommit_move (s := s) (p := p) (t := .out) nofun hq
  obtain rfl := (h.single p hin).2 q hq'
  simp [LogPoint.inCommit] at hq

end

theorem take_of_getElem?_eq_some {lh : List Nat} {tail b : Nat} (h : lh[tail]? = some b) :
    lh.take tail ++ [b] = lh.take (tail + 1) := by
  rw [List.take_add_one, h]
  rfl

theorem take_of_getElem?_eq_none {lh : List Nat} {tail : Nat} (h : lh[tail]? = none) :
    lh.take tail = lh :=
  List.take_of_length_le (List.getElem?_eq_none_iff.1 h)

theorem Ok.run (h : s.Ok) (hrun : s.run p = some s') : s'.Ok := by
  have hprog := h.progress p
  unfold OpLog.run at hrun
  split at hrun
  case h_1 | h_2 => cases hrun
  case h_3 hp =>
    split at hrun
    · cases hrun
    · split at hrun
      · cases hrun
      · cases hrun
        exact h.letIn hp (by simpa using ‹¬ s.committing = true›)
  case h_4 b hp =>
    have hOp : (s.point p).inOp = true := by rw [hp]; rfl
    have hpos := h.outstanding_pos hOp
    rw [if_neg (by omega)] at hrun
    cases hrun
    exact h.move (by rw [hp]; rfl) nofun trivial
  case h_5 b hp =>
    split at hrun
    · cases hrun
      exact h.stop ⟨nofun, nofun⟩
    · cases hrun
      exact h.log hp
  case h_6 hp =>
    have hin : (s.point p).inCommit = true := by rw [hp]; rfl
    split at hrun
    · cases hrun
      exact h.advance hin rfl rfl rfl
    · cases hrun
      exact h.move (by rw [hp]; rfl) (fun _ => hin) trivial
  case h_7 tail hp =>
    have hin : (s.point p).inCommit = true := by rw [hp]; rfl
    rw [hp] at hprog
    split at hrun
    · rename_i b hb
      cases hrun
      refine h.advance hin rfl rfl ?_
      show s.current.log ++ [b] = _
      rw [show s.current.log = _ from hprog, take_of_getElem?_eq_some hb]
    · rename_i hnone
      cases hrun
      refine h.move (by rw [hp]; rfl) (fun _ => hin) ?_
      exact (show s.current.log = _ from hprog).trans (take_of_getElem?_eq_none hnone)
  case h_8 hp =>
    have hin : (s.point p).inCommit = true := by rw [hp]; rfl
    rw [hp] at hprog
    cases hrun
    exact h.advance hin rfl rfl ⟨hprog, rfl, rfl⟩
  case h_9 tail hp =>
    have hin : (s.point p).inCommit = true := by rw [hp]; rfl
    rw [hp] at hprog
    obtain ⟨hlog, hheader, hhome⟩ := hprog
    split at hrun
    · rename_i b hb
      cases hrun
      refine h.advance hin rfl rfl ⟨hlog, hheader, ?_⟩
      show s.current.home ++ [b] = _
      rw [hhome, take_of_getElem?_eq_some hb]
    · rename_i hnone
      cases hrun
      refine h.move (by rw [hp]; rfl) (fun _ => hin) ⟨hlog, hheader, ?_⟩
      rw [hhome, take_of_getElem?_eq_none hnone]
  case h_10 hp =>
    cases hrun
    exact h.clear hp
  case h_11 hp =>
    cases hrun
    exact h.move (by rw [hp]; rfl) (fun _ => by rw [hp]; rfl) trivial
  case h_12 hp =>
    cases hrun
    exact h.finish hp

theorem Ok.step {size : Nat} {e : P × LogAct} (h : s.Ok) (hstep : s.step size e = some s') :
    s'.Ok := by
  obtain ⟨p, a⟩ := e
  simp only [OpLog.step, Option.ite_none_right_eq_some] at hstep
  obtain ⟨-, hnext⟩ := hstep
  cases a with
  | run => exact h.run hnext
  | beginOp =>
    simp only [OpLog.next, Option.ite_none_right_eq_some, Option.some.injEq] at hnext
    obtain ⟨hp, rfl⟩ := hnext
    exact h.move (by rw [hp]; rfl) nofun trivial
  | logWrite b =>
    simp only [OpLog.next, Option.ite_none_right_eq_some] at hnext
    obtain ⟨hp, hnext⟩ := hnext
    split at hnext
    · cases hnext
      exact h.stop ⟨nofun, nofun⟩
    · cases hnext
      exact h.move (by rw [hp]; rfl) nofun trivial
  | endOp =>
    simp only [OpLog.next, Option.ite_none_right_eq_some] at hnext
    obtain ⟨hp, hnext⟩ := hnext
    -- the process is in an operation, so nobody commits
    have hc : s.committing = false := by
      rw [← Bool.not_eq_true]
      intro hc
      have hnot := h.not_inOp hc p
      simp [hp, LogPoint.inOp] at hnot
    rw [hc, if_neg nofun] at hnext
    split at hnext
    · rename_i hlast
      cases hnext
      exact h.leave (t := .commit) hp rfl trivial (fun _ => rfl) fun _ => hlast
    · cases hnext
      have hleave := h.leave (t := .out) (b := s.committing) hp rfl trivial nofun
        fun hc' => absurd hc' (by simp [hc])
      exact hleave

/-- **What group commit promises.** -/
structure GroupCommit (s : OpLog P) : Prop where
  /-- A commit runs only when no operation is outstanding. -/
  exclusive : s.committing = true → s.outstanding = 0
  /-- The panics "log.committing" and "log_write outside of trans" are not reached. -/
  calm : s.stopped ≠ some .committing ∧ s.stopped ≠ some .outsideTrans
  /-- No block is in the header twice. -/
  nodup : s.lh.Nodup
  /-- The `log_write` calls of an operation are all in one commit, or all since the last one. -/
  together : (s.commits ++ [s.current]).Pairwise Commit.Apart
  /-- A commit has parts of operations only that have reached their `end_op`, … -/
  ended : ∀ c ∈ s.commits, ∀ w ∈ c.writes, s.Ended w.1
  /-- … from its beginning on, … -/
  ended_current : s.committing = true → ∀ w ∈ s.current.writes, s.Ended w.1
  /-- … and writes exactly the blocks that they logged. -/
  whole : ∀ c ∈ s.commits, c.Whole

/-- **Group commit**: in every state that any processes bring about, with any size of the log. -/
theorem group_commit {size : Nat} (h : Reachable (step size) boot s) : s.GroupCommit := by
  have hok : s.Ok := h.invariant Ok boot_ok fun _ _ _ hok _ hstep => hok.step hstep
  refine ⟨hok.exclusive, hok.calm, hok.nodup, ?_, hok.ended, hok.ended_current, hok.whole⟩
  rw [List.pairwise_append]
  refine ⟨hok.apart, List.pairwise_singleton _ _, fun c hc c' hc' => ?_⟩
  rw [List.mem_singleton.1 hc']
  exact hok.apart_current c hc

/-- Two operations of two processes overlap; one block is logged by both, and the second `end_op`
commits. -/
theorem group_commit_overlap : ∃ s : OpLog (Fin 2), Reachable (step LOGSIZE) boot s ∧
    (∃ c, s.commits = [c] ∧ c.log = [40, 50] ∧
      c.writes = [((0, 1), 40), ((1, 1), 50), ((1, 1), 40)]) ∧ s.GroupCommit := by
  obtain ⟨s, hrun, hs⟩ := exists_run_of_runs (step LOGSIZE) (fun _ _ => True) (boot : OpLog (Fin 2))
    ([(0, .beginOp), (0, .run), (1, .beginOp), (1, .run), (0, .logWrite 40), (0, .run), (0, .run),
      (1, .logWrite 50), (1, .run), (0, .endOp), (1, .run), (1, .logWrite 40), (1, .run), (1, .run),
      (1, .endOp)] ++ List.replicate 11 (1, .run))
    (fun s => s.commits.map (fun c => (c.log, c.writes))
      = [([40, 50], [((0, 1), 40), ((1, 1), 50), ((1, 1), 40)])]) (by decide +kernel)
  simp only [decide_eq_true_eq] at hs
  refine ⟨s, hrun, ?_, group_commit hrun⟩
  obtain ⟨c, hc⟩ := List.length_eq_one_iff.1 (by simpa using congrArg List.length hs)
  rw [hc] at hs
  simp only [List.map_cons, List.map_nil, List.cons.injEq, Prod.mk.injEq, and_true] at hs
  exact ⟨c, hc, hs⟩

end OpLog

end Xv6.Storage
