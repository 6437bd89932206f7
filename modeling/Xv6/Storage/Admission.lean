import Mathlib.Algebra.BigOperators.Ring.Finset
import Xv6.Storage.Group

/-! # Log admission

`begin_op` reserves `MAXOPBLOCKS` blocks for every operation out of `LOGSIZE`. The log that `mkfs`
makes has `LOGSIZE` blocks with its header, and `log_write` checks for room before it looks whether
the block is in the header already, so that only `LOGSIZE - 2` blocks can be relied on.

* **`admission_sound`** — if `begin_op` lets operations in within that bound, operations of
  `MAXOPBLOCKS` blocks each never reach the panic "too big a transaction";
* **`admission_unsound`** — three operations that `begin_op` lets in reach it. -/

namespace Xv6.Storage

open Foundation Function

/-- The block of a `log_write` in progress. -/
def LogPoint.writing : LogPoint → Option Nat
  | .checkOutstanding b | .append b => some b
  | _ => none

theorem LogPoint.inOp_of_writing {t : LogPoint} {b : Nat} (h : t.writing = some b) :
    t.inOp = true := by
  cases t <;> first | rfl | cases h

namespace OpLog

variable {P : Type*} [DecidableEq P]

/-- The blocks that an operation has logged since the header was cleared. -/
def blocks (s : OpLog P) (o : P × Nat) : Finset Nat :=
  ((s.current.writes.filter (·.1 = o)).map (·.2)).toFinset

/-- **The clients' rule**: an operation logs `MAXOPBLOCKS` different blocks at most. -/
def Bounded (s : OpLog P) : P × LogAct → Prop
  | (p, .logWrite b) => (insert b (s.blocks (p, s.ops p))).card ≤ MAXOPBLOCKS
  | _ => True

/-- **The condition on `begin_op`**: the reservation leaves out the header block and one more. -/
def Reserved (s : OpLog P) : P × LogAct → Prop
  | (p, .run) => s.point p = .waiting →
      s.lh.length + (s.outstanding + 1) * MAXOPBLOCKS ≤ LOGSIZE - 2
  | _ => True

instance (s : OpLog P) : (e : P × LogAct) → Decidable (s.Bounded e)
  | (_, .logWrite _) => inferInstanceAs (Decidable (_ ≤ _))
  | (_, .beginOp) | (_, .endOp) | (_, .run) => isTrue trivial

instance (s : OpLog P) : (e : P × LogAct) → Decidable (s.Reserved e)
  | (_, .run) => inferInstanceAs (Decidable (_ → _))
  | (_, .beginOp) | (_, .endOp) | (_, .logWrite _) => isTrue trivial

/-- The blocks that the operation of `p` may still add to the header. -/
def reserve (s : OpLog P) (p : P) : Nat :=
  if (s.point p).inOp then MAXOPBLOCKS - (s.blocks (p, s.ops p)).card else 0

/-- The block of a `log_write` in progress is within the rule. -/
def Within (s : OpLog P) (p : P) : Prop :=
  ∀ b, (s.point p).writing = some b → (insert b (s.blocks (p, s.ops p))).card ≤ MAXOPBLOCKS

variable {s s' : OpLog P} {p : P}

theorem reserve_le (s : OpLog P) (p : P) : s.reserve p ≤ (s.point p).weight * MAXOPBLOCKS := by
  unfold reserve LogPoint.weight
  split <;> omega

theorem mem_blocks {o : P × Nat} {b : Nat} : b ∈ s.blocks o ↔ (o, b) ∈ s.current.writes := by
  simp only [blocks, List.mem_toFinset, List.mem_map, List.mem_filter, decide_eq_true_eq]
  constructor
  · rintro ⟨⟨o', b'⟩, ⟨hw, rfl⟩, rfl⟩
    exact hw
  · exact fun hw => ⟨(o, b), ⟨hw, rfl⟩, rfl⟩

theorem blocks_log (s : OpLog P) (p : P) (b : Nat) (o : P × Nat) :
    (s.log p b).blocks o = if o = (p, s.ops p) then insert b (s.blocks o) else s.blocks o := by
  ext b'
  rw [mem_blocks]
  simp only [log, List.mem_append, List.mem_singleton, Prod.mk.injEq]
  split
  · rename_i ho
    rw [Finset.mem_insert, mem_blocks]
    tauto
  · rename_i ho
    rw [mem_blocks]
    tauto

variable [Fintype P]

/-- **The invariant**: the header and what may still be added to it fit. -/
structure Room (s : OpLog P) : Prop where
  ok : s.Ok
  fits : s.lh.length + ∑ p, s.reserve p ≤ LOGSIZE - 2
  within : ∀ p, s.Within p
  calm : s.stopped ≠ some .tooBig

section

variable (h : s.Room)

include h

theorem Room.of_le (hok : s'.Ok) (hlh : s'.lh.length ≤ s.lh.length)
    (hreserve : ∀ q, s'.reserve q ≤ s.reserve q) (hwithin : ∀ q, s'.Within q)
    (hcalm : s'.stopped ≠ some .tooBig) : s'.Room := by
  refine ⟨hok, ?_, hwithin, hcalm⟩
  have hsum : ∑ q, s'.reserve q ≤ ∑ q, s.reserve q := Finset.sum_le_sum fun q _ => hreserve q
  have hfits := h.fits
  omega

/-- **A process moves** and begins no operation; what is logged stays. -/
theorem Room.move {t : LogPoint} (hok : s'.Ok) (hpoint : s'.point = (s.move p t).point)
    (hlh : s'.lh.length ≤ s.lh.length) (hops : s'.ops = s.ops)
    (hwrites : s'.current.writes = s.current.writes)
    (ht : t.inOp = true → (s.point p).inOp = true)
    (hwithin : ∀ b, t.writing = some b → (insert b (s.blocks (p, s.ops p))).card ≤ MAXOPBLOCKS)
    (hcalm : s'.stopped ≠ some .tooBig) : s'.Room := by
  have hblocks : ∀ o, s'.blocks o = s.blocks o := fun o => by rw [blocks, blocks, hwrites]
  refine h.of_le hok hlh (fun q => ?_) (fun q => ?_) hcalm
  · unfold reserve
    rw [hpoint, hops, hblocks, move_point]
    by_cases hqp : q = p
    · subst hqp
      rw [update_self]
      split
      · rename_i hin
        rw [if_pos (ht hin)]
      · exact Nat.zero_le _
    · rw [update_of_ne hqp]
  · unfold Within
    rw [hpoint, hops, hblocks, move_point]
    by_cases hqp : q = p
    · subst hqp
      rwa [update_self]
    · rw [update_of_ne hqp]
      exact h.within q

/-- **`begin_op`** lets an operation in within the bound. -/
theorem Room.letIn (hok : ((s.letIn p).move p .inside).Ok)
    (hreserved : s.lh.length + (s.outstanding + 1) * MAXOPBLOCKS ≤ LOGSIZE - 2) :
    ((s.letIn p).move p .inside).Room := by
  refine ⟨hok, ?_, fun q => ?_, h.calm⟩
  · -- every operation reserves `MAXOPBLOCKS` at most, and `outstanding` counts them
    have hsum : ∑ q, ((s.letIn p).move p .inside).reserve q
        ≤ (∑ q, (((s.letIn p).move p .inside).point q).weight) * MAXOPBLOCKS := by
      rw [Finset.sum_mul]
      exact Finset.sum_le_sum fun q _ => reserve_le _ q
    have hcount := hok.count
    rw [move_outstanding, letIn_outstanding] at hcount
    rw [hcount] at hreserved
    simp only [move_lh, letIn_lh, LOGSIZE] at hsum hreserved ⊢
    omega
  · by_cases hqp : q = p
    · subst hqp
      intro b hb
      simp [LogPoint.writing] at hb
    · have hq := h.within q
      unfold Within at hq ⊢
      simpa [hqp, blocks] using hq

/-- **`log_write`** takes a new block out of the reserve of its operation. -/
theorem Room.log {b : Nat} (hp : s.point p = .append b)
    (hok : ((s.log p b).move p .inside).Ok) : ((s.log p b).move p .inside).Room := by
  have hblocks : ∀ o, ((s.log p b).move p .inside).blocks o = (s.log p b).blocks o := fun _ => rfl
  have hother : ∀ q ≠ p, ((s.log p b).move p .inside).blocks (q, s.ops q) = s.blocks
      (q, s.ops q) := by
    intro q hq
    rw [hblocks, blocks_log, if_neg fun heq => hq (Prod.mk.inj heq).1]
  have hcard := h.within p b (by rw [hp]; rfl)
  refine ⟨hok, ?_, fun q => ?_, h.calm⟩
  · have hsum := sum_change (f := s.reserve) (g := ((s.log p b).move p .inside).reserve) (a := p)
      fun q hq => by
        unfold reserve
        rw [move_ops, log_ops, hother q hq, move_point, update_of_ne hq]
        rfl
    have hold : s.reserve p = MAXOPBLOCKS - (s.blocks (p, s.ops p)).card := by
      rw [reserve, hp]
      rfl
    have hnew : ((s.log p b).move p .inside).reserve p
        = MAXOPBLOCKS - (insert b (s.blocks (p, s.ops p))).card := by
      rw [reserve, move_ops, log_ops, hblocks, blocks_log, if_pos rfl, move_point,
        update_self]
      rfl
    have hfits := h.fits
    rw [move_lh, log_lh, absorb]
    split
    · have hle := Finset.card_le_card (Finset.subset_insert b (s.blocks (p, s.ops p)))
      omega
    · rename_i hb
      -- a block that is not in the header is new to its operation
      have hb' : b ∉ s.blocks (p, s.ops p) := fun hmem =>
        hb ((h.ok.same b).2 ⟨_, mem_blocks.1 hmem⟩)
      rw [Finset.card_insert_of_notMem hb'] at hcard hnew
      rw [List.length_append, List.length_singleton]
      omega
  · by_cases hqp : q = p
    · subst hqp
      intro b hb
      simp [LogPoint.writing] at hb
    · unfold Within
      rw [move_ops, log_ops, hother q hqp, move_point, update_of_ne hqp]
      exact h.within q

theorem Room.run (hok : s'.Ok) (hreserved : s.Reserved (p, .run))
    (hrun : s.run p = some s') : s'.Room := by
  unfold OpLog.run at hrun
  split at hrun
  case h_1 | h_2 => cases hrun
  case h_3 hp =>
    split at hrun
    · cases hrun
    · split at hrun
      · cases hrun
      · cases hrun
        exact h.letIn hok (hreserved hp)
  case h_4 b hp =>
    have hpos := h.ok.outstanding_pos (p := p) (by rw [hp]; rfl)
    rw [if_neg (by omega)] at hrun
    cases hrun
    refine h.move (t := .append b) hok rfl le_rfl rfl rfl (fun _ => by rw [hp]; rfl) ?_ h.calm
    intro b' hb
    exact h.within p b' (by rwa [hp])
  case h_5 b hp =>
    split at hrun
    · cases hrun
      exact h.of_le hok le_rfl (fun _ => le_rfl) h.within nofun
    · cases hrun
      exact h.log hp hok
  case h_10 hp =>
    cases hrun
    -- nobody has a reserve during a commit
    have hc := (h.ok.single p (by rw [hp]; rfl)).1
    have hnot := fun q => hok.not_inOp hc q
    refine h.of_le hok (Nat.zero_le _) (fun q => ?_) (fun q => ?_) h.calm
    · rw [reserve, hnot q]
      exact Nat.zero_le _
    · intro b hb
      exact absurd (LogPoint.inOp_of_writing hb) (by rw [hnot q]; nofun)
  -- the other steps of `commit` leave the header and the operations alone
  case h_6 | h_7 | h_9 =>
    split at hrun
    all_goals
      cases hrun
      exact h.move (p := p) hok rfl le_rfl rfl rfl nofun (fun b hb => by cases hb) h.calm
  case h_8 | h_11 | h_12 =>
    cases hrun
    exact h.move (p := p) hok rfl le_rfl rfl rfl nofun (fun b hb => by cases hb) h.calm

/-- **Every step** within the rules keeps the invariant, with the log that `mkfs` makes. -/
theorem Room.step {e : P × LogAct} (hbounded : s.Bounded e) (hreserved : s.Reserved e)
    (hstep : s.step LOGSIZE e = some s') : s'.Room := by
  have hok := h.ok.step hstep
  obtain ⟨p, a⟩ := e
  simp only [OpLog.step, Option.ite_none_right_eq_some] at hstep
  obtain ⟨-, hnext⟩ := hstep
  cases a with
  | run => exact h.run hok hreserved hnext
  | beginOp =>
    simp only [OpLog.next, Option.ite_none_right_eq_some, Option.some.injEq] at hnext
    obtain ⟨hp, rfl⟩ := hnext
    exact h.move (t := .waiting) hok rfl le_rfl rfl rfl (by simp [LogPoint.inOp])
      (fun b hb => by cases hb) h.calm
  | logWrite b =>
    simp only [OpLog.next, Option.ite_none_right_eq_some] at hnext
    obtain ⟨hp, hnext⟩ := hnext
    have hfits := h.fits
    rw [if_neg (by simp only [LOGSIZE] at hfits ⊢; omega)] at hnext
    cases hnext
    refine h.move (t := .checkOutstanding b) hok rfl le_rfl rfl rfl (fun _ => by rw [hp]; rfl) ?_
      h.calm
    intro b' hb
    cases hb
    exact hbounded
  | endOp =>
    simp only [OpLog.next, Option.ite_none_right_eq_some] at hnext
    obtain ⟨hp, hnext⟩ := hnext
    split at hnext
    · cases hnext
      exact h.of_le hok le_rfl (fun _ => le_rfl) h.within (by simp)
    · split at hnext
      · cases hnext
        exact h.move (t := .commit) hok rfl le_rfl rfl rfl (by simp [LogPoint.inOp])
          (fun b hb => by cases hb) h.calm
      · cases hnext
        exact h.move (t := .out) hok rfl le_rfl rfl rfl (by simp [LogPoint.inOp])
          (fun b hb => by cases hb) h.calm

end

/-- **Admission is sound** if `begin_op` keeps to the room there is. -/
theorem admission_sound (h : Run (step LOGSIZE) (fun s e => s.Bounded e ∧ s.Reserved e) boot s) :
    s.stopped ≠ some .tooBig := by
  have hboot : (boot : OpLog P).Room := by
    refine ⟨boot_ok, ?_, fun p b hb => ?_, nofun⟩
    · simp [boot, reserve, LogPoint.inOp]
    · cases hb
  exact (h.invariant Room hboot fun _ _ _ hroom hg hstep => hroom.step hg.1 hg.2 hstep).calm

/-- An operation lets itself in. -/
def beginning (p : Fin 3) : List (Fin 3 × LogAct) := [(p, .beginOp), (p, .run)]

/-- It logs `n` blocks from `b` on. -/
def logging (p : Fin 3) (b n : Nat) : List (Fin 3 × LogAct) :=
  (List.range n).flatMap fun i => [(p, .logWrite (b + i)), (p, .run), (p, .run)]

/-- One operation of `MAXOPBLOCKS` blocks is in, and another one begins after eight of them. -/
theorem admission_sound_two : ∃ s : OpLog (Fin 3),
    Run (step LOGSIZE) (fun s e => s.Bounded e ∧ s.Reserved e) boot s ∧ s.lh.length = 18 ∧
      s.stopped ≠ some .tooBig := by
  obtain ⟨s, hrun, hs⟩ := exists_run_of_runs (step LOGSIZE) (fun s e => s.Bounded e ∧ s.Reserved e)
    boot (beginning 0 ++ logging 0 100 8 ++ beginning 1 ++ logging 1 200 10)
    (fun s => s.lh.length = 18) (by decide +kernel)
  exact ⟨s, hrun, by simpa using hs, admission_sound hrun⟩

/-- **Three operations of `MAXOPBLOCKS` blocks are too big**: all are let in at once, and the last
block of the third one finds no room. -/
theorem admission_unsound : ∃ s : OpLog (Fin 3), Run (step LOGSIZE) Bounded boot s ∧
    s.stopped = some .tooBig := by
  obtain ⟨s, hrun, hs⟩ := exists_run_of_runs (step LOGSIZE) Bounded boot
    (beginning 0 ++ beginning 1 ++ beginning 2 ++ logging 0 100 10 ++ logging 1 200 10 ++
      logging 2 300 9 ++ [(2, .logWrite 309)])
    (fun s => s.stopped = some .tooBig) (by decide +kernel)
  exact ⟨s, hrun, by simpa using hs⟩

end OpLog

end Xv6.Storage
