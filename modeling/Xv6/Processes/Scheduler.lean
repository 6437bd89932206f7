import Xv6.Foundation.Turns
import Xv6.Processes.Lottery

/-! # One iteration of the scheduler

The `switch` of `scheduler`: which process an iteration chooses under each policy, the time it gets,
and where `c->RRLastProc` is left. That pointer is an offset into the table, `none` for the null
pointer of boot; the code increments it before it looks at it, so that it may be one behind the last
slot. What is read there, behind the table, is the argument `beyond`.

* **`priorityScan_min`** — a scan of policies 2 and 3 that starts inside the table finds a process
  of the least priority number;
* **`priorityScan_first`** — of several such processes it finds the first one on its way;
* **`robinScan_eq_some`** — policies 0 and 1 find the first `RUNNABLE` process, without going
  around. -/

namespace Xv6

open Foundation

/-- `PRIORITY_Q[priority-1]`, `none` for a read outside of the array. -/
def priorityQ (priority : Nat) : Option Nat :=
  if priority = 0 then none else [1, 2, 4, 8, 16, 32][priority - 1]?

/-- Where an iteration starts: `c->RRLastProc` is put into the table and moved by one slot, unless
it is at the beginning. -/
def startIndex (last : Option Nat) : Nat :=
  match last with
  | none => 0
  | some i => if i < NPROC then (if 0 < i then i + 1 else i) else 0

/-- `p++`, back to the beginning at the end of the table. -/
def nextIndex (i : Nat) : Nat := if NPROC ≤ i + 1 then 0 else i + 1

/-- What an iteration decides: the entry of the table, `c->ctr`, and `c->RRLastProc` as it is
left. -/
structure Choice where
  chosen : Option Nat
  timeQ : Nat
  last : Nat

namespace Kernel

/-- `ptable.proc[i]`. -/
def entry (k : Kernel) (beyond : Proc) (i : Nat) : Proc :=
  if h : i < NPROC then k.proc ⟨i, h⟩ else beyond

/-- The loop of policies 0 and 1: the first `RUNNABLE` process from `start` on. -/
def robinScan (k : Kernel) (start : Nat) : Option Nat :=
  ((List.finRange NPROC).find? fun p => start ≤ p.val ∧ (k.proc p).state = .runnable).map Fin.val

/-- The body of the loop of policies 2 and 3, for the entry `x` at `i`: `minPP` and `minP`. -/
def priorityStep (x : Proc) (i : Nat) (best : Nat × Option Nat) : Nat × Option Nat :=
  if x.state = .runnable then
    if best.1 ≠ 0 then (if x.priority < best.1 then (x.priority, some i) else best)
    else (x.priority, some i)
  else best

/-- The loop of policies 2 and 3, with the rounds that are left. -/
def priorityLoop (k : Kernel) (beyond : Proc) : Nat → Nat → Nat × Option Nat → Nat × Option Nat
  | 0, _, best => best
  | n + 1, i, best =>
    let best := priorityStep (k.entry beyond i) i best
    -- nothing is more urgent than 1
    if (k.entry beyond i).state = .runnable ∧ best.1 = 1 then best
    else k.priorityLoop beyond n (nextIndex i) best

/-- The entry that policies 2 and 3 choose. -/
def priorityScan (k : Kernel) (beyond : Proc) (start : Nat) : Option Nat :=
  (k.priorityLoop beyond NPROC start (0, none)).2

/-- The entries of the table that the loop of policies 2 and 3 reads, in order. -/
def priorityReads (k : Kernel) (beyond : Proc) : Nat → Nat → Nat × Option Nat → List Nat
  | 0, _, _ => []
  | n + 1, i, best =>
    let best := priorityStep (k.entry beyond i) i best
    if (k.entry beyond i).state = .runnable ∧ best.1 = 1 then [i]
    else i :: k.priorityReads beyond n (nextIndex i) best

/-- **One iteration** under the policy `alg`; `rand` is what `fastrand` returns. `none` is a read
outside of `PRIORITY_Q`. -/
def choose (k : Kernel) (beyond : Proc) (alg : Nat) (last : Option Nat) (rand : Int) :
    Option Choice :=
  let start := startIndex last
  match alg with
  | 2 =>
    let i := k.priorityScan beyond start
    some ⟨i, 1, i.getD 0⟩
  | 3 =>
    match k.priorityScan beyond start with
    | none => some ⟨none, 1, 0⟩
    | some i => (priorityQ (k.entry beyond i).priority).map fun timeQ => ⟨some i, timeQ, i⟩
  | 4 => some ⟨(k.lotterySelect (k.lotteryWinner rand)).map Fin.val, 1, start⟩
  | 0 =>
    let i := k.robinScan start
    some ⟨i, 1, i.getD 0⟩
  | _ =>
    -- policy 1, and every number that is no policy
    let i := k.robinScan start
    some ⟨i, QUANTUM, i.getD 0⟩

/-! ## The scan by priority -/

/-- Every process in use has a priority from 1 to 6. -/
def Ranked (k : Kernel) : Prop :=
  ∀ p, (k.proc p).state ≠ .unused → 1 ≤ (k.proc p).priority ∧ (k.proc p).priority ≤ 6

section

variable {k : Kernel} {beyond : Proc} {best : Nat × Option Nat}

/-- The incumbent of the scan is a `RUNNABLE` process, or there is none. -/
def Incumbent (k : Kernel) (best : Nat × Option Nat) : Prop :=
  best = (0, none) ∨ ∃ p, best = ((k.proc p).priority, some p.val) ∧ (k.proc p).state = .runnable ∧
    best.1 ≠ 0

/-- At least as urgent as the number `n`. -/
def Beats (best : Nat × Option Nat) (n : Nat) : Prop := best.1 ≠ 0 ∧ best.1 ≤ n

theorem entry_val (k : Kernel) (beyond : Proc) (p : Slot) : k.entry beyond p.val = k.proc p :=
  dif_pos p.isLt

/-- One round keeps an incumbent that is as urgent as before, and as urgent as the entry it has
seen. -/
theorem Incumbent.step (hk : k.Ranked) (h : k.Incumbent best) (p : Slot) :
    k.Incumbent (priorityStep (k.proc p) p.val best) ∧
      (∀ n, Beats best n → Beats (priorityStep (k.proc p) p.val best) n) ∧
      ((k.proc p).state = .runnable → Beats (priorityStep (k.proc p) p.val best)
        (k.proc p).priority) := by
  unfold priorityStep
  by_cases hrun : (k.proc p).state = .runnable
  · have hpos : (k.proc p).priority ≠ 0 := by
      have := hk p (by simp [hrun])
      omega
    have hnew : k.Incumbent ((k.proc p).priority, some p.val) := .inr ⟨p, rfl, hrun, hpos⟩
    rw [if_pos hrun]
    by_cases hbest : best.1 = 0
    · rw [if_neg (not_not.2 hbest)]
      exact ⟨hnew, fun n hn => absurd hbest hn.1, fun _ => ⟨hpos, le_rfl⟩⟩
    rw [if_pos hbest]
    by_cases hlt : (k.proc p).priority < best.1
    · rw [if_pos hlt]
      exact ⟨hnew, fun n hn => ⟨hpos, hlt.le.trans hn.2⟩, fun _ => ⟨hpos, le_rfl⟩⟩
    · rw [if_neg hlt]
      exact ⟨h, fun _ hn => hn, fun _ => ⟨hbest, not_lt.1 hlt⟩⟩
  · rw [if_neg hrun]
    exact ⟨h, fun _ hn => hn, fun hrun' => absurd hrun' hrun⟩

variable {i start : Nat}

/-- **The loop** leaves an incumbent that is as urgent as every entry it has visited; where it stops
early, it is as urgent as every entry there is. -/
theorem priorityLoop_spec (beyond : Proc) (hk : k.Ranked) (n : Nat) (hi : i < NPROC)
    (h : k.Incumbent best) :
    k.Incumbent (k.priorityLoop beyond n i best) ∧
      (∀ m, Beats best m → Beats (k.priorityLoop beyond n i best) m) ∧
      ∀ j < n, ∀ p : Slot, p.val = nextIndex^[j] i → (k.proc p).state = .runnable →
        Beats (k.priorityLoop beyond n i best) (k.proc p).priority := by
  induction n generalizing i best with
  | zero => exact ⟨h, fun _ hm => hm, fun j hj => absurd hj (Nat.not_lt_zero j)⟩
  | succ n ih =>
    have hentry : k.entry beyond i = k.proc ⟨i, hi⟩ := entry_val k beyond ⟨i, hi⟩
    obtain ⟨hinc, hkeeps, hseen⟩ := h.step hk ⟨i, hi⟩
    rw [priorityLoop, hentry]
    dsimp only at hinc hkeeps hseen ⊢
    by_cases hone : (k.proc ⟨i, hi⟩).state = .runnable ∧
      (priorityStep (k.proc ⟨i, hi⟩) i best).1 = 1
    · rw [if_pos hone]
      refine ⟨hinc, hkeeps, fun j _ p _ hrun => ?_⟩
      have := hk p (by simp [hrun])
      exact ⟨by omega, by omega⟩
    · rw [if_neg hone]
      have hnext : nextIndex i < NPROC := by
        unfold nextIndex
        split
        · decide
        · omega
      obtain ⟨hinc', hkeeps', hseen'⟩ := ih hnext hinc
      refine ⟨hinc', fun m hm => hkeeps' m (hkeeps m hm), fun j hj p hp hrun => ?_⟩
      cases j with
      | zero =>
        obtain rfl : p = ⟨i, hi⟩ := Fin.ext hp
        exact hkeeps' _ (hseen hrun)
      | succ j => exact hseen' j (by omega) p hp hrun

theorem nextIndex_iterate (hi : i < NPROC) (j : Nat) : nextIndex^[j] i = (i + j) % NPROC := by
  induction j with
  | zero => exact (Nat.mod_eq_of_lt hi).symm
  | succ j ih =>
    rw [Function.iterate_succ_apply', ih, nextIndex]
    unfold NPROC at *
    split
    · omega
    · omega

/-- **The scan by priority** from inside the table: it finds nothing only if nothing is `RUNNABLE`,
and what it finds is `RUNNABLE` and of the least priority number. -/
theorem priorityScan_min (beyond : Proc) (hk : k.Ranked) (hstart : start < NPROC) :
    (k.priorityScan beyond start = none ∧ ∀ p, (k.proc p).state ≠ .runnable) ∨
      ∃ p : Slot, k.priorityScan beyond start = some p.val ∧ (k.proc p).state = .runnable ∧
        ∀ q, (k.proc q).state = .runnable → (k.proc p).priority ≤ (k.proc q).priority := by
  obtain ⟨hinc, -, hseen⟩ := priorityLoop_spec beyond hk NPROC hstart (.inl rfl)
  -- every slot is visited
  have hall : ∀ q, (k.proc q).state = .runnable →
      Beats (k.priorityLoop beyond NPROC start (0, none)) (k.proc q).priority := by
    intro q hrun
    refine hseen ((q.val + NPROC - start) % NPROC) (Nat.mod_lt _ (by decide)) q ?_ hrun
    have := q.isLt
    rw [nextIndex_iterate hstart]
    unfold NPROC at *
    omega
  unfold priorityScan
  rcases hinc with hnone | ⟨p, hsome, hrun, -⟩
  · refine .inl ⟨by rw [hnone], fun q hrun => ?_⟩
    have := (hall q hrun).1
    rw [hnone] at this
    exact this rfl
  · refine .inr ⟨p, by rw [hsome], hrun, fun q hq => ?_⟩
    have := (hall q hq).2
    rwa [hsome] at this

/-! ## The way of the scan -/

theorem priorityStep_cases (x : Proc) (i : Nat) (best : Nat × Option Nat) :
    priorityStep x i best = best ∧ (x.state = .runnable → x.priority = 0 ∨ Beats best x.priority) ∨
      x.state = .runnable ∧ priorityStep x i best = (x.priority, some i) ∧
        (best.1 ≠ 0 → x.priority < best.1) := by
  unfold priorityStep
  by_cases hrun : x.state = .runnable
  · rw [if_pos hrun]
    by_cases hbest : best.1 = 0
    · rw [if_neg (not_not.2 hbest)]
      exact .inr ⟨hrun, rfl, fun h => absurd hbest h⟩
    rw [if_pos hbest]
    by_cases hlt : x.priority < best.1
    · rw [if_pos hlt]
      exact .inr ⟨hrun, rfl, fun _ => hlt⟩
    · rw [if_neg hlt]
      exact .inl ⟨rfl, fun _ => .inr ⟨hbest, not_lt.1 hlt⟩⟩
  · rw [if_neg hrun]
    exact .inl ⟨rfl, fun h => absurd h hrun⟩

theorem nextIndex_lt (i : Nat) : nextIndex i < NPROC := by
  unfold nextIndex NPROC
  split <;> omega

/-- **The loop takes the first of several**: what it leaves is what it had at the start, or an entry
on its way that is more urgent than that and than every entry it has met before. -/
theorem priorityLoop_first (beyond : Proc) (hk : k.Ranked) (n : Nat) (hi : i < NPROC)
    (best : Nat × Option Nat) :
    k.priorityLoop beyond n i best = best ∨
      ∃ m < n, ∃ p : Slot, p.val = nextIndex^[m] i ∧
        k.priorityLoop beyond n i best = ((k.proc p).priority, some p.val) ∧
        (best.1 ≠ 0 → (k.proc p).priority < best.1) ∧
        ∀ j < m, ∀ q : Slot, q.val = nextIndex^[j] i → (k.proc q).state = .runnable →
          (k.proc p).priority < (k.proc q).priority := by
  induction n generalizing i best with
  | zero => exact .inl rfl
  | succ n ih =>
    have hentry : k.entry beyond i = k.proc ⟨i, hi⟩ := entry_val k beyond ⟨i, hi⟩
    have hpos : (k.proc ⟨i, hi⟩).state = .runnable → (k.proc ⟨i, hi⟩).priority ≠ 0 := by
      intro hrun
      have := hk ⟨i, hi⟩ (by simp [hrun])
      omega
    rw [priorityLoop, hentry]
    have hstep := priorityStep_cases (k.proc ⟨i, hi⟩) i best
    set best' := priorityStep (k.proc ⟨i, hi⟩) i best with hbest'
    -- the entry at `i` is the first one
    have hhere : best' = best ∨ ∃ m < n + 1, ∃ p : Slot, p.val = nextIndex^[m] i ∧
        best' = ((k.proc p).priority, some p.val) ∧ (best.1 ≠ 0 → (k.proc p).priority < best.1) ∧
        ∀ j < m, ∀ q : Slot, q.val = nextIndex^[j] i → (k.proc q).state = .runnable →
          (k.proc p).priority < (k.proc q).priority := by
      rcases hstep with ⟨heq, -⟩ | ⟨-, heq, hlt⟩
      · exact .inl heq
      · exact .inr ⟨0, by omega, ⟨i, hi⟩, rfl, heq, hlt, fun j hj => absurd hj j.not_lt_zero⟩
    split
    · exact hhere
    rcases ih (nextIndex_lt i) best' with hkept | ⟨m, hm, p, hp, hres, hlt, hbefore⟩
    · rw [hkept]
      exact hhere
    refine .inr ⟨m + 1, by omega, p, hp, hres, fun hb => ?_, fun j hj q hq hrun => ?_⟩
    · rcases hstep with ⟨heq, -⟩ | ⟨hrun, heq, hless⟩
      · rw [heq] at hlt
        exact hlt hb
      · rw [heq] at hlt
        exact (hlt (hpos hrun)).trans (hless hb)
    · cases j with
      | succ j => exact hbefore j (by omega) q hq hrun
      | zero =>
        obtain rfl : q = ⟨i, hi⟩ := Fin.ext hq
        rcases hstep with ⟨heq, hbeats⟩ | ⟨-, heq, -⟩
        · obtain ⟨hne, hle⟩ := (hbeats hrun).resolve_left (hpos hrun)
          rw [heq] at hlt
          exact (hlt hne).trans_le hle
        · rw [heq] at hlt
          exact hlt (hpos hrun)

theorem nextIndex_ahead (hstart : start < NPROC) (p : Slot) :
    nextIndex^[ahead NPROC start p] start = p := by
  have := p.isLt
  rw [nextIndex_iterate hstart]
  unfold ahead NPROC at *
  split <;> omega

/-- **The scan by priority is fair in one round**: from inside the table it finds the first of the
most urgent processes. -/
theorem priorityScan_first (beyond : Proc) (hk : k.Ranked) (hstart : start < NPROC) :
    (k.priorityScan beyond start = none ∧ ∀ p, (k.proc p).state ≠ .runnable) ∨
      ∃ p : Slot, k.priorityScan beyond start = some p.val ∧ (k.proc p).state = .runnable ∧
        ∀ q, (k.proc q).state = .runnable → (k.proc p).priority < (k.proc q).priority ∨
          (k.proc p).priority = (k.proc q).priority ∧
            ahead NPROC start p ≤ ahead NPROC start q := by
  rcases priorityScan_min beyond hk hstart with hnone | ⟨p, hp, hrun, hmin⟩
  · exact .inl hnone
  refine .inr ⟨p, hp, hrun, fun q hq => (hmin q hq).lt_or_eq.imp_right fun heq => ⟨heq, ?_⟩⟩
  unfold priorityScan at hp
  rcases priorityLoop_first beyond hk NPROC hstart (0, none) with
    hnone | ⟨m, hm, p', hp', hres, -, hbefore⟩
  · simp [hnone] at hp
  rw [hres] at hp
  obtain rfl : p' = p := Fin.ext (Option.some.inj hp)
  -- the round in which the entry was met is its distance from the start
  have hround : m = ahead NPROC start p' := by
    have := p'.isLt
    rw [nextIndex_iterate hstart] at hp'
    unfold ahead NPROC at *
    split <;> omega
  by_contra hlt
  have := hbefore (ahead NPROC start q) (by omega) q (nextIndex_ahead hstart q).symm hq
  omega

/-! ## What the scan reads -/

theorem priorityReads_lt (beyond : Proc) (n : Nat) (hi : i < NPROC) {j : Nat}
    (hj : j ∈ k.priorityReads beyond n i best) : j < NPROC := by
  induction n generalizing i best with
  | zero => exact absurd hj List.not_mem_nil
  | succ n ih =>
    rw [priorityReads] at hj
    split at hj
    · rw [List.mem_singleton] at hj
      exact hj ▸ hi
    · rcases List.mem_cons.1 hj with rfl | hj
      · exact hi
      · exact ih (nextIndex_lt i) hj

theorem start_mem_priorityReads (k : Kernel) (beyond : Proc) (n i : Nat) (best : Nat × Option Nat) :
    i ∈ k.priorityReads beyond (n + 1) i best := by
  rw [priorityReads]
  split
  · exact List.mem_singleton_self i
  · exact List.mem_cons_self

/-! ## The scan in turn -/

theorem robinScan_eq_some {p : Slot} :
    k.robinScan start = some p.val ↔ start ≤ p.val ∧ (k.proc p).state = .runnable ∧
      ∀ q < p, start ≤ q.val → (k.proc q).state ≠ .runnable := by
  have hval : k.robinScan start = some p.val ↔ (List.finRange NPROC).find?
      (fun p => start ≤ p.val ∧ (k.proc p).state = .runnable) = some p := by
    rw [robinScan, Option.map_eq_some_iff]
    constructor
    · rintro ⟨q, hq, hqp⟩
      rwa [← Fin.ext hqp]
    · exact fun h => ⟨p, h, rfl⟩
  rw [hval, List.find?_eq_some_iff_getElem]
  simp only [decide_eq_true_eq, List.length_finRange, List.getElem_finRange, Bool.not_eq_true',
    decide_eq_false_iff_not, not_and]
  constructor
  · rintro ⟨⟨hle, hrun⟩, i, hi, rfl, hbefore⟩
    exact ⟨hle, hrun, fun q hq hstart => hbefore q.val hq hstart⟩
  · rintro ⟨hle, hrun, hbefore⟩
    exact ⟨⟨hle, hrun⟩, p.val, p.isLt, rfl, fun j hj hstart => hbefore ⟨j, by omega⟩ hj hstart⟩

theorem robinScan_eq_none :
    k.robinScan start = none ↔ ∀ q : Slot, start ≤ q.val → (k.proc q).state ≠ .runnable := by
  simp [robinScan]

end

end Kernel

/-! ## One iteration -/

theorem startIndex_lt {last : Option Nat} (h : last ≠ some 63) : startIndex last < NPROC := by
  cases last with
  | none => decide
  | some i =>
    have hi : i ≠ 63 := fun heq => h (congrArg some heq)
    simp only [startIndex]
    unfold NPROC
    split
    · split
      · omega
      · omega
    · decide

theorem startIndex_last : startIndex (some 63) = NPROC := rfl

theorem startIndex_le (last : Option Nat) : startIndex last ≤ NPROC := by
  by_cases h : last = some 63
  · rw [h, startIndex_last]
  · exact (startIndex_lt h).le

theorem startIndex_some (p : Slot) :
    startIndex (some p.val) = if p.val = 0 then 0 else p.val + 1 := by
  rw [startIndex, if_pos p.isLt]
  by_cases hp : p.val = 0
  · rw [if_neg (by omega), if_pos hp, hp]
  · rw [if_pos (by omega), if_neg hp]

namespace Kernel

variable {k : Kernel} {beyond : Proc} {alg : Nat} {last : Option Nat} {rand : Int} {c : Choice}

theorem choose_priority (hpol : alg = 2 ∨ alg = 3) (hc : k.choose beyond alg last rand = some c) :
    c.chosen = k.priorityScan beyond (startIndex last) ∧ c.last = c.chosen.getD 0 := by
  rcases hpol with rfl | rfl
  · cases hc
    exact ⟨rfl, rfl⟩
  · simp only [choose] at hc
    split at hc
    · rename_i hscan
      cases hc
      exact ⟨hscan.symm, rfl⟩
    · rename_i i hscan
      obtain ⟨timeQ, -, rfl⟩ := Option.map_eq_some_iff.1 hc
      exact ⟨hscan.symm, rfl⟩

theorem exists_priorityQ {n : Nat} (h : 1 ≤ n ∧ n ≤ 6) : ∃ timeQ, priorityQ n = some timeQ := by
  rw [priorityQ, if_neg (by omega)]
  exact ⟨_, List.getElem?_eq_getElem (show n - 1 < [1, 2, 4, 8, 16, 32].length by
    simp only [List.length_cons, List.length_nil]
    omega)⟩

theorem exists_choose (beyond : Proc) (alg : Nat) (rand : Int) (hk : k.Ranked)
    (hlast : last ≠ some 63) :
    ∃ c, k.choose beyond alg last rand = some c := by
  unfold choose
  split
  · exact ⟨_, rfl⟩
  · dsimp only
    rcases priorityScan_min beyond hk (startIndex_lt hlast) with ⟨hnone, -⟩ | ⟨p, hp, hrun, -⟩
    · rw [hnone]
      exact ⟨_, rfl⟩
    · obtain ⟨timeQ, htime⟩ := exists_priorityQ (hk p (by simp [hrun]))
      rw [hp]
      dsimp only
      rw [entry_val, htime]
      exact ⟨_, rfl⟩
  · exact ⟨_, rfl⟩
  · exact ⟨_, rfl⟩
  · exact ⟨_, rfl⟩

end Kernel

end Xv6
