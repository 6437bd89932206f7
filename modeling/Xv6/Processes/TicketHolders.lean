import Xv6.Processes.Lottery

/-! # Who can win the lottery

`fastrand` returns 15 bits, a process may hold any positive `int` of tickets, and the counter of
all tickets is an `int` that wraps. Policy 4 walks the table from its first slot, so a process can
only be selected if the tickets of the `RUNNABLE` processes before it leave it a number that can be
drawn at all.

* `Stocked` — what every reachable table keeps: every process in use has between `1` and
  `2 ^ 31 - 1` tickets, also while `set_ticketCount` is cut in pieces.
* `Stocked.winners` — the numbers that select a process are an interval behind the tickets before
  it.
* `exists_lotteryWinner` — the numbers that can be drawn are those up to `reach`.
* `winnable_iff` — a `RUNNABLE` process can be selected exactly if its share starts within
  `reach`. -/

namespace Xv6

open Foundation

namespace Kernel

/-- The tickets of the `RUNNABLE` processes in the slots before `p`. -/
def ticketsBefore (k : Kernel) (p : Slot) : Nat :=
  ∑ q with q < p ∧ (k.proc q).state = .runnable, (k.proc q).ticketCount

/-- The largest number that policy 4 can draw: `fastrand` returns at most `0x7FFF`. -/
def reach (k : Kernel) : Int :=
  if 0 < k.totalTicketCount then min 0x7FFF (k.totalTicketCount - 1) else 0

/-! ## Ticket counts are positive -/

section

variable {k k' : Kernel}

/-- Every process in use has a positive `int` of tickets, and asks for no other number. -/
structure Stocked (k : Kernel) : Prop where
  tickets : ∀ p, (k.proc p).state ≠ .unused →
    0 < (k.proc p).ticketCount ∧ (k.proc p).ticketCount < 2 ^ 31
  asked : ∀ p n, (k.ctl p).asks = some n → 0 < n ∧ n < 2 ^ 31

theorem step_stocked {e : Event} (hk : k.Wf) (hs : k.Stocked) (h : k.step e = some k') :
    k'.Stocked := by
  constructor
  · intro p hp
    cases step_ticketsFrom hk h p hp with
    | kept huse htickets => exact htickets ▸ hs.tickets p huse
    | new hten => omega
    | set hm hset => exact hset ▸ uint32_of_pos hm (int32_lt _)
    | @committed q n hctl hset =>
      obtain ⟨hpos, hlt⟩ := hs.asked q n (by simp [hctl])
      exact hset ▸ uint32_of_pos hpos hlt
  · intro p n hn
    rcases step_asks hk h p with hsame | hnone | ⟨-, m, -, hpos, hm⟩
    · exact hs.asked p n (hsame ▸ hn)
    · rw [hnone] at hn
      cases hn
    · obtain rfl : int32 m = n := Option.some.inj (hm.symm.trans hn)
      exact ⟨hpos, int32_lt m⟩

/-- **Every reachable table is stocked**, on any number of CPUs. -/
theorem reachable_stocked {ncpu : Nat} (h : Reachable ncpu k) : k.Stocked := by
  refine (Run.invariant (fun k => k.Wf ∧ k.Stocked) ⟨boot_wf ncpu, ?_⟩ ?_ h).2
  · constructor
    · intro p hp
      simp [boot] at hp
    · intro p n hn
      simp [boot] at hn
  · intro k e k' hk _ hstep
    exact ⟨step_wf hk.1 hstep, step_stocked hk.1 hk.2 hstep⟩

/-! ## The numbers that select a process -/

theorem exists_contestants (k : Kernel) {p : Slot} (hp : (k.proc p).state = .runnable) :
    ∃ l1 l2, k.contestants (List.finRange NPROC) = l1 ++ p :: l2 ∧ p ∉ l1 ∧ p ∉ l2 ∧
      (l1.map fun q => (k.proc q).ticketCount).sum = k.ticketsBefore p := by
  obtain ⟨l1, l2, hl⟩ := List.append_of_mem (List.mem_finRange p)
  have hsorted := List.pairwise_lt_finRange NPROC
  rw [hl, List.pairwise_append, List.pairwise_cons] at hsorted
  obtain ⟨hsorted1, ⟨hafter, -⟩, hcross⟩ := hsorted
  have hbefore : ∀ q ∈ l1, q < p := fun q hq => hcross q hq p List.mem_cons_self
  refine ⟨k.contestants l1, k.contestants l2, by simp [hl, contestants, hp], ?_, ?_, ?_⟩
  · exact fun h => lt_irrefl p (hbefore p (List.mem_of_mem_filter h))
  · exact fun h => lt_irrefl p (hafter p (List.mem_of_mem_filter h))
  · have hnodup : (k.contestants l1).Nodup := (hsorted1.imp ne_of_lt).filter _
    have hset : (k.contestants l1).toFinset
        = Finset.univ.filter fun q => q < p ∧ (k.proc q).state = .runnable := by
      ext q
      -- a slot before `p` stands in the first part of the table
      have hmem : q ∈ l1 ↔ q < p := by
        refine ⟨hbefore q, fun hq => ?_⟩
        have := hl ▸ List.mem_finRange q
        rcases List.mem_append.1 this with h | h
        · exact h
        · rcases List.mem_cons.1 h with rfl | h
          · exact absurd hq (lt_irrefl q)
          · exact absurd hq (lt_asymm (hafter q h))
      simp [contestants, hmem]
    rw [← List.sum_toFinset _ hnodup, hset, ticketsBefore]

/-- **The numbers that select a process** are as many as its tickets, behind the tickets before
it. -/
theorem Stocked.winners (hs : k.Stocked) {p : Slot} (hp : (k.proc p).state = .runnable) {w : Nat}
    (hw : w < 2 ^ 31) :
    k.lotterySelect w = some p ↔
      k.ticketsBefore p ≤ w ∧ w < k.ticketsBefore p + (k.proc p).ticketCount := by
  obtain ⟨l1, l2, hl, h1, h2, hsum⟩ := k.exists_contestants hp
  rw [lotterySelect, k.lotteryLoop_eq_draw _ w hw, hl, draw_eq_some_iff h1 h2, hsum]
  intro q hq
  have hrunnable : (k.proc q).state = .runnable := by simpa [contestants] using hq
  exact (hs.tickets q (by simp [hrunnable])).2

/-! ## The numbers that are drawn -/

/-- **The numbers that can be drawn** are those up to `reach`. -/
theorem exists_lotteryWinner (k : Kernel) (w : Int) :
    (∃ rand, 0 ≤ rand ∧ rand ≤ 0x7FFF ∧ k.lotteryWinner rand = w) ↔ 0 ≤ w ∧ w ≤ k.reach := by
  unfold lotteryWinner reach
  by_cases htotal : 0 < k.totalTicketCount
  · simp only [if_pos htotal]
    constructor
    · rintro ⟨rand, h0, hmax, rfl⟩
      have hnonneg := Int.emod_nonneg rand htotal.ne'
      have hlt := Int.emod_lt_of_pos rand htotal
      -- a remainder is not above the number itself
      have hle : rand % k.totalTicketCount ≤ rand := by
        rcases lt_or_ge rand k.totalTicketCount with hlt | hge
        · rw [Int.emod_eq_of_lt h0 hlt]
        · omega
      omega
    · rintro ⟨h0, hle⟩
      exact ⟨w, h0, by omega, Int.emod_eq_of_lt h0 (by omega)⟩
  · simp only [if_neg htotal]
    constructor
    · rintro ⟨-, -, -, rfl⟩
      omega
    · rintro ⟨h0, hle⟩
      exact ⟨0, le_rfl, by norm_num, by omega⟩

theorem reach_le (k : Kernel) : k.reach ≤ 0x7FFF := by
  unfold reach
  split_ifs <;> omega

/-- Some number that `fastrand` returns selects the process `p`. -/
def Winnable (k : Kernel) (p : Slot) : Prop :=
  ∃ rand, 0 ≤ rand ∧ rand ≤ 0x7FFF ∧ k.lotterySelect (k.lotteryWinner rand) = some p

theorem Stocked.winnable (hs : k.Stocked) {p : Slot} (hp : (k.proc p).state = .runnable) :
    k.Winnable p ↔ (k.ticketsBefore p : Int) ≤ k.reach := by
  have hreach := k.reach_le
  constructor
  · rintro ⟨rand, h0, hmax, hselect⟩
    obtain ⟨hnonneg, hle⟩ := (k.exists_lotteryWinner _).1 ⟨rand, h0, hmax, rfl⟩
    obtain ⟨w, hw⟩ := Int.eq_ofNat_of_zero_le hnonneg
    rw [hw] at hselect hle
    obtain ⟨hbefore, -⟩ := (hs.winners hp (by omega)).1 hselect
    omega
  · intro hle
    -- the first number of the share
    obtain ⟨rand, h0, hmax, hrand⟩ :=
      (k.exists_lotteryWinner (k.ticketsBefore p)).2 ⟨by omega, hle⟩
    have hpos := (hs.tickets p (by simp [hp])).1
    refine ⟨rand, h0, hmax, ?_⟩
    rw [hrand]
    exact (hs.winners hp (by omega)).2 ⟨le_rfl, by omega⟩

end

/-- **Who can win.** In every reachable state, on any number of CPUs and whatever ticket counts
have been set, a `RUNNABLE` process is selected for some number of `fastrand` exactly if the
tickets of the `RUNNABLE` processes before it are within `reach`. -/
theorem winnable_iff {ncpu : Nat} {k : Kernel} (h : Reachable ncpu k) {p : Slot}
    (hp : (k.proc p).state = .runnable) :
    k.Winnable p ↔ (k.ticketsBefore p : Int) ≤ k.reach :=
  (reachable_stocked h).winnable hp

/-- Two processes, the first with 30 tickets: the second one can win. -/
theorem winnable_second :
    ∃ k, Reachable 1 k ∧ (k.proc 1).state = .runnable ∧ k.ticketsBefore 1 = 30 ∧ k.Winnable 1 := by
  obtain ⟨k, hrun, hk⟩ := exists_run_of_runs step (fun _ _ => True) (boot 1)
    [.userinit, .dispatch 0 0, .call 0 (.setTicketCount 30), .call 0 (.allocproc false),
      .call 0 .adopt, .call 0 .publish, .call 0 .yield]
    (p := fun k => decide ((k.proc 1).state = .runnable ∧ k.ticketsBefore 1 = 30 ∧ k.reach = 39))
    (by decide +kernel)
  obtain ⟨hp, hbefore, hreach⟩ := of_decide_eq_true hk
  exact ⟨k, hrun, hp, hbefore, (winnable_iff hrun hp).2 (by omega)⟩

/-- Process 1 has asked for 40000 tickets: no number of `fastrand` selects its child in slot 1. -/
theorem child_excluded :
    ∃ k, Reachable 1 k ∧ k.cpu 0 = none ∧ (k.proc 1).state = .runnable ∧ ¬ k.Winnable 1 := by
  obtain ⟨k, hrun, hk⟩ := exists_run_of_runs step (fun _ _ => True) (boot 1)
    [.userinit, .dispatch 0 0, .call 0 (.setTicketCount 40000), .call 0 (.allocproc false),
      .call 0 .adopt, .call 0 .publish, .call 0 .yield]
    (p := fun k => decide (k.cpu 0 = none ∧ (k.proc 1).state = .runnable ∧
      k.ticketsBefore 1 = 40000)) (by decide +kernel)
  obtain ⟨hidle, hp, hbefore⟩ := of_decide_eq_true hk
  refine ⟨k, hrun, hidle, hp, fun hwin => ?_⟩
  have := ((reachable_stocked hrun).winnable hp).1 hwin
  have := k.reach_le
  omega

end Kernel

end Xv6
