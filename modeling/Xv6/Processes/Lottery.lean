import Mathlib.Algebra.Order.BigOperators.Group.List
import Xv6.Foundation.Draws
import Xv6.Processes.Tickets

/-! # The lottery scheduler

Policy 4 of `scheduler` draws a number below `totalTicketCount` and walks the table, subtracting
the tickets of each `RUNNABLE` process until the number is negative. With the counter right, the
walk is the weighted draw of `Foundation.draw`, and so each process wins in proportion to its
tickets.

* `lottery_fair` — the draw on one CPU, with `set_ticketCount` taken as one step. -/

namespace Xv6

open Foundation

/-- `fastrand`: the next seed and the number drawn from it. -/
def fastrand (seed : Int) : Int × Int :=
  let seed := int32 (214013 * seed + 2531011)
  (seed, seed / 2 ^ 16 % 2 ^ 15)

/-- The event that starts a `set_ticketCount` cut in pieces. -/
def Event.readsTickets : Event → Bool
  | .call _ (.ticketRead _) => true
  | _ => false

/-- The number that a `set_ticketCount` cut in pieces is to store. -/
@[simp] def Ctl.asks : Ctl → Option Int
  | .ticketRead n _ | .ticketWritten n => some n
  | .user | .creating _ _ | .publishing _ | .diagwait | .threadJoin _ | .sleep => none

theorem Ctl.asks_eq_none {x : Ctl} : x.asks = none ↔ x.read = none ∧ x.written = none := by
  cases x <;> simp

namespace Kernel

/-- The loop of policy 4 over the slots still to visit. -/
def lotteryLoop (k : Kernel) : List Slot → Int → Option Slot
  | [], _ => none
  | p :: ps, winner =>
    if (k.proc p).state ≠ .runnable then k.lotteryLoop ps winner
    else
      let winner := int32 (winner - (k.proc p).ticketCount)
      if winner < 0 then some p else k.lotteryLoop ps winner

/-- The process that policy 4 selects for the number `winner`. -/
def lotterySelect (k : Kernel) (winner : Int) : Option Slot :=
  k.lotteryLoop (List.finRange NPROC) winner

/-- The number that policy 4 draws. -/
def lotteryWinner (k : Kernel) (rand : Int) : Int :=
  if 0 < k.totalTicketCount then rand % k.totalTicketCount else 0

/-- The process that policy 4 selects with the seed `seed`. -/
def lotteryDraw (k : Kernel) (seed : Int) : Option Slot :=
  k.lotterySelect (k.lotteryWinner (fastrand seed).2)

/-- The sum of `ticketCount` over the `RUNNABLE` processes. -/
def runnableTickets (k : Kernel) : Int :=
  ∑ p with (k.proc p).state = .runnable, ((k.proc p).ticketCount : Int)

/-! ## The loop is a draw -/

/-- The `RUNNABLE` processes of a list of slots. -/
def contestants (k : Kernel) (l : List Slot) : List Slot :=
  l.filter fun p => (k.proc p).state = .runnable

/-- **The loop of policy 4 is the weighted draw**, as long as nothing overflows. -/
theorem lotteryLoop_eq_draw (k : Kernel) (l : List Slot) (w : Nat) (hw : w < 2 ^ 31)
    (hl : ∀ p ∈ k.contestants l, (k.proc p).ticketCount < 2 ^ 31) :
    k.lotteryLoop l w = draw (fun p => (k.proc p).ticketCount) (k.contestants l) w := by
  induction l generalizing w with
  | nil => rfl
  | cons p l ih =>
    rw [lotteryLoop]
    by_cases hp : (k.proc p).state = .runnable
    · have hcons : k.contestants (p :: l) = p :: k.contestants l := by
        simp [contestants, hp]
      rw [hcons] at hl
      have hp31 := hl p List.mem_cons_self
      have hsub : int32 ((w : Int) - (k.proc p).ticketCount) = w - (k.proc p).ticketCount :=
        int32_eq (by omega) (by omega)
      rw [if_neg (by simp [hp]), hcons, draw, hsub]
      by_cases hlt : w < (k.proc p).ticketCount
      · rw [if_pos hlt, if_pos (by omega)]
      · rw [if_neg hlt, if_neg (by omega), ← Nat.cast_sub (by omega)]
        exact ih _ (by omega) fun q hq => hl q (List.mem_cons_of_mem p hq)
    · have hcons : k.contestants (p :: l) = k.contestants l := by
        simp [contestants, hp]
      rw [if_pos hp, hcons]
      rw [hcons] at hl
      exact ih w hw hl

theorem sum_contestants (k : Kernel) :
    ((((k.contestants (List.finRange NPROC)).map fun p => (k.proc p).ticketCount).sum : Nat) : Int)
      = k.runnableTickets := by
  have hnodup : (k.contestants (List.finRange NPROC)).Nodup := (List.nodup_finRange _).filter _
  have hset : (k.contestants (List.finRange NPROC)).toFinset
      = Finset.univ.filter fun p => (k.proc p).state = .runnable := by
    ext p
    simp [contestants]
  rw [← List.sum_toFinset _ hnodup, hset, Nat.cast_sum, runnableTickets]

/-! ## Everybody has a ticket -/

section

variable {k k' : Kernel}

/-- Every process in use has a ticket. -/
def Endowed (k : Kernel) : Prop :=
  ∀ p, (k.proc p).state ≠ .unused → 0 < (k.proc p).ticketCount

theorem int32_lt (n : Int) : int32 n < 2 ^ 31 := by
  have := Int.bmod_lt (x := n) (m := 2 ^ 32) (by norm_num)
  unfold int32
  omega

theorem uint32_of_pos {n : Int} (hpos : 0 < n) (hlt : n < 2 ^ 31) :
    0 < uint32 n ∧ uint32 n < 2 ^ 31 := by
  unfold uint32
  rw [Int.emod_eq_of_lt (by omega) (by omega)]
  omega

/-- Where `n` tickets of the process in slot `q` come from, after a step from `k`. -/
inductive TicketsFrom (k : Kernel) (q : Slot) (n : Nat) : Prop
  /-- The process had them before. -/
  | kept (huse : (k.proc q).state ≠ .unused) (h : n = (k.proc q).ticketCount)
  /-- `allocproc` gave them. -/
  | new (h : n = 10)
  /-- A `set_ticketCount` in one step. -/
  | set {m : Int} (hm : 0 < int32 m) (h : n = uint32 (int32 m))
  /-- The last store of a `set_ticketCount` cut in pieces. -/
  | committed {p : Slot} {m : Int} (hctl : k.ctl p = .ticketWritten m) (h : n = uint32 m)

/-- **The tickets after a step**: a process in use has kept them, is new, or has set them. -/
theorem step_ticketsFrom {e : Event} (hk : k.Wf) (h : k.step e = some k') (q : Slot)
    (hq : (k'.proc q).state ≠ .unused) : k.TicketsFrom q (k'.proc q).ticketCount := by
  have halters := step_alters hk h q
  generalize k'.proc q = x, k'.ctl q = y at halters hq
  cases halters with
  | same => exact .kept hq rfl
  | first => exact .new rfl
  | woken _ hs | started _ hs => exact .kept (by simp [hs]) rfl
  | call _ hrun hleaves =>
    cases hleaves with
    | same | marked => exact .kept hq rfl
    | taken => exact .new rfl
    | abandoned | reaped => simp at hq
    | adopted _ hs | published hs | roused _ hs => exact .kept (by simp [hs]) rfl
    | orphaned => exact .kept (mt orphaned_unused.2 hq) (orphaned_ticketCount k _ _ q)
    | own hqc hown =>
      subst hqc
      cases hown with
      | setTicketCount _ hn => exact .set hn rfl
      | ticketCommit hctl => exact .committed hctl rfl
      | _ => exact .kept (by simp [hrun]) rfl

/-- **The numbers asked for after a step**: only `ticketRead` brings a new one. -/
theorem step_asks {e : Event} (hk : k.Wf) (h : k.step e = some k') (q : Slot) :
    (k'.ctl q).asks = (k.ctl q).asks ∨ (k'.ctl q).asks = none ∨
      ∃ c n, e = .call c (.ticketRead n) ∧ 0 < int32 n ∧ (k'.ctl q).asks = some (int32 n) := by
  have halters := step_alters hk h q
  generalize k'.proc q = x, k'.ctl q = y at halters
  cases halters with
  | same | first | woken | started => exact .inl rfl
  | call _ _ hleaves =>
    cases hleaves with
    | taken => exact .inr (.inl rfl)
    | own hqc hown =>
      subst hqc
      cases hown with
      | ticketRead _ hn => exact .inr (.inr ⟨_, _, rfl, hn, rfl⟩)
      -- the number moves on from the load to the store
      | ticketStore hctl => exact .inl (by rw [hctl]; rfl)
      | yield | exit | setTicketCount | charge => exact .inl rfl
      | _ => exact .inr (.inl rfl)
    | _ => exact .inl rfl

/-- No process is in the middle of a `set_ticketCount` cut in pieces. -/
def Undivided (k : Kernel) : Prop :=
  ∀ p, (k.ctl p).read = none ∧ (k.ctl p).written = none

/-- The steps of the lottery's runs: `set_ticketCount` is never cut in pieces. -/
def TicketsWhole (_ : Kernel) (e : Event) : Prop :=
  e.readsTickets = false

instance (k : Kernel) (e : Event) : Decidable (k.TicketsWhole e) :=
  inferInstanceAs (Decidable (e.readsTickets = false))

/-- What the lottery relies on, kept by every step of its runs. -/
structure Fair (ncpu : Nat) (k : Kernel) : Prop where
  wf : k.Wf
  cpus : k.ncpu = ncpu
  balanced : k.Balanced
  endowed : k.Endowed
  undivided : k.Undivided

theorem step_fair {ncpu : Nat} {e : Event} (hk : k.Fair ncpu) (hg : k.TicketsWhole e)
    (h : k.step e = some k') :
    k'.Fair ncpu := by
  obtain ⟨hwf, hn, hb, he, hu⟩ := hk
  have hcurrent : k.TicketsCurrent e := by
    intro c _ cur _ total htotal
    rw [(hu cur).1] at htotal
    cases htotal
  refine ⟨step_wf hwf h, (step_ncpu hwf h).trans hn, step_balanced hwf hcurrent h hb, ?_, ?_⟩
  · intro q hq
    cases step_ticketsFrom hwf h q hq with
    | kept huse htickets => exact htickets ▸ he q huse
    | new hten => omega
    | set hm hset => exact hset ▸ (uint32_of_pos hm (int32_lt _)).1
    | @committed p n hctl =>
      -- nobody stores in pieces
      have := (hu p).2
      simp [hctl] at this
  · intro q
    rw [← Ctl.asks_eq_none]
    rcases step_asks hwf h q with hsame | hnone | ⟨c, n, rfl, -⟩
    · rw [hsame, Ctl.asks_eq_none]
      exact hu q
    · exact hnone
    · cases hg

theorem run_fair {ncpu : Nat} (h : Run step TicketsWhole (boot ncpu) k) :
    k.Fair ncpu := by
  refine Run.invariant (Fair ncpu) ⟨boot_wf ncpu, rfl, (run_balanced .refl).2, ?_, ?_⟩
    (fun _ _ _ hk hg hs => step_fair hk hg hs) h
  · intro p hp
    simp [boot] at hp
  · intro p
    simp [boot]

end

/-! ## The draw is fair -/

theorem competingTickets_eq {k : Kernel} (hk : k.Wf) (hone : k.ncpu = 1) (hidle : k.cpu 0 = none) :
    k.competingTickets = k.runnableTickets := by
  have hnone : ∀ p, (k.proc p).state ≠ .running := by
    intro p hp
    obtain ⟨c, hc⟩ := hk.running p hp
    have hlt := (hk.onCpu c p hc).2
    obtain rfl : c = 0 := by omega
    simp [hidle] at hc
  simp [competingTickets, runnableTickets, hnone]

/-- **Lottery fairness.** On one CPU, in every run in which `set_ticketCount` is one step, whenever
the scheduler runs and the tickets of the `RUNNABLE` processes fit an `int`: the counter is their
sum, each of them is selected for exactly as many numbers as it has tickets, and every draw
selects somebody when somebody is `RUNNABLE`. -/
theorem lottery_fair {k : Kernel} (h : Run step TicketsWhole (boot 1) k) (hidle : k.cpu 0 = none)
    (hsum : k.runnableTickets < 2 ^ 31) :
    k.totalTicketCount = k.runnableTickets ∧
      (∀ p, (k.proc p).state = .runnable →
        ((Finset.Ico 0 k.totalTicketCount).filter fun winner =>
          k.lotterySelect winner = some p).card = (k.proc p).ticketCount) ∧
      ((∃ p, (k.proc p).state = .runnable) → ∀ seed, ∃ p, k.lotteryDraw seed = some p ∧
        (k.proc p).state = .runnable) := by
  obtain ⟨hwf, hone, ⟨hmod, hint⟩, hend, hundiv⟩ := run_fair h
  rw [sum_stake fun p => (hundiv p).2, competingTickets_eq hwf hone hidle] at hmod
  -- the list of contestants carries the same tickets as the table
  have hS := k.sum_contestants
  set S := ((k.contestants (List.finRange NPROC)).map fun p =>
    (k.proc p).ticketCount).sum with hSdef
  have hS31 : S < 2 ^ 31 := by omega
  have htotal : k.totalTicketCount = k.runnableTickets := by
    rw [← hint, int32_congr hmod, int32_eq (by omega) hsum]
  have hselect : ∀ w : Nat, w < S → k.lotterySelect w
      = draw (fun p => (k.proc p).ticketCount) (k.contestants (List.finRange NPROC)) w :=
    fun w hw => k.lotteryLoop_eq_draw _ w (by omega) fun p hp =>
      (List.single_le_sum (by simp) _ (List.mem_map_of_mem hp)).trans_lt hS31
  have hmem : ∀ p, p ∈ k.contestants (List.finRange NPROC) ↔ (k.proc p).state = .runnable := by
    simp [contestants]
  have hnodup : (k.contestants (List.finRange NPROC)).Nodup := (List.nodup_finRange _).filter _
  refine ⟨htotal, fun p hp => ?_, fun ⟨p, hp⟩ seed => ?_⟩
  · rw [htotal, ← hS, card_filter_Ico]
    refine (count_congr fun w hw => ?_).trans (count_draw
      (fun p => (k.proc p).ticketCount) hnodup ((hmem p).2 hp))
    rw [hselect w hw]
  · have hpos : 0 < S := by
      have hle : (k.proc p).ticketCount ≤ S :=
        List.single_le_sum (by simp) _ (List.mem_map_of_mem ((hmem p).2 hp))
      have := hend p (by simp [hp])
      omega
    have hwin : 0 ≤ k.lotteryWinner (fastrand seed).2 ∧
        k.lotteryWinner (fastrand seed).2 < S := by
      rw [lotteryWinner, if_pos (by omega), htotal, ← hS]
      exact ⟨Int.emod_nonneg _ (by omega), Int.emod_lt_of_pos _ (by omega)⟩
    obtain ⟨w, hw⟩ := Int.eq_ofNat_of_zero_le hwin.1
    obtain ⟨q, hq⟩ := exists_draw (fun p => (k.proc p).ticketCount)
      (l := k.contestants (List.finRange NPROC)) (w := w) (by omega)
    refine ⟨q, ?_, (hmem q).1 (mem_of_draw hq)⟩
    rw [lotteryDraw, hw, hselect w (by omega), hq]

/-- Two processes compete for the CPU, one of them with 30 tickets. -/
theorem lottery_fair_two :
    ∃ k, Run step TicketsWhole (boot 1) k ∧ k.totalTicketCount = 40 ∧
      ((Finset.Ico 0 k.totalTicketCount).filter fun winner =>
        k.lotterySelect winner = some 0).card = 30 := by
  obtain ⟨k, hrun, hk⟩ := exists_run_of_runs step TicketsWhole (boot 1)
    [.userinit, .dispatch 0 0, .call 0 (.setTicketCount 30), .call 0 (.allocproc false),
      .call 0 .adopt, .call 0 .publish, .call 0 .yield]
    (p := fun k => decide (k.cpu 0 = none ∧ k.runnableTickets = 40 ∧
      (k.proc 0).state = .runnable ∧ (k.proc 0).ticketCount = 30)) (by decide +kernel)
  obtain ⟨hidle, hsum, hp, hcount⟩ := of_decide_eq_true hk
  obtain ⟨htotal, hshare, -⟩ := lottery_fair hrun hidle (by omega)
  exact ⟨k, hrun, htotal.trans hsum, (hshare 0 hp).trans hcount⟩

end Kernel

end Xv6
