import Xv6.Foundation.Circular
import Xv6.Foundation.Monitor

/-! # Pipes

`pipewrite`, `piperead` and `pipeclose` of `pipe.c`, and `kill`, called by any number of processes
on one pipe. Every operation on `p->lock` and on `ptable.lock`, every test and every byte is a step.

Beside the pipe there is its history: the bytes that were stored and who stored them, the bytes that
were delivered, and what every process has stored in the calls of `pipewrite` it is done with.

* **`Pipes.pipe_fifo`** — a pipe is a queue, also when its counters wrap around.
* **`Pipes.sleepers_wait`** — nobody sleeps on a condition that is met, unless a writer gives up at
  a full pipe without announcing what it stored (`Pipes.reader_left_asleep`). -/

namespace Xv6.Pipes

open Foundation Function

/-- `PIPESIZE` of `pipe.c`. -/
abbrev PIPESIZE : Nat := 512

/-- `struct pipe` without its lock, and the history of the pipe. -/
structure Pipe (P : Type) where
  data : Nat → UInt8
  nread : Nat := 0
  nwrite : Nat := 0
  readopen : Bool := true
  writeopen : Bool := true
  stored : List (P × UInt8) := []
  delivered : List UInt8 := []
  finished : P → List UInt8 := fun _ => []

/-- The channels of a pipe. -/
inductive Chan
  | nread
  | nwrite
  deriving DecidableEq, Repr

/-- The points of the functions; `since` is the `i` at which a call of `pipewrite` last took the
lock. -/
inductive Pc (P : Type)
  | idle
  | writeEnter (addr : Nat → UInt8) (n : Int)
  /-- At the condition of the loop over the bytes. -/
  | writeFor (addr : Nat → UInt8) (n : Int) (i since : Nat)
  /-- At the condition of the loop that waits for room. -/
  | writeWhile (addr : Nat → UInt8) (n : Int) (i since : Nat)
  | writeTest (addr : Nat → UInt8) (n : Int) (i since : Nat)
  | writeWake (addr : Nat → UInt8) (n : Int) (i since : Nat)
  | writeSleep (addr : Nat → UInt8) (n : Int) (i since : Nat)
  | writeStore (addr : Nat → UInt8) (n : Int) (i since : Nat)
  | writeEnd
  | writeFail (addr : Nat → UInt8) (i : Nat)
  /-- Releases the lock and returns: from `pipewrite`, `pipeclose`, and with `-1` from
  `piperead`. -/
  | leave
  | readEnter (n : Int)
  /-- At the condition of the loop that waits for bytes. -/
  | readWhile (n : Int)
  | readTest (n : Int)
  | readSleep (n : Int)
  /-- At the condition of the loop over the bytes, `i` of which are copied. -/
  | readFor (n : Int) (i : Nat)
  | readEnd (n : Int) (i : Nat)
  /-- Releases the lock and returns `i`. -/
  | readLeave (n : Int) (i : Nat)
  | closeEnter (writable : Bool)
  | closeSet (writable : Bool)
  | closeWake (writable : Bool)
  | kill (t : P)

variable {P : Type}

namespace Pipe

/-- `p->nwrite == p->nread + PIPESIZE`. -/
def full (d : Pipe P) : Bool := d.nwrite = wrap (d.nread + PIPESIZE)

/-- `p->nread == p->nwrite`. -/
def empty (d : Pipe P) : Bool := d.nread = d.nwrite

/-- `p->data[p->nwrite++ % PIPESIZE] = b` by process `p`. -/
def store (d : Pipe P) (p : P) (b : UInt8) : Pipe P :=
  { d with
    data := update d.data (d.nwrite % PIPESIZE) b
    nwrite := wrap (d.nwrite + 1)
    stored := d.stored ++ [(p, b)] }

/-- `addr[i] = p->data[p->nread++ % PIPESIZE]`. -/
def deliver (d : Pipe P) : Pipe P :=
  { d with
    nread := wrap (d.nread + 1)
    delivered := d.delivered ++ [d.data (d.nread % PIPESIZE)] }

/-- One end is closed. -/
def close (d : Pipe P) (writable : Bool) : Pipe P :=
  if writable then { d with writeopen := false } else { d with readopen := false }

/-- A call of `pipewrite` by `p` stores no more than the bytes `l`. -/
def finish [DecidableEq P] (d : Pipe P) (p : P) (l : List UInt8) : Pipe P :=
  { d with finished := update d.finished p (d.finished p ++ l) }

end Pipe

/-- The first `i` bytes of a buffer. -/
def bytes (addr : Nat → UInt8) (i : Nat) : List UInt8 := (List.range i).map addr

/-- The channel that a close wakes. -/
def closeChan (writable : Bool) : Chan := if writable then .nread else .nwrite

/-- The code of `pipe.c`. -/
def code [DecidableEq P] (p : P) : Pc P → Instr (Pc P) Unit Chan P (Pipe P)
  | .idle => .halt
  | .writeEnter addr n => .acquire (some ()) (.writeFor addr n 0 0)
  | .writeFor addr n i since => .act fun d =>
    if i < n then (.writeWhile addr n i since, d) else (.writeEnd, d.finish p (bytes addr i))
  | .writeWhile addr n i since => .act fun d =>
    (if d.full then .writeTest addr n i since else .writeStore addr n i since, d)
  | .writeTest addr n i since => .test fun d killed =>
    if d.readopen = false ∨ killed = true then .writeFail addr i else .writeWake addr n i since
  | .writeWake addr n i since => .wakeup .nread (.writeSleep addr n i since)
  | .writeSleep addr n i _ => .sleep .nwrite (some ()) (.writeWhile addr n i i)
  | .writeStore addr n i since => .act fun d => (.writeFor addr n (i + 1) since, d.store p (addr i))
  | .writeEnd => .wakeup .nread .leave
  | .writeFail addr i => .act fun d => (.leave, d.finish p (bytes addr i))
  | .leave => .release (some ()) .idle
  | .readEnter n => .acquire (some ()) (.readWhile n)
  | .readWhile n => .act fun d =>
    (if d.empty = true ∧ d.writeopen = true then .readTest n else .readFor n 0, d)
  | .readTest n => .test fun _ killed => if killed then .leave else .readSleep n
  | .readSleep n => .sleep .nread (some ()) (.readWhile n)
  | .readFor n i => .act fun d =>
    if i < n ∧ d.empty = false then (.readFor n (i + 1), d.deliver) else (.readEnd n i, d)
  | .readEnd n i => .wakeup .nwrite (.readLeave n i)
  | .readLeave _ _ => .release (some ()) .idle
  | .closeEnter w => .acquire (some ()) (.closeSet w)
  | .closeSet w => .act fun d => (.closeWake w, d.close w)
  | .closeWake w => .wakeup (closeChan w) .leave
  | .kill t => .kill t .idle

/-- A process that is in no call may begin any. -/
def entry (_ : P) (_ : Pc P) : Pc P → Bool
  | .writeEnter _ _ | .readEnter _ | .closeEnter _ | .kill _ => true
  | _ => false

/-- Processes that share a pipe. -/
abbrev State (P : Type) := Monitor (Pc P) Unit Chan P (Pipe P)

/-- After `pipealloc`, which leaves in the ring what was in the page. -/
def boot (junk : Nat → UInt8) (killed : P → Bool) : State P where
  data := { data := junk }
  lock := fun _ => none
  place := fun _ => .on .idle
  killed := killed

/-! ## The ring and the history -/

namespace Pipe

/-- The bytes that process `p` has stored. -/
def storedBy [DecidableEq P] (d : Pipe P) (p : P) : List UInt8 :=
  (d.stored.filter fun x => x.1 = p).map Prod.snd

/-- **The ring holds the bytes that were stored and not delivered.** -/
structure Ring (d : Pipe P) : Prop where
  nread : d.nread = wrap d.delivered.length
  nwrite : d.nwrite = wrap d.stored.length
  le : d.delivered.length ≤ d.stored.length
  room : d.stored.length ≤ d.delivered.length + PIPESIZE
  delivered : d.delivered = (d.stored.map Prod.snd).take d.delivered.length
  data : Circular PIPESIZE d.data (d.stored.map Prod.snd) d.delivered.length

theorem PIPESIZE_dvd : PIPESIZE ∣ 2 ^ 32 := ⟨2 ^ 23, by decide⟩

variable {d : Pipe P} {p : P} {b : UInt8}

section

variable (h : d.Ring)

include h

theorem Ring.stored_lt : d.stored.length < d.delivered.length + 2 ^ 32 :=
  h.room.trans_lt (by unfold PIPESIZE; omega)

theorem Ring.full_iff :
    d.full = true ↔ d.stored.length = d.delivered.length + PIPESIZE := by
  have hfar : d.delivered.length + PIPESIZE < d.stored.length + 2 ^ 32 := by
    have := h.le
    unfold PIPESIZE
    omega
  rw [full, decide_eq_true_eq, h.nwrite, h.nread, wrap_wrap_add]
  exact wrap_inj h.room hfar

theorem Ring.empty_iff : d.empty = true ↔ d.delivered.length = d.stored.length := by
  rw [empty, decide_eq_true_eq, h.nread, h.nwrite]
  exact wrap_inj h.le h.stored_lt

theorem Ring.store (hroom : d.full = false) : (d.store p b).Ring := by
  have hlt : d.stored.length < d.delivered.length + PIPESIZE := by
    have := h.room
    rw [← Bool.not_eq_true, h.full_iff] at hroom
    omega
  have hlen : (d.stored ++ [(p, b)]).length = d.stored.length + 1 := by simp
  have hmap : (d.stored ++ [(p, b)]).map Prod.snd = d.stored.map Prod.snd ++ [b] := by simp
  constructor
  · exact h.nread
  · show wrap (d.nwrite + 1) = wrap (d.stored ++ [(p, b)]).length
    rw [h.nwrite, wrap_wrap_add, hlen]
  · exact h.le.trans (by simp [Pipe.store])
  · show (d.stored ++ [(p, b)]).length ≤ d.delivered.length + PIPESIZE
    rwa [hlen]
  · show d.delivered = ((d.stored ++ [(p, b)]).map Prod.snd).take d.delivered.length
    rw [hmap, List.take_append_of_le_length (by simpa using h.le)]
    exact h.delivered
  · show Circular PIPESIZE (update d.data (d.nwrite % PIPESIZE) b)
      ((d.stored ++ [(p, b)]).map Prod.snd) d.delivered.length
    rw [hmap, h.nwrite, wrap_mod PIPESIZE_dvd]
    simpa using h.data.push (by simpa using hlt) b

theorem Ring.deliver (hsome : d.empty = false) : d.deliver.Ring := by
  have hlt : d.delivered.length < d.stored.length := by
    have := h.le
    rw [← Bool.not_eq_true, h.empty_iff] at hsome
    omega
  have hbyte : d.data (d.nread % PIPESIZE) = (d.stored[d.delivered.length]).2 := by
    rw [h.nread, wrap_mod PIPESIZE_dvd, h.data _ le_rfl (by simpa using hlt)]
    simp
  have hlen : (d.delivered ++ [d.data (d.nread % PIPESIZE)]).length =
      d.delivered.length + 1 := by simp
  constructor
  · show wrap (d.nread + 1) = wrap (d.delivered ++ [d.data (d.nread % PIPESIZE)]).length
    rw [h.nread, wrap_wrap_add, ← h.nread, hlen]
  · exact h.nwrite
  · show (d.delivered ++ [d.data (d.nread % PIPESIZE)]).length ≤ d.stored.length
    rwa [hlen]
  · show d.stored.length ≤ (d.delivered ++ [d.data (d.nread % PIPESIZE)]).length + PIPESIZE
    have := h.room
    omega
  · show d.delivered ++ [d.data (d.nread % PIPESIZE)]
      = (d.stored.map Prod.snd).take (d.delivered ++ [d.data (d.nread % PIPESIZE)]).length
    rw [hlen, List.take_add_one, ← h.delivered, hbyte]
    simp [hlt]
  · refine h.data.forget ?_
    show d.delivered.length ≤ (d.delivered ++ [d.data (d.nread % PIPESIZE)]).length
    omega

theorem Ring.close (w : Bool) : (d.close w).Ring := by
  cases w
  · exact { h with }
  · exact { h with }

theorem Ring.finish [DecidableEq P] {l : List UInt8} : (d.finish p l).Ring :=
  { h with }

theorem Ring.count_le : (d.nwrite + 2 ^ 32 - d.nread) % 2 ^ 32 ≤ PIPESIZE := by
  have hle := h.le
  have hroom := h.room
  rw [h.nread, h.nwrite]
  unfold wrap
  unfold PIPESIZE at hroom ⊢
  omega

theorem Ring.delivered_prefix : d.delivered <+: d.stored.map Prod.snd := by
  rw [h.delivered]
  exact List.take_prefix _ _

end

section

variable [DecidableEq P] {q : P} {l : List UInt8}

theorem storedBy_store_self : (d.store p b).storedBy p = d.storedBy p ++ [b] := by
  simp [storedBy, store]

theorem storedBy_store_of_ne (hq : q ≠ p) : (d.store p b).storedBy q = d.storedBy q := by
  simp [storedBy, store, Ne.symm hq]

end

end Pipe

/-! ## The proof outline -/

namespace Pc

/-- The bytes that the call at this point has stored so far. -/
def sent : Pc P → List UInt8
  | writeFor addr _ i _ | writeWhile addr _ i _ | writeTest addr _ i _ | writeWake addr _ i _
  | writeSleep addr _ i _ | writeStore addr _ i _ | writeFail addr i => bytes addr i
  | _ => []

end Pc

/-- What one sleeps for. -/
def Chan.Waits (d : Pipe P) : Chan → Prop
  | nread => d.empty = true ∧ d.writeopen = true
  | nwrite => d.full = true ∧ d.readopen = true

/-- The channels that a call of `pipewrite` owes a wakeup: `nread`, if it has stored something. -/
def fresh (i since : Nat) : Set Chan := {c | c = .nread ∧ since < i}

section

variable [DecidableEq P] (strict : Prop)

/-- What `p` has stored is what its finished calls have stored, followed by what this one has. -/
def Own (p : P) (pc : Pc P) (d : Pipe P) : Prop := d.storedBy p = d.finished p ++ pc.sent

/-- **The outline.** With `strict` false nothing is said about sleepers. -/
def outline : Outline (Pc P) Chan P (Pipe P) where
  inv := Pipe.Ring
  wait c d := strict → c.Waits d
  own := Own
  free _
    | .idle | .writeEnter _ _ | .readEnter _ | .closeEnter _ | .kill _ => True
    | _ => False
  held p pc d owed := d.Ring ∧ Own p pc d ∧
    match pc with
    | .writeFor _ _ i since | .writeWhile _ _ i since => since ≤ i ∧ owed ⊆ fresh i since
    | .writeTest _ _ i since => owed ⊆ fresh i since ∧ d.full = true
    | .writeWake _ _ _ _ => owed ⊆ {.nread} ∧ d.full = true ∧ d.readopen = true
    | .writeSleep _ _ _ _ => owed = ∅ ∧ d.full = true ∧ d.readopen = true
    | .writeStore _ _ i since => since ≤ i ∧ owed ⊆ fresh i since ∧ d.full = false
    | .writeEnd => owed ⊆ {.nread}
    | .writeFail _ _ | .leave => ∀ c ∈ owed, strict → c.Waits d
    | .readWhile _ | .closeSet _ => owed = ∅
    | .readTest _ | .readSleep _ => owed = ∅ ∧ d.empty = true ∧ d.writeopen = true
    | .readFor _ i => owed ⊆ {.nwrite} ∧ (i = 0 → d.empty = true → d.writeopen = false)
    | .readEnd n i => owed ⊆ {.nwrite} ∧
        (0 < n → i = 0 → d.empty = true ∧ d.writeopen = false)
    | .readLeave n i => owed = ∅ ∧ (0 < n → i = 0 → d.empty = true ∧ d.writeopen = false)
    | .closeWake w => owed ⊆ {closeChan w}
    | _ => False

/-- **Announced**: a call of `pipewrite` that finds the pipe full gives up only if it has stored
nothing since it last took the lock. -/
def Announced : Pc P → Pipe P → Bool → Prop
  | .writeTest _ _ i since, d, killed => i = since ∨ (d.readopen = true ∧ killed = false)
  | _, _, _ => True

instance : ∀ (pc : Pc P) (d : Pipe P) (b : Bool), Decidable (Announced pc d b)
  | .writeTest _ _ i since, d, killed =>
    inferInstanceAs (Decidable (i = since ∨ (d.readopen = true ∧ killed = false)))
  | .idle, _, _ | .writeEnter _ _, _, _ | .writeFor _ _ _ _, _, _ | .writeWhile _ _ _ _, _, _
  | .writeWake _ _ _ _, _, _ | .writeSleep _ _ _ _, _, _ | .writeStore _ _ _ _, _,
      _ | .writeEnd, _, _
  | .writeFail _ _, _, _ | .leave, _, _ | .readEnter _, _, _ | .readWhile _, _,
      _ | .readTest _, _, _
  | .readSleep _, _, _ | .readFor _ _, _, _ | .readEnd _ _, _, _ | .readLeave _ _, _, _
  | .closeEnter _, _, _ | .closeSet _, _, _ | .closeWake _, _, _ | .kill _, _, _ => .isTrue trivial

variable {strict} {p q : P} {pc : Pc P} {d d' : Pipe P} {b : UInt8}

/-! ### What a step owes -/

/-- The channels whose sleepers have nothing to wait for any more. -/
def owes (strict : Prop) (d d' : Pipe P) : Set Chan :=
  {c | (outline strict).wait c d ∧ ¬ (outline strict).wait c d'}

theorem waits_of_mem_owes {c : Chan} (h : c ∈ owes strict d d') :
    c.Waits d ∧ ¬ c.Waits d' := by
  obtain ⟨hwait, hno⟩ := h
  have hno : ¬ (strict → c.Waits d') := hno
  rw [Classical.not_imp] at hno
  exact ⟨hwait hno.1, hno.2⟩

theorem owes_self : owes strict d d = ∅ :=
  Set.eq_empty_of_forall_notMem fun _ hc => hc.2 hc.1

theorem owes_finish {l : List UInt8} : owes strict d (d.finish p l) = ∅ :=
  Set.eq_empty_of_forall_notMem fun c hc => by
    obtain ⟨hold, hnew⟩ := waits_of_mem_owes hc
    cases c with
    | nread | nwrite => exact hnew hold

theorem owes_store (h : d.full = false) : owes strict d (d.store p b) ⊆ {.nread} := by
  intro c hc
  cases c with
  | nread => rfl
  | nwrite =>
    have hfull := (waits_of_mem_owes hc).1.1
    rw [h] at hfull
    cases hfull

theorem owes_deliver (h : d.empty = false) : owes strict d d.deliver ⊆ {.nwrite} := by
  intro c hc
  cases c with
  | nread =>
    have hempty := (waits_of_mem_owes hc).1.1
    rw [h] at hempty
    cases hempty
  | nwrite => rfl

theorem owes_close (w : Bool) : owes strict d (d.close w) ⊆ {closeChan w} := by
  intro c hc
  obtain ⟨hold, hnew⟩ := waits_of_mem_owes hc
  cases w with
  | false =>
    cases c with
    | nread => exact (hnew hold).elim
    | nwrite => rfl
  | true =>
    cases c with
    | nread => rfl
    | nwrite => exact (hnew hold).elim

/-! ### What the others have stored -/

theorem own_store (hq : q ≠ p) (h : Own q pc d) : Own q pc (d.store p b) := by
  unfold Own
  rw [Pipe.storedBy_store_of_ne hq]
  exact h

theorem own_finish {l : List UInt8} (hq : q ≠ p) (h : Own q pc d) : Own q pc (d.finish p l) := by
  show d.storedBy q = update d.finished p _ q ++ pc.sent
  rw [update_of_ne hq]
  exact h

theorem own_close {w : Bool} (h : Own q pc d) : Own q pc (d.close w) := by
  cases w
  · exact h
  · exact h

theorem own_store_self {addr : Nat → UInt8} {n : Int} {i since : Nat}
    (h : Own p (.writeStore addr n i since) d) :
    Own p (.writeFor addr n (i + 1) since) (d.store p (addr i)) := by
  have h : d.storedBy p = d.finished p ++ bytes addr i := h
  show (d.store p (addr i)).storedBy p = d.finished p ++ bytes addr (i + 1)
  rw [Pipe.storedBy_store_self, h, bytes, bytes, List.range_succ, List.map_append,
    List.append_assoc]
  rfl

theorem own_finish_self {next : Pc P} (h : Own p pc d) (hnext : next.sent = []) :
    Own p next (d.finish p pc.sent) := by
  show d.storedBy p = update d.finished p (d.finished p ++ pc.sent) p ++ next.sent
  rw [update_self, hnext, List.append_nil]
  exact h

/-! ### Every instruction keeps to the outline -/

theorem outline_entry {old : Pc P} (h : entry p old pc = true)
    (hold : (outline strict).free p old) :
    (outline strict).free p pc ∧ ∀ d, Own p old d → Own p pc d := by
  have hsent : old.sent = [] := by
    cases old <;> first | rfl | exact hold.elim
  have hfree : (outline strict).free p pc ∧ pc.sent = [] := by
    cases pc <;> first | exact ⟨trivial, rfl⟩ | cases h
  refine ⟨hfree.1, fun d hown => ?_⟩
  rwa [Own, hfree.2, ← hsent]

theorem outline_free (h : (outline strict).free p pc) :
    (outline strict).FreeStep p pc (code p pc) := by
  cases pc with
  | idle => trivial
  | writeEnter addr n =>
    refine ⟨fun d hinv hown => ⟨hinv, hown, le_rfl, ?_⟩, fun d hown => hown⟩
    exact Set.empty_subset _
  | readEnter n | closeEnter w => exact ⟨fun d hinv hown => ⟨hinv, hown, rfl⟩, fun d hown => hown⟩
  | kill t => exact ⟨trivial, fun d hown => hown⟩
  | _ => exact h.elim

variable {allow : Pipe P → Bool → Prop} {owed : Set Chan}

theorem heldStep_read {f : Pipe P → Pc P × Pipe P} (hf : (f d).2 = d)
    (h : (outline strict).held p (f d).1 d owed) :
    (outline strict).HeldStep allow p d owed (.act f) := by
  refine ⟨?_, fun q _ pc hown => ?_⟩
  · rw [hf]
    show (outline strict).held p (f d).1 d (owed ∪ owes strict d d)
    rwa [owes_self, Set.union_empty]
  · rwa [hf]

theorem heldStep_write {f : Pipe P → Pc P × Pipe P} {next : Pc P} (hf : f d = (next, d'))
    (h : (outline strict).held p next d' (owed ∪ owes strict d d'))
    (hown : ∀ q ≠ p, ∀ pc, Own q pc d → Own q pc d') :
    (outline strict).HeldStep allow p d owed (.act f) := by
  refine ⟨?_, fun q hq pc hq' => ?_⟩
  · rw [hf]
    exact h
  · rw [hf]
    exact hown q hq pc hq'

theorem outline_held_write {addr : Nat → UInt8} {n : Int} {i since : Nat} (hring : d.Ring)
    (hown : Own p (.writeFor addr n i since) d) (hle : since ≤ i) (howed : owed ⊆ fresh i since) :
    (outline strict).HeldStep allow p d owed (code p (.writeFor addr n i since)) := by
  by_cases hi : (i : Int) < n
  · refine heldStep_read (by simp [hi]) ?_
    simp only [hi, if_true]
    exact ⟨hring, hown, hle, howed⟩
  · refine heldStep_write (if_neg hi) ⟨hring.finish, own_finish_self hown rfl, ?_⟩ ?_
    · rw [owes_finish, Set.union_empty]
      exact fun c hc => (howed hc).1
    · exact fun q hq pc => own_finish hq

theorem outline_held (h : (outline strict).held p pc d owed) :
    (outline strict).HeldStep (fun d b => strict → Announced pc d b) p d owed (code p pc) := by
  obtain ⟨hring, hown, hpc⟩ := h
  cases pc with
  | writeFor addr n i since => exact outline_held_write hring hown hpc.1 hpc.2
  | writeWhile addr n i since =>
    obtain ⟨hle, howed⟩ := hpc
    refine heldStep_read rfl ?_
    cases hfull : d.full with
    | false => exact ⟨hring, hown, hle, howed, hfull⟩
    | true => exact ⟨hring, hown, howed, hfull⟩
  | writeTest addr n i since =>
    obtain ⟨howed, hfull⟩ := hpc
    intro killed hallow
    dsimp only
    split
    · rename_i hfail
      refine ⟨hring, hown, fun c hc hstrict => ?_⟩
      -- a call that gives up has stored nothing that is not announced
      rcases hallow hstrict with rfl | ⟨hopen, hkilled⟩
      · exact absurd (howed hc).2 (Nat.lt_irrefl _)
      · simp [hopen, hkilled] at hfail
    · rename_i hgo
      have hopen : d.readopen = true := by
        by_contra hno
        exact hgo (.inl (by simpa using hno))
      exact ⟨hring, hown, fun c hc => (howed hc).1, hfull, hopen⟩
  | writeWake addr n i since =>
    obtain ⟨howed, hfull, hopen⟩ := hpc
    exact ⟨hring, hown, Set.eq_empty_of_forall_notMem fun c hc => hc.2 (howed hc.1), hfull, hopen⟩
  | writeSleep addr n i since =>
    obtain ⟨rfl, hfull, hopen⟩ := hpc
    refine ⟨⟨hring, fun c hc => hc.elim⟩, fun _ => ⟨hfull, hopen⟩, fun d hinv hown => ?_, hown⟩
    exact ⟨hinv, hown, le_rfl, Set.empty_subset _⟩
  | writeStore addr n i since =>
    obtain ⟨hle, howed, hroom⟩ := hpc
    refine heldStep_write rfl ⟨hring.store hroom, own_store_self hown, Nat.le_succ_of_le hle, ?_⟩ ?_
    · rintro c (hc | hc)
      · exact ⟨(howed hc).1, Nat.lt_succ_of_lt (howed hc).2⟩
      · exact ⟨owes_store hroom hc, Nat.lt_succ_of_le hle⟩
    · exact fun q hq pc => own_store hq
  | writeEnd | closeWake w => exact ⟨hring, hown, fun c hc => (hc.2 (hpc hc.1)).elim⟩
  | writeFail addr i =>
    refine heldStep_write rfl ⟨hring.finish, own_finish_self hown rfl, ?_⟩
      fun q hq pc => own_finish hq
    rw [owes_finish, Set.union_empty]
    intro c hc hstrict
    cases c with
    | nread | nwrite => exact hpc _ hc hstrict
  | leave => exact ⟨⟨hring, hpc⟩, trivial, hown⟩
  | readWhile n =>
    obtain rfl := hpc
    refine heldStep_read rfl ?_
    by_cases hwait : d.empty = true ∧ d.writeopen = true
    · simp only [hwait, and_self, if_true]
      exact ⟨hring, hown, rfl, hwait⟩
    · simp only [hwait, if_false]
      refine ⟨hring, hown, Set.empty_subset _, fun _ hempty => ?_⟩
      exact Bool.eq_false_iff.2 fun hopen => hwait ⟨hempty, hopen⟩
  | readTest n =>
    obtain ⟨rfl, hwait⟩ := hpc
    intro killed _
    cases killed with
    | false => exact ⟨hring, hown, rfl, hwait⟩
    | true => exact ⟨hring, hown, fun c hc => hc.elim⟩
  | readSleep n =>
    obtain ⟨rfl, hwait⟩ := hpc
    exact ⟨⟨hring, fun c hc => hc.elim⟩, fun _ => hwait, fun d hinv hown => ⟨hinv, hown, rfl⟩, hown⟩
  | readFor n i =>
    obtain ⟨howed, hzero⟩ := hpc
    by_cases hgo : (i : Int) < n ∧ d.empty = false
    · refine heldStep_write (if_pos hgo) ⟨hring.deliver hgo.2, hown, ?_, fun hi => ?_⟩
        fun q _ pc hq => hq
      · exact Set.union_subset howed (owes_deliver hgo.2)
      · cases hi
    · refine heldStep_read (by simp [hgo]) ?_
      simp only [hgo, if_false]
      refine ⟨hring, hown, howed, fun hn hi => ?_⟩
      subst hi
      have hempty : d.empty = true := by
        by_contra hno
        exact hgo ⟨hn, by simpa using hno⟩
      exact ⟨hempty, hzero rfl hempty⟩
  | readEnd n i =>
    obtain ⟨howed, hzero⟩ := hpc
    exact ⟨hring, hown, Set.eq_empty_of_forall_notMem fun c hc => hc.2 (howed hc.1), hzero⟩
  | readLeave n i =>
    obtain ⟨rfl, -⟩ := hpc
    exact ⟨⟨hring, fun c hc => hc.elim⟩, trivial, hown⟩
  | closeSet w =>
    obtain rfl := hpc
    refine heldStep_write rfl ⟨hring.close w, own_close hown, ?_⟩ fun q _ pc => own_close
    rw [Set.empty_union]
    exact owes_close w
  | _ => exact hpc.elim

theorem outline_valid :
    (outline strict).Valid (code (P := P)) entry fun pc d b => strict → Announced pc d b where
  entry := outline_entry
  free := outline_free
  held := outline_held

omit [DecidableEq P] in
theorem ring_boot (junk : Nat → UInt8) : Pipe.Ring { data := junk : Pipe P } :=
  ⟨wrap_zero.symm, wrap_zero.symm, le_rfl, Nat.zero_le _, rfl, Circular.nil⟩

theorem safe_boot {junk : Nat → UInt8} {killed : P → Bool} :
    (outline strict).Safe (boot junk killed) :=
  Outline.safe_of_idle (fun _ => rfl) (fun _ => ⟨.idle, rfl, trivial, rfl⟩) (ring_boot junk)

/-! ## Main results -/

/-- **A pipe is a queue.** However the calls of any number of processes interleave, in every state
the bytes that were delivered are the first of those that were stored, the ring holds the others and
no more than `PIPESIZE`, and the bytes of every process are stored in its order: those of its
finished calls, and then the first ones of the buffer of its call. A call of `piperead` for at least
one byte that returns `0` does so when every byte is delivered and the write end is closed. -/
theorem pipe_fifo {junk : Nat → UInt8} {killed : P → Bool} {s : State P}
    (h : Reachable (Monitor.step code entry) (boot junk killed) s) :
    s.data.delivered <+: s.data.stored.map Prod.snd ∧
      (s.data.nwrite + 2 ^ 32 - s.data.nread) % 2 ^ 32 ≤ PIPESIZE ∧
      (∀ p, s.data.storedBy p = s.data.finished p ++ (Monitor.Place.pc (s.place p)).sent) ∧
      ∀ p n, 0 < n → s.place p = .on (.readLeave n 0) →
        s.data.delivered = s.data.stored.map Prod.snd ∧ s.data.writeopen = false := by
  have hsafe : (outline False).Safe s := by
    refine Outline.safe outline_valid safe_boot (h.mono fun s e _ => ?_)
    cases e with
    | start p pc => trivial
    | turn p => exact fun _ _ hfalse => hfalse.elim
  have hring : s.data.Ring := hsafe.always (fun _ hd => hd) fun _ _ _ _ hheld => hheld.1
  refine ⟨hring.delivered_prefix, hring.count_le, hsafe.own fun _ _ _ _ hheld => hheld.2.1, ?_⟩
  intro p n hn hp
  rcases hsafe.free_or_held hp with ⟨hfree, -⟩ | ⟨owed, -, -, -, hzero⟩
  · exact hfree.elim
  · obtain ⟨hempty, hclosed⟩ := hzero hn rfl
    refine ⟨?_, hclosed⟩
    rw [hring.delivered, hring.empty_iff.1 hempty]
    simp

/-- Whether a process is about to return `0` from `piperead`. -/
def readerAtEnd : Foundation.Place (Pc P) Unit Chan P → Bool
  | .on (.readLeave 1 0) => true
  | _ => false

/-- A byte is stored and read, the write end is closed, and the next call of `piperead` returns
`0`. -/
theorem pipe_fifo_end :
    ∃ s : State (Fin 2),
      Reachable (Monitor.step code entry) (boot (fun _ => 0) fun _ => false) s ∧
      s.data.stored = [(0, 7)] ∧ s.data.delivered = s.data.stored.map Prod.snd := by
  obtain ⟨s, hrun, hs⟩ := exists_run_of_runs (Monitor.step code entry) (fun _ _ => True)
    (boot (P := Fin 2) (fun _ => 0) fun _ => false)
    (.start 0 (.writeEnter (fun _ => 7) 1) :: List.replicate 9 (.turn 0) ++
      .start 0 (.closeEnter true) :: List.replicate 6 (.turn 0) ++
      .start 1 (.readEnter 1) :: List.replicate 8 (.turn 1) ++
      .start 1 (.readEnter 1) :: List.replicate 6 (.turn 1))
    (fun s => decide (s.data.stored = [(0, 7)]) && readerAtEnd (s.place 1)) (by decide +kernel)
  obtain ⟨hstored, hplace⟩ := Bool.and_eq_true_iff.1 hs
  unfold readerAtEnd at hplace
  split at hplace
  · rename_i hplace'
    exact ⟨s, hrun, of_decide_eq_true hstored, ((pipe_fifo hrun).2.2.2 1 1 (by decide) hplace').1⟩
  · cases hplace

/-- **Nobody sleeps on a condition that is met**, in runs in which a call of `pipewrite` that gives
up has announced what it stored: while the pipe's lock is free, who sleeps on `nread` does so at an
empty pipe whose write end is open, and who sleeps on `nwrite` at a full one whose read end is
open. -/
theorem sleepers_wait {junk : Nat → UInt8} {killed : P → Bool} {s : State P}
    (h : Run (Monitor.step code entry) (Monitor.Allowed code Announced) (boot junk killed) s)
    (hlock : s.lock (some ()) = none) :
    (∀ p, Monitor.Place.waitsOn .nread (s.place p) = true →
        s.data.empty = true ∧ s.data.writeopen = true) ∧
      ∀ p, Monitor.Place.waitsOn .nwrite (s.place p) = true →
        s.data.full = true ∧ s.data.readopen = true := by
  have hsafe : (outline True).Safe s := by
    refine Outline.safe outline_valid safe_boot (h.mono fun s e hallow => ?_)
    cases e with
    | start p pc => trivial
    | turn p => exact fun pc hpc _ => hallow pc hpc
  have hwaits := (hsafe.rest hlock).2
  exact ⟨fun p hp => hwaits p .nread hp (Set.notMem_empty _) trivial,
    fun p hp => hwaits p .nwrite hp (Set.notMem_empty _) trivial⟩

/-- Process `0` sleeps at an empty pipe. Process `1` fills it, wakes the readers and sleeps; process
`2` kills it, so that it gives up with all it has stored announced, and then sleeps at the full pipe
itself. -/
theorem sleepers_wait_writer :
    ∃ s : State (Fin 3),
      Run (Monitor.step code entry) (Monitor.Allowed code Announced)
        (boot (fun _ => 0) fun _ => false) s ∧
      s.killed 1 = true ∧ Monitor.Place.waitsOn .nwrite (s.place 2) = true ∧
      s.data.full = true ∧ s.data.readopen = true := by
  obtain ⟨s, hrun, hs⟩ := exists_run_of_runs (Monitor.step code entry)
    (Monitor.Allowed code Announced) (boot (P := Fin 3) (fun _ => 0) fun _ => false)
    (.start 0 (.readEnter 1) :: List.replicate 6 (.turn 0) ++
      .start 1 (.writeEnter (fun _ => 0) 513) :: List.replicate (3 * PIPESIZE + 10) (.turn 1) ++
      .start 2 (.kill 1) :: List.replicate 3 (.turn 2) ++ List.replicate 7 (.turn 1) ++
      .start 2 (.writeEnter (fun _ => 0) 1) :: List.replicate 10 (.turn 2))
    (fun s => decide (s.lock (some ()) = none) && s.killed 1 &&
      Monitor.Place.waitsOn .nwrite (s.place 2)) (by decide +kernel)
  simp only [Bool.and_eq_true, decide_eq_true_eq] at hs
  exact ⟨s, hrun, hs.1.2, hs.2, (sleepers_wait hrun hs.1.1).2 2 hs.2⟩

/-- **A killed writer leaves a reader asleep at a full pipe.** Process `0` sleeps in `piperead`,
process `1` fills the pipe, is killed by process `2` and returns without a wakeup. -/
theorem reader_left_asleep :
    ∃ s : State (Fin 3),
      Reachable (Monitor.step code entry) (boot (fun _ => 0) fun _ => false) s ∧
      s.lock (some ()) = none ∧ Monitor.Place.waitsOn .nread (s.place 0) = true ∧
      s.data.empty = false := by
  obtain ⟨s, hrun, hs⟩ := exists_run_of_runs (Monitor.step code entry) (fun _ _ => True)
    (boot (P := Fin 3) (fun _ => 0) fun _ => false)
    (.start 0 (.readEnter 1) :: List.replicate 6 (.turn 0) ++
      .start 1 (.writeEnter (fun _ => 0) 513) :: List.replicate (3 * PIPESIZE + 3) (.turn 1) ++
      .start 2 (.kill 1) :: List.replicate 3 (.turn 2) ++ List.replicate 3 (.turn 1))
    (fun s => decide (s.lock (some ()) = none) && Monitor.Place.waitsOn .nread (s.place 0) &&
      !s.data.empty) (by decide +kernel)
  simp only [Bool.and_eq_true, decide_eq_true_eq, Bool.not_eq_true'] at hs
  exact ⟨s, hrun, hs.1.1, hs.1.2, hs.2⟩

end

end Xv6.Pipes
