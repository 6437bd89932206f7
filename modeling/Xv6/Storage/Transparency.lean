import Xv6.Storage.Cache

/-! # The buffer cache is transparent

What a buffer holds depends on where the holder of its lock is (`Holds`): its data is what the
clients have left in the block, and the disk has the same unless `B_DIRTY` says that it has not. A
block without a buffer is on the disk, as only buffers are recycled that are neither referred to nor
dirty.

* **`cache_transparent`** — one buffer for a block at most, the ring of buffers is whole in both
  directions, buffers in use are not recycled, and `bread` returns what was last left in the block,
  as long as the clients use no two devices that are the same disk;
* **`aliased_devices`** — devices 1 and 3 are the same disk, and see each other's writes. -/

namespace Xv6.Bcache

open Foundation Storage Function

section

variable {P : Type*}

/-- **What an action can do**, case by case. -/
inductive View.Move (p : P) (i : BufId) (v : View P) : Act → View P → Prop
  | wait {b : Blk} (hpt : v.point = .wait b) (hlock : v.lock = none) :
      v.Move p i .run { v with lock := some p, point := .locked b }
  | cached {b : Blk} (hpt : v.point = .locked b) (hvalid : v.buf.valid = true) :
      v.Move p i .run { v with point := .held b .fresh }
  | read {b : Blk} (hpt : v.point = .locked b) (hvalid : v.buf.valid = false) :
      v.Move p i .run { v with point := .reading b, idequeue := v.idequeue ++ [i] }
  | readDone {b : Blk} (hpt : v.point = .reading b) (hvalid : v.buf.valid = true)
      (hdirty : v.buf.dirty = false) : v.Move p i .run { v with point := .held b .fresh }
  | writeDone {b : Blk} (hpt : v.point = .writing b) (hvalid : v.buf.valid = true)
      (hdirty : v.buf.dirty = false) : v.Move p i .run { v with point := .held b .saved }
  | release {b : Blk} (hpt : v.point = .releasing b) :
      v.Move p i .run { v with
        buf := { v.buf with refcnt := v.buf.refcnt - 1 }
        links := if v.buf.refcnt - 1 = 0 then (v.links.remove i).insertFront i else v.links
        point := .idle }
  | modify {b : Blk} {use : Use} {d : Words} (hpt : v.point = .held b use) :
      v.Move p i (.modify d) { v with buf := { v.buf with data := d }, point := .held b .changed }
  | logWrite {b : Blk} {use : Use} (hpt : v.point = .held b use) :
      v.Move p i .logWrite { v with buf := { v.buf with dirty := true }, point := .held b .saved }
  | bwrite {b : Blk} {use : Use} (hpt : v.point = .held b use) :
      v.Move p i .bwrite { v with
        buf := { v.buf with dirty := true }, point := .writing b, idequeue := v.idequeue ++ [i] }
  | brelse {b : Blk} {use : Use} (hpt : v.point = .held b use) (huse : use ≠ .changed) :
      v.Move p i .brelse { v with lock := none, content := v.buf.data, point := .releasing b }

variable {p : P} {i : BufId} {a : Act} {v v' : View P}

theorem View.iderw_eq_some (h : v.iderw i = some v') :
    v' = { v with idequeue := v.idequeue ++ [i] } := by
  unfold View.iderw at h
  split at h
  · cases h
  · split at h
    · cases h
    · exact (Option.some.inj h).symm

theorem View.run_move (h : v.run p i = some v') : v.Move p i .run v' := by
  unfold View.run at h
  split at h
  case h_1 | h_2 | h_3 => cases h
  case h_4 b hpt =>
    split at h
    · cases h
      exact .wait hpt ‹_›
    · cases h
  case h_5 b hpt =>
    split at h
    · cases h
      exact .cached hpt ‹_›
    · rw [View.iderw_eq_some h]
      exact .read hpt (by simpa using ‹¬ v.buf.valid = true›)
  case h_6 b hpt =>
    split at h
    · rename_i hdone
      cases h
      exact .readDone hpt hdone.1 hdone.2
    · cases h
  case h_7 b hpt =>
    split at h
    · rename_i hdone
      cases h
      exact .writeDone hpt hdone.1 hdone.2
    · cases h
  case h_8 b hpt =>
    cases h
    exact .release hpt

/-- The buffer is done with its request, or has none. -/
def Buf.done (x : Buf) : Bool := x.valid && !x.dirty

/-- A request of the process is in the queue. -/
def Point.waits (pt : Point) (x : Buf) : Bool := pt.asks && !x.done

/-- The process refers to the buffer. -/
def Point.refers (pt : Point) : Bool := pt.blk.isSome

/-- The process refers to the buffer twice. -/
def Point.isStuck : Point → Bool
  | .stuck _ => true
  | _ => false

/-- What every action keeps to. -/
structure View.Keeps (p : P) (i : BufId) (v v' : View P) : Prop where
  blk : v'.buf.blk = v.buf.blk
  refers : v.point.refers = true
  moves : v.point.isStuck = false ∧ v'.point.isStuck = false
  named : v'.point.blk = v.point.blk ∨ v'.point.blk = none
  refcnt : 0 < v.buf.refcnt → v'.buf.refcnt + 1 = v.buf.refcnt + v'.point.refers.toNat
  lock : v'.lock = some p ↔ v'.point.holds = true
  other : ∀ q, p ≠ q → (v'.lock = some q ↔ v.lock = some q)
  /-- Requests are made by the holder of the lock. -/
  queue : v'.idequeue = v.idequeue ∧ v'.point.waits v'.buf = v.point.waits v.buf ∨
    v'.idequeue = v.idequeue ++ [i] ∧ v.point.asks = false ∧ v'.point.waits v'.buf = true ∧
      v.lock = some p
  /-- The flags are changed by the holder of the lock. -/
  flags : v.lock = some p ∨ v'.buf.done = v.buf.done
  links : v'.links = v.links ∨ v'.links = (v.links.remove i).insertFront i

theorem View.Move.keeps (h : v.Move p i a v') (hlock : v.lock = some p ↔ v.point.holds = true) :
    v.Keeps p i v' := by
  obtain ⟨pt, l, x, c, q, r⟩ := v
  cases h <;> obtain rfl : pt = _ := ‹_› <;> constructor <;>
    simp_all [Point.refers, Point.isStuck, Point.blk, Point.holds, Point.asks, Point.waits,
      Buf.done] <;>
    omega

/-! ## The data -/

/-- The data is what the clients have left, `c`, and so is the disk, `d`, unless the buffer is
dirty. -/
def Settled (x : Buf) (c d : Words) : Prop :=
  (x.valid = true → x.data = c) ∧ (x.dirty = true → x.valid = true) ∧ (x.dirty = false → c = d)

/-- **What a buffer holds** while the holder of its lock is at a point, `idle` if the lock is
free. -/
def Holds : Point → Buf → (c d : Words) → Prop
  | .reading _, x, c, d => x.dirty = false ∧ Settled x c d
  | .held _ .fresh, x, c, d => x.valid = true ∧ Settled x c d
  | .held _ .changed, x, _, _ | .stuck _, x, _, _ => x.valid = true
  | .held _ .saved, x, _, d | .writing _, x, _, d => x.valid = true ∧ (x.dirty = false → x.data = d)
  | _, x, c, d => Settled x c d

variable {x : Buf} {c d : Words}

theorem Holds.valid {b : Blk} {use : Use} (h : Holds (.held b use) x c d) : x.valid = true := by
  cases use with
  | fresh | saved => exact h.1
  | changed => exact h

theorem Holds.congr_refcnt {pt : Point} {x' : Buf} (h : Holds pt x c d)
    (hx : x'.valid = x.valid ∧ x'.dirty = x.dirty ∧ x'.data = x.data) : Holds pt x' c d := by
  obtain ⟨blk, valid, dirty, n, data⟩ := x'
  obtain ⟨rfl, rfl, rfl⟩ := hx
  cases pt with
  | held b use => cases use <;> exact h
  | _ => exact h

/-- **The disk does the request** that the holder waits for. -/
theorem Holds.complete {pt : Point} (h : Holds pt x c d) (hwaits : pt.waits x = true) :
    Holds pt { x with data := if x.dirty then x.data else d, valid := true, dirty := false } c
      (if x.dirty then x.data else d) := by
  cases pt with
  | reading b =>
    obtain ⟨hdirty, -, -, hcd⟩ := h
    simp [Holds, Settled, hdirty, hcd hdirty]
  | writing b => simp [Holds]
  | _ => simp [Point.waits, Point.asks] at hwaits

variable [DecidableEq P]

theorem View.next_move (h : v.next p i a = some v') : v.Move p i a v' := by
  cases a with
  | run => exact View.run_move h
  | modify d =>
    simp only [View.next] at h
    split at h
    · rename_i b use hpt
      cases h
      exact .modify hpt
    · cases h
  | logWrite =>
    simp only [View.next] at h
    split at h
    · rename_i b use hpt
      cases h
      exact .logWrite hpt
    · cases h
  | bwrite =>
    simp only [View.next] at h
    split at h
    · rename_i b use hpt
      split at h
      · cases h
      · rw [View.iderw_eq_some h]
        exact .bwrite hpt
    · cases h
  | brelse =>
    simp only [View.next] at h
    split at h
    · rename_i b use hpt
      split at h
      · cases h
      · rename_i hnot
        cases h
        exact .brelse hpt fun huse => hnot (Or.inr huse)
    · cases h

theorem View.Move.holds (h : v.Move p i a v') (hlock : v.lock = some p ↔ v.point.holds = true)
    {o : P → Point} {d : Words}
    (hv : Holds (holderOf .idle v.lock p v.point o) v.buf v.content d) :
    Holds (holderOf .idle v'.lock p v'.point o) v'.buf v'.content d := by
  obtain ⟨pt, l, x, c, q, r⟩ := v
  cases h with
  | brelse hpt huse =>
    obtain rfl : pt = _ := hpt
    obtain rfl : l = some p := hlock.2 rfl
    rename_i b use
    rw [holderOf_self] at hv
    -- what is released was read, or saved
    cases use with
    | fresh => exact ⟨fun _ => rfl, hv.2.2.1, fun hdirty => (hv.2.1 hv.1).trans (hv.2.2.2 hdirty)⟩
    | changed => exact absurd rfl huse
    | saved => exact ⟨fun _ => rfl, fun _ => hv.1, hv.2⟩
  | modify hpt | logWrite hpt | bwrite hpt =>
    obtain rfl : pt = _ := hpt
    obtain rfl : l = some p := hlock.2 rfl
    rw [holderOf_self] at hv ⊢
    have hvalid := hv.valid
    simp_all [Holds]
  | release hpt =>
    obtain rfl : pt = _ := hpt
    have hne : l ≠ some p := fun heq => absurd (hlock.1 heq) nofun
    have hsame : ∀ t, holderOf .idle l p t o = holderOf .idle l p (.releasing default) o := by
      intro t
      cases l with
      | none => rfl
      | some q =>
        have hq : q ≠ p := fun heq => hne (by rw [heq])
        simp [holderOf, hq]
    rw [hsame] at hv ⊢
    exact hv.congr_refcnt ⟨rfl, rfl, rfl⟩
  | _ =>
    obtain rfl : pt = _ := ‹_›
    cases l <;> simp_all [holderOf, Holds, Settled, Point.holds]

end

namespace Cache

variable {P : Type*}

/-- Where the holder of the lock of a buffer is. -/
def holder (s : Cache P) (i : BufId) : Point := Foundation.holder .idle s.lock s.point i

variable [Fintype P]

/-- The references of the processes to a buffer. -/
def refs (s : Cache P) (i : BufId) : Nat :=
  references (users Point.refers s.point) i + references (users Point.isStuck s.point) i

/-- **The invariant**, when the clients use the devices `D`. -/
structure Ok (D : Set Nat) (s : Cache P) : Prop where
  ring : ∃ l, s.links.Ring l ∧ ∀ i, i ∈ l
  known : ∀ i, (s.buf i).blk.1 ∈ D ∨ (s.buf i).blk = (0, 0)
  unique : ∀ i j, (s.buf i).blk.1 ∈ D → (s.buf i).blk = (s.buf j).blk → i = j
  refs : ∀ i, (s.buf i).refcnt = s.refs i
  locks : ∀ p i, s.lock i = some p ↔ (s.point (p, i)).holds = true
  named : ∀ p i b, (s.point (p, i)).blk = some b → (s.buf i).blk = b ∧ b.1 ∈ D
  nodup : s.idequeue.Nodup
  queue : ∀ i, i ∈ s.idequeue ↔ ∃ p, (s.point (p, i)).waits (s.buf i) = true
  data : ∀ i, (s.buf i).blk.1 ∈ D →
    Holds (s.holder i) (s.buf i) (s.content (s.buf i).blk) (s.disk (place (s.buf i).blk))
  /-- A block without a buffer is on the disk. -/
  out : ∀ b, b.1 ∈ D → (∀ i, (s.buf i).blk ≠ b) → s.content b = s.disk (place b)

section

variable {D : Set Nat} {s s' : Cache P} {p : P} {i : BufId}

theorem Ok.walks (h : s.Ok D) :
    (∀ i, i ∈ Links.walk s.links.next NBUF (s.links.next none)) ∧
      ∀ i, i ∈ Links.walk s.links.prev NBUF (s.links.prev none) := by
  obtain ⟨l, hring, hall⟩ := h.ring
  have hlen : l.length ≤ NBUF := by
    simpa using hring.nodup.length_le_card
  rw [hring.walk_next hlen, hring.walk_prev hlen]
  exact ⟨hall, fun i => List.mem_reverse.2 (hall i)⟩

theorem Ok.free (h : s.Ok D) (href : (s.buf i).refcnt = 0) :
    s.lock i = none ∧ (∀ p, s.point (p, i) = .idle) ∧ i ∉ s.idequeue := by
  rw [h.refs] at href
  have hidle : ∀ p, s.point (p, i) = .idle := by
    intro p
    have hnot := references_users_eq_zero (Nat.add_eq_zero_iff.1 href).1 p
    cases hpt : s.point (p, i) <;> simp_all [Point.refers, Point.blk]
  refine ⟨?_, hidle, ?_⟩
  · rcases hlock : s.lock i with _ | p
    · rfl
    · rw [h.locks, hidle] at hlock
      cases hlock
  · rw [h.queue]
    rintro ⟨p, hp⟩
    rw [hidle] at hp
    cases hp

theorem Ok.lock_of_waits (h : s.Ok D) (hp : (s.point (p, i)).waits (s.buf i) = true) :
    s.lock i = some p := by
  rw [h.locks]
  cases hpt : s.point (p, i) <;> simp_all [Point.waits, Point.asks, Point.holds]

/-- **One buffer changes.** What holds of the others still holds; `h` is to be shown of the one. -/
theorem Ok.change (h : s.Ok D) (hbuf : ∀ j ≠ i, s'.buf j = s.buf j)
    (hlock : ∀ j ≠ i, s'.lock j = s.lock j)
    (hpoint : ∀ q, ∀ j ≠ i, s'.point (q, j) = s.point (q, j))
    (hmem : ∀ j ≠ i, j ∈ s'.idequeue ↔ j ∈ s.idequeue)
    (hin : (s'.buf i).blk.1 ∈ D) (hfresh : ∀ j ≠ i, (s.buf j).blk ≠ (s'.buf i).blk)
    (hleft : ∀ b, b.1 ∈ D → b ≠ (s'.buf i).blk →
      s'.content b = s.content b ∧ s'.disk (place b) = s.disk (place b))
    (hout : (s.buf i).blk.1 ∈ D → (s.buf i).blk ≠ (s'.buf i).blk →
      s.content (s.buf i).blk = s.disk (place (s.buf i).blk))
    (hring : ∃ l, s'.links.Ring l ∧ ∀ i, i ∈ l) (hnodup : s'.idequeue.Nodup)
    (hrefs : (s'.buf i).refcnt = s'.refs i)
    (hlocks : ∀ p, s'.lock i = some p ↔ (s'.point (p, i)).holds = true)
    (hnamed : ∀ p b, (s'.point (p, i)).blk = some b → (s'.buf i).blk = b)
    (hqueue : i ∈ s'.idequeue ↔ ∃ p, (s'.point (p, i)).waits (s'.buf i) = true)
    (hdata : Holds (s'.holder i) (s'.buf i) (s'.content (s'.buf i).blk)
      (s'.disk (place (s'.buf i).blk))) :
    s'.Ok D := by
  constructor
  · exact hring
  · intro j
    rcases eq_or_ne j i with rfl | hj
    · exact .inl hin
    · rw [hbuf j hj]
      exact h.known j
  · intro j k hj heq
    rcases eq_or_ne j i with rfl | hji
    · by_contra hne
      rw [hbuf k (Ne.symm hne)] at heq
      exact hfresh k (Ne.symm hne) heq.symm
    rw [hbuf j hji] at hj heq
    rcases eq_or_ne k i with rfl | hki
    · exact absurd heq (hfresh j hji)
    · exact h.unique j k hj (heq.trans (by rw [hbuf k hki]))
  · intro j
    rcases eq_or_ne j i with rfl | hj
    · exact hrefs
    · rw [hbuf j hj, h.refs, Cache.refs, Cache.refs, references_users_congr fun p => hpoint p j hj,
        references_users_congr fun p => hpoint p j hj]
  · intro p j
    rcases eq_or_ne j i with rfl | hj
    · exact hlocks p
    · rw [hlock j hj, hpoint p j hj]
      exact h.locks p j
  · intro p j b hb
    rcases eq_or_ne j i with rfl | hj
    · obtain rfl := hnamed p b hb
      exact ⟨rfl, hin⟩
    · rw [hpoint p j hj] at hb
      rw [hbuf j hj]
      exact h.named p j b hb
  · exact hnodup
  · intro j
    rcases eq_or_ne j i with rfl | hj
    · exact hqueue
    · rw [hmem j hj, h.queue, hbuf j hj]
      exact exists_congr fun p => by rw [hpoint p j hj]
  · intro j hj
    rcases eq_or_ne j i with rfl | hji
    · exact hdata
    rw [hbuf j hji] at hj ⊢
    obtain ⟨hcontent, hdisk⟩ := hleft _ hj (hfresh j hji)
    rw [hcontent, hdisk, show s'.holder j = s.holder j from holder_congr (hlock j hji) fun p =>
      hpoint p j hji]
    exact h.data j hj
  · intro b hb hnot
    obtain ⟨hcontent, hdisk⟩ := hleft b hb (hnot i).symm
    rw [hcontent, hdisk]
    by_cases hbi : (s.buf i).blk = b
    · subst hbi
      exact hout hb (hnot i).symm
    · refine h.out b hb fun j => ?_
      rcases eq_or_ne j i with rfl | hj
      · exact hbi
      · rw [← hbuf j hj]
        exact hnot j

theorem Ok.complete (h : s.Ok D) (hD : ∀ d ∈ D, ∀ d' ∈ D, d % 2 = d' % 2 → d = d') {q : List BufId}
    (hq : s.idequeue = i :: q) : (s.complete i q).Ok D := by
  obtain ⟨p, hp⟩ := (h.queue i).1 (by rw [hq]; exact List.mem_cons_self)
  have hlock := h.lock_of_waits hp
  have hnodup := h.nodup
  rw [hq] at hnodup
  obtain ⟨hi, hnodup⟩ := List.nodup_cons.1 hnodup
  have hblk : ((s.complete i q).buf i).blk = (s.buf i).blk := by simp
  have hin : (s.buf i).blk.1 ∈ D := by
    obtain ⟨b, hb⟩ : ∃ b, (s.point (p, i)).blk = some b := by
      cases hpt : s.point (p, i) <;> simp_all [Point.waits, Point.asks, Point.blk]
    obtain ⟨heq, hbD⟩ := h.named p i b hb
    rwa [heq]
  refine h.change (i := i) (fun j hj => by simp [hj]) (fun _ _ => rfl) (fun _ _ _ => rfl)
      ?_ (hblk ▸ hin) ?_ ?_
    (fun _ hne => absurd hblk.symm hne) h.ring hnodup ?_ (fun p => h.locks p i) ?_ ?_ ?_
  · intro j hj
    rw [hq]
    simp [hj]
  · rw [hblk]
    exact fun j hj heq => hj (h.unique i j hin heq.symm).symm
  · -- no other block of the devices in use is at that place on the disk
    intro b hb hne
    rw [hblk] at hne
    have hplace : place b ≠ place (s.buf i).blk := by
      intro heq
      obtain ⟨h1, h2⟩ := Prod.mk.inj heq
      exact hne (Prod.ext (hD _ hb _ hin h1) h2)
    refine ⟨rfl, ?_⟩
    rw [complete_disk]
    split
    · rw [update_of_ne hplace]
    · rfl
  · rw [show (s.complete i q).refs i = s.refs i from rfl]
    simpa using h.refs i
  · rw [hblk]
    exact fun p b hb => (h.named p i b hb).1
  · simp [hi, Point.waits, Buf.done]
  · have hdata := h.data i hin
    have hholder : s.holder i = s.point (p, i) := by rw [holder, Foundation.holder, hlock]
    rw [hholder] at hdata
    have hd : (s.complete i q).disk (place (s.buf i).blk)
        = if (s.buf i).dirty then (s.buf i).data else s.disk (place (s.buf i).blk) := by
      rw [complete_disk]
      split <;> simp
    rw [hblk, hd, show (s.complete i q).holder i = s.point (p, i) from hholder]
    simpa using hdata.complete hp

theorem boot_ok (h0 : 0 ∉ D) (disk : Nat × Nat → Words) : (boot disk : Cache P).Ok D := by
  have hrefs : ∀ i, (boot disk : Cache P).refs i = 0 := fun i => Nat.add_eq_zero_iff.2
    ⟨references_eq_zero.2 fun _ => nofun, references_eq_zero.2 fun _ => nofun⟩
  constructor
  · refine ⟨_, Links.alone_ring.insertAll (by simpa using List.nodup_finRange NBUF), fun i => ?_⟩
    simp
  · exact fun _ => Or.inr rfl
  · exact fun _ _ hin => absurd hin h0
  · exact fun i => (hrefs i).symm
  · exact fun _ _ => by simp [boot, Point.holds]
  · exact nofun
  · exact List.nodup_nil
  · exact fun _ => by simp [boot, Point.waits, Point.asks]
  · exact fun _ hin => absurd hin h0
  · exact fun _ _ _ => rfl

variable [DecidableEq P] {pt : Point}

theorem Ok.holder_hand (h : s.Ok D) (hidle : s.point (p, i) = .idle) (x : Buf) (pt : Point)
    (j : BufId) : (s.hand p i x pt).holder j = s.holder j := by
  unfold holder Foundation.holder
  rw [hand_lock, hand_point]
  split
  · rfl
  · rename_i q hq
    have hne : (q, j) ≠ (p, i) := by
      rintro heq
      rw [h.locks, heq, hidle] at hq
      cases hq
    rw [update_of_ne hne]

theorem refs_update {t : Cache P} (hpoint : t.point = update s.point (p, i) pt) :
    t.refs i + ((s.point (p, i)).refers.toNat + (s.point (p, i)).isStuck.toNat)
      = s.refs i + (pt.refers.toNat + pt.isStuck.toNat) := by
  have hrefers := references_users_update Point.refers s.point p i pt i
  have hstuck := references_users_update Point.isStuck s.point p i pt i
  rw [if_pos rfl, if_pos rfl] at hrefers hstuck
  rw [refs, refs, hpoint]
  omega

/-- **`bget`** hands out a buffer, with one more reference to it. -/
theorem Ok.hand (h : s.Ok D) {x : Buf} {b : Blk} (hb : b.1 ∈ D) (hpt : pt.blk = some b)
    (hasks : pt.asks = false ∧ (s.point (p, i)).asks = false)
    (hholds : pt.holds = (s.point (p, i)).holds)
    (hrefers : pt.refers.toNat + pt.isStuck.toNat
      = (s.point (p, i)).refers.toNat + (s.point (p, i)).isStuck.toNat + 1)
    (hx : x.blk = b) (href : x.refcnt = (s.buf i).refcnt + 1)
    (hfresh : ∀ j ≠ i, (s.buf j).blk ≠ b)
    (hothers : ∀ q, s.point (q, i) = .idle ∨ (s.buf i).blk = b ∧ x.done = (s.buf i).done)
    (hdata : Holds ((s.hand p i x pt).holder i) x (s.content b) (s.disk (place b)))
    (hout : (s.buf i).blk.1 ∈ D → (s.buf i).blk ≠ b →
      s.content (s.buf i).blk = s.disk (place (s.buf i).blk)) : (s.hand p i x pt).Ok D := by
  have hself : (s.hand p i x pt).buf i = x := by simp
  have hpoint : ∀ q ≠ p, (s.hand p i x pt).point (q, i) = s.point (q, i) := fun q hq => by simp [hq]
  refine h.change (i := i) (fun j hj => by simp [hj]) (fun _ _ => rfl) (fun q j hj => by simp [hj])
    (fun _ _ => Iff.rfl) ?_ ?_ (fun _ _ _ => ⟨rfl, rfl⟩) ?_ h.ring h.nodup ?_ ?_ ?_ ?_ ?_
  · rwa [hself, hx]
  · rwa [hself, hx]
  · rwa [hself, hx]
  · have hcount := refs_update (t := s.hand p i x pt) rfl
    have hold := h.refs i
    rw [hself]
    omega
  · intro q
    rw [hand_lock, h.locks]
    rcases eq_or_ne q p with rfl | hq
    · rw [hand_point, update_self, hholds]
    · rw [hpoint q hq]
  · intro q c hc
    rw [hself, hx]
    rcases eq_or_ne q p with rfl | hq
    · rw [hand_point, update_self, hpt] at hc
      exact Option.some.inj hc
    · rw [hpoint q hq] at hc
      rcases hothers q with hq' | ⟨hsame, -⟩
      · rw [hq'] at hc
        cases hc
      · exact hsame.symm.trans (h.named q i c hc).1
  · rw [hand_idequeue, hself, h.queue]
    refine exists_congr fun q => ?_
    rcases eq_or_ne q p with rfl | hq
    · rw [hand_point, update_self, Point.waits, Point.waits, hasks.1, hasks.2]
      simp
    · rw [hpoint q hq]
      rcases hothers q with hq' | ⟨-, hdone⟩
      · rw [hq']
        simp [Point.waits, Point.asks]
      · rw [Point.waits, Point.waits, hdone]
  · rw [hself, hx]
    exact hdata

theorem Ok.bget (h : s.Ok D) {b : Blk} (hb : b.1 ∈ D) (hget : s.bget p b = some s') : s'.Ok D := by
  unfold Cache.bget at hget
  split at hget
  case h_1 i hi =>
    have hblk : (s.buf i).blk = b := by simpa using List.find?_some hi
    have hfresh : ∀ j ≠ i, (s.buf j).blk ≠ b :=
      fun j hj heq => hj (h.unique j i (by rwa [heq]) (heq.trans hblk.symm))
    have hdata := h.data i (by rwa [hblk])
    rw [hblk] at hdata
    dsimp only at hget
    split at hget
    · rename_i hidle
      cases hget
      refine h.hand hb rfl (by rw [hidle]; exact ⟨rfl, rfl⟩) (by rw [hidle]; rfl)
          (by rw [hidle]; rfl)
        hblk rfl hfresh (fun q => Or.inr ⟨hblk, rfl⟩) ?_ fun _ hne => absurd hblk hne
      rw [h.holder_hand hidle]
      exact hdata.congr_refcnt ⟨rfl, rfl, rfl⟩
    · rename_i c use hheld
      cases hget
      have hlock : s.lock i = some p := (h.locks p i).2 (by rw [hheld]; rfl)
      refine h.hand hb rfl (by rw [hheld]; exact ⟨rfl, rfl⟩) (by rw [hheld]; rfl)
          (by rw [hheld]; rfl)
        hblk rfl hfresh (fun q => Or.inr ⟨hblk, rfl⟩) ?_ fun _ hne => absurd hblk hne
      have hholder : s.holder i = .held c use := by
        rw [holder, Foundation.holder, hlock]
        exact hheld
      have hstuck : (s.hand p i { s.buf i with refcnt := (s.buf i).refcnt + 1 }
          (.stuck b)).holder i = .stuck b := by
        rw [holder, Foundation.holder, hand_lock, hlock, hand_point]
        exact update_self ..
      rw [hholder] at hdata
      rw [hstuck]
      exact hdata.valid
    · cases hget
  case h_2 hnone =>
    have hnot : ∀ j, (s.buf j).blk ≠ b := by
      intro j
      simpa using List.find?_eq_none.1 hnone j (h.walks.1 j)
    split at hget
    · cases hget
    · rename_i i hi
      cases hget
      have hfree : (s.buf i).refcnt = 0 ∧
        (s.buf i).dirty = false := by simpa using List.find?_some hi
      obtain ⟨hlock, hidle, -⟩ := h.free hfree.1
      have hholder : s.holder i = .idle := by rw [holder, Foundation.holder, hlock]
      refine h.hand hb rfl (by rw [hidle]; exact ⟨rfl, rfl⟩) (by rw [hidle]; rfl)
          (by rw [hidle]; rfl)
        rfl (by rw [hfree.1]) (fun j _ => hnot j) (fun q => Or.inl (hidle q)) ?_ fun hD _ => ?_
      -- the block had no buffer, so it is on the disk
      · rw [h.holder_hand (hidle p), hholder]
        exact ⟨nofun, nofun, fun _ => h.out b hb hnot⟩
      -- the block that had this buffer is on the disk, as it was not dirty
      · have hdata := h.data i hD
        rw [hholder] at hdata
        exact hdata.2.2 hfree.2

variable {v : View P}

omit [DecidableEq P] in
theorem Ok.ring_act (h : s.Ok D) (hkeeps : (s.view p i).Keeps p i v) :
    ∃ l, v.links.Ring l ∧ ∀ j, j ∈ l := by
  obtain ⟨l, hring, hall⟩ := h.ring
  rcases hkeeps.links with hsame | hmoved
  · exact ⟨l, by rw [hsame]; exact hring, hall⟩
  · obtain ⟨l1, l2, rfl⟩ := List.append_of_mem (hall i)
    have hout : i ∉ l1 ++ l2 := by
      have hnodup := hring.nodup
      rw [List.nodup_middle] at hnodup
      exact (List.nodup_cons.1 hnodup).1
    refine ⟨i :: (l1 ++ l2), ?_, fun j => ?_⟩
    · rw [hmoved]
      exact hring.remove.insertFront hout
    · have := hall j
      simp only [List.mem_append, List.mem_cons] at this ⊢
      tauto

omit [DecidableEq P] in
theorem Ok.nodup_act (h : s.Ok D) (hkeeps : (s.view p i).Keeps p i v) : v.idequeue.Nodup := by
  rcases hkeeps.queue with ⟨hsame, -⟩ | ⟨hadd, hasks, -, hlock⟩
  · rw [hsame]
    exact h.nodup
  · rw [hadd, List.nodup_append]
    refine ⟨h.nodup, List.nodup_singleton i, fun j hj k hk => ?_⟩
    obtain rfl := List.mem_singleton.1 hk
    rintro rfl
    -- a request in the queue would be by the holder of the lock, who makes it only now
    obtain ⟨q, hq⟩ := (h.queue j).1 hj
    obtain rfl : q = p := Option.some.inj ((h.lock_of_waits hq).symm.trans hlock)
    rw [view_point] at hasks
    simp [Point.waits, hasks] at hq

theorem Ok.queue_act (h : s.Ok D) (hkeeps : (s.view p i).Keeps p i v) :
    i ∈ (s.store p i v).idequeue ↔
      ∃ q, ((s.store p i v).point (q, i)).waits ((s.store p i v).buf i) = true := by
  rw [store_idequeue, store_buf, update_self, store_point]
  rcases hkeeps.queue with ⟨hsame, hwaits⟩ | ⟨hadd, -, hwait, -⟩
  · rw [hsame, view_idequeue, h.queue]
    refine exists_congr fun q => ?_
    rcases eq_or_ne q p with rfl | hq
    · rw [update_self, hwaits]
      rfl
    rw [update_of_ne fun heq => hq (Prod.mk.inj heq).1]
    cases hasks : (s.point (q, i)).asks with
    | false => rw [Point.waits, Point.waits, hasks, Bool.false_and, Bool.false_and]
    | true =>
      -- another process with a request for this buffer holds the lock
      have hlock : s.lock i = some q := by
        rw [h.locks]
        cases hpt : s.point (q, i) <;> simp_all [Point.asks, Point.holds]
      rcases hkeeps.flags with hself | hdone
      · rw [view_lock, hlock] at hself
        exact absurd (Option.some.inj hself) hq
      · rw [Point.waits, Point.waits, hdone, view_buf]
  · rw [hadd]
    refine ⟨fun _ => ⟨p, ?_⟩, fun _ => List.mem_append_right _ (List.mem_singleton_self i)⟩
    rwa [update_self]

theorem Ok.act (h : s.Ok D) {a : Act} (hmove : (s.view p i).Move p i a v) :
    (s.store p i v).Ok D := by
  have hkeeps := hmove.keeps (h.locks p i)
  have hself : (s.store p i v).buf i = v.buf := by simp
  have hblk : v.buf.blk = (s.buf i).blk := hkeeps.blk
  have hpoint : ∀ q ≠ p, (s.store p i v).point (q, i) = s.point (q, i) := fun q hq => by simp [hq]
  have hpoint' : (s.store p i v).point (p, i) = v.point := by simp
  obtain ⟨b, hb⟩ := Option.isSome_iff_exists.1 hkeeps.refers
  obtain ⟨hib, hbD⟩ := h.named p i b hb
  have hin : (s.buf i).blk.1 ∈ D := by rwa [hib]
  refine h.change (i := i) (fun j hj => by simp [hj]) (fun j hj => by simp [hj])
      (fun q j hj => by simp [hj])
    ?_ ?_ ?_ ?_ ?_ (h.ring_act hkeeps) (h.nodup_act hkeeps) ?_ ?_ ?_ (h.queue_act hkeeps) ?_
  · intro j hj
    rw [store_idequeue]
    rcases hkeeps.queue with ⟨hsame, -⟩ | ⟨hadd, -⟩
    · rw [hsame, view_idequeue]
    · rw [hadd, view_idequeue, List.mem_append, List.mem_singleton]
      tauto
  · rwa [hself, hblk]
  · rw [hself, hblk]
    exact fun j hj heq => hj (h.unique i j hin heq.symm).symm
  · rw [hself, hblk]
    exact fun c _ hne => ⟨update_of_ne hne _ _, rfl⟩
  · rw [hself, hblk]
    exact fun _ hne => absurd rfl hne
  · have hcount := refs_update (t := s.store p i v) rfl
    have hold := h.refs i
    have href := hkeeps.refcnt
      (by rw [view_buf, hold]; exact Nat.add_pos_left (references_users_pos hkeeps.refers) _)
    rw [show (s.point (p, i)).refers = true from hkeeps.refers,
      show (s.point (p, i)).isStuck = false from hkeeps.moves.1, hkeeps.moves.2] at hcount
    rw [hself]
    rw [view_buf] at href
    simp only [Bool.toNat_true, Bool.toNat_false] at hcount
    omega
  · intro q
    rw [store_lock, update_self]
    rcases eq_or_ne q p with rfl | hq
    · rw [hpoint']
      exact hkeeps.lock
    · rw [hpoint q hq, hkeeps.other q (Ne.symm hq)]
      exact h.locks q i
  · intro q c hc
    rw [hself, hblk]
    rcases eq_or_ne q p with rfl | hq
    · rw [hpoint'] at hc
      rcases hkeeps.named with hsame | hnone
      · exact (h.named q i c (by rw [← hc, hsame]; rfl)).1
      · rw [hnone] at hc
        cases hc
    · rw [hpoint q hq] at hc
      exact (h.named q i c hc).1
  · rw [show (s.store p i v).holder i = holderOf .idle v.lock p v.point fun q => s.point (q, i) from
      holder_update_self, hself, hblk, store_content, update_self]
    refine hmove.holds (h.locks p i) ?_
    have hdata := h.data i hin
    rwa [holder, holder_eq_holderOf p] at hdata

/-- The clients use the devices `D` only. -/
def Uses (D : Set Nat) (_ : Cache P) : Event P → Prop
  | .bread _ b => b.1 ∈ D
  | _ => True

theorem Ok.step (h : s.Ok D) (hD : ∀ d ∈ D, ∀ d' ∈ D, d % 2 = d' % 2 → d = d') {ev : Event P}
    (huses : s.Uses D ev) (hstep : s.step ev = some s') : s'.Ok D := by
  cases ev with
  | bread p b => exact h.bget huses hstep
  | act p i a =>
    simp only [Cache.step, Option.map_eq_some_iff] at hstep
    obtain ⟨v, hnext, rfl⟩ := hstep
    exact h.act (View.next_move hnext)
  | ideintr =>
    simp only [Cache.step, Cache.ideintr] at hstep
    split at hstep
    · cases hstep
    · rename_i i q hq
      split at hstep
      · cases hstep
      · cases hstep
        exact h.complete hD hq

/-- **What a transparent cache promises.** -/
structure Transparent (s : Cache P) : Prop where
  /-- A block has one buffer at most. -/
  unique : ∀ i j, (s.buf i).blk.1 ≠ 0 → (s.buf i).blk = (s.buf j).blk → i = j
  /-- The ring has all buffers, in both directions. -/
  ring : ∃ l, s.links.Ring l ∧ l.Perm (List.finRange NBUF)
  /-- A buffer that is referred to or dirty is not recycled. -/
  kept : ∀ ev s', s.step ev = some s' → ∀ i, (s'.buf i).blk ≠ (s.buf i).blk →
    (s.buf i).refcnt = 0 ∧ (s.buf i).dirty = false
  /-- `bread` returns the block asked for, as it was last left. -/
  returned : ∀ p i b, s.point (p, i) = .held b .fresh →
    (s.buf i).blk = b ∧ (s.buf i).data = s.content b

theorem Ok.kept (h : s.Ok D) {ev : Event P} (hstep : s.step ev = some s') {i : BufId}
    (hne : (s'.buf i).blk ≠ (s.buf i).blk) : (s.buf i).refcnt = 0 ∧ (s.buf i).dirty = false := by
  cases ev with
  | bread p b =>
    simp only [Cache.step, Cache.bget] at hstep
    split at hstep
    · rename_i j _
      split at hstep
      case h_3 => cases hstep
      all_goals
        cases hstep
        by_cases hij : i = j
        · subst hij
          simp at hne
        · simp [hij] at hne
    · split at hstep
      · cases hstep
      · rename_i j hj
        cases hstep
        by_cases hij : i = j
        · subst hij
          simpa using List.find?_some hj
        · simp [hij] at hne
  | act p j a =>
    simp only [Cache.step, Option.map_eq_some_iff] at hstep
    obtain ⟨v, hnext, rfl⟩ := hstep
    have hkeeps := (View.next_move hnext).keeps (h.locks p j)
    by_cases hij : i = j
    · subst hij
      exact absurd hkeeps.blk (by simpa using hne)
    · simp [hij] at hne
  | ideintr =>
    simp only [Cache.step, Cache.ideintr] at hstep
    split at hstep
    · cases hstep
    · rename_i j q hq
      split at hstep
      · cases hstep
      · cases hstep
        by_cases hij : i = j
        · subst hij
          simp at hne
        · simp [hij] at hne

/-- **The cache is transparent**, whatever any processes do that use no device 0 and no two devices
that are the same disk. -/
theorem cache_transparent {disk : Nat × Nat → Words} (h0 : 0 ∉ D)
    (hD : ∀ d ∈ D, ∀ d' ∈ D, d % 2 = d' % 2 → d = d') (h : Run step (Uses D) (boot disk) s) :
    s.Transparent := by
  have hok : s.Ok D :=
    h.invariant (Ok D) (boot_ok h0 disk) fun _ _ _ hok huses hstep => hok.step hD huses hstep
  constructor
  · intro i j hne heq
    rcases hok.known i with hin | hzero
    · exact hok.unique i j hin heq
    · rw [hzero] at hne
      exact absurd rfl hne
  · obtain ⟨l, hring, hall⟩ := hok.ring
    refine ⟨l, hring, ?_⟩
    rw [List.perm_ext_iff_of_nodup hring.nodup (List.nodup_finRange _)]
    exact fun i => ⟨fun _ => List.mem_finRange i, fun _ => hall i⟩
  · exact fun ev s' hstep i hne => hok.kept hstep hne
  · intro p i b hp
    obtain ⟨hblk, hin⟩ := hok.named p i b (by rw [hp]; rfl)
    have hdata := hok.data i (by rwa [hblk])
    have hholder : s.holder i = .held b .fresh := by
      rw [holder, Foundation.holder, (hok.locks p i).2 (by rw [hp]; rfl)]
      exact hp
    rw [hholder, hblk] at hdata
    exact ⟨hblk, hdata.2.1 hdata.1⟩

instance [DecidablePred (· ∈ D)] (s : Cache P) : DecidablePred (s.Uses D)
  | .bread _ b => inferInstanceAs (Decidable (b.1 ∈ D))
  | .act _ _ _ | .ideintr => isTrue trivial

/-- A block is read from the disk into the buffer `i`. -/
def readIn (i : BufId) (b : Blk) : List (Event Unit) :=
  [.bread () b, .act () i .run, .act () i .run, .ideintr, .act () i .run]

/-- The client fills it with sevens, writes it to the disk and releases it. -/
def overwrite (i : BufId) : List (Event Unit) :=
  [.act () i (.modify fun _ => 7), .act () i .bwrite, .ideintr, .act () i .run, .act () i .brelse,
    .act () i .run]

/-- A block is written, and read again from its buffer. -/
theorem cache_transparent_written : ∃ s : Cache Unit, Run step (Uses {1}) (boot fun _ _ => 0) s ∧
    s.point ((), 0) = .held (1, 5) .fresh ∧ (s.buf 0).data 0 = 7 ∧ s.Transparent := by
  obtain ⟨s, hrun, hs⟩ := exists_run_of_runs step (Uses {1}) (boot fun _ _ => 0 : Cache Unit)
    (readIn 0 (1, 5) ++ overwrite 0 ++ [.bread () (1, 5), .act () 0 .run, .act () 0 .run])
    (fun s => s.point ((), 0) = .held (1, 5) .fresh ∧ (s.buf 0).data 0 = 7) (by decide +kernel)
  simp only [decide_eq_true_eq] at hs
  refine ⟨s, hrun, hs.1, hs.2, cache_transparent (D := {1}) (by simp) ?_ hrun⟩
  intro d hd d' hd' _
  rw [Set.mem_singleton_iff.1 hd, Set.mem_singleton_iff.1 hd']

/-- **Devices 1 and 3 are the same disk**: what is left in a block of one of them comes back from
the other. -/
theorem aliased_devices : ∃ s : Cache Unit,
    Run step (Uses {1, 3}) (boot fun _ _ => 0) s ∧ ¬ s.Transparent := by
  obtain ⟨s, hrun, hs⟩ := exists_run_of_runs step (Uses {1, 3}) (boot fun _ _ => 0 : Cache Unit)
    (readIn 0 (1, 5) ++ overwrite 0 ++ readIn 1 (3, 5))
    (fun s => s.point ((), 1) = .held (3, 5) .fresh ∧ (s.buf 1).data 0 ≠ s.content (3, 5) 0)
    (by decide +kernel)
  simp only [decide_eq_true_eq] at hs
  exact ⟨s, hrun, fun h => hs.2 (congrFun (h.returned () 1 (3, 5) hs.1).2 0)⟩

end

end Cache

end Xv6.Bcache
