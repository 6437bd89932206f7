import Mathlib.Data.List.FinRange
import Xv6.Foundation.Fallible
import Xv6.Foundation.Replay
import Xv6.Params

/-! # The buffer cache

`bio.c` over the disk driver of `ide.c`. The disk is an array of blocks, each written atomically;
`budget` block writes reach it before the power fails. Losing power and a panic both stop the code,
and leave the disk as it is then.

The cache is `Coherent`: a buffer that was read holds the logical content of its block, which
differs from the disk only for blocks that are pinned by `B_DIRTY`. What `bread`, `bwrite` and
`brelse` do to a coherent cache is said by `bread_spec`, `bwrite_spec` and `brelse_spec`. -/

namespace Xv6.Storage

open Foundation

/-! ## Disk and buffers -/

/-- The content of a disk block as 32-bit words. -/
abbrev Words := Fin 128 → BitVec 32

/-- `struct buf` of `buf.h`, its two flags and whether its sleep lock is held. -/
structure Buf where
  valid : Bool := false
  dirty : Bool := false
  dev : Nat := 0
  blockno : Nat := 0
  locked : Bool := false
  refcnt : Nat := 0
  data : Words := fun _ => 0

namespace Buf

/-- The stores of `bget` into a buffer that it recycles. -/
@[simps -fullyApplied] def recycled (x : Buf) (dev blockno : Nat) : Buf :=
  { x with dev := dev, blockno := blockno, valid := false, dirty := false, refcnt := 1 }

/-- `acquiresleep` of a free lock. -/
@[simps -fullyApplied] def lock (x : Buf) : Buf := { x with locked := true }

/-- The store of `bget` into a cached buffer. -/
@[simps -fullyApplied] def referenced (x : Buf) : Buf := { x with refcnt := x.refcnt + 1 }

/-- A change of the content. -/
@[simps -fullyApplied] def withData (x : Buf) (d : Words) : Buf := { x with data := d }

/-- The end of a disk request. -/
@[simps -fullyApplied] def synced (x : Buf) : Buf := { x with valid := true, dirty := false }

/-- `b->flags |= B_DIRTY`. -/
@[simps -fullyApplied] def marked (x : Buf) : Buf := { x with dirty := true }

/-- The stores of `brelse`. -/
@[simps -fullyApplied] def released (x : Buf) : Buf :=
    { x with locked := false, refcnt := x.refcnt - 1 }

end Buf

/-- A buffer of `bcache.buf`. -/
abbrev BufId := Fin NBUF

/-- The disk, the buffer cache, and the variables of `struct log` that change. -/
structure Store where
  disk : Nat → Words
  /-- The block writes left before the power fails. -/
  budget : Nat
  buf : BufId → Buf
  /-- The buffers in the order of the list from `bcache.head.next` on. -/
  mru : List BufId
  /-- `log.lh`: the blocks of the current transaction. -/
  lh : List Nat
  outstanding : Int

/-- Memory after a reboot: `binit` has run, everything else is zero. -/
def Store.cold (disk : Nat → Words) (budget : Nat) : Store where
  disk := disk
  budget := budget
  buf := fun _ => {}
  mru := (List.finRange NBUF).reverse
  lh := []
  outstanding := 0

namespace Store

/-- Apply stores to one buffer. -/
@[simps -fullyApplied] def mapBuf (s : Store) (i : BufId) (f : Buf → Buf) : Store :=
  { s with buf := fun j => if j = i then f (s.buf j) else s.buf j }

/-- A block write reaches the disk. -/
@[simps -fullyApplied] def writeDisk (s : Store) (b : Nat) (x : Words) : Store :=
  { s with disk := put s.disk b x, budget := s.budget - 1 }

@[simp] theorem mapBuf_mapBuf (s : Store) (i : BufId) (f g : Buf → Buf) :
    (s.mapBuf i f).mapBuf i g = s.mapBuf i fun x => g (f x) := by
  simp only [mapBuf, mk.injEq, true_and, and_true]
  funext j
  split <;> rfl

theorem mapBuf_congr {s : Store} {i : BufId} {f g : Buf → Buf} (h : f (s.buf i) = g (s.buf i)) :
    s.mapBuf i f = s.mapBuf i g := by
  simp only [mapBuf, mk.injEq, true_and, and_true]
  funext j
  split
  · rename_i hj
    rw [hj, h]
  · rfl

theorem mapBuf_writeDisk (s : Store) (i : BufId) (f : Buf → Buf) (b : Nat) (x : Words) :
    (s.mapBuf i f).writeDisk b x = (s.writeDisk b x).mapBuf i f := rfl

/-- Move a buffer to the head of the list. -/
@[simps -fullyApplied] def moveFront (s : Store) (i : BufId) : Store :=
    { s with mru := i :: s.mru.erase i }

/-- Set `log.lh`. -/
@[simps -fullyApplied] def setLh (s : Store) (lh : List Nat) : Store := { s with lh := lh }

theorem setLh_mapBuf (s : Store) (lh : List Nat) (i : BufId) (f : Buf → Buf) :
    (s.setLh lh).mapBuf i f = (s.mapBuf i f).setLh lh := rfl

/-- Set `log.outstanding`. -/
@[simps -fullyApplied] def setOutstanding (s : Store) (n : Int) : Store :=
  { s with outstanding := n }

/-- The power lasts for `n` more block writes. -/
@[simps -fullyApplied] def setBudget (s : Store) (n : Nat) : Store := { s with budget := n }

end Store

/-- Why the code stops. -/
inductive Stop
  | panic (msg : String)
  /-- The power fails. -/
  | crash
  /-- The code waits for a lock that it holds itself. -/
  | deadlock
  /-- The code writes beyond the end of an array. -/
  | overrun
  deriving DecidableEq, Repr

/-- Code over the disk and the cache. -/
abbrev Code := Fallible Stop Store

/-! ## `ide.c` and `bio.c` -/

/-- The transfer that `idestart` and `ideintr` make for the request of `iderw`. -/
def transfer (i : BufId) : Code PUnit := do
  let s ← get
  stopIf (FSSIZE ≤ (s.buf i).blockno) (.panic "incorrect blockno")
  if (s.buf i).dirty then
    stopIf (s.budget = 0) .crash
    modify (·.writeDisk (s.buf i).blockno (s.buf i).data)
  else
    modify (·.mapBuf i (·.withData (s.disk (s.buf i).blockno)))

/-- `iderw`. -/
def iderw (i : BufId) : Code PUnit := do
  let s ← get
  stopIf ((s.buf i).locked = false) (.panic "iderw: buf not locked")
  stopIf ((s.buf i).valid ∧ (s.buf i).dirty = false) (.panic "iderw: nothing to do")
  transfer i
  modify (·.mapBuf i (·.synced))

/-- `acquiresleep(&b->lock)`. -/
def acquiresleep (i : BufId) : Code PUnit := do
  let s ← get
  stopIf ((s.buf i).locked) .deadlock
  modify (·.mapBuf i (·.lock))

/-- `bget`: look for the block from the most recently used buffer on, and if it is not cached
recycle the least recently used buffer that nobody needs. -/
def bget (dev blockno : Nat) : Code BufId := do
  let s ← get
  match s.mru.find? fun i => (s.buf i).dev = dev ∧ (s.buf i).blockno = blockno with
  | some i =>
    modify (·.mapBuf i (·.referenced))
    acquiresleep i
    return i
  | none =>
    match s.mru.reverse.find? fun i => (s.buf i).refcnt = 0 ∧ (s.buf i).dirty = false with
    | some i =>
      modify (·.mapBuf i (·.recycled dev blockno))
      acquiresleep i
      return i
    | none => throw (.panic "bget: no buffers")

/-- `bread`. -/
def bread (dev blockno : Nat) : Code BufId := do
  let i ← bget dev blockno
  let s ← get
  onlyIf ((s.buf i).valid = false) (iderw i)
  return i

/-- `bwrite`. -/
def bwrite (i : BufId) : Code PUnit := do
  let s ← get
  stopIf ((s.buf i).locked = false) (.panic "bwrite")
  modify (·.mapBuf i (·.marked))
  iderw i

/-- `brelse`. -/
def brelse (i : BufId) : Code PUnit := do
  let s ← get
  stopIf ((s.buf i).locked = false) (.panic "brelse")
  modify (·.mapBuf i (·.released))
  let s ← get
  onlyIf ((s.buf i).refcnt = 0) (modify (·.moveFront i))

/-! ## Coherence -/

/-- **The cache is coherent**: `mem` is the logical content of the disk, `D` the blocks that are
pinned because the disk does not have that content yet, `H` the buffers that the code holds. -/
structure Coherent (s : Store) (mem : Nat → Words) (D : Nat → Prop) (H : List BufId) : Prop where
  listed : ∀ i, i ∈ s.mru
  rooted : ∀ i, (s.buf i).valid = true → (s.buf i).dev = ROOTDEV
  unique : ∀ i j, (s.buf i).dev = ROOTDEV → (s.buf j).dev = ROOTDEV →
    (s.buf i).blockno = (s.buf j).blockno → i = j
  locked : ∀ i, (s.buf i).locked = true ↔ i ∈ H
  refcnt : ∀ i, (s.buf i).refcnt = if i ∈ H then 1 else 0
  held : ∀ i ∈ H, (s.buf i).valid = true
  inRange : ∀ i, (s.buf i).valid = true → (s.buf i).blockno < FSSIZE
  value : ∀ i, (s.buf i).valid = true → (s.buf i).data = mem (s.buf i).blockno
  dirty : ∀ i, (s.buf i).dirty = true → (s.buf i).valid = true ∧ D (s.buf i).blockno
  pinned : ∀ b, D b → ∃ i, (s.buf i).blockno = b ∧ (s.buf i).dirty = true
  clean : ∀ b, ¬ D b → mem b = s.disk b

/-- What a read of the disk leaves alone. -/
structure Rest (s s' : Store) : Prop where
  disk : s'.disk = s.disk
  budget : s'.budget = s.budget
  lh : s'.lh = s.lh
  outstanding : s'.outstanding = s.outstanding

theorem Rest.refl (s : Store) : Rest s s := ⟨rfl, rfl, rfl, rfl⟩

theorem Rest.trans {s s' s'' : Store} (h : Rest s s') (h' : Rest s' s'') : Rest s s'' :=
  ⟨h'.1.trans h.1, h'.2.trans h.2, h'.3.trans h.3, h'.4.trans h.4⟩

theorem cold_coherent (disk : Nat → Words) (budget : Nat) :
    Coherent (Store.cold disk budget) disk (fun _ => False) [] where
  listed := by simp [Store.cold]
  rooted := by simp [Store.cold]
  unique := by simp [Store.cold]
  locked := by simp [Store.cold]
  refcnt := by simp [Store.cold]
  held := by simp
  inRange := by simp [Store.cold]
  value := by simp [Store.cold]
  dirty := by simp [Store.cold]
  pinned := by simp
  clean := fun _ _ => rfl

section

variable {s : Store} {mem : Nat → Words} {D : Nat → Prop} {H : List BufId} {b : Nat} {i : BufId}

section

variable (h : Coherent s mem D H)

include h

theorem Coherent.pinned_valid (hb : D b) :
    ∃ i, (s.buf i).dev = ROOTDEV ∧ (s.buf i).blockno = b ∧ (s.buf i).valid = true := by
  obtain ⟨i, hi, hd⟩ := h.pinned b hb
  have hv := (h.dirty i hd).1
  exact ⟨i, h.rooted i hv, hi, hv⟩

theorem Coherent.taken {x : Buf} (hi : i ∉ H)
    (hclean : (s.buf i).dirty = true → x = { s.buf i with locked := true, refcnt := 1 })
    (hblock : x.dev = ROOTDEV ∧ x.blockno = b ∧ x.valid = true ∧ x.locked = true ∧ x.refcnt = 1)
    (hdirty : x.dirty = (s.buf i).dirty) (hdata : x.data = mem b) (hrange : b < FSSIZE)
    (huniq : ∀ j, j ≠ i → (s.buf j).dev = ROOTDEV → (s.buf j).blockno ≠ b) :
    Coherent (s.mapBuf i fun _ => x) mem D (i :: H) := by
  obtain ⟨hdev, hb, hv, hl, hr⟩ := hblock
  refine ⟨h.listed, ?_, ?_, ?_, ?_, ?_, ?_, ?_, ?_, ?_, h.clean⟩
  · intro j hj
    by_cases hji : j = i
    · simp [hji, hdev]
    · simpa [hji] using h.rooted j (by simpa [hji] using hj)
  · intro j k hj hk hjk
    by_cases hji : j = i <;> by_cases hki : k = i
    · rw [hji, hki]
    · simp only [Store.mapBuf_buf, hji, hki, if_true, if_false, hb] at hj hk hjk
      exact absurd hjk.symm (huniq k hki hk)
    · simp only [Store.mapBuf_buf, hji, hki, if_true, if_false, hb] at hj hk hjk
      exact absurd hjk (huniq j hji hj)
    · exact h.unique j k (by simpa [hji] using hj) (by simpa [hki] using hk)
        (by simpa [hji, hki] using hjk)
  · intro j
    by_cases hji : j = i
    · simp [hji, hl]
    · simp [hji, h.locked j]
  · intro j
    by_cases hji : j = i
    · simp [hji, hr]
    · simp [hji, h.refcnt j]
  · intro j hj
    by_cases hji : j = i
    · simp [hji, hv]
    · simpa [hji] using h.held j (by simpa [hji] using hj)
  · intro j hj
    by_cases hji : j = i
    · simpa [hji, hb] using hrange
    · simpa [hji] using h.inRange j (by simpa [hji] using hj)
  · intro j hj
    by_cases hji : j = i
    · simp [hji, hdata, hb]
    · simpa [hji] using h.value j (by simpa [hji] using hj)
  · intro j hj
    by_cases hji : j = i
    · subst hji
      have hd : (s.buf j).dirty = true := by simpa [hdirty] using hj
      simpa [hclean hd] using h.dirty j hd
    · simpa [hji] using h.dirty j (by simpa [hji] using hj)
  · intro b' hb'
    obtain ⟨j, hj, hd⟩ := h.pinned b' hb'
    refine ⟨j, ?_⟩
    by_cases hji : j = i
    · subst hji
      simp [hclean hd, hj, hd]
    · simpa [hji] using ⟨hj, hd⟩

omit h in
theorem Coherent.swap {j : BufId} (h : Coherent s mem D (i :: j :: H)) :
    Coherent s mem D (j :: i :: H) := by
  have hmem : ∀ k, k ∈ j :: i :: H ↔ k ∈ i :: j :: H := by simp [or_left_comm]
  exact ⟨h.listed, h.rooted, h.unique, fun k => (h.locked k).trans (hmem k).symm,
    fun k => by rw [h.refcnt k, if_congr (hmem k).symm rfl rfl],
      fun k hk => h.held k ((hmem k).1 hk),
    h.inRange, h.value, h.dirty, h.pinned, h.clean⟩

theorem Coherent.congr {D' : Nat → Prop} (hD : ∀ c, D' c ↔ D c) :
    Coherent s mem D' H := by
  obtain rfl : D' = D := funext fun c => propext (hD c)
  exact h

/-- What `bread` of block `b` returns: the buffer of the block, now held, with its content. -/
structure Read (s : Store) (mem : Nat → Words) (D : Nat → Prop) (H : List BufId) (b : Nat)
    (i : BufId) (s' : Store) : Prop where
  coherent : Coherent s' mem D (i :: H)
  fresh : i ∉ H
  blockno : (s'.buf i).blockno = b
  data : (s'.buf i).data = mem b
  rest : Rest s s'
  others : ∀ j ∈ H, s'.buf j = s.buf j

theorem iderw_read {x : Buf} {C : Stop → Store → Prop} (hi : i ∉ H)
    (hx : x.dev = ROOTDEV ∧ x.blockno = b ∧ x.valid = false ∧ x.dirty = false ∧ x.locked = true ∧
      x.refcnt = 1)
    (hdirty : (s.buf i).dirty = false) (hmem : mem b = s.disk b)
    (huniq : ∀ j, j ≠ i → (s.buf j).dev = ROOTDEV → (s.buf j).blockno ≠ b)
    (hC : FSSIZE ≤ b → C (.panic "incorrect blockno") (s.mapBuf i fun _ => x)) :
    Ends (iderw i) (s.mapBuf i fun _ => x) (fun _ s' => Read s mem D H b i s') C := by
  obtain ⟨hdev, hb, hv, hd, hl, hr⟩ := hx
  simp only [iderw, transfer, ends_bind, ends_get, ends_stopIf, Store.mapBuf_buf, if_true, hl, hv,
    hd, hb]
  refine ⟨by simp, fun _ => ⟨by simp, fun _ => ⟨hC, fun hlt => ?_⟩⟩⟩
  simp only [Bool.false_eq_true, if_false, ends_modify, Store.mapBuf_mapBuf]
  refine ⟨?_, hi, ?_, ?_, ⟨rfl, rfl, rfl, rfl⟩, ?_⟩
  · exact h.taken hi (by simp [hdirty]) ⟨hdev, hb, rfl, hl, hr⟩ (by simp [hdirty]) hmem.symm
      (not_le.1 hlt) huniq
  · simp [hb]
  · simpa using hmem.symm
  · intro j hj
    have hji : j ≠ i := by
      rintro rfl
      exact hi hj
    simp [hji]

/-- **`bread`** stops only for a block that is not on the disk or when every buffer is in use. -/
theorem bread_spec (hb : ∀ j ∈ H, (s.buf j).blockno ≠ b) :
    Ends (bread ROOTDEV b) s (Read s mem D H b) fun e s' =>
      Rest s s' ∧ e ≠ .crash ∧ (FSSIZE ≤ b ∨ ∀ i, i ∉ H → (s.buf i).dirty = true) := by
  have hpin : ∀ i, (s.buf i).dev = ROOTDEV → (s.buf i).blockno = b → (s.buf i).valid = false →
      ¬ D b := by
    intro i hdev hblock hv hD
    obtain ⟨j, hjdev, hj, hjv⟩ := h.pinned_valid hD
    obtain rfl := h.unique i j hdev hjdev (hblock.trans hj.symm)
    simp [hv] at hjv
  simp only [bread, bget, ends_bind, ends_get]
  cases hfind : s.mru.find? fun i => (s.buf i).dev = ROOTDEV ∧ (s.buf i).blockno = b with
  | some i =>
    -- the block is cached
    have hhit : (s.buf i).dev = ROOTDEV ∧ (s.buf i).blockno = b := by
      simpa using List.find?_some hfind
    have hi : i ∉ H := fun hmem => hb i hmem hhit.2
    have hunlocked : (s.buf i).locked = false := by
      simpa using mt (h.locked i).1 hi
    have hrefs : (s.buf i).refcnt = 0 := by simp [h.refcnt i, hi]
    have huniq : ∀ j, j ≠ i → (s.buf j).dev = ROOTDEV → (s.buf j).blockno ≠ b :=
      fun j hj hjdev hjb => hj (h.unique j i hjdev hhit.1 (hjb.trans hhit.2.symm))
    simp only [acquiresleep, ends_bind, ends_get, ends_modify, ends_stopIf, ends_pure,
      Store.mapBuf_buf, if_true, Buf.referenced_locked, hunlocked, Bool.false_eq_true,
      false_implies, not_false_eq_true, true_implies, true_and, Store.mapBuf_mapBuf,
      ends_onlyIf, Buf.lock_valid, Buf.referenced_valid]
    rw [Store.mapBuf_congr (g := fun _ => (s.buf i).referenced.lock) rfl]
    refine ⟨fun hv => ?_, fun hv => ?_⟩
    · have hd : (s.buf i).dirty = false := by
        by_contra hd
        simp [(h.dirty i (by simpa using hd)).1] at hv
      exact iderw_read h hi ⟨hhit.1, hhit.2, hv, hd, rfl, by simp [hrefs]⟩ hd
        (h.clean b (hpin i hhit.1 hhit.2 hv)) huniq
        (fun hrange => ⟨⟨rfl, rfl, rfl, rfl⟩, by simp, .inl hrange⟩)
    · have hv : (s.buf i).valid = true := by simpa using hv
      have hdata := h.value i hv
      rw [hhit.2] at hdata
      refine ⟨?_, hi, by simp [hhit.2], ?_, ⟨rfl, rfl, rfl, rfl⟩, ?_⟩
      · exact h.taken hi (fun _ => by simp [Buf.lock, Buf.referenced, hrefs])
          ⟨hhit.1, hhit.2, hv, rfl, by simp [hrefs]⟩ rfl hdata (hhit.2 ▸ h.inRange i hv) huniq
      · simpa using hdata
      · intro j hj
        have hji : j ≠ i := by
          rintro rfl
          exact hi hj
        simp [hji]
  | none =>
    have hmiss : ∀ j, (s.buf j).dev = ROOTDEV → (s.buf j).blockno ≠ b := by
      intro j hjdev hjb
      simpa [hjdev, hjb] using List.find?_eq_none.1 hfind j (h.listed j)
    cases hfree : s.mru.reverse.find? fun i =>
        (s.buf i).refcnt = 0 ∧ (s.buf i).dirty = false with
    | some i =>
      -- a buffer that nobody needs is recycled
      have hidle : (s.buf i).refcnt = 0 ∧ (s.buf i).dirty = false := by
        simpa using List.find?_some hfree
      have hi : i ∉ H := fun hmem => by simp [h.refcnt i, hmem] at hidle
      have hunlocked : (s.buf i).locked = false := by
        simpa using mt (h.locked i).1 hi
      have hD : ¬ D b := by
        intro hD
        obtain ⟨j, hjdev, hj, -⟩ := h.pinned_valid hD
        exact hmiss j hjdev hj
      simp only [acquiresleep, ends_bind, ends_get, ends_modify, ends_stopIf, ends_pure,
        Store.mapBuf_buf, if_true, Buf.recycled_locked, hunlocked, Bool.false_eq_true,
        false_implies, not_false_eq_true, true_implies, true_and, Store.mapBuf_mapBuf,
        ends_onlyIf, Buf.lock_valid, Buf.recycled_valid, not_true_eq_false, and_true]
      rw [Store.mapBuf_congr (g := fun _ => ((s.buf i).recycled ROOTDEV b).lock) rfl]
      exact iderw_read h hi ⟨rfl, rfl, rfl, rfl, rfl, rfl⟩ hidle.2 (h.clean b hD)
        (fun j _ => hmiss j) (fun hrange => ⟨⟨rfl, rfl, rfl, rfl⟩, by simp, .inl hrange⟩)
    | none =>
      refine ends_throw.2 ⟨.refl s, by simp, .inr fun i hi => ?_⟩
      have hbusy := List.find?_eq_none.1 hfree i (by simpa using h.listed i)
      simpa [h.refcnt i, hi] using hbusy

/-- The content of a held buffer changes together with its flags, and with the disk if the buffer
is clean afterwards. -/
theorem Coherent.overwrite (hi : i ∈ H) (hb : (s.buf i).blockno = b)
    (x : Words) (d : Bool) {disk : Nat → Words} (budget : Nat) (D' : Nat → Prop)
    (hdisk : ∀ c, c ≠ b → disk c = s.disk c) (hclean : d = false → disk b = x)
    (hD : ∀ c, D' c ↔ (D c ∧ c ≠ b) ∨ (c = b ∧ d = true)) :
    Coherent
      ({ s with disk := disk, budget := budget }.mapBuf i fun y =>
        { y with data := x, valid := true, dirty := d })
      (put mem b x) D' H := by
  have hv := h.held i hi
  have hother : ∀ j, j ≠ i → (s.buf j).valid = true → (s.buf j).blockno ≠ b := fun j hj hjv hjb =>
    hj (h.unique j i (h.rooted j hjv) (h.rooted i hv) (hjb.trans hb.symm))
  refine ⟨h.listed, ?_, ?_, ?_, ?_, ?_, ?_, ?_, ?_, ?_, ?_⟩
  · intro j hj
    by_cases hji : j = i
    · simpa [hji] using h.rooted i hv
    · simpa [hji] using h.rooted j (by simpa [hji] using hj)
  · intro j k hj hk hjk
    refine h.unique j k ?_ ?_ ?_
    · by_cases hji : j = i <;> simpa [hji] using hj
    · by_cases hki : k = i <;> simpa [hki] using hk
    · by_cases hji : j = i <;> by_cases hki : k = i <;> simp_all
  · intro j
    by_cases hji : j = i
    · simpa [hji] using h.locked i
    · simpa [hji] using h.locked j
  · intro j
    by_cases hji : j = i
    · simpa [hji] using h.refcnt i
    · simpa [hji] using h.refcnt j
  · intro j hj
    by_cases hji : j = i
    · simp [hji]
    · simpa [hji] using h.held j hj
  · intro j hj
    by_cases hji : j = i
    · simpa [hji] using h.inRange i hv
    · simpa [hji] using h.inRange j (by simpa [hji] using hj)
  · intro j hj
    by_cases hji : j = i
    · simp [hji, hb]
    · have hjv : (s.buf j).valid = true := by simpa [hji] using hj
      simpa [hji, put_of_ne (hother j hji hjv)] using h.value j hjv
  · intro j hj
    by_cases hji : j = i
    · subst hji
      simp only [Store.mapBuf_buf, if_true] at hj
      simp [hb, hj, hD]
    · obtain ⟨hjv, hjD⟩ := h.dirty j (by simpa [hji] using hj)
      simpa [hji, hjv, hother j hji hjv, hD] using hjD
  · intro c hc
    obtain ⟨hc, hcb⟩ | ⟨rfl, hd⟩ := (hD c).1 hc
    · obtain ⟨j, hj, hjd⟩ := h.pinned c hc
      have hji : j ≠ i := by
        rintro rfl
        exact hcb (hj.symm.trans hb)
      exact ⟨j, by simpa [hji] using ⟨hj, hjd⟩⟩
    · exact ⟨i, by simp [hb, hd]⟩
  · intro c hc
    by_cases hcb : c = b
    · subst hcb
      have hd : d = false := by simpa [hD] using hc
      simpa using (hclean hd).symm
    · have hcD : ¬ D c := by simpa [hcb, hD] using hc
      simpa [put_of_ne hcb, hdisk c hcb] using h.clean c hcD

/-- What `bwrite` leaves once the content of a held buffer was set to `x`. -/
structure Written (s : Store) (mem : Nat → Words) (D : Nat → Prop) (H : List BufId) (b : Nat)
    (i : BufId) (x : Words) (s' : Store) : Prop where
  coherent : Coherent s' (put mem b x) (fun c => D c ∧ c ≠ b) H
  disk : s'.disk = put s.disk b x
  budget : s'.budget + 1 = s.budget
  lh : s'.lh = s.lh
  outstanding : s'.outstanding = s.outstanding
  others : ∀ j, j ≠ i → s'.buf j = s.buf j

/-- **`bwrite`** is one block write, and stops only when the power fails before it. -/
theorem bwrite_spec (hi : i ∈ H) (hb : (s.buf i).blockno = b)
    (x : Words) :
    Ends (bwrite i) (s.mapBuf i (·.withData x)) (fun _ => Written s mem D H b i x) fun e s' =>
      s'.disk = s.disk ∧ e = .crash ∧ s.budget = 0 := by
  have hrange := h.inRange i (h.held i hi)
  have hlocked := (h.locked i).2 hi
  rw [hb] at hrange
  simp only [bwrite, iderw, transfer, ends_bind, ends_get, ends_stopIf, ends_modify,
    Store.mapBuf_mapBuf, Store.mapBuf_buf, if_true, Buf.marked_locked, Buf.withData_locked, hlocked,
    Buf.marked_dirty, Buf.marked_blockno, Buf.withData_blockno, hb, Store.mapBuf_budget,
    Buf.marked_data, Buf.withData_data]
  refine ⟨by simp, fun _ => ⟨by simp, fun _ => ⟨by simp, fun _ => ⟨fun h0 => absurd h0 (by omega),
    fun _ => ⟨fun h0 => ⟨rfl, trivial, h0⟩, fun h0 => ?_⟩⟩⟩⟩⟩
  rw [Store.mapBuf_writeDisk, Store.mapBuf_mapBuf]
  refine ⟨?_, rfl, ?_, rfl, rfl, fun j hj => by simp [hj]⟩
  · exact h.overwrite hi hb x false (s.budget - 1) _ (fun c hc => put_of_ne hc)
      (fun _ => put_self _ _ _) (by simp)
  · simp only [Store.mapBuf_budget, Store.writeDisk_budget]
    omega

/-- **Pinning a buffer** with a new content, as `log_write` does. -/
theorem Coherent.pin (hi : i ∈ H) (hb : (s.buf i).blockno = b)
    (x : Words) :
    Coherent (s.mapBuf i fun y => (y.withData x).marked) (put mem b x) (fun c => D c ∨
      c = b) H := by
  have hnew := h.overwrite hi hb x true s.budget (fun c => D c ∨ c = b) (fun _ _ => rfl)
    (by simp) (fun c => by by_cases hc : c = b <;> simp [hc])
  convert hnew using 1
  refine Store.mapBuf_congr ?_
  simp [Buf.marked, Buf.withData, h.held i hi]

end

theorem brelse_spec (h : Coherent s mem D (i :: H)) (hi : i ∉ H) :
    Ends (brelse i) s
      (fun _ s' => Coherent s' mem D H ∧ Rest s s' ∧ ∀ j, j ≠ i → s'.buf j = s.buf j)
      fun _ _ => False := by
  have hlocked := (h.locked i).2 (by simp)
  have hrefs : (s.buf i).refcnt = 1 := by simp [h.refcnt i]
  simp only [brelse, ends_bind, ends_get, ends_stopIf, ends_modify, ends_onlyIf, hlocked,
    Store.mapBuf_buf, if_true, Buf.released_refcnt, hrefs]
  refine ⟨by simp, fun _ => ⟨fun _ => ⟨?_, ⟨rfl, rfl, rfl, rfl⟩, fun j hj => by simp [hj]⟩,
    by simp⟩⟩
  refine ⟨?_, ?_, ?_, ?_, ?_, ?_, ?_, ?_, ?_, ?_, h.clean⟩
  · intro j
    by_cases hji : j = i
    · simp [hji]
    · simpa [hji] using (List.mem_erase_of_ne hji).2 (h.listed j)
  · intro j hj
    by_cases hji : j = i <;> simpa [hji] using h.rooted j (by simpa [hji] using hj)
  · intro j k hj hk hjk
    refine h.unique j k ?_ ?_ ?_
    · by_cases hji : j = i <;> simpa [hji] using hj
    · by_cases hki : k = i <;> simpa [hki] using hk
    · by_cases hji : j = i <;> by_cases hki : k = i <;> simp_all
  · intro j
    by_cases hji : j = i
    · simpa [hji] using hi
    · simpa [hji] using h.locked j
  · intro j
    by_cases hji : j = i
    · simp [hji, hi, hrefs]
    · simpa [hji] using h.refcnt j
  · intro j hj
    have hji : j ≠ i := by
      rintro rfl
      exact hi hj
    simpa [hji] using h.held j (List.mem_cons_of_mem _ hj)
  · intro j hj
    by_cases hji : j = i <;> simpa [hji] using h.inRange j (by simpa [hji] using hj)
  · intro j hj
    by_cases hji : j = i <;> simpa [hji] using h.value j (by simpa [hji] using hj)
  · intro j hj
    by_cases hji : j = i <;> simpa [hji] using h.dirty j (by simpa [hji] using hj)
  · intro c hc
    obtain ⟨j, hj, hjd⟩ := h.pinned c hc
    refine ⟨j, ?_⟩
    by_cases hji : j = i
    · subst hji
      simpa using ⟨hj, hjd⟩
    · simpa [hji] using ⟨hj, hjd⟩

end

end Xv6.Storage
