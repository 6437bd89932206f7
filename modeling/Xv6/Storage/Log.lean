import Xv6.Storage.Buffers

/-! # The redo log

`log.c`: the blocks of a transaction are pinned in the cache until `commit` copies them to the log,
writes the header, copies them to their home blocks and clears the header. `recover_from_log`
replays whatever transaction the header names.

A disk is `Recoverable` to a content `R` when replaying its log gives `R`. `recover_spec` and
`commit_spec` say which content the disk is recoverable to at every point where the power can
fail. -/

namespace Xv6.Storage

open Foundation

/-! ## The log area and its header -/

/-- The log area that the superblock describes: `log.start` and `log.size`. It has at least a
header, and lies on the disk. -/
structure LogArea where
  start : Nat
  size : Nat
  pos : 0 < size
  fits : start + size ≤ FSSIZE

/-- A home block: one outside the log area. -/
def LogArea.Home (A : LogArea) (b : Nat) : Prop := b < A.start ∨ A.start + A.size ≤ b

instance (A : LogArea) (b : Nat) : Decidable (A.Home b) :=
  inferInstanceAs (Decidable (b < A.start ∨ A.start + A.size ≤ b))

/-- The log block for the entry `tail` of the header. -/
def LogArea.slot (A : LogArea) (tail : Nat) : Nat := A.start + tail + 1

/-- A word of a block. -/
def word (w : Nat) : Fin 128 := Fin.ofNat 128 w

/-- The stores of `write_head` into the header block: `hb->n`, then `hb->block[i]`. -/
def headWords (lh : List Nat) : List (Fin 128 × BitVec 32) :=
  (word 0, BitVec.ofNat 32 lh.length) ::
    lh.zipIdx.map fun e => (word (e.2 + 1), BitVec.ofNat 32 e.1)

/-- `lh->n`, an `int`. -/
def headCount (x : Words) : Int := (x (word 0)).toInt

/-- The blocks that a header block names. -/
def headBlocks (x : Words) : List Nat :=
  (List.range (headCount x).toNat).map fun i => (x (word (i + 1))).toNat

/-! ## `log.c` -/

/-- `memmove(dst->data, src->data, BSIZE)`. -/
def memmove (dst src : BufId) : Code PUnit :=
  modify fun s => s.mapBuf dst (·.withData (s.buf src).data)

/-- One round of the loop of `install_trans`: copy the log block for the entry `tail` to block
`b`. -/
def installEntry (A : LogArea) (b tail : Nat) : Code PUnit := do
  let lbuf ← bread ROOTDEV (A.slot tail)
  let dbuf ← bread ROOTDEV b
  memmove dbuf lbuf
  bwrite dbuf
  brelse lbuf
  brelse dbuf

/-- The loop of `install_trans` from the entry `tail` on. -/
def installTransFrom (A : LogArea) : List Nat → Nat → Code PUnit
  | [], _ => pure ⟨⟩
  | b :: bs, tail => do
    installEntry A b tail
    installTransFrom A bs (tail + 1)

/-- `install_trans`: copy committed blocks from the log to their home location. -/
def installTrans (A : LogArea) : Code PUnit := do
  let s ← get
  installTransFrom A s.lh 0

/-- `read_head`. -/
def readHead (A : LogArea) : Code PUnit := do
  let i ← bread ROOTDEV A.start
  let s ← get
  stopIf (LOGSIZE < headCount (s.buf i).data) .overrun
  modify (·.setLh (headBlocks (s.buf i).data))
  brelse i

/-- `write_head`. -/
def writeHead (A : LogArea) : Code PUnit := do
  let i ← bread ROOTDEV A.start
  modify fun s => s.mapBuf i (·.withData (install (s.buf i).data (headWords s.lh)))
  bwrite i
  brelse i

/-- `recover_from_log`. -/
def recoverFromLog (A : LogArea) : Code PUnit := do
  readHead A
  installTrans A
  modify (·.setLh [])
  writeHead A

/-- One round of the loop of `write_log`: copy block `b` to the log block for the entry `tail`. -/
def logEntry (A : LogArea) (b tail : Nat) : Code PUnit := do
  let dst ← bread ROOTDEV (A.slot tail)
  let src ← bread ROOTDEV b
  memmove dst src
  bwrite dst
  brelse src
  brelse dst

/-- The loop of `write_log` from the entry `tail` on. -/
def writeLogFrom (A : LogArea) : List Nat → Nat → Code PUnit
  | [], _ => pure ⟨⟩
  | b :: bs, tail => do
    logEntry A b tail
    writeLogFrom A bs (tail + 1)

/-- `write_log`: copy modified blocks from the cache to the log. -/
def writeLog (A : LogArea) : Code PUnit := do
  let s ← get
  writeLogFrom A s.lh 0

/-- `commit`. -/
def commit (A : LogArea) : Code PUnit := do
  let s ← get
  onlyIf (0 < s.lh.length) do
    writeLog A
    writeHead A
    installTrans A
    modify (·.setLh [])
    writeHead A

/-- The header after `log_write` of block `b`: a block that is there already is absorbed. -/
def absorb (lh : List Nat) (b : Nat) : List Nat := if b ∈ lh then lh else lh ++ [b]

/-- `log_write`. -/
def logWrite (A : LogArea) (i : BufId) : Code PUnit := do
  let s ← get
  stopIf (LOGSIZE ≤ s.lh.length ∨ A.size ≤ s.lh.length + 1) (.panic "too big a transaction")
  stopIf (s.outstanding < 1) (.panic "log_write outside of trans")
  modify (·.setLh (absorb s.lh (s.buf i).blockno))
  modify (·.mapBuf i (·.marked))

/-- The typical use of `log_write`: read block `b`, change its content by `f`, log it. -/
def update (A : LogArea) (b : Nat) (f : Words → Words) : Code PUnit := do
  let i ← bread ROOTDEV b
  modify fun s => s.mapBuf i (·.withData (f (s.buf i).data))
  logWrite A i
  brelse i

/-- `end_op`: the last system call of a transaction commits it. -/
def endOp (A : LogArea) : Code PUnit := do
  let s ← get
  modify (·.setOutstanding (s.outstanding - 1))
  onlyIf (s.outstanding - 1 = 0) (commit A)

/-! ## The header is read back as it was written -/

section

variable {lh : List Nat} {x : Words}

theorem word_inj {v w : Nat} (hv : v < 128) (hw : w < 128) (h : word v = word w) : v = w := by
  simpa [word, Fin.ext_iff, Nat.mod_eq_of_lt, hv, hw] using h

theorem headWords_nodup (hlen : lh.length ≤ LOGSIZE) : ((headWords lh).map Prod.fst).Nodup := by
  have hkeys : (headWords lh).map Prod.fst = (List.range (lh.length + 1)).map word := by
    apply List.ext_getElem
    · simp [headWords]
    · intro n h1 h2
      cases n with
      | zero | succ n => simp [headWords]
  rw [hkeys]
  refine List.Nodup.map_on ?_ List.nodup_range
  intro v hv w hw h
  simp only [List.mem_range, LOGSIZE] at hv hw hlen
  exact word_inj (by omega) (by omega) h

theorem headCount_install (hlen : lh.length ≤ LOGSIZE) :
    headCount (install x (headWords lh)) = lh.length := by
  have hmem : (word 0, BitVec.ofNat 32 lh.length) ∈ headWords lh := by simp [headWords]
  have h : install x (headWords lh) (word 0) = BitVec.ofNat 32 lh.length :=
    install_of_mem (headWords_nodup hlen) hmem
  have hnat : (BitVec.ofNat 32 lh.length).toNat = lh.length := by
    rw [BitVec.toNat_ofNat]
    exact Nat.mod_eq_of_lt (by simp only [LOGSIZE] at hlen; omega)
  rw [headCount, h, BitVec.toInt_eq_toNat_of_lt, hnat]
  simp only [LOGSIZE] at hlen
  omega

theorem headBlocks_install (hlen : lh.length ≤ LOGSIZE) (hrange : ∀ b ∈ lh, b < FSSIZE) :
    headBlocks (install x (headWords lh)) = lh := by
  apply List.ext_getElem
  · simp [headBlocks, headCount_install hlen]
  · intro n h1 h2
    have hmem : (word (n + 1), BitVec.ofNat 32 (lh[n])) ∈ headWords lh := by
      refine List.mem_cons_of_mem _ (List.mem_map.2 ⟨(lh[n], n), ?_, rfl⟩)
      exact List.mk_mem_zipIdx_iff_getElem?.2 (List.getElem?_eq_getElem h2)
    have h : install x (headWords lh) (word (n + 1)) = BitVec.ofNat 32 (lh[n]) :=
      install_of_mem (headWords_nodup hlen) hmem
    have hlt := hrange _ (List.getElem_mem h2)
    simp only [FSSIZE] at hlt
    simp only [headBlocks, List.getElem_map, List.getElem_range, h, BitVec.toNat_ofNat]
    exact Nat.mod_eq_of_lt (by omega)

end

/-! ## One copy -/

/-- Why code that makes `n` block writes stops: the power failed before the last of them, or the
buffers ran out, which takes pinned blocks. -/
def Halted (D : Nat → Prop) (budget n : Nat) (e : Stop) : Prop :=
  (e = .crash ∧ budget < n) ∨ ∃ c, D c

/-- The effect of one atomic block write on a coherent cache that holds no buffer. -/
structure Put (s : Store) (mem : Nat → Words) (D : Nat → Prop) (b : Nat) (x : Words)
    (s' : Store) : Prop where
  coherent : Coherent s' (put mem b x) (fun c => D c ∧ c ≠ b) []
  disk : s'.disk = put s.disk b x
  budget : s'.budget + 1 = s.budget
  lh : s'.lh = s.lh
  outstanding : s'.outstanding = s.outstanding

section

variable {A : LogArea} {s s' : Store} {mem : Nat → Words} {D : Nat → Prop} {H : List BufId}
  {b c tail : Nat} {i j : BufId}

theorem Coherent.setLh (h : Coherent s mem D H) (lh : List Nat) : Coherent (s.setLh lh) mem D H :=
  { h with }

theorem LogArea.start_lt (A : LogArea) : A.start < FSSIZE := by
  have := A.pos
  have := A.fits
  omega

theorem bread_ends (h : Coherent s mem D H) (hH : H.length ≤ 1) (hrange : b < FSSIZE)
    (hb : ∀ j ∈ H, (s.buf j).blockno ≠ b) :
    Ends (bread ROOTDEV b) s (Read s mem D H b) fun e s' =>
      s'.disk = s.disk ∧ Halted D s.budget 1 e := by
  refine (bread_spec h hb).mono (fun _ _ h => h) fun e s' ⟨hrest, _, hstop⟩ => ⟨hrest.disk, .inr ?_⟩
  have hall := hstop.resolve_left (by omega)
  obtain ⟨i, hi⟩ : ∃ i : BufId, i ∉ H := by
    by_contra hno
    simp only [not_exists, not_not] at hno
    match H, hH with
    | [], _ => simpa using hno 0
    | [k], _ =>
      have h0 := List.mem_singleton.1 (hno 0)
      have h1 := List.mem_singleton.1 (hno 1)
      rw [← h1] at h0
      exact absurd h0 (by decide)
  exact ⟨_, (h.dirty i (hall i hi)).2⟩

section

variable (h : Coherent s mem D [])

include h

theorem bread_two (hb : b < FSSIZE) (hc : c < FSSIZE) (hne : b ≠ c)
    {f : BufId → BufId → Code PUnit} {Q : PUnit → Store → Prop} {C : Stop → Store → Prop}
    (hstop : ∀ e s', s'.disk = s.disk ∧ Halted D s.budget 1 e → C e s')
    (hf : ∀ i j s', Coherent s' mem D [j, i] → j ≠ i → (s'.buf i).blockno = b →
      (s'.buf i).data = mem b → (s'.buf j).blockno = c → (s'.buf j).data = mem c → Rest s s' →
      Ends (f i j) s' Q C) :
    Ends (do let i ← bread ROOTDEV b; let j ← bread ROOTDEV c; f i j) s Q C := by
  rw [ends_bind]
  refine (bread_ends h (by simp) hb (by simp)).mono (fun i s1 h1 => ?_) hstop
  rw [ends_bind]
  refine (bread_ends h1.coherent (by simp) hc ?_).mono (fun j s2 h2 => ?_) fun e s' he => ?_
  · intro k hk
    rw [List.mem_singleton.1 hk, h1.blockno]
    exact hne
  · have hi : s2.buf i = s1.buf i := h2.others i (by simp)
    refine hf i j s2 h2.coherent (fun hji => h2.fresh (by simp [hji])) (by rw [hi, h1.blockno])
      (by rw [hi, h1.data]) h2.blockno h2.data (h1.rest.trans h2.rest)
  · exact hstop e s' ⟨he.1.trans h1.rest.disk, by simpa [h1.rest.budget] using he.2⟩

omit h in
theorem brelse_two (h : Coherent s mem D [j, i]) (hne : j ≠ i) {C : Stop → Store → Prop} :
    Ends (do brelse j; brelse i) s (fun _ s' => Coherent s' mem D [] ∧ Rest s s') C := by
  rw [ends_bind]
  refine (brelse_spec h (by simpa using hne)).mono (fun _ s1 h1 => ?_) (by simp)
  refine (brelse_spec h1.1 (by simp)).mono (fun _ s2 h2 => ?_) (by simp)
  exact ⟨h2.1, h1.2.1.trans h2.2.1⟩

omit h in
theorem write_back (hrest : Rest s s') (h : Coherent s' mem D H) (hi : i ∈ H)
    (hb : (s'.buf i).blockno = b) (x : Words) {f : PUnit → Code PUnit}
    (hf : ∀ s1 mem' D', Coherent s1 mem' D' H →
      Ends (f ⟨⟩) s1 (fun _ s2 => Coherent s2 mem' D' [] ∧ Rest s1 s2) fun _ _ => False) :
    Ends (bwrite i >>= f) (s'.mapBuf i (·.withData x)) (fun _ => Put s mem D b x) fun e t =>
      t.disk = s.disk ∧ Halted D s.budget 1 e := by
  rw [ends_bind]
  refine (bwrite_spec h hi hb x).mono (fun _ s1 h1 => ?_) fun e t he => ?_
  · refine (hf s1 _ _ h1.coherent).mono (fun _ s2 h2 => ?_) fun _ _ => False.elim
    exact ⟨h2.1, by rw [h2.2.disk, h1.disk, hrest.disk], by rw [h2.2.budget, h1.budget,
      hrest.budget],
      by rw [h2.2.lh, h1.lh, hrest.lh], by rw [h2.2.outstanding, h1.outstanding, hrest.outstanding]⟩
  · exact ⟨he.1.trans hrest.disk, .inl ⟨he.2.1, by rw [← hrest.budget, he.2.2]; decide⟩⟩

/-- **A round of `install_trans`** is one atomic write of the home block. -/
theorem installEntry_spec (hlog : A.slot tail < FSSIZE)
    (hb : b < FSSIZE) (hne : A.slot tail ≠ b) :
    Ends (installEntry A b tail) s (fun _ => Put s mem D b (mem (A.slot tail))) fun e s' =>
      s'.disk = s.disk ∧ Halted D s.budget 1 e := by
  refine bread_two h hlog hb hne (fun _ _ h => h) fun i j s2 h2 hji _ hdi hbj _ hrest => ?_
  rw [ends_bind, memmove, ends_modify, hdi]
  exact write_back hrest h2 (by simp) hbj _ fun _ _ _ h3 => brelse_two h3.swap hji.symm

/-- **A round of `write_log`** is one atomic write of the log block. -/
theorem logEntry_spec (hlog : A.slot tail < FSSIZE)
    (hb : b < FSSIZE) (hne : A.slot tail ≠ b) :
    Ends (logEntry A b tail) s (fun _ => Put s mem D (A.slot tail) (mem b)) fun e s' =>
      s'.disk = s.disk ∧ Halted D s.budget 1 e := by
  refine bread_two h hlog hb hne (fun _ _ h => h) fun i j s2 h2 hji hbi _ _ hdj hrest => ?_
  rw [ends_bind, memmove, ends_modify, hdj]
  exact write_back hrest h2 (by simp) hbi _ fun _ _ _ h3 => brelse_two h3 hji

/-- **`write_head`** is one atomic write of the header block. -/
theorem writeHead_spec :
    Ends (writeHead A) s
      (fun _ => Put s mem D A.start (install (mem A.start) (headWords s.lh))) fun e s' =>
      s'.disk = s.disk ∧ Halted D s.budget 1 e := by
  rw [writeHead, ends_bind]
  refine (bread_ends h (by simp) A.start_lt (by simp)).mono (fun i s1 h1 => ?_) (fun _ _ h => h)
  rw [ends_bind, ends_modify, h1.data, h1.rest.lh]
  refine write_back h1.rest h1.coherent (by simp) h1.blockno _ fun _ _ _ h2 => ?_
  exact (brelse_spec h2 (by simp)).mono (fun _ _ h3 => ⟨h3.1, h3.2.1⟩) fun _ _ h => h

/-- **`read_head`** reads the blocks that the header names. -/
theorem readHead_spec (hcount : headCount (mem A.start) ≤ LOGSIZE) :
    Ends (readHead A) s
      (fun _ s' => Coherent s' mem D [] ∧ s'.disk = s.disk ∧ s'.budget = s.budget ∧
        s'.outstanding = s.outstanding ∧ s'.lh = headBlocks (mem A.start)) fun e s' =>
      s'.disk = s.disk ∧ Halted D s.budget 1 e := by
  rw [readHead, ends_bind]
  refine (bread_ends h (by simp) A.start_lt (by simp)).mono (fun i s1 h1 => ?_) (fun _ _ h => h)
  simp only [ends_bind, ends_get, ends_stopIf, ends_modify, h1.data]
  refine ⟨fun hover => absurd hcount (not_le.2 hover), fun _ => ?_⟩
  refine (brelse_spec (h1.coherent.setLh _) (by simp)).mono (fun _ s2 h2 => ?_) (by simp)
  exact ⟨h2.1, h2.2.1.disk.trans h1.rest.disk, h2.2.1.budget.trans h1.rest.budget,
    h2.2.1.outstanding.trans h1.rest.outstanding, h2.2.1.lh⟩

end

/-! ## The loops -/

theorem LogArea.Home.ne_slot (hb : A.Home b) (htail : tail + 1 < A.size) : A.slot tail ≠ b := by
  unfold LogArea.Home LogArea.slot at *
  omega

theorem LogArea.slot_lt (htail : tail + 1 < A.size) : A.slot tail < FSSIZE := by
  have := A.fits
  unfold LogArea.slot
  omega

/-- The block writes of `install_trans` from the entry `tail` on. -/
def LogArea.homeWrites (A : LogArea) (mem : Nat → Words) (bs : List Nat) (tail : Nat) :
    List (Nat × Words) :=
  (bs.zipIdx tail).map fun e => (e.1, mem (A.slot e.2))

/-- The block writes of `write_log` from the entry `tail` on. -/
def LogArea.logWrites (A : LogArea) (mem : Nat → Words) (bs : List Nat) (tail : Nat) :
    List (Nat × Words) :=
  (bs.zipIdx tail).map fun e => (A.slot e.2, mem e.1)

/-- The effect of a loop of atomic block writes `ws`. -/
structure Puts (s : Store) (mem : Nat → Words) (D : Nat → Prop) (ws : List (Nat × Words))
    (s' : Store) : Prop where
  coherent : Coherent s' (install mem ws) (fun c => D c ∧ c ∉ ws.map Prod.fst) []
  disk : s'.disk = install s.disk ws
  budget : s'.budget + ws.length = s.budget
  lh : s'.lh = s.lh
  outstanding : s'.outstanding = s.outstanding

/-- What a stop in a loop of atomic block writes leaves: the writes made so far. -/
def Partial (s : Store) (D : Nat → Prop) (ws : List (Nat × Words)) (e : Stop) (s' : Store) : Prop :=
  (∃ n, s'.disk = install s.disk (ws.take n)) ∧ Halted D s.budget ws.length e

/-- **A loop of atomic block writes**: one round after the other. -/
theorem puts_cons {w : Nat × Words} {ws : List (Nat × Words)} {m : Code PUnit}
    {f : PUnit → Code PUnit}
    (hm : Ends m s (fun _ => Put s mem D w.1 w.2) fun e s' =>
      s'.disk = s.disk ∧ Halted D s.budget 1 e)
    (hf : ∀ u s', Put s mem D w.1 w.2 s' →
      Ends (f u) s' (fun _ => Puts s' (put mem w.1 w.2) (fun c => D c ∧ c ≠ w.1) ws)
        (Partial s' (fun c => D c ∧ c ≠ w.1) ws)) :
    Ends (m >>= f) s (fun _ => Puts s mem D (w :: ws)) (Partial s D (w :: ws)) := by
  rw [ends_bind]
  refine hm.mono (fun u s1 h1 => (hf u s1 h1).mono (fun _ s2 h2 => ?_) fun e s2 h2 => ?_)
    fun e s1 h1 => ⟨⟨0, h1.1⟩, h1.2.imp_left fun ⟨he, hn⟩ => ⟨he, by simp; omega⟩⟩
  · refine ⟨h2.coherent.congr fun c => by simp [not_or, and_assoc], ?_, ?_, h2.lh.trans h1.lh,
      h2.outstanding.trans h1.outstanding⟩
    · rw [h2.disk, h1.disk, install_cons]
    · have := h1.budget
      have := h2.budget
      simp only [List.length_cons]
      omega
  · obtain ⟨⟨n, hn⟩, hhalt⟩ := h2
    refine ⟨⟨n + 1, by rw [hn, h1.disk, List.take_succ_cons, install_cons]⟩, ?_⟩
    refine hhalt.imp (fun ⟨he, hlt⟩ => ⟨he, ?_⟩) fun ⟨c, hc, _⟩ => ⟨c, hc⟩
    have := h1.budget
    simp only [List.length_cons]
    omega

theorem puts_nil (h : Coherent s mem D []) : Puts s mem D [] s :=
  ⟨h.congr (by simp), rfl, rfl, rfl, rfl⟩

/-- **`install_trans`** writes the home blocks one by one. By induction on the entries: the log
blocks of the later ones are not home blocks, so that the writes before leave them alone. -/
theorem installTransFrom_spec {bs : List Nat} (tail : Nat) (h : Coherent s mem D [])
    (hbs : ∀ b ∈ bs, A.Home b ∧ b < FSSIZE) (hlen : tail + bs.length < A.size) :
    Ends (installTransFrom A bs tail) s (fun _ => Puts s mem D (A.homeWrites mem bs tail))
      (Partial s D (A.homeWrites mem bs tail)) := by
  induction bs generalizing s mem D tail with
  | nil => exact puts_nil h
  | cons b bs ih =>
    simp only [List.length_cons] at hlen
    obtain ⟨hhome, hrange⟩ := hbs b (by simp)
    have hne : A.slot tail ≠ b := hhome.ne_slot (by omega)
    have hcons : A.homeWrites mem (b :: bs) tail = (b, mem (A.slot tail)) ::
        A.homeWrites (put mem b (mem (A.slot tail))) bs (tail + 1) := by
      refine congrArg (List.cons _) (List.map_congr_left fun e he => ?_)
      have hidx := (List.mem_zipIdx he).2.1
      rw [put_of_ne (hhome.ne_slot (by omega))]
    rw [hcons]
    exact puts_cons (installEntry_spec h (A.slot_lt (by omega)) hrange hne) fun _ s1 h1 =>
      ih (tail + 1) h1.coherent (fun c hc => hbs c (by simp [hc])) (by omega)

/-- **`write_log`** writes the log blocks one by one. -/
theorem writeLogFrom_spec {bs : List Nat} (tail : Nat) (h : Coherent s mem D [])
    (hbs : ∀ b ∈ bs, A.Home b ∧ b < FSSIZE) (hlen : tail + bs.length < A.size) :
    Ends (writeLogFrom A bs tail) s (fun _ => Puts s mem D (A.logWrites mem bs tail))
      (Partial s D (A.logWrites mem bs tail)) := by
  induction bs generalizing s mem D tail with
  | nil => exact puts_nil h
  | cons b bs ih =>
    simp only [List.length_cons] at hlen
    obtain ⟨hhome, hrange⟩ := hbs b (by simp)
    have hne : A.slot tail ≠ b := hhome.ne_slot (by omega)
    have hcons : A.logWrites mem (b :: bs) tail = (A.slot tail, mem b) ::
        A.logWrites (put mem (A.slot tail) (mem b)) bs (tail + 1) := by
      refine congrArg (List.cons _) (List.map_congr_left fun e he => ?_)
      have hmem : e.1 ∈ bs := (List.mem_zipIdx he).2.2 ▸ List.getElem_mem _
      rw [put_of_ne ((hbs e.1 (by simp [hmem])).1.ne_slot (by omega)).symm]
    rw [hcons]
    exact puts_cons (logEntry_spec h (A.slot_lt (by omega)) hrange hne) fun _ s1 h1 =>
      ih (tail + 1) h1.coherent (fun c hc => hbs c (by simp [hc])) (by omega)

end

/-! ## What a disk is worth after a crash -/

/-- **A disk recovers to `R`**: its header names different home blocks, and replaying them from the
log gives every home block the content `R`. -/
structure Recoverable (A : LogArea) (d R : Nat → Words) : Prop where
  count : headCount (d A.start) ≤ LOGSIZE
  length : (headBlocks (d A.start)).length < A.size
  nodup : (headBlocks (d A.start)).Nodup
  home : ∀ b ∈ headBlocks (d A.start), A.Home b ∧ b < FSSIZE
  replay : ∀ b, A.Home b → install d (A.homeWrites d (headBlocks (d A.start)) 0) b = R b

section

variable {A : LogArea} {d d' R mem : Nat → Words} {b tail : Nat} {bs : List Nat}

@[simp] theorem LogArea.homeWrites_fst : (A.homeWrites mem bs tail).map Prod.fst = bs := by
  rw [homeWrites, List.map_map]
  exact List.zipIdx_map_fst tail bs

@[simp] theorem LogArea.homeWrites_length : (A.homeWrites mem bs tail).length = bs.length := by
  simp [homeWrites]

theorem LogArea.Home.ne_start (hb : A.Home b) : b ≠ A.start := by
  have := A.pos
  unfold LogArea.Home at hb
  omega

theorem install_home_log {ws : List (Nat × Words)} (hws : ∀ b ∈ ws.map Prod.fst, A.Home b)
    (hb : ¬ A.Home b) : install d ws b = d b :=
  install_of_notMem fun hmem => hb (hws b hmem)

theorem LogArea.not_home_start (A : LogArea) : ¬ A.Home A.start := fun h => h.ne_start rfl

theorem LogArea.not_home_slot (htail : tail + 1 < A.size) : ¬ A.Home (A.slot tail) :=
  fun h => h.ne_slot htail rfl

theorem LogArea.homeWrites_congr {m m' : Nat → Words}
    (h : ∀ i, i < bs.length → m (A.slot i) = m' (A.slot i)) :
    A.homeWrites m bs 0 = A.homeWrites m' bs 0 := by
  refine List.map_congr_left fun e he => ?_
  have hlt := (List.mem_zipIdx he).2.1
  rw [h e.2 (by omega)]

theorem Recoverable.of_empty (hcount : headCount (d A.start) ≤ LOGSIZE)
    (hempty : headBlocks (d A.start) = []) (hR : ∀ b, A.Home b → d b = R b) :
      Recoverable A d R where
  count := hcount
  length := by simpa [hempty] using A.pos
  nodup := by simp [hempty]
  home := by simp [hempty]
  replay := fun b hb => by simpa [hempty, LogArea.homeWrites] using hR b hb

/-- **Replay is idempotent**: a disk on which part of the log was replayed already is worth the
same. -/
theorem Recoverable.install_take (h : Recoverable A d R) (n : Nat) :
    Recoverable A (install d ((A.homeWrites d (headBlocks (d A.start)) 0).take n)) R := by
  set bs := headBlocks (d A.start) with hbs
  set ws := A.homeWrites d bs 0 with hws
  have hkeys : ∀ b ∈ (ws.take n).map Prod.fst, b ∈ bs := by
    intro b hb
    obtain ⟨w, hw, rfl⟩ := List.mem_map.1 hb
    have hmem : w.1 ∈ ws.map Prod.fst := List.mem_map_of_mem (List.mem_of_mem_take hw)
    simpa [hws] using hmem
  have hlog : ∀ b, ¬ A.Home b → install d (ws.take n) b = d b := fun b hb =>
    install_home_log (fun c hc => (h.home c (hkeys c hc)).1) hb
  have hhead : install d (ws.take n) A.start = d A.start := hlog _ A.not_home_start
  have hsame : A.homeWrites (install d (ws.take n)) bs 0 = ws := by
    refine A.homeWrites_congr fun i hi => hlog _ (A.not_home_slot ?_)
    have := h.length
    rw [← hbs] at this
    omega
  refine ⟨by rw [hhead]; exact h.count, by rw [hhead]; exact h.length, by rw [hhead]; exact h.nodup,
    by rw [hhead]; exact h.home, fun b hb => ?_⟩
  rw [hhead, ← hbs, hsame, ← h.replay b hb]
  refine install_eq (by simpa [hws] using h.nodup) fun hnot => ?_
  exact install_of_notMem fun hmem => hnot (by simpa [hws] using hkeys b hmem)

end

/-! ## Recovery and commit -/

/-- **The state between two calls**: the home blocks on the disk hold `R`, the header is empty, and
the blocks of the current transaction are pinned in the cache with their content in `mem`. -/
structure Settled (A : LogArea) (s : Store) (R mem : Nat → Words) : Prop where
  coherent : Coherent s mem (· ∈ s.lh) []
  count : headCount (s.disk A.start) ≤ LOGSIZE
  empty : headBlocks (s.disk A.start) = []
  disk : ∀ b, A.Home b → s.disk b = R b
  length : s.lh.length ≤ LOGSIZE
  room : s.lh.length < A.size
  nodup : s.lh.Nodup
  home : ∀ b ∈ s.lh, A.Home b ∧ b < FSSIZE

section

variable {A : LogArea} {s : Store} {R mem : Nat → Words} {D : Nat → Prop}

theorem Settled.recoverable (h : Settled A s R mem) : Recoverable A s.disk R :=
  .of_empty h.count h.empty h.disk

theorem Settled.mem_eq (h : Settled A s R mem) {b : Nat} (hb : A.Home b) (hnot : b ∉ s.lh) :
    mem b = R b :=
  (h.coherent.clean b hnot).trans (h.disk b hb)

/-- **The end of `commit` and of `recover_from_log`**: the transaction that the header names is
copied home, and the header is cleared. Wherever the power fails, the disk is worth the same. -/
theorem replay_spec (h : Coherent s mem D []) (hrec : Recoverable A s.disk R)
    (hlh : s.lh = headBlocks (s.disk A.start)) (hD : ∀ c, D c → c ∈ s.lh) :
    Ends (do installTrans A; modify (·.setLh []); writeHead A) s
      (fun _ s' => s'.lh = [] ∧ ∃ mem', Settled A s' R mem') fun e s' =>
      Recoverable A s'.disk R ∧ Halted D s.budget (s.lh.length + 1) e := by
  have hlog : ∀ b, ¬ A.Home b → mem b = s.disk b := by
    intro b hb
    refine h.clean b fun hDb => hb ?_
    have hmem := hD b hDb
    rw [hlh] at hmem
    exact (hrec.home b hmem).1
  have hroom : s.lh.length < A.size := hlh ▸ hrec.length
  have hws : A.homeWrites mem s.lh 0 = A.homeWrites s.disk (headBlocks (s.disk A.start)) 0 := by
    rw [← hlh]
    exact A.homeWrites_congr fun i hi => hlog _ (A.not_home_slot (by omega))
  have htake := fun n => hrec.install_take n
  have hloop := installTransFrom_spec 0 h (fun b hb => hrec.home b (hlh ▸ hb)) (by omega)
  rw [hws] at hloop
  generalize hgen : A.homeWrites s.disk (headBlocks (s.disk A.start)) 0 = ws at hloop htake hws
  have hlen : ws.length = s.lh.length := by rw [← hws]; simp
  have hfst : ws.map Prod.fst = s.lh := by rw [← hws]; simp
  rw [installTrans, bind_assoc, ends_bind, ends_get, ends_bind]
  refine hloop.mono (fun _ s1 h1 => ?_) fun e s1 ⟨⟨n, hn⟩, hhalt⟩ => ⟨hn ▸ htake n, ?_⟩
  · -- every pinned block was written, so that nothing is pinned any more
    have hcoh : Coherent (s1.setLh []) (install mem ws) (fun _ => False) [] := by
      refine (h1.coherent.setLh []).congr fun c => ?_
      simp only [false_iff, not_and, not_not, hfst]
      exact hD c
    have hall : s1.disk = install s.disk (ws.take ws.length) := by rw [h1.disk, List.take_length]
    have hrec1 : Recoverable A s1.disk R := hall ▸ htake ws.length
    have hhome : ∀ b, A.Home b → s1.disk b = R b := fun b hb => by
      rw [h1.disk, ← hgen, hrec.replay b hb]
    rw [ends_bind, ends_modify]
    refine (writeHead_spec hcoh).mono (fun _ s2 h2 => ?_) fun e s2 ⟨hdisk, hhalt⟩ => ?_
    · have hhead : s2.disk A.start = install (install mem ws A.start) (headWords []) := by
        rw [h2.disk, put_self]
        rfl
      refine ⟨h2.lh, _, ⟨h2.coherent.congr fun c => by simp [h2.lh], ?_, ?_, ?_, ?_, ?_, ?_, ?_⟩⟩
      · rw [hhead, headCount_install (by simp)]
        simp
      · rw [hhead, headBlocks_install (by simp) (by simp)]
      · intro b hb
        rw [h2.disk, put_of_ne hb.ne_start]
        exact hhome b hb
      · simp [h2.lh]
      · simpa [h2.lh] using A.pos
      · simp [h2.lh]
      · simp [h2.lh]
    · refine ⟨?_, ?_⟩
      · rw [hdisk]
        exact hrec1
      · obtain ⟨he, hlt⟩ | ⟨c, hc⟩ := hhalt
        · refine .inl ⟨he, ?_⟩
          have := h1.budget
          simp only [Store.setLh_budget] at hlt
          omega
        · exact hc.elim
  · exact hhalt.imp_left fun ⟨he, hlt⟩ => ⟨he, by omega⟩

/-- **`recover_from_log`** after a reboot: it completes unless the power fails before its last
write, and the disk is worth the same at every point. -/
theorem recover_spec {d : Nat → Words} (hrec : Recoverable A d R) (budget : Nat) :
    Ends (recoverFromLog A) (Store.cold d budget)
      (fun _ s' => s'.lh = [] ∧ ∃ mem', Settled A s' R mem') fun e s' =>
      Recoverable A s'.disk R ∧ e = .crash ∧ budget < LOGSIZE + 1 := by
  have hlen : (headBlocks (d A.start)).length ≤ LOGSIZE := by
    have := hrec.count
    simp only [headBlocks, List.length_map, List.length_range]
    omega
  rw [recoverFromLog, ends_bind]
  refine (readHead_spec (cold_coherent d budget) hrec.count).mono
    (fun _ s1 ⟨hcoh, hdisk, hbudget, _, hlh⟩ => ?_) fun e s1 ⟨hdisk, hhalt⟩ => ?_
  · refine (replay_spec hcoh (hdisk ▸ hrec) (hlh.trans (by rw [hdisk]; rfl)) (by simp)).mono
      (fun _ _ h => h) fun e s2 ⟨hrec2, hhalt⟩ => ⟨hrec2, ?_⟩
    obtain ⟨he, hlt⟩ | ⟨c, hc⟩ := hhalt
    · refine ⟨he, ?_⟩
      rw [hlh, hbudget] at hlt
      exact lt_of_lt_of_le hlt (by omega)
    · exact hc.elim
  · obtain ⟨he, hlt⟩ | ⟨c, hc⟩ := hhalt
    · exact ⟨hdisk ▸ hrec, he, lt_of_lt_of_le hlt (by omega)⟩
    · exact hc.elim

theorem LogArea.logWrites_fst {bs : List Nat} {c tail : Nat}
    (hc : c ∈ (A.logWrites mem bs tail).map Prod.fst) (hlen : tail + bs.length < A.size) :
    c ≠ A.start ∧ ¬ A.Home c := by
  obtain ⟨w, hw, rfl⟩ := List.mem_map.1 hc
  obtain ⟨e, he, rfl⟩ := List.mem_map.1 hw
  have hlt := (List.mem_zipIdx he).2.1
  refine ⟨?_, A.not_home_slot (by omega)⟩
  simp only [LogArea.slot]
  omega

theorem LogArea.logWrites_nodup {bs : List Nat} {tail : Nat} :
    ((A.logWrites mem bs tail).map Prod.fst).Nodup := by
  have hkeys : (A.logWrites mem bs tail).map Prod.fst =
      (List.range' tail bs.length).map A.slot := by
    rw [LogArea.logWrites, List.map_map, ← List.zipIdx_map_snd, List.map_map]
    rfl
  rw [hkeys]
  refine List.Nodup.map_on ?_ List.nodup_range'
  intro i _ j _ hij
  simp only [LogArea.slot] at hij
  omega

section

variable (h : Settled A s R mem)

include h

theorem Settled.committed {d : Nat → Words}
    (hhead : headBlocks (d A.start) = s.lh) (hcount : headCount (d A.start) ≤ LOGSIZE)
    (hslot : ∀ i (hi : i < s.lh.length), d (A.slot i) = mem (s.lh[i]))
    (hhome : ∀ b, A.Home b → d b = s.disk b) : Recoverable A d mem where
  count := hcount
  length := by rw [hhead]; exact h.room
  nodup := by rw [hhead]; exact h.nodup
  home := by rw [hhead]; exact h.home
  replay := fun b hb => by
    rw [hhead]
    by_cases hmem : b ∈ s.lh
    · obtain ⟨i, hi, rfl⟩ := List.getElem_of_mem hmem
      have hw : (s.lh[i], d (A.slot i)) ∈ A.homeWrites d s.lh 0 := by
        refine List.mem_map.2 ⟨(s.lh[i], i), ?_, rfl⟩
        exact List.mk_mem_zipIdx_iff_getElem?.2 (List.getElem?_eq_getElem hi)
      have hlook := install_of_mem (d := d) (by simpa using h.nodup) hw
      exact hlook.trans (hslot i hi)
    · rw [install_of_notMem (by simpa using hmem), hhome b hb]
      exact (h.coherent.clean b hmem).symm

/-- **`commit` is atomic**: it leaves the new content on the disk, and wherever it stops the disk
is worth the old content or the new one. -/
theorem commit_spec :
    Ends (commit A) s (fun _ s' => s'.lh = [] ∧ ∃ mem', Settled A s' mem mem') fun _ s' =>
      Recoverable A s'.disk R ∨ Recoverable A s'.disk mem := by
  rw [commit, ends_bind, ends_get, ends_onlyIf]
  refine ⟨fun _ => ?_, fun hlen => ?_⟩
  · -- writing the log blocks does not change what the disk is worth
    have hold : ∀ n, Recoverable A (install s.disk ((A.logWrites mem s.lh 0).take n)) R := by
      intro n
      have hkeep : ∀ b, b = A.start ∨ A.Home b →
          install s.disk ((A.logWrites mem s.lh 0).take n) b = s.disk b := by
        intro b hb
        refine install_of_notMem fun hmem => ?_
        obtain ⟨w, hw, rfl⟩ := List.mem_map.1 hmem
        obtain ⟨h1, h2⟩ := A.logWrites_fst (List.mem_map_of_mem (List.mem_of_mem_take hw))
          (by simpa using h.room)
        exact hb.elim h1 h2
      have hstart := hkeep A.start (.inl rfl)
      exact .of_empty (by rw [hstart]; exact h.count) (by rw [hstart]; exact h.empty)
        fun b hb => (hkeep b (.inr hb)).trans (h.disk b hb)
    rw [ends_bind, writeLog, ends_bind, ends_get]
    refine (writeLogFrom_spec 0 h.coherent h.home (by simpa using h.room)).mono
      (fun _ s1 h1 => ?_) fun e s1 ⟨⟨n, hn⟩, _⟩ => .inl (hn ▸ hold n)
    have hroom := h.room
    have hrec1 : Recoverable A s1.disk R := by
      have hall := hold (A.logWrites mem s.lh 0).length
      rwa [List.take_length, ← h1.disk] at hall
    have hlog : ∀ {c}, c ∈ (A.logWrites mem s.lh 0).map Prod.fst → c ≠ A.start ∧ ¬ A.Home c :=
      fun hc => A.logWrites_fst hc (by simpa using h.room)
    rw [ends_bind]
    refine (writeHead_spec h1.coherent).mono (fun _ s2 h2 => ?_) fun e s2 ⟨hdisk, _⟩ =>
      .inl (hdisk ▸ hrec1)
    rw [h1.lh] at h2
    have hhead : s2.disk A.start =
        install (install mem (A.logWrites mem s.lh 0) A.start) (headWords s.lh) := by
      rw [h2.disk, put_self]
    have hblocks : headBlocks (s2.disk A.start) = s.lh := by
      rw [hhead, headBlocks_install h.length fun b hb => (h.home b hb).2]
    have hrec2 : Recoverable A s2.disk mem := by
      refine h.committed hblocks ?_ (fun i hi => ?_) fun b hb => ?_
      · rw [hhead, headCount_install h.length]
        exact_mod_cast h.length
      · have hw : (A.slot i, mem (s.lh[i])) ∈ A.logWrites mem s.lh 0 := by
          refine List.mem_map.2 ⟨(s.lh[i], i), ?_, rfl⟩
          exact List.mk_mem_zipIdx_iff_getElem?.2 (List.getElem?_eq_getElem hi)
        rw [h2.disk, put_of_ne (hlog (List.mem_map_of_mem hw)).1, h1.disk]
        exact install_of_mem A.logWrites_nodup hw
      · rw [h2.disk, put_of_ne hb.ne_start, h1.disk]
        exact install_of_notMem fun hmem => (hlog hmem).2 hb
    -- the transaction is committed: the rest is what recovery does
    have hlh2 : s2.lh = s.lh := h2.lh.trans h1.lh
    refine (replay_spec h2.coherent hrec2 (hlh2.trans hblocks.symm) fun c hc => ?_).mono
      (fun _ _ h => h) fun e s3 ⟨hrec3, _⟩ => .inr hrec3
    rw [hlh2]
    exact hc.1.1
  · have hnil : s.lh = [] := List.length_eq_zero_iff.1 (by omega)
    have hsame : ∀ b, A.Home b → mem b = R b := fun b hb => h.mem_eq hb (by simp [hnil])
    exact ⟨hnil, mem, { h with disk := fun b hb => (h.disk b hb).trans (hsame b hb).symm }⟩

/-! ## Writes of a transaction -/

theorem Settled.of_rest {s' : Store} (hcoh : Coherent s' mem (· ∈ s.lh) [])
    (hrest : Rest s s') : Settled A s' R mem where
  coherent := hrest.lh ▸ hcoh
  count := hrest.disk ▸ h.count
  empty := hrest.disk ▸ h.empty
  disk := hrest.disk ▸ h.disk
  length := hrest.lh ▸ h.length
  room := hrest.lh ▸ h.room
  nodup := hrest.lh ▸ h.nodup
  home := hrest.lh ▸ h.home

theorem read_spec (b : Nat) :
    Ends (do let i ← bread ROOTDEV b; brelse i) s (fun _ s' => Settled A s' R mem) fun _ s' =>
      s'.disk = s.disk := by
  rw [ends_bind]
  refine (bread_spec h.coherent (by simp)).mono (fun i s1 h1 => ?_) fun _ _ hstop => hstop.1.disk
  refine (brelse_spec h1.coherent (by simp)).mono (fun _ s2 h2 => ?_) (by simp)
  exact h.of_rest h2.1 (h1.rest.trans h2.2.1)

omit h in
theorem mem_absorb {lh : List Nat} {b c : Nat} : c ∈ absorb lh b ↔ c ∈ lh ∨ c = b := by
  unfold absorb
  split
  · rename_i hb
    exact ⟨.inl, by rintro (hc | rfl); exacts [hc, hb]⟩
  · simp

/-- **A write of a transaction** changes the cache and not the disk; a block that is written again
is absorbed. -/
theorem update_spec {b : Nat} (hb : A.Home b) (f : Words → Words) :
    Ends (update A b f) s (fun _ s' => Settled A s' R (put mem b (f (mem b)))) fun _ s' =>
      s'.disk = s.disk := by
  rw [update, ends_bind]
  refine (bread_spec h.coherent (by simp)).mono (fun i s1 h1 => ?_) fun _ _ hstop => hstop.1.disk
  have hi : i ∈ [i] := by simp
  have hrange : b < FSSIZE := h1.blockno ▸ h1.coherent.inRange i (h1.coherent.held i hi)
  simp only [logWrite, ends_bind, ends_get, ends_modify, ends_stopIf, h1.data]
  refine ⟨fun _ => h1.rest.disk, fun hbig => ⟨fun _ => h1.rest.disk, fun _ => ?_⟩⟩
  simp only [Store.mapBuf_lh, h1.rest.lh, Store.mapBuf_buf, if_true, Buf.withData_blockno,
    h1.blockno, not_or, not_le] at hbig ⊢
  have hpin := (h1.coherent.pin hi h1.blockno (f (mem b))).setLh (absorb s.lh b)
  rw [Store.setLh_mapBuf, Store.mapBuf_mapBuf]
  refine (brelse_spec hpin (by simp)).mono (fun _ s2 h2 => ?_) (by simp)
  have hdisk : s2.disk = s.disk := h2.2.1.disk.trans h1.rest.disk
  have hlh : s2.lh = absorb s.lh b := h2.2.1.lh
  have hlength : (absorb s.lh b).length ≤ s.lh.length + 1 := by
    unfold absorb
    split <;> simp
  refine ⟨h2.1.congr fun c => by rw [hlh, mem_absorb], hdisk ▸ h.count, hdisk ▸ h.empty,
    hdisk ▸ h.disk, by rw [hlh]; omega, by rw [hlh]; omega, ?_, ?_⟩
  · rw [hlh, absorb]
    split
    · exact h.nodup
    · rename_i hnot
      exact List.nodup_append.2 ⟨h.nodup, by simp, fun c hc d hd hcd => hnot (by simp_all)⟩
  · intro c hc
    rw [hlh, mem_absorb] at hc
    rcases hc with hc | rfl
    · exact h.home c hc
    · exact ⟨hb, hrange⟩

end

end

end Xv6.Storage
