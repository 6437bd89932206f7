import Xv6.Fs.Blocks

/-! # Reading and writing the content of a file

What `readi`, `writei` and `itrunc` do to the bytes of all files. A call works on an inode that is
cached and valid, as it is between `ilock` and `iunlock`.

* **`Fs.Sound`** — the blocks are laid out well, and the valid inodes in memory are copies of those
  on the disk.
* **`Fs.readi_ends`**, **`Fs.writei_ends`**, **`Fs.itrunc_cut`** — the three calls from a sound file
  system: what they return, which bytes they change, and that they leave a sound file system. -/

namespace Xv6.Fs

open Foundation Function
open Inodes (Dinode NDIRECT)

theorem chunk_div_mod {off m k : Nat} (hm : m ≤ BSIZE - off % BSIZE) (hk : k < m) :
    (off + k) / BSIZE = off / BSIZE ∧ (off + k) % BSIZE = off % BSIZE + k := by
  unfold BSIZE at *
  omega

variable {s s' s'' : Fs} {ip off n : Nat} {src : Nat → UInt8}

/-- Byte `k` of inode `i`, as a call on `ip` sees it. -/
def byte (s : Fs) (ip i k : Nat) : UInt8 :=
  s.disk.block (s.own ip (i, slotOf (k / BSIZE))) (k % BSIZE)

/-! ## The loop of `readi` -/

/-- **The loop of `readi`** copies the bytes and changes nothing. -/
theorem readBlocks_ends {rounds : Nat}
    (h : Exact (· < s.sb.nmeta) s.sb.size s.disk.bitmap (s.own ip))
    (htype : (s.mem ip).data.type ≠ 0) (hrounds : n ≤ rounds)
    (hown : ∀ k < n, s.own ip (ip, slotOf ((off + k) / BSIZE)) ≠ 0) :
    Ends (readBlocks ip rounds off n) s
      (fun l s' => s' = s ∧ l = (List.range n).map fun k => s.byte ip ip (off + k))
      fun _ _ => False := by
  induction rounds generalizing off n with
  | zero =>
    obtain rfl := Nat.le_zero.1 hrounds
    exact ⟨rfl, rfl⟩
  | succ rounds ih =>
    rw [readBlocks]
    split
    · rename_i hn
      subst hn
      exact ⟨rfl, rfl⟩
    · rename_i hn
      have hslot := hown 0 (Nat.pos_of_ne_zero hn)
      rw [Nat.add_zero] at hslot
      rw [ends_bind]
      refine (bmap_found h htype hslot).mono ?_ fun _ _ hstop => hstop
      rintro _ s ⟨rfl, rfl⟩
      rw [ends_bind]
      refine (bread_ends h hslot).mono ?_ fun _ _ hstop => hstop
      rintro _ s rfl
      simp only [ends_bind, ends_get, ends_pure]
      generalize hm : min n (BSIZE - off % BSIZE) = m
      have hmn : m ≤ n := by omega
      have hmb : m ≤ BSIZE - off % BSIZE := by omega
      have hpos : 0 < m := by
        have := Nat.mod_lt off (show 0 < BSIZE by decide)
        omega
      have hrest : ∀ k < n - m, s.own ip (ip, slotOf ((off + m + k) / BSIZE)) ≠ 0 := by
        intro k hk
        rw [Nat.add_assoc]
        exact hown (m + k) (by omega)
      refine (ih (by omega) hrest).mono ?_ fun _ _ hstop => hstop
      rintro _ s ⟨rfl, rfl⟩
      refine ⟨rfl, ?_⟩
      obtain ⟨r, rfl⟩ := Nat.exists_eq_add_of_le hmn
      rw [List.range_add, List.map_append, List.map_map, Nat.add_sub_cancel_left]
      congr 1
      · apply List.map_congr_left
        intro k hk
        obtain ⟨hdiv, hmod⟩ := chunk_div_mod hmb (List.mem_range.1 hk)
        rw [byte, hdiv, hmod]
      · apply List.map_congr_left
        intro k _
        rw [comp_apply, Nat.add_assoc]

/-! ## The loop of `writei` -/

/-- The slots that the bytes from `off` to `off + n` need. -/
def NeedsFor (off n l : Nat) : Prop := ∃ k < n, Needs ((off + k) / BSIZE) l

/-- **The bytes from `off` to `off + n` were written** to `ip`: these bytes come from `src`, and no
other byte of any file has changed. -/
structure Written (ip : Nat) (src : Nat → UInt8) (off n : Nat) (s s' : Fs) : Prop where
  grown : Grown ip s s'
  /-- Where something was written, there is a block. -/
  filled : ∀ {k}, off ≤ k → k < off + n → s'.own ip (ip, slotOf (k / BSIZE)) ≠ 0
  inside : ∀ {k}, off ≤ k → k < off + n → s'.byte ip ip k = src (k - off)
  outside : ∀ {i k}, ¬ (i = ip ∧ off ≤ k ∧ k < off + n) → s.own ip (i, slotOf (k / BSIZE)) ≠ 0 →
    s'.byte ip i k = s.byte ip i k
  /-- Only slots that the written bytes need were filled. -/
  rest : ∀ {l}, ¬ NeedsFor off n l → s'.own ip (ip, l) = s.own ip (ip, l)
  /-- No block number changes when there is a block for all of them. -/
  same : (∀ k, off ≤ k → k < off + n → s.own ip (ip, slotOf (k / BSIZE)) ≠ 0) →
    s'.mem = s.mem ∧ s'.own ip = s.own ip ∧ s'.disk.bitmap = s.disk.bitmap

namespace Written

theorem zero (h : s.LaidOut ip) : Written ip src off 0 s s where
  grown := .refl h
  filled h1 h2 := absurd h2 (by omega)
  inside h1 h2 := absurd h2 (by omega)
  outside _ _ := rfl
  rest _ := rfl
  same _ := ⟨rfl, rfl, rfl⟩

theorem append {m : Nat} (h : Written ip src off m s s')
    (h' : Written ip (fun k => src (m + k)) (off + m) n s' s'') :
      Written ip src off (m + n) s s'' where
  grown := h.grown.trans h'.grown
  filled {k} h1 h2 := by
    by_cases hk : k < off + m
    · have := h.filled h1 hk
      rwa [h'.grown.grows.keep this]
    · exact h'.filled (by omega) (by omega)
  inside {k} h1 h2 := by
    by_cases hk : k < off + m
    · rw [h'.outside (by omega) (h.filled h1 hk), h.inside h1 hk]
    · rw [h'.inside (by omega) (by omega)]
      congr 1
      omega
  outside {i k} hk hown := by
    have hkeep := h.grown.grows.keep hown
    rw [h'.outside (fun hin => hk ⟨hin.1, by omega⟩) (hkeep ▸ hown),
      h.outside (fun hin => hk ⟨hin.1, by omega⟩) hown]
  rest {l} hl := by
    rw [h'.rest, h.rest]
    · rintro ⟨k, hk, hneed⟩
      exact hl ⟨k, by omega, hneed⟩
    · rintro ⟨k, hk, hneed⟩
      exact hl ⟨m + k, by omega, by rwa [← Nat.add_assoc]⟩
  same hall := by
    obtain ⟨hmem, hown, hbit⟩ := h.same fun k h1 h2 => hall k h1 (by omega)
    obtain ⟨hmem', hown', hbit'⟩ := h'.same fun k h1 h2 => by
      rw [hown]
      exact hall k (by omega) (by omega)
    exact ⟨hmem'.trans hmem, hown'.trans hown, hbit'.trans hbit⟩

end Written

theorem own_setBlock {κ : Place} (bytes : Block) (h : s.LaidOut ip) (hκ : κ.2 ≠ NDIRECT)
    (hne : s.own ip κ ≠ 0) : (s.setBlock (s.own ip κ) bytes).own ip = s.own ip := by
  apply pointers_setBlock
  intro i hi heq
  exact hκ (congrArg Prod.snd (h.exact.inj hne heq.symm))

theorem Grown.setBlock {b : Nat} {bytes : Block} (h : s.LaidOut ip)
    (hown : (s.setBlock b bytes).own ip = s.own ip) : Grown ip s (s.setBlock b bytes) where
  laid := by
    constructor
    · show Exact _ _ _ ((s.setBlock b bytes).own ip)
      rw [hown]
      exact h.exact
    · intro i bn htype hsize
      show (s.setBlock b bytes).own ip (i, slotOf bn) ≠ 0
      rw [hown]
      exact h.covered htype hsize
  sb := rfl
  inode := rfl
  mem := .refl
  grows := by
    rw [hown]
    exact .refl
  others _ := by rw [hown]

/-- **One chunk is written** to the block that `bmap` has found. -/
theorem Mapped.written {a m : Nat} (src : Nat → UInt8)
    (hmap : Mapped ip (slotOf (off / BSIZE)) a (Needs (off / BSIZE)) s s')
    (hm : m ≤ BSIZE - off % BSIZE) (hpos : 0 < m) :
    Written ip src off m s
      (s'.setBlock a (overwrite (s'.disk.block a) (off % BSIZE) m src)) := by
  obtain rfl := hmap.val
  have hlaid := hmap.grown.laid
  have hown := own_setBlock (overwrite (s'.disk.block (s'.own ip (ip, slotOf (off / BSIZE))))
    (off % BSIZE) m src) hlaid (slotOf_ne _) hmap.ne
  generalize hs'' : s'.setBlock (s'.own ip (ip, slotOf (off / BSIZE)))
    (overwrite (s'.disk.block (s'.own ip (ip, slotOf (off / BSIZE)))) (off % BSIZE) m src)
      = s'' at hown
  have hdiv : ∀ {k}, off ≤ k → k < off + m → k / BSIZE = off / BSIZE ∧
      k % BSIZE = off % BSIZE + (k - off) := by
    intro k h1 h2
    obtain ⟨j, rfl⟩ := Nat.exists_eq_add_of_le h1
    rw [Nat.add_sub_cancel_left]
    exact chunk_div_mod hm (by omega)
  constructor
  case grown =>
    subst hs''
    exact hmap.grown.trans (.setBlock hlaid hown)
  case filled =>
    intro k h1 h2
    rw [hown, (hdiv h1 h2).1]
    exact hmap.ne
  case inside =>
    intro k h1 h2
    rw [byte, hown, (hdiv h1 h2).1, (hdiv h1 h2).2, ← hs'', setBlock_disk_block, update_self,
      overwrite, if_pos (by omega), Nat.add_sub_cancel_left]
  case outside =>
    intro i k hk hne
    have hkeep := hmap.grown.grows.keep hne
    rw [byte, hown, byte, ← hs'', setBlock_disk_block]
    by_cases hsame : s'.own ip (i, slotOf (k / BSIZE)) = s'.own ip (ip, slotOf (off / BSIZE))
    · -- the same block, but another part of it
      obtain ⟨rfl, hslot⟩ := Prod.mk.inj (hlaid.exact_own.inj (hkeep ▸ hne) hsame)
      have hblock := slotOf_inj hslot
      rw [hsame, update_self, overwrite, if_neg, ← hsame, hkeep, hmap.bytes (slotOf_ne _) hne]
      unfold BSIZE at *
      omega
    · rw [update_of_ne hsame, hkeep, hmap.bytes (slotOf_ne _) hne]
  case rest =>
    intro l hl
    rw [hown]
    exact hmap.rest fun hneed => hl ⟨0, hpos, hneed⟩
  case same =>
    intro hall
    obtain rfl := hmap.same (hall off le_rfl (by omega))
    subst hs''
    exact ⟨rfl, hown, rfl⟩

/-- **The loop of `writei`** writes the bytes, unless there are fewer free blocks than it needs. -/
theorem writeBlocks_ends {rounds : Nat} (h : s.LaidOut ip) (htype : (s.mem ip).data.type ≠ 0)
    (hrounds : n ≤ rounds) (hmax : off + n ≤ MAXFILE * BSIZE) :
    Ends (writeBlocks ip rounds src off n) s (fun _ s' => Written ip src off n s s')
      fun e _ => e = .outOfBlocks ∧ ∀ S : Finset Place, (∀ l, NeedsFor off n l → (ip, l) ∈ S) →
        freeBlocks s.sb.size s.disk.bitmap < missing (s.own ip) S := by
  induction rounds generalizing s src off n with
  | zero =>
    obtain rfl := Nat.le_zero.1 hrounds
    exact .zero h
  | succ rounds ih =>
    rw [writeBlocks]
    split
    · rename_i hn
      subst hn
      exact .zero h
    · rename_i hn
      have hbn : off / BSIZE < MAXFILE := by
        apply Nat.div_lt_of_lt_mul
        rw [Nat.mul_comm]
        omega
      rw [ends_bind]
      refine (bmap_ends h htype hbn).mono ?_ ?_
      · intro a s1 hmap
        have hread := bread_ends hmap.grown.laid.exact_own (hmap.val ▸ hmap.ne)
        rw [← hmap.val] at hread
        rw [ends_bind]
        refine hread.mono ?_ fun _ _ hstop => hstop.elim
        rintro _ s1 rfl
        simp only [ends_bind, ends_modify]
        generalize hm : min n (BSIZE - off % BSIZE) = m
        have hpos : 0 < m := by
          have := Nat.mod_lt off (show 0 < BSIZE by decide)
          omega
        obtain ⟨r, rfl⟩ := Nat.exists_eq_add_of_le (show m ≤ n by omega)
        have hchunk := hmap.written src (show m ≤ BSIZE - off % BSIZE by omega) hpos
        rw [Nat.add_sub_cancel_left]
        refine (ih hchunk.grown.laid ?_ (by omega) (by omega)).mono ?_ ?_
        · rwa [hchunk.grown.mem.type_eq]
        · exact fun _ s2 hrest => hchunk.append hrest
        · rintro e _ ⟨he, hshort⟩
          refine ⟨he, fun S hS => hchunk.grown.shortage (fun l hl hl' => ?_) (hshort S fun l => ?_)⟩
          · apply hS
            by_contra hneed
            refine hl' ((hchunk.rest fun hneed' => hneed ?_).trans hl)
            obtain ⟨k, hk, hk'⟩ := hneed'
            exact ⟨k, by omega, hk'⟩
          · rintro ⟨k, hk, hk'⟩
            exact hS l ⟨m + k, by omega, by rwa [← Nat.add_assoc]⟩
      · rintro e _ ⟨he, hshort⟩
        exact ⟨he, fun S hS => hshort S fun k hk => hS k ⟨0, by omega, hk⟩⟩

/-! ## Calls on a valid inode -/

/-- A valid inode in memory is a copy of an allocated one on the disk. -/
def Coherent (s : Fs) : Prop :=
  ∀ i, 0 < (s.mem i).ref → (s.mem i).valid = true →
    (s.mem i).data = s.disk.inode i ∧ (s.disk.inode i).type ≠ 0

/-- **The file system is sound**: its blocks are laid out well, and the valid inodes in memory are
those on the disk. -/
structure Sound (s : Fs) : Prop where
  laid : Laid s.sb s.disk.inode s.disk.bitmap s.disk.block
  coherent : s.Coherent

theorem Coherent.of_one (h : s.Coherent) (ip : Nat) (hmem : ∀ {i}, i ≠ ip → s'.mem i = s.mem i)
    (hinode : ∀ {i}, i ≠ ip → s'.disk.inode i = s.disk.inode i)
    (hself : 0 < (s'.mem ip).ref → (s'.mem ip).valid = true →
      (s'.mem ip).data = s'.disk.inode ip ∧ (s'.disk.inode ip).type ≠ 0) : s'.Coherent := by
  intro i hr hv
  by_cases hi : i = ip
  · subst hi
    exact hself hr hv
  · rw [hmem hi] at hr hv ⊢
    rw [hinode hi]
    exact h i hr hv

/-- Inode `ip` is cached and valid. -/
structure InUse (s : Fs) (ip : Nat) : Prop where
  ref : 0 < (s.mem ip).ref
  valid : (s.mem ip).valid = true

/-- Byte `k` of inode `i`. -/
def fileByte (s : Fs) (i k : Nat) : UInt8 :=
  s.disk.block (pointers s.disk.inode s.disk.block (i, slotOf (k / BSIZE))) (k % BSIZE)

/-- The slots that the bytes of inode `ip` from `off` to `off + n` need. -/
def slotsFor (ip off n : Nat) : Finset Place :=
  (Finset.range n).biUnion fun k =>
    {(ip, slotOf ((off + k) / BSIZE))} ∪ if NDIRECT ≤ (off + k) / BSIZE then {(ip, NDIRECT)} else ∅

theorem mem_slotsFor {l : Nat} (h : NeedsFor off n l) : (ip, l) ∈ slotsFor ip off n := by
  obtain ⟨k, hk, hneed⟩ := h
  simp only [slotsFor, Finset.mem_biUnion, Finset.mem_range]
  refine ⟨k, hk, ?_⟩
  rcases hneed with rfl | ⟨rfl, hge⟩ <;> simp [*]

/-- The number of blocks that `writei` has to allocate. -/
def demand (s : Fs) (ip off n : Nat) : Nat :=
  missing (pointers s.disk.inode s.disk.block) (slotsFor ip off n)

/-- The number of free blocks. -/
def free (s : Fs) : Nat := freeBlocks s.sb.size s.disk.bitmap

/-- `writei` accepts the range. -/
def Accepts (s : Fs) (ip off n : Nat) : Prop :=
  off ≤ (s.disk.inode ip).size ∧ ¬ wraps off n ∧ off + n ≤ MAXFILE * BSIZE

instance : Decidable (s.Accepts ip off n) := inferInstanceAs (Decidable (_ ∧ _))

namespace Sound

section

variable (h : s.Sound)

include h

theorem data_eq (hu : s.InUse ip) : (s.mem ip).data = s.disk.inode ip :=
  (h.coherent ip hu.ref hu.valid).1

theorem type_ne (hu : s.InUse ip) : (s.disk.inode ip).type ≠ 0 :=
  (h.coherent ip hu.ref hu.valid).2

theorem table_eq (hu : s.InUse ip) : s.table ip = s.disk.inode := by
  rw [table, h.data_eq hu, update_eq_self]

theorem own_eq (hu : s.InUse ip) :
    s.own ip = pointers s.disk.inode s.disk.block := by
  rw [own, h.table_eq hu]

theorem laidOut (hu : s.InUse ip) : s.LaidOut ip := by
  show Laid _ _ _ _
  rw [h.table_eq hu]
  exact h.laid

theorem byte_eq (hu : s.InUse ip) (i k : Nat) : s.byte ip i k = s.fileByte i k := by
  rw [byte, h.own_eq hu, fileByte]

theorem pointers_ne {i k : Nat} (htype : (s.disk.inode i).type ≠ 0)
    (hk : k < (s.disk.inode i).size) :
    pointers s.disk.inode s.disk.block (i, slotOf (k / BSIZE)) ≠ 0 := by
  apply h.laid.covered htype
  exact Nat.lt_of_le_of_lt (Nat.div_mul_le_self k BSIZE) hk

/-- **A change to one inode**, in memory and on the disk. -/
theorem of_one (ip : Nat) (hexact : Exact (· < s'.sb.nmeta) s'.sb.size s'.disk.bitmap
      (pointers s'.disk.inode s'.disk.block))
    (hptr : ∀ {i k}, i ≠ ip → pointers s'.disk.inode s'.disk.block (i, k)
      = pointers s.disk.inode s.disk.block (i, k))
    (hmem : ∀ {i}, i ≠ ip → s'.mem i = s.mem i)
    (hinode : ∀ {i}, i ≠ ip → s'.disk.inode i = s.disk.inode i)
    (hcovered : ∀ {bn}, (s'.disk.inode ip).type ≠ 0 → bn * BSIZE < (s'.disk.inode ip).size →
      pointers s'.disk.inode s'.disk.block (ip, slotOf bn) ≠ 0)
    (hself : 0 < (s'.mem ip).ref → (s'.mem ip).valid = true →
      (s'.mem ip).data = s'.disk.inode ip ∧ (s'.disk.inode ip).type ≠ 0) : s'.Sound := by
  refine ⟨⟨hexact, fun {i bn} htype hsize => ?_⟩, h.coherent.of_one ip hmem hinode hself⟩
  by_cases hi : i = ip
  · subst hi
    exact hcovered htype hsize
  · rw [hinode hi] at htype hsize
    rw [hptr hi]
    exact h.laid.covered htype hsize

end

end Sound

/-- **What a read of the first `n` bytes of `ip` needs**: the blocks of these bytes, as far as they
are there. -/
structure Readable (s : Fs) (ip n : Nat) : Prop where
  exact : Exact (· < s.sb.nmeta) s.sb.size s.disk.bitmap (pointers s.disk.inode s.disk.block)
  data : (s.mem ip).data = s.disk.inode ip
  type : (s.disk.inode ip).type ≠ 0
  dev : (s.disk.inode ip).type ≠ T_DEV
  covered : ∀ k < n, k < (s.disk.inode ip).size →
    pointers s.disk.inode s.disk.block (ip, slotOf (k / BSIZE)) ≠ 0

theorem Readable.mono {m : Nat} (h : s.Readable ip n) (hm : m ≤ n) : s.Readable ip m :=
  { h with covered := fun k hk => h.covered k (Nat.lt_of_lt_of_le hk hm) }

theorem Sound.readable (h : s.Sound) (hu : s.InUse ip) (hdev : (s.disk.inode ip).type ≠ T_DEV) :
    s.Readable ip n :=
  ⟨h.laid.exact, h.data_eq hu, h.type_ne hu, hdev, fun _ _ hk => h.pointers_ne (h.type_ne hu) hk⟩

/-- **`readi`** returns a slice of the bytes and changes nothing. -/
theorem readi_ends (h : s.Readable ip (off + n)) :
    Ends (readi ip off n) s
      (fun r s' => s' = s ∧ r =
        if off ≤ (s.disk.inode ip).size ∧ ¬ wraps off n then
          some ((List.range (min n ((s.disk.inode ip).size - off))).map fun k =>
            s.fileByte ip (off + k))
        else none)
      fun _ _ => False := by
  have hown : s.own ip = pointers s.disk.inode s.disk.block := by
    rw [own, table, h.data, update_eq_self]
  simp only [readi, ends_bind, ends_get, ends_stopIf, h.data]
  refine ⟨fun hd => h.dev hd, fun _ => ?_⟩
  split
  · rename_i hbad
    rw [if_neg (fun hgood => by rcases hbad with hbad | hbad; exacts [by omega, hgood.2 hbad])]
    exact ⟨rfl, rfl⟩
  · rename_i hgood
    rw [not_or, Nat.not_lt] at hgood
    rw [if_pos hgood]
    have hn : (if off + n > (s.disk.inode ip).size then (s.disk.inode ip).size - off else n)
        = min n ((s.disk.inode ip).size - off) := by
      split <;> omega
    rw [hn, map_eq_pure_bind, ends_bind]
    refine (readBlocks_ends (hown ▸ h.exact) (by rw [h.data]; exact h.type) le_rfl ?_).mono ?_
      fun _ _ hstop => hstop
    · intro k hk
      rw [hown]
      exact h.covered (off + k) (by omega) (by omega)
    · rintro _ s ⟨rfl, rfl⟩
      simp only [byte, hown, fileByte, ends_pure, and_self]

/-- **What a successful `writei` does**: the bytes from `off` to `off + n` come from `src`, the size
covers them, and nothing else has changed in any inode. -/
structure Stored (ip : Nat) (src : Nat → UInt8) (off n : Nat) (s s' : Fs) : Prop where
  sound : s'.Sound
  sb : s'.sb = s.sb
  cached : ∀ i, (s'.mem i).ref = (s.mem i).ref ∧ (s'.mem i).valid = (s.mem i).valid
  others : ∀ {i}, i ≠ ip → s'.disk.inode i = s.disk.inode i
  fields : s'.disk.inode ip = { s.disk.inode ip with
    size := max (s.disk.inode ip).size (off + n), addrs := (s'.disk.inode ip).addrs }
  inside : ∀ {k}, off ≤ k → k < off + n → s'.fileByte ip k = src (k - off)
  outside : ∀ {i k}, ¬ (i = ip ∧ off ≤ k ∧ k < off + n) → (s.disk.inode i).type ≠ 0 →
    k < (s.disk.inode i).size → s'.fileByte i k = s.fileByte i k

theorem Written.stored_inside (hw : Written ip src off n s s') (h : s.Sound) (hu : s.InUse ip)
    (hoff : off ≤ (s.disk.inode ip).size) (hn : n = 0 ∨ off + n ≤ (s.disk.inode ip).size) :
      Stored ip src off n s s' := by
  obtain ⟨hmem, hown, hbit⟩ := hw.same fun k h1 h2 => by
    rw [h.own_eq hu]
    exact h.pointers_ne (h.type_ne hu) (by omega)
  have hinode := hw.grown.inode
  have hptr : pointers s'.disk.inode s'.disk.block = pointers s.disk.inode s.disk.block := by
    rw [← h.own_eq hu, ← hown, own, table, hmem, h.data_eq hu, hinode, update_eq_self]
  have hbyte : ∀ i k, s'.byte ip i k = s'.fileByte i k := by
    intro i k
    rw [byte, hown, h.own_eq hu, fileByte, hptr]
  constructor
  case sound =>
    constructor
    · have hlaid := hw.grown.laid
      rwa [LaidOut, table, hmem, h.data_eq hu, ← hinode, update_eq_self] at hlaid
    · rw [Coherent, hmem, hinode]
      exact h.coherent
  case sb => exact hw.grown.sb
  case cached => exact fun i => by rw [hmem]; exact ⟨rfl, rfl⟩
  case others => exact fun _ => by rw [hinode]
  case fields =>
    rw [hinode]
    have : max (s.disk.inode ip).size (off + n) = (s.disk.inode ip).size := by omega
    rw [this]
  case inside =>
    intro k h1 h2
    rw [← hbyte, hw.inside h1 h2]
  case outside =>
    intro i k hk htype' hsize
    rw [← hbyte, hw.outside hk (by rw [h.own_eq hu]; exact h.pointers_ne htype' hsize),
      h.byte_eq hu]

theorem Written.stored_beyond (hw : Written ip src off n s s') (h : s.Sound) (hu : s.InUse ip)
    (hoff : off ≤ (s.disk.inode ip).size) (hn : (s.disk.inode ip).size < off + n) :
    Stored ip src off n s ((s'.setData ip fun d => { d with size := off + n }).setInode ip
      ((s'.setData ip fun d => { d with size := off + n }).mem ip).data) := by
  obtain ⟨a, ha⟩ := hw.grown.mem
  have hdata : (s'.mem ip).data = { s.disk.inode ip with addrs := a } := by
    rw [ha, update_self, h.data_eq hu]
  have hmem : ∀ {i}, i ≠ ip → s'.mem i = s.mem i := by
    intro i hi
    rw [ha, update_of_ne hi]
  have hinode := hw.grown.inode
  generalize hs'' : (s'.setData ip fun d => { d with size := off + n }).setInode ip
    ((s'.setData ip fun d => { d with size := off + n }).mem ip).data = s''
  have hinode'' : s''.disk.inode = update s.disk.inode ip
      { s.disk.inode ip with size := off + n, addrs := a } := by
    rw [← hs'', setInode_disk_inode, setData_mem, update_self, setData_disk, hinode, hdata]
  have hptr : pointers s''.disk.inode s''.disk.block = s'.own ip := by
    have htable : s''.disk.inode = update (s'.table ip) ip
        { (s'.mem ip).data with size := off + n } := by
      rw [hinode'', table, update_idem, hinode, hdata]
    rw [htable, ← hs'']
    exact pointers_congr (by rw [table_self]) (by rw [table_self])
  have hbyte : ∀ i k, s''.fileByte i k = s'.byte ip i k := by
    intro i k
    rw [fileByte, hptr, byte, ← hs'']
    rfl
  constructor
  case sound =>
    have hself : (s''.mem ip).data = s''.disk.inode ip := by
      rw [hinode'', update_self, ← hs'', setInode_mem, setData_mem, update_self, hdata]
    refine h.of_one ip ?_ ?_ ?_ ?_ ?_ fun _ _ => ⟨hself, ?_⟩
    · rw [hptr, ← hs'']
      exact hw.grown.laid.exact
    · intro i k hi
      rw [hptr, ← h.own_eq hu]
      exact hw.grown.others hi
    · intro i hi
      rw [← hs'', setInode_mem, setData_mem, update_of_ne hi, hmem hi]
    · intro i hi
      rw [hinode'', update_of_ne hi]
    · intro bn htype hsize
      rw [hinode'', update_self] at htype hsize
      rw [hptr]
      by_cases hold : bn * BSIZE < (s.disk.inode ip).size
      · apply hw.grown.laid.covered
        · rwa [table_self, hdata]
        · rwa [table_self, hdata]
      · -- the blocks behind the old end were all written
        have := hw.filled (k := bn * BSIZE) (by omega) hsize
        rwa [Nat.mul_div_cancel _ (show 0 < BSIZE by decide)] at this
    · rw [hinode'', update_self]
      exact h.type_ne hu
  case sb =>
    rw [← hs'']
    exact hw.grown.sb
  case cached =>
    intro i
    rw [← hs'']
    by_cases hi : i = ip
    · subst hi
      simp [ha]
    · simp [hi, hmem hi]
  case others => exact fun hi => by rw [hinode'', update_of_ne hi]
  case fields =>
    rw [hinode'', update_self, Nat.max_eq_right (Nat.le_of_lt hn)]
  case inside =>
    intro k h1 h2
    rw [hbyte, hw.inside h1 h2]
  case outside =>
    intro i k hk htype' hsize
    rw [hbyte, hw.outside hk (by rw [h.own_eq hu]; exact h.pointers_ne htype' hsize), h.byte_eq hu]

/-- **`writei`** stores the bytes if it accepts the range, and else does nothing; it fails only if
there are fewer free blocks than it has to allocate. -/
theorem writei_ends (h : s.Sound) (hu : s.InUse ip) (hdev : (s.disk.inode ip).type ≠ T_DEV) :
    Ends (writei ip src off n) s
      (fun r s' => if s.Accepts ip off n then r = n ∧ Stored ip src off n s s' else r = -1 ∧ s' = s)
      fun e _ => e = .outOfBlocks ∧ s.Accepts ip off n ∧ s.free < s.demand ip off n := by
  simp only [writei, ends_bind, ends_get, ends_stopIf, h.data_eq hu]
  refine ⟨fun hd => absurd hd hdev, fun _ => ?_⟩
  split
  · rename_i hbad
    have hrefuse : ¬ s.Accepts ip off n := by
      rintro ⟨hoff, hwrap, -⟩
      rcases hbad with hbad | hbad
      · omega
      · exact hwrap hbad
    simp only [ends_pure, if_neg hrefuse, and_self]
  · rename_i hrange
    rw [not_or, Nat.not_lt] at hrange
    split
    · rename_i hmax
      have hrefuse : ¬ s.Accepts ip off n := fun hgood => Nat.not_le_of_lt hmax hgood.2.2
      simp only [ends_pure, if_neg hrefuse, and_self]
    · rename_i hmax
      have hgood : s.Accepts ip off n := ⟨hrange.1, hrange.2, Nat.le_of_not_lt hmax⟩
      simp only [if_pos hgood, ends_bind]
      refine (writeBlocks_ends (h.laidOut hu) (by rw [h.data_eq hu]; exact h.type_ne hu) le_rfl
        hgood.2.2).mono ?_ ?_
      · intro _ s1 hw
        simp only [ends_onlyIf, iupdate, ends_bind, ends_modify, ends_pure, h.data_eq hu, true_and]
        exact ⟨fun hgrow => hw.stored_beyond h hu hrange.1 hgrow.2,
          fun hin => hw.stored_inside h hu hrange.1 (by omega)⟩
      · rintro e _ ⟨he, hshort⟩
        refine ⟨he, hgood, ?_⟩
        have := hshort (slotsFor ip off n) fun l => mem_slotsFor
        rwa [h.own_eq hu] at this

/-- **What `itrunc` does to the content.** -/
structure Cut (ip : Nat) (s s' : Fs) : Prop where
  sound : s'.Sound
  sb : s'.sb = s.sb
  mem : s'.mem = (s.setData ip truncated).mem
  inode : s'.disk.inode = update s.disk.inode ip (truncated (s.disk.inode ip))
  byte : ∀ {i k}, i ≠ ip → s'.fileByte i k = s.fileByte i k

theorem pointers_truncated {T : Nat → Dinode} {B : Nat → Block} :
    pointers (update T ip (truncated (T ip))) B
      = emptied ip (fun _ => True) (pointers T B) := by
  funext ⟨i, k⟩
  by_cases hi : i = ip
  · subst hi
    simp [pointers, emptied, truncated, Dinode.addr]
  · rw [pointers_update_of_ne hi, emptied, if_neg (by simp [hi])]

theorem itrunc_cut (h : s.Sound) (hu : s.InUse ip) :
    Ends (itrunc ip) s (fun _ s' => Cut ip s s') fun _ _ => False := by
  refine (itrunc_ends (h.laidOut hu) (by rw [h.data_eq hu]; exact h.type_ne hu)).mono ?_
    fun _ _ hstop => hstop
  intro _ s' ht
  have hinode := ht.inode
  rw [h.data_eq hu] at hinode
  have hptr : pointers s'.disk.inode s'.disk.block = emptied ip (fun _ => True) (s.own ip) := by
    rw [hinode, ht.block, pointers_truncated, h.own_eq hu]
  have hother : ∀ {i k}, i ≠ ip → pointers s'.disk.inode s'.disk.block (i, k)
      = pointers s.disk.inode s.disk.block (i, k) := by
    intro i k hi
    rw [hptr, emptied, if_neg (by simp [hi]), h.own_eq hu]
  refine ⟨h.of_one ip (hptr ▸ ht.exact) hother ?_ ?_ ?_ ?_, ht.sb, ht.mem, hinode, ?_⟩
  · intro i hi
    rw [ht.mem, setData_mem, update_of_ne hi]
  · intro i hi
    rw [hinode, update_of_ne hi]
  · intro bn _ hsize
    rw [hinode, update_self] at hsize
    exact absurd hsize (Nat.not_lt_zero _)
  · intro _ _
    rw [ht.mem, hinode, setData_mem, update_self, update_self, h.data_eq hu]
    exact ⟨rfl, h.type_ne hu⟩
  · intro i k hi
    rw [fileByte, hother hi, ht.block, fileByte]

end Xv6.Fs
