import Xv6.Foundation.LittleEndian
import Xv6.Memory.ThreadLife

/-! # The contents of memory

What the code of `vm.c` does to the bytes of pages in use: the work on page tables leaves them alone
(`Builds.exact`), and the loop of `linkuvm` that moves a stack rewrites the words of one page and
copies them to another.

* **`moveStack_bytes`** — the bytes of both pages after the loop. -/

namespace Xv6.Memory

open Foundation

/-- What holds whenever the code returns. -/
abbrev IfReturns {α : Type} (c : Code α) (m : Mem) (Q : α → Mem → Prop) : Prop :=
  Ends c m Q fun _ _ => True

/-! ## Loads and stores -/

/-- The bytes from `base` on are those of the page `f`, while the page directory `d` is in use. -/
def Mem.Sees (m : Mem) (d base f : Nat) : Prop :=
  ∀ j < PGSIZE, ∃ w, m.frameAt d (uint32 (base + j)) = some (f, w)

section

variable {m m' : Mem} {d base f j x : Nat} {b : Nat → UInt8}

theorem Mem.Sees.data (h : m.Sees d base f) (hd : DataOnly m m') : m'.Sees d base f := by
  intro j hj
  rw [hd.frameAt]
  exact h j hj

theorem Mem.setPage_setPage (m : Mem) (f : Frame) (x y : Page) :
    (m.setPage f x).setPage f y = m.setPage f y := by
  have hput : put (put m.page f x) f y = put m.page f y := by
    funext g
    by_cases hg : g = f
    · rw [hg, put_self, put_self]
    · rw [put_of_ne hg, put_of_ne hg, put_of_ne hg]
  simp only [Mem.setPage, hput]

theorem uint32_offset (hbase : base % PGSIZE = 0) (hj : j < PGSIZE) :
    uint32 (base + j) % PGSIZE = j := by
  unfold uint32
  unfold PGSIZE at *
  omega

theorem uint32_next (base j k : Nat) :
    uint32 (uint32 (base + j) + k) = uint32 (base + ((j + k : Nat) : Int)) := by
  rw [uint32_add_uint32]
  congr 1
  push_cast
  ring

theorem loadByte_bytes (hs : m.Sees d base f) (hbase : base % PGSIZE = 0) (hj : j < PGSIZE) :
    IfReturns (loadByte d (uint32 (base + j))) m (fun b m' => b = (m.page f).byte j ∧ m' = m) := by
  obtain ⟨w, hw⟩ := hs j hj
  simp only [loadByte, IfReturns, ends_bind, ends_get, hw, ends_pure, uint32_offset hbase hj,
    and_self]

theorem loadWord_bytes (hs : m.Sees d base f) (hbase : base % PGSIZE = 0) (hj : j + 4 ≤ PGSIZE) :
    IfReturns (loadWord d (uint32 (base + j))) m
      (fun x m' => x = numAt (m.page f).byte j 4 ∧ m' = m) := by
  have h1 := uint32_next base j 1
  have h2 := uint32_next base j 2
  have h3 := uint32_next base j 3
  norm_num only at h1 h2 h3
  simp only [loadWord, IfReturns, ends_bind, ends_pure]
  refine (loadByte_bytes hs hbase (by omega)).imp ?_
  rintro b0 _ ⟨rfl, rfl⟩
  rw [h1]
  refine (loadByte_bytes hs hbase (by omega)).imp ?_
  rintro b1 _ ⟨rfl, rfl⟩
  rw [h2]
  refine (loadByte_bytes hs hbase (by omega)).imp ?_
  rintro b2 _ ⟨rfl, rfl⟩
  rw [h3]
  refine (loadByte_bytes hs hbase (by omega)).imp ?_
  rintro b3 _ ⟨rfl, rfl⟩
  refine ⟨?_, rfl⟩
  simp only [numAt]
  ring

theorem storeByte_bytes (hs : m.Sees d base f) (hbase : base % PGSIZE = 0) (hj : j < PGSIZE)
    (hf : m.page f = .data b) (v : UInt8) :
    IfReturns (storeByte d (uint32 (base + j)) v) m
      (fun _ m' => m' = m.setPage f (.data (put b j v))) := by
  obtain ⟨w, hw⟩ := hs j hj
  simp only [storeByte, IfReturns, ends_bind, ends_get, hw, ends_stopIf, pokeByte, hf, ends_modify,
    uint32_offset hbase hj]
  exact ⟨fun _ => trivial, fun _ => trivial⟩

theorem putNum_four (b : Nat → UInt8) (j x : Nat) :
    put (put (put (put b j (UInt8.ofNat x)) (j + 1) (UInt8.ofNat (x / 256))) (j + 2)
      (UInt8.ofNat (x / 65536))) (j + 3) (UInt8.ofNat (x / 16777216)) = putNum b j 4 x := by
  funext k
  by_cases hk : j ≤ k ∧ k < j + 4
  · obtain ⟨i, rfl⟩ := Nat.exists_eq_add_of_le hk.1
    have hi : i < 4 := by omega
    rw [putNum_inside hi]
    match i, hi with
    | 0, _ | 1, _ | 2, _ | 3, _ => simp [put, byteOf]
  · rw [putNum_outside (by omega), put_of_ne (by omega), put_of_ne (by omega), put_of_ne (by omega),
      put_of_ne (by omega)]

theorem storeWord_bytes (hs : m.Sees d base f) (hbase : base % PGSIZE = 0) (hj : j + 4 ≤ PGSIZE)
    (hf : m.page f = .data b) :
    IfReturns (storeWord d (uint32 (base + j)) x) m
      (fun _ m' => m' = m.setPage f (.data (putNum b j 4 x))) := by
  have hdata : ∀ b', DataOnly m (m.setPage f (.data b')) :=
    DataOnly.setPage (by rw [hf]; rfl)
  have hself : ∀ b', (m.setPage f (.data b')).page f = .data b' := fun b' => by simp
  have h1 := uint32_next base j 1
  have h2 := uint32_next base j 2
  have h3 := uint32_next base j 3
  norm_num only at h1 h2 h3
  simp only [storeWord, IfReturns, ends_bind]
  refine (storeByte_bytes hs hbase (by omega) hf _).imp ?_
  rintro _ _ rfl
  rw [h1]
  refine (storeByte_bytes (hs.data (hdata _)) hbase (by omega) (hself _) _).imp ?_
  rintro _ _ rfl
  rw [Mem.setPage_setPage, h2]
  refine (storeByte_bytes (hs.data (hdata _)) hbase (by omega) (hself _) _).imp ?_
  rintro _ _ rfl
  rw [Mem.setPage_setPage, h3]
  refine (storeByte_bytes (hs.data (hdata _)) hbase (by omega) (hself _) _).imp ?_
  rintro _ _ rfl
  rw [Mem.setPage_setPage, putNum_four]

end

/-! ## Moving a stack -/

/-- The word that `linkuvm` writes for `w`: one that lies in the page behind the caller's memory is
taken for a pointer. -/
def moved (sz i w : Nat) : Nat :=
  if sz < w ∧ w < uint32 (sz + PGSIZE) then uint32 (w + ((i : Int) - sz)) else w

/-- The page after `k` words from position `j` on were moved. -/
def movedPage (sz i j : Nat) : Nat → (Nat → UInt8) → Nat → UInt8
  | 0, b => b
  | k + 1, b =>
    let b := movedPage sz i j k b
    putNum b (j + 4 * k) 4 (moved sz i (numAt b (j + 4 * k) 4))

/-- The caller's stack page after `k` words of the page `b` were copied to it. -/
def copiedPage (sz i j : Nat) (b : Nat → UInt8) : Nat → (Nat → UInt8) → Nat → UInt8
  | 0, b' => b'
  | k + 1, b' => putNum (copiedPage sz i j b k b') (j + 4 * k)
    4 (moved sz i (numAt b (j + 4 * k) 4))

section

variable {sz i j k p : Nat} {b b' : Nat → UInt8}

theorem movedPage_byte (p : Nat) : movedPage sz i j k b p =
    if j ≤ p ∧ p < j + 4 * k then
      byteOf (moved sz i (numAt b (j + 4 * ((p - j) / 4)) 4)) ((p - j) % 4)
    else b p := by
  induction k generalizing p with
  | zero =>
    rw [if_neg (by omega)]
    rfl
  | succ k ih =>
    -- the word that is moved next has not been touched
    have hword : numAt (movedPage sz i j k b) (j + 4 * k) 4 = numAt b (j + 4 * k) 4 :=
      numAt_congr fun q hq => by rw [ih, if_neg (by omega)]
    show putNum (movedPage sz i j k b) (j + 4 * k) 4 _ p = _
    rw [hword]
    by_cases hp : j + 4 * k ≤ p ∧ p < j + 4 * k + 4
    · obtain ⟨q, rfl⟩ := Nat.exists_eq_add_of_le hp.1
      rw [putNum_inside (by omega), if_pos (by omega)]
      rw [show (j + 4 * k + q - j) / 4 = k by omega, show (j + 4 * k + q - j) % 4 = q by omega]
    · rw [putNum_outside (by omega), ih]
      by_cases hp' : j ≤ p ∧ p < j + 4 * k
      · rw [if_pos hp', if_pos (by omega)]
      · rw [if_neg hp', if_neg (by omega)]

theorem numAt_movedPage_later : numAt (movedPage sz i j k b) (j + 4 * k) 4 = numAt b
    (j + 4 * k) 4 :=
  numAt_congr fun q hq => by rw [movedPage_byte, if_neg (by omega)]

theorem numAt_copiedPage_first (hk : 0 < k) :
    numAt (copiedPage sz i j b k b') j 4 = moved sz i (numAt b j 4) % 256 ^ 4 := by
  induction k with
  | zero => exact absurd hk (Nat.lt_irrefl 0)
  | succ k ih =>
    rw [copiedPage]
    rcases Nat.eq_zero_or_pos k with rfl | hpos
    · rw [Nat.mul_zero, Nat.add_zero, numAt_putNum_self]
    · rw [numAt_putNum_of_disjoint (by omega), ih hpos]

end

section

variable {m : Mem} {pgdir sz stack i f h : Nat} {b b' : Nat → UInt8}

theorem moveStack_bytes (hf : m.page f = .data b) (hh : m.page h = .data b') (hne : f ≠ h)
    (hs : m.Sees pgdir (pgRoundDown stack) f) (hs' : m.Sees pgdir i h) (hi : i % PGSIZE = 0)
    (hal : stack % 4 = 0) :
    IfReturns (moveStack pgdir sz stack i) m (fun _ m' =>
      let j := stack % PGSIZE
      let k := (PGSIZE - j) / 4
      m'.page f = .data (movedPage sz i j k b) ∧ m'.page h = .data (copiedPage sz i j b k b') ∧
        ∀ g, g ≠ f → g ≠ h → m'.page g = m.page g) := by
  have hwords : (PGSIZE - stack % PGSIZE + 3) / 4 = (PGSIZE - stack % PGSIZE) / 4 := by
    unfold PGSIZE
    omega
  simp only [moveStack, hwords]
  refine ends_forM (fun k s => DataOnly m s ∧
    s.page f = .data (movedPage sz i (stack % PGSIZE) k b) ∧
    s.page h = .data (copiedPage sz i (stack % PGSIZE) b k b') ∧
    ∀ g, g ≠ f → g ≠ h → s.page g = m.page g) ⟨.refl m, hf, hh, fun _ _ _ => rfl⟩
    (fun k _ hk s ⟨hd, hsf, hsh, hother⟩ => ?_) fun s ⟨_, hsf, hsh, hother⟩ => ?_
  · have hroom : stack % PGSIZE + 4 * k + 4 ≤ PGSIZE := by omega
    simp only [moveWord, ends_bind]
    refine (loadWord_bytes (hs.data hd) (pgRoundDown_mod stack) hroom).imp ?_
    rintro w s' ⟨hw, rfl⟩
    rw [hsf] at hw
    replace hw := hw.trans numAt_movedPage_later
    -- the words of the two pages that are written
    have hput : moved sz i (numAt (movedPage sz i (stack % PGSIZE) k b) (stack % PGSIZE + 4 * k) 4)
        = moved sz i w := by
      rw [hw, numAt_movedPage_later]
    have hcopy : ∀ m1 : Mem, DataOnly m m1 →
        m1.page h = .data (copiedPage sz i (stack % PGSIZE) b k b') →
        IfReturns (storeWord pgdir (uint32 (i + (stack % PGSIZE + 4 * k : Nat))) (moved sz i w)) m1
          (fun _ m' => m' = m1.setPage h
            (.data (copiedPage sz i (stack % PGSIZE) b (k + 1) b'))) := fun m1 hd1 hh1 => by
      rw [copiedPage, ← hw]
      exact storeWord_bytes (hs'.data hd1) hi hroom hh1
    have hfh : ∀ x : Page, (s'.setPage f x).page h = s'.page h := fun x => by
      simp [put_of_ne hne.symm]
    split
    · rename_i hwin
      have hmoved : moved sz i w = uint32 (w + ((i : Int) - sz)) := if_pos hwin
      simp only [ends_bind, ← hmoved]
      refine (storeWord_bytes (hs.data hd) (pgRoundDown_mod stack) hroom hsf).imp ?_
      rintro _ _ rfl
      have hd1 := hd.trans (DataOnly.setPage (by rw [hsf]; rfl)
        (putNum (movedPage sz i (stack % PGSIZE) k b) (stack % PGSIZE + 4 * k) 4 (moved sz i w)))
      refine (hcopy _ hd1 ((hfh _).trans hsh)).imp ?_
      rintro _ _ rfl
      refine ⟨hd1.trans (DataOnly.setPage (by rw [hfh, hsh]; rfl) _), ?_, by simp,
        fun g hgf hgh => ?_⟩
      · rw [movedPage, hput]
        simp [put_of_ne hne]
      · simp [put_of_ne hgf, put_of_ne hgh, hother g hgf hgh]
    · rename_i hwin
      have hmoved : moved sz i w = w := if_neg hwin
      have hcopy := hcopy s' hd hsh
      rw [hmoved] at hcopy hput
      refine hcopy.imp ?_
      rintro _ _ rfl
      refine ⟨hd.trans (DataOnly.setPage (by rw [hsh]; rfl) _), ?_, by simp, fun g hgf hgh => ?_⟩
      · -- the word stays where it is
        have hsame : movedPage sz i (stack % PGSIZE) (k + 1) b =
            movedPage sz i (stack % PGSIZE) k b := by
          rw [movedPage, hput, hw, ← numAt_movedPage_later, putNum_numAt]
        rw [hsame]
        simp [put_of_ne hne, hsf]
      · simp [put_of_ne hgh, hother g hgf hgh]
  · rw [Nat.zero_add] at hsf hsh
    exact ⟨hsf, hsh, hother⟩

end

end Xv6.Memory
