import Xv6.Memory.Contents

/-! # The start frame of a thread

`thread_creator` writes a frame to the end of the page that becomes the stack of the new thread: the
function to run, the address of `ttrap`, the argument and, if there is one, a copy of the string it
points to. `linkuvm` then moves the frame word by word, and takes every word for a pointer that lies
in the page behind the caller's memory. This file is about the frame alone.

* **`frame_intact_iff`** — when the frame is right after it was moved. -/

namespace Xv6.Memory

open Foundation

/-! ## Bytes in a page -/

/-- Store the bytes `bs` from position `i` on. -/
def putBytes (b : Nat → UInt8) (i : Nat) (bs : List UInt8) : Nat → UInt8 :=
  fun k => if h : i ≤ k ∧ k - i < bs.length then bs[k - i] else b k

section

variable {b : Nat → UInt8} {i k x : Nat} {bs : List UInt8}

theorem putBytes_inside (hk : k < bs.length) : putBytes b i bs (i + k) = bs[k] := by
  have h : i ≤ i + k ∧ i + k - i < bs.length := by omega
  rw [putBytes, dif_pos h]
  congr 1
  omega

theorem putBytes_outside (hk : k < i ∨ i + bs.length ≤ k) : putBytes b i bs k = b k := by
  rw [putBytes, dif_neg (by omega)]

theorem putBytes_cons (b : Nat → UInt8) (i : Nat) (v : UInt8) (bs : List UInt8) :
    putBytes b i (v :: bs) = putBytes (put b i v) (i + 1) bs := by
  funext k
  rcases Nat.lt_trichotomy k i with hlt | rfl | hgt
  · rw [putBytes_outside (.inl hlt), putBytes_outside (.inl (by omega)), put_of_ne (by omega)]
  · rw [putBytes_outside (.inl k.lt_succ_self), put_self]
    exact putBytes_inside (k := 0) (by simp)
  · obtain ⟨q, rfl⟩ : ∃ q, k = i + 1 + q := Nat.exists_eq_add_of_le hgt
    rcases Nat.lt_or_ge q bs.length with hq | hq
    · have hq' : q + 1 < (v :: bs).length := Nat.succ_lt_succ hq
      rw [putBytes_inside hq, Nat.add_assoc, Nat.add_comm 1, putBytes_inside hq']
      rfl
    · rw [putBytes_outside (.inr (by rw [List.length_cons]; omega)),
        putBytes_outside (.inr (by omega)), put_of_ne (by omega)]

theorem length_wordBytes (ws : List Nat) : (wordBytes ws).length = 4 * ws.length := by
  simp [wordBytes, List.length_flatMap, Nat.mul_comm]

theorem wordBytes_getElem {ws : List Nat} (hi : i < ws.length) (hk : k < 4)
    (h : 4 * i + k < (wordBytes ws).length) : (wordBytes ws)[4 * i + k] = byteOf ws[i] k := by
  induction ws generalizing i with
  | nil => exact absurd hi (Nat.not_lt_zero i)
  | cons w ws ih =>
    cases i with
    | zero =>
      match k, hk with
      | 0, _ | 1, _ | 2, _ | 3, _ => simp [wordBytes, byteOf]
    | succ i =>
      have hi' : i < ws.length := Nat.lt_of_succ_lt_succ hi
      have hlen : 4 * i + k < (wordBytes ws).length := by
        rw [length_wordBytes]
        omega
      rw [List.getElem_cons_succ, ← ih hi' hlen]
      have happ : wordBytes (w :: ws) = wordBytes [w] ++ wordBytes ws := by simp [wordBytes]
      simp only [happ]
      rw [List.getElem_append_right (by rw [length_wordBytes]; simp; omega)]
      congr 1
      rw [length_wordBytes, List.length_singleton]
      omega

theorem numAt_putBytes_wordBytes {ws : List Nat} {n : Nat} (hn : n < ws.length) :
    numAt (putBytes b i (wordBytes ws)) (i + 4 * n) 4 = ws[n] % 256 ^ 4 := by
  refine numAt_of_bytes fun k hk => ?_
  have hlen : 4 * n + k < (wordBytes ws).length := by
    rw [length_wordBytes]
    omega
  rw [Nat.add_assoc, putBytes_inside hlen, wordBytes_getElem hn hk hlen]

end

/-- Reading the bytes `bs` from `va` on with `rd`. -/
def Holds (rd : Nat → Option UInt8) (va : Nat) (bs : List UInt8) : Prop :=
  ∀ k (hk : k < bs.length), rd (va + k) = some bs[k]

theorem holds_word_iff {rd : Nat → Option UInt8} {b : Nat → UInt8} {va q x : Nat}
    (hrd : ∀ k < 4, rd (va + k) = some (b (q + k))) (hx : x < 2 ^ 32) :
    Holds rd va (wordBytes [x]) ↔ numAt b q 4 = x := by
  have hlen : (wordBytes [x]).length = 4 := by rw [length_wordBytes, List.length_singleton]
  have hget : ∀ k (hk : k < (wordBytes [x]).length), (wordBytes [x])[k] = byteOf x k := by
    intro k hk
    have hk' : 4 * 0 + k < (wordBytes [x]).length := by simpa using hk
    have hbyte : (wordBytes [x])[4 * 0 + k] = byteOf [x][0] k :=
      wordBytes_getElem (by simp) (hlen ▸ hk) hk'
    simpa using hbyte
  constructor
  · intro h
    rw [← Nat.mod_eq_of_lt hx]
    refine numAt_of_bytes fun k hk => ?_
    have hk' : k < (wordBytes [x]).length := hlen.symm ▸ hk
    rw [← hget k hk']
    exact Option.some.inj ((hrd k hk).symm.trans (h k hk'))
  · rintro rfl k hk
    have hk' : k < 4 := hlen ▸ hk
    rw [hrd k hk', hget k hk, byteOf_numAt hk']

theorem Holds.congr {rd rd' : Nat → Option UInt8} {va : Nat} {bs : List UInt8}
    (h : ∀ k < bs.length, rd (va + k) = rd' (va + k)) : Holds rd va bs ↔ Holds rd' va bs := by
  refine forall₂_congr fun k hk => ?_
  rw [h k hk]

/-! ## The frame -/

/-- The offset in the page of the copy of the argument. -/
def argOffset (str : List UInt8) : Nat := (PGSIZE - (str.length + 1)) / 4 * 4

/-- The offset in the page at which the frame starts. -/
def startOffset : Option (List UInt8) → Nat
  | none => PGSIZE - 12
  | some str => argOffset str - 16

/-- The copy of the argument and the frame fit in one page. -/
def Fits (arg : Option (List UInt8)) : Prop := ∀ str, arg = some str → str.length + 17 ≤ PGSIZE

/-- The page `b` with the copy of the argument. -/
def argPage (b : Nat → UInt8) (str : List UInt8) : Nat → UInt8 :=
  putBytes b (argOffset str) (str ++ [0])

/-- The page `b`, at the address `stack`, with the whole frame. -/
def framePage (b : Nat → UInt8) (stack fn ttrap : Nat) : Option (List UInt8) → Nat → UInt8
  | none => putBytes b (PGSIZE - 12) (wordBytes [fn, ttrap, 0])
  | some str => putBytes (argPage b str) (argOffset str - 16)
      (wordBytes [fn, ttrap, stack + argOffset str, 0])

/-- The argument of a thread is found at `va`: `0`, or a pointer to the string, in the page at
`base`. -/
def HasArg (rd : Nat → Option UInt8) (va base : Nat) : Option (List UInt8) → Prop
  | none => Holds rd va (wordBytes [0])
  | some str => ∃ p, Holds rd va (wordBytes [p]) ∧ base ≤ p ∧ p + str.length < base + PGSIZE ∧
      Holds rd p (str ++ [0])

theorem HasArg.congr {rd rd' : Nat → Option UInt8} {va base : Nat} {arg : Option (List UInt8)}
    (h : ∀ p < PGSIZE, rd (base + p) = rd' (base + p)) (hva : base ≤ va)
    (hva' : va + 4 ≤ base + PGSIZE) : HasArg rd va base arg ↔ HasArg rd' va base arg := by
  have hread : ∀ q, base ≤ q → q < base + PGSIZE → rd q = rd' q := by
    intro q hq hq'
    obtain ⟨p, rfl⟩ := Nat.exists_eq_add_of_le hq
    exact h p (by omega)
  have hword : ∀ x, Holds rd va (wordBytes [x]) ↔ Holds rd' va (wordBytes [x]) := fun x =>
    Holds.congr fun k hk => hread _ (by omega) (by
      rw [length_wordBytes, List.length_singleton] at hk
      omega)
  cases arg with
  | none => exact hword 0
  | some str =>
    refine exists_congr fun p => and_congr (hword p) (and_congr_right fun hp => ?_)
    refine and_congr_right fun hp' => Holds.congr fun k hk => hread _ (by omega) ?_
    rw [List.length_append, List.length_singleton] at hk
    omega

section

variable {b : Nat → UInt8} {stack fn ttrap : Nat} {arg : Option (List UInt8)} {str : List UInt8}

theorem Fits.room (h : Fits (some str)) : 16 ≤ argOffset str ∧
    argOffset str + str.length < PGSIZE ∧ PGSIZE ≤ argOffset str + str.length + 4 := by
  have hlen := h str rfl
  unfold argOffset
  unfold PGSIZE at *
  omega

theorem argOffset_mod (str : List UInt8) : argOffset str % 4 = 0 := Nat.mul_mod_left _ 4

theorem startOffset_mod (h : Fits arg) : startOffset arg % 4 = 0 ∧
    startOffset arg + 12 ≤ PGSIZE := by
  cases arg with
  | none => decide
  | some str =>
    have hroom := h.room
    have hmod := argOffset_mod str
    show (argOffset str - 16) % 4 = 0 ∧ argOffset str - 16 + 12 ≤ PGSIZE
    omega

theorem framePage_words (b : Nat → UInt8) (stack fn ttrap : Nat) (arg : Option (List UInt8)) :
    numAt (framePage b stack fn ttrap arg) (startOffset arg) 4 = fn % 256 ^ 4 ∧
      numAt (framePage b stack fn ttrap arg) (startOffset arg + 4) 4 = ttrap % 256 ^ 4 := by
  cases arg with
  | none | some str =>
    constructor
    · exact numAt_putBytes_wordBytes (n := 0) (by simp)
    · exact numAt_putBytes_wordBytes (n := 1) (by simp)

theorem framePage_arg (b : Nat → UInt8) (stack fn ttrap : Nat) (str : List UInt8) :
    numAt (framePage b stack fn ttrap none) (startOffset none + 8) 4 = 0 ∧
      numAt (framePage b stack fn ttrap (some str)) (startOffset (some str) + 8) 4 =
        (stack + argOffset str) % 256 ^ 4 := by
  constructor
  · exact numAt_putBytes_wordBytes (n := 2) (by simp)
  · exact numAt_putBytes_wordBytes (n := 2) (by simp)

theorem framePage_string (h : Fits (some str)) {p : Nat} (hp : argOffset str ≤ p) :
    framePage b stack fn ttrap (some str) p = argPage b str p := by
  have hroom := h.room
  rw [framePage, putBytes_outside]
  right
  rw [length_wordBytes]
  simp only [List.length_cons, List.length_nil]
  omega

end

/-! ## The frame after it was moved -/

/-- The word `w` lies in the page behind a memory of `sz` bytes, and is taken for a pointer. -/
def InWindow (sz w : Nat) : Prop := sz < w ∧ w < sz + PGSIZE

instance (sz w : Nat) : Decidable (InWindow sz w) :=
  inferInstanceAs (Decidable (_ ∧ _))

/-- Byte `p` of the page `b` after its words were moved. -/
def movedByte (sz orig : Nat) (b : Nat → UInt8) (p : Nat) : UInt8 :=
  byteOf (moved sz orig (numAt b (p / 4 * 4) 4)) (p % 4)

/-- With a page-aligned size: no word of the copy of the argument is taken for a pointer, unless the
bytes in it that belong to the string do not change. -/
def ArgKept (sz orig : Nat) (b : Nat → UInt8) (str : List UInt8) : Prop :=
  ∀ k, 4 * k ≤ str.length → InWindow sz (numAt (argPage b str) (argOffset str + 4 * k) 4) →
    256 ^ min 4 (str.length + 1 - 4 * k) ∣ sz - orig

/-- With a size that is not page-aligned the pointer to the argument goes astray by what is missing
to the next page, which may be three bytes at most. There the string must be found once more, in
words that are as they were, or that were taken for pointers and moved down. -/
def ArgAgain (sz orig : Nat) (b : Nat → UInt8) (str : List UInt8) : Prop :=
  let d := PGSIZE - sz % PGSIZE
  argOffset str + d + str.length < PGSIZE ∧ ∀ k (hk : k < (str ++ [0]).length),
    let w := numAt (argPage b str) (argOffset str + (d + k) / 4 * 4) 4
    byteOf (if InWindow sz w then w - (sz - orig) else w) ((d + k) % 4) = (str ++ [0])[k]

/-- **The frame survives being moved** to the stack at `orig` of a caller with `sz` bytes. -/
def FrameIntact (sz orig fn ttrap : Nat) (b : Nat → UInt8) (arg : Option (List UInt8)) : Prop :=
  ¬ InWindow sz fn ∧ ¬ InWindow sz ttrap ∧
    ∀ str, arg = some str →
      if sz % PGSIZE = 0 then ArgKept sz orig b str else ArgAgain sz orig b str

section

variable {sz orig w x : Nat} {b b' : Nat → UInt8}

section

variable (hsz : sz ≤ KERNBASE)

include hsz

section

variable (hlt : orig < sz)

include hlt

theorem moved_eq (hw : w < 2 ^ 32) :
    moved sz orig w = if InWindow sz w then w - (sz - orig) else w := by
  have htop : uint32 (sz + PGSIZE) = sz + PGSIZE := by
    refine uint32_eq (by simp) ?_
    unfold KERNBASE PGSIZE at *
    omega
  have hcast : sz < w → ((w : Int) + ((orig : Int) - sz)) = ((w - (sz - orig) : Nat) : Int) := by
    omega
  unfold moved
  rw [htop]
  show (if InWindow sz w then _ else w) = _
  by_cases h : InWindow sz w
  · rw [if_pos h, if_pos h]
    exact uint32_eq (hcast h.1) (by omega)
  · rw [if_neg h, if_neg h]

theorem moved_lt (hw : w < 2 ^ 32) :
    moved sz orig w < 2 ^ 32 := by
  rw [moved_eq hsz hlt hw]
  split <;> omega

theorem moved_eq_self_iff (hw : w < 2 ^ 32) :
    moved sz orig w = w ↔ ¬ InWindow sz w := by
  rw [moved_eq hsz hlt hw]
  split
  · rename_i h
    have := h.1
    simp only [h, not_true_eq_false, iff_false]
    omega
  · simp [*]

omit hlt in
omit hsz in
theorem movedByte_congr {p : Nat} (h : ∀ k < 4, b (p / 4 * 4 + k) = b' (p / 4 * 4 + k)) :
    movedByte sz orig b p = movedByte sz orig b' p := by
  rw [movedByte, movedByte, numAt_congr h]

theorem holds_moved_iff {rd : Nat → Option UInt8} {base q : Nat}
    (hrd : ∀ k < 4, rd (base + (q + k)) = some (movedByte sz orig b (q + k)))
    (hq : q % 4 = 0) (hb : numAt b q 4 = w % 256 ^ 4) (hw : w < 2 ^ 32) (hx : x < 2 ^ 32) :
    Holds rd (base + q) (wordBytes [x]) ↔ moved sz orig w = x := by
  have hword : numAt (movedByte sz orig b) q 4 = moved sz orig w := by
    rw [← Nat.mod_eq_of_lt (moved_lt hsz hlt hw)]
    refine numAt_of_bytes fun k hk => ?_
    rw [movedByte, show (q + k) / 4 * 4 = q by omega, show (q + k) % 4 = k by omega, hb,
      Nat.mod_eq_of_lt (hw.trans_le (by decide))]
  rw [← hword]
  exact holds_word_iff (fun k hk => by rw [Nat.add_assoc, hrd k hk]) hx

/-- A moved word agrees with itself in its first bytes exactly if it is not taken for a pointer, or
the distance it is moved by does not show there. -/
theorem moved_modEq_iff {w k : Nat} (hw : w < 2 ^ 32) :
    moved sz orig w ≡ w [MOD 256 ^ k] ↔ (InWindow sz w → 256 ^ k ∣ sz - orig) := by
  rw [moved_eq hsz hlt hw]
  by_cases h : InWindow sz w
  · rw [if_pos h, Nat.modEq_iff_dvd' (Nat.sub_le w _)]
    have hsub : w - (w - (sz - orig)) = sz - orig := by
      have := h.1
      omega
    rw [hsub]
    exact ⟨fun hd _ => hd, fun hd => hd h⟩
  · rw [if_neg h]
    exact ⟨fun _ hin => absurd hin h, fun _ => rfl⟩

/-- **The copy of the argument stays what it is** exactly under `ArgKept`. -/
theorem argKept_iff {str : List UInt8} :
    ArgKept sz orig b str ↔ ∀ k (hk : k < (str ++ [0]).length),
      movedByte sz orig (argPage b str) (argOffset str + k) = (str ++ [0])[k] := by
  have hmod := argOffset_mod str
  -- the word that a byte of the string is in
  have hword : ∀ q r (hr : r < 4) (hk : 4 * q + r < (str ++ [0]).length),
      (movedByte sz orig (argPage b str) (argOffset str + (4 * q + r)) = (str ++ [0])[4 * q + r] ↔
        byteOf (moved sz orig (numAt (argPage b str) (argOffset str + 4 * q) 4)) r =
          byteOf (numAt (argPage b str) (argOffset str + 4 * q) 4) r) := by
    intro q r hr hk
    have hbyte : argPage b str (argOffset str + 4 * q + r) = (str ++ [0])[4 * q + r] := by
      rw [Nat.add_assoc, argPage, putBytes_inside hk]
    rw [movedByte, show (argOffset str + (4 * q + r)) / 4 * 4 = argOffset str + 4 * q by omega,
      show (argOffset str + (4 * q + r)) % 4 = r by omega, byteOf_numAt hr, hbyte]
  have hlen : (str ++ [0]).length = str.length + 1 := by simp
  have hw : ∀ q, numAt (argPage b str) (argOffset str + 4 * q) 4 < 2 ^ 32 := fun q =>
    (numAt_lt _ _ 4).trans_le (by decide)
  constructor
  · intro h k hk
    obtain ⟨q, r, hr, rfl⟩ : ∃ q r, r < 4 ∧ k = 4 * q + r := ⟨k / 4, k % 4, by omega, by omega⟩
    rw [hword q r hr hk]
    have hkept := (moved_modEq_iff hsz hlt (hw q)).2 (h q (by omega))
    exact byteOf_eq_iff_modEq.2 hkept r (by omega)
  · intro h q hq
    rw [← moved_modEq_iff hsz hlt (hw q), ← byteOf_eq_iff_modEq]
    intro r hr
    have hk : 4 * q + r < (str ++ [0]).length := by omega
    exact (hword q r (by omega) hk).1 (h _ hk)

end

omit hsz in
theorem pagesIn_bounds (sz : Nat) : sz ≤ pagesIn sz * PGSIZE ∧
    pagesIn sz * PGSIZE < sz + PGSIZE := by
  unfold pagesIn PGSIZE
  omega

theorem behind_lt {o : Nat} (ho : o < PGSIZE) :
    pagesIn sz * PGSIZE + o < 2 ^ 32 := by
  have hlt := (pagesIn_bounds sz).2
  generalize pagesIn sz * PGSIZE = S at hlt ⊢
  calc S + o < KERNBASE + PGSIZE + PGSIZE := by omega
    _ ≤ 2 ^ 32 := by decide

/-- The pointer to the argument after it was moved: it lies in the stack at `orig` exactly if the
copy, too far by what is missing in the last page, still begins in the page. -/
theorem moved_argPtr (hlt : orig < sz) {o : Nat} (ho : 0 < o)
    (ho' : o < PGSIZE) : moved sz orig (pagesIn sz * PGSIZE + o) =
      if o + (pagesIn sz * PGSIZE - sz) < PGSIZE then orig + (o + (pagesIn sz * PGSIZE - sz))
      else pagesIn sz * PGSIZE + o := by
  obtain ⟨hle, hlt'⟩ := pagesIn_bounds sz
  have hP := behind_lt hsz ho'
  generalize pagesIn sz * PGSIZE = S at hle hlt' hP ⊢
  have hwin : InWindow sz (S + o) ↔ o + (S - sz) < PGSIZE := by
    unfold InWindow
    omega
  rw [moved_eq hsz hlt hP]
  by_cases h : o + (S - sz) < PGSIZE
  · rw [if_pos h, if_pos (hwin.2 h)]
    omega
  · rw [if_neg h, if_neg (hwin.not.2 h)]

end

end

/-! ## When the frame survives -/

section

variable {sz orig fn ttrap : Nat} {b : Nat → UInt8} {arg : Option (List UInt8)}
  {rd : Nat → Option UInt8}

theorem hasArg_some_iff {str : List UInt8} (hfit : Fits (some str)) (hsz : sz ≤ KERNBASE)
    (hlt : orig < sz) (horig : orig % PGSIZE = 0)
    (hrd : ∀ p, startOffset (some str) ≤ p → p < PGSIZE → rd (orig + p) =
      some (movedByte sz orig (framePage b (pagesIn sz * PGSIZE) fn ttrap (some str)) p)) :
    HasArg rd (orig + (startOffset (some str) + 8)) orig (some str) ↔
      if sz % PGSIZE = 0 then ArgKept sz orig b str else ArgAgain sz orig b str := by
  obtain ⟨hroom, hroom', _⟩ := hfit.room
  have hmod := argOffset_mod str
  have hstart : startOffset (some str) = argOffset str - 16 := rfl
  obtain ⟨hle, hlt'⟩ := pagesIn_bounds sz
  -- behind the frame the bytes are those of the copy
  have hcopy : ∀ p, argOffset str ≤ p → p < PGSIZE →
      rd (orig + p) = some (movedByte sz orig (argPage b str) p) := by
    intro p hp hp'
    rw [hrd p (by omega) hp']
    exact congrArg some (movedByte_congr fun k _ => framePage_string hfit (by omega))
  have hholds : ∀ o, argOffset str ≤ o → o + str.length < PGSIZE →
      (Holds rd (orig + o) (str ++ [0]) ↔ ∀ k (hk : k < (str ++ [0]).length),
        movedByte sz orig (argPage b str) (o + k) = (str ++ [0])[k]) := by
    intro o ho ho'
    refine forall₂_congr fun k hk => ?_
    have hk' : k < str.length + 1 := by simpa using hk
    rw [Nat.add_assoc, hcopy (o + k) (by omega) (by omega), Option.some.injEq]
  -- the pointer
  have hptr : ∀ p, p < 2 ^ 32 → (Holds rd (orig + (startOffset (some str) + 8)) (wordBytes [p]) ↔
      p = moved sz orig (pagesIn sz * PGSIZE + argOffset str)) := by
    intro p hp
    rw [holds_moved_iff hsz hlt (fun k _ => hrd _ (by omega) (by omega)) (by omega)
      (framePage_arg ..).2 (behind_lt hsz (by omega)) hp]
    exact eq_comm
  -- wherever the pointer leads, the string has to be there
  have hagain : HasArg rd (orig + (startOffset (some str) + 8)) orig (some str) ↔
      argOffset str + (pagesIn sz * PGSIZE - sz) + str.length < PGSIZE ∧
        ∀ k (hk : k < (str ++ [0]).length), movedByte sz orig (argPage b str)
          (argOffset str + (pagesIn sz * PGSIZE - sz) + k) = (str ++ [0])[k] := by
    have hmoved := moved_argPtr hsz hlt (by omega : 0 < argOffset str) (by omega)
    have htop : orig + PGSIZE ≤ 2 ^ 32 := by
      calc orig + PGSIZE ≤ KERNBASE + PGSIZE := by omega
        _ ≤ 2 ^ 32 := by decide
    constructor
    · rintro ⟨p, hp, hbase, hend, hstr⟩
      rw [hptr p (by omega), hmoved] at hp
      split at hp
      · subst hp
        exact ⟨by omega, (hholds _ (by omega) (by omega)).1 hstr⟩
      · -- the pointer was left where it was, behind the caller's memory
        unfold PGSIZE at *
        omega
    · rintro ⟨hend, hstr⟩
      rw [if_pos (by omega)] at hmoved
      refine ⟨_, (hptr _ ?_).2 hmoved.symm, by omega, by omega, (hholds _ (by omega) hend).2 hstr⟩
      omega
  rw [hagain]
  by_cases h : sz % PGSIZE = 0
  · have hslack : pagesIn sz * PGSIZE - sz = 0 := by
      unfold pagesIn
      unfold PGSIZE at *
      omega
    rw [if_pos h, argKept_iff hsz hlt, hslack, Nat.add_zero]
    exact and_iff_right hroom'
  · have hslack : pagesIn sz * PGSIZE - sz = PGSIZE - sz % PGSIZE := by
      unfold pagesIn
      unfold PGSIZE at *
      omega
    rw [if_neg h, hslack]
    refine and_congr_right fun _ => forall₂_congr fun k hk => ?_
    generalize PGSIZE - sz % PGSIZE = d
    rw [movedByte, moved_eq hsz hlt ((numAt_lt _ _ 4).trans_le (by decide)),
      show (argOffset str + d + k) / 4 * 4 = argOffset str + (d + k) / 4 * 4 by omega,
      show (argOffset str + d + k) % 4 = (d + k) % 4 by omega]

/-- **When the frame is right after it was moved** to the stack at `orig`: the function is started,
returns to `ttrap`, and has its argument. -/
theorem frame_intact_iff (hfit : Fits arg) (hsz : sz ≤ KERNBASE) (hlt : orig < sz)
    (horig : orig % PGSIZE = 0) (hfn : fn < 2 ^ 32) (httrap : ttrap < 2 ^ 32)
    (hrd : ∀ p, startOffset arg ≤ p → p < PGSIZE → rd (orig + p) =
      some (movedByte sz orig (framePage b (pagesIn sz * PGSIZE) fn ttrap arg) p)) :
    moved sz orig fn = fn ∧ Holds rd (orig + (startOffset arg + 4)) (wordBytes [ttrap]) ∧
        HasArg rd (orig + (startOffset arg + 8)) orig arg ↔
      FrameIntact sz orig fn ttrap b arg := by
  obtain ⟨hmod, hend⟩ := startOffset_mod hfit
  have httrap' : Holds rd (orig + (startOffset arg + 4)) (wordBytes [ttrap]) ↔
      ¬ InWindow sz ttrap := by
    rw [holds_moved_iff hsz hlt (fun k _ => hrd _ (by omega) (by omega)) (by omega)
      (framePage_words ..).2 httrap httrap, moved_eq_self_iff hsz hlt httrap]
  have harg : HasArg rd (orig + (startOffset arg + 8)) orig arg ↔ ∀ str, arg = some str →
      if sz % PGSIZE = 0 then ArgKept sz orig b str else ArgAgain sz orig b str := by
    cases arg with
    | none =>
      have hzero : ¬ InWindow sz 0 := fun h => absurd h.1 (Nat.not_lt_zero sz)
      have hholds : Holds rd (orig + (startOffset none + 8)) (wordBytes [0]) := by
        rw [holds_moved_iff (w := 0) hsz hlt (fun k _ => hrd _ (by omega) (by omega)) (by omega)
          (framePage_arg b _ fn ttrap []).1 (by decide) (by decide)]
        exact (moved_eq_self_iff hsz hlt (by decide)).2 hzero
      exact ⟨fun _ _ h => (Option.some_ne_none _ h.symm).elim, fun _ => hholds⟩
    | some str =>
      rw [hasArg_some_iff hfit hsz hlt horig hrd]
      simp only [Option.some.injEq, forall_eq']
  rw [moved_eq_self_iff hsz hlt hfn, httrap', harg]
  rfl

end

end Xv6.Memory
