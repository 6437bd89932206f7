import Xv6.Foundation.Allocation
import Xv6.Fs.Disk

/-! # Who owns which block

An inode has 141 slots for block numbers: its direct pointers, the pointer to its indirect block,
and the numbers that this block lists. `pointers` reads all slots of all allocated inodes of a
table; the table is the one on the disk, except that a running call works on its own copy of one
inode.

* **`Laid`** — the blocks of the file system are laid out well: every block is in one slot at most,
  the free map has a bit set exactly for the blocks of metadata and the blocks in some slot, and a
  file has a block for every byte of its size.
* **`pointers_setAddr`**, **`pointers_setIndirect`**, **`pointers_setListed`** — every store of a
  block number changes one slot, and **`pointers_setBlock`** — no other store changes any. -/

namespace Xv6.Fs

open Foundation Function
open Inodes (Dinode NDIRECT)

/-- An inode and one of its slots: below `NDIRECT` the direct pointers, then the pointer to the
indirect block, then what the indirect block lists. -/
abbrev Place := Nat × Nat

/-- The slot for the `bn`-th block of a file. -/
def slotOf (bn : Nat) : Nat := if bn < NDIRECT then bn else bn + 1

theorem slotOf_ne (bn : Nat) : slotOf bn ≠ NDIRECT := by
  unfold slotOf
  split <;> omega

theorem slotOf_inj {bn bn' : Nat} (h : slotOf bn = slotOf bn') : bn = bn' := by
  unfold slotOf at h
  split at h <;> split at h <;> omega

/-- The block numbers in the slots of the allocated inodes of the table `T`. -/
def pointers (T : Nat → Dinode) (B : Nat → Block) (κ : Place) : Nat :=
  if (T κ.1).type = 0 then 0
  else if κ.2 ≤ NDIRECT then (T κ.1).addr κ.2
  else if κ.2 < NDIRECT + 1 + NINDIRECT ∧ (T κ.1).addr NDIRECT ≠ 0 then
    listed (B ((T κ.1).addr NDIRECT)) (κ.2 - (NDIRECT + 1))
  else 0

/-- **The blocks are laid out well.** -/
structure Laid (sb : Superblock) (T : Nat → Dinode) (bitmap : Nat → Bool) (B : Nat → Block) :
    Prop where
  exact : Exact (· < sb.nmeta) sb.size bitmap (pointers T B)
  /-- A file has a block for every byte of its size. -/
  covered : ∀ {i bn}, (T i).type ≠ 0 → bn * BSIZE < (T i).size → pointers T B (i, slotOf bn) ≠ 0

section

variable {T : Nat → Dinode} {B : Nat → Block} {i k b : Nat}

theorem pointers_of_free (h : (T i).type = 0) : pointers T B (i, k) = 0 := if_pos h

theorem pointers_addr (h : (T i).type ≠ 0) (hk : k ≤ NDIRECT) :
    pointers T B (i, k) = (T i).addr k := by
  rw [pointers, if_neg h, if_pos hk]

theorem pointers_listed (h : (T i).type ≠ 0) (hk : k < NINDIRECT) (haddr : (T i).addr NDIRECT ≠ 0) :
    pointers T B (i, NDIRECT + 1 + k) = listed (B ((T i).addr NDIRECT)) k := by
  rw [pointers, if_neg h, if_neg (by simp only; omega), if_pos ⟨by simp only; omega, haddr⟩]
  congr 1
  simp only
  omega

theorem pointers_no_indirect (h : pointers T B (i, NDIRECT) = 0) (hk : NDIRECT ≤ k) :
    pointers T B (i, k) = 0 := by
  by_cases hfree : (T i).type = 0
  · exact pointers_of_free hfree
  · rw [pointers_addr hfree le_rfl] at h
    rcases Nat.eq_or_lt_of_le hk with rfl | hlt
    · rwa [pointers_addr hfree le_rfl]
    · rw [pointers, if_neg hfree, if_neg (by simp only; omega), if_neg (by simp [h])]

theorem pointers_end (hk : NDIRECT + 1 + NINDIRECT ≤ k) : pointers T B (i, k) = 0 := by
  by_cases hfree : (T i).type = 0
  · exact pointers_of_free hfree
  · rw [pointers, if_neg hfree, if_neg (by simp only; omega), if_neg (by simp only; omega)]

theorem type_ne_of_pointers (h : pointers T B (i, k) ≠ 0) : (T i).type ≠ 0 :=
  fun hfree => h (pointers_of_free hfree)

/-! ## Stores -/

variable {bytes : Block} {d : Dinode} {j ip : Nat}

/-- **A store to a block that is nobody's indirect block** changes no slot. -/
theorem pointers_setBlock (h : ∀ i, pointers T B (i, NDIRECT) ≠ 0 → pointers T B (i, NDIRECT) ≠ b) :
    pointers T (update B b bytes) = pointers T B := by
  funext ⟨i, k⟩
  by_cases hfree : (T i).type = 0
  · rw [pointers_of_free hfree, pointers_of_free hfree]
  · have hb := h i
    rw [pointers_addr hfree le_rfl] at hb
    simp only [pointers, if_neg hfree]
    split
    · rfl
    · split
      · rename_i hk
        rw [update_of_ne (hb hk.2)]
      · rfl

theorem pointers_update_of_ne (h : i ≠ j) :
    pointers (update T j d) B (i, k) = pointers T B (i, k) := by
  simp only [pointers, update_of_ne h]

theorem pointers_new (hfree : (T i).type = 0) (hd : ∀ k, d.addr k = 0) :
    pointers (update T i d) B = pointers T B := by
  funext ⟨j, k⟩
  by_cases hj : j = i
  · subst hj
    rw [pointers_of_free hfree]
    simp [pointers, hd]
  · exact pointers_update_of_ne hj

theorem pointers_congr (htype : d.type = (T ip).type) (haddrs : d.addrs = (T ip).addrs) :
    pointers (update T ip d) B = pointers T B := by
  have haddr : d.addr = (T ip).addr := by
    funext k
    simp only [Dinode.addr, haddrs]
  funext ⟨i, k⟩
  by_cases hi : i = ip
  · subst hi
    simp only [pointers, update_self, htype, haddr]
  · exact pointers_update_of_ne hi

theorem pointers_setAddr (h : (T ip).type ≠ 0) (hk : k < NDIRECT) :
    pointers (update T ip ((T ip).setAddr k b)) B
      = update (pointers T B) (ip, k) b := by
  have haddr : ((T ip).setAddr k b).addr NDIRECT = (T ip).addr NDIRECT := by
    rw [Dinode.addr_setAddr, if_neg (by omega)]
  funext ⟨i, l⟩
  by_cases hi : i = ip
  · subst hi
    by_cases hl : l = k
    · subst hl
      rw [update_self, pointers_addr (by simpa using h) (by omega), update_self,
        Dinode.addr_setAddr, if_pos (by omega)]
    · rw [update_of_ne (by simp [hl])]
      simp only [pointers, update_self, Dinode.setAddr_type, haddr]
      rw [Dinode.addr_setAddr, if_neg (show ¬ (l = k ∧ k < NDIRECT + 1) by omega)]
  · rw [pointers_update_of_ne hi, update_of_ne (by simp [hi])]

theorem pointers_setIndirect (h : (T ip).type ≠ 0) (hnone : (T ip).addr NDIRECT = 0)
    (hzero : ∀ j < NINDIRECT, listed (B b) j = 0) :
    pointers (update T ip ((T ip).setAddr NDIRECT b)) B
      = update (pointers T B) (ip, NDIRECT) b := by
  funext ⟨i, l⟩
  by_cases hi : i = ip
  · subst hi
    have htype : (update T i ((T i).setAddr NDIRECT b) i).type ≠ 0 := by simpa using h
    rcases Nat.lt_trichotomy l NDIRECT with hl | rfl | hl
    · rw [update_of_ne (by simp; omega), pointers_addr htype (by omega),
        pointers_addr h (by omega), update_self, Dinode.addr_setAddr, if_neg (by omega)]
    · rw [update_self, pointers_addr htype le_rfl, update_self,
        Dinode.addr_setAddr, if_pos (by omega)]
    · have hbefore : pointers T B (i, l) = 0 :=
        pointers_no_indirect (by rwa [pointers_addr h le_rfl]) (by omega)
      have haddr : ((T i).setAddr NDIRECT b).addr NDIRECT = b := by
        rw [Dinode.addr_setAddr, if_pos (by omega)]
      rw [update_of_ne (by simp; omega), hbefore, pointers, if_neg htype,
        if_neg (by simp only; omega)]
      simp only [update_self, haddr]
      -- the new block lists nothing yet
      split
      · exact hzero _ (by omega)
      · rfl
  · rw [pointers_update_of_ne hi, update_of_ne (by simp [hi])]

theorem listed_setListed_self (hb : b < 2 ^ 32) : listed (setListed bytes j b) j = b := by
  rw [listed, setListed, numAt_putNum_self, Nat.mod_eq_of_lt (by omega)]

theorem listed_setListed_of_ne {l : Nat} (h : l ≠ j) :
    listed (setListed bytes j b) l = listed bytes l :=
  numAt_putNum_of_disjoint (by omega)

theorem listed_zero (j : Nat) : listed (fun _ => 0) j = 0 := by
  simp [listed, numAt]

theorem pointers_setListed {a : Nat} (hj : j < NINDIRECT) (ha : a ≠ 0)
    (hip : pointers T B (ip, NDIRECT) = a) (hb : b < 2 ^ 32)
    (hinj : ∀ i, pointers T B (i, NDIRECT) = a → i = ip) :
    pointers T (update B a (setListed (B a) j b))
      = update (pointers T B) (ip, NDIRECT + 1 + j) b := by
  have htype : (T ip).type ≠ 0 := type_ne_of_pointers (hip ▸ ha)
  have haddr : (T ip).addr NDIRECT = a := by rwa [pointers_addr htype le_rfl] at hip
  funext ⟨i, l⟩
  by_cases hi : i = ip
  · subst hi
    by_cases hl : l = NDIRECT + 1 + j
    · subst hl
      rw [update_self, pointers_listed htype hj (haddr ▸ ha), haddr, update_self,
        listed_setListed_self hb]
    · rw [update_of_ne (by simp [hl])]
      simp only [pointers, if_neg htype, haddr, update_self]
      split
      · rfl
      · split
        · exact listed_setListed_of_ne (by omega)
        · rfl
  · rw [update_of_ne (by simp [hi])]
    by_cases hfree : (T i).type = 0
    · rw [pointers_of_free hfree, pointers_of_free hfree]
    · have hne : (T i).addr NDIRECT ≠ a := by
        rw [← pointers_addr hfree le_rfl]
        exact fun heq => hi (hinj i heq)
      simp only [pointers, update_of_ne hne]

end

end Xv6.Fs
