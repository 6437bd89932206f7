import Xv6.Fs.Pointers

/-! # Allocating and freeing the blocks of a file

What `balloc`, `bmap` and `itrunc` do to the slots. A call works on its copy of one inode, so the
layout is stated for the table in which that copy stands for the inode on the disk.

* **`bmap_ends`** — `bmap` returns the block in the slot of the file's block; it fills at most that
  slot and the one of the indirect block, and it can only fail when no block is free.
* **`itrunc_ends`** — `itrunc` empties all slots of the inode; it never finds a block free
  already. -/

namespace Xv6.Fs

open Foundation Function
open Inodes (Dinode NDIRECT)

variable {s s' s'' : Fs} {ip b k : Nat}

/-- The table of inodes in which the copy of `ip` in memory stands for the one on the disk. -/
def table (s : Fs) (ip : Nat) : Nat → Dinode := update s.disk.inode ip (s.mem ip).data

/-- The slots as a call on `ip` sees them. -/
def own (s : Fs) (ip : Nat) : Place → Nat := pointers (s.table ip) s.disk.block

/-- The layout as a call on `ip` sees it. -/
abbrev LaidOut (s : Fs) (ip : Nat) : Prop := Laid s.sb (s.table ip) s.disk.bitmap s.disk.block

theorem LaidOut.exact_own (h : s.LaidOut ip) :
    Exact (· < s.sb.nmeta) s.sb.size s.disk.bitmap (s.own ip) := h.exact

@[simp] theorem table_self (s : Fs) (ip : Nat) : s.table ip ip = (s.mem ip).data :=
  update_self ..

theorem table_of_ne {i : Nat} (h : i ≠ ip) : s.table ip i = s.disk.inode i :=
  update_of_ne h ..

@[simp] theorem table_setBit (b : Nat) (v : Bool) : (s.setBit b v).table ip = s.table ip := rfl

@[simp] theorem table_setBlock (b : Nat) (bytes : Block) :
    (s.setBlock b bytes).table ip = s.table ip :=
  rfl

@[simp] theorem table_setData (f : Dinode → Dinode) :
    (s.setData ip f).table ip = update (s.table ip) ip (f (s.mem ip).data) := by
  simp [table]

theorem own_addr (htype : (s.mem ip).data.type ≠ 0) (hk : k ≤ NDIRECT) :
    s.own ip (ip, k) = (s.mem ip).data.addr k := by
  rw [own, pointers_addr (by simpa using htype) hk, table_self]

theorem own_listed {j : Nat} (htype : (s.mem ip).data.type ≠ 0) (hj : j < NINDIRECT)
    (hne : s.own ip (ip, NDIRECT) ≠ 0) :
    s.own ip (ip, NDIRECT + 1 + j) = listed (s.disk.block (s.own ip (ip, NDIRECT))) j := by
  have htype' : (s.table ip ip).type ≠ 0 := by rwa [table_self]
  have haddr := pointers_addr (B := s.disk.block) htype' (Nat.le_refl NDIRECT)
  rw [own, haddr]
  exact pointers_listed htype' hj (haddr ▸ hne)

/-! ## The bitmap -/

/-- **`balloc`** takes a block whose bit is clear and clears its bytes, unless there is none. -/
theorem balloc_ends (h : s.LaidOut ip) :
    Ends balloc s
      (fun b s' => b < s.sb.size ∧ s.disk.bitmap b = false ∧ b ≠ 0 ∧
        s' = (s.setBit b true).setBlock b fun _ => 0)
      fun e _ => e = .outOfBlocks ∧ freeBlocks s.sb.size s.disk.bitmap = 0 := by
  rw [balloc, ends_bind, ends_get]
  rcases hfind : (List.range s.sb.size).find? fun b => !s.disk.bitmap b with _ | b
  · rw [List.find?_eq_none] at hfind
    refine ⟨rfl, Nat.eq_zero_of_not_pos fun hpos => ?_⟩
    obtain ⟨b, hb, hfree⟩ := freeBlocks_pos.1 hpos
    exact hfind b (List.mem_range.2 hb) (by simp [hfree])
  · have hb : b < s.sb.size := List.mem_range.1 (List.mem_of_find?_eq_some hfind)
    have hfree : s.disk.bitmap b = false := by simpa using List.find?_some hfind
    have hmeta : s.sb.nmeta ≤ b := by
      by_contra hlt
      rw [(h.exact.used_iff hb).2 (.inl (Nat.lt_of_not_le hlt))] at hfree
      cases hfree
    simp only [bzero, bread, ends_bind, ends_modify, ends_get, ends_stopIf, ends_pure, setBit_sb]
    have hpos : 0 < s.sb.nmeta := Nat.succ_pos _
    exact ⟨fun hout => by omega, fun _ => ⟨hb, hfree, by omega, trivial⟩⟩

theorem bfree_ends {base : Nat → Prop} {own : Place → Nat} {κ : Place}
    (h : Exact base s.sb.size s.disk.bitmap own) (hκ : own κ ≠ 0) :
    Ends (bfree (own κ)) s
      (fun _ s' => s' = s.setBit (own κ) false ∧
        Exact base s'.sb.size s'.disk.bitmap (update own κ 0))
      fun _ _ => False := by
  simp only [bfree, ends_bind, ends_get, ends_stopIf, ends_modify, h.used_own hκ]
  exact ⟨by simp, fun _ => ⟨trivial, h.give hκ⟩⟩

theorem bread_ends {own : Place → Nat} {κ : Place}
    (h : Exact (· < s.sb.nmeta) s.sb.size s.disk.bitmap own) (hκ : own κ ≠ 0) :
    Ends (bread (own κ)) s (fun _ s' => s' = s) fun _ _ => False := by
  have hlow := h.not_base hκ
  have hhigh := h.lt_limit hκ
  simp only [bread, ends_bind, ends_get, ends_stopIf]
  exact ⟨fun hout => hout.elim hlow (Nat.not_le_of_lt hhigh), fun _ => trivial⟩

/-! ## Filling slots -/

/-- In memory only the block numbers of `ip` have changed. -/
def OnlyAddrs (ip : Nat) (s s' : Fs) : Prop :=
  ∃ a, s'.mem = update s.mem ip
    { s.mem ip with data := { (s.mem ip).data with addrs := a } }

namespace OnlyAddrs

theorem refl : OnlyAddrs ip s s := ⟨(s.mem ip).data.addrs, (update_eq_self ip s.mem).symm⟩

section

variable (h : OnlyAddrs ip s s')

include h

theorem trans (h' : OnlyAddrs ip s' s'') : OnlyAddrs ip s s'' := by
  obtain ⟨a, ha⟩ := h
  obtain ⟨a', ha'⟩ := h'
  exact ⟨a', by simp [ha', ha]⟩

theorem setAddr : OnlyAddrs ip s (s'.setData ip fun d => d.setAddr k b) :=
  h.trans ⟨((s'.mem ip).data.setAddr k b).addrs, rfl⟩

theorem type_eq : (s'.mem ip).data.type = (s.mem ip).data.type := by
  obtain ⟨a, ha⟩ := h
  simp [ha]

theorem size_eq : (s'.mem ip).data.size = (s.mem ip).data.size := by
  obtain ⟨a, ha⟩ := h
  simp [ha]

end

end OnlyAddrs

/-- **Slots of `ip` were filled.** The copy of `ip` in memory differs in its block numbers only. -/
structure Grown (ip : Nat) (s s' : Fs) : Prop where
  laid : s'.LaidOut ip
  sb : s'.sb = s.sb
  inode : s'.disk.inode = s.disk.inode
  mem : OnlyAddrs ip s s'
  grows : Extends s.sb.size s.disk.bitmap s'.disk.bitmap (s.own ip) (s'.own ip)
  others : ∀ {i k}, i ≠ ip → s'.own ip (i, k) = s.own ip (i, k)

/-- The blocks of data that were in a slot are as they were. -/
def SameBytes (ip : Nat) (s s' : Fs) : Prop :=
  ∀ {κ : Place}, κ.2 ≠ NDIRECT → s.own ip κ ≠ 0 →
    s'.disk.block (s.own ip κ) = s.disk.block (s.own ip κ)

namespace Grown

theorem refl (h : s.LaidOut ip) : Grown ip s s where
  laid := h
  sb := rfl
  inode := rfl
  mem := .refl
  grows := .refl
  others _ := rfl

theorem trans (h : Grown ip s s') (h' : Grown ip s' s'') : Grown ip s s'' where
  laid := h'.laid
  sb := h'.sb.trans h.sb
  inode := h'.inode.trans h.inode
  mem := h.mem.trans h'.mem
  grows := h.grows.trans (h.sb ▸ h'.grows)
  others hi := (h'.others hi).trans (h.others hi)

theorem sameBytes_trans (h : Grown ip s s') (hs : SameBytes ip s s') (hs' : SameBytes ip s' s'') :
    SameBytes ip s s'' := by
  intro κ hκ hown
  have hkeep := h.grows.keep hown
  rw [← hs hκ hown, ← hkeep, hs' hκ (hkeep ▸ hown)]

/-- **One slot is filled** with a block that was free. -/
theorem take (h : s.LaidOut ip) (hb : b < s.sb.size) (hfree : s.disk.bitmap b = false) (h0 : b ≠ 0)
    (hempty : s.own ip (ip, k) = 0) (hsb : s'.sb = s.sb) (hinode : s'.disk.inode = s.disk.inode)
    (hmem : OnlyAddrs ip s s')
    (hbitmap : s'.disk.bitmap = update s.disk.bitmap b true)
    (hown : s'.own ip = update (s.own ip) (ip, k) b) : Grown ip s s' := by
  have hgrows : Extends s.sb.size s.disk.bitmap s'.disk.bitmap (s.own ip) (s'.own ip) := by
    rw [hbitmap, hown]
    exact .take hb hfree hempty h0
  have htable : ∀ i, (s'.table ip i).type = (s.table ip i).type ∧
      (s'.table ip i).size = (s.table ip i).size := by
    intro i
    by_cases hi : i = ip
    · subst hi
      rw [table_self, table_self]
      exact ⟨hmem.type_eq, hmem.size_eq⟩
    · rw [table_of_ne hi, table_of_ne hi, hinode]
      exact ⟨rfl, rfl⟩
  constructor
  case laid =>
    constructor
    · show Exact _ _ _ (s'.own ip)
      rw [hsb, hbitmap, hown]
      exact h.exact.take hb hfree hempty h0
    · intro i bn htype hsize
      rw [(htable i).1] at htype
      rw [(htable i).2] at hsize
      have hcov : s.own ip (i, slotOf bn) ≠ 0 := h.covered htype hsize
      show s'.own ip (i, slotOf bn) ≠ 0
      rwa [hgrows.keep hcov]
  case others =>
    intro i l hi
    rw [hown, update_of_ne (by simp [hi])]
  all_goals assumption

end Grown

theorem LaidOut.sameBytes_take (h : s.LaidOut ip) (hfree : s.disk.bitmap b = false)
    (hbytes : ∀ c, c ≠ b → c ≠ s.own ip (ip, NDIRECT) → s'.disk.block c = s.disk.block c) :
    SameBytes ip s s' := by
  intro κ hκ hne
  apply hbytes _ (h.exact.own_ne hfree hne)
  intro heq
  exact hκ (congrArg Prod.snd (h.exact.inj hne heq))

/-- **A slot was looked up**, and filled if it was empty: it is slot `k` with the block `a`, and no
slots of `ip` were filled but those that `p` admits. -/
structure Mapped (ip k a : Nat) (p : Nat → Prop) (s s' : Fs) : Prop where
  grown : Grown ip s s'
  bytes : SameBytes ip s s'
  val : a = s'.own ip (ip, k)
  ne : a ≠ 0
  same : s.own ip (ip, k) ≠ 0 → s' = s
  rest : ∀ {l}, ¬ p l → s'.own ip (ip, l) = s.own ip (ip, l)

theorem own_take (h : s.LaidOut ip) (hfree : s.disk.bitmap b = false) :
    pointers (s.table ip) (update s.disk.block b fun _ => 0) = s.own ip :=
  pointers_setBlock fun _ hi => h.exact.own_ne hfree hi

theorem addrAlloc_ends (h : s.LaidOut ip) (htype : (s.mem ip).data.type ≠ 0) (hk : k ≤ NDIRECT) :
    Ends (addrAlloc ip k) s
      (fun a s' => Mapped ip k a (· = k) s s')
      fun e _ => e = .outOfBlocks ∧ s.own ip (ip, k) = 0 ∧
        freeBlocks s.sb.size s.disk.bitmap = 0 := by
  have haddr := own_addr htype hk
  rw [addrAlloc, ends_bind, ends_get]
  split
  · rename_i hnone
    rw [← haddr] at hnone
    rw [ends_bind]
    refine (balloc_ends h).mono ?_ fun e _ he => ⟨he.1, hnone, he.2⟩
    rintro b s1 ⟨hb, hfree, h0, rfl⟩
    simp only [ends_bind, ends_modify, ends_pure]
    have hown : ((((s.setBit b true).setBlock b fun _ => 0).setData ip fun d => d.setAddr k b)).own
        ip = update (s.own ip) (ip, k) b := by
      have htable : (s.table ip ip).type ≠ 0 := by simpa using htype
      simp only [own, table_setData, table_setBlock, table_setBit, setData_disk,
        setBlock_disk_block, setBit_disk_block, setBlock_mem, setBit_mem]
      rw [← table_self s ip]
      rcases Nat.eq_or_lt_of_le hk with rfl | hlt
      · -- the new indirect block is full of zeros
        rw [pointers_setIndirect htable (by simpa [haddr] using hnone)
          fun j _ => by rw [update_self, listed_zero]]
        exact congrArg (update · _ _) (own_take h hfree)
      · rw [pointers_setAddr htable hlt]
        exact congrArg (update · _ _) (own_take h hfree)
    constructor
    · exact .take h hb hfree h0 hnone rfl rfl (.setAddr .refl) rfl hown
    · exact h.sameBytes_take hfree fun c hc _ => update_of_ne hc ..
    · rw [hown, update_self]
    · exact h0
    · exact fun hne => absurd hnone hne
    · intro l hl
      rw [hown, update_of_ne (by simp [hl])]
  · rename_i hsome
    rw [← haddr] at hsome
    exact ⟨.refl h, fun _ _ => rfl, haddr.symm, haddr ▸ hsome, fun _ => rfl, fun _ => rfl⟩

/-- The slots that block `bn` of a file needs. -/
def Needs (bn k : Nat) : Prop := k = slotOf bn ∨ (k = NDIRECT ∧ NDIRECT ≤ bn)

/-- Where a shortage of blocks comes from: if the slots that were filled are in `S` and now there
are fewer free blocks than slots missing in `S`, then it was so before. -/
theorem Grown.shortage (h : Grown ip s s') {S : Finset Place}
    (hS : ∀ k, s.own ip (ip, k) = 0 → s'.own ip (ip, k) ≠ 0 → (ip, k) ∈ S)
    (hshort : freeBlocks s'.sb.size s'.disk.bitmap < missing (s'.own ip) S) :
    freeBlocks s.sb.size s.disk.bitmap < missing (s.own ip) S := by
  have hbal := h.grows.balance S fun κ hκ hκ' => by
    obtain ⟨i, k⟩ := κ
    by_cases hi : i = ip
    · subst hi
      exact hS k hκ hκ'
    · exact absurd (h.others hi ▸ hκ) hκ'
  rw [h.sb] at hshort
  omega

theorem own_list {j : Nat} (h : s.LaidOut ip) (hb : b < s.sb.size) (hfree : s.disk.bitmap b = false)
    (ha : s.own ip (ip, NDIRECT) ≠ 0) (hj : j < NINDIRECT) :
    (((s.setBit b true).setBlock b fun _ => 0).setBlock (s.own ip (ip, NDIRECT))
        (setListed (((s.setBit b true).setBlock b fun _ => 0).disk.block (s.own ip (ip, NDIRECT))) j
          b)).own ip
      = update (s.own ip) (ip, NDIRECT + 1 + j) b := by
  have hsame := own_take h hfree
  have hlt := s.sb.size_lt
  show pointers (s.table ip) (update (update s.disk.block b fun _ => 0) _
    (setListed (update s.disk.block b (fun _ => 0) (s.own ip (ip, NDIRECT))) j b)) = _
  rw [pointers_setListed hj ha (congrFun hsame _) (by omega), hsame]
  · intro i hi
    rw [hsame] at hi
    have hi0 : s.own ip (i, NDIRECT) ≠ 0 := by rwa [hi]
    exact congrArg Prod.fst (h.exact.inj hi0 hi)

theorem bmap_ends {bn : Nat} (h : s.LaidOut ip) (htype : (s.mem ip).data.type ≠ 0)
    (hbn : bn < MAXFILE) :
    Ends (bmap ip bn) s
      (fun a s' => Mapped ip (slotOf bn) a (Needs bn) s s')
      fun e _ => e = .outOfBlocks ∧ ∀ S : Finset Place, (∀ k, Needs bn k → (ip, k) ∈ S) →
        freeBlocks s.sb.size s.disk.bitmap < missing (s.own ip) S := by
  unfold bmap
  split
  · rename_i hdirect
    have hslot : slotOf bn = bn := if_pos hdirect
    refine (addrAlloc_ends h htype (Nat.le_of_lt hdirect)).mono ?_ ?_
    · intro a s1 hmap
      rw [hslot]
      refine { hmap with rest := fun hl => hmap.rest fun heq => ?_ }
      exact hl (.inl (by rw [hslot, heq]))
    · rintro e _ ⟨he, hempty, hnone⟩
      refine ⟨he, fun S hS => ?_⟩
      rw [hnone]
      exact missing_pos (hS bn (.inl hslot.symm)) hempty
  · rename_i hindirect
    obtain ⟨j, rfl⟩ := Nat.exists_eq_add_of_le (Nat.le_of_not_lt hindirect)
    have hj : j < NINDIRECT := Nat.lt_of_add_lt_add_left hbn
    have hslot : slotOf (NDIRECT + j) = NDIRECT + 1 + j := by
      rw [slotOf, if_neg hindirect]
      omega
    rw [Nat.add_sub_cancel_left, if_pos hj, ends_bind, hslot]
    refine (addrAlloc_ends h htype le_rfl).mono ?_ ?_
    · rintro a s1 ⟨hgrown, hbytes, rfl, ha0, hsame, hother⟩
      have h1 := hgrown.laid
      have hlisted := own_listed (hgrown.mem.type_eq ▸ htype) hj ha0
      rw [ends_bind]
      refine (bread_ends h1.exact ha0).mono ?_ fun _ _ hstop => hstop.elim
      rintro _ s1 rfl
      rw [ends_bind, ends_get, ← hlisted]
      simp only
      have hnew : ∀ k, s.own ip (ip, k) = 0 → s1.own ip (ip, k) ≠ 0 → k = NDIRECT := by
        intro k hk hk'
        by_contra hne
        exact hk' (hother hne ▸ hk)
      split
      · rename_i hempty
        rw [ends_bind]
        refine (balloc_ends h1).mono ?_ ?_
        · rintro b s2 ⟨hb, hfree, h0, rfl⟩
          simp only [ends_bind, ends_modify, ends_pure]
          have hown := own_list h1 hb hfree ha0 hj
          constructor
          · exact hgrown.trans (.take h1 hb hfree h0 hempty rfl rfl .refl rfl hown)
          · exact hgrown.sameBytes_trans hbytes <| h1.sameBytes_take hfree fun c hc hc' => by
              simp [hc, hc']
          · rw [hown, update_self]
          · exact h0
          · exact fun hne => absurd hempty (hgrown.grows.keep hne ▸ hne)
          · intro l hl
            rw [hown, update_of_ne, hother]
            · rintro rfl
              exact hl (.inr ⟨rfl, Nat.le_add_right _ _⟩)
            · rintro ⟨⟩
              exact hl (.inl hslot.symm)
        · rintro e _ ⟨he, hnone⟩
          refine ⟨he, fun S hS => hgrown.shortage (fun k hk hk' => ?_) ?_⟩
          · exact hS k (.inr ⟨hnew k hk hk', Nat.le_add_right _ _⟩)
          · rw [hnone]
            exact missing_pos (hS _ (.inl hslot.symm)) hempty
      · rename_i hsome
        refine ⟨hgrown, hbytes, rfl, hsome, fun hne => hsame fun hnone => hne ?_,
          fun hl => hother ?_⟩
        · exact pointers_no_indirect hnone (by omega)
        · rintro rfl
          exact hl (.inr ⟨rfl, Nat.le_add_right _ _⟩)
    · rintro e _ ⟨he, hempty, hnone⟩
      refine ⟨he, fun S hS => ?_⟩
      rw [hnone]
      exact missing_pos (hS NDIRECT (.inr ⟨rfl, Nat.le_add_right _ _⟩)) hempty

theorem addrAlloc_found (htype : (s.mem ip).data.type ≠ 0) (hk : k ≤ NDIRECT)
    (hne : s.own ip (ip, k) ≠ 0) :
    Ends (addrAlloc ip k) s (fun a s' => s' = s ∧ a = s.own ip (ip, k)) fun _ _ => False := by
  rw [own_addr htype hk] at hne ⊢
  rw [addrAlloc, ends_bind, ends_get, if_neg hne]
  exact ⟨rfl, rfl⟩

/-- **`bmap` of a block that the file has** changes nothing. -/
theorem bmap_found {bn : Nat} (h : Exact (· < s.sb.nmeta) s.sb.size s.disk.bitmap (s.own ip))
    (htype : (s.mem ip).data.type ≠ 0) (hne : s.own ip (ip, slotOf bn) ≠ 0) :
    Ends (bmap ip bn) s (fun a s' => s' = s ∧ a = s.own ip (ip, slotOf bn)) fun _ _ => False := by
  unfold bmap
  split
  · rename_i hdirect
    have hslot : slotOf bn = bn := if_pos hdirect
    rw [hslot] at hne ⊢
    exact addrAlloc_found htype (Nat.le_of_lt hdirect) hne
  · rename_i hindirect
    obtain ⟨j, rfl⟩ := Nat.exists_eq_add_of_le (Nat.le_of_not_lt hindirect)
    have hslot : slotOf (NDIRECT + j) = NDIRECT + 1 + j := by
      rw [slotOf, if_neg hindirect]
      omega
    rw [hslot] at hne ⊢
    have hj : j < NINDIRECT := by
      by_contra hge
      exact hne (pointers_end (by omega))
    have hlist : s.own ip (ip, NDIRECT) ≠ 0 :=
      fun hnone => hne (pointers_no_indirect hnone (by omega))
    rw [Nat.add_sub_cancel_left, if_pos hj, ends_bind]
    refine (addrAlloc_found htype le_rfl hlist).mono ?_ fun _ _ hstop => hstop
    rintro _ s ⟨rfl, rfl⟩
    rw [ends_bind]
    refine (bread_ends h hlist).mono ?_ fun _ _ hstop => hstop
    rintro _ s rfl
    rw [ends_bind, ends_get, ← own_listed htype hj hlist]
    simp only [if_neg hne]
    exact ⟨rfl, rfl⟩

/-! ## Emptying slots -/

/-- The slots with those of `ip` emptied that `p` selects. -/
def emptied (ip : Nat) (p : Nat → Prop) [DecidablePred p] (own : Place → Nat) : Place → Nat :=
  fun κ => if κ.1 = ip ∧ p κ.2 then 0 else own κ

section

variable {own : Place → Nat} {p q : Nat → Prop} [DecidablePred p] [DecidablePred q]

theorem update_emptied (hq : ∀ l, q l ↔ p l ∨ l = k) :
    update (emptied ip p own) (ip, k) 0 = emptied ip q own := by
  funext ⟨i, l⟩
  by_cases hl : (i, l) = (ip, k)
  · obtain ⟨rfl, rfl⟩ := Prod.mk.inj hl
    simp [emptied, hq]
  · rw [update_of_ne hl]
    have hne : i = ip → l ≠ k := by
      rintro rfl rfl
      exact hl rfl
    by_cases hi : i = ip <;> simp_all [emptied]

theorem emptied_congr (h : ∀ l, own (ip, l) ≠ 0 → (p l ↔ q l)) :
    emptied ip p own = emptied ip q own := by
  funext ⟨i, l⟩
  by_cases hi : i = ip
  · subst hi
    by_cases hown : own (i, l) = 0
    · simp [emptied, hown]
    · simp [emptied, h l hown]
  · simp [emptied, hi]

end

/-- **In the middle of `itrunc`**: the slots that `p` selects have given their blocks back. Only the
bitmap and the block numbers in memory have changed. -/
structure Freeing (ip : Nat) (p : Nat → Prop) [DecidablePred p] (s s' : Fs) : Prop where
  exact : Exact (· < s'.sb.nmeta) s'.sb.size s'.disk.bitmap (emptied ip p (s.own ip))
  sb : s'.sb = s.sb
  inode : s'.disk.inode = s.disk.inode
  block : s'.disk.block = s.disk.block
  mem : OnlyAddrs ip s s'

section

variable {p q : Nat → Prop} [DecidablePred p] [DecidablePred q]

theorem Freeing.congr (h : Freeing ip p s s') (hpq : ∀ l, s.own ip (ip, l) ≠ 0 → (p l ↔ q l)) :
    Freeing ip q s s' :=
  { h with exact := emptied_congr hpq ▸ h.exact }

theorem Freeing.bfree {own : Place → Nat} (h : Freeing ip p s s') (hown : s.own ip = own)
    (hk : ¬ p k)
    (hne : own (ip, k) ≠ 0) (hq : ∀ l, q l ↔ p l ∨ l = k) :
    Ends (bfree (own (ip, k))) s' (fun _ s'' => Freeing ip q s s'' ∧ s''.mem = s'.mem)
      fun _ _ => False := by
  subst hown
  have hslot : emptied ip p (s.own ip) (ip, k) = s.own ip (ip, k) := if_neg fun hp => hk hp.2
  have hends := bfree_ends (κ := (ip, k)) h.exact (hslot.symm ▸ hne)
  rw [hslot] at hends
  refine hends.mono ?_ fun _ _ hstop => hstop
  rintro _ s2 ⟨rfl, hexact⟩
  rw [update_emptied hq] at hexact
  exact ⟨{ h with exact := hexact }, rfl⟩

theorem freeDirects_ends (h : s.LaidOut ip) (htype : (s.mem ip).data.type ≠ 0) :
    Ends ((List.range' 0 NDIRECT).forM (freeDirect ip)) s
      (fun _ s' => Freeing ip (· < NDIRECT) s s' ∧
        (s'.mem ip).data.addr NDIRECT = s.own ip (ip, NDIRECT) ∧
        ∀ l < NDIRECT, (s'.mem ip).data.addr l = 0)
      fun _ _ => False := by
  apply ends_forM fun i s' => Freeing ip (· < i) s s' ∧
    ∀ l ≤ NDIRECT, (s'.mem ip).data.addr l = emptied ip (· < i) (s.own ip) (ip, l)
  · refine ⟨⟨?_, rfl, rfl, rfl, .refl⟩, fun l hl => ?_⟩
    · rw [show emptied ip (· < 0) (s.own ip) = s.own ip by funext κ; simp [emptied]]
      exact h.exact
    · simp [emptied, own_addr htype hl]
  · rintro i - hi s' ⟨hfreeing, haddr⟩
    have hi' : i < NDIRECT := by omega
    have hslot : (s'.mem ip).data.addr i = s.own ip (ip, i) := by
      rw [haddr i (Nat.le_of_lt hi')]
      simp [emptied]
    rw [freeDirect, ends_bind, ends_get, ends_onlyIf, hslot]
    constructor
    · intro hne
      rw [ends_bind]
      refine (hfreeing.bfree (q := (· < i + 1)) rfl (Nat.lt_irrefl i) hne fun l => by omega).mono ?_
        fun _ _ hstop => hstop
      rintro _ s2 ⟨hfreed, hmem⟩
      refine ⟨{ hfreed with mem := hfreed.mem.setAddr }, fun l hl => ?_⟩
      simp only [setData_mem, update_self, Dinode.addr_setAddr]
      split
      · rename_i hli
        simp [emptied, hli.1]
      · rename_i hli
        have : l ≠ i := fun heq => hli ⟨heq, by omega⟩
        rw [hmem, haddr l hl]
        simp only [emptied, true_and]
        congr 1
        simp only [eq_iff_iff]
        omega
    · intro hempty
      rw [ne_eq, not_not] at hempty
      have hsame : ∀ l, s.own ip (ip, l) ≠ 0 → (l < i ↔ l < i + 1) := by
        intro l hl
        have : l ≠ i := by
          rintro rfl
          exact hl hempty
        omega
      exact ⟨hfreeing.congr hsame, fun l hl => emptied_congr hsame ▸ haddr l hl⟩
  · rintro s' ⟨hfreeing, haddr⟩
    rw [Nat.zero_add] at hfreeing haddr
    refine ⟨hfreeing, ?_, fun l hl => ?_⟩
    · rw [haddr _ le_rfl]
      simp [emptied]
    · rw [haddr l (Nat.le_of_lt hl)]
      simp [emptied, hl]

theorem freeIndirect_ends (htype : (s.mem ip).data.type ≠ 0) (h : Freeing ip (· < NDIRECT) s s')
    (haddr : (s'.mem ip).data.addr NDIRECT = s.own ip (ip, NDIRECT))
    (hdirect : ∀ l < NDIRECT, (s'.mem ip).data.addr l = 0) :
    Ends (freeIndirect ip) s'
      (fun _ s'' => Freeing ip (fun _ => True) s s'' ∧ ∀ l ≤ NDIRECT, (s''.mem ip).data.addr l = 0)
      fun _ _ => False := by
  rw [freeIndirect, ends_bind, ends_get]
  simp only [haddr, ends_onlyIf]
  constructor
  · intro hne
    have hslot : emptied ip (· < NDIRECT) (s.own ip) (ip, NDIRECT) = s.own ip (ip, NDIRECT) :=
      if_neg (by simp)
    have hread := bread_ends h.exact (hslot.symm ▸ hne)
    rw [hslot] at hread
    rw [ends_bind]
    refine hread.mono ?_ fun _ _ hstop => hstop
    rintro _ s' rfl
    have hlisted : ∀ j < NINDIRECT, listed (s'.disk.block (s.own ip (ip, NDIRECT))) j
        = s.own ip (ip, NDIRECT + 1 + j) := by
      intro j hj
      have htype' : (s.table ip ip).type ≠ 0 := by simpa using htype
      have haddr' := pointers_addr (B := s.disk.block) htype' (Nat.le_refl NDIRECT)
      rw [h.block, own, haddr', pointers_listed htype' hj (haddr' ▸ hne)]
    rw [ends_bind]
    -- the block itself is freed last, so its slot stays filled in the loop
    apply ends_forM fun j s2 =>
      Freeing ip (fun l => l < NDIRECT ∨ NDIRECT < l ∧ l < NDIRECT + 1 + j) s s2 ∧ s2.mem = s'.mem
    · exact ⟨h.congr fun l _ => by omega, rfl⟩
    · rintro j - hj s2 ⟨hfreeing, hmem⟩
      rw [Nat.zero_add] at hj
      simp only [haddr, hlisted j hj, ends_onlyIf]
      constructor
      · intro hj0
        refine (hfreeing.bfree (q := fun l => l < NDIRECT ∨ NDIRECT < l ∧ l < NDIRECT + 1 + (j + 1))
          rfl (by omega) hj0 fun l => by omega).mono ?_ fun _ _ hstop => hstop
        rintro _ s3 ⟨hfreed, hmem'⟩
        exact ⟨hfreed, hmem'.trans hmem⟩
      · intro hj0
        refine ⟨hfreeing.congr fun l hl => ?_, hmem⟩
        have : l ≠ NDIRECT + 1 + j := by
          rintro rfl
          exact hj0 hl
        omega
    · rintro s2 ⟨hfreeing, hmem⟩
      rw [ends_bind]
      refine (hfreeing.bfree (q := fun l => l < NDIRECT + 1 + NINDIRECT) rfl (by omega) hne
        fun l => by omega).mono ?_ fun _ _ hstop => hstop
      rintro _ s3 ⟨hfreed, hmem'⟩
      have hall := hfreed.congr (q := fun _ => True) fun l hl => by
        simp only [iff_true]
        by_contra hend
        exact hl (pointers_end (Nat.le_of_not_lt hend))
      refine ⟨{ hall with mem := hall.mem.setAddr }, fun l hl => ?_⟩
      · simp only [setData_mem, update_self, Dinode.addr_setAddr, hmem'.trans hmem]
        split
        · rfl
        · exact hdirect l (by omega)
  · intro hnone
    rw [ne_eq, not_not] at hnone
    refine ⟨h.congr fun l hl => ?_, fun l hl => ?_⟩
    · simp only [iff_true]
      by_contra hend
      exact hl (pointers_no_indirect hnone (Nat.le_of_not_lt hend))
    · rcases Nat.eq_or_lt_of_le hl with rfl | hlt
      · rw [haddr, hnone]
      · exact hdirect l hlt

end

/-- An inode without content. -/
def truncated (d : Dinode) : Dinode := { d with size := 0, addrs := fun _ => 0 }

/-- **What `itrunc` does**: the inode has no content any more, in memory and on the disk, and its
blocks are free. -/
structure Truncated (ip : Nat) (s s' : Fs) : Prop where
  sb : s'.sb = s.sb
  block : s'.disk.block = s.disk.block
  mem : s'.mem = (s.setData ip truncated).mem
  inode : s'.disk.inode = update s.disk.inode ip (truncated (s.mem ip).data)
  exact : Exact (· < s'.sb.nmeta) s'.sb.size s'.disk.bitmap (emptied ip (fun _ => True) (s.own ip))

/-- **`itrunc`** frees all blocks of the inode and never panics. -/
theorem itrunc_ends (h : s.LaidOut ip) (htype : (s.mem ip).data.type ≠ 0) :
    Ends (itrunc ip) s (fun _ s' => Truncated ip s s') fun _ _ => False := by
  rw [itrunc, ends_bind]
  refine (freeDirects_ends h htype).mono ?_ fun _ _ hstop => hstop
  rintro _ s1 ⟨hfreeing, haddr, hdirect⟩
  rw [ends_bind]
  refine (freeIndirect_ends htype hfreeing haddr hdirect).mono ?_ fun _ _ hstop => hstop
  rintro _ s2 ⟨hfreed, hzero⟩
  simp only [iupdate, ends_bind, ends_modify]
  have haddrs : (s2.mem ip).data.addrs = fun _ => 0 := by
    funext k
    have := hzero k (Nat.le_of_lt_succ k.isLt)
    rwa [Dinode.addr, dif_pos k.isLt] at this
  obtain ⟨a, ha⟩ := hfreed.mem
  have ha0 : a = fun _ => 0 := by simpa [ha] using haddrs
  have hmem : (s2.setData ip fun d => { d with size := 0 }).mem = (s.setData ip truncated).mem := by
    simp [ha, ha0, truncated]
  refine ⟨hfreed.sb, hfreed.block, hmem, ?_, hfreed.exact⟩
  show update s2.disk.inode ip ((s2.setData ip fun d => { d with size := 0 }).mem ip).data = _
  rw [hmem, hfreed.inode]
  simp

end Xv6.Fs
