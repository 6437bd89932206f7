import Xv6.Fs.Arrays
import Xv6.Mkfs.Program

/-! # `iappend` against `writei`

The image while it is being built, as the kernel would see it if the free map were written already:
the blocks below `freeblock` are taken. Seen this way, `iappend` does to the image what `writei` of
the kernel does to its disk, block by block, since the kernel would also take the first free block.

* **`appendBlocks_ends`** — the loops of the two programs run in lock step.
* **`iappend_ends`** — what `iappend` leaves, by what is known of `writei`. -/

namespace Xv6.Mkfs

open Foundation Fs Function
open Inodes (Dinode NDIRECT)

/-- The unfinished image as a file system. -/
def fs (s : Mkfs) : Fs where
  sb := mkfsSuperblock
  disk := { Disk.ofImage inodestart mkfsSuperblock s.image with
    bitmap := fun b => decide (b < s.freeblock) }
  mem := fun _ => {}

/-- The file system while the program has a copy of one inode in memory. -/
def working (s : Mkfs) (inum : Nat) (din : Dinode) : Fs :=
  { s.fs with mem := update (fun _ => {}) inum { ref := 1, valid := true, data := din } }

/-- Store a sector. -/
@[simps -fullyApplied] def put (s : Mkfs) (b : Nat) (bytes : Block) : Mkfs :=
    { s with image := update s.image b bytes }

/-- Take the next block. -/
@[simps -fullyApplied] def took (s : Mkfs) : Mkfs := { s with freeblock := s.freeblock + 1 }

/-- The superblock is written, and the blocks that are not taken yet are there and hold zeros. -/
structure Fresh (s : Mkfs) : Prop where
  sectors : s.sectors = FSSIZE
  super : s.image 1 = superBytes
  low : nmeta ≤ s.freeblock
  high : s.freeblock ≤ FSSIZE
  zero : ∀ b, s.freeblock ≤ b → b < FSSIZE → s.image b = fun _ => 0

variable {s s' : Mkfs} {inum k b fbn : Nat} {din : Dinode} {bytes : Block}

/-! ## Stores -/

@[simp] theorem working_sb : (s.working inum din).sb = mkfsSuperblock := rfl

@[simp] theorem working_block : (s.working inum din).disk.block = s.fs.disk.block := rfl

theorem working_content : (s.working inum din).content = s.fs.content := content_congr rfl

@[simp] theorem working_data : ((s.working inum din).mem inum).data = din := by
  simp [working]

theorem nmeta_eq : mkfsSuperblock.nmeta = nmeta := by decide

theorem inodestart_le : inodestart ≤ nmeta := by decide

theorem fs_block (hb : nmeta ≤ b) : s.fs.disk.block b = s.image b := if_pos hb

theorem put_working (hb : nmeta ≤ b) :
    (s.put b bytes).working inum din = (s.working inum din).setBlock b bytes := by
  have hinode : (s.put b bytes).fs.disk.inode = s.fs.disk.inode := by
    funext i
    simp only [fs, Disk.ofImage, put_image]
    split
    · rename_i hi
      have hne : i / IPB + inodestart ≠ b := by
        have hlow : i / IPB + inodestart < bmapstart := hi
        have hmeta : nmeta = bmapstart + 1 := rfl
        omega
      rw [update_of_ne hne]
    · rfl
  have hblock : (s.put b bytes).fs.disk.block = update s.fs.disk.block b bytes := by
    funext c
    by_cases hc : c = b
    · rw [hc, fs_block hb, update_self, put_image, update_self]
    · simp only [fs, Disk.ofImage, put_image, update_of_ne hc]
  simp only [working, setBlock, ← hblock, ← hinode]
  rfl

theorem took_working (h : s.Fresh) (hlt : s.freeblock < FSSIZE) :
    s.took.working inum din =
      ((s.working inum din).setBit s.freeblock true).setBlock s.freeblock fun _ => 0 := by
  have hbitmap : s.took.fs.disk.bitmap = update s.fs.disk.bitmap s.freeblock true := by
    funext c
    by_cases hc : c = s.freeblock
    · simp [fs, hc]
    · simp only [fs, took_freeblock, update_of_ne hc, decide_eq_decide]
      omega
  have hblock : update s.fs.disk.block s.freeblock (fun _ => 0) = s.fs.disk.block := by
    rw [update_eq_self_iff, fs_block h.low, h.zero _ le_rfl hlt]
  simp only [working, setBlock, setBit, ← hbitmap, hblock]
  rfl

theorem working_setAddr :
    s.working inum (din.setAddr k b) = (s.working inum din).setData inum fun d =>
      d.setAddr k b := by
  simp [working, setData]

theorem Fresh.took (h : s.Fresh) (hlt : s.freeblock < FSSIZE) : s.took.Fresh where
  __ := h
  low := Nat.le_succ_of_le h.low
  high := hlt
  zero b hb := h.zero b (Nat.le_of_succ_le hb)

theorem Fresh.put (h : s.Fresh) (hlow : inodestart ≤ b) (hb : b < s.freeblock) :
    (s.put b bytes).Fresh where
  __ := h
  super := by
    have hne : 1 ≠ b := by
      have : 1 < inodestart := by decide
      omega
    rw [put_image, update_of_ne hne]
    exact h.super
  zero c hc hc' := by
    rw [put_image, update_of_ne (by have : s.freeblock ≤ c := hc; omega)]
    exact h.zero c hc hc'

/-! ## Sectors -/

theorem sector_eq (hb : b ≤ FSSIZE) : sector b = b :=
    Nat.mod_eq_of_lt (by unfold FSSIZE at hb; omega)

variable {C : Halt → Mkfs → Prop} {data : List UInt8} {d : Dinode}

theorem rsect_ends (hs : s.sectors = FSSIZE) (hb : b ≤ FSSIZE) {Q : Block → Mkfs → Prop} :
    Ends (rsect b) s Q C ↔ (FSSIZE ≤ b → C .exit s) ∧ (b < FSSIZE → Q (s.image b) s) := by
  simp only [rsect, ends_bind, ends_get, ends_stopIf, ends_pure, sector_eq hb, hs, Nat.not_le]

theorem wsect_ends (hs : s.sectors = FSSIZE) (hb : b < FSSIZE) {Q : PUnit → Mkfs → Prop} :
    Ends (wsect b bytes) s Q C ↔ Q ⟨⟩ (s.put b bytes) := by
  simp only [wsect, ends_modify, sector_eq (Nat.le_of_lt hb), hs]
  rw [Nat.max_eq_left hb, Mkfs.put, ← hs]

@[simp] theorem nextBlock_ends {Q : Nat → Mkfs → Prop} :
    Ends nextBlock s Q C ↔ Q s.freeblock s.took := Iff.rfl

/-! ## Blocks -/

/-- **`balloc` of the kernel** would take the block that comes next. -/
theorem balloc_returns (h : s.Fresh) (hlt : s.freeblock < FSSIZE) :
    Returns Fs.balloc (s.working inum din) s.freeblock (s.took.working inum din) := by
  have hfind : ((List.range (s.working inum din).sb.size).find? fun b =>
      !(s.working inum din).disk.bitmap b)
      = some s.freeblock := by
    rw [List.find?_range_eq_some]
    refine ⟨by simp [working, fs], List.mem_range.2 hlt, fun j hj => ?_⟩
    simp [working, fs, hj]
  have hread : ¬ (s.freeblock < mkfsSuperblock.nmeta ∨ FSSIZE ≤ s.freeblock) := by
    have hlow : mkfsSuperblock.nmeta ≤ s.freeblock := h.low
    omega
  rw [Fs.balloc, returns_bind]
  refine ⟨_, _, returns_get.2 ⟨rfl, rfl⟩, ?_⟩
  rw [hfind]
  simp only [returns_bind, returns_modify, bzero, bread, returns_get, returns_stopIf, returns_pure]
  exact ⟨⟨⟩, _, rfl, ⟨⟩, _, ⟨⟨⟩, _, ⟨_, _, ⟨rfl, rfl⟩, hread, rfl⟩, rfl⟩, trivial,
    took_working h hlt⟩

theorem allocAddr_ends (inum k : Nat) (din : Dinode) (h : s.Fresh) :
    Ends (allocAddr din k) s
      (fun r s' => (din.addr k ≠ 0 → r.1 = din.addr k ∧ s' = s) ∧
        (din.addr k = 0 → r.1 = s.freeblock ∧ s' = s.took) ∧ (r.1 < FSSIZE ∨ din.addr k ≠ 0 →
          s'.Fresh ∧ Returns (addrAlloc inum k) (s.working inum din) r.1 (s'.working inum r.2)))
      fun _ _ => False := by
  rw [allocAddr]
  split
  · rename_i hzero
    simp only [nextBlock_ends, ends_bind, ends_pure]
    refine ⟨fun hne => absurd hzero hne, fun _ => ⟨trivial, trivial⟩, fun hlt => ?_⟩
    have hlt : s.freeblock < FSSIZE := hlt.resolve_right fun hne => hne hzero
    refine ⟨h.took hlt, ?_⟩
    rw [addrAlloc, returns_bind]
    refine ⟨_, _, returns_get.2 ⟨rfl, rfl⟩, ?_⟩
    rw [working_data, if_pos hzero]
    simp only [returns_bind, returns_modify, returns_pure]
    exact ⟨_, _, balloc_returns h hlt, ⟨⟩, _, rfl, rfl, working_setAddr⟩
  · rename_i hne
    refine ⟨fun _ => ⟨rfl, rfl⟩, fun hzero => absurd hzero hne, fun _ => ⟨h, ?_⟩⟩
    rw [addrAlloc, returns_bind]
    refine ⟨_, _, returns_get.2 ⟨rfl, rfl⟩, ?_⟩
    rw [working_data, if_neg hne]
    exact returns_pure.2 ⟨rfl, rfl⟩

theorem own_range (h : (s.working inum din).LaidOut inum)
    (hne : (s.working inum din).own inum (inum, k) ≠ 0) :
    nmeta ≤ (s.working inum din).own inum (inum, k) ∧
      (s.working inum din).own inum (inum, k) < FSSIZE := by
  have hlow := h.exact_own.not_base hne
  rw [working_sb, nmeta_eq] at hlow
  exact ⟨Nat.le_of_not_lt hlow, h.exact_own.lt_limit hne⟩

theorem bread_returns (hlow : nmeta ≤ b) (hb : b < FSSIZE) :
    Returns (bread b) (s.working inum din) ⟨⟩ (s.working inum din) := by
  have hin : ¬ (b < mkfsSuperblock.nmeta ∨ FSSIZE ≤ b) := by
    rw [nmeta_eq]
    omega
  simp only [bread, returns_bind, returns_get, returns_stopIf]
  exact ⟨_, _, ⟨rfl, rfl⟩, hin, rfl⟩

/-- What finding a block leaves, with the block or without it. -/
structure Found (s : Mkfs) (inum : Nat) (din : Dinode) (fbn : Nat) (r : Nat × Dinode) (s' : Mkfs) :
    Prop where
  sectors : s'.sectors = FSSIZE
  freeinode : s'.freeinode = s.freeinode
  le : s'.freeblock ≤ s.freeblock + 2
  high : r.1 ≤ FSSIZE
  /-- There was no block left. -/
  none_left : FSSIZE ≤ r.1 → FSSIZE < s.freeblock + 2
  /-- The kernel would have found the same block. -/
  same : r.1 < FSSIZE → s'.Fresh ∧ Returns (bmap inum fbn) (s.working inum din)
    r.1 (s'.working inum r.2)

theorem blockFor_ends (h : s.Fresh) (hlaid : (s.working inum din).LaidOut inum)
    (htype : din.type ≠ 0)
    (hbn : fbn < MAXFILE) :
    Ends (blockFor din fbn) s (fun r s' => Found s inum din fbn r s')
      fun e _ => e = .exit ∧ FSSIZE < s.freeblock + 2 := by
  have htype' : ((s.working inum din).mem inum).data.type ≠ 0 := by rwa [working_data]
  -- the range of a number that was there before
  have hrange : ∀ k ≤ NDIRECT, din.addr k ≠ 0 → din.addr k < FSSIZE := by
    intro k hk hne
    have hown : (s.working inum din).own inum (inum, k) = din.addr k := by rw [own_addr htype' hk,
      working_data]
    exact hown ▸ (own_range hlaid (hown ▸ hne)).2
  unfold blockFor
  split
  · rename_i hdirect
    refine (allocAddr_ends inum fbn din h).mono ?_ fun _ _ hstop => hstop.elim
    rintro ⟨x, din'⟩ s' ⟨hold, hnew, hsame⟩
    have hmap : bmap inum fbn = addrAlloc inum fbn := if_pos hdirect
    by_cases hzero : din.addr fbn = 0
    · obtain ⟨rfl, rfl⟩ := hnew hzero
      exact ⟨h.sectors, rfl, by simp, h.high, fun hx => by dsimp only at hx; omega, fun hx =>
        hmap ▸ hsame (.inl hx)⟩
    · obtain ⟨rfl, rfl⟩ := hold hzero
      have hx := hrange fbn (Nat.le_of_lt hdirect) hzero
      exact ⟨h.sectors, rfl, by simp, Nat.le_of_lt hx, fun hx' => absurd hx (Nat.not_lt_of_le hx'),
        fun hx => hmap ▸ hsame (.inl hx)⟩
  · rename_i hindirect
    have hj : fbn - NDIRECT < NINDIRECT := by
      unfold MAXFILE at hbn
      omega
    rw [ends_bind]
    refine (allocAddr_ends inum NDIRECT din h).mono ?_ fun _ _ hstop => hstop.elim
    rintro ⟨addr, din1⟩ s1 ⟨hold, hnew, hsame⟩
    dsimp only at hold hnew hsame ⊢
    obtain ⟨hsectors, hinodes, hcount, haddr, hfull⟩ : s1.sectors = FSSIZE ∧
        s1.freeinode = s.freeinode ∧
        s1.freeblock ≤ s.freeblock + 1 ∧ addr ≤ FSSIZE ∧
          (FSSIZE ≤ addr → FSSIZE ≤ s.freeblock) := by
      by_cases hzero : din.addr NDIRECT = 0
      · obtain ⟨rfl, rfl⟩ := hnew hzero
        exact ⟨h.sectors, rfl, le_rfl, h.high, id⟩
      · obtain ⟨rfl, rfl⟩ := hold hzero
        have hlt := hrange NDIRECT le_rfl hzero
        exact ⟨h.sectors, rfl, Nat.le_succ _, Nat.le_of_lt hlt, fun hge => absurd hlt
          (Nat.not_lt_of_le hge)⟩
    rw [ends_bind, rsect_ends hsectors haddr]
    refine ⟨fun hge => ⟨rfl, Nat.lt_add_right 1 (Nat.lt_succ_of_le (hfull hge))⟩, fun hlt => ?_⟩
    obtain ⟨hfresh, hret⟩ := hsame (.inl hlt)
    -- the indirect block is a block of data, so that the kernel reads the same numbers
    have hmapped := (addrAlloc_ends hlaid htype' (Nat.le_refl NDIRECT)).of_returns hret
    have hlow : nmeta ≤ addr := by
      rw [hmapped.val]
      exact (own_range hmapped.grown.laid (hmapped.val ▸ hmapped.ne)).1
    have hblock : s1.image addr = (s1.working inum din1).disk.block addr := (fs_block hlow).symm
    have hbmap : ∀ {x t}, Returns (do
        let s ← get
        let a := listed (s.disk.block addr) (fbn - NDIRECT)
        if a = 0 then
          let b ← Fs.balloc
          modify fun s => s.setBlock addr (setListed (s.disk.block addr) (fbn - NDIRECT) b)
          pure b
        else pure a) (s1.working inum din1) x t → Returns (bmap inum fbn) (s.working inum din)
          x t := by
      intro x t hrest
      rw [bmap, if_neg hindirect, if_pos hj, returns_bind]
      refine ⟨addr, _, hret, ?_⟩
      rw [returns_bind]
      exact ⟨⟨⟩, _, bread_returns hlow hlt, hrest⟩
    split
    · rename_i hzero
      rw [ends_bind, nextBlock_ends, ends_bind,
        wsect_ends (show s1.took.sectors = FSSIZE from hsectors) hlt, ends_pure]
      refine ⟨hsectors, hinodes, ?_, hfresh.high, fun hge => ?_, fun hb => ?_⟩
      · exact Nat.succ_le_succ hcount
      · dsimp only at hge
        omega
      · have hb : s1.freeblock < FSSIZE := hb
        have hused : addr < s1.took.freeblock := by
          have := hmapped.grown.laid.exact_own.used_own (hmapped.val ▸ hmapped.ne)
          rw [← hmapped.val] at this
          exact Nat.lt_succ_of_lt (of_decide_eq_true this)
        refine ⟨(hfresh.took hb).put (inodestart_le.trans hlow) hused, hbmap ?_⟩
        rw [returns_bind]
        refine ⟨_, _, returns_get.2 ⟨rfl, rfl⟩, ?_⟩
        rw [hblock] at hzero
        dsimp only
        rw [if_pos hzero]
        simp only [returns_bind, returns_modify, returns_pure]
        refine ⟨_, _, balloc_returns hfresh hb, ⟨⟩, _, rfl, rfl, ?_⟩
        rw [put_working hlow, hblock]
        rfl
    · rename_i hsome
      have hlisted : (s1.working inum din1).own inum (inum, slotOf fbn)
          = listed (s1.image addr) (fbn - NDIRECT) := by
        have hslot : slotOf fbn = NDIRECT + 1 + (fbn - NDIRECT) := by
          rw [slotOf, if_neg hindirect]
          omega
        rw [hslot, hblock, hmapped.val]
        exact own_listed (hmapped.grown.mem.type_eq ▸ htype') hj (hmapped.val ▸ hmapped.ne)
      have hx := (own_range hmapped.grown.laid (hlisted ▸ hsome)).2
      rw [hlisted] at hx
      refine ⟨hsectors, hinodes, Nat.le_succ_of_le hcount, Nat.le_of_lt hx,
        fun hge => absurd hx (Nat.not_lt_of_le hge), fun _ => ⟨hfresh, hbmap ?_⟩⟩
      rw [returns_bind]
      refine ⟨_, _, returns_get.2 ⟨rfl, rfl⟩, ?_⟩
      rw [hblock] at hsome ⊢
      dsimp only
      rw [if_neg hsome]
      exact returns_pure.2 ⟨rfl, rfl⟩

/-! ## The loop -/

/-- The number of blocks that the bytes from `off` to `off + n` touch. -/
def touched (off n : Nat) : Nat := if n = 0 then 0 else (off + n - 1) / BSIZE - off / BSIZE + 1

theorem touched_chunk {off n m : Nat} (hn : 0 < n) (hm : m = min n (BSIZE - off % BSIZE)) :
    touched off n = 1 + touched (off + m) (n - m) := by
  unfold touched BSIZE at *
  rw [if_neg (by omega)]
  split
  · omega
  · omega

/-- What the loop of `iappend` leaves. -/
structure Appended (s : Mkfs) (inum : Nat) (din : Dinode) (rounds off : Nat) (data : List UInt8)
    (r : Dinode × Nat)
    (s' : Mkfs) : Prop where
  fresh : s'.Fresh
  freeinode : s'.freeinode = s.freeinode
  le : s'.freeblock ≤ s.freeblock + 2 * touched off data.length
  size : r.2 = off + data.length
  max : data.length ≠ 0 → off + data.length ≤ MAXFILE * BSIZE
  /-- The kernel would have written the same. -/
  same : Returns (writeBlocks inum rounds (fun k => data.getD k 0) off data.length)
      (s.working inum din) ⟨⟩
    (s'.working inum r.1)

/-- **The loops of the two programs** run in lock step. -/
theorem appendBlocks_ends {rounds off : Nat} (h : s.Fresh)
    (hlaid : (s.working inum din).LaidOut inum) (htype : din.type ≠ 0)
    (hrounds : data.length ≤ rounds) :
    Ends (appendBlocks rounds din off data) s (fun r s' => Appended s inum din rounds off data r s')
      fun e _ => e = .assertion ∧ MAXFILE * BSIZE < off + data.length ∨
        e = .exit ∧ FSSIZE < s.freeblock + 2 * touched off data.length := by
  induction rounds generalizing s din off data with
  | zero =>
    have hzero : data.length = 0 := Nat.le_zero.1 hrounds
    exact ⟨h, rfl, Nat.le_add_right _ _, by rw [hzero]; rfl, fun hne =>
      absurd hzero hne, by rw [hzero]; rfl⟩
  | succ rounds ih =>
    rw [appendBlocks]
    split
    · rename_i hzero
      refine ⟨h, rfl, Nat.le_add_right _ _, by rw [hzero]; rfl, fun hne => absurd hzero hne, ?_⟩
      rw [writeBlocks, if_pos hzero]
      exact returns_pure.2 ⟨rfl, rfl⟩
    · rename_i hne
      simp only [ends_bind, ends_stopIf]
      refine ⟨fun hmax => .inl ⟨trivial, ?_⟩, fun hbn => ?_⟩
      · have hoff : MAXFILE * BSIZE ≤ off := (Nat.mul_le_mul_right _ hmax).trans
          (Nat.div_mul_le_self _ _)
        omega
      rw [Nat.not_le] at hbn
      have hstart : off - off / BSIZE * BSIZE = off % BSIZE := by
        unfold BSIZE
        omega
      have hroom : (off / BSIZE + 1) * BSIZE - off = BSIZE - off % BSIZE := by
        unfold BSIZE
        omega
      rw [hstart, hroom]
      generalize hm : min data.length (BSIZE - off % BSIZE) = m
      have htouched := touched_chunk (Nat.pos_of_ne_zero hne) hm.symm
      have htype' : ((s.working inum din).mem inum).data.type ≠ 0 := by rwa [working_data]
      refine (blockFor_ends h hlaid htype hbn).mono ?_ ?_
      · rintro ⟨x, din1⟩ s1 hfound
        rw [rsect_ends hfound.sectors hfound.high]
        refine ⟨fun hx => .inr ⟨rfl, ?_⟩, fun hx => ?_⟩
        · have := hfound.none_left hx
          omega
        obtain ⟨hfresh, hret⟩ := hfound.same hx
        have hmapped := (bmap_ends hlaid htype' hbn).of_returns hret
        have hval : x = (s1.working inum din1).own inum (inum, slotOf (off / BSIZE)) := hmapped.val
        have hlow : nmeta ≤ x := by
          rw [hval]
          exact (own_range hmapped.grown.laid (hval ▸ hmapped.ne)).1
        have hused : x < s1.freeblock := by
          have := hmapped.grown.laid.exact_own.used_own (hval ▸ hmapped.ne)
          rw [← hval] at this
          exact of_decide_eq_true this
        rw [wsect_ends hfound.sectors hx]
        have hpos : 0 < m := by
          have := Nat.mod_lt off (show 0 < BSIZE by decide)
          omega
        have hwritten := hmapped.written (fun k => data.getD k 0)
          (show m ≤ BSIZE - off % BSIZE by omega) hpos
        rw [working_block, fs_block hlow, ← put_working hlow] at hwritten
        refine (ih (hfresh.put (inodestart_le.trans hlow) hused) hwritten.grown.laid ?_ ?_).mono
          ?_ ?_
        · have := hwritten.grown.mem.type_eq
          rw [working_data, working_data] at this
          rwa [this]
        · rw [List.length_drop]
          omega
        · rintro r s2 ⟨hfresh2, hinodes, hle, hsize, hmax, hsame⟩
          rw [List.length_drop] at hle hsize hmax hsame
          have hle1 := hfound.le
          rw [put_freeblock] at hle
          refine ⟨hfresh2, hinodes.trans hfound.freeinode, by omega, by omega, fun _ => ?_, ?_⟩
          · by_cases hlast : data.length - m = 0
            · have hend : off + m ≤ (off / BSIZE + 1) * BSIZE := by omega
              have hlimit : (off / BSIZE + 1) * BSIZE ≤ MAXFILE * BSIZE :=
                Nat.mul_le_mul_right _ hbn
              omega
            · have := hmax hlast
              omega
          · rw [writeBlocks, if_neg hne, returns_bind]
            refine ⟨x, _, hret, ?_⟩
            rw [returns_bind]
            refine ⟨⟨⟩, _, bread_returns hlow hx, ?_⟩
            simp only [returns_bind, returns_modify, hm]
            refine ⟨⟨⟩, _, rfl, ?_⟩
            rw [working_block, fs_block hlow, ← put_working hlow]
            simpa only [List.getD_eq_getElem?_getD, List.getElem?_drop] using hsame
        · rintro e _ hstop
          rw [List.length_drop, put_freeblock] at hstop
          have hle1 := hfound.le
          refine hstop.imp (fun hmax => ⟨hmax.1, by omega⟩) fun hfull => ⟨hfull.1, by omega⟩
      · rintro e _ ⟨he, hfull⟩
        exact .inr ⟨he, by omega⟩

/-! ## Inodes -/

/-- Store an inode. -/
def stored (s : Mkfs) (inum : Nat) (d : Dinode) : Mkfs :=
  s.put (iblock inum) (putDinode (s.image (iblock inum)) (DINODE * (inum % IPB)) d)

theorem iblock_lt (hi : inum < NINODES) : iblock inum < bmapstart := by
  have : inum / IPB ≤ NINODES / IPB := Nat.div_le_div_right (Nat.le_of_lt hi)
  unfold iblock bmapstart inodestart ninodeblocks
  omega

theorem iblock_lt_size (hi : inum < NINODES) : iblock inum < FSSIZE :=
  (iblock_lt hi).trans (by decide)

theorem fs_inode (hi : inum < NINODES) :
    s.fs.disk.inode inum = dinodeAt (s.image (iblock inum)) (DINODE * (inum % IPB)) :=
  if_pos (iblock_lt hi)

theorem fits_inode (i : Nat) : Fits (s.fs.disk.inode i) := by
  simp only [fs, Disk.ofImage]
  split
  · exact fits_dinodeAt _ _
  · exact dinodeAt_zero 0 ▸ fits_dinodeAt _ _

theorem stored_fs (hi : inum < NINODES) (hd : Fits d) :
    (s.stored inum d).fs = s.fs.setInode inum d := by
  have hblock : (s.stored inum d).fs.disk.block = s.fs.disk.block := by
    funext b
    simp only [fs, Disk.ofImage, stored, put_image]
    split
    · rename_i hb
      have hne : b ≠ iblock inum := by
        have hlow := iblock_lt hi
        have hmeta : nmeta = bmapstart + 1 := rfl
        rw [nmeta_eq] at hb
        omega
      rw [update_of_ne hne]
    · rfl
  have hinode : (s.stored inum d).fs.disk.inode = update s.fs.disk.inode inum d := by
    funext i
    by_cases hii : i = inum
    · subst hii
      rw [fs_inode hi, update_self, stored, put_image, update_self, dinodeAt_putDinode_self hd]
    · rw [update_of_ne hii]
      simp only [fs, Disk.ofImage, stored, put_image]
      split
      · by_cases hblk : i / IPB + inodestart = iblock inum
        · -- another inode of the same block
          rw [hblk, update_self, dinodeAt_putDinode_of_disjoint]
          unfold iblock at hblk
          unfold IPB DINODE BSIZE at *
          omega
        · rw [update_of_ne hblk]
      · rfl
  simp only [setInode, ← hinode, ← hblock]
  rfl

theorem Fresh.stored (h : s.Fresh) (hi : inum < NINODES) : (s.stored inum d).Fresh :=
  h.put (Nat.le_add_left _ _) ((iblock_lt hi).trans_le (Nat.le_of_succ_le h.low))

theorem rinode_ends (hs : s.sectors = FSSIZE) (hi : inum < NINODES) {Q : Dinode → Mkfs → Prop} :
    Ends (rinode inum) s Q C ↔ Q (s.fs.disk.inode inum) s := by
  have hlt := iblock_lt_size hi
  rw [rinode, ends_bind, rsect_ends hs (Nat.le_of_lt hlt), fs_inode hi]
  exact ⟨fun h => h.2 hlt, fun h => ⟨fun hge => absurd hlt (Nat.not_lt_of_le hge), fun _ => h⟩⟩

theorem winode_ends (hs : s.sectors = FSSIZE) (hi : inum < NINODES) {Q : PUnit → Mkfs → Prop} :
    Ends (winode inum d) s Q C ↔ Q ⟨⟩ (s.stored inum d) := by
  have hlt := iblock_lt_size hi
  rw [winode, ends_bind, rsect_ends hs (Nat.le_of_lt hlt)]
  refine ⟨fun h => ?_, fun h => ⟨fun hge => absurd hlt (Nat.not_lt_of_le hge), fun _ => ?_⟩⟩
  · have := h.2 hlt
    rwa [wsect_ends hs hlt] at this
  · rwa [wsect_ends hs hlt]

/-! ## `iappend` -/

/-- No file has a block behind its end. -/
def Tight (s : Fs) : Prop :=
  ∀ i bn, (s.disk.inode i).size ≤ bn * BSIZE → pointers s.disk.inode s.disk.block (i, slotOf bn) = 0

/-- The image so far is a sound file system without a cache. -/
structure Sane (s : Mkfs) : Prop where
  fresh : s.Fresh
  sound : s.fs.Sound
  tight : Tight s.fs

/-- **What `iappend` does**: the bytes are at the end of the file, and all else is as before. -/
structure Extended (inum : Nat) (data : List UInt8) (s s' : Mkfs) : Prop where
  sane : s'.Sane
  freeinode : s'.freeinode = s.freeinode
  le : s'.freeblock ≤ s.freeblock + 2 * touched (s.fs.disk.inode inum).size data.length
  content : s'.fs.content = update s.fs.content inum (s.fs.content inum ++ data)
  others : ∀ {i}, i ≠ inum → s'.fs.disk.inode i = s.fs.disk.inode i
  fields : ∃ a, s'.fs.disk.inode inum =
    { s.fs.disk.inode inum with size := (s.fs.disk.inode inum).size + data.length, addrs := a }

theorem sound_of_laid (h : Laid mkfsSuperblock s.fs.disk.inode s.fs.disk.bitmap s.fs.disk.block) :
    s.fs.Sound :=
  ⟨h, fun _ href => absurd href (Nat.lt_irrefl 0)⟩

theorem sound_working (h : s.fs.Sound) (htype : (s.fs.disk.inode inum).type ≠ 0) :
    (s.working inum (s.fs.disk.inode inum)).Sound where
  laid := h.laid
  coherent i href _ := by
    by_cases hi : i = inum
    · rw [hi]
      exact ⟨working_data, htype⟩
    · simp [working, hi] at href

theorem splice_end (l data : List UInt8) :
    splice l (fun k => data.getD k 0) l.length data.length = l ++ data := by
  have hdata : (List.range data.length).map (fun k => data.getD k 0) = data := by
    apply List.ext_getElem
    · simp
    · intro k hk hk'
      simp [hk']
  rw [splice, List.take_length, hdata, List.drop_eq_nil_of_le (by omega), List.append_nil]

/-- **The end of `iappend`**: the inode with its new size goes to the image. -/
theorem Appended.extended {r : Dinode × Nat} (h : s.Sane) (hi : inum < NINODES)
    (htype : (s.fs.disk.inode inum).type ≠ 0) (hdata : data.length ≠ 0)
    (ha : Appended s inum (s.fs.disk.inode inum) data.length (s.fs.disk.inode inum).size data r
      s') : Extended inum data s (s'.stored inum { r.1 with size := r.2 }) := by
  generalize hdin : s.fs.disk.inode inum = din at htype ha
  have hsound : (s.working inum din).Sound := hdin ▸ sound_working h.sound (hdin ▸ htype)
  have hu : (s.working inum din).InUse inum := by
    constructor <;> simp [working]
  have hw := (writeBlocks_ends (hsound.laidOut hu) (by rwa [working_data]) le_rfl
    (ha.max hdata)).of_returns ha.same
  have hdisk : (s.working inum din).disk.inode inum = din := hdin
  have hstored := hw.stored_beyond hsound hu (Nat.le_of_eq (congrArg Dinode.size hdisk).symm)
    (by rw [hdisk]; omega)
  -- the copy of the inode differs in its block numbers only
  obtain ⟨a, hmem⟩ := hw.grown.mem
  have hdata' : r.1 = { din with addrs := a } := by
    have := congrArg (fun m => (m inum).data) hmem
    simpa [working] using this
  obtain ⟨d, hd⟩ : ∃ d : Dinode, d = { din with size := din.size + data.length, addrs := a } :=
    ⟨_, rfl⟩
  have hlast : ({ r.1 with size := r.2 } : Dinode) = d := by rw [hdata', ha.size, hd]
  have hfits : Fits d := by
    have hbefore : Fits din := hdin ▸ fits_inode inum
    rw [hd]
    refine { hbefore with size := ?_, addrs := fun k => ?_ }
    · exact (ha.max hdata).trans_lt (by decide)
    · -- a block number is 0 or below the size of the image
      have hown := own_addr (s := s'.working inum r.1) (by rw [working_data, hdata']; exact htype)
        (Nat.le_of_lt_succ k.isLt)
      have hlimit := hw.grown.laid.exact_own.lt_limit (k := (inum, k.val))
      have haddr : Dinode.addr { din with addrs := a } k.val = a k := dif_pos k.isLt
      rw [hown, working_data, hdata', haddr] at hlimit
      by_cases hzero : a k = 0
      · simp [hzero]
      · exact (hlimit hzero).trans (show FSSIZE < 2 ^ 32 by decide)
  have hfinal : ((s'.working inum r.1).setData inum fun d =>
      { d with size := din.size + data.length }).setInode inum
      (((s'.working inum r.1).setData inum fun d => { d with size := din.size + data.length }).mem
          inum).data
        = (s'.stored inum d).working inum d := by
    rw [show (s'.stored inum d).working inum d = { s'.fs.setInode inum d with
      mem := update (fun _ => {}) inum { ref := 1, valid := true, data := d } } by
        rw [working, stored_fs hi hfits], hd]
    simp [working, setData, setInode, hdata']
  rw [hfinal] at hstored
  rw [hlast]
  have hinode : (s'.stored inum d).fs.disk.inode = update s'.fs.disk.inode inum d := by
    rw [stored_fs hi hfits, setInode_disk_inode]
  have hpointers : pointers (s'.stored inum d).fs.disk.inode (s'.stored inum d).fs.disk.block
      = (s'.working inum r.1).own inum := by
    have htable : (s'.stored inum d).fs.disk.inode =
        update ((s'.working inum r.1).table inum) inum d := by
      rw [hinode, table, working_data, update_idem]
      rfl
    rw [htable, stored_fs hi hfits]
    exact pointers_congr (by rw [table_self, working_data, hd, hdata'])
      (by rw [table_self, working_data, hd, hdata'])
  have hothers : ∀ {i}, i ≠ inum → (s'.stored inum d).fs.disk.inode i = s.fs.disk.inode i :=
    hstored.others
  have hself : (s'.stored inum d).fs.disk.inode inum =
      { din with size := din.size + data.length, addrs := a } := by
    rw [hinode, update_self, hd]
  refine ⟨⟨ha.fresh.stored hi, sound_of_laid hstored.sound.laid, fun i bn hbn => ?_⟩, ha.freeinode,
    hdin ▸ ha.le, ?_, hothers, hdin.symm ▸ ⟨a, hself⟩⟩
  · rw [hpointers]
    by_cases hii : i = inum
    · subst hii
      rw [hself] at hbn
      rw [hw.rest]
      · rw [hsound.own_eq hu]
        exact h.tight i bn (by rw [hdin]; exact (Nat.le_add_right _ _).trans hbn)
      · -- none of the new bytes is in the block number `bn`
        rintro ⟨k, hk, hslot | ⟨hslot, -⟩⟩
        · rw [slotOf_inj hslot] at hbn
          have := Nat.div_mul_le_self (din.size + k) BSIZE
          dsimp only at hbn
          omega
        · exact slotOf_ne bn hslot
    · rw [hothers hii] at hbn
      rw [hw.grown.others hii, hsound.own_eq hu]
      exact h.tight i bn hbn
  · have hcontent := hstored.content (by rw [hdisk]; exact htype)
      (Nat.le_of_eq (congrArg Dinode.size hdisk).symm)
    rw [working_content, working_content] at hcontent
    have hlen : (s.fs.content inum).length = din.size := by
      rw [length_content (by rw [hdin]; exact htype), hdin]
    rw [hcontent, ← hlen, splice_end]

/-- **`iappend`** ends with the bytes at the end of the file, unless the file or the image gets too
large. -/
theorem iappend_ends (h : s.Sane) (hi : inum < NINODES) (htype : (s.fs.disk.inode inum).type ≠ 0)
    (hdata : data.length ≠ 0) :
    Ends (iappend inum data) s (fun _ s' => Extended inum data s s')
      fun e _ => e = .assertion ∧ MAXFILE * BSIZE < (s.fs.disk.inode inum).size + data.length ∨
        e = .exit ∧ FSSIZE < s.freeblock + 2 * touched (s.fs.disk.inode inum).size data.length := by
  have hu : (s.working inum (s.fs.disk.inode inum)).InUse inum := by
    constructor <;> simp [working]
  rw [iappend, ends_bind, rinode_ends h.fresh.sectors hi, ends_bind]
  refine (appendBlocks_ends h.fresh ((sound_working h.sound htype).laidOut hu) htype le_rfl).mono ?_
    fun _ _ hstop => hstop
  intro r s1 ha
  rw [winode_ends ha.fresh.sectors hi]
  exact ha.extended h hi htype hdata

end Xv6.Mkfs
