import Xv6.Mkfs.Agreement

/-! # What `mkfs` builds

`mkfs` appends to the root directory and to one file after the other; the contents of all inodes are
followed from the first sector to the last.

* **`main_ends`** — what the image holds when the program is done, if there are inodes enough; it
  returns if the files are small.
* **`main_freeinode`** — how many inodes are given out, whatever the files are. -/

namespace Xv6.Mkfs

open Foundation Fs Function
open Inodes (Dinode NDIRECT)

variable {s s' : Mkfs} {n u i : Nat} {c : Nat → List UInt8} {data : List UInt8}

/-! ## One step after the other -/

/-- The type of inode `i` when `n` of them have been given out. -/
def typeOf (n i : Nat) : Nat := if i = 0 ∨ n < i then 0 else if i = ROOTINO then T_DIR else T_FILE

/-- **The image so far**: `n` inodes are given out, with the contents `c`, and the blocks below `u`
suffice. -/
structure Built (n : Nat) (c : Nat → List UInt8) (u : Nat) (s : Mkfs) : Prop where
  sane : s.Sane
  freeinode : s.freeinode = n + 1
  type : ∀ i, (s.fs.disk.inode i).type = typeOf n i
  nlink : ∀ i, (s.fs.disk.inode i).type ≠ 0 → (s.fs.disk.inode i).nlink = 1
  content : s.fs.content = c
  le : s.freeblock ≤ u

theorem typeOf_ne (h0 : i ≠ 0) (hi : i ≤ n) : typeOf n i ≠ 0 := by
  rw [typeOf, if_neg (by omega)]
  split <;> decide

theorem Built.size (h : Built n c u s) (h0 : i ≠ 0) (hi : i ≤ n) :
    (s.fs.disk.inode i).size = (c i).length := by
  rw [← h.content, length_content]
  rw [h.type]
  exact typeOf_ne h0 hi

/-- Count an inode. -/
@[simps -fullyApplied] def counted (s : Mkfs) : Mkfs := { s with freeinode := s.freeinode + 1 }

theorem Sane.counted (h : s.Sane) : s.counted.Sane :=
  ⟨⟨h.fresh.sectors, h.fresh.super, h.fresh.low, h.fresh.high, h.fresh.zero⟩, h.sound, h.tight⟩

theorem Sane.new {type : Nat} (h : s.Sane) (hi : i < NINODES) (hfree : (s.fs.disk.inode i).type = 0)
    (htype : type < 2 ^ 16) : (s.stored i { type := type, nlink := 1 }).Sane ∧
      (s.stored i { type := type, nlink := 1 }).fs.disk.inode
        = update s.fs.disk.inode i { type := type, nlink := 1 } ∧
      (s.stored i { type := type, nlink := 1 }).fs.content = s.fs.content := by
  have hshort : short 0 = 0 ∧ short 1 = 1 := by decide
  have hfits : Fits { type := type, nlink := 1 } :=
    ⟨htype, hshort.1, hshort.1, hshort.2, Nat.two_pow_pos 32, fun _ => Nat.two_pow_pos 32⟩
  have hfs := stored_fs (s := s) hi hfits
  have hinode : (s.stored i { type := type, nlink := 1 }).fs.disk.inode
      = update s.fs.disk.inode i { type := type, nlink := 1 } := by
    rw [hfs, setInode_disk_inode]
  have hblock : (s.stored i { type := type, nlink := 1 }).fs.disk.block = s.fs.disk.block := by
    rw [hfs]
    rfl
  have hpointers : pointers (s.stored i { type := type, nlink := 1 }).fs.disk.inode
      (s.stored i { type := type, nlink := 1 }).fs.disk.block =
        pointers s.fs.disk.inode s.fs.disk.block := by
    rw [hinode, hblock]
    exact pointers_new hfree fun k => by simp [Dinode.addr]
  refine ⟨⟨h.fresh.stored hi, sound_of_laid ⟨?_, fun {j bn} htyped hsize => ?_⟩, fun j bn hbn =>
    ?_⟩, hinode, ?_⟩
  · rw [hpointers]
    exact h.sound.laid.exact
  · rw [hpointers]
    by_cases hj : j = i
    · rw [hj, hinode, update_self] at hsize
      exact absurd hsize (Nat.not_lt_zero _)
    · rw [hinode, update_of_ne hj] at htyped hsize
      exact h.sound.laid.covered htyped hsize
  · rw [hpointers]
    by_cases hj : j = i
    · rw [hj]
      exact pointers_of_free hfree
    · rw [hinode, update_of_ne hj] at hbn
      exact h.tight j bn hbn
  · funext j
    by_cases hj : j = i
    · subst hj
      simp [content, hinode, hfree]
    · rw [content, content, hinode, update_of_ne hj]
      have hbyte : (s.stored i { type := type, nlink := 1 }).fs.fileByte j = s.fs.fileByte j := by
        funext k
        rw [fileByte, fileByte, hpointers, hblock]
      rw [hbyte]

theorem Built.ialloc {type : Nat} (h : Built n c u s) (hn : n + 1 < NINODES)
    (htype : type = typeOf (n + 1) (n + 1)) :
    Ends (ialloc type) s (fun i s' => i = n + 1 ∧ Built (n + 1) c u s') fun _ _ => False := by
  have hfree : (s.counted.fs.disk.inode (n + 1)).type = 0 := by
    have := h.type (n + 1)
    rwa [typeOf, if_pos (.inr (Nat.lt_succ_self n))] at this
  have hlt : type < 2 ^ 16 := by
    rw [htype, typeOf]
    split
    · decide
    · split <;> decide
  obtain ⟨hsane, hinode, hcontent⟩ := h.sane.counted.new hn hfree hlt
  simp only [Mkfs.ialloc, ends_bind, ends_get, ends_modify]
  show Ends (winode s.freeinode _) s.counted _ _
  rw [winode_ends (show s.counted.sectors = FSSIZE from h.sane.fresh.sectors) (h.freeinode ▸ hn),
    ends_pure, h.freeinode]
  refine ⟨rfl, hsane, by rw [stored, put_freeinode, counted_freeinode, h.freeinode], fun j => ?_,
    fun j hj => ?_, hcontent.trans h.content, h.le⟩
  · rw [hinode]
    by_cases hj : j = n + 1
    · rw [hj, update_self, htype]
    · rw [update_of_ne hj]
      show (s.fs.disk.inode j).type = _
      rw [h.type, typeOf, typeOf]
      have : (j = 0 ∨ n < j) = (j = 0 ∨ n + 1 < j) := by
        apply propext
        omega
      simp only [this]
  · rw [hinode] at hj ⊢
    by_cases hjn : j = n + 1
    · rw [hjn, update_self]
    · rw [update_of_ne hjn] at hj ⊢
      exact h.nlink j hj

theorem Built.iappend (h : Built n c u s) (h0 : i ≠ 0) (hi : i ≤ n) (hn : n < NINODES)
    (hdata : data.length ≠ 0) :
    Ends (iappend i data) s
      (fun _ s' => Built n (update c i (c i ++ data)) (u + 2 * touched (c i).length data.length) s')
      fun _ _ => MAXFILE * BSIZE < (c i).length + data.length ∨
        FSSIZE < u + 2 * touched (c i).length data.length := by
  have hsize := h.size h0 hi
  have htype : (s.fs.disk.inode i).type ≠ 0 := by
    rw [h.type]
    exact typeOf_ne h0 hi
  have hle := h.le
  refine (iappend_ends h.sane (by omega) htype hdata).mono (fun _ s' hext => ?_) fun e _ hstop => ?_
  · obtain ⟨a, hfields⟩ := hext.fields
    refine ⟨hext.sane, hext.freeinode.trans h.freeinode, fun j => ?_, fun j hj => ?_, ?_, ?_⟩
    · by_cases hji : j = i
      · subst hji
        rw [hfields]
        exact h.type j
      · rw [hext.others hji]
        exact h.type j
    · by_cases hji : j = i
      · subst hji
        rw [hfields]
        exact h.nlink j htype
      · rw [hext.others hji] at hj ⊢
        exact h.nlink j hj
    · rw [hext.content, h.content]
    · have := hext.le
      rw [hsize] at this
      omega
  · rw [hsize] at hstop
    rcases hstop with ⟨-, hmax⟩ | ⟨-, hfull⟩
    · exact .inl hmax
    · exact .inr (by omega)

theorem touched_le (off m : Nat) : touched off m ≤ m := by
  unfold touched BSIZE
  split <;> omega

theorem Built.appendAll {chunks : List (List UInt8)} (h : Built n c u s) (h0 : i ≠ 0) (hi : i ≤ n)
    (hn : n < NINODES)
    (hchunks : ∀ l ∈ chunks, l ≠ []) :
    Ends (chunks.forM (Mkfs.iappend i)) s
      (fun _ s' => Built n (update c i (c i ++ chunks.flatten)) (u + 2 * chunks.flatten.length) s')
      fun _ _ => MAXFILE * BSIZE < (c i).length + chunks.flatten.length ∨
        FSSIZE < u + 2 * chunks.flatten.length := by
  induction chunks generalizing s c u with
  | nil =>
    show Built _ _ _ _
    simpa using h
  | cons l rest ih =>
    have hl : l.length ≠ 0 := fun hzero => hchunks l (by simp) (List.eq_nil_of_length_eq_zero hzero)
    have htouched := touched_le (c i).length l.length
    show Ends (Mkfs.iappend i l >>= fun _ => rest.forM (Mkfs.iappend i)) s _ _
    rw [ends_bind, List.flatten_cons, List.length_append]
    refine (h.iappend h0 hi hn hl).mono (fun _ s1 h1 => ?_) fun _ _ hstop => ?_
    · refine (ih h1 fun l hl => hchunks l (List.mem_cons_of_mem _ hl)).mono (fun _ s2 h2 => ?_)
        fun _ _ hstop => ?_
      · rw [update_self, update_idem, List.append_assoc] at h2
        exact { h2 with le := h2.le.trans (by omega) }
      · rw [update_self, List.length_append] at hstop
        omega
    · omega

/-! ## The files -/

/-- The entries of the root directory. -/
def rootEntries (files : List HostFile) : List (List UInt8) :=
  [dirent ROOTINO dot, dirent ROOTINO dotdot] ++ files.mapIdx fun k f => dirent (k + 2) f.name

/-- **The contents of all inodes**: the root directory, and then the files in their order. -/
def contents (files : List HostFile) : Nat → List UInt8
  | 0 => []
  | 1 => (rootEntries files).flatten
  | k + 2 => (files[k]?.map HostFile.content).getD []

/-- Blocks enough for the root directory and the files. -/
def budget (files : List HostFile) : Nat :=
    nmeta + 4 + (files.map fun f => 2 + 2 * f.content.length).sum

theorem length_dirent (inum : Nat) (name : List UInt8) : (dirent inum name).length = DIRENT := by
  simp [dirent]

theorem length_rootEntries (files : List HostFile) :
    (rootEntries files).length = files.length + 2 := by
  simp [rootEntries]

variable {files : List HostFile} {α : Type}

theorem length_of_mem_rootEntries : ∀ e ∈ rootEntries files, e.length = DIRENT := by
  intro e he
  simp only [rootEntries, List.mem_append, List.mem_cons, List.not_mem_nil, or_false,
    List.mem_mapIdx] at he
  rcases he with (rfl | rfl) | ⟨k, hk, rfl⟩ <;> exact length_dirent _ _

theorem length_root (files : List HostFile) :
    (contents files ROOTINO).length = DIRENT * (files.length + 2) := by
  have hmap : (rootEntries files).map List.length = List.replicate
      (rootEntries files).length DIRENT := by
    rw [List.eq_replicate_iff]
    refine ⟨List.length_map _, fun m hm => ?_⟩
    obtain ⟨e, he, rfl⟩ := List.mem_map.1 hm
    exact length_of_mem_rootEntries e he
  rw [contents, List.length_flatten, hmap, List.sum_replicate_nat, length_rootEntries, Nat.mul_comm]

theorem contents_concat (files : List HostFile) (f : HostFile) :
    contents (files ++ [f]) = update
      (update (contents files) ROOTINO (contents files ROOTINO ++ dirent (files.length + 2) f.name))
        (files.length + 2) f.content := by
  funext i
  rcases i with _ | _ | k
  · rw [update_of_ne (by omega), update_of_ne (by decide)]
    rfl
  · rw [update_of_ne (by omega), update_self]
    simp [contents, rootEntries, List.mapIdx_append]
  · have hroot : k + 2 ≠ ROOTINO := by
      unfold ROOTINO
      omega
    by_cases hk : k = files.length
    · subst hk
      rw [update_self]
      simp [contents]
    · rw [update_of_ne (by omega), update_of_ne hroot, contents, contents]
      rcases Nat.lt_or_gt_of_ne hk with hlt | hgt
      · rw [List.getElem?_append_left hlt]
      · rw [List.getElem?_eq_none (by simp; omega), List.getElem?_eq_none (by omega)]

theorem budget_concat (files : List HostFile) (f : HostFile) :
    budget (files ++ [f]) = budget files + (2 + 2 * f.content.length) := by
  simp [budget]
  omega

theorem touched_entry (k : Nat) : touched (DIRENT * k) DIRENT = 1 := by
  unfold touched DIRENT BSIZE
  rw [if_neg (by decide)]
  omega

theorem Built.enter {inum k : Nat} {name : List UInt8} (h : Built n c u s) (hn : n < NINODES)
    (hroot : ROOTINO ≤ n)
    (hk : (c ROOTINO).length = DIRENT * k) (hmax : k ≤ NINODES) :
    Ends (Mkfs.iappend ROOTINO (dirent inum name)) s
      (fun _ s' => Built n (update c ROOTINO (c ROOTINO ++ dirent inum name)) (u + 2) s')
      fun _ _ => FSSIZE < u + 2 := by
  have hlen := length_dirent inum name
  refine (h.iappend (by decide) hroot hn (by rw [hlen]; decide)).mono (fun _ s' h' => ?_)
    fun _ _ hstop => ?_
  · rwa [hlen, hk, touched_entry] at h'
  · rw [hlen, hk, touched_entry] at hstop
    refine hstop.resolve_left ?_
    have hle : DIRENT * k + DIRENT ≤ DIRENT * NINODES + DIRENT :=
      Nat.add_le_add_right (Nat.mul_le_mul_left _ hmax) _
    exact Nat.not_lt_of_le (hle.trans (by decide))

theorem addFile_ends {f : HostFile} (h : Built (files.length + 1) (contents files) (budget files) s)
    (hn : files.length + 2 < NINODES) :
    Ends (addFile f) s
      (fun _ s' => Built (files.length + 2) (contents (files ++ [f])) (budget (files ++ [f])) s')
      fun _ _ => slash ∈ f.arg ∨ f.chunks = none ∨ FSSIZE < budget (files ++ [f]) := by
  rw [budget_concat, contents_concat]
  simp only [addFile, ends_bind, ends_stopIf]
  refine ⟨fun hslash => .inl hslash, fun _ => ?_⟩
  cases hchunks : f.chunks with
  | none => exact .inr (.inl rfl)
  | some chunks =>
    have hcontent : f.content = chunks.flatten := by rw [HostFile.content, hchunks,
      Option.getD_some]
    have hnew : T_FILE = typeOf (files.length + 1 + 1) (files.length + 1 + 1) := by
      rw [typeOf, if_neg (by omega), if_neg (by unfold ROOTINO; omega)]
    dsimp only
    rw [ends_bind]
    refine (h.ialloc hn hnew).mono ?_ fun _ _ hstop => hstop.elim
    rintro _ s1 ⟨rfl, h1⟩
    rw [ends_bind]
    have hroot : contents files (files.length + 2) = [] := by
      rw [contents, List.getElem?_eq_none le_rfl]
      rfl
    have hne : files.length + 2 ≠ ROOTINO := by
      unfold ROOTINO
      omega
    refine (h1.enter hn (by unfold ROOTINO; omega) (length_root files) (Nat.le_of_lt hn)).mono
        (fun _ s2 h2 => ?_)
      fun _ _ hstop => .inr (.inr (by omega))
    refine (h2.appendAll (by omega) le_rfl hn ?_).mono (fun _ s3 h3 => ?_) fun _ _ hstop => ?_
    · exact fun l hl => (f.chunk chunks (by rw [hchunks]; rfl) l hl).1
    · rw [update_of_ne hne, hroot, List.nil_append, ← hcontent] at h3
      exact { h3 with le := h3.le.trans_eq (Nat.add_assoc _ _ _) }
    · rw [update_of_ne hne, hroot, ← hcontent] at hstop
      refine .inr (.inr ?_)
      have : FSSIZE < MAXFILE * BSIZE := by decide
      simp only [List.length_nil] at hstop
      omega

/-! ## The whole program -/

theorem clear_ends {m : Nat} (hs : s.sectors = 0) (himage : s.image = fun _ _ => 0)
    (hm : m ≤ FSSIZE) :
    Ends (clear m) s (fun _ s' => s' = { s with sectors := m }) fun _ _ => False := by
  unfold clear
  apply ends_forM fun k s' => s' = { s with sectors := k }
  · rw [← hs]
  · rintro k - hk s' rfl
    have hzero : update s.image k (fun _ => 0) = s.image := by
      rw [himage, update_eq_self_iff]
    rw [wsect, ends_modify, sector_eq (by omega), Nat.max_eq_right (Nat.le_succ k)]
    simp only [hzero]
  · rintro s' rfl
    rw [Nat.zero_add]

/-- **The image is filled with zeros**, and holds no inode. -/
theorem format_ends (hstart : s = start) :
    Ends format s (fun _ s' => Built 0 (fun _ => []) nmeta s') fun _ _ => False := by
  have hsectors : s.sectors = 0 := by rw [hstart]; rfl
  have hzero : s.image = fun _ _ => 0 := by rw [hstart]; rfl
  rw [format, ends_bind]
  -- the number of rounds stays a variable, so that nobody runs them
  generalize hm : FSSIZE = m
  refine (clear_ends hsectors hzero hm.ge).mono ?_ fun _ _ hstop => hstop
  rintro _ s1 rfl
  rw [wsect_ends hm.symm (by decide), ← hm]
  subst hstart
  generalize hs : Mkfs.put { start with sectors := FSSIZE } 1 superBytes = s
  have himage : ∀ b, b ≠ 1 → s.image b = fun _ => 0 := by
    intro b hb
    rw [← hs, put_image, update_of_ne hb]
    rfl
  have hinode : ∀ i, s.fs.disk.inode i = {} := by
    intro i
    simp only [fs, Disk.ofImage]
    split
    · have hne : i / IPB + inodestart ≠ 1 :=
        Nat.ne_of_gt (Nat.lt_of_lt_of_le (by decide) (Nat.le_add_left _ _))
      rw [himage _ hne, dinodeAt_zero]
    · rfl
  have hpointers : ∀ κ, pointers s.fs.disk.inode s.fs.disk.block κ = 0 := by
    rintro ⟨i, k⟩
    exact pointers_of_free (by rw [hinode])
  have hfree : s.freeblock = nmeta := by rw [← hs]; rfl
  refine ⟨⟨⟨?_, ?_, ?_, ?_, ?_⟩, sound_of_laid ⟨⟨?_, ?_, ?_, ?_⟩, ?_⟩, ?_⟩, ?_, ?_, ?_, ?_, ?_⟩
  · rw [← hs]
    rfl
  · rw [← hs, put_image, update_self]
  · exact hfree.ge
  · rw [hfree]
    decide
  · intro b hb _
    refine himage b fun h1 => ?_
    rw [hfree, h1] at hb
    exact absurd hb (by decide)
  · intro κ κ' hne
    exact absurd (hpointers κ) hne
  · intro b _
    simp only [hpointers, ne_eq, not_true_eq_false, false_and, exists_false, or_false, nmeta_eq]
    simp [fs, hfree]
  · intro κ hne
    exact absurd (hpointers κ) hne
  · intro κ hne
    exact absurd (hpointers κ) hne
  · intro i bn htype
    exact absurd (by rw [hinode]) htype
  · intro i bn _
    exact hpointers _
  · rw [← hs]
    rfl
  · intro i
    rw [hinode, typeOf]
    have : i = 0 ∨ 0 < i := Nat.eq_zero_or_pos i
    rw [if_pos this]
  · intro i htype
    exact absurd (by rw [hinode]) htype
  · funext i
    rw [content, if_pos (by rw [hinode])]
  · exact hfree.le

theorem makeRoot_ends (h : Built 0 (fun _ => []) nmeta s) :
    Ends makeRoot s (fun _ s' => Built 1 (contents []) (budget []) s') fun _ _ => False := by
  have hnew : T_DIR = typeOf (0 + 1) (0 + 1) := rfl
  rw [makeRoot, ends_bind]
  refine (h.ialloc (by decide) hnew).mono ?_ fun _ _ hstop => hstop
  rintro _ s1 ⟨rfl, h1⟩
  simp only [ends_bind, ends_stopIf]
  refine ⟨fun hne => hne rfl, fun _ => ?_⟩
  refine (h1.enter (k := 0) (by decide) (by decide) rfl (by decide)).mono (fun _ s2 h2 => ?_)
    fun _ _ hstop => absurd hstop (by decide)
  refine (h2.enter (k := 1) (by decide) (by decide) ?_ (by decide)).mono (fun _ s3 h3 => ?_)
    fun _ _ hstop => absurd hstop (by decide)
  · rw [update_self, List.nil_append, length_dirent, Nat.mul_one]
  · rw [update_self, update_idem, List.nil_append] at h3
    have hcontents : update (fun _ => []) ROOTINO (dirent ROOTINO dot ++ dirent ROOTINO dotdot)
        = contents [] := by
      funext i
      rcases i with _ | _ | k
      · rfl
      · rw [update_self]
        simp [contents, rootEntries]
      · rw [update_of_ne (by unfold ROOTINO; omega)]
        rfl
    exact hcontents ▸ h3

/-- The files can be opened, their names are names, and they fit into the image whatever way they
are cut. -/
def Small (files : List HostFile) : Prop :=
  (∀ f ∈ files, slash ∉ f.arg ∧ f.chunks ≠ none) ∧ budget files ≤ FSSIZE

theorem budget_le_append (files more : List HostFile) : budget files ≤ budget (files ++ more) := by
  simp only [budget, List.map_append, List.sum_append]
  omega

theorem addFiles_ends (h : Built 1 (contents []) (budget []) s) (hn : files.length + 2 ≤ NINODES) :
    Ends (files.forM addFile) s (fun _ s' => Built (files.length + 1) (contents files)
        (budget files) s')
      fun _ _ => ¬ Small files := by
  apply ends_forM_list fun rest s' => ∃ added, added ++ rest = files ∧
    Built (added.length + 1) (contents added) (budget added) s'
  · exact ⟨[], rfl, h⟩
  · rintro f rest s1 ⟨added, rfl, h1⟩
    simp only [List.length_append, List.length_cons] at hn
    refine (addFile_ends h1 (by omega)).mono (fun _ s2 h2 => ⟨added ++ [f], by simp, ?_⟩)
      fun _ _ hstop hsmall => ?_
    · rwa [List.length_append, List.length_singleton, Nat.add_right_comm]
    · obtain ⟨hslash, hchunks⟩ := hsmall.1 f (by simp)
      have hle := budget_le_append (added ++ [f]) rest
      rw [List.append_assoc, List.singleton_append] at hle
      rcases hstop with hstop | hstop | hstop
      · exact hslash hstop
      · exact hchunks hstop
      · exact absurd (hle.trans hsmall.2) (Nat.not_le_of_lt hstop)
  · rintro s1 ⟨added, hadded, h1⟩
    rw [List.append_nil] at hadded
    exact hadded ▸ h1

/-- The root directory with its rounded size. -/
def rounded (d : Dinode) : Dinode := { d with size := (d.size / BSIZE + 1) * BSIZE }

/-- The image when the program is done. -/
def finish (s : Mkfs) : Mkfs :=
  (s.stored ROOTINO (rounded (s.fs.disk.inode ROOTINO))).put bmapstart (bitmapBytes s.freeblock)

/-- **The whole program**, if there are inodes enough. -/
theorem main_ends (hstart : s = start) (hn : files.length + 2 ≤ NINODES) :
    Ends (main files) s
      (fun _ s' => ∃ t, Built (files.length + 1) (contents files) (budget files) t ∧ s' = t.finish)
      fun _ _ => ¬ Small files := by
  rw [main, ends_bind]
  refine (format_ends hstart).mono (fun _ s1 h1 => ?_) fun _ _ hstop => hstop.elim
  rw [ends_bind]
  refine (makeRoot_ends h1).mono (fun _ s2 h2 => ?_) fun _ _ hstop => hstop.elim
  rw [ends_bind]
  refine (addFiles_ends h2 hn).mono (fun _ s3 h3 => ?_) fun _ _ hstop => hstop
  have hsectors := h3.sane.fresh.sectors
  have hused : s3.freeblock < BSIZE * 8 := h3.sane.fresh.high.trans_lt (by decide)
  rw [ends_bind, fixRoot, ends_bind, rinode_ends hsectors (by decide),
    winode_ends hsectors (by decide)]
  simp only [ends_bind, ends_get, balloc, ends_stopIf]
  refine ⟨fun hfull => absurd hused (Nat.not_lt_of_le hfull), fun _ => ?_⟩
  rw [wsect_ends (show (s3.stored ROOTINO _).sectors = FSSIZE from hsectors) (by decide)]
  exact ⟨s3, h3, rfl⟩

/-! ## Counting inodes -/

/-- The code gives out no inode. -/
def Keeps {α : Type} (m : Code α) : Prop :=
  ∀ s, Ends m s (fun _ s' => s'.freeinode = s.freeinode) fun _ _ => True

theorem Keeps.bind {β : Type} {m : Code α} {f : α → Code β} (h : Keeps m) (hf : ∀ a, Keeps (f a)) :
    Keeps (m >>= f) := by
  intro s
  rw [ends_bind]
  refine (h s).mono (fun a s1 h1 => ?_) fun _ _ hstop => hstop
  exact (hf a s1).mono (fun _ s2 h2 => h2.trans h1) fun _ _ hstop => hstop

theorem keeps_pure (a : α) : Keeps (pure a) := fun _ => rfl

theorem keeps_rsect (sec : Nat) : Keeps (rsect sec) := fun s => by
  simp only [rsect, ends_bind, ends_get, ends_stopIf, ends_pure, implies_true, and_self]

theorem keeps_wsect (sec : Nat) (bytes : Block) : Keeps (wsect sec bytes) := fun _ => rfl

theorem keeps_stopIf {p : Prop} [Decidable p] {e : Halt} : Keeps (stopIf p e) := fun s => by
  simp only [ends_stopIf, implies_true, and_self]

theorem keeps_nextBlock : Keeps nextBlock := fun _ => rfl

theorem keeps_allocAddr (din : Dinode) (k : Nat) : Keeps (allocAddr din k) := by
  rw [allocAddr]
  split
  · exact keeps_nextBlock.bind fun b => keeps_pure _
  · exact keeps_pure _

theorem keeps_blockFor (din : Dinode) (fbn : Nat) : Keeps (blockFor din fbn) := by
  rw [blockFor]
  split
  · exact keeps_allocAddr din fbn
  · refine (keeps_allocAddr din NDIRECT).bind fun r => (keeps_rsect _).bind fun indirect => ?_
    split
    · exact keeps_nextBlock.bind fun b => (keeps_wsect _ _).bind fun _ => keeps_pure _
    · exact keeps_pure _

theorem keeps_appendBlocks (rounds : Nat) (din : Dinode) (off : Nat) (data : List UInt8) :
    Keeps (appendBlocks rounds din off data) := by
  induction rounds generalizing din off data with
  | zero => exact keeps_pure _
  | succ rounds ih =>
    rw [appendBlocks]
    split
    · exact keeps_pure _
    · refine keeps_stopIf.bind fun _ => (keeps_blockFor _ _).bind fun r =>
        (keeps_rsect _).bind fun buf => ?_
      exact (keeps_wsect _ _).bind fun _ => ih _ _ _

theorem keeps_winode (inum : Nat) (d : Dinode) : Keeps (winode inum d) :=
  (keeps_rsect _).bind fun _ => keeps_wsect _ _

theorem keeps_rinode (inum : Nat) : Keeps (rinode inum) :=
    (keeps_rsect _).bind fun _ => keeps_pure _

theorem keeps_iappend (inum : Nat) (data : List UInt8) : Keeps (iappend inum data) :=
  (keeps_rinode inum).bind fun _ => (keeps_appendBlocks _ _ _ _).bind fun _ => keeps_winode _ _

theorem keeps_forM {body : α → Code PUnit} (h : ∀ a, Keeps (body a)) (l : List α) :
    Keeps (l.forM body) := by
  induction l with
  | nil => exact keeps_pure _
  | cons a l ih => exact (h a).bind fun _ => ih

theorem ialloc_freeinode (type : Nat) (s : Mkfs) :
    Ends (ialloc type) s (fun _ s' => s'.freeinode = s.freeinode + 1) fun _ _ => True := by
  simp only [ialloc, ends_bind, ends_get, ends_modify]
  exact (keeps_winode _ _ _).mono (fun _ s1 h1 => h1) fun _ _ hstop => hstop

theorem addFile_freeinode (f : HostFile) (s : Mkfs) :
    Ends (addFile f) s (fun _ s' => s'.freeinode = s.freeinode + 1) fun _ _ => True := by
  simp only [addFile, ends_bind, ends_stopIf]
  refine ⟨fun _ => trivial, fun _ => ?_⟩
  rcases f.chunks with _ | chunks
  · trivial
  · rw [ends_bind]
    refine (ialloc_freeinode _ s).mono (fun i s1 h1 => ?_) fun _ _ hstop => hstop
    have hrest := (keeps_iappend ROOTINO (dirent i f.name)).bind fun _ => keeps_forM
      (keeps_iappend i) chunks
    exact (hrest s1).mono (fun _ s2 h2 => h2.trans h1) fun _ _ hstop => hstop

/-- **The number of inodes that are given out** is that of the files and one more. -/
theorem main_freeinode (files : List HostFile) (hstart : s = start) :
    Ends (main files) s (fun _ s' => s'.freeinode = files.length + 2) fun _ _ => True := by
  rw [main, ends_bind]
  refine (format_ends hstart).mono (fun _ s1 h1 => ?_) fun _ _ _ => trivial
  rw [ends_bind]
  refine (makeRoot_ends h1).mono (fun _ s2 h2 => ?_) fun _ _ _ => trivial
  rw [ends_bind]
  apply ends_forM_list fun rest s' => s'.freeinode + rest.length = files.length + 2
  · rw [h2.freeinode]
    omega
  · intro f rest s3 h3
    refine (addFile_freeinode f s3).mono (fun _ s4 h4 => ?_) fun _ _ hstop => hstop
    rw [List.length_cons] at h3
    omega
  · intro s3 h3
    rw [List.length_nil, Nat.add_zero] at h3
    have hfix : Keeps fixRoot := (keeps_rinode _).bind fun _ => keeps_winode _ _
    rw [ends_bind]
    refine (hfix s3).mono (fun _ s4 h4 => ?_) fun _ _ hstop => hstop
    simp only [ends_bind, ends_get, balloc, ends_stopIf]
    exact ⟨fun _ => trivial, fun _ => h4.trans h3⟩

end Xv6.Mkfs
