import Xv6.Fs.Alone
import Xv6.Mkfs.Image

/-! # What the kernel reads from the image

The kernel starts from the image that `mkfs` has written and looks up one of the files. The root
directory may have a size that is one block too large; the search ends before that block.

* **`entry_booted`** — the entries of the root directory are those that `mkfs` has made.
* **`files_read`** — `namei` finds every file, and `readi` returns its bytes. -/

namespace Xv6.Mkfs

open Foundation Fs
open Inodes (Dinode NDIRECT)

variable {s : Mkfs} {files : List HostFile} {f : HostFile} {u k : Nat}

/-! ## Names -/

/-- The characters of a name that fit in an entry. -/
def HostFile.stored (f : HostFile) : Name := f.name.take DIRSIZ

/-- The files have different names, and names that a path can spell. -/
structure Named (files : List HostFile) : Prop where
  slash : ∀ f ∈ files, slash ∉ f.arg
  name : ∀ f ∈ files, f.stored ≠ [] ∧ f.stored ≠ dot ∧ f.stored ≠ dotdot
  distinct : (files.map HostFile.stored).Nodup

theorem HostFile.mem_arg {c : UInt8} (h : c ∈ f.name) : c ∈ f.arg := by
  unfold HostFile.name at h
  split at h
  · exact List.mem_of_mem_tail h
  · exact h

theorem HostFile.cstr_name : cstr f.name = f.stored := by
  rw [cstr, stored, List.takeWhile_eq_self_iff]
  intro c hc
  have hne : c ≠ 0 := fun hzero => f.nonzero (hzero ▸ mem_arg (List.mem_of_mem_take hc))
  simpa using hne

theorem HostFile.cstr_stored : cstr f.stored = f.stored := by
  rw [← f.cstr_name, cstr_cstr]

theorem elements_path (hne : f.name ≠ []) (hslash : slash ∉ f.arg) :
    elements (slash :: f.name).length (slash :: f.name) = [f.stored] := by
  have hnot : ∀ c ∈ f.name, c ≠ slash := fun c hc heq => hslash (heq ▸ HostFile.mem_arg hc)
  have hdrop : (slash :: f.name).dropWhile (· = slash) = f.name := by
    rw [List.dropWhile_cons_of_pos (by simp)]
    obtain ⟨c, rest, hname⟩ := List.exists_cons_of_ne_nil hne
    rw [hname] at hnot ⊢
    rw [List.dropWhile_cons_of_neg (by simpa using hnot c List.mem_cons_self)]
  have htake : f.name.takeWhile (· ≠ slash) = f.name := by
    rw [List.takeWhile_eq_self_iff]
    intro c hc
    simpa using hnot c hc
  have hrest : f.name.dropWhile (· ≠ slash) = [] := by
    rw [List.dropWhile_eq_nil_iff]
    intro c hc
    simpa using hnot c hc
  have hend : ∀ n, elements n [] = [] := by
    intro n
    cases n <;> rfl
  rw [List.length_cons, elements, skipelem]
  simp only [hdrop, if_neg hne, htake, hrest, List.dropWhile_nil, hend]
  rfl

/-! ## Entries -/

theorem getElem?_flatten {l : List (List UInt8)} {n j : Nat} (hl : ∀ e ∈ l, e.length = n)
    (hk : k < l.length)
    (hj : j < n) : l.flatten[n * k + j]? = l[k][j]? := by
  induction l generalizing k with
  | nil => cases hk
  | cons e l ih =>
    have he : e.length = n := hl e List.mem_cons_self
    rw [List.flatten_cons]
    cases k with
    | zero => rw [Nat.mul_zero, Nat.zero_add, List.getElem?_append_left (by omega),
      List.getElem_cons_zero]
    | succ k =>
      have hskip : n * (k + 1) + j - e.length = n * k + j := by
        rw [Nat.mul_succ]
        omega
      rw [List.getElem?_append_right (by rw [Nat.mul_succ]; omega), List.getElem_cons_succ, hskip]
      exact ih (fun e he => hl e (List.mem_cons_of_mem _ he)) (Nat.lt_of_succ_lt_succ hk)

/-- **What `mkfs` puts into an entry** is what the kernel reads. -/
theorem decodeAt_dirent (inum : Nat) (name : Name) :
    decodeAt (fun j => (dirent inum name).getD j 0) 0 = ⟨inum % 2 ^ 16, cstr name⟩ := by
  have hnum : numAt (fun j => (dirent inum name).getD j 0) 0 2 = inum % 256 ^ 2 := by
    apply numAt_of_bytes
    intro k hk
    rcases Nat.lt_or_eq_of_le (Nat.le_of_lt_succ hk) with h0 | rfl
    · obtain rfl := Nat.lt_one_iff.1 h0
      rfl
    · rfl
  have hname : ((List.range DIRSIZ).map fun j => (dirent inum name).getD (0 + 2 + j) 0)
      = (List.range DIRSIZ).map fun j => name.getD j 0 := by
    apply List.map_congr_left
    intro j hj
    rw [dirent, List.getD_eq_getElem?_getD, List.getElem?_append_right (by simp), Nat.zero_add]
    simp [List.mem_range.1 hj]
  rw [decodeAt, hnum, hname, cstr_padded]
  norm_num

/-! ## The file system that the kernel finds -/

/-- The file system of the image, with nothing in memory. -/
def booted (s : Mkfs) : Fs where
  sb := mkfsSuperblock
  disk := s.disk
  mem := fun _ => {}

section

variable (h : Built (files.length + 1) (contents files) u s) (hn : files.length + 2 ≤ NINODES)
include h hn

theorem pointers_booted :
    pointers s.finish.booted.disk.inode s.finish.booted.disk.block =
      pointers s.fs.disk.inode s.fs.disk.block :=
  finish_pointer h hn

theorem fileByte_booted : s.finish.booted.fileByte = s.fs.fileByte := by
  funext i k
  have hblock : s.finish.booted.disk.block = s.fs.disk.block := finish_block h hn
  rw [fileByte, fileByte, pointers_booted h hn, hblock]

theorem exact_booted : Exact (· < mkfsSuperblock.nmeta) FSSIZE s.finish.booted.disk.bitmap
    (pointers s.finish.booted.disk.inode s.finish.booted.disk.block) := by
  have hexact := h.sane.sound.laid.exact
  rw [pointers_booted h hn]
  refine ⟨hexact.inj, fun {b} hb => ?_, hexact.not_base, hexact.lt_limit⟩
  have hbit : s.finish.booted.disk.bitmap b = s.fs.disk.bitmap b :=
    finish_bitmap (hb.trans (by decide))
  rw [hbit]
  exact hexact.used_iff hb

theorem inode_booted {i : Nat} (hi : i ≠ ROOTINO) :
    s.finish.booted.disk.inode i = s.fs.disk.inode i := by
  show s.finish.disk.inode i = _
  rw [finish_inode h hn, Function.update_of_ne hi]

theorem root_booted : s.finish.booted.disk.inode ROOTINO = rounded (s.fs.disk.inode ROOTINO) := by
  show s.finish.disk.inode ROOTINO = _
  rw [finish_inode h hn, Function.update_self]

theorem root_fields :
    (s.finish.booted.disk.inode ROOTINO).type = T_DIR ∧
      (s.finish.booted.disk.inode ROOTINO).nlink = 1 := by
  have htype : (s.fs.disk.inode ROOTINO).type = T_DIR := h.type ROOTINO
  have hnlink := h.nlink ROOTINO (by rw [htype]; decide)
  rw [root_booted h hn]
  generalize s.fs.disk.inode ROOTINO = d at htype hnlink
  exact ⟨htype, hnlink⟩

theorem entry_booted (hk : k < (rootEntries files).length) :
    s.finish.booted.entry ROOTINO k = decodeAt (fun j => (rootEntries files)[k].getD j 0) 0 := by
  have htype : (s.fs.disk.inode ROOTINO).type ≠ 0 := by
    rw [h.type]
    exact typeOf_ne (by decide) (Nat.succ_le_succ (Nat.zero_le _))
  have hlen := length_root files
  rw [entry, fileByte_booted h hn]
  apply decodeAt_congr
  intro j hj
  have hlt : DIRENT * k + j < (s.fs.content ROOTINO).length := by
    rw [h.content, hlen, ← length_rootEntries]
    have := Nat.mul_le_mul_left DIRENT (Nat.succ_le_of_lt hk)
    rw [Nat.mul_succ] at this
    omega
  have hbyte := getElem?_flatten length_of_mem_rootEntries hk hj
  rw [← getElem_content htype hlt, Nat.zero_add, List.getD_eq_getElem?_getD, ← hbyte]
  simp only [h.content, contents] at hlt ⊢
  rw [List.getElem?_eq_getElem hlt, Option.getD_some]

theorem entry_dot : s.finish.booted.entry ROOTINO 0 = ⟨ROOTINO, dot⟩ := by
  rw [entry_booted h hn (by simp [rootEntries])]
  exact decodeAt_dirent ROOTINO dot

theorem entry_dotdot : s.finish.booted.entry ROOTINO 1 = ⟨ROOTINO, dotdot⟩ := by
  rw [entry_booted h hn (by simp [rootEntries])]
  exact decodeAt_dirent ROOTINO dotdot

theorem entry_file (hk : k < files.length) :
    s.finish.booted.entry ROOTINO (k + 2) = ⟨k + 2, files[k].stored⟩ := by
  have hentry : (rootEntries files)[k + 2]? = some (dirent (k + 2) files[k].name) := by
    simp [rootEntries, hk]
  have hlt : k + 2 < (rootEntries files).length := by
    rw [length_rootEntries]
    omega
  rw [List.getElem?_eq_getElem hlt, Option.some.injEq] at hentry
  rw [entry_booted h hn hlt, hentry, decodeAt_dirent, HostFile.cstr_name, Nat.mod_eq_of_lt]
  exact (show k + 2 < NINODES by omega).trans (by decide)

theorem not_before (hnamed : Named files) (hk : k < files.length) {j : Nat} (hj : j < k + 2) :
    ¬ ((s.finish.booted.entry ROOTINO j).inum ≠ 0 ∧
      namecmp files[k].stored (s.finish.booted.entry ROOTINO j).name = true) := by
  rintro ⟨-, hcmp⟩
  obtain ⟨-, hdot, hdotdot⟩ := hnamed.name files[k] (List.getElem_mem hk)
  rw [namecmp, decide_eq_true_eq, HostFile.cstr_stored] at hcmp
  rcases j with _ | _ | j
  · rw [entry_dot h hn] at hcmp
    exact hdot hcmp
  · rw [entry_dotdot h hn] at hcmp
    exact hdotdot hcmp
  · have hj' : j < files.length := by omega
    rw [entry_file h hn hj', HostFile.cstr_stored] at hcmp
    have hsame : k = j := (List.getElem?_inj (by simpa using hk) hnamed.distinct).1
      (by simp [hk, hj', hcmp])
    omega

end

/-! ## Reading a file -/

/-- Find a file, and read it from the beginning to its end: its type and its bytes. -/
def readFile (p : Slot) (path : Path) : Fs.Code (Option (Nat × Option (List UInt8))) := do
  match ← namei p path with
  | none => pure none
  | some (ip, _) => do
    ilock ip
    let d ← inodeAt ip
    let l ← act (onFs (readi ip 0 d.size))
    pure (some (d.type, l))

/-- A kernel that has just started from the image, with any files open elsewhere. -/
def kernel (f : Fs) (tables : Files.Tables) (cwd : Slot → Option Nat) : Sys :=
  ⟨⟨f, tables, cwd⟩, fun _ => none⟩

/-- What is there apart from the call that reads. -/
@[simps -fullyApplied] def rest (f : Fs) (tables : Files.Tables) (cwd : Slot → Option Nat) :
    Rest where
  fs := f
  ref := fun _ => 0
  valid := fun _ => False
  tables := tables
  cwd := cwd

section

variable {p : Slot} {tables : Files.Tables} {cwd : Slot → Option Nat} {refs held : List Nat}
  {t : Sys} {fs : Fs}

theorem visit_kernel (f : Fs) (hf : f.mem = fun _ => {}) (p : Slot) (tables : Files.Tables)
    (cwd : Slot → Option Nat) : Visit p (rest f tables cwd) [] [] (kernel f tables cwd) where
  bare := by
    show { f with mem := fun _ => {} } = f
    rw [← hf]
  ref i := by
    show (f.mem i).ref = _
    rw [hf]
    rfl
  coherent i href := by
    change 0 < (f.mem i).ref at href
    rw [hf] at href
    exact absurd href (Nat.lt_irrefl 0)
  valid _ hv := hv.elim
  nodup := List.nodup_nil
  loaded _ hi := nomatch hi
  lock _ := rfl
  tables := rfl
  cwd := rfl

theorem cached_lt (h : Visit p (rest fs tables cwd) refs held t) (hrefs : refs.length < NINODE) :
    t.state.fs.cached < NINODE := by
  refine Nat.lt_of_le_of_lt ?_ hrefs
  rw [Fs.cached, List.countP_eq_length_filter]
  refine (List.subperm_of_subset (List.nodup_range.filter _) fun i hi => ?_).length_le
  have hpos : 0 < (t.state.fs.mem i).ref := by simpa using (List.mem_filter.1 hi).2
  rw [h.ref] at hpos
  exact List.count_pos_iff.1 (by simpa [rest] using hpos)

variable (h : Built (files.length + 1) (contents files) u s) (hn : files.length + 2 ≤ NINODES)
include h hn

theorem readable_booted {i n : Nat} (ht : Visit p (rest s.finish.booted tables cwd) refs held t)
    (hi : i ∈ held)
    (hdev : (s.finish.booted.disk.inode i).type ≠ T_DEV)
    (hcovered : ∀ j < n, j < (s.finish.booted.disk.inode i).size → j < (s.fs.disk.inode i).size) :
    t.state.fs.Readable i n := by
  have hdisk : t.state.fs.disk = s.finish.booted.disk := ht.disk
  have htype : (s.fs.disk.inode i).type ≠ 0 := by
    have := ht.type_ne hi
    by_cases hroot : i = ROOTINO
    · rw [h.type, hroot]
      exact typeOf_ne (by decide) (Nat.succ_le_succ (Nat.zero_le _))
    · rwa [← inode_booted h hn hroot]
  refine ⟨?_, ?_, ?_, ?_, fun j hj hsize => ?_⟩
  · rw [ht.sb, hdisk]
    exact exact_booted h hn
  · rw [ht.data_eq hi, ← ht.disk]
  · rw [hdisk]
    exact ht.type_ne hi
  · rwa [hdisk]
  · rw [hdisk] at hsize ⊢
    rw [pointers_booted h hn]
    exact h.sane.sound.pointers_ne htype (hcovered j hj hsize)

theorem dirfind_booted (hnamed : Named files) (hk : k < files.length)
    (ht : Visit p (rest s.finish.booted tables cwd) refs held t) (hroot : ROOTINO ∈ held) :
    Ends (dirfind ROOTINO files[k].stored) t.state.fs
      (fun o t' => t' = t.state.fs ∧ o = some (k + 2, DIRENT * (k + 2))) fun _ _ => False := by
  have hdisk : t.state.fs.disk = s.finish.booted.disk := ht.disk
  have htype := (root_fields h hn).1
  have hsize := root_size h
  have hend : DIRENT * (k + 2) + DIRENT ≤ (s.fs.disk.inode ROOTINO).size := by
    rw [hsize, ← Nat.mul_succ]
    exact Nat.mul_le_mul_left _ (by omega)
  have hself := entry_file h hn hk
  have hread : t.state.fs.Readable ROOTINO (DIRENT * (k + 2) + DIRENT) :=
    readable_booted h hn ht hroot (by rw [htype]; decide) fun j hj _ => Nat.lt_of_lt_of_le hj hend
  have hfound : Ends (dirfind ROOTINO files[k].stored) _ _ _ :=
    dirfind_found (k := k + 2) hread (by rw [hdisk, htype]) ?_ ?_ (fun j hj => ?_) ?_
  · rwa [entry_congr hdisk, hself] at hfound
  · rw [hdisk, root_booted h hn]
    refine hend.trans ?_
    show _ ≤ (_ / BSIZE + 1) * BSIZE
    unfold BSIZE
    omega
  · unfold wraps DIRENT
    unfold NINODES at hn
    omega
  · rw [entry_congr hdisk]
    exact not_before h hn hnamed hk hj
  · rw [entry_congr hdisk, hself]
    exact ⟨Nat.succ_ne_zero _, by simp [namecmp]⟩

theorem namei_booted (hnamed : Named files) (hk : k < files.length) :
    Ends (alone p (namei p (slash :: files[k].name))) (kernel s.finish.booted tables cwd)
      (fun o t => o = some (k + 2, []) ∧ Visit p (rest s.finish.booted tables cwd) [k + 2] [] t)
        fun _ _ => False := by
  have hfile := List.getElem_mem hk
  have hname : files[k].name ≠ [] := by
    intro hnil
    exact (hnamed.name _ hfile).1 (by rw [HostFile.stored, hnil]; rfl)
  have hroot := root_fields h hn
  have h0 := visit_kernel s.finish.booted rfl p tables cwd
  rw [namei, namex, Script.ends_run_bind, ends_act, Fs.startOf,
    if_pos (show (slash :: files[k].name).head? = some slash from rfl),
      elements_path hname (hnamed.slash _ hfile)]
  simp only [ends_bind, onFs, ends_zoom, ends_pure]
  refine iget_ends.mono ?_ fun _ _ hstop => absurd (cached_lt h0 (by decide))
    (Nat.not_lt_of_le hstop.2)
  rintro _ _ rfl
  have h1 : Visit p _ [ROOTINO] [] (setFs (s.finish.booted.got ROOTINO)
    (kernel s.finish.booted tables cwd)) := h0.got
  rw [walk, Script.ends_run_bind]
  refine (h1.ilock List.mem_cons_self).mono ?_ ?_
  · rintro _ s2 ⟨h2, -⟩
    rw [Script.ends_run_bind, ends_inodeAt, h2.data_eq List.mem_cons_self, rest_fs,
      if_neg (not_not.2 hroot.1), if_neg (by simp), Script.ends_run_bind]
    refine (h2.dirlookup_of (dirfind_booted h hn hnamed hk h2 List.mem_cons_self)).mono ?_ ?_
    · rintro _ s3 ⟨rfl, h3⟩
      rw [Script.ends_run_bind]
      refine (h3.iunlockput List.mem_cons_self fun _ hzero => ?_).mono ?_ fun _ _ hstop => hstop
      · have hone := hroot.2.symm.trans hzero
        exact absurd hone (by decide)
      · intro _ s4 h4
        rw [withFound, erase_second, List.erase_cons_head] at h4
        exact ⟨rfl, h4⟩
    · rintro e _ (hstop | ⟨-, hfull⟩)
      · exact hstop
      · exact absurd (cached_lt h2 (by decide)) (Nat.not_lt_of_le hfull)
  · rintro e _ (⟨-, hfree⟩ | ⟨-, hin⟩)
    · have hzero := hroot.1.symm.trans hfree
      exact absurd hzero (by decide)
    · cases hin

theorem readFile_ends (hnamed : Named files) (hk : k < files.length) :
    Ends (alone p (readFile p (slash :: files[k].name))) (kernel s.finish.booted tables cwd)
      (fun o _ => o = some (T_FILE, some files[k].content)) fun _ _ => False := by
  have hinode := inode_booted h hn (i := k + 2) (by unfold ROOTINO; omega)
  have htype : (s.finish.booted.disk.inode (k + 2)).type = T_FILE := by
    rw [hinode, h.type, typeOf, if_neg (by omega), if_neg (by unfold ROOTINO; omega)]
  have hcontent : s.fs.content (k + 2) = files[k].content := by
    rw [h.content, contents, List.getElem?_eq_getElem hk]
    rfl
  have hsize : (s.fs.disk.inode (k + 2)).size = files[k].content.length := by
    rw [← hcontent, length_content]
    rw [← hinode, htype]
    decide
  rw [readFile, Script.ends_run_bind]
  refine (namei_booted h hn hnamed hk).mono ?_ fun _ _ hstop => hstop
  rintro _ s1 ⟨rfl, h1⟩
  rw [Script.ends_run_bind]
  refine (h1.ilock List.mem_cons_self).mono ?_ ?_
  · rintro _ s2 ⟨h2, -⟩
    have hdata : (s2.state.fs.mem (k + 2)).data = s.finish.booted.disk.inode (k + 2) :=
      h2.data_eq List.mem_cons_self
    have hread : s2.state.fs.Readable (k + 2) (0 + (s.fs.disk.inode (k + 2)).size) :=
      readable_booted h hn h2 List.mem_cons_self (by rw [htype]; decide) fun j _ hj => hinode ▸ hj
    rw [Script.ends_run_bind, ends_inodeAt, Script.ends_run_bind, hdata, htype, hinode, ends_onFs]
    refine (readi_ends hread).mono ?_ fun _ _ hstop => hstop
    rintro _ _ ⟨rfl, rfl⟩
    have hall : s2.state.fs.content (k + 2) = files[k].content := by
      rw [← hcontent, content_congr h2.disk, content, content]
      show (if (s.finish.booted.disk.inode (k + 2)).type = 0 then _ else
        (List.range (s.finish.booted.disk.inode (k + 2)).size).map
          (s.finish.booted.fileByte (k + 2))) = _
      rw [hinode, fileByte_booted h hn]
    have htype2 : (s2.state.fs.disk.inode (k + 2)).type ≠ 0 := hread.type
    have hwhole : (0 : Nat) ≤ (s2.state.fs.disk.inode (k + 2)).size ∧
        ¬ wraps 0 (s.fs.disk.inode (k + 2)).size :=
      ⟨Nat.zero_le _, Nat.not_lt_zero _⟩
    rw [if_pos hwhole, ← slice_content htype2, hall, List.drop_zero, hsize, List.take_length]
    rfl
  · rintro e _ (⟨-, hfree⟩ | ⟨-, hin⟩)
    · have hzero := htype.symm.trans hfree
      exact absurd hzero (by decide)
    · cases hin

end

theorem finish_super (h : s.Sane) : s.finish.image 1 = superBytes := by
  have hstored : (s.stored ROOTINO (rounded (s.fs.disk.inode ROOTINO))).Fresh :=
    h.fresh.stored (by decide)
  have hlast : (s.finish).Fresh := hstored.put (by decide)
    (Nat.lt_of_lt_of_le (by decide) h.fresh.low)
  exact hlast.super

/-- **`mkfs` and the kernel agree**: from an image that `mkfs` has written, the kernel finds every
file under its name, and reads from it the bytes that the host had given. -/
theorem files_read (hnamed : Named files) (hn : files.length + 2 ≤ NINODES)
    (hmain : Returns (main files) start ⟨⟩ s) :
    ∃ fs, mount s.image = some fs ∧ ∀ f ∈ files, ∀ p tables cwd, ∃ t,
      Returns (alone p (readFile p (slash :: f.name))) (kernel fs tables cwd)
        (some (T_FILE, some f.content)) t := by
  obtain ⟨t, ht, rfl⟩ := (main_ends rfl hn).of_returns hmain
  refine ⟨t.finish.booted, mount_image (finish_super ht.sane), fun f hf p tables cwd => ?_⟩
  obtain ⟨k, hk, rfl⟩ := List.getElem_of_mem hf
  obtain ⟨_, t', rfl, hret⟩ := (readFile_ends ht hn hnamed hk).and_returns.exists_of_no_stop
  exact ⟨t', hret⟩

/-- A file of three bytes that the host gives in two pieces. -/
def smallFile : HostFile where
  arg := [95, 97]
  chunks := some [[1, 2], [3]]
  nonzero := by decide
  chunk := by decide

/-- The small file is found under the name `a`. -/
theorem files_read_small :
    ∃ s fs, Returns (main [smallFile]) start ⟨⟩ s ∧ mount s.image = some fs ∧ ∀ p tables cwd, ∃ t,
      Returns (alone p (readFile p [slash, 97])) (kernel fs tables cwd)
        (some (T_FILE, some [1, 2, 3])) t := by
  have hsmall : Small [smallFile] := by
    refine ⟨fun f hf => ?_, by decide⟩
    rw [List.mem_singleton] at hf
    subst hf
    exact ⟨by decide, by decide⟩
  have hnamed : Named [smallFile] := by
    constructor
    · simp only [List.mem_singleton, forall_eq]
      decide
    · simp only [List.mem_singleton, forall_eq]
      decide
    · exact List.nodup_singleton _
  obtain ⟨t, -, hmain⟩ := main_returns (show [smallFile].length + 2 ≤ NINODES by decide) hsmall
  obtain ⟨fs, hmount, hread⟩ := files_read hnamed (by decide) hmain
  exact ⟨t.finish, fs, hmain, hmount, hread smallFile List.mem_cons_self⟩

end Xv6.Mkfs
