import JexOs.Proof.JexFsTidy
import JexOs.Proof.MkjexfsImage

/-!
# A fresh image

The file system that the kernel finds on an image of `mkjexfs` is tidy: its root holds `.`, `..` and the
entries of the packed files, and there is no other directory.
-/

namespace JexOs.JexFs

open ByteMem Mkjexfs List Option

/-- The kernel has mounted an image that `mkjexfs` made of these files. -/
def Mounted (total : Nat) (files : List File) (fs : Fs) : Prop :=
  ∃ b fs₀, mkjexfs total files = .ok (some b) ∧ fs₀.disk = b.img ∧ fs = jexfsInit fs₀

def freshFs (total : Nat) (files : List File) : Option Fs :=
  match mkjexfs total files with
  | .ok (some b) => some (jexfsInit { sb := layout 0, disk := b.img, cwd := 0 })
  | _ => none

theorem freshFs_mounted {total : Nat} {files : List File} {fs : Fs}
    (h : freshFs total files = some fs) : Mounted total files fs := by
  unfold freshFs at h
  split at h
  · rename_i b hmake
    cases h
    exact ⟨b, _, hmake, rfl, rfl⟩
  · cases h

theorem freshFs_call {α β : Type} {total : Nat} {files : List File} {call : Fs → Except Fault α}
    {look : Fs → α → β} {v : β}
    (h : ((freshFs total files).map fun fs => (call fs).map (look fs)) = some (.ok v)) :
    ∃ fs a, Mounted total files fs ∧ call fs = .ok a ∧ look fs a = v := by
  obtain ⟨fs, hfresh, h⟩ := map_eq_some_iff.mp h
  cases hcall : call fs with
  | error e =>
    rw [hcall] at h
    cases h
  | ok a =>
    rw [hcall] at h
    exact ⟨fs, a, freshFs_mounted hfresh, hcall, Except.ok.inj h⟩

theorem freshFs_calls {α β γ : Type} {total : Nat} {files : List File} {call : Fs → Except Fault α}
    {next : α → Except Fault β} {look : Fs → α → β → γ} {v : γ}
    (h : ((freshFs total files).map fun fs => (call fs).bind fun a => (next a).map (look fs a)) =
      some (.ok v)) : ∃ fs a b, Mounted total files fs ∧ call fs = .ok a ∧ next a = .ok b ∧
      look fs a b = v := by
  obtain ⟨fs, hfresh, h⟩ := map_eq_some_iff.mp h
  obtain ⟨a, hcall, h⟩ := Loop.bind_eq_ok.mp h
  cases hnext : next a with
  | error e =>
    rw [hnext] at h
    cases h
  | ok b =>
    rw [hnext] at h
    exact ⟨fs, a, b, freshFs_mounted hfresh, hcall, hnext, Except.ok.inj h⟩

structure HostFiles (files : List File) : Prop where
  named : ∀ f ∈ files, f.name ≠ [] ∧ slash ∉ f.name
  distinct : (files.map File.name).Nodup

/-- The root holds `blocks`, and every other directory what it was made with. -/
def rooted (blocks : List (List Entry)) : Content := fun i => if i = 1 then blocks else [dots i 1]

section Mounted

variable {total n next size : Nat} {files : List File} {fs : Fs} {img : Mem} {es rest : List Entry}

theorem decode_superblock (htotal : total < 2 ^ 32)
    (h : ∀ k, k < 36 → img (1024 + k) = byteOf ((superblockFields total).getD (k / 4) 0) (k % 4)) :
    Superblock.decode (readBlock img 1) = layout total := by
  have hfield : ∀ i, i < 9 → (superblockFields total).getD i 0 < 4294967296 →
      load32 (readBlock img 1) (4 * i) = (superblockFields total).getD i 0 := by
    intro i hi hlt
    refine load32_byteOf hlt fun k hk => ?_
    rw [readBlock, Nat.mul_one, h (4 * i + k) (by omega), show (4 * i + k) / 4 = i by omega,
      show (4 * i + k) % 4 = k by omega]
  have hmagic := hfield 0 (by decide) (show 0x4A455846 < 4294967296 by decide)
  have htotals := hfield 1 (by decide) htotal
  have hinodes := hfield 2 (by decide) (show 1032 < 4294967296 by decide)
  have hinodeMap := hfield 3 (by decide) (show 2 < 4294967296 by decide)
  have hblockMap := hfield 4 (by decide) (show 3 < 4294967296 by decide)
  have hbitmaps := hfield 5 (by decide) (show 8 < 4294967296 by decide)
  have htable := hfield 6 (by decide) (show 11 < 4294967296 by decide)
  have hrecord := hfield 7 (by decide) (show 42 < 4294967296 by decide)
  have hdata := hfield 8 (by decide) (show 54 < 4294967296 by decide)
  unfold Superblock.decode layout
  congr 1

theorem rootInode_bmap {d : Mem} (lb : Nat) : jexfsBmap d (rootInode size) lb = if lb = 0 then 54 else 0 := by
  by_cases hlb : lb < 262664
  · rw [bmap_mapSlot hlb]
    by_cases hzero : lb = 0
    · subst hzero
      rfl
    · rw [if_neg hzero]
      by_cases hdirect : ∃ i, mapSlot lb = .direct i
      · obtain ⟨i, hi⟩ := hdirect
        have hne : i ≠ 0 := by
          rintro rfl
          exact hzero (mapSlot_inj hlb (by decide) (hi.trans rfl))
        rw [hi]
        exact congrArg UInt16.toNat
          (Function.update_of_ne hne (UInt16.ofNat dataStart) Inode.zero.directBlocks)
      · exact slotBlock_flat ⟨rfl, rfl⟩ fun i heq => hdirect ⟨i, heq⟩
  · rw [bmap_past (by omega), if_neg (by omega)]

theorem rootInode_laid (h : Packed total n next size img es) (hsize : size = direntFormat.span es)
    (hne : es ≠ []) : Laid img (inodeAt img 1) [es] := by
  have hinside := h.block.inside
  rw [h.root]
  refine ⟨fun lb => ?_, fun lb x hx => ?_, .inr ⟨es, hne, rfl, ?_⟩⟩
  · rw [rootInode_bmap, length_singleton]
    split <;> omega
  · cases lb with
    | zero =>
      rw [getElem?_cons_zero, some.injEq] at hx
      rw [rootInode_bmap, if_pos rfl, ← hx]
      exact h.block
    | succ lb => cases hx
  · have hstored : (UInt32.ofNat size).toNat = size := by
      rw [UInt32.toNat_ofNat', Nat.mod_eq_of_lt (by omega)]
    exact hstored.trans hsize

theorem mounted_packed (htotal : total < 2 ^ 32) (hfiles : HostFiles files)
    (hmount : Mounted total files fs) : ∃ n next size rest, fs.sb = layout total ∧ fs.cwd = 1 ∧
      2 + rest.length ≤ n ∧ size = direntFormat.span (dots 1 1 ++ rest) ∧
      Packed total n next size fs.disk (dots 1 1 ++ rest) ∧ FileEntries files 2 rest ∧
      AllStored files fs.disk rest := by
  obtain ⟨b, fs₀, hmake, hdisk, rfl⟩ := hmount
  unfold mkjexfs at hmake
  split at hmake
  · cases hmake
  simp only [Loop.bind_eq_ok] at hmake
  obtain ⟨s, hempty, s', hpack, hret⟩ := hmake
  cases hret
  obtain ⟨hn, hnext, hoff, hpacked⟩ := emptyImage_packed hempty
  rw [← hn, ← hnext] at hpacked
  obtain ⟨n, rest, hle, hspan, hpacked', hentries, -, hstored⟩ := packFiles_packed (by omega)
    (fun f hf => (hfiles.named f hf).1) hpacked hoff hpack
  rw [hn] at hle hentries
  rw [← hdisk] at hpacked' hstored
  have hdecode := decode_superblock (by omega) hpacked'.super
  have hmagic : ¬((Superblock.decode (readBlock fs₀.disk 1)).magic ≠ 0x4A455846 ∨
      (Superblock.decode (readBlock fs₀.disk 1)).inodeSize ≠ 42) := by
    rw [hdecode]
    exact fun hbad => hbad.elim (fun h => h rfl) fun h => h rfl
  have hinit : jexfsInit fs₀ = { sb := layout total, disk := fs₀.disk, cwd := 1 } := by
    unfold jexfsInit
    rw [if_neg hmagic, hdecode]
  rw [hinit]
  exact ⟨n, _, _, rest, rfl, rfl, hle, hspan, hpacked', hentries, hstored⟩

theorem flatten_live (hrest : ∀ e ∈ rest, e.ino ≠ 0) : live [dots 1 1 ++ rest] = dots 1 1 ++ rest := by
  unfold live
  rw [flatten_cons, flatten_nil, append_nil]
  refine filter_eq_self.mpr fun e he => decide_eq_true ?_
  rcases mem_append.mp he with hdot | he
  · have hall : ∀ e ∈ dots 1 1, e.ino ≠ 0 := by decide
    exact hall e hdot
  · exact hrest e he

theorem distinct_fresh (h : FileEntries files 2 rest) : Distinct (dots 1 1 ++ rest) := by
  have hpair : ((dots 1 1 ++ rest).map Entry.ino).Pairwise fun i j => i = j → i = 1 := by
    rw [map_append, h.inodes, pairwise_append]
    refine ⟨by decide, ?_, fun i hi _ _ _ => ?_⟩
    · exact (pairwise_lt_range' (s := 2)).imp fun hlt heq => absurd heq hlt.ne
    · have hall : ∀ i ∈ (dots 1 1).map Entry.ino, i = 1 := by decide
      exact hall i hi
  exact pairwise_map.mp hpair

theorem mounted_tidy (htotal : total < 2 ^ 32) (hfiles : HostFiles files) (hmount : Mounted total files fs) :
    ∃ rest, (FileEntries files 2 rest ∧ AllStored files fs.disk rest) ∧
    Tidy total fs (rooted [dots 1 1 ++ rest]) := by
  obtain ⟨n, next, size, rest, hsb, hcwd, hn, hsize, hpacked, hentries, hstored⟩ :=
    mounted_packed htotal hfiles hmount
  have hlive : ∀ i, i < n → Live fs.disk i := fun i hi => (hpacked.live i).mpr hi
  have hroot : (inodeAt fs.disk 1).isDir = true := by
    rw [hpacked.root]
    exact show (dirMode &&& 0x7 == 0x2) = true by decide
  have horderly : Orderly fs.disk (rooted [dots 1 1 ++ rest]) :=
    { sound :=
        { owned := hpacked.owned
          second_empty := fun i hi j k =>
            slotBlock_flat (hpacked.flat i ((hpacked.live i).mp hi)) nofun }
      root := hlive 1 (by omega)
      rootDir := hroot
      fits := fun i hi hdir => by
        by_cases hone : i = 1
        · subst hone
          exact show 1 * 42 % 1024 + 42 ≤ 1024 by decide
        · rw [hpacked.file i ((hpacked.live i).mp hi) hone] at hdir
          cases hdir
      laid := fun i hi hdir => by
        by_cases hone : i = 1
        · subst hone
          exact rootInode_laid hpacked hsize (cons_ne_nil _ _)
        · rw [hpacked.file i ((hpacked.live i).mp hi) hone] at hdir
          cases hdir }
  have hflat : live (rooted [dots 1 1 ++ rest] 1) = dots 1 1 ++ rest :=
    flatten_live fun e he => by
      have := (hentries.numbered he).1
      omega
  refine ⟨rest, ⟨hentries, hstored⟩,
    { sb := hsb
      cwd := ?_
      orderly := horderly
      inRoot := hcwd
      dirs := fun i hi => if_neg hi
      named := ?_
      distinct := ?_ }⟩
  · rw [hcwd]
    exact ⟨hlive 1 (by omega), hroot⟩
  · rw [hflat]
    intro e he
    refine hlive _ ?_
    rcases mem_append.mp he with hdot | he
    · have hall : ∀ e ∈ dots 1 1, e.ino = 1 := by decide
      rw [hall e hdot]
      omega
    · have := (hentries.numbered he).2
      omega
  · rw [hflat]
    exact distinct_fresh hentries

end Mounted

theorem runs_ordered {total : Nat} {files : List File} {fs₀ fs : Fs} (htotal : total ≤ 65536)
    (hfiles : HostFiles files) (hmount : Mounted total files fs₀)
    (hrun : Runs (Op.Even total) fs₀ fs) : ∃ content, Ordered total fs content := by
  obtain ⟨rest, -, htidy⟩ := mounted_tidy (by omega) hfiles hmount
  exact Runs.invariant (P := Ordered total) (fun _ _ h => h) (fun _ _ _ _ heven => heven)
    (fun _ _ _ _ _ _ _ _ _ _ _ _ _ _ hordered => hordered) hrun ⟨_, htidy.toOrdered⟩

/-- Every entry that a name resolves to in an allocated directory names an allocated inode, and the root
is an allocated directory. -/
structure NoDangling (fs : Fs) : Prop where
  entries : ∀ idx, IsDirectory fs.disk idx → ∀ name n,
    jexfsFindEntry fs.sb fs.disk idx name = .ok (.ok n) → Live fs.disk n
  root : IsDirectory fs.disk 1

section NoDangling

variable {total : Nat} {files : List File} {fs fs₀ : Fs} {content : Content}

theorem Tidy.noDangling (h : Tidy total fs content) : NoDangling fs := by
  refine ⟨fun idx hdir name n hfind => ?_, h.orderly.root, h.orderly.rootDir⟩
  obtain ⟨phys, bo, before, pre, e, post, after, hhit, rfl⟩ := findEntry_hit h.orderly hdir h.sb hfind
  have hmem := hhit.mem_live
  by_cases hone : idx = 1
  · subst hone
    exact h.named e hmem
  · rw [h.dirs idx hone] at hmem
    have hdots : ∀ e ∈ dots idx 1, e.ino = idx ∨ e.ino = 1 := by
      intro e he
      simp only [dots, mem_cons, not_mem_nil, or_false] at he
      rcases he with rfl | rfl
      · exact .inl rfl
      · exact .inr rfl
    have hin := (mem_live.mp hmem).1
    rcases hdots e hin with heq | heq
    · rw [heq]
      exact hdir.1
    · rw [heq]
      exact h.orderly.root

theorem runs_tidy (hrun : Runs (Op.Plain total) fs₀ fs) (htidy : ∃ content, Tidy total fs₀ content) :
    ∃ content, Tidy total fs content :=
  Runs.invariant (P := Tidy total) (fun _ _ h => h.toOrdered) (fun _ _ _ h hplain => h.even hplain)
    (fun _ _ _ _ _ _ _ _ h hplain _ hdoes hmoves hcwd hordered =>
      h.step hplain hdoes hmoves hcwd hordered) hrun htidy

/-- Plain runs leave no name that leads to a free inode. -/
theorem noDangling_of_plain (htotal : total ≤ 65536) (hfiles : HostFiles files)
    (hmount : Mounted total files fs₀) (hrun : Runs (Op.Plain total) fs₀ fs) : NoDangling fs := by
  obtain ⟨rest, -, htidy⟩ := mounted_tidy (by omega) hfiles hmount
  obtain ⟨content, htidy'⟩ := runs_tidy hrun ⟨_, htidy⟩
  exact htidy'.noDangling

/-- The file `a` is renamed to `b` and removed. -/
theorem noDangling_of_plain_file : ∃ fs₀ fs₁ fs, Mounted 256 [{ name := [97], data := [1, 2] }] fs₀ ∧
    jexfsRename fs₀ [97] [98] = .ok (.ok 0, fs₁) ∧ jexfsRemove fs₁ [98] = .ok (.ok 0, fs) ∧
    NoDangling fs := by
  have hcompute : ((freshFs 256 [{ name := [97], data := [1, 2] }]).map fun fs =>
      (jexfsRename fs [97] [98]).bind fun p => (jexfsRemove p.2 [98]).map fun q =>
        (p.1, jexfsFindEntry p.2.sb p.2.disk p.2.cwd [98], q.1)) =
        some (.ok (.ok 0, .ok (.ok 2), .ok 0)) := by decide +kernel
  obtain ⟨fs₀, ⟨r, fs₁⟩, ⟨r', fs⟩, hmount, hrename, hremove, hcompute⟩ := freshFs_calls hcompute
  simp only [Prod.mk.injEq] at hcompute
  obtain ⟨rfl, hfind, rfl⟩ := hcompute
  refine ⟨fs₀, fs₁, fs, hmount, hrename, hremove, ?_⟩
  refine noDangling_of_plain (by decide) ⟨by decide, by decide⟩ hmount
    (.tail (.tail .refl ⟨.rename [97] [98], _, ?_, hrename⟩) ⟨.remove [98], _, ?_, hremove⟩)
  · exact fun _ _ _ => .inl rfl
  · intro hroot
    rw [hfind] at hroot
    cases hroot

/-- The root can be removed by its name `.`. -/
theorem not_noDangling_dot : ∃ fs₀ fs, Mounted 256 [] fs₀ ∧
    jexfsRemove fs₀ [46] = .ok (.ok 0, fs) ∧ ¬NoDangling fs := by
  have hcompute : ((freshFs 256 []).map fun fs =>
      (jexfsRemove fs [46]).map fun p => (p.1, inodeBit p.2.disk 1)) = some (.ok (.ok 0, false)) := by
    decide +kernel
  obtain ⟨fs₀, ⟨r, fs⟩, hmount, hremove, hcompute⟩ := freshFs_call hcompute
  simp only [Prod.mk.injEq] at hcompute
  obtain ⟨rfl, hbit⟩ := hcompute
  refine ⟨fs₀, fs, hmount, hremove, fun h => ?_⟩
  rw [h.root.1.2] at hbit
  cases hbit

end NoDangling

end JexOs.JexFs
