import JexOs.Proof.JexFsNames

/-!
# From the host to the kernel

What opens on a fresh image, and is no hidden name or path, is a file of the host, and reads of it begin with its bytes.
-/

namespace JexOs.Mkjexfs

open ByteMem JexFs List

section Read

variable {total ino size : Nat} {d : Mem} {file : File} {files : List File} {fs : Fs} {name : Name}

theorem Stored.read (h : Stored file d ino) (total : Nat) (hino : ino < 1032) (hfits : Fits ino)
    (hsize : size < 2 ^ 32) :
    jexfsRead (layout total) d ino size 0 = .ok (file.data.take (min size (packedSize file))) := by
  obtain ⟨first, hlow, hhigh, hrecord, hbytes⟩ := h
  have hsizes := packedSize_le file
  have hneeded := blocksNeeded_le file
  have hlength : (inodeAt d ino).size.toNat = packedSize file := by
    rw [hrecord, UInt32.toNat_ofNat', Nat.mod_eq_of_lt (by omega)]
  have hmap : ∀ p, p < packedSize file → jexfsBmap d (inodeAt d ino) (p / 1024) = first + p / 1024 := by
    intro p hp
    rw [hrecord, jexfsBmap, dif_pos (show p / 1024 < 8 by omega)]
    dsimp only
    rw [if_pos (by omega), UInt16.toNat_ofNat', Nat.mod_eq_of_lt (by omega)]
  obtain ⟨n, hn, hrun, -, hstop⟩ :=
    read_run total hino hfits (Eq.refl (inodeAt d ino)) (show 0 + size < 2 ^ 32 by omega)
  rw [hlength, Nat.sub_zero] at hn hstop
  obtain rfl : n = min size (packedSize file) := by
    rcases hstop with hall | hhole
    · exact hall
    · rcases lt_or_ge n (packedSize file) with hlt | hge
      · rw [Nat.zero_add, hmap n hlt] at hhole
        omega
      · omega
  rw [hrun]
  congr 1
  refine ext_getElem (by simp; omega) fun k hk _ => ?_
  rw [length_map, length_range] at hk
  have hlt := hk.trans_le (Nat.min_le_right _ _)
  rw [getElem_map, getElem_range, getElem_take, Nat.zero_add, fileByte, hmap k hlt,
    show 1024 * (first + k / 1024) + k % 1024 = 1024 * first + k by omega, hbytes k hlt, getD_eq_getElem]

/-- What is read under a name is the file packed under it. -/
theorem open_packed (htotal : total ≤ 65536) (hfiles : HostFiles files) (hmount : Mounted total files fs)
    (hname : name ≠ []) (hdot : name.head? ≠ some 46) (hslash : name.head? ≠ some slash)
    (hopen : jexfsOpen fs name = .ok (.ok ino)) : ∃ f ∈ files, f.name = name.take (nameLen name) ∧
      (Fits ino → ∀ size, size < 2 ^ 32 →
        jexfsRead fs.sb fs.disk ino size 0 = .ok (f.data.take (min size (packedSize f)))) := by
  obtain ⟨rest, ⟨-, hstored⟩, htidy⟩ := mounted_tidy (by omega) hfiles hmount
  rw [open_plain hname hslash] at hopen
  obtain ⟨_, _, _, _, e, _, _, hhit, rfl⟩ := findEntry_hit htidy.orderly htidy.cwd htidy.sb hopen
  obtain ⟨hlive, -, hnamed⟩ := lookup_live hhit.first
  rw [htidy.inRoot] at hlive
  have hino := (htidy.named e hlive).1
  have hmem : e ∈ dots 1 1 ++ rest := by simpa [rooted] using (mem_live.mp hlive).1
  rcases mem_append.mp hmem with hhidden | hfile
  · have hdots : ∀ e ∈ dots 1 1, e.name.head? = some 46 := by decide
    have hhead := hdots e hhidden
    rw [hnamed, head?_take] at hhead
    split at hhead
    · cases hhead
    · exact absurd hhead hdot
  · obtain ⟨f, hf, heq, hbytes⟩ := hstored e hfile
    refine ⟨f, hf, heq.symm.trans hnamed, fun hfits size hsize => ?_⟩
    rw [htidy.sb]
    exact hbytes.read total hino hfits hsize

end Read

theorem open_packed_file : ∃ fs, Mounted 256 [{ name := [97], data := [1, 2] }] fs ∧
    jexfsOpen fs [97] = .ok (.ok 2) ∧ jexfsRead fs.sb fs.disk 2 8192 0 = .ok [1, 2] := by
  have hcompute : ((freshFs 256 [{ name := [97], data := [1, 2] }]).map fun fs =>
      (jexfsOpen fs [97]).map fun r => r) = some (.ok (.ok 2)) := by decide +kernel
  obtain ⟨fs, _, hmount, hopen, rfl⟩ := freshFs_call hcompute
  obtain ⟨f, hf, -, hread⟩ := open_packed (by decide) ⟨by decide, by decide⟩ hmount (by decide) (by decide)
    (by decide) hopen
  cases mem_singleton.mp hf
  exact ⟨fs, hmount, hopen, hread (show 2 * 42 % 1024 + 42 ≤ 1024 by decide) 8192 (by decide)⟩

end JexOs.Mkjexfs
