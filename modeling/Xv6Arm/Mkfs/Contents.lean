import Xv6Arm.Mkfs.Run

/-!
# What an image holds

The files of the volume that `mkfs` makes, the blocks it needs, and what a reader
of the on-disk format finds in its image.
-/

namespace Xv6Arm.Mkfs

open Bytes Fs

/-! ## The files of the volume -/

/-- The bytes of the root directory. -/
def rootBytes (files : List Input) : List UInt8 :=
  dirent ROOTINO [46] ++ dirent ROOTINO [46, 46] ++
    files.zipIdx.flatMap fun p => dirent (p.2 + 2) p.1.target

/-- The blocks that the input files and the root directory need. -/
def blocksNeeded (files : List Input) : Nat :=
  blocksFor (16 * (files.length + 2)) + (files.map fun f => blocksFor f.bytes.length).sum

/-- The volume holds the input files and a root directory for them. -/
structure Describes (files : List Input) (v : Volume) : Prop where
  next : v.next = files.length + 2
  free : v.free = usedBefore + blocksNeeded files
  root_type : (v.file ROOTINO).type = T_DIR
  root_data : (v.file ROOTINO).data = rootBytes files
  file_type : ∀ j, j < files.length → (v.file (j + 2)).type = T_FILE
  file_data : ∀ j f, files[j]? = some f → (v.file (j + 2)).data = f.bytes

theorem length_dirent (inum : Nat) (name : List UInt8) : (dirent inum name).length = 16 :=
  List.length_ofFn

theorem rootBytes_append (files : List Input) (f : Input) :
    rootBytes (files ++ [f]) = rootBytes files ++ dirent (files.length + 2) f.target := by
  simp [rootBytes, List.zipIdx_append]

theorem length_rootBytes (files : List Input) :
    (rootBytes files).length = 16 * (files.length + 2) := by
  induction files using List.reverseRecOn with
  | nil => rfl
  | append_singleton files f ih =>
      rw [rootBytes_append, List.length_append, ih, length_dirent, List.length_append,
        List.length_singleton]
      omega

section Append

variable {v : Volume} {i : Nat}

/-- What an append does to the files of a volume. -/
theorem Volume.append_spec (hwf : v.Wf usedBefore) (p : List UInt8) :
    ((v.append i p).file i).data = (v.file i).data ++ p ∧
      ((v.append i p).file i).type = (v.file i).type ∧
      (v.append i p).free + blocksFor (v.file i).data.length =
        v.free + blocksFor ((v.file i).data.length + p.length) := by
  obtain ⟨-, -, hdata, htype, hcount⟩ := Mkfs.append_spec p (hwf.file_wf i) hwf.free_pos
  rw [append_file]
  exact ⟨hdata, htype.1, hcount⟩

theorem append_file_ne {j : Nat} (hj : j ≠ i) (p : List UInt8) :
    (v.append i p).file j = v.file j := Function.update_of_ne hj ..

end Append

theorem describes_root : Describes [] rootVolume := by
  have h₁ := emptyVolume_wf.ialloc (by decide) T_DIR
  have h₂ := h₁.append (i := ROOTINO) (by decide) (by decide) (dirent ROOTINO [46])
  obtain ⟨hd₁, ht₁, hf₁⟩ := Volume.append_spec (i := ROOTINO) h₁ (dirent ROOTINO [46])
  obtain ⟨hd₂, ht₂, hf₂⟩ := Volume.append_spec (i := ROOTINO) h₂ (dirent ROOTINO [46, 46])
  have hself : (emptyVolume.ialloc T_DIR).file ROOTINO =
      { type := T_DIR, nlink := 1, data := [], blocks := [], ind := 0 } := ialloc_file_self T_DIR
  rw [hself, List.nil_append] at hd₁
  rw [hself] at ht₁ hf₁
  rw [hd₁, length_dirent, length_dirent] at hf₂
  rw [length_dirent] at hf₁
  refine ⟨rfl, ?_, ?_, ?_, fun j hj => absurd hj (Nat.not_lt_zero j), fun j f hj => by cases hj⟩
  · have hneed : usedBefore + blocksNeeded [] = 30 := by decide
    have hfree : (emptyVolume.ialloc T_DIR).free = 29 := rfl
    have hb : blocksFor 0 = 0 ∧ blocksFor 16 = 1 ∧ blocksFor 32 = 1 := by decide
    simp only [List.length_nil, Nat.zero_add] at hf₁
    simp only [Nat.reduceAdd] at hf₂
    rw [hneed, rootVolume]
    omega
  · exact ht₂.trans ht₁
  · rw [rootVolume, hd₂, hd₁]
    simp [rootBytes]

/-- One more input file. -/
theorem Describes.addFile {files : List Input} {v : Volume} (h : Describes files v)
    (hwf : v.Wf usedBefore) (f : Input) : Describes (files ++ [f]) (v.addFile f) := by
  have hnext := h.next
  have hroot : ROOTINO ≠ v.next := by
    rw [ROOTINO]
    omega
  have h₁ := hwf.ialloc (by omega) T_FILE
  have h₂ := hwf.addName (by omega) f
  obtain ⟨hd₁, ht₁, hf₁⟩ := Volume.append_spec (i := ROOTINO) h₁ (dirent v.next f.target)
  obtain ⟨hd₂, ht₂, hf₂⟩ := Volume.append_spec (i := v.next) h₂ f.bytes
  rw [ialloc_file_ne T_FILE hroot, h.root_data] at hd₁
  rw [ialloc_file_ne T_FILE hroot, h.root_type] at ht₁
  rw [ialloc_file_ne T_FILE hroot, h.root_data, length_rootBytes, length_dirent] at hf₁
  rw [append_file_ne hroot.symm, ialloc_file_self, List.nil_append] at hd₂
  rw [append_file_ne hroot.symm, ialloc_file_self] at ht₂
  rw [append_file_ne hroot.symm, ialloc_file_self] at hf₂
  have hother : ∀ j, j ≠ ROOTINO → j ≠ v.next → (v.addFile f).file j = v.file j := by
    intro j hj hjn
    rw [Volume.addFile, append_file_ne hjn, append_file_ne hj, ialloc_file_ne T_FILE hjn]
  refine ⟨?_, ?_, ?_, ?_, ?_, ?_⟩
  · rw [addFile_next, hnext, List.length_append]
    rfl
  · have hfree : (v.ialloc T_FILE).free = v.free := rfl
    have hzero : blocksFor 0 = 0 := by decide
    have hsum : 16 * (files.length + 1 + 2) = 16 * (files.length + 2) + 16 := by omega
    have hneed : blocksNeeded (files ++ [f]) = blocksFor (16 * (files.length + 2) + 16) +
        ((files.map fun f => blocksFor f.bytes.length).sum + blocksFor f.bytes.length) := by
      simp only [blocksNeeded, List.length_append, List.length_singleton, hsum, List.map_append,
        List.map_singleton, List.sum_append, List.sum_singleton]
    have hold := h.free
    simp only [List.length_nil, Nat.zero_add] at hf₂
    unfold blocksNeeded at hold
    rw [hneed, Volume.addFile]
    omega
  · rw [Volume.addFile, append_file_ne hroot, ht₁]
  · rw [Volume.addFile, append_file_ne hroot, hd₁, rootBytes_append, hnext]
  · intro j hj
    rw [List.length_append, List.length_singleton] at hj
    by_cases hjn : j + 2 = v.next
    · rw [hjn]
      exact ht₂
    · rw [hother (j + 2) (by unfold ROOTINO; omega) hjn]
      exact h.file_type j (by omega)
  · intro j g hj
    by_cases hjn : j + 2 = v.next
    · have hjl : j = files.length := by omega
      rw [hjl, List.getElem?_concat_length] at hj
      rw [hjn, ← Option.some.inj hj]
      exact hd₂
    · have hlt : j < files.length := by
        have hlt := (List.getElem?_eq_some_iff.mp hj).1
        rw [List.length_append, List.length_singleton] at hlt
        omega
      rw [List.getElem?_append_left hlt] at hj
      rw [hother (j + 2) (by unfold ROOTINO; omega) hjn]
      exact h.file_data j g hj

theorem describes_volume (files : List Input) : Describes files (volume files) := by
  induction files using List.reverseRecOn with
  | nil => exact describes_root
  | append_singleton files f ih =>
      have hfold : volume (files ++ [f]) = (volume files).addFile f := by
        rw [volume, List.foldl_append]
        rfl
      rw [hfold]
      exact ih.addFile (volume_wf files) f

/-- The volume has room for the input files. -/
theorem Describes.fits {files : List Input} {v : Volume} (h : Describes files v)
    (hwf : v.Wf usedBefore) :
    Fits v ↔ blocksNeeded files ≤ 995 ∧ (∀ f ∈ files, f.bytes.length ≤ MAXFILE * 512) ∧
      16 * (files.length + 2) ≤ MAXFILE * 512 := by
  have hfree := h.free
  have hused : usedBefore = 29 := by decide
  constructor
  · rintro ⟨hle, hdata⟩
    refine ⟨by omega, ?_, ?_⟩
    · intro f hf
      obtain ⟨j, hj⟩ := List.mem_iff_getElem?.mp hf
      rw [← h.file_data j f hj]
      exact hdata (j + 2)
    · rw [← length_rootBytes, ← h.root_data]
      exact hdata ROOTINO
  · rintro ⟨hle, hdata, hroot⟩
    refine ⟨by omega, fun i => ?_⟩
    by_cases hi : i = ROOTINO
    · rw [hi, h.root_data, length_rootBytes]
      exact hroot
    by_cases hj : i = 0 ∨ v.next ≤ i
    · rw [hwf.file_none i hj]
      exact Nat.zero_le _
    · have hnext := h.next
      have hi1 : i ≠ 1 := hi
      obtain ⟨j, rfl⟩ : ∃ j, i = j + 2 := ⟨i - 2, by omega⟩
      have hlt : j < files.length := by omega
      rw [h.file_data j files[j] (List.getElem?_eq_getElem hlt)]
      exact hdata _ (List.getElem_mem hlt)

/-! ## Reading an image -/

/-- A file whose blocks hold all its bytes that are not 0. -/
structure File.Readable (f : File) : Prop where
  ind_ne_zero : f.ind ≠ 0 ↔ 12 < f.blocks.length
  blocks_le : f.blocks.length ≤ 140
  zero_notMem : 0 ∉ f.blocks
  rest : ∀ o, f.blocks.length ≤ o / 512 → f.data.getD o 0 = 0

theorem Fits.readable {v : Volume} (h : Fits v) (hwf : v.Wf usedBefore) (i : Nat) :
    (v.file i).Readable := by
  have hlen := (hwf.file_wf i).blocks_length
  have hdata : (v.file i).data.length ≤ 71680 := h.data_le i
  refine ⟨(hwf.file_wf i).ind_ne_zero, by omega, fun hz => ?_, fun o ho => ?_⟩
  · have hb : 29 ≤ 0 := (hwf.ref_bounds i 0 (mem_refs.mpr (Or.inl hz))).1
    omega
  · exact List.getD_eq_default _ _ (by omega)

theorem File.Readable.pad {f : File} (h : f.Readable) : f.pad.Readable where
  ind_ne_zero := h.ind_ne_zero
  blocks_le := h.blocks_le
  zero_notMem := h.zero_notMem
  rest o ho := (getD_append_zeros ..).trans (h.rest o ho)

section Read

variable {s : State} {v : Volume} {i : Nat}

/-- The addresses that an inode gives. -/
theorem Represents.bmap_eq (h : Represents s v) (hi : i < 208) (hf : (v.file i).Readable) {k : Nat}
    (hk : k < 140) : bmap s.img (dinode s.img i) k = (v.file i).blocks.getD k 0 := by
  have hin := h.inode i hi
  have hind : Dinode.addr (dinode s.img i) NDIRECT = (v.file i).ind := hin.ind
  unfold bmap
  split
  · next hdir => exact hin.addr k hdir
  · next hdir =>
    have hdir : ¬ k < 12 := hdir
    rw [hind]
    split
    · next hzero =>
      have hlen : ¬ 12 < (v.file i).blocks.length := fun hlt => hf.ind_ne_zero.mpr hlt hzero
      rw [List.getD_eq_default _ _ (by omega)]
    · next hne =>
      have hj := (h.filled i hi).ind hne (k - 12) (by omega)
      rwa [show 12 + (k - 12) = k by omega] at hj

/-- The bytes that a reader finds. -/
theorem Represents.fileByte_eq (h : Represents s v) (hi : i < 208) (hf : (v.file i).Readable)
    {o : Nat} (ho : o < 140 * 512) :
    fileByte s.img (dinode s.img i) o = (v.file i).data.getD o 0 := by
  have hmap := h.bmap_eq hi hf (show o / BSIZE < 140 by unfold BSIZE; omega)
  unfold fileByte
  rw [hmap]
  rcases Nat.lt_or_ge (o / 512) (v.file i).blocks.length with hk | hk
  · have hget : (v.file i).blocks[o / 512]? = some (v.file i).blocks[o / 512] :=
      List.getElem?_eq_getElem hk
    have hgetD : (v.file i).blocks.getD (o / BSIZE) 0 = (v.file i).blocks[o / 512] := by
      rw [List.getD_eq_getElem?_getD]
      exact congrArg (Option.getD · 0) hget
    have hne : (v.file i).blocks[o / 512] ≠ 0 := fun hz => hf.zero_notMem (hz ▸ List.getElem_mem hk)
    have hbyte := (h.filled i hi).data _ _ hget (o % 512) (Nat.mod_lt _ (by decide))
    rw [hgetD, if_neg hne]
    rwa [Nat.div_add_mod] at hbyte
  · have hgetD : (v.file i).blocks.getD (o / BSIZE) 0 = 0 := List.getD_eq_default _ _ hk
    rw [hgetD, if_pos rfl, hf.rest o hk]

/-- A reader finds the bytes of a file. -/
theorem Represents.contents_eq (h : Represents s v) (hi : i < 208) (hf : (v.file i).Readable)
    (hlen : (v.file i).data.length ≤ 140 * 512) : contents s.img i = (v.file i).data := by
  unfold contents
  rw [(h.inode i hi).size]
  apply List.ext_getElem
  · rw [List.length_map, List.length_range]
  · intro o ho ho'
    rw [List.getElem_map, List.getElem_range, h.fileByte_eq hi hf (by omega),
      List.getD_eq_getElem _ _ ho']

/-- The blocks that an inode refers to. -/
theorem Represents.references_eq (h : Represents s v) (hi : i < 208) (hf : (v.file i).Readable) :
    references s.img i = (v.file i).refs := by
  have hind : Dinode.addr (dinode s.img i) NDIRECT = (v.file i).ind := (h.inode i hi).ind
  have hmap : (List.range MAXFILE).map (bmap s.img (dinode s.img i)) =
      (v.file i).blocks ++ List.replicate (140 - (v.file i).blocks.length) 0 := by
    have hle := hf.blocks_le
    apply List.ext_getElem
    · simp only [List.length_map, List.length_range, List.length_append, List.length_replicate,
        MAXFILE]
      omega
    · intro k hk hk'
      have hk140 : k < 140 := by
        rw [List.length_map, List.length_range] at hk
        exact hk
      rw [List.getElem_map, List.getElem_range, h.bmap_eq hi hf hk140]
      rcases Nat.lt_or_ge k (v.file i).blocks.length with hlt | hge
      · rw [List.getElem_append_left hlt, List.getD_eq_getElem _ _ hlt]
      · rw [List.getElem_append_right hge, List.getElem_replicate, List.getD_eq_default _ _ hge]
  unfold references File.refs
  rw [hmap, hind, List.filter_append, List.filter_replicate]
  have hblocks : (v.file i).blocks.filter (· ≠ 0) = (v.file i).blocks :=
    List.filter_eq_self.mpr fun x hx => decide_eq_true fun hz => hf.zero_notMem (hz ▸ hx)
  rw [hblocks]
  simp

end Read

end Xv6Arm.Mkfs
