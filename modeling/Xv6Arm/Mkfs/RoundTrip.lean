import Xv6Arm.Mkfs.Contents

/-!
# The round trip through an image

What `mkfs` wrote is what a reader of the on-disk format finds: the root directory
with the names of the input files in order, and the bytes of each of them.  The
image is the same however the input files were read.
-/

namespace Xv6Arm.Mkfs

open Bytes Fs

/-! ## Directory entries -/

/-- The entries in a list of bytes that is made of two lists. -/
theorem dirents_append {a : List UInt8} {n : Nat} (ha : a.length = 16 * n) (b : List UInt8) :
    dirents (a ++ b) = dirents a ++ dirents b := by
  have hdiv : (a ++ b).length / 16 = n + b.length / 16 := by
    rw [List.length_append]
    omega
  have hdiv' : a.length / 16 = n := by omega
  unfold dirents
  rw [hdiv, hdiv', List.range_add, List.map_append, List.map_map]
  congr 1
  · apply List.map_congr_left
    intro j hj
    rw [List.mem_range] at hj
    funext i
    have hi := i.isLt
    rw [List.getD_append _ _ _ _ (by omega)]
  · apply List.map_congr_left
    intro j hj
    funext i
    show (a ++ b).getD (16 * (n + j) + i.val) 0 = _
    rw [List.getD_append_right _ _ _ _ (by omega)]
    congr 1
    omega

/-- The entries in a list of zeros are not in use. -/
theorem dirents_zeros (m : Nat) : ∀ e ∈ dirents (List.replicate m 0), Dirent.inum e = 0 := by
  intro e he
  obtain ⟨j, -, rfl⟩ := List.mem_map.mp he
  have hzero : (fun i : Fin 16 => (List.replicate m (0 : UInt8)).getD (16 * j + i.val) 0) =
      zeroBuf 16 := by
    funext i
    exact (getD_append_zeros [] m _).trans (List.getD_nil ..)
  rw [hzero]
  exact getLe_zeroBuf ..

/-- An entry that `mkfs` wrote. -/
theorem dirents_dirent (inum : Nat) (name : List UInt8) :
    dirents (dirent inum name) = [blit (putLe (zeroBuf 16) 0 2 inum) 2 (name.take DIRSIZ)] := by
  unfold dirents
  rw [length_dirent, show 16 / 16 = 1 from rfl, List.range_one, List.map_singleton]
  congr 1
  funext i
  unfold dirent
  rw [List.getD_eq_getElem _ _ (by rw [List.length_ofFn]; omega), List.getElem_ofFn]
  simp only [Nat.mul_zero, Nat.zero_add]

theorem inum_dirent {inum : Nat} (h : inum < 2 ^ 16) (name : List UInt8) :
    Dirent.inum (blit (putLe (zeroBuf 16) 0 2 inum) 2 name) = inum := by
  have hsame : getLe (blit (putLe (zeroBuf 16) 0 2 inum) 2 name) 0 2 =
      getLe (putLe (zeroBuf 16) 0 2 inum) 0 2 := by
    apply getLe_congr
    intro i _ hi
    rw [byteAt_blit _ (by omega), if_neg (by omega)]
  exact hsame.trans (getLe_putLe_of_lt _ (by decide) h)

theorem name_dirent (inum : Nat) {name : List UInt8} (hname : ∀ c ∈ name, c ≠ 0) :
    Dirent.name (blit (putLe (zeroBuf 16) 0 2 inum) 2 (name.take DIRSIZ)) = name.take DIRSIZ := by
  obtain ⟨l, hl⟩ : ∃ l, l = name.take DIRSIZ := ⟨_, rfl⟩
  have hlen : l.length ≤ 14 := hl ▸ List.length_take_le ..
  have hmem : ∀ c ∈ l, c ≠ 0 := fun c hc => hname c (List.mem_of_mem_take (hl ▸ hc))
  have hbytes : ((List.range DIRSIZ).map fun i =>
      byteAt (blit (putLe (zeroBuf 16) 0 2 inum) 2 l) (2 + i)) =
        l ++ List.replicate (14 - l.length) 0 := by
    apply List.ext_getElem
    · simp only [List.length_map, List.length_range, List.length_append, List.length_replicate, DIRSIZ]
      omega
    · intro i hi hi'
      rw [List.length_map, List.length_range, DIRSIZ] at hi
      rw [List.getElem_map, List.getElem_range, byteAt_blit _ (by omega), if_pos (by omega),
        Nat.add_sub_cancel_left, byteAt_putLe _ (by omega), if_neg (by omega), byteAt_zeroBuf]
      rcases Nat.lt_or_ge i l.length with hlt | hge
      · rw [List.getElem_append_left hlt, List.getElem?_eq_getElem hlt, Option.getD_some]
      · rw [List.getElem_append_right hge, List.getElem_replicate, List.getElem?_eq_none hge,
          Option.getD_none]
  unfold Dirent.name
  rw [← hl, hbytes, List.takeWhile_append_of_pos]
  · cases h : 14 - l.length with
    | zero => simp
    | succ m => simp [List.replicate_succ]
  · intro c hc
    simpa using hmem c hc

/-- What the root directory lists. -/
def listing (files : List Input) : List (Nat × List UInt8) :=
  (ROOTINO, [46]) :: (ROOTINO, [46, 46]) ::
    files.zipIdx.map fun p => (p.2 + 2, p.1.target.take DIRSIZ)

theorem target_ne_zero (f : Input) : ∀ c ∈ f.target, c ≠ 0 := by
  intro c hc
  have hname := f.name_ne_zero
  unfold Input.target at hc
  split at hc
  · next b cs heq =>
    rw [heq] at hname
    split at hc
    · exact hname c (List.mem_cons_of_mem b hc)
    · exact hname c hc
  · cases hc

/-- The entries of the root directory. -/
theorem dirents_rootBytes {files : List Input} (hlen : files.length + 2 < 2 ^ 16) :
    ((dirents (rootBytes files)).map fun e => (Dirent.inum e, Dirent.name e)) = listing files := by
  induction files using List.reverseRecOn with
  | nil =>
      have hroot : rootBytes [] = dirent ROOTINO [46] ++ dirent ROOTINO [46, 46] := by simp [rootBytes]
      rw [hroot, dirents_append (n := 1) (length_dirent ..), dirents_dirent, dirents_dirent]
      simp only [List.map_append, List.map_singleton]
      rw [inum_dirent (by decide), inum_dirent (by decide), name_dirent ROOTINO (by simp),
        name_dirent ROOTINO (by simp)]
      rfl
  | append_singleton files f ih =>
      rw [List.length_append, List.length_singleton] at hlen
      rw [rootBytes_append, dirents_append (length_rootBytes files), List.map_append,
        ih (by omega), dirents_dirent, List.map_singleton, inum_dirent (by omega),
        name_dirent _ (target_ne_zero f)]
      simp [listing, List.zipIdx_append]

/-! ## The image of the input files -/

section Image

variable {files : List Input} {s : State}

theorem finish_refs (v : Volume) (i : Nat) : (v.finish.file i).refs = (v.file i).refs := by
  unfold Volume.finish
  by_cases hi : i = ROOTINO
  · simp only [hi, Function.update_self]
    rfl
  · simp only [Function.update_of_ne hi]

theorem covered_finish (hlen : files.length ≤ 206) : Covered (volume files).finish := by
  have hnext := (describes_volume files).next
  have hcover := (volume_wf files).covered (by omega)
  intro x hlow hlt
  obtain ⟨i, hi, hx⟩ := hcover x hlow hlt
  exact ⟨i, hi, by rwa [finish_refs]⟩

theorem finish_readable {v : Volume} (hfits : Fits v) (hwf : v.Wf usedBefore) (i : Nat) :
    (v.finish.file i).Readable := by
  unfold Volume.finish
  by_cases hi : i = ROOTINO
  · simp only [hi, Function.update_self]
    exact (hfits.readable hwf ROOTINO).pad
  · simp only [Function.update_of_ne hi]
    exact hfits.readable hwf i

/-- The volume depends on the names and the bytes of the input files only. -/
theorem foldl_addFile_congr {files' : List Input} (v : Volume)
    (h : files'.map (fun f => (f.name, f.bytes)) = files.map fun f => (f.name, f.bytes)) :
    files'.foldl Volume.addFile v = files.foldl Volume.addFile v := by
  induction files generalizing files' v with
  | nil => rw [List.map_eq_nil_iff.mp h]
  | cons f fs ih =>
      obtain ⟨g, gs, rfl, hg, hgs⟩ := List.map_eq_cons_iff.mp h
      obtain ⟨hname, hbytes⟩ := Prod.mk.inj hg
      have hfile : v.addFile g = v.addFile f := by
        unfold Volume.addFile Input.target
        rw [hname, hbytes]
      rw [List.foldl_cons, List.foldl_cons, hfile]
      exact ih _ hgs

theorem volume_congr {files' : List Input}
    (h : files'.map (fun f => (f.name, f.bytes)) = files.map fun f => (f.name, f.bytes)) :
    volume files' = volume files :=
  foldl_addFile_congr rootVolume h

/-- What a reader finds in the image of the input files. -/
structure Reads (files : List Input) (img : Image) : Prop where
  super : superblock img = { size := size, nblocks := nblocks, ninodes := ninodes, nlog := nlog }
  root : Dinode.type (dinode img ROOTINO) = T_DIR
  listing : entries img ROOTINO = listing files
  file : ∀ j f, files[j]? = some f → Dinode.type (dinode img (j + 2)) = T_FILE ∧
    Dinode.size (dinode img (j + 2)) = f.bytes.length ∧ contents img (j + 2) = f.bytes

theorem superblock_eq {img : Image} (h : img 1 = superBlock) :
    superblock img = { size := size, nblocks := nblocks, ninodes := ninodes, nlog := nlog } := by
  unfold superblock
  rw [h]
  unfold superBlock
  simp only [Superblock.mk.injEq]
  refine ⟨?_, ?_, ?_, getLe_putLe_of_lt _ (by decide) (by decide)⟩
  · rw [getLe_putLe_of_disjoint _ (by decide) (by decide),
      getLe_putLe_of_disjoint _ (by decide) (by decide),
      getLe_putLe_of_disjoint _ (by decide) (by decide), getLe_putLe_of_lt _ (by decide) (by decide)]
  · rw [getLe_putLe_of_disjoint _ (by decide) (by decide),
      getLe_putLe_of_disjoint _ (by decide) (by decide), getLe_putLe_of_lt _ (by decide) (by decide)]
  · rw [getLe_putLe_of_disjoint _ (by decide) (by decide), getLe_putLe_of_lt _ (by decide) (by decide)]

/-- A reader finds the input files in the image of their volume. -/
theorem Represents.reads (h : Represents s (volume files).finish) (hfits : Fits (volume files))
    (hlen : files.length ≤ 206) : Reads files s.img := by
  have hdesc := describes_volume files
  have hread := finish_readable hfits (volume_wf files)
  have hself : (volume files).finish.file ROOTINO = ((volume files).file ROOTINO).pad := by
    simp [Volume.finish]
  have hother : ∀ j, (volume files).finish.file (j + 2) = (volume files).file (j + 2) := by
    intro j
    have hne : j + 2 ≠ ROOTINO := by
      unfold ROOTINO
      omega
    simp [Volume.finish, hne]
  refine ⟨superblock_eq h.super, ?_, ?_, ?_⟩
  · rw [(h.inode ROOTINO (by decide)).type, hself]
    exact hdesc.root_type
  · have hdata : ((volume files).finish.file ROOTINO).data = rootBytes files ++
        List.replicate (BSIZE - (rootBytes files).length % BSIZE) 0 := by
      rw [hself, ← hdesc.root_data]
      rfl
    have hbytes := h.contents_eq (i := ROOTINO) (by decide) (hread ROOTINO) (by
      rw [hdata, List.length_append, List.length_replicate, length_rootBytes]
      unfold BSIZE
      omega)
    unfold entries
    rw [hbytes, hdata, dirents_append (length_rootBytes files), List.map_append, List.filter_append,
      dirents_rootBytes (by omega)]
    have hzeros : (((dirents (List.replicate (BSIZE - (rootBytes files).length % BSIZE) 0)).map
        fun e => (Dirent.inum e, Dirent.name e)).filter (·.1 ≠ 0)) = [] := by
      apply List.filter_eq_nil_iff.mpr
      intro p hp
      obtain ⟨e, he, rfl⟩ := List.mem_map.mp hp
      simp [dirents_zeros _ e he]
    have hlist : (Mkfs.listing files).filter (·.1 ≠ 0) = Mkfs.listing files := by
      apply List.filter_eq_self.mpr
      intro p hp
      simp only [Mkfs.listing, List.mem_cons, List.mem_map] at hp
      rcases hp with rfl | rfl | ⟨q, -, rfl⟩ <;> simp [ROOTINO]
    rw [hzeros, hlist, List.append_nil]
  · intro j f hj
    have hjl := (List.getElem?_eq_some_iff.mp hj).1
    have hdata := hdesc.file_data j f hj
    have hin := h.inode (j + 2) (by omega)
    rw [hother] at hin
    refine ⟨hin.type.trans (hdesc.file_type j hjl), hin.size.trans (congrArg List.length hdata), ?_⟩
    have hlen' := hfits.data_le (j + 2)
    rw [h.contents_eq (by omega) (hread _) (by rw [hother]; exact hlen'), hother, hdata]

end Image

/-- `mkfs` makes the image of its volume if there is room for it. -/
theorem mkfs_of_fits {files : List Input} (hlen : files.length ≤ 214)
    (hslash : ∀ f ∈ files, 47 ∉ f.name) (hfits : Fits (volume files)) :
    ∃ s, mkfs files = .ok s ∧ Represents s (volume files).finish := by
  rcases mkfs_run hlen hslash with ⟨-, s, hrun, hs⟩ | ⟨hno, -⟩
  · exact ⟨s, hrun, hs⟩
  · exact absurd hfits hno

/-- The round trip: if the input files fit the data area and the inodes, a reader of the image
finds them, and the image depends on their names and bytes only. -/
theorem mkfs_roundtrip {files : List Input} (hslash : ∀ f ∈ files, 47 ∉ f.name)
    (hsize : ∀ f ∈ files, f.bytes.length ≤ MAXFILE * 512) (hinodes : files.length + 2 ≤ ninodes)
    (hblocks : blocksNeeded files ≤ nblocks) :
    ∃ s, mkfs files = .ok s ∧ Reads files s.img ∧ ∀ files' : List Input,
      files'.map (fun f => (f.name, f.bytes)) = files.map (fun f => (f.name, f.bytes)) →
        mkfs files' = .ok s := by
  have hinodes : files.length + 2 ≤ 200 := hinodes
  have hblocks : blocksNeeded files ≤ 985 := hblocks
  have hroot : 16 * (files.length + 2) ≤ MAXFILE * 512 := by
    unfold MAXFILE
    omega
  have hfits : Fits (volume files) :=
    ((describes_volume files).fits (volume_wf files)).mpr ⟨by omega, hsize, hroot⟩
  obtain ⟨s, hrun, hs⟩ := mkfs_of_fits (by omega) hslash hfits
  refine ⟨s, hrun, hs.reads hfits (by omega), fun files' hsame => ?_⟩
  have hlen : files'.length = files.length := by
    have hmap := congrArg List.length hsame
    rwa [List.length_map, List.length_map] at hmap
  have hslash' : ∀ f ∈ files', 47 ∉ f.name := by
    intro f hf
    have hmem : (f.name, f.bytes) ∈ files'.map fun f => (f.name, f.bytes) := List.mem_map_of_mem hf
    rw [hsame] at hmem
    obtain ⟨g, hg, heq⟩ := List.mem_map.mp hmem
    rw [← (Prod.mk.inj heq).1]
    exact hslash g hg
  have hvol := volume_congr hsame
  obtain ⟨s', hrun', hs'⟩ := mkfs_of_fits (by omega) hslash' (hvol.symm ▸ hfits)
  rw [hvol] at hs'
  rw [hrun', hs'.unique hs (covered_finish (by omega))]

/-- The file `_cat` with three bytes, read in two pieces. -/
def catFile : Input where
  name := [95, 99, 97, 116]
  chunks := [[1, 2], [3]]
  name_ne_zero := by simp
  chunk_length := by simp

theorem mkfs_roundtrip_cat :
    ∃ s, mkfs [catFile] = .ok s ∧ Reads [catFile] s.img ∧ contents s.img 2 = [1, 2, 3] ∧
      entries s.img ROOTINO = [(1, [46]), (1, [46, 46]), (2, [99, 97, 116])] := by
  obtain ⟨s, hrun, hreads, -⟩ := @mkfs_roundtrip [catFile] (by decide) (by decide) (by decide)
    (by decide)
  exact ⟨s, hrun, hreads, (hreads.file 0 catFile rfl).2.2, hreads.listing⟩

end Xv6Arm.Mkfs
