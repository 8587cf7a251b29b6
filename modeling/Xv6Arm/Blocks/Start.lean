import Mathlib.Order.Interval.Finset.Nat
import Xv6Arm.Mkfs.Holes
import Xv6Arm.Blocks.Volume

/-!
# Volumes that mkfs makes

The kernel starts from an image of `mkfs`.  Such an image holds the inodes that a
reader finds in it (`mkfs_holds`), if the root directory has no hole and the inodes
and blocks are within their limits.  A run of the kernel on it is a run of the
specification, and what a reader finds in the image afterwards is what the
specification says.

The bits of the log are 0 in such an image.  The kernel keeps its files out of the
log as long as they fit into the blocks before it, and not longer.
-/

namespace Xv6Arm.Blocks

open Bytes Fs Mkfs Fallible Splice

variable {Z : Zone} {s : Core} {A : Files} {fs : Nat → File} {i j k : Nat}

/-! ## What a reader finds -/

theorem Holds.addr_eq (h : Holds Z s A fs) (hi : i < Z.sb.ninodes) :
    Dinode.addr (dinode s.vol.disk i) = addrsOf (fs i) := congrArg Inode.addrs (h.inode_eq hi)

theorem Holds.blocks_le (h : Holds Z s A fs) (hi : i < Z.sb.ninodes) :
    (fs i).blocks.length ≤ 140 := by
  have hlie := h.lies i hi
  have hshort : (A i).data.length ≤ 140 * 512 := hlie.short
  rw [hlie.wf.blocks_length, hlie.data]
  omega

/-- The addresses that an inode gives. -/
theorem Holds.bmap_eq (h : Holds Z s A fs) (hi : i < Z.sb.ninodes) (hk : k < 140) :
    Fs.bmap s.vol.disk (dinode s.vol.disk i) k = (fs i).blocks.getD k 0 := by
  have hind : addrsOf (fs i) NDIRECT = (fs i).ind := by
    rw [addrsOf, if_neg (by decide), if_pos rfl]
  unfold Fs.bmap
  rw [h.addr_eq hi, hind]
  split
  · next hdir => rw [addrsOf, if_pos hdir]
  · next hdir =>
    have hdir : ¬ k < 12 := hdir
    split
    · next hzero =>
      have hlen : ¬ 12 < (fs i).blocks.length := fun hlt => (h.owns i hi).ind_ne_zero hlt hzero
      rw [List.getD_eq_default _ _ (by omega)]
    · next hne =>
      have hj := (h.owns i hi).filled.ind hne (k - 12) (by omega)
      rwa [show 12 + (k - 12) = k by omega] at hj

theorem Holds.block_ne_zero (h : Holds Z s A fs) (hi : i < Z.sb.ninodes) {x : Nat}
    (hx : x ∈ (fs i).blocks) : x ≠ 0 :=
  ((h.owns i hi).uses.outside (h.fixed.others fs i) (mem_refs.mpr (.inl hx))).1

/-- The bytes that a reader finds. -/
theorem Holds.contents_eq (h : Holds Z s A fs) (hi : i < Z.sb.ninodes) :
    contents s.vol.disk i = (A i).data := by
  have hlie := h.lies i hi
  have hsize : Dinode.size (dinode s.vol.disk i) = (A i).data.length := by
    rw [← hlie.data]
    exact congrArg Inode.size (h.inode_eq hi)
  have hshort : (A i).data.length ≤ 140 * 512 := hlie.short
  have hlen := hlie.wf.blocks_length
  unfold contents
  rw [hsize]
  apply List.ext_getElem
  · rw [List.length_map, List.length_range]
  · intro o ho ho'
    have hk : o / 512 < (fs i).blocks.length := by
      rw [hlen, hlie.data]
      omega
    have hmap := h.bmap_eq hi (show o / BSIZE < 140 by unfold BSIZE; omega)
    have hgetD : (fs i).blocks.getD (o / BSIZE) 0 = (fs i).blocks[o / 512] :=
      List.getD_eq_getElem _ _ hk
    have hne := h.block_ne_zero hi (List.getElem_mem hk)
    have hbyte := (h.owns i hi).filled.data _ _ (List.getElem?_eq_getElem hk) (o % 512)
      (Nat.mod_lt _ (by decide))
    rw [List.getElem_map, List.getElem_range, fileByte, hmap, hgetD, if_neg hne]
    rw [Nat.div_add_mod, hlie.data, List.getD_eq_getElem _ _ ho'] at hbyte
    exact hbyte

/-- The blocks that an inode refers to. -/
theorem Holds.references_eq (h : Holds Z s A fs) (hi : i < Z.sb.ninodes) :
    references s.vol.disk i = (fs i).refs := by
  have hind : Dinode.addr (dinode s.vol.disk i) NDIRECT = (fs i).ind := by
    rw [h.addr_eq hi, addrsOf, if_neg (by decide), if_pos rfl]
  have hle := h.blocks_le hi
  have hmap : (List.range MAXFILE).map (Fs.bmap s.vol.disk (dinode s.vol.disk i)) =
      (fs i).blocks ++ List.replicate (140 - (fs i).blocks.length) 0 := by
    apply List.ext_getElem
    · simp only [List.length_map, List.length_range, List.length_append, List.length_replicate,
        MAXFILE]
      omega
    · intro k hk hk'
      have hk140 : k < 140 := by
        rw [List.length_map, List.length_range] at hk
        exact hk
      rw [List.getElem_map, List.getElem_range, h.bmap_eq hi hk140]
      rcases Nat.lt_or_ge k (fs i).blocks.length with hlt | hge
      · rw [List.getElem_append_left hlt, List.getD_eq_getElem _ _ hlt]
      · rw [List.getElem_append_right hge, List.getElem_replicate, List.getD_eq_default _ _ hge]
  have hblocks : (fs i).blocks.filter (· ≠ 0) = (fs i).blocks :=
    List.filter_eq_self.mpr fun x hx => decide_eq_true (h.block_ne_zero hi hx)
  unfold references File.refs
  rw [hmap, hind, List.filter_append, List.filter_replicate, hblocks]
  simp

/-! ## The images of mkfs -/

/-- Where the kernel finds blocks on an image of `mkfs`, below a limit. -/
def mkfsZone (lim : Nat) : Zone where
  sb := { size := size, nblocks := nblocks, ninodes := ninodes, nlog := nlog }
  lim := lim
  taken := fun b => b < usedBefore

/-- The inodes that a reader finds in an image. -/
def nodesOf (img : Image) : Files := fun i =>
  { type := Dinode.type (dinode img i), major := Dinode.major (dinode img i),
    minor := Dinode.minor (dinode img i), nlink := Dinode.nlink (dinode img i),
    data := contents img i }

/-- The kernel after it has booted from an image. -/
def Core.boot (img : Image) : Core := { vol := { disk := img, logged := [] }, icache := fun _ => none }

theorem mkfsZone_fixed {lim : Nat} (hlim : lim ≤ size) : (mkfsZone lim).Fixed where
  lim_le := hlim
  boot := show 0 < 29 by decide
  super := show 1 < 29 by decide
  inodes i hi := by
    have hi : i < 200 := hi
    show i / 8 + 2 < 29
    omega
  bitmap x hx := by
    obtain ⟨b, hb, rfl⟩ := hx
    have hb : b < 1024 := hb
    have hblock : BBLOCK b ninodes = 28 := by
      show b / 4096 + 25 + 3 = 28
      omega
    show BBLOCK b ninodes < 29
    omega

theorem room_mkfsZone (lim : Nat) : room (mkfsZone lim) = lim - usedBefore := by
  classical
  rw [← Nat.card_Ico, room]
  congr 1
  ext b
  refine Finset.mem_filter.trans ?_
  rw [Finset.mem_range, Finset.mem_Ico]
  show b < lim ∧ ¬ b < usedBefore ↔ _
  omega

/-- The bit that the kernel sees is that of `mkfs`. -/
theorem bit_mkfsZone (lim : Nat) (img : Image) (b : Nat) :
    bit (mkfsZone lim).sb img b = Mkfs.bit img b := by
  have hmod : b % BPB % 8 = b % 8 := by
    show b % 4096 % 8 = b % 8
    omega
  rw [bit, bitAt, hmod]
  rfl

section Image

variable {files : List Input} {m : Mkfs.State}

/-- The files of the volume have the blocks that their bytes need, if the entries do
not fill the last block of the root directory. -/
theorem finish_wf (hholes : (files.length + 2) % 32 ≠ 0) (i : Nat) :
    ((volume files).finish.file i).Wf := by
  have hwf := (volume_wf files).file_wf i
  by_cases hi : i = ROOTINO
  · subst hi
    obtain ⟨hdata, hblocks⟩ := finish_root files
    refine ⟨by rw [hdata, hblocks]; omega, ?_⟩
    have hind := hwf.ind_ne_zero
    simp only [Volume.finish, Function.update_self]
    exact hind
  · have hsame : (volume files).finish.file i = (volume files).file i := by
      simp [Volume.finish, hi]
    rw [hsame]
    exact hwf

/-- A file of the volume that is not in use has no bytes. -/
theorem finish_unused (i : Nat) (htype : ((volume files).finish.file i).type = 0) :
    ((volume files).finish.file i).data = [] := by
  have hdesc := describes_volume files
  by_cases hi : i = ROOTINO
  · subst hi
    have hroot : ((volume files).finish.file ROOTINO).type = T_DIR := by
      simp only [Volume.finish, Function.update_self]
      exact hdesc.root_type
    rw [hroot] at htype
    cases htype
  · have hsame : (volume files).finish.file i = (volume files).file i := by
      simp [Volume.finish, hi]
    rw [hsame] at htype ⊢
    rcases Nat.lt_or_ge i (files.length + 2) with hlt | hge
    · rcases Nat.eq_zero_or_pos i with hzero | hpos
      · rw [(volume_wf files).file_none i (.inl hzero)]
        rfl
      · have hi : i ≠ 1 := hi
        have hfile := hdesc.file_type (i - 2) (by omega)
        rw [show i - 2 + 2 = i by omega, htype] at hfile
        cases hfile
    · rw [(volume_wf files).file_none i (.inr (by rw [hdesc.next]; exact hge))]
      rfl

/-- The inode of a file of the image. -/
theorem inodeAt_stores {img : Image} {f : File} (h : Stores f (dinode img i)) :
    inodeAt img i = (nodesOf img i).inode i f := by
  have haddrs : Dinode.addr (dinode img i) = addrsOf f := by
    funext k
    unfold addrsOf
    split
    · next hk => exact h.addr k hk
    · split
      · next hk =>
        subst hk
        exact h.ind
      · next hk hne =>
        exact (load_fits 0 (dinode img i)).rest k (Nat.lt_of_le_of_ne (Nat.le_of_not_lt hk)
          (Ne.symm hne))
  rw [inodeAt, Inode.load, haddrs, h.size]
  rfl

/-- The blocks of an image before the first free one are those before the data and
those of its files. -/
theorem lt_free_iff (hfew : files.length + 2 ≤ 200) {b : Nat} :
    b < (volume files).free ↔
      b < usedBefore ∨ ∃ j, j < 200 ∧ b ∈ ((volume files).finish.file j).refs := by
  have hvol := volume_wf files
  constructor
  · intro hlt
    rcases Nat.lt_or_ge b usedBefore with hlow | hlow
    · exact .inl hlow
    · obtain ⟨j, hj⟩ := hvol.ref_cover b hlow hlt
      refine .inr ⟨j, ?_, by rwa [finish_refs]⟩
      by_contra hge
      rw [hvol.file_none j (.inr (by rw [(describes_volume files).next]; omega))] at hj
      cases hj
  · rintro (hlow | ⟨j, -, hj⟩)
    · exact Nat.lt_of_lt_of_le hlow hvol.low_le
    · rw [finish_refs] at hj
      exact (hvol.ref_bounds j b hj).2

/-- The files of an image have their blocks to themselves. -/
theorem mkfs_owns (h : mkfs files = .ok m) (hs : Represents m (volume files).finish)
    (hfew : files.length + 2 ≤ 200) {lim : Nat} (hlim : lim ≤ size)
    (hroom : (volume files).free ≤ lim) (hi : i < 200) :
    Owns ((mkfsZone lim).others (volume files).finish.file i) m.img
      ((volume files).finish.file i) := by
  have hvol := volume_wf files
  have hrefs := finish_refs (volume files) i
  refine ⟨⟨superblock_eq hs.super, fun b hb => ?_, fun b hb => ?_, ?_⟩, fun hlt => ?_,
    hs.filled i (by omega)⟩
  · show bit (mkfsZone lim).sb m.img b = true ↔ _
    rw [bit_mkfsZone, bit_eq h (Nat.lt_of_lt_of_le hb hlim), decide_eq_true_iff, hs.usedblocks]
    refine (lt_free_iff hfew).trans ?_
    show _ ↔ (b < usedBefore ∨ ∃ j, j < 200 ∧ j ≠ i ∧ _) ∨ _
    rw [or_assoc]
    refine or_congr_right ⟨?_, ?_⟩
    · rintro ⟨j, hj, hmem⟩
      by_cases hji : j = i
      · exact .inr (hji ▸ hmem)
      · exact .inl ⟨j, hj, hji, hmem⟩
    · rintro (⟨j, hj, -, hmem⟩ | hmem)
      · exact ⟨j, hj, hmem⟩
      · exact ⟨i, hi, hmem⟩
  · rw [hrefs] at hb
    obtain ⟨hlow, hhigh⟩ := hvol.ref_bounds i b hb
    refine ⟨Nat.lt_of_lt_of_le hhigh hroom, ?_⟩
    rintro (hlt | ⟨j, -, hne, hj⟩)
    · exact absurd hlt (Nat.not_lt_of_le hlow)
    · rw [finish_refs] at hj
      exact hne (hvol.ref_inj j i b hj hb)
  · rw [hrefs]
    exact hvol.ref_nodup i
  · have hwf := (hvol.file_wf i).ind_ne_zero
    by_cases hroot : i = ROOTINO
    · subst hroot
      simp only [Volume.finish, Function.update_self] at hlt ⊢
      exact hwf.mpr hlt
    · simp only [Volume.finish, Function.update_of_ne hroot] at hlt ⊢
      exact hwf.mpr hlt

/-- An image of `mkfs` holds the inodes that a reader finds in it. -/
theorem mkfs_holds (h : mkfs files = .ok m) (hfew : files.length + 2 ≤ ninodes)
    (hholes : (files.length + 2) % 32 ≠ 0) {lim : Nat} (hlim : lim ≤ size)
    (hroom : usedBefore + blocksNeeded files ≤ lim) :
    Holds (mkfsZone lim) (Core.boot m.img) (nodesOf m.img) (volume files).finish.file := by
  have hfew : files.length + 2 ≤ 200 := hfew
  obtain ⟨hfits, hs⟩ := represents_of_mkfs h (by omega)
  rw [← (describes_volume files).free] at hroom
  refine ⟨mkfsZone_fixed hlim, superblock_eq hs.super,
    fun i hi => mkfs_owns h hs hfew hlim hroom hi, fun i hi => ?_, nofun⟩
  have hi : i < 200 := hi
  have hi : i < 208 := by omega
  have hread := finish_readable hfits (volume_wf files) i
  have hwf := finish_wf hholes i
  have hshort : ((volume files).finish.file i).data.length ≤ 140 * 512 := by
    have hle := hread.blocks_le
    rw [hwf.blocks_length] at hle
    omega
  have hcontents := hs.contents_eq hi hread hshort
  have hstores := hs.inode i hi
  refine ⟨hwf, hcontents.symm, ?_, inodeAt_stores hstores, fun htype => ?_⟩
  · show (contents m.img i).length ≤ _
    rw [hcontents]
    exact hshort
  · show contents m.img i = []
    rw [hcontents]
    exact finish_unused i (hstores.type.symm.trans htype)

/-- `mkfs` fails when it runs out of blocks. -/
theorem mkfs_room (h : mkfs files = .ok m) (hfew : files.length + 2 ≤ ninodes) :
    usedBefore + blocksNeeded files ≤ size := by
  have hfew : files.length + 2 ≤ 200 := hfew
  obtain ⟨hfits, -⟩ := represents_of_mkfs h (by omega)
  rw [← (describes_volume files).free]
  exact hfits.free_le

/-- The volume without files has the root directory only. -/
theorem finish_empty (hi : i ≠ ROOTINO) : (volume []).finish.file i = File.none := by
  have hsame : (volume []).finish.file i = (volume []).file i := by
    simp [Volume.finish, hi]
  have hi : i ≠ 1 := hi
  have hnext : (volume []).next = 2 := describes_root.next
  rw [hsame, (volume_wf []).file_none i (by omega)]

theorem nodesOf_unused (h : mkfs [] = .ok m) (hi : i < ninodes) (hne : i ≠ ROOTINO) :
    (nodesOf m.img i).type = 0 := by
  have hi : i < 200 := hi
  refine ((represents_of_mkfs h (by decide)).2.inode i (by omega)).type.trans ?_
  rw [finish_empty hne]
  rfl

/-- The inodes in the image without files: only the root directory has bytes. -/
theorem nodesOf_empty (h : mkfs [] = .ok m) :
    (nodesOf m.img ROOTINO).type = T_DIR ∧
      (nodesOf m.img ROOTINO).data = rootBytes [] ++ List.replicate 480 0 ∧
      ∀ i, i < ninodes → i ≠ ROOTINO → (nodesOf m.img i).data = [] := by
  have hholds := mkfs_holds h (by decide) (by decide) (Nat.le_refl size) (by decide)
  obtain ⟨-, hs⟩ := represents_of_mkfs h (by decide)
  have hself : (volume []).finish.file ROOTINO = ((volume []).file ROOTINO).pad := by
    simp [Volume.finish]
  refine ⟨?_, ?_, fun i hi hne => ?_⟩
  · refine (hs.inode ROOTINO (by decide)).type.trans ?_
    rw [hself]
    exact describes_root.root_type
  · rw [← (hholds.lies ROOTINO (by decide)).data, hself]
    have hdata : ((volume []).file ROOTINO).data = rootBytes [] := describes_root.root_data
    show ((volume []).file ROOTINO).data ++ List.replicate _ 0 = _
    rw [hdata, length_rootBytes]
    rfl
  · rw [← (hholds.lies i hi).data, finish_empty hne]
    rfl

end Image

/-! ## Runs of the kernel -/

/-- A reader finds the inodes `A` on the disk.  The blocks of files are data blocks before `lim`, no
block is used twice, and below `lim` the bitmap marks the blocks before the data, the blocks of files,
and no others. -/
structure Consistent (lim : Nat) (disk : Image) (A : Files) : Prop where
  nodes : ∀ i, i < ninodes → nodesOf disk i = A i
  data : ∀ i, i < ninodes → ∀ x ∈ references disk i, usedBefore ≤ x ∧ x < lim
  nodup : ∀ i, i < ninodes → (references disk i).Nodup
  apart : ∀ i j, i < ninodes → j < ninodes → ∀ x, x ∈ references disk i → x ∈ references disk j →
    i = j
  bits : ∀ b, b < lim →
    (Mkfs.bit disk b = true ↔ b < usedBefore ∨ ∃ i, i < ninodes ∧ b ∈ references disk i)

theorem Holds.nodes_eq (h : Holds Z s A fs) (hi : i < Z.sb.ninodes) :
    nodesOf s.vol.disk i = A i := by
  have hinode := h.inode_eq hi
  have htype : Dinode.type (dinode s.vol.disk i) = (A i).type := congrArg Inode.type hinode
  have hmajor : Dinode.major (dinode s.vol.disk i) = (A i).major := congrArg Inode.major hinode
  have hminor : Dinode.minor (dinode s.vol.disk i) = (A i).minor := congrArg Inode.minor hinode
  have hnlink : Dinode.nlink (dinode s.vol.disk i) = (A i).nlink := congrArg Inode.nlink hinode
  rw [nodesOf, htype, hmajor, hminor, hnlink, h.contents_eq hi]

/-- A block belongs to one file. -/
theorem Holds.apart (h : Holds Z s A fs) (hi : i < Z.sb.ninodes) (hj : j < Z.sb.ninodes) {x : Nat}
    (hxi : x ∈ (fs i).refs) (hxj : x ∈ (fs j).refs) : i = j := by
  by_contra hne
  exact ((h.owns i hi).uses.own x hxi).2 (.inr ⟨j, hj, Ne.symm hne, hxj⟩)

theorem Holds.consistent {lim : Nat} (h : Holds (mkfsZone lim) s A fs) :
    Consistent lim s.vol.disk A where
  nodes i hi := h.nodes_eq hi
  data i hi x hx := by
    rw [h.references_eq hi] at hx
    obtain ⟨hlt, hnot⟩ := (h.owns i hi).uses.own x hx
    exact ⟨Nat.le_of_not_lt fun hlow => hnot (.inl hlow), hlt⟩
  nodup i hi := by
    rw [h.references_eq hi]
    exact (h.owns i hi).uses.nodup
  apart i j hi hj x hxi hxj := by
    rw [h.references_eq hi] at hxi
    rw [h.references_eq hj] at hxj
    exact h.apart hi hj hxi hxj
  bits b hb := by
    have hroot : 1 < ninodes := by decide
    rw [← bit_mkfsZone lim]
    refine ((h.owns 1 hroot).uses.bits b hb).trans ?_
    show (b < usedBefore ∨ ∃ j, j < ninodes ∧ j ≠ 1 ∧ _) ∨ _ ↔ _
    rw [or_assoc]
    refine or_congr_right ⟨?_, ?_⟩
    · rintro (⟨j, hj, -, hmem⟩ | hmem)
      · exact ⟨j, hj, by rwa [h.references_eq hj]⟩
      · exact ⟨1, hroot, by rwa [h.references_eq hroot]⟩
    · rintro ⟨j, hj, hmem⟩
      rw [h.references_eq hj] at hmem
      by_cases hone : j = 1
      · exact .inr (hone ▸ hmem)
      · exact .inl ⟨j, hj, hone, hmem⟩

/-- The kernel on an image of `mkfs` does what the specification says, with room for the blocks
behind those of `mkfs` itself.  It returns the same results and leaves a consistent volume with
the same inodes, or it panics with the same message. -/
theorem kernel_refines_files {files : List Input} {m : Mkfs.State} (h : mkfs files = .ok m)
    (hfew : files.length + 2 ≤ ninodes) (hholes : (files.length + 2) % 32 ≠ 0)
    (devsw : Devsw) (ops : List Op)
    (hops : AllowedOps ninodes (size - usedBefore) ops (nodesOf m.img)) :
    (∀ rs A, specOps ninodes (size - usedBefore) ops (nodesOf m.img) = .ok (rs, A) →
      ∃ s, (runOps devsw ops).run (Core.boot m.img) = .ok (rs, s) ∧ Consistent size s.vol.disk A) ∧
    (∀ msg, specOps ninodes (size - usedBefore) ops (nodesOf m.img) = .error msg →
      (runOps devsw ops).run (Core.boot m.img) = .error msg) := by
  have hholds := mkfs_holds h hfew hholes (Nat.le_refl size) (mkfs_room h hfew)
  rw [← room_mkfsZone size] at hops
  obtain ⟨hok, herror⟩ := hholds.run devsw ops hops
  rw [← room_mkfsZone size]
  refine ⟨fun rs A hspec => ?_, fun msg hspec => herror msg hspec rfl⟩
  obtain ⟨s, fs, -, hrun, hs, -⟩ := hok rs A hspec
  exact ⟨s, hrun, hs.consistent⟩

theorem length_root {m : Mkfs.State} (h : mkfs [] = .ok m) :
    (nodesOf m.img ROOTINO).data.length = 512 := by
  obtain ⟨-, hdata, -⟩ := nodesOf_empty h
  rw [hdata, List.length_append, length_rootBytes, List.length_replicate]
  rfl

/-- The blocks in use when only the root directory has bytes, and has one block. -/
theorem usedBlocks_root (hother : ∀ i, i < ninodes → i ≠ ROOTINO → (A i).data = []) {e : Node}
    (he : e.data.length = 512) : usedBlocks ninodes (Function.update A ROOTINO e) = 1 := by
  rw [usedBlocks, Finset.sum_eq_single ROOTINO]
  · rw [Function.update_self, he]
    rfl
  · intro i hi hne
    rw [Function.update_of_ne hne, hother i (Finset.mem_range.mp hi) hne]
    rfl
  · exact fun hmem => absurd (Finset.mem_range.mpr (by decide)) hmem

/-- Bytes that were written are read. -/
theorem readAt_splice {d src : List UInt8} {off : Nat} (hoff : off ≤ d.length)
    (hlt : off + src.length < 2 ^ 32) :
    readAt (splice d off src) off src.length = ((src.length : Int), src) := by
  have hlen : off ≤ (splice d off src).length := by
    rw [length_splice hoff]
    omega
  rw [readAt, if_neg (by omega), take_drop_splice hoff]

/-- The entry of `a`, read where it was written. -/
theorem readAt_entry {d : List UInt8} (hd : 32 ≤ d.length) :
    readAt (splice d 32 (dirent 2 [97])) 32 16 = (16, dirent 2 [97]) := by
  have hlt : 32 + (dirent 2 [97]).length < 2 ^ 32 := by
    rw [length_dirent]
    decide
  have hread := readAt_splice hd hlt
  rwa [length_dirent] at hread

/-- Writes an entry behind `.` and `..` of the root directory and reads it. -/
def linkEntry : List Op :=
  [.write ROOTINO (dirent 2 [97]) 32, .read ROOTINO 32 16]

theorem linkEntry_spec {m : Mkfs.State} (h : mkfs [] = .ok m) : ∃ A, ∀ cap, 1 ≤ cap →
    AllowedOps ninodes cap linkEntry (nodesOf m.img) ∧
      specOps ninodes cap linkEntry (nodesOf m.img) =
        .ok ([(16, []), (16, dirent 2 [97])], A) := by
  obtain ⟨htype, -, -⟩ := nodesOf_empty h
  have hlen := length_root h
  have hwrite : writeAt (nodesOf m.img ROOTINO).data 32 (dirent 2 [97]) =
      (16, splice (nodesOf m.img ROOTINO).data 32 (dirent 2 [97])) := by
    rw [writeAt, if_neg (by rw [hlen, length_dirent]; decide), length_dirent]
    rfl
  generalize he : { nodesOf m.img ROOTINO with
    data := splice (nodesOf m.img ROOTINO).data 32 (dirent 2 [97]) : Node } = e
  have hedata : e.data = splice (nodesOf m.img ROOTINO).data 32 (dirent 2 [97]) := by rw [← he]
  have helen : e.data.length = 512 := by
    rw [hedata, length_splice (by omega), hlen, length_dirent]
    rfl
  have hused : usedBlocks ninodes (Function.update (nodesOf m.img) ROOTINO e) = 1 :=
    usedBlocks_root (nodesOf_empty h).2.2 helen
  have hread : readAt e.data 32 16 = (16, dirent 2 [97]) := by
    rw [hedata]
    exact readAt_entry (by omega)
  refine ⟨Function.update (nodesOf m.img) ROOTINO e, fun cap hcap => ?_⟩
  have hspec : (Op.write ROOTINO (dirent 2 [97]) 32).spec ninodes cap (nodesOf m.img) =
      .ok ((16, []), Function.update (nodesOf m.img) ROOTINO e) := by
    rw [Op.spec, hwrite, he, hused, if_pos hcap]
  refine ⟨⟨⟨by decide, by rw [htype]; decide, by rw [htype]; decide, by decide, ?_⟩, ?_⟩, ?_⟩
  · rw [length_dirent]
    decide
  · intro r A' heq
    rw [hspec] at heq
    cases heq
    refine ⟨⟨by decide, ?_, ?_, by decide, by decide⟩, fun _ _ _ => trivial⟩
    · rw [Function.update_self, ← he, htype]
      decide
    · rw [Function.update_self, ← he, htype]
      decide
  · rw [linkEntry, specOps, hspec, ok_bind]
    simp only [specOps, Op.spec, Function.update_self, hread, ok_bind]
    rfl

theorem kernel_refines_files_linkEntry : ∃ m s A, mkfs [] = .ok m ∧
    (runOps ⟨fun _ => none, fun _ => none⟩ linkEntry).run (Core.boot m.img) =
      .ok ([(16, []), (16, dirent 2 [97])], s) ∧ Consistent size s.vol.disk A := by
  obtain ⟨m, hm⟩ := mkfs_empty
  obtain ⟨A, hlink⟩ := linkEntry_spec hm
  obtain ⟨hallowed, hspec⟩ := hlink (size - usedBefore) (by decide)
  obtain ⟨s, hrun, hs⟩ := (kernel_refines_files hm (by decide) (by decide) _ linkEntry
    hallowed).1 _ A hspec
  exact ⟨m, s, A, hm, hrun, hs⟩

/-! ## The blocks of the log -/

section Cap

variable {n cap cap' : Nat} {op : Op} {ops : List Op} {A' : Files} {r : Result} {rs : List Result}

/-- More room makes no difference for an operation that has enough. -/
theorem Op.spec_mono (hcap : cap ≤ cap') (h : op.spec n cap A = .ok (r, A')) :
    op.spec n cap' A = .ok (r, A') := by
  cases op with
  | write inum src off =>
    rw [Op.spec] at h ⊢
    split at h
    · next hle => rw [if_pos (Nat.le_trans hle hcap), h]
    · cases h
  | _ => exact h

/-- With less room the operation does the same, or the blocks it leaves in use are too many. -/
theorem Op.spec_fits (cap : Nat) (h : op.spec n cap' A = .ok (r, A')) :
    op.spec n cap A = .ok (r, A') ∨ cap < usedBlocks n A' := by
  cases op with
  | write inum src off =>
    rw [Op.spec] at h ⊢
    split at h
    · cases h
      by_cases hle : usedBlocks n (Function.update A inum
          { A inum with data := (writeAt (A inum).data off src).2 }) ≤ cap
      · exact .inl (if_pos hle)
      · exact .inr (Nat.lt_of_not_le hle)
    · cases h
  | _ => exact .inl h

theorem AllowedOps.mono (hcap : cap ≤ cap') (h : AllowedOps n cap' ops A) :
    AllowedOps n cap ops A := by
  induction ops generalizing A with
  | nil => trivial
  | cons op ops ih => exact ⟨h.1, fun r A' hspec => ih (h.2 r A' (Op.spec_mono hcap hspec))⟩

theorem AllowedOps.take (h : AllowedOps n cap ops A) (k : Nat) :
    AllowedOps n cap (ops.take k) A := by
  induction ops generalizing A k with
  | nil => rwa [List.take_nil]
  | cons op ops ih =>
    cases k with
    | zero => trivial
    | succ k => exact ⟨h.1, fun r A' hspec => ih (h.2 r A' hspec) k⟩

theorem specOps_eq_ok {rs' : List Result} {A₁ : Files} (hop : op.spec n cap A = .ok (r, A₁))
    (hops : specOps n cap ops A₁ = .ok (rs', A')) :
    specOps n cap (op :: ops) A = .ok (r :: rs', A') := by
  simp only [specOps, hop, ok_bind, hops]
  rfl

theorem specOps_take (h : specOps n cap ops A = .ok (rs, A')) (k : Nat) :
    ∃ A₁, specOps n cap (ops.take k) A = .ok (rs.take k, A₁) := by
  induction ops generalizing A rs k with
  | nil =>
    cases h
    exact ⟨_, by rw [List.take_nil, List.take_nil]; rfl⟩
  | cons op ops ih =>
    cases k with
    | zero => exact ⟨A, rfl⟩
    | succ k =>
      obtain ⟨r, A₁, rs', hop, hops, rfl⟩ := specOps_cons h
      obtain ⟨A₂, hops'⟩ := ih hops k
      exact ⟨A₂, specOps_eq_ok hop hops'⟩

/-- With less room a run does the same, or after some of its operations too many blocks are
in use. -/
theorem specOps_fits (cap : Nat) (h : specOps n cap' ops A = .ok (rs, A')) :
    specOps n cap ops A = .ok (rs, A') ∨
      ∃ k rs₁ A₁, specOps n cap' (ops.take k) A = .ok (rs₁, A₁) ∧ cap < usedBlocks n A₁ := by
  induction ops generalizing A rs with
  | nil => exact .inl h
  | cons op ops ih =>
    obtain ⟨r, A₁, rs', hop, hops, rfl⟩ := specOps_cons h
    rcases Op.spec_fits cap hop with hop' | hlt
    · rcases ih hops with hops' | ⟨k, rs₁, A₂, hops', hlt⟩
      · exact .inl (specOps_eq_ok hop' hops')
      · exact .inr ⟨k + 1, r :: rs₁, A₂, specOps_eq_ok hop hops', hlt⟩
    · exact .inr ⟨1, [r], A₁, specOps_eq_ok hop rfl, hlt⟩

end Cap

/-- The blocks in use are no more than there is room for. -/
theorem Holds.usedBlocks_le (h : Holds Z s A fs) (hi : i < Z.sb.ninodes) :
    usedBlocks Z.sb.ninodes A ≤ room Z := by
  have hlie := h.lies i hi
  rw [← Function.update_eq_self i A, h.usedBlocks_le_iff hi, ← hlie.data, ← wf_refs_length hlie.wf]
  exact (h.owns i hi).uses.length_le

/-- Where no file has a block from `lim` on. -/
theorem Holds.below (h : Holds Z s A fs) {lim : Nat} (hlim : lim ≤ Z.lim)
    (hrefs : ∀ i, i < Z.sb.ninodes → ∀ b ∈ (fs i).refs, b < lim) :
    Holds { Z with lim := lim } s A fs where
  fixed := { h.fixed with lim_le := Nat.le_trans hlim h.fixed.lim_le }
  super := h.super
  owns i hi := by
    have howns := h.owns i hi
    exact ⟨⟨howns.uses.super, fun b hb => howns.uses.bits b (Nat.lt_of_lt_of_le hb hlim),
      fun b hb => ⟨hrefs i hi b hb, (howns.uses.own b hb).2⟩, howns.uses.nodup⟩,
      howns.ind_ne_zero, howns.filled⟩
  lies := h.lies
  cache := h.cache

/-- No file has a block of the log. -/
def KeepsOutOfLog (disk : Image) : Prop :=
  ∀ i, i < ninodes → ∀ b ∈ references disk i, b < size - nlog

/-- The bitmap that `mkfs` writes does not mark the blocks of the log.  The kernel gives none of
them to a file in a run if and only if the files fit into the blocks before the log all
the time. -/
theorem keepsOutOfLog_iff {files : List Input} {m : Mkfs.State} (h : mkfs files = .ok m)
    (hfew : files.length + 2 ≤ ninodes) (hholes : (files.length + 2) % 32 ≠ 0)
    (hroom : usedBefore + blocksNeeded files ≤ size - nlog) (devsw : Devsw) (ops : List Op)
    (hops : AllowedOps ninodes (size - usedBefore) ops (nodesOf m.img)) {rs : List Result}
    {A : Files} (hspec : specOps ninodes (size - usedBefore) ops (nodesOf m.img) = .ok (rs, A)) :
    (∀ b, size - nlog ≤ b → b < size → Mkfs.bit m.img b = false) ∧
    ((∀ k rs' s, (runOps devsw (ops.take k)).run (Core.boot m.img) = .ok (rs', s) →
      KeepsOutOfLog s.vol.disk) ↔
    specOps ninodes (size - nlog - usedBefore) ops (nodesOf m.img) = .ok (rs, A)) := by
  have hless : size - nlog ≤ size := Nat.sub_le ..
  refine ⟨fun b hlog hb => ?_, ?_⟩
  · have hfew : files.length + 2 ≤ 200 := hfew
    rw [bit_eq h hb, usedblocks_eq h (by omega), decide_eq_false_iff_not]
    omega
  have hall := mkfs_holds h hfew hholes (Nat.le_refl size) (Nat.le_trans hroom hless)
  have hlow := mkfs_holds h hfew hholes hless hroom
  constructor
  · intro hkeeps
    rcases specOps_fits (size - nlog - usedBefore) hspec with hfits | ⟨k, rs₁, A₁, hk, hlt⟩
    · exact hfits
    · rw [← room_mkfsZone size] at hops hk
      obtain ⟨s, fs, -, hrun, hs, -⟩ := (hall.run devsw (ops.take k) (hops.take k)).1 rs₁ A₁ hk
      have hbelow := hs.below hless fun i hi b hb =>
        hkeeps k rs₁ s hrun i hi b (by rwa [hs.references_eq hi])
      have hle := hbelow.usedBlocks_le (show 1 < ninodes by decide)
      rw [show room { mkfsZone size with lim := size - nlog } = _ from
        room_mkfsZone (size - nlog)] at hle
      exact absurd hlt (Nat.not_lt_of_le hle)
  · intro hfits k rs' s hrun i hi b hb
    obtain ⟨A₁, hk⟩ := specOps_take hfits k
    have hops' := (hops.mono (show size - nlog - usedBefore ≤ _ by decide)).take k
    rw [← room_mkfsZone] at hk hops'
    obtain ⟨s', fs, -, hrun', hs, -⟩ := (hlow.run devsw (ops.take k) hops').1 _ A₁ hk
    rw [hrun] at hrun'
    cases hrun'
    rw [hs.references_eq hi] at hb
    exact ((hs.owns i hi).uses.own b hb).1

theorem keepsOutOfLog_iff_linkEntry : ∃ m, mkfs [] = .ok m ∧
    ∀ k rs s, (runOps ⟨fun _ => none, fun _ => none⟩ (linkEntry.take k)).run (Core.boot m.img) =
      .ok (rs, s) → KeepsOutOfLog s.vol.disk := by
  obtain ⟨m, hm⟩ := mkfs_empty
  obtain ⟨A, hlink⟩ := linkEntry_spec hm
  obtain ⟨hallowed, hspec⟩ := hlink (size - usedBefore) (by decide)
  exact ⟨m, hm, (keepsOutOfLog_iff hm (by decide) (by decide) (by decide) _ linkEntry hallowed
    hspec).2.mpr (hlink _ (by decide)).2⟩

end Xv6Arm.Blocks
