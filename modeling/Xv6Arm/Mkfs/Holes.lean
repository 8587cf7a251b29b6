import Xv6Arm.Mkfs.Finish

/-!
# The size of the root directory

At its end `main` rounds the size of the root directory up to whole blocks.  The rounding
adds a block also when the directory ends with a block, and that block is not allocated.

Up to 206 input files have their inodes before the bitmap, and then this is the only hole
there can be.  The inodes of the next eight lie in the block of the bitmap, and `balloc`
writes the bitmap over them.  The inodes of more files lie in data blocks, and whether
those have holes is settled before the end of `main`.
-/

namespace Xv6Arm.Mkfs

open Bytes Fs Fallible

/-- Every block of a file below its size has an address. -/
def NoHoles (s : State) : Prop :=
  ∀ i, 0 < i → i < s.freeinode → ∀ k, k * 512 < Dinode.size (dinode s.img i) →
    bmap s.img (dinode s.img i) k ≠ 0

/-! ## Inodes before the bitmap -/

section Holes

variable {files : List Input} {s : State} {v : Volume} {i k : Nat}

/-- A block of a file that is in its list of blocks. -/
theorem Represents.bmap_ne_zero (h : Represents s v) (hi : i < 208) (hf : (v.file i).Readable)
    (hk : k < (v.file i).blocks.length) : bmap s.img (dinode s.img i) k ≠ 0 := by
  have hle := hf.blocks_le
  rw [h.bmap_eq hi hf (by omega), List.getD_eq_getElem _ _ hk]
  exact fun hzero => hf.zero_notMem (hzero ▸ List.getElem_mem hk)

/-- A block of a file that is not. -/
theorem Represents.bmap_eq_zero (h : Represents s v) (hi : i < 208) (hf : (v.file i).Readable)
    (hk : (v.file i).blocks.length ≤ k) (hlt : k < 140) : bmap s.img (dinode s.img i) k = 0 := by
  rw [h.bmap_eq hi hf hlt, List.getD_eq_default _ _ hk]

/-- The bytes and the blocks of the root directory. -/
theorem finish_root (files : List Input) :
    ((volume files).finish.file ROOTINO).data.length = (16 * (files.length + 2) / 512 + 1) * 512 ∧
      ((volume files).finish.file ROOTINO).blocks.length = (16 * (files.length + 2) + 511) / 512 := by
  have hroot : (volume files).finish.file ROOTINO = ((volume files).file ROOTINO).pad := by
    simp [Volume.finish]
  have hdata : ((volume files).file ROOTINO).data.length = 16 * (files.length + 2) := by
    rw [(describes_volume files).root_data, length_rootBytes]
  have hblocks := ((volume_wf files).file_wf ROOTINO).blocks_length
  rw [hdata] at hblocks
  rw [hroot]
  refine ⟨?_, hblocks⟩
  show (((volume files).file ROOTINO).data ++ List.replicate _ 0).length = _
  rw [List.length_append, List.length_replicate, hdata]
  unfold BSIZE
  omega

/-- Of the inodes before the bitmap, only the root directory can have a hole. -/
theorem Represents.hole_iff (h : Represents s (volume files).finish) (hfits : Fits (volume files))
    (hlen : files.length ≤ 214) (hi : i < 208) :
    (∃ k, k * 512 < Dinode.size (dinode s.img i) ∧ bmap s.img (dinode s.img i) k = 0) ↔
      i = ROOTINO ∧ (files.length + 2) % 32 = 0 := by
  have hread := finish_readable hfits (volume_wf files)
  obtain ⟨hsize, hblocks⟩ := finish_root files
  constructor
  · rintro ⟨k, hk, hzero⟩
    by_contra hno
    refine h.bmap_ne_zero hi (hread i) ?_ hzero
    rw [(h.inode i hi).size] at hk
    rcases eq_or_ne i ROOTINO with rfl | hroot
    · have hmod : (files.length + 2) % 32 ≠ 0 := fun hmod => hno ⟨rfl, hmod⟩
      omega
    · have hfile : (volume files).finish.file i = (volume files).file i := by
        simp [Volume.finish, hroot]
      rw [hfile] at hk ⊢
      have hlen := ((volume_wf files).file_wf i).blocks_length
      omega
  · rintro ⟨rfl, hmod⟩
    refine ⟨16 * (files.length + 2) / 512, ?_, ?_⟩
    · rw [(h.inode ROOTINO hi).size, hsize]
      omega
    · exact h.bmap_eq_zero hi (hread ROOTINO) (by omega) (by omega)

theorem noHoles_iff_forall : NoHoles s ↔ ∀ i, 0 < i → i < s.freeinode →
    ¬ ∃ k, k * 512 < Dinode.size (dinode s.img i) ∧ bmap s.img (dinode s.img i) k = 0 := by
  unfold NoHoles
  push Not
  rfl

/-- An image whose inodes lie before the bitmap. -/
theorem Represents.noHoles (h : Represents s (volume files).finish)
    (hfits : Fits (volume files)) (hlen : files.length ≤ 206) :
    NoHoles s ↔ (files.length + 2) % 32 ≠ 0 := by
  have hnext : s.freeinode = files.length + 2 := h.freeinode.trans (describes_volume files).next
  rw [noHoles_iff_forall]
  constructor
  · intro hnone hmod
    refine hnone ROOTINO (by decide) (by rw [hnext]; exact Nat.lt_add_left _ (by decide)) ?_
    exact (h.hole_iff hfits (by omega) (by decide)).mpr ⟨rfl, hmod⟩
  · intro hmod i _ hi hhole
    exact hmod ((h.hole_iff hfits (by omega) (by omega)).mp hhole).2

end Holes

/-! ## Inodes in the bitmap -/

section Bits

variable {files : List Input} {s : State} {n o off w i : Nat}

theorem testBit_byteAt (hn : n ≤ 4096) (ho : o < 512) {j : Nat} (hj : j < 8) :
    (byteAt (bitmap n) o).toNat.testBit j = decide (8 * o + j < n) := by
  have h := testBit_bitmap hn (show 8 * o + j < 4096 by omega)
  rwa [show (8 * o + j) / 8 = o by omega, show (8 * o + j) % 8 = j by omega] at h

theorem byteAt_bitmap_eq_zero (hn : n ≤ 4096) (ho : o < 512) :
    byteAt (bitmap n) o = 0 ↔ n ≤ 8 * o := by
  constructor
  · intro hzero
    have h := testBit_byteAt hn ho (j := 0) (by decide)
    rw [hzero] at h
    simpa using h
  · intro hle
    apply UInt8.toNat_inj.mp
    apply Nat.eq_of_testBit_eq
    intro j
    rcases Nat.lt_or_ge j 8 with hj | hj
    · rw [testBit_byteAt hn ho hj, decide_eq_false (by omega)]
      simp
    · rw [Nat.testBit_lt_two_pow (Nat.lt_of_lt_of_le (byteAt (bitmap n) o).toNat_lt
        (Nat.pow_le_pow_right (by decide) hj))]
      simp

/-- A field of the bitmap is 0 if the blocks that have been taken end before it. -/
theorem getLe_bitmap_eq_zero (hn : n ≤ 4096) (hw : 0 < w) (h : off + w ≤ 512) :
    getLe (bitmap n) off w = 0 ↔ n ≤ 8 * off := by
  rw [getLe, leValue_eq_zero]
  constructor
  · intro hall
    exact (byteAt_bitmap_eq_zero hn (by omega)).mp (hall 0 hw)
  · intro hle k hk
    exact (byteAt_bitmap_eq_zero hn (by omega)).mpr (by omega)

/-- A `short` of the bitmap that is 1. -/
theorem getLe_bitmap_eq_one (hn : n ≤ 4096) (ho : o < 511) (h : getLe (bitmap n) o 2 = 1) :
    n = 8 * o + 1 := by
  have hsum : (byteAt (bitmap n) o).toNat + 256 * (byteAt (bitmap n) (o + 1)).toNat = 1 := by
    simpa [getLe, leValue] using h
  have hone : (byteAt (bitmap n) o).toNat = 1 := by omega
  have hfirst := testBit_byteAt hn (o := o) (by omega) (j := 0) (by decide)
  have hsecond := testBit_byteAt hn (o := o) (by omega) (j := 1) (by decide)
  rw [hone] at hfirst hsecond
  have hlt : 8 * o + 0 < n := of_decide_eq_true hfirst.symm
  have hge : ¬ 8 * o + 1 < n := of_decide_eq_false hsecond.symm
  omega

/-- The file blocks after the last one have no address. -/
theorem bmap_of_maxfile_le (img : Image) (d : Dinode) {k : Nat} (hk : MAXFILE ≤ k) :
    bmap img d k = 0 := by
  have hk : 140 ≤ k := hk
  have hdirect : ¬ k < NDIRECT := by
    show ¬ k < 12
    omega
  rw [bmap, if_neg hdirect]
  split
  · rfl
  · rw [getLe, leValue_eq_zero]
    intro j _
    refine dif_neg ?_
    show ¬ 4 * (k - 12) + j < 512
    omega

/-- The fields of an inode that lies in the bitmap. -/
theorem field_of_bitmap (h : s.img 28 = bitmap n) (hi : 208 ≤ i) (hi' : i < 216) (ho : o + w ≤ 64) :
    getLe (dinode s.img i) o w = getLe (bitmap n) ((i - 208) * 64 + o) w := by
  have hblock : IBLOCK i = 28 := by
    unfold IBLOCK IPB
    omega
  have hoff : i % IPB * 64 = (i - 208) * 64 := by
    unfold IPB
    omega
  rw [dinode, hblock, h, getLe_slice _ ho, hoff]

/-- The first inode in the bitmap has a hole once its size is not 0. -/
theorem hole_of_bitmap (h : s.img 28 = bitmap n) (hn : n ≤ 4096) (hlt : 64 < n) :
    ∃ k, k * 512 < Dinode.size (dinode s.img 208) ∧ bmap s.img (dinode s.img 208) k = 0 := by
  have hfield : ∀ o w, o + w ≤ 64 → getLe (dinode s.img 208) o w = getLe (bitmap n) o w := by
    intro o w ho
    rw [field_of_bitmap h (by decide) (by decide) ho, Nat.sub_self, Nat.zero_mul, Nat.zero_add]
  have hsize : Dinode.size (dinode s.img 208) = getLe (bitmap n) 8 4 := hfield 8 4 (by decide)
  rcases Nat.lt_or_ge 88 n with hmany | hfew
  · -- the top byte of the size is not 0, so the size is larger than a file can be
    have htop : byteAt (bitmap n) 11 ≠ 0 := by
      rw [Ne, byteAt_bitmap_eq_zero hn (by decide)]
      omega
    have hpos : 0 < (byteAt (bitmap n) 11).toNat :=
      Nat.pos_of_ne_zero fun hzero => htop (UInt8.toNat_inj.mp hzero)
    refine ⟨MAXFILE, ?_, bmap_of_maxfile_le _ _ (Nat.le_refl _)⟩
    rw [hsize, getLe, leValue]
    show 140 * 512 < _ + 256 ^ 3 * (byteAt (bitmap n) 11).toNat
    omega
  · refine ⟨0, ?_, ?_⟩
    · rw [Nat.zero_mul, hsize, Nat.pos_iff_ne_zero, Ne, getLe_bitmap_eq_zero hn (by decide) (by decide)]
      omega
    · show getLe (dinode s.img 208) 12 4 = 0
      rw [hfield 12 4 (by decide), getLe_bitmap_eq_zero hn (by decide) (by decide)]
      omega

/-- An image in which inodes lie in the bitmap.  They are files of size 0 as long as the bits of
their sizes are. -/
theorem Represents.noHoles_of_bits (h : Represents s (volume files).finish)
    (hfits : Fits (volume files)) (hmany : 206 < files.length) (hlen : files.length ≤ 214) :
    NoHoles s ↔ usedBefore + blocksNeeded files ≤ 64 := by
  have hnext : s.freeinode = files.length + 2 := h.freeinode.trans (describes_volume files).next
  have hbits : s.img 28 = bitmap (volume files).free := h.bits
  have hfree : (volume files).free ≤ 4096 := Nat.le_trans hfits.free_le (by decide)
  rw [← (describes_volume files).free, noHoles_iff_forall]
  constructor
  · intro hnone
    by_contra hlt
    exact hnone 208 (by decide) (by omega) (hole_of_bitmap hbits hfree (by omega))
  · rintro hle i - hi ⟨k, hk, hzero⟩
    rcases Nat.lt_or_ge i 208 with hi' | hi'
    · have hmod := ((h.hole_iff hfits hlen hi').mp ⟨k, hk, hzero⟩).2
      omega
    · have hsize : Dinode.size (dinode s.img i) = 0 := by
        rw [Dinode.size, field_of_bitmap hbits hi' (by omega) (by decide),
          getLe_bitmap_eq_zero hfree (by decide) (by omega)]
        omega
      rw [hsize] at hk
      exact absurd hk (Nat.not_lt_zero _)

end Bits

/-! ## The image before the end of main -/

/-- The size that `main` gives to a root directory of `off` bytes. -/
def rounded (off : Nat) : Nat := (off / BSIZE + 1) * BSIZE % 2 ^ 32

/-- The blocks of an image after `balloc`. -/
def State.ballocated (s : State) : Image := Function.update s.img 28 (bitmap s.usedblocks)

/-- The address of block `k` of a file once the root directory has the size `r`.  An inode that was
written over can have the block of the root's inode for its indirect block, and then this size is one
of its addresses. -/
def bmapWith (r : Nat) (img : Image) (d : Dinode) (k : Nat) : Nat :=
  if Dinode.addr d NDIRECT = IBLOCK ROOTINO ∧ k = 30 then r else bmap img d k

/-- In the image to which the end of `main` has still to come, the root directory has addresses for
its blocks up to the rounded size, and each other file for the blocks below its size. -/
structure Backed (s : State) : Prop where
  root : ∀ k, k * 512 < rounded (Dinode.size (dinode s.ballocated ROOTINO)) →
    bmapWith (rounded (Dinode.size (dinode s.ballocated ROOTINO))) s.ballocated
      (dinode s.ballocated ROOTINO) k ≠ 0
  other : ∀ i, 0 < i → i < s.freeinode → i ≠ ROOTINO →
    ∀ k, k * 512 < Dinode.size (dinode s.ballocated i) →
      bmapWith (rounded (Dinode.size (dinode s.ballocated ROOTINO))) s.ballocated
        (dinode s.ballocated i) k ≠ 0

section Resize

variable {s s₀ : State} {img : Image} {d : Dinode} {i k r : Nat}

/-- An image with another size of the root directory. -/
def resize (img : Image) (r : Nat) : Image := Function.update img 2 (putLe (img 2) 72 4 r)

theorem dinode_resize_root : dinode (resize img r) ROOTINO = setSize (dinode img ROOTINO) r := by
  apply ext_byteAt
  intro j hj
  show byteAt (slice (Function.update img 2 _ 2) 64 64) j = byteAt (putLe (slice (img 2) 64 64) 8 4 r) j
  rw [Function.update_self, byteAt_slice _ hj, byteAt_putLe _ (by omega), byteAt_putLe _ hj,
    byteAt_slice _ hj, show 64 + j - 72 = j - 8 by omega]
  exact if_congr (by omega) rfl rfl

theorem dinode_resize_ne (hi : i ≠ ROOTINO) : dinode (resize img r) i = dinode img i := by
  have hi : i ≠ 1 := hi
  unfold dinode resize
  by_cases hb : IBLOCK i = 2
  · have hb' : i / 8 + 2 = 2 := hb
    rw [hb, Function.update_self]
    apply ext_byteAt
    intro j hj
    have hoff : i % IPB = i := Nat.mod_eq_of_lt (by unfold IPB; omega)
    rw [byteAt_slice _ hj, byteAt_slice _ hj, hoff, byteAt_putLe _ (by omega), if_neg (by omega)]
  · rw [Function.update_of_ne hb]

theorem bmap_resize : bmap (resize img r) d k = bmapWith (r % 2 ^ 32) img d k := by
  have hroot : IBLOCK ROOTINO = 2 := rfl
  have hdir : NDIRECT = 12 := rfl
  rw [bmapWith, bmap, bmap, hroot, hdir]
  by_cases hk : k < 12
  · rw [if_pos hk, if_pos hk, if_neg (by omega)]
  rw [if_neg hk, if_neg hk]
  by_cases hzero : Dinode.addr d 12 = 0
  · rw [if_pos hzero, if_pos hzero, if_neg (by omega)]
  rw [if_neg hzero, if_neg hzero, resize]
  by_cases htwo : Dinode.addr d 12 = 2
  · rw [htwo, Function.update_self]
    by_cases hsize : k = 30
    · rw [if_pos ⟨rfl, hsize⟩, hsize]
      exact getLe_putLe_self _ (by decide)
    · rw [if_neg fun h => hsize h.2]
      apply getLe_congr
      intro j hlow hhigh
      rcases Nat.lt_or_ge j 512 with hj | hj
      · rw [byteAt_putLe _ hj, if_neg (by omega)]
      · rw [byteAt, dif_neg (by omega), byteAt, dif_neg (by omega)]
  · rw [Function.update_of_ne htwo, if_neg fun h => htwo h.1]

theorem bmapWith_setSize {v : Nat} : bmapWith r img (setSize d v) k = bmapWith r img d k := by
  have haddr : ∀ j, j ≤ 12 → Dinode.addr (setSize d v) j = Dinode.addr d j :=
    fun j hj => getLe_putLe_of_disjoint d (by omega) (by omega)
  have hind : Dinode.addr (setSize d v) NDIRECT = Dinode.addr d NDIRECT := haddr 12 (by decide)
  rw [bmapWith, bmapWith, bmap, bmap, hind]
  by_cases hk : k < NDIRECT
  · have hk' : k < 12 := hk
    rw [if_pos hk, if_pos hk, haddr k (by omega)]
  · rw [if_neg hk, if_neg hk]

theorem rsect_ok {sec : Nat} {b : Block} (h : rsect sec s = .ok b) : b = s.img sec := by
  unfold rsect at h
  split at h
  · cases h
    rfl
  · cases h

/-- The image that the end of `main` leaves. -/
theorem finish_img_eq (h : finish ROOTINO s₀ = .ok s) : s.img = resize s₀.ballocated
    ((Dinode.size (dinode s₀.ballocated ROOTINO) / BSIZE + 1) * BSIZE) := by
  have htwo : s₀.ballocated 2 = s₀.img 2 := Function.update_of_ne (by decide) ..
  have hsame : dinode s₀.ballocated ROOTINO = slice (s₀.img 2) 64 64 := by
    show slice (s₀.ballocated 2) 64 64 = _
    rw [htwo]
  obtain ⟨d, hd, h⟩ := bind_eq_ok.mp h
  obtain ⟨s₁, hw, h⟩ := bind_eq_ok.mp h
  obtain ⟨b, hb, hd⟩ := bind_eq_ok.mp hd
  obtain ⟨b', hb', hw⟩ := bind_eq_ok.mp hw
  obtain rfl := rsect_ok hb
  obtain rfl := rsect_ok hb'
  cases hd
  cases hw
  unfold balloc at h
  split at h
  · cases h
    rw [hsame]
    show Function.update (Function.update s₀.img 2
      (paste (s₀.img 2) 64 (putLe (slice (s₀.img 2) 64 64) 8 4 _))) 28 (bitmap s₀.usedblocks) =
        Function.update s₀.ballocated 2 (putLe (s₀.ballocated 2) 72 4 _)
    rw [paste_putLe_slice _ (by decide), Function.update_comm (by decide), htwo]
    rfl
  · cases h

/-- The holes at the end are those of the image before it, and those of the rounding. -/
theorem noHoles_iff_backed (h : finish ROOTINO s₀ = .ok s) (hroot : ROOTINO < s₀.freeinode) :
    NoHoles s ↔ Backed s₀ := by
  have hfree := finish_freeinode h
  have himg := finish_img_eq h
  have hsame : ∀ d k, bmap s.img d k =
      bmapWith (rounded (Dinode.size (dinode s₀.ballocated ROOTINO))) s₀.ballocated d k := by
    intro d k
    rw [himg, bmap_resize, rounded]
  have hsize : Dinode.size (dinode s.img ROOTINO) =
      rounded (Dinode.size (dinode s₀.ballocated ROOTINO)) := by
    rw [himg, dinode_resize_root]
    exact getLe_putLe_self _ (by decide)
  unfold NoHoles
  simp only [hsame, hfree]
  constructor
  · intro hnone
    refine ⟨fun k hk => ?_, fun i hpos hi hne k hk => ?_⟩
    · have h := hnone ROOTINO (by decide) hroot k (by rw [hsize]; exact hk)
      rwa [himg, dinode_resize_root, bmapWith_setSize] at h
    · have h := hnone i hpos hi k
      rw [himg, dinode_resize_ne hne] at h
      exact h hk
  · intro hb i hpos hi k hk
    rcases eq_or_ne i ROOTINO with rfl | hne
    · rw [hsize] at hk
      rw [himg, dinode_resize_root, bmapWith_setSize]
      exact hb.root k hk
    · rw [himg, dinode_resize_ne hne] at hk ⊢
      exact hb.other i hpos hi hne k hk

end Resize

/-- When an image has no holes.  With inodes before the bitmap, exactly when the entries of the root
directory do not fill its last block.  With inodes in the block of the bitmap, exactly when the bits
of their sizes are 0.  With any inodes, exactly when the image before the end of `main` has addresses
for the blocks of the root directory up to the rounded size, and for those of the other files. -/
theorem noHoles_iff {files : List Input} {s : State} (h : mkfs files = .ok s) :
    (files.length ≤ 206 → (NoHoles s ↔ (files.length + 2) % 32 ≠ 0)) ∧
    (206 < files.length → files.length ≤ 214 →
      (NoHoles s ↔ usedBefore + blocksNeeded files ≤ 64)) ∧
    ∃ s₀, entered files = .ok s₀ ∧ (NoHoles s ↔ Backed s₀) := by
  refine ⟨fun hlen => ?_, fun hmany hlen => ?_, ?_⟩
  · obtain ⟨hfits, hs⟩ := represents_of_mkfs h (by omega)
    exact hs.noHoles hfits hlen
  · obtain ⟨hfits, hs⟩ := represents_of_mkfs h hlen
    exact hs.noHoles_of_bits hfits hmany hlen
  · obtain ⟨s₀, hentered, hfin⟩ := mkfs_finish h
    have hfree := (mkfs_ok h).2
    rw [finish_freeinode hfin] at hfree
    exact ⟨s₀, hentered, noHoles_iff_backed hfin (by rw [hfree]; exact Nat.lt_add_left _ (by decide))⟩

/-- An empty file called `a`. -/
def emptyFile : Input where
  name := [97]
  chunks := []
  name_ne_zero := by simp
  chunk_length := by simp

/-- Files without bytes fit as long as their entries do. -/
theorem mkfs_emptyFiles {n : Nat} (hn : n ≤ 214) :
    ∃ s, mkfs (List.replicate n emptyFile) = .ok s ∧
      blocksNeeded (List.replicate n emptyFile) = blocksFor (16 * (n + 2)) := by
  have hlen : (List.replicate n emptyFile).length = n := List.length_replicate
  have hneed : blocksNeeded (List.replicate n emptyFile) = blocksFor (16 * (n + 2)) := by
    rw [blocksNeeded, hlen, List.map_replicate, show blocksFor emptyFile.bytes.length = 0 from rfl]
    simp
  have hmem : ∀ f ∈ List.replicate n emptyFile, f = emptyFile := fun f => List.eq_of_mem_replicate
  have hfits : Fits (volume (List.replicate n emptyFile)) := by
    refine ((describes_volume _).fits (volume_wf _)).mpr ⟨?_, fun f hf => ?_, ?_⟩
    · rw [hneed, blocksFor]
      split <;> omega
    · rw [hmem f hf]
      decide
    · rw [hlen, MAXFILE]
      omega
  obtain ⟨s, hrun, -⟩ := mkfs_of_fits (hlen.symm ▸ hn) (fun f hf => by rw [hmem f hf]; decide) hfits
  exact ⟨s, hrun, hneed⟩

/-- The last inode of 207 files lies in the bitmap, and it has no bytes. -/
theorem noHoles_iff_bits : ∃ s, mkfs (List.replicate 207 emptyFile) = .ok s ∧ NoHoles s := by
  obtain ⟨s, hrun, hneed⟩ := mkfs_emptyFiles (n := 207) (by decide)
  have hlen : (List.replicate 207 emptyFile).length = 207 := List.length_replicate
  refine ⟨s, hrun, ((noHoles_iff hrun).2.1 (by omega) (by omega)).mpr ?_⟩
  rw [hneed]
  decide

/-- Thirty files fill a block of the root directory with `.` and `..`. -/
theorem thirtyFiles_not_noHoles : ∃ s, mkfs (List.replicate 30 emptyFile) = .ok s ∧
    Dinode.size (dinode s.img ROOTINO) = 1024 ∧ bmap s.img (dinode s.img ROOTINO) 1 = 0 ∧
      ¬ NoHoles s := by
  have hlen : (List.replicate 30 emptyFile).length = 30 := List.length_replicate
  obtain ⟨s, hrun, -⟩ := mkfs_emptyFiles (n := 30) (by decide)
  obtain ⟨hfits, hs⟩ := represents_of_mkfs hrun (by omega)
  obtain ⟨hsize, hblocks⟩ := finish_root (List.replicate 30 emptyFile)
  have hroot : Dinode.size (dinode s.img ROOTINO) = 1024 := by
    rw [(hs.inode ROOTINO (by decide)).size, hsize, hlen]
  have hhole : bmap s.img (dinode s.img ROOTINO) 1 = 0 := by
    refine hs.bmap_eq_zero (by decide) (finish_readable hfits (volume_wf _) ROOTINO) ?_ (by decide)
    rw [hblocks, hlen]
  refine ⟨s, hrun, hroot, hhole, fun hnone => ?_⟩
  refine hnone ROOTINO (by decide) ?_ 1 (by rw [hroot]; decide) hhole
  rw [(mkfs_ok hrun).2, hlen]
  decide

end Xv6Arm.Mkfs
