import Xv6Arm.Lib.Fallible
import Xv6Arm.Mkfs.Volume

/-!
# Images

`Represents s v` says that the image of `s` holds the volume `v`.  A well-formed
volume determines its image.  `Drafts s v` says it of an image to which the end of
`main` has still to come.
-/

namespace Xv6Arm.Mkfs

open Bytes Fs Fallible

/-! ## The relation -/

/-- An inode has the fields of a file, the size left out. -/
structure Names (f : File) (d : Dinode) : Prop where
  type : Dinode.type d = f.type
  major : Dinode.major d = 0
  minor : Dinode.minor d = 0
  nlink : Dinode.nlink d = f.nlink
  addr : ∀ k, k < 12 → Dinode.addr d k = f.blocks.getD k 0
  ind : Dinode.addr d 12 = f.ind

/-- An inode has the fields of a file. -/
structure Stores (f : File) (d : Dinode) : Prop extends Names f d where
  size : Dinode.size d = f.data.length

/-- The blocks of a file hold its bytes, and its indirect block their addresses. -/
structure Filled (img : Image) (f : File) : Prop where
  data : ∀ k x, f.blocks[k]? = some x → ∀ o, o < 512 →
    byteAt (img x) o = f.data.getD (512 * k + o) 0
  ind : f.ind ≠ 0 → ∀ j, j < 128 → getLe (img f.ind) (4 * j) 4 = f.blocks.getD (12 + j) 0

/-- The image holds a volume, but for the bitmap.  The block of the bitmap takes inodes as those
before it do, so there is room for 216 inodes before the first data block. -/
structure Drafts (s : State) (v : Volume) : Prop where
  len : s.len = 1024
  freeblock : s.freeblock = v.free
  usedblocks : s.usedblocks = v.free
  freeinode : s.freeinode = v.next
  boot : s.img 0 = zeroBuf 512
  super : s.img 1 = superBlock
  inode : ∀ i, i < 216 → Stores (v.file i) (dinode s.img i)
  filled : ∀ i, i < 216 → Filled s.img (v.file i)
  free : ∀ x, v.free ≤ x → s.img x = zeroBuf 512

/-- The image holds a volume.  There is room for 208 inodes before the bitmap. -/
structure Represents (s : State) (v : Volume) : Prop where
  len : s.len = 1024
  freeblock : s.freeblock = v.free
  usedblocks : s.usedblocks = v.free
  freeinode : s.freeinode = v.next
  boot : s.img 0 = zeroBuf 512
  super : s.img 1 = superBlock
  bits : s.img 28 = v.bits
  inode : ∀ i, i < 208 → Stores (v.file i) (dinode s.img i)
  filled : ∀ i, i < 208 → Filled s.img (v.file i)
  free : ∀ x, v.free ≤ x → s.img x = zeroBuf 512

/-! ## A volume determines its image -/

theorem Stores.unique {f : File} {d d' : Dinode} (h : Stores f d) (h' : Stores f d') : d = d' := by
  apply ext_byteAt
  intro i hi
  by_cases h₁ : i < 2
  · exact byteAt_congr 0 2 (h.type.trans h'.type.symm) (by omega) (by omega)
  by_cases h₂ : i < 4
  · exact byteAt_congr 2 2 (h.major.trans h'.major.symm) (by omega) (by omega)
  by_cases h₃ : i < 6
  · exact byteAt_congr 4 2 (h.minor.trans h'.minor.symm) (by omega) (by omega)
  by_cases h₄ : i < 8
  · exact byteAt_congr 6 2 (h.nlink.trans h'.nlink.symm) (by omega) (by omega)
  by_cases h₅ : i < 12
  · exact byteAt_congr 8 4 (h.size.trans h'.size.symm) (by omega) (by omega)
  by_cases h₆ : i < 60
  · have hk : (i - 12) / 4 < 12 := by omega
    exact byteAt_congr (12 + 4 * ((i - 12) / 4)) 4 ((h.addr _ hk).trans (h'.addr _ hk).symm)
      (by omega) (by omega)
  · exact byteAt_congr 60 4 (h.ind.trans h'.ind.symm) (by omega) (by omega)

/-- The images of a file agree on its blocks. -/
theorem Filled.unique {img img' : Image} {f : File} (h : Filled img f) (h' : Filled img' f) {x : Nat}
    (hx : x ∈ f.refs) : img x = img' x := by
  rcases mem_refs.mp hx with hx | ⟨rfl, hne⟩
  · obtain ⟨k, hk⟩ := List.mem_iff_getElem?.mp hx
    apply ext_byteAt
    intro o ho
    rw [h.data k x hk o ho, h'.data k x hk o ho]
  · apply ext_byteAt
    intro o ho
    have hj : o / 4 < 128 := by omega
    exact byteAt_congr (4 * (o / 4)) 4 ((h.ind hne _ hj).trans (h'.ind hne _ hj).symm) (by omega)
      (by omega)

/-- The blocks below the first free one belong to files. -/
def Covered (v : Volume) : Prop :=
  ∀ x, usedBefore ≤ x → x < v.free → ∃ i, i < 208 ∧ x ∈ (v.file i).refs

theorem Volume.Wf.covered {v : Volume} (h : v.Wf usedBefore) (hnext : v.next ≤ 208) : Covered v := by
  intro x hlow hlt
  obtain ⟨i, hx⟩ := h.ref_cover x hlow hlt
  refine ⟨i, ?_, hx⟩
  by_contra hi
  rw [h.file_none i (Or.inr (by omega))] at hx
  cases hx

/-- A volume determines its image. -/
theorem Represents.unique {s s' : State} {v : Volume} (h : Represents s v) (h' : Represents s' v)
    (hcover : Covered v) : s = s' := by
  have himg : s.img = s'.img := by
    funext x
    have hlow : usedBefore = 29 := rfl
    rcases Nat.lt_or_ge x 2 with h₁ | h₁
    · rcases (by omega : x = 0 ∨ x = 1) with rfl | rfl
      · rw [h.boot, h'.boot]
      · rw [h.super, h'.super]
    rcases Nat.lt_or_ge x 28 with h₂ | h₂
    · apply ext_slices (n := 64) (by decide)
      intro k hk
      have hi : 8 * (x - 2) + k < 208 := by omega
      have hd := (h.inode _ hi).unique (h'.inode _ hi)
      have hblock : IBLOCK (8 * (x - 2) + k) = x := by
        unfold IBLOCK IPB
        omega
      have hoff : (8 * (x - 2) + k) % IPB * 64 = k * 64 := by
        unfold IPB
        omega
      unfold dinode at hd
      rwa [hblock, hoff] at hd
    rcases Nat.lt_or_ge x 29 with h₃ | h₃
    · obtain rfl : x = 28 := by omega
      rw [h.bits, h'.bits]
    rcases Nat.lt_or_ge x v.free with h₄ | h₄
    · obtain ⟨i, hlt, hi⟩ := hcover x (by omega) h₄
      exact (h.filled i hlt).unique (h'.filled i hlt) hi
    · rw [h.free x h₄, h'.free x h₄]
  cases s with | mk img len freeblock usedblocks freeinode =>
  cases s' with | mk img' len' freeblock' usedblocks' freeinode' =>
  have hlen := h.len.trans h'.len.symm
  have hfree := h.freeblock.trans h'.freeblock.symm
  have hused := h.usedblocks.trans h'.usedblocks.symm
  have hinode := h.freeinode.trans h'.freeinode.symm
  simp only at himg hlen hfree hused hinode
  rw [himg, hlen, hfree, hused, hinode]

end Xv6Arm.Mkfs
