import Mathlib.Data.Nat.Bitwise
import Xv6Arm.Mkfs.Overlap

/-!
# The bitmap

At the end of `main`, `balloc` writes the bitmap.  It marks the blocks before a count, but
the log is at the end of the disk.
-/

namespace Xv6Arm.Mkfs

open Bytes Fs Fallible

/-- `BPB`: the bits of a bitmap block. -/
def BPB : Nat := BSIZE * 8

/-- `BBLOCK`: the block that holds the bit of block `b`. -/
def BBLOCK (b ninodes : Nat) : Nat := b / BPB + ninodes / IPB + 3

/-- The bit of block `b`. -/
def bit (img : Image) (b : Nat) : Bool :=
  (byteAt (img (BBLOCK b ninodes)) (b % BPB / 8)).toNat.testBit (b % 8)

/-- An inode of the image refers to block `b`. -/
def Referenced (img : Image) (b : Nat) : Prop :=
  ∃ i, 0 < i ∧ i < ninodes ∧ b ∈ references img i

/-- The bitmap agrees with the layout: the bit of a block is 0 only if it is a data block that no
inode refers to, and the bits of all other blocks are set. -/
structure BitmapAgrees (img : Image) : Prop where
  free : ∀ b, b < size → bit img b = false →
    usedBefore ≤ b ∧ b < size - nlog ∧ ¬ Referenced img b
  used : ∀ b, b < size → b < usedBefore ∨ size - nlog ≤ b ∨ Referenced img b → bit img b = true

theorem bitmap_succ (n : Nat) : bitmap (n + 1) =
    putLe (bitmap n) (n / 8) 1 ((byteAt (bitmap n) (n / 8)).toNat ||| 1 <<< (n % 8)) := by
  rw [bitmap, List.range_succ, List.foldl_append]
  rfl

/-- The bit that a round of the loop in `balloc` sets. -/
theorem testBit_round {v : UInt8} {m j : Nat} (hj : j < 8) :
    (leByte (v.toNat ||| 1 <<< m) 0).toNat.testBit j = (v.toNat.testBit j || decide (m = j)) := by
  rw [leByte, UInt8.toNat_ofNat', Nat.pow_zero, Nat.div_one, Nat.testBit_mod_two_pow,
    Nat.testBit_or, Nat.one_shiftLeft, Nat.testBit_two_pow, decide_eq_true hj, Bool.true_and]

/-- `balloc` sets the bits of the first blocks. -/
theorem testBit_bitmap {n b : Nat} (hn : n ≤ 4096) (hb : b < 4096) :
    (byteAt (bitmap n) (b / 8)).toNat.testBit (b % 8) = decide (b < n) := by
  induction n with
  | zero =>
      have hzero : bitmap 0 = zeroBuf 512 := rfl
      rw [hzero, byteAt_zeroBuf]
      simp
  | succ n ih =>
      rw [bitmap_succ, byteAt_putLe _ (by omega)]
      split
      · next hbyte =>
        have hdiv : b / 8 = n / 8 := by omega
        have hsub : b / 8 - n / 8 = 0 := by omega
        rw [hsub, testBit_round (by omega), ← hdiv, ih (by omega), Bool.eq_iff_iff]
        simp only [Bool.or_eq_true, decide_eq_true_eq]
        omega
      · next hbyte =>
        rw [ih (by omega), Bool.eq_iff_iff]
        simp only [decide_eq_true_eq]
        omega

section Bitmap

variable {files : List Input} {s : State}

/-- What the end of `main` has written. -/
theorem finish_img {s₀ : State} {root : Nat} (h : finish root s₀ = .ok s) :
    s.img 28 = bitmap s.usedblocks ∧ s.usedblocks < 4096 := by
  obtain ⟨d, -, h⟩ := bind_eq_ok.mp h
  obtain ⟨s₁, hw, h⟩ := bind_eq_ok.mp h
  unfold balloc at h
  split at h
  · next hused =>
    cases h
    refine ⟨?_, hused⟩
    show Function.update s₁.img 28 (bitmap s₁.usedblocks) 28 = bitmap s₁.usedblocks
    rw [Function.update_self]
  · cases h

theorem mkfs_finish (h : mkfs files = .ok s) :
    ∃ s₀, entered files = .ok s₀ ∧ finish ROOTINO s₀ = .ok s := by
  rw [mkfs_eq] at h
  exact bind_eq_ok.mp h

/-- The bits of the image are those of the blocks before the count. -/
theorem bit_eq (h : mkfs files = .ok s) {b : Nat} (hb : b < size) :
    bit s.img b = decide (b < s.usedblocks) := by
  obtain ⟨s₀, -, hfin⟩ := mkfs_finish h
  obtain ⟨himg, hused⟩ := finish_img hfin
  have hb : b < 1024 := hb
  have hblock : BBLOCK b ninodes = 28 := by
    show b / 4096 + 25 + 3 = 28
    omega
  have hoff : b % BPB / 8 = b / 8 := by
    show b % 4096 / 8 = b / 8
    omega
  rw [bit, hblock, hoff, himg]
  exact testBit_bitmap (by omega) (by omega)

/-- The blocks that have been taken, if the inodes fit before the data blocks. -/
theorem usedblocks_eq (h : mkfs files = .ok s) (hlen : files.length ≤ 214) :
    s.usedblocks = usedBefore + blocksNeeded files :=
  (represents_of_mkfs h hlen).2.usedblocks.trans (describes_volume files).free

/-- The bitmap protects the log only if all blocks are taken. -/
theorem BitmapAgrees.size_le (hagrees : BitmapAgrees s.img) (h : mkfs files = .ok s) :
    size ≤ s.usedblocks := by
  by_contra hlt
  have hlt : s.usedblocks < 1024 := Nat.not_le.mp hlt
  have hlast : (1023 : Nat) < size := by decide
  have hbit := hagrees.used 1023 hlast (.inr (.inl (by decide)))
  rw [bit_eq h hlast, decide_eq_true_eq] at hbit
  omega

theorem bitmapAgrees_of_size_le (h : mkfs files = .ok s) (hfull : size ≤ s.usedblocks) :
    BitmapAgrees s.img := by
  have hset : ∀ b, b < size → bit s.img b = true := by
    intro b hb
    rw [bit_eq h hb, decide_eq_true_eq]
    exact Nat.lt_of_lt_of_le hb hfull
  refine ⟨fun b hb hzero => ?_, fun b hb _ => hset b hb⟩
  rw [hset b hb] at hzero
  cases hzero

end Bitmap

/-- The bitmap agrees with the layout exactly when every block of the disk has been taken by the
time that `main` calls `balloc`.  With inodes that fit before the data blocks, the blocks that have
been taken are those before the data and those that the files need. -/
theorem bitmapAgrees_iff {files : List Input} {s : State} (h : mkfs files = .ok s) :
    (BitmapAgrees s.img ↔ size ≤ s.usedblocks) ∧
      (files.length ≤ 214 → s.usedblocks = usedBefore + blocksNeeded files) :=
  ⟨⟨fun hagrees => hagrees.size_le h, bitmapAgrees_of_size_le h⟩, usedblocks_eq h⟩

theorem bitmapAgrees_iff_cat : ∃ s, mkfs [catFile] = .ok s ∧
    (BitmapAgrees s.img ↔ size ≤ s.usedblocks) ∧ s.usedblocks = 31 := by
  obtain ⟨s, hrun⟩ := mkfs_cat
  obtain ⟨hiff, hused⟩ := bitmapAgrees_iff hrun
  exact ⟨s, hrun, hiff, hused (by decide)⟩

theorem mkfs_empty : ∃ s, mkfs [] = .ok s := by
  have hfits : Fits (volume []) :=
    (describes_root.fits rootVolume_wf).mpr ⟨by decide, by decide, by decide⟩
  obtain ⟨s, hrun, -⟩ := mkfs_of_fits (by decide) (by decide) hfits
  exact ⟨s, hrun⟩

/-- The header of the log is a free block in the bitmap of an image without files. -/
theorem empty_not_bitmapAgrees : ∃ s, mkfs [] = .ok s ∧ bit s.img (size - nlog) = false ∧
    ¬ BitmapAgrees s.img := by
  obtain ⟨s, hrun⟩ := mkfs_empty
  have hused : s.usedblocks = 30 := usedblocks_eq hrun (by decide)
  have hbit : bit s.img (size - nlog) = false := by
    rw [bit_eq hrun (by decide), hused]
    decide
  refine ⟨s, hrun, hbit, fun hagrees => ?_⟩
  have hset := hagrees.used (size - nlog) (by decide) (.inr (.inl (Nat.le_refl _)))
  rw [hbit] at hset
  cases hset

end Xv6Arm.Mkfs
