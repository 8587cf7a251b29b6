import Xv6Arm.Mem.Layout

/-!
# The bytes that memset writes

`memset` of `string.c` puts a word together from its argument, shifted by 0 to 31
bits, and stores it over the whole words of the range.  The word has every bit set
from the lowest bit of the argument on (`getLsbD_fillWord`), and so it repeats the
argument only if that is 0 or 255.  The last bytes of a range whose size is not a
multiple of 4 are not written.
-/

namespace Xv6Arm

/-- A byte of a word.  The machine is little-endian. -/
def wordByte (w : Word) (i : Nat) : BitVec 8 := w.extractLsb' (8 * i) 8

/-- The byte at a kernel address. -/
def kernelByte (mem : Mem) (a : Word) : BitVec 8 :=
  wordByte (mem (v2p (a &&& ~~~3))) (a.toNat % 4)

/-- The `size` bytes from `dst` on are `c`, and the others are as they were.  Addresses wrap
around. -/
structure BytesFilled (mem mem' : Mem) (dst : Word) (c : BitVec 8) (size : Nat) : Prop where
  filled : ∀ k, k < size → kernelByte mem' (dst + BitVec.ofNat 32 k) = c
  frame : ∀ a : Word, size ≤ (a - dst).toNat → kernelByte mem' a = kernelByte mem a

/-! ## The word -/

/-- The word that the loop of shifts has after `n` rounds. -/
theorem getLsbD_shifts (c : Word) (n : Nat) {j : Nat} (hj : j < 32) :
    ((List.range n).foldl (fun f i => f ||| c <<< i) 0).getLsbD j = true ↔
      ∃ i, i < n ∧ i ≤ j ∧ c.getLsbD (j - i) = true := by
  induction n with
  | zero => simp
  | succ n ih =>
    rw [List.range_succ, List.foldl_append, List.foldl_cons, List.foldl_nil, BitVec.getLsbD_or,
      Bool.or_eq_true, ih, BitVec.getLsbD_shiftLeft]
    constructor
    · rintro (⟨i, hi, hij, hbit⟩ | hbit)
      · exact ⟨i, by omega, hij, hbit⟩
      · simp only [hj, decide_true, Bool.true_and, Bool.and_eq_true, Bool.not_eq_true',
          decide_eq_false_iff_not] at hbit
        exact ⟨n, by omega, by omega, hbit.2⟩
    · rintro ⟨i, hi, hij, hbit⟩
      rcases Nat.lt_succ_iff_lt_or_eq.mp hi with hlt | rfl
      · exact .inl ⟨i, hlt, hij, hbit⟩
      · refine .inr ?_
        simp [hj, hij, hbit]

theorem getLsbD_fillWord (c : Word) {j : Nat} (hj : j < 32) :
    (fillWord c).getLsbD j = true ↔ ∃ b, b ≤ j ∧ c.getLsbD b = true := by
  unfold fillWord
  rw [getLsbD_shifts c 32 hj]
  constructor
  · rintro ⟨i, -, hij, hbit⟩
    exact ⟨j - i, by omega, hbit⟩
  · rintro ⟨b, hb, hbit⟩
    exact ⟨j - b, by omega, by omega, by rwa [show j - (j - b) = b by omega]⟩

/-- Above its lowest byte the word of an argument that is not 0 has all bits set. -/
theorem wordByte_fillWord {c : BitVec 8} (hc : c ≠ 0) {i : Nat} (hi : 0 < i) (hi4 : i < 4) :
    wordByte (fillWord (c.setWidth 32)) i = 255 := by
  obtain ⟨b, hb⟩ : ∃ b, c.getLsbD b = true := by
    by_contra hnone
    refine hc (BitVec.eq_of_getLsbD_eq fun b _ => ?_)
    show c.getLsbD b = (0#8).getLsbD b
    rw [BitVec.getLsbD_zero]
    exact Bool.eq_false_iff.mpr fun hb => hnone ⟨b, hb⟩
  have hlt : b < 8 := BitVec.lt_of_getLsbD hb
  refine BitVec.eq_of_getLsbD_eq fun j hj => ?_
  have hone : (255 : BitVec 8).getLsbD j = true := by
    rw [show (255 : BitVec 8) = BitVec.allOnes 8 from rfl, BitVec.getLsbD_allOnes]
    exact decide_eq_true hj
  rw [hone, wordByte, BitVec.getLsbD_extractLsb', decide_eq_true hj, Bool.true_and,
    getLsbD_fillWord _ (by omega)]
  refine ⟨b, by omega, ?_⟩
  rw [BitVec.getLsbD_setWidth, hb]
  simp
  omega

/-- The word repeats the argument if that has no bit set, or all of them. -/
theorem wordByte_fillWord_of_uniform {c : BitVec 8} (hc : c = 0 ∨ c = 255) {i : Nat} (hi : i < 4) :
    wordByte (fillWord (c.setWidth 32)) i = c := by
  rcases hc with rfl | rfl
  · rw [show fillWord ((0 : BitVec 8).setWidth 32) = 0 by decide]
    simp [wordByte]
  · rcases Nat.eq_zero_or_pos i with rfl | hpos
    · decide
    · exact wordByte_fillWord (by decide) hpos hi

/-! ## The loop -/

section Loop

variable {dst a : Word}

/-- The offset of the word of an address. -/
theorem word_offset (hdst : dst.toNat % 4 = 0) (a : Word) :
    (v2p (a &&& ~~~3) - v2p dst).toNat = (a - dst).toNat / 4 * 4 := by
  have hword : (a &&& ~~~3).toNat = a.toNat / 4 * 4 := toNat_and_not_low a 2
  unfold v2p
  bv_omega

theorem offset_mod (hdst : dst.toNat % 4 = 0) (a : Word) : a.toNat % 4 = (a - dst).toNat % 4 := by
  bv_omega

/-- What `memset` leaves at a kernel address. -/
theorem kernelByte_memset (mem : Mem) (hdst : dst.toNat % 4 = 0) (c : Word) {size : Nat}
    (hsize : size < 2 ^ 32) (a : Word) :
    kernelByte (memset mem dst c size) a =
      if (a - dst).toNat < size / 4 * 4 then wordByte (fillWord c) ((a - dst).toNat % 4)
      else kernelByte mem a := by
  unfold kernelByte memset
  rw [memset_loop mem dst (fillWord c) _ (size / 4) (by omega), word_offset hdst,
    offset_mod hdst]
  by_cases hin : (a - dst).toNat < size / 4 * 4
  · rw [if_pos ⟨by omega, by omega⟩, if_pos hin]
  · rw [if_neg fun hword => hin (by omega), if_neg hin]

end Loop

/-- `memset` fills the bytes if and only if its argument is 0 or 255, or there is no whole word to
fill, and the bytes behind the last whole word have the value before. -/
theorem memset_fills_iff (mem : Mem) {dst : Word} (hdst : dst.toNat % 4 = 0) (c : BitVec 8)
    {size : Nat} (hsize : size < 2 ^ 32) :
    BytesFilled mem (memset mem dst (c.setWidth 32) size) dst c size ↔
      (size < 4 ∨ c = 0 ∨ c = 255) ∧
      ∀ k, size / 4 * 4 ≤ k → k < size → kernelByte mem (dst + BitVec.ofNat 32 k) = c := by
  have hoff {k : Nat} (hk : k < size) : (dst + BitVec.ofNat 32 k - dst).toNat = k := by bv_omega
  have hbyte {k : Nat} (hk : k < size) :
      kernelByte (memset mem dst (c.setWidth 32) size) (dst + BitVec.ofNat 32 k) =
        if k < size / 4 * 4 then wordByte (fillWord (c.setWidth 32)) (k % 4)
        else kernelByte mem (dst + BitVec.ofNat 32 k) := by
    rw [kernelByte_memset mem hdst _ hsize, hoff hk]
  constructor
  · intro h
    refine ⟨?_, fun k hlast hk => ?_⟩
    · -- The second byte of the first word is 255, unless the argument is 0.
      rcases Nat.lt_or_ge size 4 with hsmall | hlarge
      · exact .inl hsmall
      · have hsecond := h.filled 1 (by omega)
        rw [hbyte (by omega), if_pos (by omega)] at hsecond
        rcases eq_or_ne c 0 with hzero | hne
        · exact .inr (.inl hzero)
        · exact .inr (.inr (hsecond.symm.trans (wordByte_fillWord hne (by decide) (by decide))))
    · have hfilled := h.filled k hk
      rwa [hbyte hk, if_neg (by omega)] at hfilled
  · rintro ⟨hc, hlast⟩
    refine ⟨fun k hk => ?_, fun a ha => ?_⟩
    · rw [hbyte hk]
      split
      · next hword =>
        have huniform : c = 0 ∨ c = 255 := hc.resolve_left (by omega)
        exact wordByte_fillWord_of_uniform huniform (Nat.mod_lt k (by decide))
      · next hword => exact hlast k (by omega) hk
    · rw [kernelByte_memset mem hdst _ hsize, if_neg (by omega)]

/-- Memory whose bytes are all 255. -/
def fullMem : Mem := fun _ => 0xffffffff

/-- A page of zeros, as `walkpgdir` makes one. -/
theorem memset_fills_iff_page :
    BytesFilled fullMem (memset fullMem KERNBASE 0 4096) KERNBASE 0 4096 :=
  (memset_fills_iff fullMem (by decide) 0 (by decide)).mpr
    ⟨.inr (.inl rfl), fun k hlast hk => absurd hk (by omega)⟩

/-- A page that `kfree` fills with 1 has 255 in its bytes.  And the last of five bytes is not
cleared. -/
theorem memset_not_filled :
    (kernelByte (memset fullMem KERNBASE 1 4096) KERNBASE = 255 ∧
      ¬ BytesFilled fullMem (memset fullMem KERNBASE 1 4096) KERNBASE 1 4096) ∧
    ¬ BytesFilled fullMem (memset fullMem KERNBASE 0 5) KERNBASE 0 5 := by
  have hpage : kernelByte (memset fullMem KERNBASE 1 4096) KERNBASE = 255 := by
    rw [kernelByte_memset fullMem (by decide) 1 (by decide)]
    decide
  refine ⟨⟨hpage, fun h => ?_⟩, fun h => ?_⟩
  · exact absurd (hpage.symm.trans (h.filled 0 (by decide))) (by decide)
  · have hlast := h.filled 4 (by decide)
    rw [kernelByte_memset fullMem (by decide) 0 (by decide)] at hlast
    exact absurd hlast (by decide)

end Xv6Arm
