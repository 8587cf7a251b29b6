import Mathlib.Algebra.Group.Nat.Defs
import Mathlib.Logic.Function.Basic
import Mathlib.Data.List.Basic

/-!
# The memory

The constants of `memlayout.h` and `mmu.h`, and memory as 32-bit words.  `Mem`
is indexed by physical addresses, of which only multiples of 4 are used.

The kernel reaches a physical address `a` through the kernel address `p2v a`.
Both page tables it runs under, `EntryPageTable` and the one that `setupkvm`
builds, map it so.  `memset` and the functions of `kalloc.c` therefore read and
write memory at `v2p` of the address they are given.
-/

namespace Xv6Arm

/-- A machine word, and an address. -/
abbrev Word := BitVec 32

/-- The words of physical memory. -/
abbrev Mem := Word → Word

/-! ## Constants -/

/-- `KERNBASE`: the first kernel virtual address. -/
def KERNBASE : Word := 0xc0000000

/-- `EXTMEM`: the start of extended memory. -/
def EXTMEM : Word := 0x8000

/-- `KERNLINK`: the address where the kernel is linked. -/
def KERNLINK : Word := KERNBASE + EXTMEM

/-- `PHYSTOP`: the top of physical memory. -/
def PHYSTOP : Word := 0x2000000

/-- `PGSIZE`: the bytes mapped by a page. -/
def PGSIZE : Word := 4096

/-- `4*1024*1024`, the memory that `EntryPageTable` maps. -/
def ENTRYMEM : Word := 0x400000

/-- `v2p`. -/
def v2p (a : Word) : Word := a - KERNBASE

/-- `p2v`. -/
def p2v (a : Word) : Word := a + KERNBASE

/-- `PGROUNDUP`. -/
def PGROUNDUP (sz : Word) : Word := (sz + PGSIZE - 1) &&& ~~~(PGSIZE - 1)

/-- `PGROUNDDOWN`. -/
def PGROUNDDOWN (a : Word) : Word := a &&& ~~~(PGSIZE - 1)

/-! ## Pages -/

/-- The first address of a page. -/
def Aligned (p : Word) : Prop := p.toNat % 4096 = 0

/-- The address `a` lies in the page at `p`. -/
def InPage (p a : Word) : Prop := (a - p).toNat < 4096

instance (p : Word) : Decidable (Aligned p) := inferInstanceAs (Decidable (_ = _))
instance (p a : Word) : Decidable (InPage p a) := inferInstanceAs (Decidable (_ < _))

/-- Clearing the low bits. -/
theorem toNat_and_not_low (a : Word) (j : Nat) :
    (a &&& ~~~(BitVec.ofNat 32 (2 ^ j - 1))).toNat = a.toNat / 2 ^ j * 2 ^ j := by
  have hshift : a &&& ~~~(BitVec.ofNat 32 (2 ^ j - 1)) = (a >>> j) <<< j := by
    ext i hi
    have hmask : (BitVec.ofNat 32 (2 ^ j - 1))[i] = decide (i < j) := by
      rw [← BitVec.getLsbD_eq_getElem, BitVec.getLsbD_ofNat, Nat.testBit_two_pow_sub_one]
      simp [hi]
    simp only [BitVec.getElem_and, BitVec.getElem_not, BitVec.getElem_shiftLeft,
      BitVec.getElem_ushiftRight, hmask]
    by_cases hlow : i < j
    · simp [hlow]
    · have hsum : j + (i - j) = i := by omega
      simp [hlow, hsum, BitVec.getLsbD_eq_getElem hi]
  have hlt := a.isLt
  have hle : a.toNat / 2 ^ j * 2 ^ j ≤ a.toNat := Nat.div_mul_le_self _ _
  rw [hshift, BitVec.toNat_shiftLeft, BitVec.toNat_ushiftRight, Nat.shiftRight_eq_div_pow,
    Nat.shiftLeft_eq, Nat.mod_eq_of_lt (by omega)]

/-- Keeping the low bits. -/
theorem toNat_and_low (a : Word) {j : Nat} (hj : j ≤ 32) :
    (a &&& BitVec.ofNat 32 (2 ^ j - 1)).toNat = a.toNat % 2 ^ j := by
  have hpow : 2 ^ j ≤ 2 ^ 32 := Nat.pow_le_pow_right (by decide) hj
  have hpos : 0 < 2 ^ j := Nat.two_pow_pos j
  rw [BitVec.toNat_and, BitVec.toNat_ofNat, Nat.mod_eq_of_lt (by omega),
    Nat.and_two_pow_sub_one_eq_mod]

theorem toNat_PGROUNDDOWN (a : Word) : (PGROUNDDOWN a).toNat = a.toNat / 4096 * 4096 :=
  toNat_and_not_low a 12

theorem PGROUNDUP_eq (a : Word) : PGROUNDUP a = PGROUNDDOWN (a + 4095) := by
  have hsum : a + PGSIZE - 1 = a + 4095 := by
    rw [PGSIZE]
    bv_omega
  rw [PGROUNDUP, hsum, PGROUNDDOWN]

theorem toNat_PGROUNDUP {a : Word} (h : a.toNat + 4095 < 2 ^ 32) :
    (PGROUNDUP a).toNat = (a.toNat + 4095) / 4096 * 4096 := by
  have hsum : (a + 4095).toNat = a.toNat + 4095 := by bv_omega
  rw [PGROUNDUP_eq, toNat_PGROUNDDOWN, hsum]

/-- The page after a page. -/
theorem Aligned.add_PGSIZE {p : Word} (h : Aligned p) : Aligned (p + PGSIZE) := by
  unfold Aligned PGSIZE at *
  bv_omega

/-- Different pages have no address in common. -/
theorem InPage.ne {p q a : Word} (ha : InPage p a) (hp : Aligned p) (hq : Aligned q)
    (hne : p ≠ q) : ¬ InPage q a := by
  unfold Aligned at hp hq
  unfold InPage at ha ⊢
  bv_omega

theorem inPage_self (p : Word) : InPage p p := by
  unfold InPage
  rw [BitVec.sub_self]
  decide

theorem v2p_inj {a b : Word} (h : v2p a = v2p b) : a = b := by
  unfold v2p at h
  bv_omega

/-! ## memset -/

/-- The word that `memset` computes from its byte argument. -/
def fillWord (c : Word) : Word := (List.range 32).foldl (fun f i => f ||| c <<< i) 0

/-- `memset(dst, c, size)`, at a kernel address. -/
def memset (mem : Mem) (dst c : Word) (size : Nat) : Mem :=
  (List.range (size / 4)).foldl
    (fun mem i => Function.update mem (v2p (dst + BitVec.ofNat 32 (4 * i))) (fillWord c)) mem

/-- The loop of `memset` over the first `n` words. -/
theorem memset_loop (mem : Mem) (dst w a : Word) : ∀ n : Nat, n ≤ 2 ^ 30 →
    (List.range n).foldl
        (fun mem i => Function.update mem (v2p (dst + BitVec.ofNat 32 (4 * i))) w) mem a =
      if (a - v2p dst).toNat % 4 = 0 ∧ (a - v2p dst).toNat < 4 * n then w else mem a
  | 0, _ => by simp
  | n + 1, h => by
      rw [List.range_succ, List.foldl_append, List.foldl_cons, List.foldl_nil]
      by_cases ha : a = v2p (dst + BitVec.ofNat 32 (4 * n))
      · have hoff : (a - v2p dst).toNat = 4 * n := by
          rw [ha]
          unfold v2p
          bv_omega
        rw [ha, Function.update_self, ← ha, if_pos (by omega)]
      · have hoff : (a - v2p dst).toNat ≠ 4 * n := by
          intro he
          apply ha
          unfold v2p at he ⊢
          bv_omega
        rw [Function.update_of_ne ha, memset_loop mem dst w a n (by omega)]
        congr 1
        apply propext
        omega

/-- What `memset` leaves at a physical address. -/
theorem memset_apply (mem : Mem) (dst c a : Word) {size : Nat} (hsize : size ≤ 2 ^ 32)
    (h4 : size % 4 = 0) : memset mem dst c size a =
      if (a - v2p dst).toNat % 4 = 0 ∧ (a - v2p dst).toNat < size then fillWord c else mem a := by
  rw [memset, memset_loop mem dst (fillWord c) a (size / 4) (by omega),
    show 4 * (size / 4) = size by omega]

/-- `memset` of a page leaves the rest of memory alone. -/
theorem memset_of_notInPage (mem : Mem) {dst a : Word} (c : Word) (h : ¬ InPage (v2p dst) a) :
    memset mem dst c 4096 a = mem a := by
  rw [memset_apply mem dst c a (by decide) (by decide), if_neg (fun hc => h hc.2)]

end Xv6Arm
