import Xv6Arm.Mem.Layout

/-!
# memmove of the user library

The model of `memmove` of `ulib.c`.  Memory is bytes.  The loop copies upwards, one
byte a round, whatever the two ranges have in common.

After the loop the byte at `dst + k` is the one that was at `src + k % (dst - src)`
(`copyLoop_apply`).  Where `dst` is not inside of the source this is `src + k`.  Where
it is, the loop reads bytes that it has written itself.
-/

namespace Xv6Arm.Ulib

/-- The loop of `memmove`, with `n` rounds to go. -/
def copyLoop : Nat → Word → Word → (Word → UInt8) → Word → UInt8
  | 0, _, _, mem => mem
  | n + 1, dst, src, mem => copyLoop n (dst + 1) (src + 1) (Function.update mem dst (mem src))

/-- `memmove(vdst, vsrc, n)`: the memory after it.  The count is an `int`. -/
def memmove (mem : Word → UInt8) (vdst vsrc n : Word) : Word → UInt8 :=
  copyLoop n.toInt.toNat vdst vsrc mem

/-- The `n` bytes that were at `src` are at `dst`, and the others are as they were. -/
structure Moved (mem mem' : Word → UInt8) (dst src : Word) (n : Nat) : Prop where
  copied : ∀ k, k < n → mem' (dst + BitVec.ofNat 32 k) = mem (src + BitVec.ofNat 32 k)
  frame : ∀ a : Word, a.toNat < dst.toNat ∨ dst.toNat + n ≤ a.toNat → mem' a = mem a

section Loop

variable {dst src : Word}

/-- Where the first round of the loop is seen by the rounds after it. -/
theorem update_next (mem : Word → UInt8) {k : Nat} (hk : k + 1 < 2 ^ 32) :
    Function.update mem dst (mem src) (src + 1 + BitVec.ofNat 32 (k % (dst - src).toNat)) =
      mem (src + BitVec.ofNat 32 ((k + 1) % (dst - src).toNat)) := by
  have hd := (dst - src).isLt
  rcases Nat.eq_zero_or_pos (dst - src).toNat with hzero | hpos
  · -- Nothing changes when the ranges are the same.
    obtain rfl : dst = src := by bv_omega
    rw [hzero, Nat.mod_zero, Nat.mod_zero, Function.update_eq_self]
    congr 1
    bv_omega
  · generalize hdist : (dst - src).toNat = d at *
    have hmod := Nat.mod_lt k hpos
    have hle := Nat.mod_le k d
    rw [← Nat.mod_add_mod k d 1]
    rcases Nat.eq_or_lt_of_le (show k % d + 1 ≤ d from hmod) with hend | hlt
    · -- The byte that the first round has written is a copy of the first one.
      rw [show src + 1 + BitVec.ofNat 32 (k % d) = dst by bv_omega, Function.update_self,
        hend, Nat.mod_self]
      congr 1
      bv_omega
    · rw [Function.update_of_ne (by bv_omega), Nat.mod_eq_of_lt hlt]
      congr 1
      bv_omega

/-- The memory after `n` rounds. -/
theorem copyLoop_apply {n : Nat} (hn : n ≤ 2 ^ 32) (mem : Word → UInt8) (a : Word) :
    copyLoop n dst src mem a =
      if (a - dst).toNat < n then
        mem (src + BitVec.ofNat 32 ((a - dst).toNat % (dst - src).toNat))
      else mem a := by
  induction n generalizing dst src mem with
  | zero => rfl
  | succ n ih =>
    rw [copyLoop, ih (by omega), show dst + 1 - (src + 1) = dst - src by bv_omega]
    by_cases ha : a = dst
    · rw [if_neg (by bv_omega), ha, Function.update_self, BitVec.sub_self]
      simp
    · have hoff : (a - dst).toNat = (a - (dst + 1)).toNat + 1 := by bv_omega
      rw [hoff, ← update_next mem (by bv_omega), Function.update_of_ne ha]
      congr 1
      rw [Nat.add_lt_add_iff_right]

end Loop

/-! ## Overlapping ranges -/

/-- Values that repeat with a period are those of the first period. -/
theorem periodic_iff {A : Type} {f : Nat → A} {d n : Nat} (hd : 0 < d) :
    (∀ k, k < n → f (k % d) = f k) ↔ ∀ k, k + d < n → f (k + d) = f k := by
  constructor
  · intro h k hk
    rw [← h (k + d) hk, Nat.add_mod_right]
    exact h k (by omega)
  · intro h k hk
    induction k using Nat.strongRecOn with
    | ind k ih =>
      rcases Nat.lt_or_ge k d with hlt | hge
      · rw [Nat.mod_eq_of_lt hlt]
      · have hback := h (k - d) (by omega)
        rw [Nat.sub_add_cancel hge] at hback
        rw [hback, ← ih (k - d) (by omega) (by omega), Nat.mod_eq_sub_mod hge]

variable {dst src n : Word}

theorem toNat_rounds (hn : 0 ≤ n.toInt) : n.toInt.toNat = n.toNat := by
  have hcond := BitVec.toInt_eq_toNat_cond n
  split at hcond <;> omega

/-- The bytes outside of the destination are as they were in any case. -/
theorem moved_iff (mem : Word → UInt8) (hn : 0 ≤ n.toInt) (hdst : dst.toNat + n.toNat ≤ 2 ^ 32) :
    Moved mem (memmove mem dst src n) dst src n.toNat ↔
      ∀ k, k < n.toNat → mem (src + BitVec.ofNat 32 (k % (dst - src).toNat)) =
        mem (src + BitVec.ofNat 32 k) := by
  have hlt := n.isLt
  have happly (a : Word) : memmove mem dst src n a = if (a - dst).toNat < n.toNat then
      mem (src + BitVec.ofNat 32 ((a - dst).toNat % (dst - src).toNat)) else mem a := by
    unfold memmove
    rw [toNat_rounds hn]
    exact copyLoop_apply (by omega) mem a
  have hinside (k : Nat) (hk : k < n.toNat) : memmove mem dst src n (dst + BitVec.ofNat 32 k) =
      mem (src + BitVec.ofNat 32 (k % (dst - src).toNat)) := by
    have hoff : (dst + BitVec.ofNat 32 k - dst).toNat = k := by bv_omega
    rw [happly, hoff, if_pos hk]
  constructor
  · intro h k hk
    rw [← hinside k hk]
    exact h.copied k hk
  · intro h
    refine ⟨fun k hk => (hinside k hk).trans (h k hk), fun a ha => ?_⟩
    rw [happly, if_neg (by bv_omega)]

/-- `memmove` moves the bytes if and only if `dst` is not above `src` inside of the source, or the
source repeats itself with the period `dst - src`. -/
theorem memmove_moves_iff (mem : Word → UInt8) (hn : 0 ≤ n.toInt)
    (hdst : dst.toNat + n.toNat ≤ 2 ^ 32) (hsrc : src.toNat + n.toNat ≤ 2 ^ 32) :
    Moved mem (memmove mem dst src n) dst src n.toNat ↔
      ∀ k, src.toNat < dst.toNat → k + (dst.toNat - src.toNat) < n.toNat →
        mem (dst + BitVec.ofNat 32 k) = mem (src + BitVec.ofNat 32 k) := by
  rw [moved_iff mem hn hdst]
  rcases Nat.lt_or_ge src.toNat dst.toNat with hup | hdown
  · have hdist : (dst - src).toNat = dst.toNat - src.toNat := by bv_omega
    have haddr (k : Nat) :
        dst + BitVec.ofNat 32 k = src + BitVec.ofNat 32 (k + (dst.toNat - src.toNat)) := by
      bv_omega
    rw [hdist, periodic_iff (f := fun k => mem (src + BitVec.ofNat 32 k)) (by omega)]
    constructor
    · intro h k _ hk
      rw [haddr]
      exact h k hk
    · intro h k hk
      show mem (src + BitVec.ofNat 32 (k + (dst.toNat - src.toNat))) = _
      rw [← haddr]
      exact h k hup hk
  · refine iff_of_true (fun k hk => ?_) fun k hup => absurd hup (Nat.not_lt.mpr hdown)
    -- The loop is ahead of itself.
    rcases Nat.eq_zero_or_pos (dst - src).toNat with hzero | hpos
    · rw [hzero, Nat.mod_zero]
    · rw [Nat.mod_eq_of_lt (by bv_omega)]

/-- Memory in which no two neighbours are equal. -/
def countingMem : Word → UInt8 := fun a => UInt8.ofNat a.toNat

/-- Down by two bytes, as `grep` moves the rest of its buffer. -/
theorem memmove_moves_iff_down :
    Moved countingMem (memmove countingMem 0x100 0x102 5) 0x100 0x102 5 :=
  (memmove_moves_iff countingMem (n := 5) (by decide) (by decide) (by decide)).mpr
    fun _ hup => absurd hup (by decide)

/-- Up by one byte: the first byte is copied all the way. -/
theorem memmove_up_not_moved :
    memmove countingMem 0x101 0x100 3 0x103 = 0 ∧ countingMem 0x102 = 2 ∧
      ¬ Moved countingMem (memmove countingMem 0x101 0x100 3) 0x101 0x100 3 := by
  have hlast : memmove countingMem 0x101 0x100 3 0x103 = 0 := by decide
  refine ⟨hlast, by decide, fun h => ?_⟩
  have hcopied := h.copied 2 (by decide)
  exact absurd (hlast.symm.trans hcopied) (by decide)

end Xv6Arm.Ulib
