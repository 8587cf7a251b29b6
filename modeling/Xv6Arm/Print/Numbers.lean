import Xv6Arm.Lib.Numerals
import Xv6Arm.Print.Model

/-!
# Numbers that are printed and read back

What the two `printint` print, and that `atoi` reads it back.  `Numeral` and `Decimal` say
what a text means without the tables of digits: a digit has its value in either letter case.

`digitLoop` stores the digits from the lowest one (`digitLoop_eq`), and `buf` has room for
all of them and for the sign (`printDigits_eq`).
-/

namespace Xv6Arm.Print

open Numerals

/-! ## The meaning of a text -/

/-- The value of a digit. -/
def digitValue (c : UInt8) : Option ℕ :=
  if '0'.toUInt8 ≤ c ∧ c ≤ '9'.toUInt8 then some (c.toNat - '0'.toNat)
  else if 'a'.toUInt8 ≤ c ∧ c ≤ 'f'.toUInt8 then some (c.toNat - 'a'.toNat + 10)
  else if 'A'.toUInt8 ≤ c ∧ c ≤ 'F'.toUInt8 then some (c.toNat - 'A'.toNat + 10)
  else none

/-- A numeral without leading zeros. -/
def Numeral (b : ℕ) (s : List UInt8) (n : ℕ) : Prop :=
  ∃ ds, s.map digitValue = ds.map some ∧ IsNumeral b ds n

/-- A decimal numeral, with a sign if the number is negative. -/
def Decimal (s : List UInt8) (z : ℤ) : Prop :=
  ∃ ds, s = (if z < 0 then ['-'.toUInt8] else []) ++ ds ∧ Numeral 10 ds z.natAbs

/-! ## The digits of a number -/

/-- A table of the digits up to 15. -/
structure IsTable (digits : List UInt8) : Prop where
  length : digits.length = 16
  value : ∀ i (h : i < digits.length), digitValue digits[i] = some i

theorem isTable_console : IsTable Console.digits := ⟨rfl, by decide⟩

theorem isTable_printf : IsTable Printf.digits := ⟨rfl, by decide⟩

/-- The text of a number, from the highest digit. -/
def numeral (digits : List UInt8) (b n : ℕ) : List UInt8 :=
  (lowDigits b n).reverse.map (digits.getD · 0)

/-- The text of a number with its sign. -/
def decimal (digits : List UInt8) (z : ℤ) : List UInt8 :=
  (if z < 0 then ['-'.toUInt8] else []) ++ numeral digits 10 z.natAbs

section Digits

variable {ω : Type} {digits : List UInt8} {base x : Word}

theorem IsTable.getD (ht : IsTable digits) {d : ℕ} (h : d < 16) :
    digits[d]? = some (digits.getD d 0) ∧ digitValue (digits.getD d 0) = some d := by
  have hd : d < digits.length := by rw [ht.length]; exact h
  rw [List.getD_eq_getElem?_getD, List.getElem?_eq_getElem hd]
  exact ⟨rfl, ht.value d hd⟩

theorem IsTable.numeral (ht : IsTable digits) {b : ℕ} (hb : 1 < b) (hb' : b ≤ 16) (n : ℕ) :
    Numeral b (numeral digits b n) n := by
  refine ⟨_, ?_, isNumeral_reverse_lowDigits hb n⟩
  unfold Print.numeral
  rw [List.map_map]
  refine List.map_congr_left fun d hd => ?_
  have hd : d < b := lt_of_mem_lowDigits hb (List.mem_reverse.mp hd)
  exact (ht.getD (hd.trans_le hb')).2

theorem IsTable.decimal (ht : IsTable digits) (z : ℤ) : Decimal (decimal digits z) z :=
  ⟨_, rfl, ht.numeral (by decide) (by decide) _⟩

/-- The loop stores the digits from the lowest one. -/
theorem digitLoop_eq (ht : IsTable digits) (hb : 1 < base.toNat) (hb' : base.toNat ≤ 16) :
    ∀ {room : ℕ} {x : Word} (buf : List UInt8), 0 < room → x.toNat < base.toNat ^ room →
      (digitLoop digits base room x buf : Printer ω (List UInt8)) =
        pure (buf ++ (lowDigits base.toNat x.toNat).map (digits.getD · 0))
  | 0, _, _, h, _ => absurd h (Nat.lt_irrefl 0)
  | room + 1, x, buf, _, hx => by
      have hmod : (x % base).toNat < 16 := by
        rw [BitVec.toNat_umod]
        exact (Nat.mod_lt _ (Nat.zero_lt_of_lt hb)).trans_le hb'
      have hdiv : (x / base).toNat = x.toNat / base.toNat := BitVec.toNat_udiv
      rw [digitLoop, (ht.getD hmod).1, lowDigits_eq hb, BitVec.toNat_umod, ← hdiv]
      dsimp only
      by_cases hzero : x / base = 0
      · rw [if_pos hzero, if_pos (by rw [hzero]; rfl)]
        rfl
      · have hne : (x / base).toNat ≠ 0 := fun h => hzero (BitVec.eq_of_toNat_eq h)
        have hlt : (x / base).toNat < base.toNat ^ room := by
          rw [hdiv]
          exact Nat.div_lt_of_lt_mul (Nat.pow_succ' ▸ hx)
        have hroom : 0 < room := by
          rcases Nat.eq_zero_or_pos room with rfl | h
          · exact absurd (Nat.lt_one_iff.mp hlt) hne
          · exact h
        rw [if_neg hzero, if_neg hne, digitLoop_eq ht hb hb' _ hroom hlt, List.append_assoc]
        rfl

/-- A number of at most 15 digits and its sign have room in `buf`. -/
theorem printDigits_eq (put : UInt8 → Printer ω Unit) (ht : IsTable digits)
    (hb : 1 < base.toNat) (hb' : base.toNat ≤ 16) (hx : x.toNat < base.toNat ^ 15) (neg : Bool) :
    printDigits put digits x base neg =
      ((if neg then ['-'.toUInt8] else []) ++ numeral digits base.toNat x.toNat).forM put := by
  have hlt : x.toNat < base.toNat ^ BUFSIZE :=
    hx.trans (Nat.pow_lt_pow_right hb (by decide))
  have hlen : (lowDigits base.toNat x.toNat).length ≤ 15 :=
    length_lowDigits_le hb (by decide) hx
  unfold printDigits numeral
  rw [digitLoop_eq ht hb hb' [] (by decide) hlt, pure_bind, List.nil_append, List.map_reverse]
  cases neg with
  | false => rfl
  | true =>
    unfold putSign
    rw [if_pos rfl, if_pos (by rw [List.length_map]; exact Nat.lt_succ_of_le hlen), pure_bind]
    dsimp only
    rw [List.reverse_append]
    rfl

end Digits

/-! ## The two functions -/

/-- `-xx` is right also for the least number. -/
theorem toNat_abs (xx : Word) : (if xx.toInt < 0 then -xx else xx).toNat = xx.toInt.natAbs := by
  have hlt := xx.isLt
  have hcond := BitVec.toInt_eq_toNat_cond xx
  split
  · rw [BitVec.toNat_neg]
    split at hcond <;> omega
  · split at hcond <;> omega

theorem slt_zero (xx : Word) : xx.slt 0 = decide (xx.toInt < 0) := rfl

section Functions

variable (xx : Word)

/-- A signed number in base 10. -/
theorem printDigits_decimal {ω : Type} (put : UInt8 → Printer ω Unit) {digits : List UInt8}
    (ht : IsTable digits) :
    printDigits put digits (if xx.toInt < 0 then -xx else xx) 10 (decide (xx.toInt < 0)) =
      (decimal digits xx.toInt).forM put := by
  have hx : (if xx.toInt < 0 then -xx else xx).toNat < (10 : Word).toNat ^ 15 :=
    (BitVec.isLt _).trans (by decide)
  rw [printDigits_eq put ht (by decide) (by decide) hx, toNat_abs]
  unfold decimal
  simp only [decide_eq_true_eq]
  rfl

/-- A number in base 16. -/
theorem printDigits_hex {ω : Type} (put : UInt8 → Printer ω Unit) {digits : List UInt8}
    (ht : IsTable digits) :
    printDigits put digits xx 16 false = (numeral digits 16 xx.toNat).forM put := by
  rw [printDigits_eq put ht (by decide) (by decide) (xx.isLt.trans (by decide))]
  rfl

theorem console_printint_decimal (cons : Console.Cons) :
    Console.printint cons xx 10 true =
      (decimal Console.digits xx.toInt).forM (Console.putChar cons) := by
  rw [← printDigits_decimal xx _ isTable_console]
  unfold Console.printint
  rw [Bool.true_and, slt_zero]
  simp only [decide_eq_true_eq]

theorem console_printint_hex (cons : Console.Cons) :
    Console.printint cons xx 16 false =
      (numeral Console.digits 16 xx.toNat).forM (Console.putChar cons) :=
  printDigits_hex xx _ isTable_console

theorem printf_printint_decimal (fd : Word) :
    Printf.printint fd xx 10 true = (decimal Printf.digits xx.toInt).forM (Printf.putc fd) := by
  rw [← printDigits_decimal xx _ isTable_printf]
  unfold Printf.printint
  rw [Bool.true_and, slt_zero]
  simp only [decide_eq_true_eq]
  split
  · next h => rw [decide_eq_true h]
  · next h => rw [decide_eq_false h]

theorem printf_printint_hex (fd : Word) :
    Printf.printint fd xx 16 false =
      (numeral Printf.digits 16 xx.toNat).forM (Printf.putc fd) :=
  printDigits_hex xx _ isTable_printf

end Functions

/-! ## atoi -/

theorem toNat_toWord (c : UInt8) : (toWord c).toNat = c.toNat := by
  unfold toWord
  rw [BitVec.toNat_setWidth]
  exact Nat.mod_eq_of_lt (c.toNat_lt.trans (by decide))

/-- A digit below 10. -/
theorem digit_of_value {c : UInt8} {d : ℕ} (h : digitValue c = some d) (hd : d < 10) :
    ('0'.toUInt8 ≤ c ∧ c ≤ '9'.toUInt8) ∧ toWord c - toWord '0'.toUInt8 = BitVec.ofNat 32 d := by
  unfold digitValue at h
  split at h
  · next hc =>
    refine ⟨hc, BitVec.eq_of_toNat_eq ?_⟩
    have hle : '0'.toNat ≤ c.toNat := UInt8.le_iff_toNat_le.mp hc.1
    have hlt := c.toNat_lt
    cases h
    rw [BitVec.toNat_sub, toNat_toWord, toNat_toWord, BitVec.toNat_ofNat,
      show '0'.toUInt8.toNat = '0'.toNat from rfl]
    omega
  · split at h
    · cases h; omega
    · split at h
      · cases h; omega
      · cases h

/-- The loop reads a numeral from the front. -/
theorem atoiLoop_eq : ∀ {s : List UInt8} {ds : List ℕ} (n : ℕ), s.map digitValue = ds.map some →
    (∀ d ∈ ds, d < 10) →
    Ulib.atoiLoop (BitVec.ofNat 32 n) s = BitVec.ofNat 32 (ds.foldl (fun n d => n * 10 + d) n)
  | [], [], _, _, _ => rfl
  | c :: s, d :: ds, n, h, hds => by
      obtain ⟨hc, hs⟩ := List.cons_eq_cons.mp h
      obtain ⟨hd, hds⟩ := List.forall_mem_cons.mp hds
      obtain ⟨hrange, hval⟩ := digit_of_value hc hd
      rw [Ulib.atoiLoop, if_pos hrange, BitVec.sub_eq_add_neg, BitVec.add_assoc,
        ← BitVec.sub_eq_add_neg, hval, List.foldl_cons, ← atoiLoop_eq (n * 10 + d) hs hds,
        BitVec.ofNat_add, BitVec.ofNat_mul]
      rfl

/-- `atoi` reads back a numeral. -/
theorem atoi_numeral {s : List UInt8} {n : ℕ} (h : Numeral 10 s n) :
    Ulib.atoi s = BitVec.ofNat 32 n := by
  obtain ⟨ds, hs, hds⟩ := h
  rw [← hds.value, ← foldl_digits]
  exact atoiLoop_eq 0 hs hds.digit_lt

theorem atoi_decimal {s : List UInt8} {xx : Word} (h : Decimal s xx.toInt) (hxx : 0 ≤ xx.toInt) :
    Ulib.atoi s = xx := by
  obtain ⟨ds, rfl, hds⟩ := h
  rw [if_neg (Int.not_lt.mpr hxx), List.nil_append, atoi_numeral hds, ← toNat_abs,
    if_neg (Int.not_lt.mpr hxx), BitVec.ofNat_toNat, BitVec.setWidth_eq]

/-- What the two functions print for a number: `putc` gets a decimal numeral for base 10 and a
hexadecimal numeral for base 16, and `atoi` reads the decimal numeral back. -/
theorem printint_numerals (cons : Console.Cons) (fd xx : Word) :
    (∃ k u, Console.printint cons xx 10 true = k.forM (Console.putChar cons) ∧
      Printf.printint fd xx 10 true = u.forM (Printf.putc fd) ∧
      Decimal k xx.toInt ∧ Decimal u xx.toInt ∧
      (0 ≤ xx.toInt → Ulib.atoi k = xx ∧ Ulib.atoi u = xx)) ∧
    (∃ k u, Console.printint cons xx 16 false = k.forM (Console.putChar cons) ∧
      Printf.printint fd xx 16 false = u.forM (Printf.putc fd) ∧
      Numeral 16 k xx.toNat ∧ Numeral 16 u xx.toNat) := by
  have hk := isTable_console.decimal xx.toInt
  have hu := isTable_printf.decimal xx.toInt
  constructor
  · exact ⟨_, _, console_printint_decimal xx cons, printf_printint_decimal xx fd, hk, hu,
      fun hxx => ⟨atoi_decimal hk hxx, atoi_decimal hu hxx⟩⟩
  · exact ⟨_, _, console_printint_hex xx cons, printf_printint_hex xx fd,
      isTable_console.numeral (by decide) (by decide) _,
      isTable_printf.numeral (by decide) (by decide) _⟩

end Xv6Arm.Print
