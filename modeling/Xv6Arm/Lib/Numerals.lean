import Mathlib.Data.Nat.Digits.Lemmas

/-!
# Numerals

A numeral of a number in a base: its digits from the highest one, with no zero in front.
The number 0 has the numeral that is one zero, where `Nat.digits` has no digit at all.

`lowDigits` are the digits as repeated division gives them, from the lowest one
(`lowDigits_eq`).  Read backwards they are the numeral (`isNumeral_reverse_lowDigits`), and
`foldl_digits` reads a numeral from the front.
-/

namespace Numerals

/-- The digits of a number from the lowest one, at least one digit. -/
def lowDigits (b n : ℕ) : List ℕ := if n = 0 then [0] else Nat.digits b n

/-- `ds` is the numeral of `n`, from the highest digit. -/
structure IsNumeral (b : ℕ) (ds : List ℕ) (n : ℕ) : Prop where
  digit_lt : ∀ d ∈ ds, d < b
  value : Nat.ofDigits b ds.reverse = n
  ne_nil : ds ≠ []
  no_leading_zero : ds.head? = some 0 → ds = [0]

variable {b n k : ℕ}

theorem lowDigits_zero : lowDigits b 0 = [0] := if_pos rfl

theorem lowDigits_of_ne_zero (h : n ≠ 0) : lowDigits b n = Nat.digits b n := if_neg h

/-- The digits by repeated division. -/
theorem lowDigits_eq (hb : 1 < b) (n : ℕ) :
    lowDigits b n = n % b :: if n / b = 0 then [] else lowDigits b (n / b) := by
  rcases Nat.eq_zero_or_pos n with rfl | hn
  · rw [lowDigits_zero, Nat.zero_mod, Nat.zero_div, if_pos rfl]
  rw [lowDigits_of_ne_zero hn.ne', Nat.digits_def' hb hn]
  split
  · next h => rw [h, Nat.digits_zero]
  · next h => rw [lowDigits_of_ne_zero h]

theorem lowDigits_ne_nil (hb : 1 < b) : lowDigits b n ≠ [] := by
  rw [lowDigits_eq hb]
  exact List.cons_ne_nil _ _

theorem lt_of_mem_lowDigits (hb : 1 < b) {d : ℕ} (h : d ∈ lowDigits b n) : d < b := by
  unfold lowDigits at h
  split at h
  · rw [List.mem_singleton.mp h]
    exact Nat.zero_lt_of_lt hb
  · exact Nat.digits_lt_base hb h

theorem length_lowDigits_le (hb : 1 < b) (hk : 0 < k) (h : n < b ^ k) :
    (lowDigits b n).length ≤ k := by
  unfold lowDigits
  split
  · exact hk
  · exact (Nat.digits_length_le_iff hb n).mpr h

theorem ofDigits_lowDigits (b n : ℕ) : Nat.ofDigits b (lowDigits b n) = n := by
  unfold lowDigits
  split
  · next h => rw [Nat.ofDigits_singleton, h]
  · exact Nat.ofDigits_digits b n

/-- Read backwards, the digits are the numeral. -/
theorem isNumeral_reverse_lowDigits (hb : 1 < b) (n : ℕ) :
    IsNumeral b (lowDigits b n).reverse n where
  digit_lt d hd := lt_of_mem_lowDigits hb (List.mem_reverse.mp hd)
  value := by rw [List.reverse_reverse, ofDigits_lowDigits]
  ne_nil := List.reverse_ne_nil_iff.mpr (lowDigits_ne_nil hb)
  no_leading_zero h := by
    rcases eq_or_ne n 0 with rfl | hn
    · rfl
    · -- The highest digit of a number other than 0 is not 0.
      have hne : Nat.digits b n ≠ [] := Nat.digits_ne_nil_iff_ne_zero.mpr hn
      rw [lowDigits_of_ne_zero hn, List.head?_reverse, List.getLast?_eq_some_getLast hne] at h
      exact absurd (Option.some_inj.mp h) (Nat.getLast_digit_ne_zero b hn)

/-- A numeral read from the front. -/
theorem foldl_digits (ds : List ℕ) :
    ds.foldl (fun n d => n * b + d) 0 = Nat.ofDigits b ds.reverse := by
  rw [Nat.ofDigits_eq_foldr, List.foldr_reverse]
  congr 1
  funext n d
  rw [Nat.mul_comm, Nat.add_comm, Nat.cast_id]

end Numerals
