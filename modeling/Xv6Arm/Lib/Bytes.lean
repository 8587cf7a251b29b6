import Mathlib.Data.List.Basic
import Mathlib.Data.Nat.ModEq
import Mathlib.Tactic.Ring

/-!
# Buffers of bytes with little-endian fields

A buffer of `N` bytes is a function on `Fin N`.  A *field* is `w` bytes at an
offset, read as a little-endian number by `getLe` and written by `putLe`.  A run
of bytes is written by `blit`.  A field that was just written reads back as the
number written, modulo `256 ^ w`, and a field that lies apart from what was
written reads as before.  A record inside a buffer is read by `slice` and written
by `paste`.
-/

namespace Bytes

/-- A buffer of `N` bytes. -/
abbrev Buf (N : Nat) := Fin N → UInt8

variable {N : Nat}

/-- Byte `i` of a buffer, 0 past its end. -/
def byteAt (b : Buf N) (i : Nat) : UInt8 := if h : i < N then b ⟨i, h⟩ else 0

/-- The buffer whose bytes are all 0. -/
def zeroBuf (N : Nat) : Buf N := fun _ => 0

theorem byteAt_of_lt (b : Buf N) {i : Nat} (h : i < N) : byteAt b i = b ⟨i, h⟩ := dif_pos h

@[simp] theorem byteAt_zeroBuf (i : Nat) : byteAt (zeroBuf N) i = 0 := by
  unfold byteAt zeroBuf
  split <;> rfl

/-- Two buffers with the same bytes are equal. -/
theorem ext_byteAt {a b : Buf N} (h : ∀ i, i < N → byteAt a i = byteAt b i) : a = b := by
  funext i
  have hi := h i.val i.isLt
  rw [byteAt_of_lt a i.isLt, byteAt_of_lt b i.isLt] at hi
  exact hi

/-! ## Little-endian numbers -/

/-- Byte `k` of a number. -/
def leByte (v k : Nat) : UInt8 := UInt8.ofNat (v / 256 ^ k)

/-- The number whose `w` bytes are `f 0, …, f (w - 1)`. -/
def leValue (f : Nat → UInt8) : Nat → Nat
  | 0 => 0
  | w + 1 => leValue f w + 256 ^ w * (f w).toNat

theorem leValue_leByte (v : Nat) : ∀ w, leValue (leByte v) w = v % 256 ^ w
  | 0 => by rw [leValue, Nat.pow_zero, Nat.mod_one]
  | w + 1 => by
      rw [leValue, leValue_leByte v w, Nat.mod_pow_succ, leByte, UInt8.toNat_ofNat']

theorem leValue_congr {f g : Nat → UInt8} :
    ∀ {w : Nat}, (∀ k, k < w → f k = g k) → leValue f w = leValue g w
  | 0, _ => rfl
  | w + 1, h => by
      rw [leValue, leValue, h w (Nat.lt_succ_self w),
        leValue_congr fun k hk => h k (Nat.lt_succ_of_lt hk)]

theorem leValue_lt (f : Nat → UInt8) : ∀ w, leValue f w < 256 ^ w
  | 0 => by rw [leValue, Nat.pow_zero]; exact Nat.one_pos
  | w + 1 => by
      have ih := leValue_lt f w
      have hb : (f w).toNat ≤ 255 := Nat.le_of_lt_succ (f w).toNat_lt
      have hmul : 256 ^ w * (f w).toNat ≤ 256 ^ w * 255 := Nat.mul_le_mul_left _ hb
      rw [leValue, Nat.pow_succ]
      omega

theorem leValue_zero : ∀ w, leValue (fun _ => 0) w = 0
  | 0 => rfl
  | w + 1 => by rw [leValue, leValue_zero w]; rfl

theorem leValue_eq_zero {f : Nat → UInt8} : ∀ {w : Nat}, leValue f w = 0 ↔ ∀ k, k < w → f k = 0
  | 0 => ⟨fun _ k hk => absurd hk (Nat.not_lt_zero k), fun _ => rfl⟩
  | w + 1 => by
      have hpow : 256 ^ w ≠ 0 := Nat.pos_iff_ne_zero.mp (Nat.pow_pos (by decide))
      rw [leValue, Nat.add_eq_zero_iff, leValue_eq_zero, Nat.mul_eq_zero, or_iff_right hpow]
      constructor
      · rintro ⟨hlow, hw⟩ k hk
        rcases Nat.lt_succ_iff_lt_or_eq.mp hk with hk | rfl
        · exact hlow k hk
        · exact UInt8.toNat_inj.mp hw
      · intro h
        exact ⟨fun k hk => h k (Nat.lt_succ_of_lt hk), by rw [h w (Nat.lt_succ_self w)]; rfl⟩

/-- The bytes of a number that was put together from bytes. -/
theorem leByte_leValue (f : Nat → UInt8) {k : Nat} :
    ∀ {w : Nat}, k < w → leByte (leValue f w) k = f k
  | w + 1, hk => by
      rw [leByte, leValue]
      cases Nat.lt_succ_iff_lt_or_eq.mp hk with
      | inl hlt =>
          obtain ⟨d, rfl⟩ := Nat.exists_eq_add_of_lt hlt
          have hpow : 256 ^ (k + d + 1) * (f (k + d + 1)).toNat =
              256 ^ k * (256 * (256 ^ d * (f (k + d + 1)).toNat)) := by ring
          rw [hpow, Nat.add_mul_div_left _ _ (Nat.pow_pos (by decide)), ← leByte_leValue f hlt, leByte]
          apply UInt8.toNat_inj.mp
          rw [UInt8.toNat_ofNat', UInt8.toNat_ofNat', Nat.add_mul_mod_self_left]
      | inr heq =>
          subst heq
          rw [Nat.add_mul_div_left _ _ (Nat.pow_pos (by decide)),
            Nat.div_eq_of_lt (leValue_lt f k), Nat.zero_add, UInt8.ofNat_toNat]

/-! ## Fields -/

/-- The `w` bytes at offset `off`, as a number. -/
def getLe (b : Buf N) (off w : Nat) : Nat := leValue (fun k => byteAt b (off + k)) w

/-- Writes a number into the `w` bytes at offset `off`. -/
def putLe (b : Buf N) (off w v : Nat) : Buf N :=
  fun i => if off ≤ i.val ∧ i.val < off + w then leByte v (i.val - off) else b i

/-- Writes the bytes `p` at offset `off`. -/
def blit (b : Buf N) (off : Nat) (p : List UInt8) : Buf N :=
  fun i => if off ≤ i.val then (p[i.val - off]?).getD (b i) else b i

theorem byteAt_putLe (b : Buf N) {off w v i : Nat} (hi : i < N) :
    byteAt (putLe b off w v) i =
      if off ≤ i ∧ i < off + w then leByte v (i - off) else byteAt b i := by
  rw [byteAt_of_lt _ hi, byteAt_of_lt _ hi, putLe]

theorem byteAt_blit (b : Buf N) {off i : Nat} {p : List UInt8} (hi : i < N) :
    byteAt (blit b off p) i = if off ≤ i then (p[i - off]?).getD (byteAt b i) else byteAt b i := by
  rw [byteAt_of_lt _ hi, byteAt_of_lt _ hi, blit]

theorem getLe_lt (b : Buf N) (off w : Nat) : getLe b off w < 256 ^ w := leValue_lt _ w

@[simp] theorem getLe_zeroBuf (off w : Nat) : getLe (zeroBuf N) off w = 0 := by
  unfold getLe
  simp only [byteAt_zeroBuf]
  exact leValue_zero w

/-- A field that was just written. -/
theorem getLe_putLe_self (b : Buf N) {off w v : Nat} (h : off + w ≤ N) :
    getLe (putLe b off w v) off w = v % 256 ^ w := by
  rw [getLe, ← leValue_leByte v w]
  apply leValue_congr
  intro k hk
  rw [byteAt_putLe b (by omega), if_pos (by omega), Nat.add_sub_cancel_left]

/-- A number that fits its field reads back. -/
theorem getLe_putLe_of_lt (b : Buf N) {off w v : Nat} (h : off + w ≤ N) (hv : v < 256 ^ w) :
    getLe (putLe b off w v) off w = v := by
  rw [getLe_putLe_self b h, Nat.mod_eq_of_lt hv]

/-- A field apart from the one written. -/
theorem getLe_putLe_of_disjoint (b : Buf N) {off w v off' w' : Nat} (h : off' + w' ≤ N)
    (hd : off' + w' ≤ off ∨ off + w ≤ off') :
    getLe (putLe b off w v) off' w' = getLe b off' w' := by
  apply leValue_congr
  intro k hk
  rw [byteAt_putLe b (by omega), if_neg (by omega)]

/-- A field apart from the bytes written. -/
theorem getLe_congr {a b : Buf N} {off w : Nat}
    (h : ∀ i, off ≤ i → i < off + w → byteAt a i = byteAt b i) : getLe a off w = getLe b off w :=
  leValue_congr fun k _ => h (off + k) (by omega) (by omega)

/-- The bytes of a field are those of its number. -/
theorem byteAt_eq_leByte (b : Buf N) (off : Nat) {w k : Nat} (hk : k < w) :
    byteAt b (off + k) = leByte (getLe b off w) k :=
  (leByte_leValue (fun k => byteAt b (off + k)) hk).symm

/-- A field that is written as it was. -/
theorem putLe_getLe (b : Buf N) (off w : Nat) : putLe b off w (getLe b off w) = b := by
  apply ext_byteAt
  intro i hi
  rw [byteAt_putLe b hi]
  split
  · next h => rw [← byteAt_eq_leByte b off (by omega), Nat.add_sub_cancel' h.1]
  · rfl

/-- Two buffers with the same field have the same bytes there. -/
theorem byteAt_congr {a b : Buf N} (off w : Nat) (h : getLe a off w = getLe b off w) {i : Nat}
    (hlow : off ≤ i) (hhigh : i < off + w) : byteAt a i = byteAt b i := by
  obtain ⟨k, rfl⟩ := Nat.exists_eq_add_of_le hlow
  rw [byteAt_eq_leByte a off (w := w) (by omega), byteAt_eq_leByte b off (w := w) (by omega), h]

/-! ## Records -/

/-- The `n` bytes at offset `off`. -/
def slice (b : Buf N) (off n : Nat) : Buf n := fun i => byteAt b (off + i.val)

/-- Writes a record at offset `off`. -/
def paste {n : Nat} (b : Buf N) (off : Nat) (c : Buf n) : Buf N :=
  fun i => if off ≤ i.val ∧ i.val < off + n then byteAt c (i.val - off) else b i

variable {n : Nat}

theorem byteAt_slice (b : Buf N) {off i : Nat} (hi : i < n) :
    byteAt (slice b off n) i = byteAt b (off + i) := by
  rw [byteAt_of_lt _ hi, slice]

theorem byteAt_paste (b : Buf N) {off i : Nat} {c : Buf n} (hi : i < N) :
    byteAt (paste b off c) i =
      if off ≤ i ∧ i < off + n then byteAt c (i - off) else byteAt b i := by
  rw [byteAt_of_lt _ hi, byteAt_of_lt b hi, paste]

/-- A record that was just written. -/
theorem slice_paste_self (b : Buf N) {off : Nat} {c : Buf n} (h : off + n ≤ N) :
    slice (paste b off c) off n = c := by
  apply ext_byteAt
  intro i hi
  rw [byteAt_slice _ hi, byteAt_paste _ (by omega), if_pos (by omega), Nat.add_sub_cancel_left]

/-- A record apart from the one written. -/
theorem slice_paste_of_disjoint (b : Buf N) {off off' : Nat} {c : Buf n} {n' : Nat}
    (h : off' + n' ≤ N) (hd : off' + n' ≤ off ∨ off + n ≤ off') :
    slice (paste b off c) off' n' = slice b off' n' := by
  apply ext_byteAt
  intro i hi
  rw [byteAt_slice _ hi, byteAt_slice _ hi, byteAt_paste _ (by omega), if_neg (by omega)]

/-- A record that is written as it was. -/
theorem paste_slice (b : Buf N) (off n : Nat) : paste b off (slice b off n) = b := by
  apply ext_byteAt
  intro i hi
  rw [byteAt_paste _ hi]
  split
  · next h => rw [byteAt_slice _ (by omega), Nat.add_sub_cancel' h.1]
  · rfl

/-- A record of which one field is written. -/
theorem paste_putLe_slice (b : Buf N) {off o w v : Nat} (h : o + w ≤ n) :
    paste b off (putLe (slice b off n) o w v) = putLe b (off + o) w v := by
  apply ext_byteAt
  intro i hi
  rw [byteAt_paste _ hi, byteAt_putLe _ hi]
  by_cases hin : off ≤ i ∧ i < off + n
  · rw [if_pos hin, byteAt_putLe _ (by omega), byteAt_slice _ (by omega)]
    rw [show i - off - o = i - (off + o) by omega, show off + (i - off) = i by omega]
    exact if_congr (by omega) rfl rfl
  · rw [if_neg hin, if_neg (by omega)]

theorem getLe_slice (b : Buf N) {off o w : Nat} (h : o + w ≤ n) :
    getLe (slice b off n) o w = getLe b (off + o) w := by
  apply leValue_congr
  intro k hk
  rw [byteAt_slice _ (by omega), Nat.add_assoc]

/-- A buffer is made of its records. -/
theorem ext_slices {a b : Buf N} (hn : 0 < n)
    (h : ∀ k, k * n < N → slice a (k * n) n = slice b (k * n) n) : a = b := by
  apply ext_byteAt
  intro i hi
  have hdiv : i / n * n + i % n = i := Nat.div_add_mod' i n
  have hmod : i % n < n := Nat.mod_lt _ hn
  have hs := congrArg (fun c => byteAt c (i % n)) (h (i / n) (by omega))
  simpa only [byteAt_slice _ hmod, hdiv] using hs

end Bytes
