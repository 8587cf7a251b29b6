import Mathlib.Data.List.Basic
import Mathlib.Logic.Function.Basic
import Mathlib.Data.Nat.ModEq

/-!
# Ring buffers with wrapping counters

A ring of `cap` slots is driven by two free-running counters.  The write counter
counts the items ever put in and the read counter the items ever taken out, both
modulo `M`, and item number `k` lives in slot `k % cap`.  When `cap` divides `M`
and is smaller than it, the ring stays a queue across the wrap of the counters:
they are equal exactly when the ring is empty, and they are `cap` apart exactly
when it is full.

`Holds` ties the counters and the slots to the list of all items ever put in and
the number of items ever taken out.  The lemmas below say what the tests of the
counters mean in those terms and that putting and taking one item keep it.
-/

namespace Ring

variable {α : Type*} {cap M : Nat}

/-- The ring after the items of `log` were put in and `r` of them taken out. -/
structure Holds (cap M : Nat) (slot : Nat → α) (rd wr : Nat) (log : List α) (r : Nat) : Prop where
  /-- The read counter counts the items taken out. -/
  rd_eq : rd = r % M
  /-- The write counter counts the items put in. -/
  wr_eq : wr = log.length % M
  /-- Only items that were put in are taken out. -/
  taken : r ≤ log.length
  /-- At most `cap` items are in the ring. -/
  room : log.length ≤ r + cap
  /-- Every item in the ring is in its slot. -/
  slots : ∀ k (hk : k < log.length), r ≤ k → slot (k % cap) = log[k]

variable {slot : Nat → α} {rd wr r : Nat} {log : List α}

/-- Two counts less than `M` apart that agree modulo `M` are equal. -/
theorem eq_of_mod_eq {a b : Nat} (hab : a ≤ b) (hlt : b < a + M) (h : a % M = b % M) : a = b := by
  have hz : (b - a) % M = 0 := Nat.sub_mod_eq_zero_of_mod_eq h.symm
  rw [Nat.mod_eq_of_lt (by omega)] at hz
  omega

theorem holds_nil (slot : Nat → α) : Holds cap M slot 0 0 [] 0 where
  rd_eq := (Nat.zero_mod M).symm
  wr_eq := (Nat.zero_mod M).symm
  taken := Nat.le_refl 0
  room := Nat.zero_le _
  slots := by intro k hk; cases hk

/-- The counters are equal exactly when every item was taken out. -/
theorem Holds.empty_iff (h : Holds cap M slot rd wr log r) (hlt : cap < M) :
    rd = wr ↔ r = log.length := by
  have := h.taken
  have := h.room
  rw [h.rd_eq, h.wr_eq]
  constructor
  · exact eq_of_mod_eq (by omega) (by omega)
  · intro he
    rw [he]

/-- The counters are `cap` apart exactly when `cap` items are in the ring. -/
theorem Holds.full_iff (h : Holds cap M slot rd wr log r) (hlt : cap < M) :
    wr = (rd + cap) % M ↔ log.length = r + cap := by
  have := h.taken
  have := h.room
  rw [h.rd_eq, h.wr_eq, Nat.mod_add_mod]
  constructor
  · exact eq_of_mod_eq (by omega) (by omega)
  · intro he
    rw [he]

/-- The distance of the counters is the number of items in the ring. -/
theorem Holds.distance (h : Holds cap M slot rd wr log r) (hlt : cap < M) :
    (wr + (M - rd)) % M = log.length - r := by
  have := h.taken
  have := h.room
  have hrd : rd < M := by rw [h.rd_eq]; exact Nat.mod_lt _ (by omega)
  have hsum : (wr + (M - rd) + rd) % M = (log.length - r + rd) % M := by
    rw [show wr + (M - rd) + rd = wr + M by omega, Nat.add_mod_right, h.wr_eq, h.rd_eq,
      Nat.mod_mod, Nat.add_mod_mod, Nat.sub_add_cancel h.taken]
  have hmod : wr + (M - rd) ≡ log.length - r [MOD M] := Nat.ModEq.add_right_cancel' rd hsum
  rw [hmod, Nat.mod_eq_of_lt (by omega)]

/-- Putting one item in. -/
theorem Holds.push (h : Holds cap M slot rd wr log r) (hdvd : cap ∣ M)
    (hroom : log.length < r + cap) (a : α) :
    Holds cap M (Function.update slot (wr % cap) a) rd ((wr + 1) % M) (log ++ [a]) r where
  rd_eq := h.rd_eq
  wr_eq := by rw [h.wr_eq, List.length_append, List.length_singleton, Nat.mod_add_mod]
  taken := by
    have := h.taken
    rw [List.length_append]
    omega
  room := by
    rw [List.length_append, List.length_singleton]
    omega
  slots := by
    intro k hk hr
    rw [List.length_append, List.length_singleton] at hk
    have hslot : wr % cap = log.length % cap := by rw [h.wr_eq, Nat.mod_mod_of_dvd _ hdvd]
    by_cases hlast : k = log.length
    · subst hlast
      rw [hslot, Function.update_self, List.getElem_concat_length rfl]
    · -- an older item of the ring is less than `cap` back, so in another slot
      have hne : k % cap ≠ wr % cap := by
        rw [hslot]
        intro he
        exact hlast (eq_of_mod_eq (by omega) (by omega) he)
      rw [Function.update_of_ne hne, h.slots k (by omega) hr, List.getElem_append_left]

/-- The item the read counter points at is the oldest one in the ring. -/
theorem Holds.front (h : Holds cap M slot rd wr log r) (hdvd : cap ∣ M) (hr : r < log.length) :
    slot (rd % cap) = log[r] := by
  rw [h.rd_eq, Nat.mod_mod_of_dvd _ hdvd]
  exact h.slots r hr (Nat.le_refl r)

/-- Taking one item out. -/
theorem Holds.pop (h : Holds cap M slot rd wr log r) (hr : r < log.length) :
    Holds cap M slot ((rd + 1) % M) wr log (r + 1) where
  rd_eq := by rw [h.rd_eq, Nat.mod_add_mod]
  wr_eq := h.wr_eq
  taken := hr
  room := by
    have := h.room
    omega
  slots := fun k hk hk' => h.slots k hk (by omega)

/-- The slots from the read counter on hold the items not yet taken, in order. -/
theorem Holds.contents (h : Holds cap M slot rd wr log r) (hdvd : cap ∣ M) :
    (List.range (log.length - r)).map (fun k => slot ((rd + k) % cap)) = log.drop r := by
  apply List.ext_getElem
  · rw [List.length_map, List.length_range, List.length_drop]
  · intro k h1 h2
    rw [List.length_map, List.length_range] at h1
    have hk : r + k < log.length := by omega
    have hslot : (rd + k) % cap = (r + k) % cap := by
      rw [h.rd_eq, Nat.add_mod, Nat.mod_mod_of_dvd _ hdvd, ← Nat.add_mod]
    rw [List.getElem_map, List.getElem_range, hslot, h.slots (r + k) hk (by omega),
      List.getElem_drop]

end Ring
