import Mathlib.Data.List.GetD

/-!
# Writing into a list

`splice d off q` is the list `d` with the elements from `off` on replaced by `q`.
It grows where `q` reaches past its end.  Two writes one after the other are one
write (`splice_append`).
-/

namespace Splice

variable {α : Type*} {d p q : List α} {off i : Nat}

/-- The list `d` after `q` was written at `off`. -/
def splice (d : List α) (off : Nat) (q : List α) : List α :=
  d.take off ++ q ++ d.drop (off + q.length)

theorem getElem?_splice (h : off ≤ d.length) (i : Nat) :
    (splice d off q)[i]? = if i < off then d[i]? else if i < off + q.length then q[i - off]?
      else d[i]? := by
  unfold splice
  rw [List.append_assoc, List.getElem?_append, List.length_take, Nat.min_eq_left h]
  split
  · next hi => rw [List.getElem?_take, if_pos hi]
  · next hi =>
    rw [List.getElem?_append]
    split
    · next hq => rw [if_pos (by omega)]
    · next hq =>
      rw [if_neg (by omega), List.getElem?_drop]
      congr 1
      omega

theorem getD_splice (h : off ≤ d.length) (i : Nat) (a : α) :
    (splice d off q).getD i a = if i < off then d.getD i a else if i < off + q.length then
      q.getD (i - off) a else d.getD i a := by
  simp only [List.getD_eq_getElem?_getD, getElem?_splice h]
  split
  · rfl
  · split <;> rfl

theorem length_splice (h : off ≤ d.length) :
    (splice d off q).length = max d.length (off + q.length) := by
  simp only [splice, List.length_append, List.length_take, List.length_drop]
  omega

@[simp] theorem splice_nil : splice d off [] = d := by simp [splice]

/-- What was written reads back. -/
theorem take_drop_splice (h : off ≤ d.length) :
    ((splice d off q).drop off).take q.length = q := by
  have hlen : (d.take off).length = off := List.length_take_of_le h
  unfold splice
  rw [List.append_assoc, List.drop_left' hlen, List.take_left']
  rfl

/-- Two writes one after the other. -/
theorem splice_append (h : off ≤ d.length) :
    splice d off (p ++ q) = splice (splice d off p) (off + p.length) q := by
  have h' : off + p.length ≤ (splice d off p).length := by
    rw [length_splice h]
    omega
  apply List.ext_getElem?
  intro i
  rw [getElem?_splice h, getElem?_splice h', getElem?_splice h, List.length_append,
    List.getElem?_append]
  by_cases hoff : i < off
  · rw [if_pos hoff, if_pos (by omega), if_pos hoff]
  · rw [if_neg hoff, if_neg hoff]
    by_cases hp : i < off + p.length
    · rw [if_pos (by omega), if_pos (by omega), if_pos hp, if_pos hp]
    · rw [if_neg hp, if_neg hp, if_neg (by omega : ¬ i - off < p.length), Nat.sub_sub,
        ← Nat.add_assoc]

end Splice
