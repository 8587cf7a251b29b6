import Mathlib.Data.List.Rotate
import Mathlib.Data.List.Iterate
import Mathlib.Order.Basic

/-!
# Circular lists

A circular list in a memory is a path along the links of its nodes that comes
back to the node it started at.  `Circle next l` says that the links run through
`l` and back to the head of `l`.  Which node comes first does not matter: a
rotation of `l` is the same circle (`Circle.rotate`), and so a circle can be
opened at any of its nodes (`Circle.path`).

`walk` is a search along the links.  `walk_path` lets it pass a path on which it
does not stop.  It never ends in a set of nodes that the links do not leave and
where it does not stop (`walk_eq_none`).
-/

namespace Circles

variable {A : Type*} {next next' : A → A} {a e : A} {l l' : List A}

/-- The first node of a path through `l` to `e`. -/
def first : List A → A → A
  | [], e => e
  | a :: _, _ => a

/-- From the first node of `l` the links run through `l` and then to `e`. -/
def Path (next : A → A) : List A → A → Prop
  | [], _ => True
  | a :: l, e => next a = first l e ∧ Path next l e

theorem first_append (u v : List A) (e : A) : first (u ++ v) e = first u (first v e) := by
  cases u <;> rfl

/-- A path in two parts. -/
theorem path_append :
    ∀ {u v : List A}, Path next (u ++ v) e ↔ Path next u (first v e) ∧ Path next v e
  | [], v => (iff_of_eq (true_and _)).symm
  | a :: u, v => by
      rw [List.cons_append, Path, Path, first_append, path_append, and_assoc]

/-- A path depends on the links of its nodes only. -/
theorem Path.congr : ∀ {l : List A}, Path next l e → (∀ a ∈ l, next' a = next a) → Path next' l e
  | [], _, _ => trivial
  | a :: _, h, heq =>
      ⟨(heq a List.mem_cons_self).trans h.1,
        Path.congr h.2 fun b hb => heq b (List.mem_cons_of_mem a hb)⟩

/-- The links from the first node of a path. -/
theorem Path.iterate : ∀ {l : List A}, Path next l e →
    List.iterate next (first l e) l.length = l ∧ next^[l.length] (first l e) = e
  | [], _ => ⟨rfl, rfl⟩
  | a :: l, h => by
      obtain ⟨hlist, hend⟩ := Path.iterate h.2
      rw [← h.1] at hlist hend
      exact ⟨congrArg (a :: ·) hlist, hend⟩

/-- Where the link of a node of a path leads. -/
theorem Path.next_mem : ∀ {l : List A}, Path next l e → ∀ a ∈ l, next a ∈ l ∨ next a = e
  | b :: l, h, a, ha => by
      rcases List.mem_cons.mp ha with rfl | ha
      · rw [h.1]
        cases l with
        | nil => exact .inr rfl
        | cons c l => exact .inl (List.mem_cons_of_mem _ List.mem_cons_self)
      · exact (Path.next_mem h.2 a ha).imp_left (List.mem_cons_of_mem b)

/-- A path in increasing order: a link leads up, or to the end. -/
theorem Path.lt_next [Preorder A] : ∀ {l : List A}, Path next l e → l.Pairwise (· < ·) →
    ∀ a ∈ l, a < next a ∨ next a = e
  | b :: l, h, hlt, a, ha => by
      rw [List.pairwise_cons] at hlt
      rcases List.mem_cons.mp ha with rfl | ha
      · rw [h.1]
        cases l with
        | nil => exact .inr rfl
        | cons c l => exact .inl (hlt.1 c List.mem_cons_self)
      · exact Path.lt_next h.2 hlt.2 a ha

/-- A path up to any of its nodes, or to its end. -/
theorem Path.upto {u v : List A} (h : Path next l e) (heq : l ++ [e] = u ++ a :: v) :
    Path next u a ∧ ∀ b ∈ u, b ∈ l := by
  rcases List.eq_nil_or_concat v with rfl | ⟨v, b, rfl⟩
  · obtain ⟨rfl, hae⟩ := List.append_inj' heq rfl
    obtain rfl := List.singleton_inj.mp hae
    exact ⟨h, fun b hb => hb⟩
  · have heq : l ++ [e] = (u ++ a :: v) ++ [b] := by
      rw [heq, List.concat_eq_append, List.append_assoc, List.cons_append]
    obtain ⟨rfl, -⟩ := List.append_inj' heq rfl
    exact ⟨(path_append.mp h).1, fun b hb => List.mem_append_left _ hb⟩

/-! ## Circles -/

/-- The links run through `l` and back to its head. -/
def Circle (next : A → A) : List A → Prop
  | [] => False
  | a :: l => Path next (a :: l) a

theorem Circle.congr (h : Circle next l) (heq : ∀ a ∈ l, next' a = next a) : Circle next' l := by
  cases l with
  | nil => exact h
  | cons a l => exact Path.congr h heq

/-- A circle starts at any of its nodes. -/
theorem Circle.rotate (h : Circle next l) (hr : l ~r l') : Circle next l' := by
  obtain ⟨n, rfl⟩ := hr
  induction n with
  | zero => rwa [List.rotate_zero]
  | succ n ih =>
      rw [← List.rotate_rotate]
      cases hl : l.rotate n with
      | nil =>
        rw [hl] at ih
        exact ih.elim
      | cons a w =>
        rw [hl] at ih
        show Circle next ((a :: w).rotate 1)
        rw [List.rotate_cons_succ, List.rotate_zero]
        -- The head is put at the end.
        obtain ⟨ha, hw⟩ : next a = first w a ∧ Path next w a := ih
        cases w with
        | nil => exact ⟨ha, trivial⟩
        | cons b w =>
          show Path next (b :: w ++ [a]) b
          exact path_append.mpr ⟨hw, ha, trivial⟩

/-- A circle opened at one of its nodes. -/
theorem Circle.path (h : Circle next l) (ha : a ∈ l) :
    ∃ w, (a :: w) ~r l ∧ Path next (a :: w) a := by
  obtain ⟨u, v, rfl⟩ := List.append_of_mem ha
  have hr : (u ++ a :: v) ~r (a :: v ++ u) := List.isRotated_append
  exact ⟨v ++ u, hr.symm, h.rotate hr⟩

theorem circle_iff_path (hl : l ≠ []) : Circle next l ↔ Path next l (first l e) := by
  cases l with
  | nil => exact absurd rfl hl
  | cons a l => exact Iff.rfl

theorem Path.first_cons_map : ∀ {l : List A}, Path next l e → first l e :: l.map next = l ++ [e]
  | [], _ => rfl
  | a :: l, h => by
      show a :: next a :: l.map next = a :: (l ++ [e])
      rw [h.1, Path.first_cons_map h.2]

/-- The links of a circle are the circle, one node on. -/
theorem Circle.map_next (h : Circle next l) : l.map next = l.rotate 1 := by
  cases l with
  | nil => exact h.elim
  | cons a l =>
    rw [List.rotate_cons_succ, List.rotate_zero]
    exact (List.cons.inj (Path.first_cons_map h)).2

/-- A node has one predecessor on a circle. -/
theorem Circle.next_inj {b : A} (h : Circle next l) (hl : l.Nodup) (ha : a ∈ l) (hb : b ∈ l)
    (hab : next a = next b) : a = b := by
  have hmap : (l.map next).Nodup := by
    rw [h.map_next, List.nodup_rotate]
    exact hl
  exact List.inj_on_of_nodup_map hmap ha hb hab

/-! ## Searches -/

/-- Follows the links until a node where the search stops. -/
def walk (next : A → A) (stop : A → Bool) : Nat → A → Option A
  | 0, _ => none
  | n + 1, a => if stop a then some a else walk next stop n (next a)

/-- A search passes a path on which it does not stop. -/
theorem walk_path {stop : A → Bool} {n : Nat} : ∀ {l : List A}, Path next l e →
    (∀ a ∈ l, stop a = false) → walk next stop (n + l.length) (first l e) = walk next stop n e
  | [], _, _ => rfl
  | a :: l, h, hstop => by
      show walk next stop (n + l.length + 1) a = _
      rw [walk, hstop a List.mem_cons_self, if_neg Bool.false_ne_true, h.1]
      exact walk_path h.2 fun b hb => hstop b (List.mem_cons_of_mem a hb)

/-- A search along a path to the first node where it stops. -/
theorem walk_eq_some {stop : A → Bool} {n : Nat} (h : Path next l e)
    (hstop : ∀ a ∈ l, stop a = false) (hend : stop e = true) (hn : l.length < n) :
    walk next stop n (first l e) = some e := by
  obtain ⟨k, rfl⟩ := Nat.exists_eq_add_of_lt hn
  rw [show l.length + k + 1 = k + 1 + l.length by omega, walk_path h hstop, walk, hend, if_pos rfl]

/-- A search that cannot leave nodes where it does not stop. -/
theorem walk_eq_none {stop : A → Bool} {S : A → Prop} (hnext : ∀ a, S a → S (next a))
    (hstop : ∀ a, S a → stop a = false) (n : Nat) (ha : S a) : walk next stop n a = none := by
  induction n generalizing a with
  | zero => rfl
  | succ n ih =>
      rw [walk, hstop a ha, if_neg Bool.false_ne_true]
      exact ih (hnext a ha)

/-- The links from a node of a circle lead to all of its nodes, and to no others. -/
theorem Circle.mem_iff_iterate {b : A} (h : Circle next l) (ha : a ∈ l) :
    b ∈ l ↔ ∃ k, b = next^[k] a := by
  obtain ⟨w, hrot, hpath⟩ := h.path ha
  constructor
  · intro hb
    rw [← hrot.mem_iff, ← hpath.iterate.1] at hb
    obtain ⟨k, -, hk⟩ := List.mem_iterate.mp hb
    exact ⟨k, hk⟩
  · rintro ⟨k, rfl⟩
    induction k with
    | zero => exact ha
    | succ k ih =>
        rw [Function.iterate_succ_apply']
        have hmem := hrot.mem_iff.mpr ih
        refine hrot.mem_iff.mp ((hpath.next_mem _ hmem).elim id fun heq => ?_)
        rw [heq]
        exact List.mem_cons_self

end Circles
