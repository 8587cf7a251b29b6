import Mathlib.Data.List.Chain
import Mathlib.Data.List.Nodup
import Mathlib.Logic.Function.Basic
import Xv6Arm.Lib.Circle

/-!
# Doubly linked rings with a sentinel

The elements of a list are linked in both directions, and a sentinel closes the
list to a ring.  `Ring L h l` says that the links `next` run from the sentinel
`h` through `l` and back to `h`, and that the links `prev` run the other way.

`Links.unlink` takes an element out and `Links.push` puts one right behind the
sentinel, each by assignments to the links of the neighbours.  On the list they
are `List.erase` and `List.cons` (`Ring.unlink`, `Ring.push`), so taking an
element out and pushing it is a move to the front (`Ring.moveToFront`).  A search
along `next` finds what `List.find?` finds in the list, and a search along `prev`
what it finds in the reverse (`Ring.walk_next`, `Ring.walk_prev`).
-/

namespace Linked

open Circles

variable {A : Type*}

/-- The two links of every element. -/
structure Links (A : Type*) where
  /-- The element behind. -/
  next : A → A
  /-- The element in front. -/
  prev : A → A

/-- `b` stands right behind `a`. -/
def Joined (L : Links A) (a b : A) : Prop := L.next a = b ∧ L.prev b = a

/-- The ring of the sentinel `h` and the elements of `l`, in this order. -/
structure Ring (L : Links A) (h : A) (l : List A) : Prop where
  /-- Neighbours are joined, the last and the first element to the sentinel. -/
  joined : List.IsChain (Joined L) (h :: (l ++ [h]))
  /-- Nothing is in the ring twice. -/
  nodup : (h :: l).Nodup

/-- A chain of links depends on the links `next` of all elements but the last and
the links `prev` of all but the first. -/
theorem isChain_joined_congr {L L' : Links A} {l : List A} (hl : List.IsChain (Joined L) l)
    (hnext : ∀ a ∈ l.dropLast, L'.next a = L.next a)
    (hprev : ∀ a ∈ l.tail, L'.prev a = L.prev a) : List.IsChain (Joined L') l := by
  induction l with
  | nil => exact .nil
  | cons a l ih =>
    cases l with
    | nil => exact .singleton a
    | cons b l =>
      rw [List.isChain_cons_cons] at hl ⊢
      refine ⟨⟨?_, ?_⟩, ih hl.2 ?_ ?_⟩
      · rw [hnext a List.mem_cons_self]
        exact hl.1.1
      · rw [hprev b List.mem_cons_self]
        exact hl.1.2
      · exact fun c hc => hnext c (List.mem_cons_of_mem a hc)
      · exact fun c hc => hprev c (List.mem_cons_of_mem b hc)

/-! ## Searches -/

section Search

variable {L : Links A} {h : A} {l : List A}

theorem path_of_isChain : ∀ {l : List A}, List.IsChain (Joined L) (l ++ [h]) → Path L.next l h
  | [], _ => trivial
  | [_], hl => ⟨(List.isChain_pair.mp hl).1, trivial⟩
  | _ :: _ :: _, hl =>
    have hl := List.isChain_cons_cons.mp hl
    ⟨hl.1.1, path_of_isChain hl.2⟩

/-- The links `prev` are the links `next` of the reversed ring. -/
def Links.reverse (L : Links A) : Links A := ⟨L.prev, L.next⟩

theorem Ring.reverse (hr : Ring L h l) : Ring L.reverse h l.reverse where
  joined := by
    have hl : h :: (l.reverse ++ [h]) = (h :: (l ++ [h])).reverse := by
      rw [List.reverse_cons, List.reverse_append, List.reverse_singleton, List.singleton_append,
        List.cons_append]
    rw [hl, List.isChain_reverse]
    exact hr.joined.imp fun a b hab => ⟨hab.2, hab.1⟩
  nodup := by
    rw [List.nodup_cons, List.mem_reverse, List.nodup_reverse, ← List.nodup_cons]
    exact hr.nodup

theorem Ring.path (hr : Ring L h l) : Path L.next l h :=
  path_of_isChain (List.isChain_of_isChain_cons hr.joined)

theorem Ring.next_sentinel (hr : Ring L h l) : L.next h = first l h := by
  have hj := hr.joined
  cases l with
  | nil => exact (List.isChain_pair.mp hj).1
  | cons a l => exact (List.isChain_cons_cons.mp hj).1.1

variable [DecidableEq A]

/-- Where a search for `p` ends that starts behind the sentinel. -/
theorem walk_path_find {next : A → A} {p : A → Bool} {n : Nat} : ∀ {l : List A}, Path next l h →
    h ∉ l → l.length < n →
    walk next (fun a => a == h || p a) n (first l h) = some ((l.find? p).getD h)
  | l, hpath, hh, hn => by
    obtain ⟨k, rfl⟩ : ∃ k, n = k + 1 := ⟨n - 1, by omega⟩
    induction l generalizing k with
    | nil =>
      rw [first, walk, beq_self_eq_true, Bool.true_or, if_pos rfl]
      rfl
    | cons a l ih =>
      have ha : (a == h) = false := beq_false_of_ne fun heq => hh (heq ▸ List.mem_cons_self)
      rw [first, walk, ha, Bool.false_or, List.find?_cons]
      cases hp : p a with
      | true => rfl
      | false =>
        have hk : l.length < k := by
          rw [List.length_cons] at hn
          omega
        obtain ⟨j, rfl⟩ : ∃ j, k = j + 1 := ⟨k - 1, by omega⟩
        rw [if_neg Bool.false_ne_true, hpath.1]
        exact ih hpath.2 (fun hm => hh (List.mem_cons_of_mem a hm)) j hk

/-- A search along `next` finds the first element with `p`, or the sentinel. -/
theorem Ring.walk_next (hr : Ring L h l) (p : A → Bool) {n : Nat} (hn : l.length < n) :
    walk L.next (fun a => a == h || p a) n (L.next h) = some ((l.find? p).getD h) := by
  rw [hr.next_sentinel]
  exact walk_path_find hr.path (List.nodup_cons.mp hr.nodup).1 hn

/-- A search along `prev` finds the last element with `p`, or the sentinel. -/
theorem Ring.walk_prev (hr : Ring L h l) (p : A → Bool) {n : Nat} (hn : l.length < n) :
    walk L.prev (fun a => a == h || p a) n (L.prev h) = some ((l.reverse.find? p).getD h) :=
  hr.reverse.walk_next p (by rwa [List.length_reverse])

end Search

/-- The ring of the sentinel alone: its links lead to itself. -/
theorem Ring.nil {L : Links A} {h : A} (hn : L.next h = h) (hp : L.prev h = h) : Ring L h [] where
  joined := List.isChain_pair.mpr ⟨hn, hp⟩
  nodup := List.nodup_singleton h

/-! ## Changes -/

variable [DecidableEq A]

/-- Takes `b` out: `b->next->prev = b->prev`, then `b->prev->next = b->next`. -/
def Links.unlink (L : Links A) (b : A) : Links A :=
  let L : Links A := { L with prev := Function.update L.prev (L.next b) (L.prev b) }
  { L with next := Function.update L.next (L.prev b) (L.next b) }

/-- Puts `b` right behind `h`: `b->next = h->next`, `b->prev = h`,
`h->next->prev = b` and `h->next = b`, in this order. -/
def Links.push (L : Links A) (h b : A) : Links A :=
  let L : Links A := { L with next := Function.update L.next b (L.next h) }
  let L : Links A := { L with prev := Function.update L.prev b h }
  let L : Links A := { L with prev := Function.update L.prev (L.next h) b }
  { L with next := Function.update L.next h b }

section Changes

variable {L : Links A} {h b x y : A} {l u v : List A}

theorem unlink_eq (hxb : Joined L x b) (hby : Joined L b y) (hne : b ≠ y) :
    L.unlink b = ⟨Function.update L.next x y, Function.update L.prev y x⟩ := by
  show (⟨Function.update L.next (Function.update L.prev (L.next b) (L.prev b) b) (L.next b),
    Function.update L.prev (L.next b) (L.prev b)⟩ : Links A) = _
  rw [hby.1, hxb.2, Function.update_of_ne hne, hxb.2]

theorem push_eq (hhy : L.next h = y) (hne : h ≠ b) :
    L.push h b = ⟨Function.update (Function.update L.next b y) h b,
      Function.update (Function.update L.prev b h) y b⟩ := by
  show (⟨Function.update (Function.update L.next b (L.next h)) h b,
    Function.update (Function.update L.prev b h) (Function.update L.next b (L.next h) h) b⟩ :
      Links A) = _
  rw [Function.update_of_ne hne, hhy]

/-- Taking an element out of a ring. -/
theorem Ring.unlink (hr : Ring L h (u ++ b :: v)) : Ring (L.unlink b) h (u ++ v) := by
  have hnd : ((h :: u) ++ b :: v).Nodup := hr.nodup
  -- The neighbours `x` and `y` of `b`; either may be the sentinel.
  obtain ⟨w, x, hw⟩ : ∃ w x, h :: u = w ++ [x] :=
    ⟨_, _, (List.dropLast_append_getLast (List.cons_ne_nil h u)).symm⟩
  obtain ⟨y, z, hz⟩ : ∃ y z, v ++ [h] = y :: z := by
    cases v with
    | nil => exact ⟨h, [], rfl⟩
    | cons y z => exact ⟨y, z ++ [h], rfl⟩
  have hj : List.IsChain (Joined L) ((h :: u) ++ b :: (v ++ [h])) := by
    simpa using hr.joined
  rw [hz, hw, List.append_assoc, List.singleton_append, List.isChain_append_cons_cons,
    List.isChain_cons_cons] at hj
  obtain ⟨hleft, hxb, hby, hright⟩ := hj
  have hxmem : x ∈ h :: u := hw ▸ List.mem_append_right w List.mem_cons_self
  have hymem : y ∈ v ++ [h] := hz ▸ List.mem_cons_self
  have hxw : ∀ a ∈ w, a ≠ x := by
    have : (w ++ [x]).Nodup := hw ▸ hnd.of_append_left
    grind
  have hyz : ∀ a ∈ z, a ≠ y := by
    have : (y :: z).Nodup := by
      rw [← hz]
      grind
    grind
  have hxv : ∀ a ∈ v, a ≠ x := by grind
  have hyu : ∀ a ∈ u, a ≠ y := by grind
  have hne : b ≠ y := by grind
  rw [unlink_eq hxb hby hne]
  constructor
  · have hsplit : h :: (u ++ v ++ [h]) = w ++ x :: y :: z := by
      rw [List.append_assoc, hz, ← List.cons_append, hw, List.append_assoc, List.singleton_append]
    rw [hsplit, List.isChain_append_cons_cons]
    refine ⟨isChain_joined_congr hleft ?_ ?_, ⟨?_, ?_⟩, isChain_joined_congr hright ?_ ?_⟩
    · rw [List.dropLast_concat]
      exact fun a ha => Function.update_of_ne (hxw a ha) y L.next
    · rw [← hw]
      exact fun a ha => Function.update_of_ne (hyu a ha) x L.prev
    · exact Function.update_self x y L.next
    · exact Function.update_self y x L.prev
    · rw [← hz, List.dropLast_concat]
      exact fun a ha => Function.update_of_ne (hxv a ha) y L.next
    · exact fun a ha => Function.update_of_ne (hyz a ha) x L.prev
  · exact hnd.sublist ((List.sublist_cons_self b v).append_left (h :: u))

/-- Putting an element right behind the sentinel. -/
theorem Ring.push (hr : Ring L h l) (hb : b ∉ h :: l) : Ring (L.push h b) h (b :: l) := by
  have hnd := hr.nodup
  obtain ⟨y, z, hz⟩ : ∃ y z, l ++ [h] = y :: z := by
    cases l with
    | nil => exact ⟨h, [], rfl⟩
    | cons y z => exact ⟨y, z ++ [h], rfl⟩
  have hj := hr.joined
  rw [hz, List.isChain_cons_cons] at hj
  obtain ⟨⟨hhy, -⟩, hright⟩ := hj
  have hhb : h ≠ b := fun heq => hb (heq ▸ List.mem_cons_self)
  have hyb : b ≠ y := by
    have : y ∈ l ++ [h] := hz ▸ List.mem_cons_self
    grind
  have hyz : ∀ a ∈ z, a ≠ y ∧ a ≠ b := by
    have : (y :: z).Nodup ∧ ∀ a ∈ y :: z, a ≠ b := by
      rw [← hz]
      grind
    grind
  rw [push_eq hhy hhb]
  constructor
  · rw [List.cons_append, hz, List.isChain_cons_cons, List.isChain_cons_cons]
    refine ⟨⟨?_, ?_⟩, ⟨?_, ?_⟩, isChain_joined_congr hright ?_ ?_⟩
    · simp
    · simp [Function.update_of_ne hyb]
    · simp [Function.update_of_ne hhb.symm]
    · simp
    · rw [← hz, List.dropLast_concat]
      intro a ha
      have hah : a ≠ h := by grind
      have hab : a ≠ b := by grind
      simp [Function.update_of_ne hah, Function.update_of_ne hab]
    · intro a ha
      simp [Function.update_of_ne (hyz a ha).1, Function.update_of_ne (hyz a ha).2]
  · grind

/-- An element that is taken out and pushed moves to the front. -/
theorem Ring.moveToFront (hr : Ring L h l) (hb : b ∈ l) :
    Ring ((L.unlink b).push h b) h (b :: l.erase b) := by
  obtain ⟨u, v, rfl⟩ := List.append_of_mem hb
  have hnd := hr.nodup
  have herase : (u ++ b :: v).erase b = u ++ v := by
    rw [List.erase_append_right _ (by grind), List.erase_cons_head]
  rw [herase]
  exact hr.unlink.push (by grind)

end Changes

end Linked
