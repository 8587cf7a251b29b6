import Mathlib.Data.List.Basic

/-!
# Chains

A list that is threaded through a memory: every element holds the next one, and
the last one holds `nil`.  `Chain nil next h l` says that the chain that starts
at `h` is finite and runs through exactly the elements of `l`.
-/

variable {A : Type*}

/-- The chain from `h` runs through `l` and ends in `nil`. -/
def Chain (nil : A) (next : A → A) : A → List A → Prop
  | h, [] => h = nil
  | h, p :: l => h = p ∧ p ≠ nil ∧ Chain nil next (next p) l

namespace Chain

variable {nil h : A} {next next' : A → A} {l l' : List A}

/-- A chain depends on the links of its elements only. -/
theorem congr : ∀ {h : A} {l : List A}, Chain nil next h l →
    (∀ p ∈ l, next' p = next p) → Chain nil next' h l
  | _, [], hc, _ => hc
  | _, p :: l, hc, heq => by
      refine ⟨hc.1, hc.2.1, ?_⟩
      rw [heq p (List.mem_cons_self ..)]
      exact congr hc.2.2 fun q hq => heq q (List.mem_cons_of_mem p hq)

/-- The elements of a chain are determined by its start. -/
theorem unique : ∀ {h : A} {l l' : List A}, Chain nil next h l → Chain nil next h l' → l = l'
  | _, [], [], _, _ => rfl
  | _, [], q :: _, hc, hc' => absurd (hc'.1.symm.trans hc) hc'.2.1
  | _, p :: _, [], hc, hc' => absurd (hc.1.symm.trans hc') hc.2.1
  | _, p :: l, q :: l', hc, hc' => by
      obtain rfl : p = q := hc.1.symm.trans hc'.1
      rw [unique hc.2.2 hc'.2.2]

/-- The start of a chain is determined by its elements. -/
theorem start_eq {h' : A} (hc : Chain nil next h l) (hc' : Chain nil next' h' l) : h = h' := by
  cases l with
  | nil => exact hc.trans (Eq.symm hc')
  | cons p t => exact hc.1.trans hc'.1.symm

end Chain
