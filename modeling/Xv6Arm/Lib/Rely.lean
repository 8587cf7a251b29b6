import Xv6Arm.Lib.Prog

/-!
# Programs under interference

Between two operations of a program something else can change the state, as far
as a relation `rely` allows.  `Prog.Safe` says what a program does under all such
changes: it passes only states with a guarantee `G`, does not panic or wait, and
ends with `Q`.  An assertion that no change can lose is `Stable`.
-/

namespace Programs

variable {I : Interface} {α β σ : Type}

/-- No change can lose the assertion. -/
def Stable (rely : σ → σ → Prop) (P : σ → Prop) : Prop :=
  ∀ s t, rely s t → P s → P t

namespace Prog

variable {handle : Handler I σ} {rely : σ → σ → Prop} {G : σ → Prop} {s t : σ}

/-- The program passes only states with `G`, and ends with `Q`, whatever changes
come between its operations. -/
def Safe (handle : Handler I σ) (rely : σ → σ → Prop) (G : σ → Prop) :
    Prog I α → σ → (α → σ → Prop) → Prop
  | .ret a, s, Q => G s ∧ Q a s
  | .panic _, _, _ => False
  | .op o k, s, Q => G s ∧
      ∀ t, rely s t → ∃ r u, handle o t = .ok (r, u) ∧ (k r).Safe handle rely G u Q

theorem Safe.guarantee {p : Prog I α} {Q : α → σ → Prop} (h : p.Safe handle rely G s Q) : G s := by
  cases p with
  | ret a => exact h.1
  | panic msg => exact h.elim
  | op o k => exact h.1

theorem safe_pure {a : α} {Q : α → σ → Prop} (hG : G s) (hQ : Q a s) :
    (pure a : Prog I α).Safe handle rely G s Q :=
  ⟨hG, hQ⟩

/-- An operation in a state with a stable assertion. -/
theorem safe_call {o : I.Op} {P : σ → Prop} {Q : I.Resp o → σ → Prop} (hP : Stable rely P)
    (hG : ∀ s, P s → G s) (hs : P s)
    (h : ∀ t, P t → ∃ r u, handle o t = .ok (r, u) ∧ G u ∧ Q r u) :
    (call o).Safe handle rely G s Q :=
  ⟨hG s hs, fun t hst => h t (hP s t hst hs)⟩

theorem Safe.mono {p : Prog I α} {Q R : α → σ → Prop} (h : p.Safe handle rely G s Q)
    (hQ : ∀ a t, Q a t → R a t) : p.Safe handle rely G s R := by
  induction p generalizing s with
  | ret a => exact ⟨h.1, hQ a s h.2⟩
  | panic msg => exact h.elim
  | op o k ih =>
      refine ⟨h.1, fun t hst => ?_⟩
      obtain ⟨r, u, hu, hsafe⟩ := h.2 t hst
      exact ⟨r, u, hu, ih r hsafe⟩

/-- The rule of sequence. -/
theorem Safe.bind {p : Prog I α} {f : α → Prog I β} {Q : α → σ → Prop} {R : β → σ → Prop}
    (h : p.Safe handle rely G s Q) (hf : ∀ a t, Q a t → (f a).Safe handle rely G t R) :
    (p >>= f).Safe handle rely G s R := by
  induction p generalizing s with
  | ret a => exact hf a s h.2
  | panic msg => exact h.elim
  | op o k ih =>
      refine ⟨h.1, fun t hst => ?_⟩
      obtain ⟨r, u, hu, hsafe⟩ := h.2 t hst
      exact ⟨r, u, hu, ih r hsafe⟩

/-- A change before the next operation keeps a program safe. -/
theorem Safe.change {p : Prog I α} {Q : α → σ → Prop} (hG : Stable rely G)
    (hQ : ∀ a, Stable rely (Q a)) (htrans : ∀ s t u, rely s t → rely t u → rely s u)
    (h : p.Safe handle rely G s Q) (hst : rely s t) : p.Safe handle rely G t Q := by
  cases p with
  | ret a => exact ⟨hG s t hst h.1, hQ a s t hst h.2⟩
  | panic msg => exact h.elim
  | op o k => exact ⟨hG s t hst h.1, fun u htu => h.2 u (htrans s t u hst htu)⟩

end Prog

end Programs
