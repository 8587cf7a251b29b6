import Mathlib.Data.List.Basic

/-!
# Computations that may fail

Rules for computations in `Except`: how they evaluate, and how a fold over a list
keeps an invariant.  `Ends` says how a computation may return and how it may
fail.  `Returns` is total correctness for computations that also have a state, and
`ReturnsOr` leaves out a case, in which the computation may be known to fail.
-/

namespace Fallible

universe u v

variable {ε : Type u} {α β σ : Type v}

@[simp] theorem ok_bind (a : α) (g : α → Except ε β) : (Except.ok a >>= g) = g a := rfl

@[simp] theorem error_bind (e : ε) (g : α → Except ε β) : (Except.error e >>= g) = .error e := rfl

/-- A computation that returns has gone through its first part. -/
theorem bind_eq_ok {x : Except ε α} {g : α → Except ε β} {b : β} :
    (x >>= g) = .ok b ↔ ∃ a, x = .ok a ∧ g a = .ok b := by
  cases x with
  | error e => simp
  | ok a => simp

/-- What every round keeps holds after a fold that returns. -/
theorem foldlM_invariant {f : σ → α → Except ε σ} (I : List α → σ → Prop) {l : List α}
    (hstep : ∀ r a s s', I r s → f s a = .ok s' → I (r ++ [a]) s') :
    ∀ {r : List α} {s s' : σ}, I r s → l.foldlM f s = .ok s' → I (r ++ l) s' := by
  induction l with
  | nil =>
      intro r s s' h hs
      cases hs
      rwa [List.append_nil]
  | cons a l ih =>
      intro r s s' h hs
      rw [List.foldlM_cons, bind_eq_ok] at hs
      obtain ⟨s₁, h₁, h₂⟩ := hs
      have hI := ih (hstep r a s s₁ h h₁) h₂
      rwa [List.append_assoc] at hI

/-- The computation returns with `Q`, or it fails with `E`. -/
def Ends (x : Except ε α) (Q : α → Prop) (E : ε → Prop) : Prop :=
  match x with
  | .ok a => Q a
  | .error e => E e

section Ends

variable {x : Except ε α} {g : α → Except ε β} {Q R : α → Prop} {E : ε → Prop}

theorem Ends.bind {R : β → Prop} (h : Ends x Q E) (hg : ∀ a, Q a → Ends (g a) R E) :
    Ends (x >>= g) R E := by
  cases x with
  | ok a => exact hg a h
  | error e => exact h

theorem Ends.mono (h : Ends x Q E) (hQ : ∀ a, Q a → R a) : Ends x R E := by
  cases x with
  | ok a => exact hQ a h
  | error e => exact h

end Ends

/-- The computation does not fail, and ends with `Q`. -/
def Returns (x : StateT σ (Except ε) α) (s : σ) (Q : α → σ → Prop) : Prop :=
  ∃ a t, x.run s = .ok (a, t) ∧ Q a t

section Returns

variable {x : StateT σ (Except ε) α} {g : α → StateT σ (Except ε) β} {s : σ}
  {Q R : α → σ → Prop}

theorem returns_pure {a : α} (h : Q a s) : Returns (pure a : StateT σ (Except ε) α) s Q :=
  ⟨a, s, rfl, h⟩

/-- The rule of sequence. -/
theorem Returns.bind {R : β → σ → Prop} (h : Returns x s Q)
    (hg : ∀ a t, Q a t → Returns (g a) t R) : Returns (x >>= g) s R := by
  obtain ⟨a, t, hx, hQ⟩ := h
  obtain ⟨b, u, hy, hR⟩ := hg a t hQ
  refine ⟨b, u, ?_, hR⟩
  rw [StateT.run_bind, hx]
  exact hy

theorem Returns.mono (h : Returns x s Q) (hQ : ∀ a t, Q a t → R a t) : Returns x s R := by
  obtain ⟨a, t, hx, ha⟩ := h
  exact ⟨a, t, hx, hQ a t ha⟩

section State

variable {σ : Type v} {β : Type v} {s t : σ} {g : σ → StateT σ (Except ε) β} {R : β → σ → Prop}
  {Q : PUnit → σ → Prop}

/-- A computation that reads the state first. -/
theorem returns_get (h : Returns (g s) s R) : Returns (get >>= g) s R := h

theorem returns_set (h : Q ⟨⟩ t) : Returns (set t : StateT σ (Except ε) PUnit) s Q :=
  ⟨⟨⟩, t, rfl, h⟩

theorem returns_modify {f : σ → σ} (h : Q ⟨⟩ (f s)) :
    Returns (modify f : StateT σ (Except ε) PUnit) s Q :=
  ⟨⟨⟩, f s, rfl, h⟩

end State

end Returns

/-- The computation returns with `Q`, or it is the case that `F`.  Then it fails with
`e`, if `D`. -/
def ReturnsOr (x : StateT σ (Except ε) α) (s : σ) (Q : α → σ → Prop) (F D : Prop) (e : ε) : Prop :=
  Returns x s Q ∨ F ∧ (D → x.run s = .error e)

section ReturnsOr

variable {x : StateT σ (Except ε) α} {g : α → StateT σ (Except ε) β} {s : σ} {a : α}
  {Q R : α → σ → Prop} {F G D : Prop} {e : ε}

theorem returnsOr_pure (h : Q a s) : ReturnsOr (pure a : StateT σ (Except ε) α) s Q F D e :=
  .inl (returns_pure h)

/-- The rule of sequence. -/
theorem ReturnsOr.bind {R : β → σ → Prop} (h : ReturnsOr x s Q F D e)
    (hg : ∀ a t, Q a t → ReturnsOr (g a) t R F D e) : ReturnsOr (x >>= g) s R F D e := by
  rcases h with ⟨a, t, hx, hQ⟩ | ⟨hF, hfail⟩
  · have hrun : (x >>= g).run s = (g a).run t := by
      rw [StateT.run_bind, hx, ok_bind]
    rcases hg a t hQ with ⟨b, u, hb, hR⟩ | ⟨hF, hfail⟩
    · exact .inl ⟨b, u, hrun.trans hb, hR⟩
    · exact .inr ⟨hF, fun hD => hrun.trans (hfail hD)⟩
  · refine .inr ⟨hF, fun hD => ?_⟩
    rw [StateT.run_bind, hfail hD, error_bind]

theorem ReturnsOr.imp (h : ReturnsOr x s Q F D e) (hQ : ∀ a t, Q a t → R a t) (hF : F → G) :
    ReturnsOr x s R G D e :=
  Or.imp (fun hx => hx.mono hQ) (fun hx => ⟨hF hx.1, hx.2⟩) h

end ReturnsOr

end Fallible
