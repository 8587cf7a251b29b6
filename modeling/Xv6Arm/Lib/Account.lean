import Xv6Arm.Lib.Prog

/-!
# Accounts of the paths of a program

A path through a program is the list of its operations, with their responses, up
to the result.  An *account* reads a path and keeps a state, such as what the
program has taken and not given back.  It says of each operation what it makes of
it: a next state, a rule that is broken, or that the operation never returns with
that response.

`Prog.Settles` says of every path at once that it breaks no rule and what is left
at the end.  It goes along the program, and `Settles.path` reads it off for one
path.
-/

namespace Programs

variable {I : Interface} {α β μ : Type}

/-- An operation and its response. -/
abbrev Interface.Event (I : Interface) : Type := Σ o : I.Op, I.Resp o

/-- A path through a program that returns.  A path that panics does not. -/
inductive Path : Prog I α → List I.Event → α → Prop
  | ret (a : α) : Path (.ret a) [] a
  | op {o : I.Op} {k : I.Resp o → Prog I α} {r : I.Resp o} {tr : List I.Event} {a : α} :
      Path (k r) tr a → Path (.op o k) (⟨o, r⟩ :: tr) a

/-- What an account makes of an operation. -/
inductive Verdict (μ : Type)
  | ok (m : μ)
  | broken
  | never

/-- An account of operations and responses. -/
abbrev Account (I : Interface) (μ : Type) : Type := (o : I.Op) → I.Resp o → μ → Verdict μ

/-- The account of a path. -/
def Account.run (acc : Account I μ) : List I.Event → μ → Verdict μ
  | [], m => .ok m
  | x :: tr, m =>
      match acc x.1 x.2 m with
      | .ok m => acc.run tr m
      | .broken => .broken
      | .never => .never

namespace Prog

variable {acc : Account I μ} {m : μ}

/-- No path breaks a rule, and a path that returns ends with `Q`. -/
def Settles (acc : Account I μ) : Prog I α → μ → (α → μ → Prop) → Prop
  | .ret a, m, Q => Q a m
  | .panic _, _, _ => True
  | .op o k, m, Q => ∀ r,
      match acc o r m with
      | .ok m => (k r).Settles acc m Q
      | .broken => False
      | .never => True

theorem settles_pure {a : α} {Q : α → μ → Prop} (h : Q a m) :
    (pure a : Prog I α).Settles acc m Q := h

theorem settles_panic {msg : String} {Q : α → μ → Prop} :
    (Prog.panic msg : Prog I α).Settles acc m Q := trivial

/-- One operation that the account takes. -/
theorem settles_call {o : I.Op} {Q : I.Resp o → μ → Prop}
    (h : ∀ r, acc o r m = .never ∨ ∃ m', acc o r m = .ok m' ∧ Q r m') :
    (call o).Settles acc m Q := by
  intro r
  rcases h r with hr | ⟨m', hr, hQ⟩
  · rw [hr]
    trivial
  · rw [hr]
    exact hQ

theorem Settles.mono {p : Prog I α} {Q R : α → μ → Prop} (h : p.Settles acc m Q)
    (hQ : ∀ a m, Q a m → R a m) : p.Settles acc m R := by
  induction p generalizing m with
  | ret a => exact hQ a m h
  | panic msg => trivial
  | op o k ih =>
      intro r
      have hr := h r
      revert hr
      cases acc o r m with
      | ok m' => exact ih r
      | broken => exact id
      | never => exact id

/-- The rule of sequence. -/
theorem Settles.bind {p : Prog I α} {f : α → Prog I β} {Q : α → μ → Prop} {R : β → μ → Prop}
    (h : p.Settles acc m Q) (hf : ∀ a m, Q a m → (f a).Settles acc m R) :
    (p >>= f).Settles acc m R := by
  induction p generalizing m with
  | ret a => exact hf a m h
  | panic msg => trivial
  | op o k ih =>
      intro r
      have hr := h r
      revert hr
      cases acc o r m with
      | ok m' => exact ih r
      | broken => exact id
      | never => exact id

/-- What holds of every path, for one path. -/
theorem Settles.path {p : Prog I α} {Q : α → μ → Prop} (h : p.Settles acc m Q)
    {tr : List I.Event} {a : α} (hpath : Path p tr a) :
    acc.run tr m ≠ .broken ∧ ∀ m', acc.run tr m = .ok m' → Q a m' := by
  induction hpath generalizing m with
  | ret a =>
      refine ⟨by simp [Account.run], fun m' hm => ?_⟩
      cases hm
      exact h
  | @op o k r tr a _ ih =>
      have hr := h r
      rw [Account.run]
      revert hr
      cases acc o r m with
      | ok m' => exact fun hr => ih hr
      | broken => exact False.elim
      | never => exact fun _ => ⟨by simp, fun m' hm => by cases hm⟩

end Prog

end Programs
