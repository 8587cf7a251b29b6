import Mathlib.Logic.Function.Basic
import Xv6Arm.Lib.Runs

/-!
# Programs over an interface

A program is a tree of operations of an interface: each operation has a
response, and the rest of the program depends on it.  The same program is read
in three ways.

* A *monitor* watches the operations on every path through the tree, whatever
  the responses are.  `Prog.Obeys` says that it allows all of them.
* A *handler* gives each operation its effect on a state.  `Prog.exec` runs a
  program alone, and `Prog.Ensures` is partial correctness for it.
* A *machine* interleaves the operations of many processes, each of which runs
  one program after the other.

`Machine.Watched.step` connects the first and the last: a monitor that allows
the programs on their own, and whose state the handler keeps for each process,
still allows what every process has left to run after a step of the machine.
-/

namespace Programs

open Runs

/-- The operations of an interface, with the type of the response to each. -/
structure Interface where
  Op : Type
  Resp : Op → Type

variable {I : Interface} {α β σ μ : Type}

/-- A program that returns an `α`. -/
inductive Prog (I : Interface) (α : Type) : Type
  | ret (a : α) : Prog I α
  | panic (msg : String) : Prog I α
  | op (o : I.Op) (k : I.Resp o → Prog I α) : Prog I α

namespace Prog

/-- Runs a second program on the result of a first. -/
def bind (p : Prog I α) (f : α → Prog I β) : Prog I β :=
  match p with
  | .ret a => f a
  | .panic msg => .panic msg
  | .op o k => .op o fun r => (k r).bind f

instance : Monad (Prog I) where
  pure := .ret
  bind := bind

/-- The program of one operation. -/
def call (o : I.Op) : Prog I (I.Resp o) := .op o .ret

end Prog

/-! ## Monitors -/

/-- A monitor has a state, allows some operations in it, and moves on with the
response.  It allows some messages of a panic. -/
structure Monitor (I : Interface) (μ : Type) where
  allows : I.Op → μ → Prop
  next : (o : I.Op) → I.Resp o → μ → μ
  fails : String → Prop

namespace Prog

variable {mon : Monitor I μ} {m : μ}

/-- The monitor allows every operation on every path, and a path that returns
ends in a result and a monitor state with `Q`. -/
def Obeys (mon : Monitor I μ) : Prog I α → μ → (α → μ → Prop) → Prop
  | .ret a, m, Q => Q a m
  | .panic msg, _, _ => mon.fails msg
  | .op o k, m, Q => mon.allows o m ∧ ∀ r, (k r).Obeys mon (mon.next o r m) Q

theorem Obeys.bind {p : Prog I α} {f : α → Prog I β} {Q : α → μ → Prop} {R : β → μ → Prop}
    (h : p.Obeys mon m Q) (hf : ∀ a m, Q a m → (f a).Obeys mon m R) :
    (p >>= f).Obeys mon m R := by
  induction p generalizing m with
  | ret a => exact hf a m h
  | panic msg => exact h
  | op o k ih => exact ⟨h.1, fun r => ih r (h.2 r)⟩

/-- Every operation on every path has `P`. -/
def Only (P : I.Op → Prop) (p : Prog I α) : Prop :=
  p.Obeys ⟨fun o _ => P o, fun _ _ m => m, fun _ => True⟩ () fun _ _ => True

theorem only_pure {P : I.Op → Prop} (a : α) : (pure a : Prog I α).Only P := trivial

theorem only_panic {P : I.Op → Prop} (msg : String) : (Prog.panic msg : Prog I α).Only P := trivial

theorem only_call {P : I.Op → Prop} {o : I.Op} (h : P o) : (call o).Only P :=
  ⟨h, fun _ => trivial⟩

theorem Only.bind {P : I.Op → Prop} {p : Prog I α} {f : α → Prog I β} (h : p.Only P)
    (hf : ∀ a, (f a).Only P) : (p >>= f).Only P :=
  Obeys.bind h fun a _ _ => hf a

end Prog

/-! ## Execution -/

/-- What comes of an operation or of a program: a result, a wait, or a panic. -/
inductive Outcome (α : Type) : Type
  | ok (a : α)
  | blocked
  | panic (msg : String)

/-- A test of the result. -/
def Outcome.test (p : α → Bool) : Outcome α → Bool
  | .ok a => p a
  | .blocked => false
  | .panic _ => false

theorem Outcome.test_eq_true {p : α → Bool} :
    ∀ {o : Outcome α}, o.test p = true ↔ ∃ a, o = .ok a ∧ p a = true
  | .ok a => by simp [Outcome.test]
  | .blocked => by simp [Outcome.test]
  | .panic msg => by simp [Outcome.test]

/-- The effect of each operation on a state. -/
abbrev Handler (I : Interface) (σ : Type) : Type :=
  (o : I.Op) → σ → Outcome (I.Resp o × σ)

namespace Prog

variable {handle : Handler I σ}

/-- Runs a program alone. -/
def exec (handle : Handler I σ) : Prog I α → σ → Outcome (α × σ)
  | .ret a, s => .ok (a, s)
  | .panic msg, _ => .panic msg
  | .op o k, s =>
      match handle o s with
      | .ok (r, t) => (k r).exec handle t
      | .blocked => .blocked
      | .panic msg => .panic msg

/-- A program that returns does so with a result and a state that satisfy `Q`. -/
def Ensures (handle : Handler I σ) (p : Prog I α) (s : σ) (Q : α → σ → Prop) : Prop :=
  ∀ a t, p.exec handle s = .ok (a, t) → Q a t

theorem ensures_ret {a : α} {s : σ} {Q : α → σ → Prop} (h : Q a s) :
    (Prog.ret a : Prog I α).Ensures handle s Q := by
  intro b t hb
  cases hb
  exact h

theorem ensures_pure {a : α} {s : σ} {Q : α → σ → Prop} (h : Q a s) :
    (pure a : Prog I α).Ensures handle s Q :=
  ensures_ret h

theorem ensures_panic {msg : String} {s : σ} {Q : α → σ → Prop} :
    (Prog.panic msg : Prog I α).Ensures handle s Q := by
  intro b t hb
  cases hb

theorem ensures_op {o : I.Op} {k : I.Resp o → Prog I α} {s : σ} {Q : α → σ → Prop}
    (h : ∀ r t, handle o s = .ok (r, t) → (k r).Ensures handle t Q) :
    (Prog.op o k).Ensures handle s Q := by
  intro a t ha
  rw [exec] at ha
  split at ha
  · next r u hu => exact h r u hu a t ha
  · cases ha
  · cases ha

theorem ensures_call {o : I.Op} {s : σ} {Q : I.Resp o → σ → Prop}
    (h : ∀ r t, handle o s = .ok (r, t) → Q r t) : (call o).Ensures handle s Q :=
  ensures_op fun r t hr => ensures_ret (h r t hr)

theorem Ensures.mono {p : Prog I α} {s : σ} {Q R : α → σ → Prop} (h : p.Ensures handle s Q)
    (hQ : ∀ a t, Q a t → R a t) : p.Ensures handle s R :=
  fun a t ha => hQ a t (h a t ha)

theorem Ensures.and {p : Prog I α} {s : σ} {Q R : α → σ → Prop} (hQ : p.Ensures handle s Q)
    (hR : p.Ensures handle s R) : p.Ensures handle s fun a t => Q a t ∧ R a t :=
  fun a t ha => ⟨hQ a t ha, hR a t ha⟩

/-- The rule of sequence. -/
theorem Ensures.bind {p : Prog I α} {f : α → Prog I β} {s : σ} {Q : α → σ → Prop}
    {R : β → σ → Prop} (h : p.Ensures handle s Q)
    (hf : ∀ a t, Q a t → (f a).Ensures handle t R) : (p >>= f).Ensures handle s R := by
  induction p generalizing s with
  | ret a => exact hf a s (h a s rfl)
  | panic msg => exact ensures_panic
  | op o k ih =>
      apply ensures_op
      intro r t hr
      apply ih r
      intro a u hu
      apply h a u
      rw [exec, hr]
      exact hu

/-- What no operation of a program changes is as before at its end. -/
theorem Only.frame {τ : Type} {f : σ → τ} {P : I.Op → Prop}
    (hframe : ∀ o s r t, P o → handle o s = .ok (r, t) → f t = f s) {p : Prog I α}
    (h : p.Only P) (s : σ) : p.Ensures handle s fun _ t => f t = f s := by
  induction p generalizing s with
  | ret a => exact ensures_ret rfl
  | panic msg => exact ensures_panic
  | op o k ih =>
      apply ensures_op
      intro r t hr
      refine (ih r (h.2 r) t).mono ?_
      intro a u hu
      rw [hu, hframe o s r t h.1 hr]

end Prog

/-! ## Interleaving -/

/-- The state that the processes share, the rest of the program of each process
that runs one, and the message of a panic, which ends all. -/
structure Machine (I : Interface) (σ π α : Type) where
  shared : σ
  prog : π → Option (Prog I α)
  halted : Option String

/-- A process starts a call, or takes the next step of its program. -/
inductive Label (π γ : Type) : Type
  | call (p : π) (c : γ)
  | step (p : π)

namespace Machine

variable {π γ : Type}

/-- Process `p` is about to do operation `o`. -/
def Next (M : Machine I σ π α) (p : π) (o : I.Op) : Prop :=
  ∃ k, M.prog p = some (.op o k)

/-- Every process obeys the monitor with what is left of its program, and ends
its program in the state `idle`. -/
def Watched (mon : Monitor I μ) (view : σ → π → μ) (idle : μ) (M : Machine I σ π α) : Prop :=
  ∀ p, match M.prog p with
    | some pr => pr.Obeys mon (view M.shared p) fun _ m => m = idle
    | none => view M.shared p = idle

theorem Watched.allows {mon : Monitor I μ} {view : σ → π → μ} {idle : μ} {M : Machine I σ π α}
    {p : π} {o : I.Op} (h : M.Watched mon view idle) (hnext : M.Next p o) :
    mon.allows o (view M.shared p) := by
  obtain ⟨k, hk⟩ := hnext
  have hp := h p
  rw [hk] at hp
  exact hp.1

variable [DecidableEq π]

/-- The next step of a process. -/
def advance (handle : π → Handler I σ) (p : π) (M : Machine I σ π α) :
    Option (Machine I σ π α) :=
  match M.prog p with
  | none => none
  | some (.ret _) => some { M with prog := Function.update M.prog p none }
  | some (.panic msg) => some { M with halted := some msg }
  | some (.op o k) =>
      match handle p o M.shared with
      | .ok (r, s) => some { M with shared := s, prog := Function.update M.prog p (some (k r)) }
      | .blocked => none
      | .panic msg => some { M with halted := some msg }

/-- A step of the machine.  After a panic there is none. -/
def step (handle : π → Handler I σ) (body : γ → Prog I α) (l : Label π γ)
    (M : Machine I σ π α) : Option (Machine I σ π α) :=
  match M.halted, l with
  | some _, _ => none
  | none, .call p c =>
      match M.prog p with
      | none => some { M with prog := Function.update M.prog p (some (body c)) }
      | some _ => none
  | none, .step p => M.advance handle p

variable {handle : π → Handler I σ} {body : γ → Prog I α} {mon : Monitor I μ}
  {view : σ → π → μ} {idle : μ} {M N : Machine I σ π α} {p : π}

theorem Watched.update (h : M.Watched mon view idle) {s : σ} {pr : Option (Prog I α)}
    (hothers : ∀ q, q ≠ p → view s q = view M.shared q)
    (hpr : match pr with
      | some pr => pr.Obeys mon (view s p) fun _ m => m = idle
      | none => view s p = idle) :
    Watched mon view idle { M with shared := s, prog := Function.update M.prog p pr } := by
  intro q
  rcases eq_or_ne q p with rfl | hq
  · simp only [Function.update_self]
    exact hpr
  · simp only [Function.update_of_ne hq, hothers q hq]
    exact h q

/-- A step keeps the processes watched. -/
theorem Watched.step
    (hview : ∀ p o s r t, handle p o s = .ok (r, t) →
      view t p = mon.next o r (view s p) ∧ ∀ q, q ≠ p → view t q = view s q)
    (hbody : ∀ c, (body c).Obeys mon idle fun _ m => m = idle) {l : Label π γ}
    (h : M.Watched mon view idle) (hstep : step handle body l M = some N) :
    N.Watched mon view idle := by
  unfold Machine.step at hstep
  split at hstep
  · cases hstep
  · next p c _ =>
    split at hstep
    · next hidle =>
      cases hstep
      have hp := h p
      rw [hidle] at hp
      refine h.update (fun _ _ => rfl) ?_
      simp only [hp]
      exact hbody c
    · cases hstep
  · next p _ =>
    have hp := h p
    unfold advance at hstep
    split at hstep
    · cases hstep
    · next a ha =>
      cases hstep
      rw [ha] at hp
      exact h.update (fun _ _ => rfl) hp
    · cases hstep
      exact h
    · next o k ho =>
      rw [ho] at hp
      split at hstep
      · next r t ht =>
        cases hstep
        obtain ⟨hself, hothers⟩ := hview _ _ _ _ _ ht
        refine h.update hothers ?_
        simp only [hself]
        exact hp.2 r
      · cases hstep
      · cases hstep
        exact h

/-- How a step of the machine ends in a panic. -/
theorem halted_step {l : Label π γ} {msg : String} (hstep : step handle body l M = some N)
    (hmsg : N.halted = some msg) :
    ∃ p, l = .step p ∧
      (M.prog p = some (.panic msg) ∨ ∃ o, M.Next p o ∧ handle p o M.shared = .panic msg) := by
  unfold Machine.step at hstep
  split at hstep
  · cases hstep
  · next hrunning =>
    split at hstep
    · cases hstep
      exact absurd (hrunning.symm.trans hmsg) (Option.some_ne_none msg).symm
    · cases hstep
  · next p hrunning =>
    have hnot : M.halted ≠ some msg := fun h => by rw [hrunning] at h; cases h
    unfold advance at hstep
    split at hstep
    · cases hstep
    · cases hstep
      exact absurd hmsg hnot
    · next msg' hp =>
      cases hstep
      cases hmsg
      exact ⟨p, rfl, .inl hp⟩
    · next o k hp =>
      split at hstep
      · cases hstep
        exact absurd hmsg hnot
      · cases hstep
      · next msg' hpanic =>
        cases hstep
        cases hmsg
        exact ⟨p, rfl, .inr ⟨o, ⟨k, hp⟩, hpanic⟩⟩

/-- A step of the machine changes the shared state by one operation, or not at all. -/
theorem shared_step {l : Label π γ} (hstep : step handle body l M = some N) :
    N.shared = M.shared ∨
      ∃ p o r, M.Next p o ∧ handle p o M.shared = .ok (r, N.shared) := by
  unfold Machine.step at hstep
  split at hstep
  · cases hstep
  · split at hstep
    · cases hstep
      exact .inl rfl
    · cases hstep
  · next p _ =>
    unfold advance at hstep
    split at hstep
    · cases hstep
    · cases hstep
      exact .inl rfl
    · cases hstep
      exact .inl rfl
    · next o k hp =>
      split at hstep
      · next r t ht =>
        cases hstep
        exact .inr ⟨p, o, r, ⟨k, hp⟩, ht⟩
      · cases hstep
      · cases hstep
        exact .inl rfl

/-! ## One call after the other -/

/-- The machine in which no process runs a program. -/
def start (s : σ) : Machine I σ π α := { shared := s, prog := fun _ => none, halted := none }

/-- A process that runs alone ends its program as `exec` does. -/
theorem run_exec (handle : π → Handler I σ) (body : γ → Prog I α) {pr : Prog I α}
    (hprog : M.prog p = some pr) (hrunning : M.halted = none) :
    match pr.exec (handle p) M.shared with
    | .ok (_, s) => ∃ tr, Run (step handle body) M tr
        { M with shared := s, prog := Function.update M.prog p none }
    | .blocked => True
    | .panic msg => ∃ tr N, Run (step handle body) M tr N ∧ N.halted = some msg := by
  induction pr generalizing M with
  | ret a =>
      refine ⟨[(M, .step p)], .cons ?_ (.nil _)⟩
      simp only [Machine.step, hrunning, advance, hprog]
  | panic msg =>
      refine ⟨[(M, .step p)], { M with halted := some msg }, .cons ?_ (.nil _), rfl⟩
      simp only [Machine.step, hrunning, advance, hprog]
  | op o k ih =>
      rw [Prog.exec]
      cases ho : handle p o M.shared with
      | ok rt =>
          obtain ⟨r, t⟩ := rt
          obtain ⟨M', hM'⟩ : ∃ M' : Machine I σ π α, M' =
            { M with shared := t, prog := Function.update M.prog p (some (k r)) } := ⟨_, rfl⟩
          have hfirst : step handle body (.step p) M = some M' := by
            simp only [Machine.step, hrunning, advance, hprog, ho, hM']
          have hrest := ih r (M := M') (by rw [hM']; exact Function.update_self ..)
            (by rw [hM']; exact hrunning)
          have hshared : M'.shared = t := by rw [hM']
          rw [hshared] at hrest
          cases hexec : (k r).exec (handle p) t with
          | ok au =>
              simp only [hexec] at hrest ⊢
              obtain ⟨tr, hrun⟩ := hrest
              refine ⟨(M, .step p) :: tr, .cons hfirst ?_⟩
              simpa only [hM', Function.update_idem] using hrun
          | blocked => simp only [hexec]
          | panic msg =>
              simp only [hexec] at hrest ⊢
              obtain ⟨tr, N, hrun, hmsg⟩ := hrest
              exact ⟨(M, .step p) :: tr, N, .cons hfirst hrun, hmsg⟩
      | blocked => trivial
      | panic msg =>
          refine ⟨[(M, .step p)], { M with halted := some msg }, .cons ?_ (.nil _), rfl⟩
          simp only [Machine.step, hrunning, advance, hprog, ho]

/-- A call of one process while no other runs. -/
def callStep (handle : π → Handler I σ) (body : γ → Prog I α) (l : π × γ) (s : σ) : Option σ :=
  match (body l.2).exec (handle l.1) s with
  | .ok (_, t) => some t
  | .blocked => none
  | .panic _ => none

/-- The machine in which only process `p` runs a program. -/
def calling (s : σ) (p : π) (pr : Prog I α) : Machine I σ π α :=
  { shared := s, prog := Function.update (fun _ => none) p (some pr), halted := none }

theorem calling_prog (s : σ) (p : π) (pr : Prog I α) : (calling s p pr).prog p = some pr := by
  simp only [calling, Function.update_self]

theorem run_call {s t : σ} {l : π × γ} (h : callStep handle body l s = some t) :
    ∃ tr, Run (step handle body) (start s) tr (start t) := by
  unfold callStep at h
  split at h
  · next a u hexec =>
    cases h
    have hrun := run_exec handle body (calling_prog s l.1 (body l.2)) rfl
    have hshared : (calling s l.1 (body l.2)).shared = s := rfl
    simp only [hshared, hexec] at hrun
    obtain ⟨tr, hrun⟩ := hrun
    simp only [calling, Function.update_idem, Function.update_eq_self] at hrun
    exact ⟨(start s, .call l.1 l.2) :: tr, .cons rfl hrun⟩
  · cases h
  · cases h

/-- Calls of which each ends before the next starts are a run. -/
theorem run_calls {ls : List (π × γ)} {s t : σ}
    (h : Runs.exec (callStep handle body) ls s = some t) :
    ∃ tr, Run (step handle body) (start s) tr (start t) := by
  induction ls generalizing s with
  | nil =>
      cases h
      exact ⟨[], .nil _⟩
  | cons l ls ih =>
      rw [Runs.exec, Option.bind_eq_some_iff] at h
      obtain ⟨u, hu, h⟩ := h
      obtain ⟨tr, hrun⟩ := run_call hu
      obtain ⟨tr', hrun'⟩ := ih h
      exact ⟨tr ++ tr', hrun.append hrun'⟩

/-- A call that panics. -/
theorem run_panic {s : σ} {p : π} {c : γ} {msg : String}
    (h : (body c).exec (handle p) s = .panic msg) :
    ∃ tr N, Run (step handle body) (start s) tr N ∧ N.halted = some msg := by
  have hrun := run_exec handle body (calling_prog s p (body c)) rfl
  have hshared : (calling s p (body c)).shared = s := rfl
  simp only [hshared, h] at hrun
  obtain ⟨tr, N, hrun, hmsg⟩ := hrun
  exact ⟨(start s, .call p c) :: tr, N, .cons rfl hrun, hmsg⟩

end Machine

end Programs
