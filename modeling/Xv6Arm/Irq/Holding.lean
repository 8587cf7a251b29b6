import Xv6Arm.Irq.Pushcli

/-!
# holding

The model of `init_lock` and `holding` of `spinlock.c`, with `acquire` and `release` as
in the module before.  `holding` reads two fields, `locked` and `cpu`.  Of the
functions only `init_lock` stores the second one, and it stores 0: the store in
`acquire` is in a part that is not compiled.

So `holding` reports a lock that is held only if its field `cpu` has pointed to `cpus`
before it was acquired (`holding_reports_iff`).
-/

namespace Xv6Arm.Irq

open Runs Programs

variable {L : Type}

/-- An operation on a lock. -/
inductive LockOp (L : Type)
  | initLock (lk : L) (name : String)
  | acquire (lk : L)
  | release (lk : L)

/-- The CPU with the fields `locked`, and the other fields of the locks.  `ops` are the operations
so far, which the code does not keep. -/
structure Locks (L : Type) where
  cpu : Cpu L
  name : L → String
  owner : L → BitVec 32
  ops : List (LockOp L)

/-- `holding(lk)`, where `cpus` is the address of the array. -/
def holding (cpus : BitVec 32) (s : Locks L) (lk : L) : Bool :=
  s.cpu.locked lk && s.owner lk == cpus

/-- The last acquire of `lk` has not been followed by a release of it. -/
def Unreleased (lk : L) (ops : List (LockOp L)) : Prop :=
  ∃ pre post, ops = pre ++ .acquire lk :: post ∧ .release lk ∉ post

/-- `holding` reports the state of every lock. -/
def Reports (cpus : BitVec 32) (s : Locks L) : Prop :=
  ∀ lk, holding cpus s lk = true ↔ Unreleased lk s.ops

/-- Nothing has been done yet, and no lock is taken. -/
def Locks.Start (s : Locks L) : Prop := s.ops = [] ∧ ∀ lk, s.cpu.locked lk = false

variable [DecidableEq L]

/-- `init_lock(lk, name)`. -/
def initLock (lk : L) (name : String) (s : Locks L) : Locks L :=
  { s with
    name := Function.update s.name lk name
    cpu := { s.cpu with locked := Function.update s.cpu.locked lk false }
    owner := Function.update s.owner lk 0 }

/-- A call that returns. -/
def Locks.call (s : Locks L) (p : Prog (cpuOps L) Unit) : Option (Locks L) :=
  match p.exec access s.cpu with
  | .ok (_, c) => some { s with cpu := c }
  | .blocked => none
  | .panic _ => none

/-- The effect of an operation. -/
def LockOp.run (s : Locks L) : LockOp L → Option (Locks L)
  | .initLock lk name => some (Irq.initLock lk name s)
  | .acquire lk => s.call (Irq.acquire lk)
  | .release lk => s.call (Irq.release lk)

/-- A step: an operation that returns. -/
def Locks.step (o : LockOp L) (s : Locks L) : Option (Locks L) :=
  (o.run s).map fun t => { t with ops := s.ops ++ [o] }

/-- A lock is acquired only if its field `cpu` points to `cpus` already, and a lock that is taken is
not initialized again. -/
def Locks.Marked (cpus : BitVec 32) (s : Locks L) : LockOp L → Prop
  | .initLock lk _ => s.cpu.locked lk = false
  | .acquire lk => s.owner lk = cpus
  | .release _ => True

/-! ## The history -/

section History

variable {lk k : L} {ops : List (LockOp L)}

omit [DecidableEq L]

theorem not_unreleased_nil : ¬ Unreleased lk [] := by
  rintro ⟨pre, post, h, -⟩
  exact absurd h (by simp)

/-- An operation at the end. -/
theorem unreleased_snoc {o : LockOp L} :
    Unreleased lk (ops ++ [o]) ↔ o = .acquire lk ∨ (Unreleased lk ops ∧ o ≠ .release lk) := by
  constructor
  · rintro ⟨pre, post, h, hpost⟩
    rcases List.eq_nil_or_concat post with rfl | ⟨post, p, rfl⟩
    · obtain ⟨-, hlast⟩ := List.append_inj' h rfl
      exact .inl (List.singleton_inj.mp hlast)
    · rw [List.concat_eq_append] at h hpost
      have h : ops ++ [o] = (pre ++ .acquire lk :: post) ++ [p] := by
        rw [h, List.append_assoc, List.cons_append]
      obtain ⟨hops, hlast⟩ := List.append_inj' h rfl
      obtain rfl := List.singleton_inj.mp hlast
      refine .inr ⟨⟨pre, post, hops, fun hmem => hpost (List.mem_append_left _ hmem)⟩, ?_⟩
      rintro rfl
      exact hpost (by simp)
  · rintro (rfl | ⟨⟨pre, post, rfl, hpost⟩, hne⟩)
    · exact ⟨ops, [], rfl, List.not_mem_nil⟩
    · refine ⟨pre, post ++ [o], by simp, fun hmem => ?_⟩
      rcases List.mem_append.mp hmem with hmem | hmem
      · exact hpost hmem
      · exact hne (List.mem_singleton.mp hmem).symm

end History

/-! ## What each operation does -/

section Operations

variable {c d : Cpu L} {s t : Locks L} {lk : L}

/-- The operation stores no field `locked`. -/
def Access.KeepsLocked : Access L → Prop
  | .storeLocked _ _ => False
  | _ => True

theorem locked_frame (o : Access L) (c : Cpu L) (r : Access.Value o) (d : Cpu L)
    (ho : o.KeepsLocked) (h : access o c = .ok (r, d)) : d.locked = c.locked := by
  cases o with
  | storeLocked lk b => exact ho.elim
  | _ => cases h; rfl

omit [DecidableEq L] in
theorem pushcli_only : (pushcli : Prog (cpuOps L) Unit).Only Access.KeepsLocked := by
  refine .bind (.bind (Prog.only_call trivial) fun _ => Prog.only_pure _) fun flag => ?_
  refine .bind (.bind (Prog.only_call trivial) fun _ => Prog.only_call trivial) fun _ => ?_
  refine .bind (Prog.only_call trivial) fun n => .bind (Prog.only_call trivial) fun _ => ?_
  split
  · exact Prog.only_call trivial
  · exact Prog.only_pure _

omit [DecidableEq L] in
theorem restore_only : (restore : Prog (cpuOps L) Unit).Only Access.KeepsLocked := by
  refine .bind (Prog.only_call trivial) fun n => ?_
  split
  · refine .bind (Prog.only_call trivial) fun intena => ?_
    split
    · exact .bind (Prog.only_call trivial) fun _ => Prog.only_call trivial
    · exact Prog.only_pure _
  · exact Prog.only_pure _

omit [DecidableEq L] in
theorem popcli_only : (popcli : Prog (cpuOps L) Unit).Only Access.KeepsLocked := by
  refine .bind (.bind (Prog.only_call trivial) fun _ => Prog.only_pure _) fun flag => ?_
  split
  · exact Prog.only_panic _
  · refine .bind (Prog.only_call trivial) fun n => .bind (Prog.only_call trivial) fun _ => ?_
    split
    · exact Prog.only_panic _
    · exact restore_only

theorem storeLocked_ensures (lk : L) (b : Bool) (c : Cpu L) :
    (storeLocked lk b).Ensures access c fun _ d => d.locked = Function.update c.locked lk b := by
  refine Prog.ensures_call fun r d h => ?_
  cases h
  rfl

theorem acquire_ensures (lk : L) (c : Cpu L) :
    (Irq.acquire lk).Ensures access c fun _ d => d.locked = Function.update c.locked lk true := by
  refine (pushcli_only.frame (f := Cpu.locked) locked_frame c).bind fun _ d hd => ?_
  rw [← hd]
  exact storeLocked_ensures lk true d

theorem release_ensures (lk : L) (c : Cpu L) :
    (Irq.release lk).Ensures access c fun _ d => d.locked = Function.update c.locked lk false := by
  refine (storeLocked_ensures lk false c).bind fun _ d hd => ?_
  rw [← hd]
  exact popcli_only.frame (f := Cpu.locked) locked_frame d

theorem call_locked {p : Prog (cpuOps L) Unit} {f : L → Bool}
    (hp : p.Ensures access s.cpu fun _ d => d.locked = f) (h : s.call p = some t) :
    t.cpu.locked = f ∧ t.owner = s.owner := by
  unfold Locks.call at h
  split at h
  · next d hd =>
    cases h
    exact ⟨hp () d hd, rfl⟩
  · cases h
  · cases h

/-- A step stores `locked` of its lock, and `init_lock` alone stores its `cpu`. -/
theorem step_fields {o : LockOp L} (h : s.step o = some t) :
    t.ops = s.ops ++ [o] ∧
    match o with
    | .initLock lk _ => t.cpu.locked = Function.update s.cpu.locked lk false ∧
        t.owner = Function.update s.owner lk 0
    | .acquire lk => t.cpu.locked = Function.update s.cpu.locked lk true ∧ t.owner = s.owner
    | .release lk => t.cpu.locked = Function.update s.cpu.locked lk false ∧ t.owner = s.owner := by
  obtain ⟨t, ht, rfl⟩ := Option.map_eq_some_iff.mp h
  refine ⟨rfl, ?_⟩
  cases o with
  | initLock lk name =>
    cases ht
    exact ⟨rfl, rfl⟩
  | acquire lk => exact call_locked (t := t) (acquire_ensures lk s.cpu) ht
  | release lk => exact call_locked (t := t) (release_ensures lk s.cpu) ht

end Operations

/-! ## Runs -/

section Runs

variable {cpus : BitVec 32} {s t u : Locks L}

/-- The field `locked` is right, and the field `cpu` of a lock that is held points to `cpus`. -/
def Locks.Inv (cpus : BitVec 32) (s : Locks L) : Prop :=
  ∀ lk, (s.cpu.locked lk = true ↔ Unreleased lk s.ops) ∧
    (Unreleased lk s.ops → s.owner lk = cpus)

omit [DecidableEq L] in
theorem Locks.Inv.reports (h : s.Inv cpus) : Reports cpus s := by
  intro lk
  obtain ⟨hlocked, howner⟩ := h lk
  unfold holding
  rw [Bool.and_eq_true, beq_iff_eq, hlocked]
  exact and_iff_left_of_imp howner

theorem Locks.Inv.step (h : s.Inv cpus) {o : LockOp L} (ho : s.Marked cpus o)
    (hstep : s.step o = some t) : t.Inv cpus := by
  intro k
  obtain ⟨hops, hfields⟩ := step_fields hstep
  rw [hops, unreleased_snoc]
  cases o with
  | initLock lk name =>
    obtain ⟨hl, hc⟩ := hfields
    rw [hl, hc]
    rcases eq_or_ne k lk with rfl | hne
    · -- The lock was not taken before.
      have hfree : ¬ Unreleased k s.ops := by
        rw [← (h k).1]
        exact Bool.eq_false_iff.mp ho
      simp [hfree]
    · simpa [Function.update_of_ne hne] using h k
  | acquire lk =>
    obtain ⟨hl, hc⟩ := hfields
    rw [hl, hc]
    rcases eq_or_ne k lk with rfl | hne
    · have hmarked : s.owner k = cpus := ho
      simp [hmarked]
    · simpa [Function.update_of_ne hne, hne.symm] using h k
  | release lk =>
    obtain ⟨hl, hc⟩ := hfields
    rw [hl, hc]
    rcases eq_or_ne k lk with rfl | hne
    · simp
    · simpa [Function.update_of_ne hne, hne.symm] using h k

/-- A step that is not marked leaves a lock that `holding` does not report. -/
theorem not_reports_of_not_marked (h : s.Inv cpus) {o : LockOp L} (ho : ¬ s.Marked cpus o)
    (hstep : s.step o = some t) : ¬ Reports cpus t := by
  intro hreports
  obtain ⟨hops, hfields⟩ := step_fields hstep
  cases o with
  | initLock lk name =>
    have hheld : Unreleased lk t.ops := by
      rw [hops, unreleased_snoc]
      refine .inr ⟨(h lk).1.mp (Bool.not_eq_false _ ▸ ho), nofun⟩
    have hlocked := (Bool.and_eq_true_iff.mp ((hreports lk).mpr hheld)).1
    rw [hfields.1, Function.update_self] at hlocked
    exact absurd hlocked Bool.false_ne_true
  | acquire lk =>
    have hheld : Unreleased lk t.ops := by
      rw [hops, unreleased_snoc]
      exact .inl rfl
    have howner := (Bool.and_eq_true_iff.mp ((hreports lk).mpr hheld)).2
    rw [hfields.2] at howner
    exact ho (beq_iff_eq.mp howner)
  | release lk => exact ho trivial

/-- `holding` reports the state of every lock along a run exactly when every lock that is acquired
points to `cpus` already, and none is initialized while it is taken. -/
theorem holding_reports_iff {s₀ : Locks L} {tr : List (Locks L × LockOp L)} (hs : s₀.Start)
    (h : Run Locks.step s₀ tr u) :
    Along (Reports cpus) tr u ↔ EveryStep (Locks.Marked cpus) tr := by
  refine h.forall_iff (I := Locks.Inv cpus) (fun _ hI => hI.reports)
    (fun _ _ _ hI ho hstep => hI.step ho hstep)
    (fun _ _ _ hI ho hstep => not_reports_of_not_marked hI ho hstep) fun lk => ?_
  obtain ⟨hops, hlocked⟩ := hs
  rw [hops, hlocked lk]
  exact ⟨iff_of_false Bool.false_ne_true not_unreleased_nil, fun h => absurd h not_unreleased_nil⟩

/-- One lock, at the start, with the field `cpu` as given. -/
def oneLock (owner : BitVec 32) : Locks Unit :=
  { cpu := { cpsr := 0, ncli := 0, intena := false, locked := fun _ => false }
    name := fun _ => ""
    owner := fun _ => owner
    ops := [] }

/-- A lock that points to `cpus` is reported when it has been acquired. -/
theorem holding_reports_of_owner :
    ∃ tr u, Run Locks.step (oneLock 0x80040000#32) tr u ∧
      Along (Reports 0x80040000#32) tr u ∧ Unreleased () u.ops := by
  refine ⟨_, _, .cons (l := .acquire ()) rfl (.nil _), ?_, [], [], rfl, List.not_mem_nil⟩
  refine (holding_reports_iff ⟨rfl, fun _ => rfl⟩ (.cons rfl (.nil _))).mpr fun x hx => ?_
  obtain rfl := List.mem_singleton.mp hx
  rfl

/-- After `init_lock` and `acquire` the lock is held, and `holding` says that it is not. -/
theorem holding_after_acquire :
    ∃ tr u, Run Locks.step (oneLock 0) tr u ∧
      tr.map Prod.snd = [.initLock () "ptable", .acquire ()] ∧
      Unreleased () u.ops ∧ holding 0x80040000#32 u () = false := by
  refine ⟨_, _, .cons (l := .initLock () "ptable") rfl (.cons (l := .acquire ()) rfl (.nil _)),
    rfl, ⟨[.initLock () "ptable"], [], rfl, List.not_mem_nil⟩, rfl⟩

end Runs

end Xv6Arm.Irq
