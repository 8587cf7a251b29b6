import Mathlib.Logic.Function.Basic
import Xv6Arm.Lib.Runs

/-!
# The interrupt controller

The model of `picirq.c`.  A call is the list of its writes to the registers and to the
table of service routines, and an interrupt can come between any two of them.
`pic_enable` fills the table before it enables a source, and `pic_disable` disables the
source before it resets the table, so that a source is enabled only while its routine is in
the table.
-/

namespace Xv6Arm.Irq

open Runs

/-- `NUM_INTSRC` and `NUM_ISR`. -/
def NUM_INTSRC : Nat := 32

variable {A : Type}

/-- A service routine.  `default_isr` is private to `picirq.c`. -/
inductive Isr (A : Type)
  | default
  | routine (a : A)
deriving DecidableEq

/-- The mask of the controller, and the table. -/
structure Pic (A : Type) where
  enabled : BitVec 32
  isrs : Nat → Isr A

/-- A write to a register or to the table. -/
inductive Write (A : Type)
  | intenable (v : BitVec 32)
  | intenclear (v : BitVec 32)
  | table (n : Nat) (isr : Isr A)

/-- The effect of a write.  Bits that are 0 have no effect on the mask. -/
def Write.apply : Write A → Pic A → Pic A
  | .intenable v, s => { s with enabled := s.enabled ||| v }
  | .intenclear v, s => { s with enabled := s.enabled &&& ~~~v }
  | .table n isr, s => { s with isrs := Function.update s.isrs n isr }

/-- The bit of a source. -/
def sourceBit (n : Nat) : BitVec 32 := 1#32 <<< n

/-! ## The functions of picirq.c -/

/-- `pic_init`. -/
def picInit : List (Write A) :=
  .intenclear 0xffffffff#32 :: (List.range NUM_INTSRC).map fun i => .table i .default

/-- `pic_enable`. -/
def picEnable (n : Int) (isr : A) : Except String (List (Write A)) :=
  if n < 0 ∨ NUM_INTSRC ≤ n then .error "invalid interrupt source"
  else .ok [.table n.toNat (.routine isr), .intenable (sourceBit n.toNat)]

/-- `pic_disable`. -/
def picDisable (n : Int) : Except String (List (Write A)) :=
  if n < 0 ∨ NUM_INTSRC ≤ n then .error "invalid interrupt source"
  else .ok [.intenclear (sourceBit n.toNat), .table n.toNat .default]

/-- `VIC_IRQSTATUS`. -/
def Pic.status (s : Pic A) (pending : BitVec 32) : BitVec 32 := pending &&& s.enabled

/-- `pic_dispatch`: the routines it calls, with their sources. -/
def Pic.dispatch (s : Pic A) (pending : BitVec 32) : List (Isr A × Nat) :=
  let intstatus := s.status pending
  (List.range NUM_INTSRC).foldl
    (fun calls i => if intstatus &&& sourceBit i ≠ 0 then calls ++ [(s.isrs i, i)] else calls) []

/-! ## Runs -/

/-- A call. -/
inductive Call (A : Type)
  | enable (n : Int) (isr : A)
  | disable (n : Int)

/-- The writes of a call. -/
def Call.writes : Call A → Except String (List (Write A))
  | .enable n isr => picEnable n isr
  | .disable n => picDisable n

/-- The controller, the writes that are left of a call, and the most recent routine of each source:
the argument of the last `pic_enable` that has filled the table.  The code does not keep this. -/
structure State (A : Type) where
  pic : Pic A
  todo : List (Write A)
  recent : Nat → Option A

/-- A call, the next write, or an interrupt with some sources pending. -/
inductive Label (A : Type)
  | call (c : Call A)
  | write
  | interrupt (pending : BitVec 32)

/-- What a write registers. -/
def Write.register : Write A → (Nat → Option A) → Nat → Option A
  | .table n (.routine a), recent => Function.update recent n (some a)
  | _, recent => recent

/-- A step.  The routines that an interrupt calls do not call `pic_enable` or `pic_disable`. -/
def step : Label A → State A → Option (State A)
  | .call c, s =>
      match s.todo, c.writes with
      | [], .ok ws => some { s with todo := ws }
      | _, _ => none
  | .write, s =>
      match s.todo with
      | [] => none
      | w :: ws => some { pic := w.apply s.pic, todo := ws, recent := w.register s.recent }
  | .interrupt _, s => some s

/-- The state after `pic_init`. -/
def start (s : Pic A) : State A where
  pic := picInit.foldl (fun s w => w.apply s) s
  todo := []
  recent _ := none

/-! ## The bits of the sources -/

section Bits

variable {v : BitVec 32} {i n : Nat}

theorem getLsbD_sourceBit (hi : i < 32) : (sourceBit n).getLsbD i = decide (i = n) := by
  unfold sourceBit
  rw [BitVec.getLsbD_shiftLeft, BitVec.getLsbD_one, decide_eq_true hi, Bool.eq_iff_iff]
  simp only [Bool.true_and, Bool.and_eq_true, Bool.not_eq_true', decide_eq_true_eq,
    decide_eq_false_iff_not]
  omega

theorem and_sourceBit_ne_zero (hi : i < 32) : v &&& sourceBit i ≠ 0 ↔ v.getLsbD i = true := by
  constructor
  · intro hne
    by_contra hbit
    refine hne (BitVec.eq_of_getLsbD_eq fun j hj => ?_)
    rw [BitVec.getLsbD_and, getLsbD_sourceBit hj]
    rcases eq_or_ne j i with rfl | hji
    · simpa using hbit
    · simp [hji]
  · intro hbit hzero
    have hand := congrArg (·.getLsbD i) hzero
    simp only [BitVec.getLsbD_and, getLsbD_sourceBit hi, hbit] at hand
    simp at hand

end Bits

/-! ## The invariant -/

/-- What is left of a call.  A source that `pic_enable` is about to enable has its routine in the
table, and one whose routine `pic_disable` is about to reset is not enabled. -/
inductive Rest (s : State A) : List (Write A) → Prop
  | none : Rest s []
  | enable {n : Nat} {a : A} : Rest s [.table n (.routine a), .intenable (sourceBit n)]
  | filled {n : Nat} {a : A} : s.pic.isrs n = .routine a → s.recent n = some a →
      Rest s [.intenable (sourceBit n)]
  | disable {n : Nat} : n < 32 → Rest s [.intenclear (sourceBit n), .table n .default]
  | cleared {n : Nat} : n < 32 → s.pic.enabled.getLsbD n = false → Rest s [.table n .default]

/-- An enabled source has its most recent routine in the table. -/
structure Inv (s : State A) : Prop where
  routed : ∀ n, n < 32 → s.pic.enabled.getLsbD n = true →
    ∃ a, s.pic.isrs n = .routine a ∧ s.recent n = some a
  rest : Rest s s.todo

section Run

variable {s t : State A} {l : Label A}

/-- The writes of a call that does not panic. -/
theorem Call.rest {c : Call A} {ws : List (Write A)} (h : c.writes = .ok ws) : Rest s ws := by
  cases c with
  | enable n isr =>
      change (if n < 0 ∨ NUM_INTSRC ≤ n then _ else _) = _ at h
      split at h
      · cases h
      · cases h
        exact .enable
  | disable n =>
      change (if n < 0 ∨ NUM_INTSRC ≤ n then _ else _) = _ at h
      split at h
      · cases h
      · next hn =>
        cases h
        have hn : ¬ (n < 0 ∨ (32 : Int) ≤ n) := hn
        exact .disable (by omega)

/-- One write of a call. -/
theorem Inv.write {w : Write A} {ws : List (Write A)} (h : Inv s) (htodo : s.todo = w :: ws) :
    Inv { pic := w.apply s.pic, todo := ws, recent := w.register s.recent } := by
  have hrest := h.rest
  rw [htodo] at hrest
  cases hrest with
  | @enable n a =>
      refine ⟨fun m hm hbit => ?_, .filled (a := a) ?_ ?_⟩
      · rcases eq_or_ne m n with rfl | hne
        · exact ⟨a, Function.update_self .., Function.update_self ..⟩
        · obtain ⟨b, hisr, hrecent⟩ := h.routed m hm hbit
          exact ⟨b, (Function.update_of_ne hne ..).trans hisr,
            (Function.update_of_ne hne ..).trans hrecent⟩
      · exact Function.update_self ..
      · exact Function.update_self ..
  | @filled n a hisr hrecent =>
      refine ⟨fun m hm hbit => ?_, .none⟩
      rcases eq_or_ne m n with rfl | hne
      · exact ⟨a, hisr, hrecent⟩
      · have hbit : (s.pic.enabled ||| sourceBit n).getLsbD m = true := hbit
        rw [BitVec.getLsbD_or, getLsbD_sourceBit hm, decide_eq_false hne, Bool.or_false] at hbit
        exact h.routed m hm hbit
  | @disable n hn =>
      have hmask : ∀ m, m < 32 → (s.pic.enabled &&& ~~~sourceBit n).getLsbD m =
          (s.pic.enabled.getLsbD m && !decide (m = n)) := by
        intro m hm
        rw [BitVec.getLsbD_and, BitVec.getLsbD_not, getLsbD_sourceBit hm, decide_eq_true hm,
          Bool.true_and]
      refine ⟨fun m hm hbit => ?_, .cleared hn ?_⟩
      · have hbit := (hmask m hm).symm.trans hbit
        rw [Bool.and_eq_true] at hbit
        exact h.routed m hm hbit.1
      · rw [show (Write.apply (.intenclear (sourceBit n)) s.pic).enabled =
          s.pic.enabled &&& ~~~sourceBit n from rfl, hmask n hn]
        simp
  | @cleared n hn hoff =>
      refine ⟨fun m hm hbit => ?_, .none⟩
      have hne : m ≠ n := by
        rintro rfl
        have hbit : s.pic.enabled.getLsbD m = true := hbit
        rw [hoff] at hbit
        cases hbit
      obtain ⟨b, hisr, hrecent⟩ := h.routed m hm hbit
      exact ⟨b, (Function.update_of_ne hne ..).trans hisr, hrecent⟩

/-- A step keeps the invariant. -/
theorem Inv.step (h : Inv s) (hstep : step l s = some t) : Inv t := by
  cases l with
  | call c =>
      change (match s.todo, c.writes with
        | [], .ok ws => some { s with todo := ws }
        | _, _ => Option.none) = _ at hstep
      split at hstep
      · next ws _ hws =>
        cases hstep
        refine ⟨h.routed, ?_⟩
        exact Call.rest hws
      · cases hstep
  | write =>
      change (match s.todo with
        | [] => Option.none
        | w :: ws => some (State.mk (w.apply s.pic) ws (w.register s.recent))) = _ at hstep
      split at hstep
      · cases hstep
      · next w ws htodo =>
        cases hstep
        exact h.write htodo
  | interrupt pending =>
      cases hstep
      exact h

/-- `pic_init` disables every source. -/
theorem start_enabled (s : Pic A) : (start s).pic.enabled = 0 := by
  have hfold : ∀ (l : List Nat) (s : Pic A), ((l.map fun i => Write.table i .default).foldl
      (fun s w => w.apply s) s).enabled = s.enabled := by
    intro l
    induction l with
    | nil => exact fun _ => rfl
    | cons i l ih => exact fun s => ih _
  show (((List.range NUM_INTSRC).map fun i => Write.table i .default).foldl
    (fun s w => w.apply s) (Write.apply (.intenclear 0xffffffff#32) s)).enabled = 0
  rw [hfold]
  show s.enabled &&& ~~~0xffffffff#32 = 0
  simp

theorem start_inv (s : Pic A) : Inv (start s) where
  routed n _ hbit := by
    rw [start_enabled] at hbit
    simp at hbit
  rest := .none

end Run

/-! ## Dispatch -/

/-- The loop of `pic_dispatch`. -/
theorem dispatch_eq (s : Pic A) (pending : BitVec 32) : s.dispatch pending =
    ((List.range NUM_INTSRC).filter fun n => (s.status pending).getLsbD n).map
      fun n => (s.isrs n, n) := by
  have hloop : ∀ l : List Nat, (∀ i ∈ l, i < 32) → ∀ calls, l.foldl (fun calls i =>
      if s.status pending &&& sourceBit i ≠ 0 then calls ++ [(s.isrs i, i)] else calls) calls =
        calls ++ (l.filter fun n => (s.status pending).getLsbD n).map fun n => (s.isrs n, n) := by
    intro l
    induction l with
    | nil => exact fun _ calls => (List.append_nil calls).symm
    | cons i l ih =>
        intro hl calls
        have hi := and_sourceBit_ne_zero (v := s.status pending) (hl i List.mem_cons_self)
        rw [List.foldl_cons, ih (fun j hj => hl j (List.mem_cons_of_mem i hj)), List.filter_cons]
        by_cases hbit : (s.status pending).getLsbD i = true
        · rw [if_pos (hi.mpr hbit), if_pos hbit, List.map_cons, List.append_assoc]
          rfl
        · rw [if_neg (fun h => hbit (hi.mp h)), if_neg hbit]
  exact hloop _ (fun i hi => List.mem_range.mp hi) []

/-- After `pic_init` and any calls, at any point between their writes, `pic_dispatch` calls each
reported source once and in order, and each with the most recent routine of the source. -/
theorem dispatch_recent (s : Pic A) {tr : List (State A × Label A)} {u : State A}
    (h : Run step (start s) tr u) (pending : BitVec 32) :
    (u.pic.dispatch pending).map Prod.snd =
      (List.range NUM_INTSRC).filter (fun n => (u.pic.status pending).getLsbD n) ∧
    ∀ x ∈ u.pic.dispatch pending, ∃ a, x.1 = .routine a ∧ u.recent x.2 = some a := by
  have hinv := h.invariant_last (fun _ _ _ hs hstep => hs.step hstep) (start_inv s)
  rw [dispatch_eq]
  constructor
  · rw [List.map_map]
    exact List.map_id _
  · intro x hx
    obtain ⟨n, hn, rfl⟩ := List.mem_map.mp hx
    obtain ⟨hlt, hbit⟩ := List.mem_filter.mp hn
    unfold Pic.status at hbit
    rw [BitVec.getLsbD_and, Bool.and_eq_true] at hbit
    exact hinv.routed n (List.mem_range.mp hlt) hbit.2

/-- Source 4 gets a second routine, and an interrupt comes before it is enabled again. -/
def registerAgain : List (Label Nat) :=
  [.call (.enable 4 10), .write, .write, .call (.enable 4 20), .write, .interrupt 0x11#32]

theorem dispatch_recent_registerAgain :
    ∃ tr u, Run step (start ⟨0xff#32, fun _ => .default⟩) tr u ∧
      tr.map Prod.snd = registerAgain ∧ (u.pic.dispatch 0x11#32).map Prod.snd = [4] ∧
      ∀ x ∈ u.pic.dispatch 0x11#32, ∃ a, x.1 = .routine a ∧ u.recent x.2 = some a := by
  obtain ⟨u, hu⟩ : ∃ u, exec step registerAgain (start ⟨0xff#32, fun _ => .default⟩) = some u :=
    Option.isSome_iff_exists.mp (by decide +kernel)
  obtain ⟨tr, hrun, hlabels⟩ := run_of_exec hu
  have h := dispatch_recent _ hrun 0x11#32
  refine ⟨tr, u, hrun, hlabels, ?_, h.2⟩
  rw [h.1]
  have hall : (exec step registerAgain (start ⟨0xff#32, fun _ => .default⟩)).map (fun u =>
      (List.range NUM_INTSRC).filter fun n => (u.pic.status 0x11#32).getLsbD n) = some [4] := by
    decide +kernel
  rw [hu] at hall
  exact Option.some.inj hall

end Xv6Arm.Irq
