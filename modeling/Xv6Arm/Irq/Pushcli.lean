import Mathlib.Algebra.GroupWithZero.Nat
import Xv6Arm.Irq.Pic
import Xv6Arm.Lib.Rely

/-!
# The interrupt flag and the spinlocks

The model of `cli`, `sti`, `int_enabled`, `pushcli` and `popcli` of `arm.c`, and of `acquire`
and `release` of `spinlock.c`, as programs over the loads and stores they make.  There is one
CPU, and `acquire` does not spin.

An interrupt can come between any two operations while the flag is on.  Its handler calls
`acquire` and `release` itself, and so overwrites `cpu->ncli` and `cpu->intena`.
-/

namespace Xv6Arm.Irq

open Runs Programs

variable {L : Type}

/-! ## The CPU -/

/-- `DIS_INT`. -/
def DIS_INT : BitVec 32 := 0x80#32

/-- The registers and fields that the functions use. -/
structure Cpu (L : Type) where
  cpsr : BitVec 32
  ncli : Int32
  intena : Bool
  locked : L → Bool

/-- A load or a store. -/
inductive Access (L : Type)
  | mrs
  | msr (v : BitVec 32)
  | loadNcli
  | storeNcli (n : Int32)
  | loadIntena
  | storeIntena (b : Bool)
  | storeLocked (lk : L) (b : Bool)

/-- What an operation gives back. -/
def Access.Value : Access L → Type
  | .mrs => BitVec 32
  | .loadNcli => Int32
  | .loadIntena => Bool
  | _ => Unit

/-- The interface of the CPU. -/
def cpuOps (L : Type) : Interface := ⟨Access L, Access.Value⟩

/-- The effect of each operation. -/
def access [DecidableEq L] : Handler (cpuOps L) (Cpu L)
  | .mrs, c => .ok (c.cpsr, c)
  | .msr v, c => .ok ((), { c with cpsr := v })
  | .loadNcli, c => .ok (c.ncli, c)
  | .storeNcli n, c => .ok ((), { c with ncli := n })
  | .loadIntena, c => .ok (c.intena, c)
  | .storeIntena b, c => .ok ((), { c with intena := b })
  | .storeLocked lk b, c => .ok ((), { c with locked := Function.update c.locked lk b })

/-- `MRS`: a read of `cpsr`. -/
def mrs : Prog (cpuOps L) (BitVec 32) := Prog.call (I := cpuOps L) .mrs

/-- `MSR`: a write of `cpsr`. -/
def msr (v : BitVec 32) : Prog (cpuOps L) Unit := Prog.call (I := cpuOps L) (.msr v)

def loadNcli : Prog (cpuOps L) Int32 := Prog.call (I := cpuOps L) .loadNcli

def storeNcli (n : Int32) : Prog (cpuOps L) Unit := Prog.call (I := cpuOps L) (.storeNcli n)

def loadIntena : Prog (cpuOps L) Bool := Prog.call (I := cpuOps L) .loadIntena

def storeIntena (b : Bool) : Prog (cpuOps L) Unit := Prog.call (I := cpuOps L) (.storeIntena b)

def storeLocked (lk : L) (b : Bool) : Prog (cpuOps L) Unit :=
  Prog.call (I := cpuOps L) (.storeLocked lk b)

/-! ## The functions of arm.c and spinlock.c -/

/-- Whether a `cpsr` has interrupts enabled. -/
def enabled (cpsr : BitVec 32) : Bool := cpsr &&& DIS_INT = 0

/-- `cli`. -/
def cli : Prog (cpuOps L) Unit := do
  let val ← mrs
  msr (val ||| DIS_INT)

/-- `sti`. -/
def sti : Prog (cpuOps L) Unit := do
  let val ← mrs
  msr (val &&& ~~~DIS_INT)

/-- `int_enabled`. -/
def intEnabled : Prog (cpuOps L) Bool := do
  let val ← mrs
  pure (enabled val)

/-- `pushcli`. -/
def pushcli : Prog (cpuOps L) Unit := do
  let enabled ← intEnabled
  cli
  let n ← loadNcli
  storeNcli (n + 1)
  if n = 0 then storeIntena enabled else pure ()

/-- The end of `popcli`. -/
def restore : Prog (cpuOps L) Unit := do
  let n ← loadNcli
  if n = 0 then do
    let intena ← loadIntena
    if intena then sti else pure ()
  else
    pure ()

/-- `popcli`. -/
def popcli : Prog (cpuOps L) Unit := do
  let enabled ← intEnabled
  if enabled then
    .panic "popcli - interruptible"
  else do
    let n ← loadNcli
    storeNcli (n - 1)
    if n - 1 < 0 then .panic "popcli -- ncli < 0" else restore

/-- `acquire`. -/
def acquire (lk : L) : Prog (cpuOps L) Unit := do
  pushcli
  storeLocked lk true

/-- `release`. -/
def release (lk : L) : Prog (cpuOps L) Unit := do
  storeLocked lk false
  popcli

/-! ## The machine -/

/-- A call of a program. -/
inductive LockCall (L : Type)
  | acquire (lk : L)
  | release (lk : L)

/-- The program that was started first, or a handler.  `held` counts the acquires that have
returned and are not yet released, and `before` says whether interrupts were enabled when the
outermost of them was called.  The code keeps neither. -/
structure Frame (L : Type) where
  held : Nat
  before : Bool
  code : Option (LockCall L × Prog (cpuOps L) Unit)

/-- The CPU, what runs on it, and what is interrupted, each with the `cpsr` it resumes with. -/
structure Stack (L : Type) where
  cpu : Cpu L
  top : Frame L
  below : List (Frame L × BitVec 32)

/-- What runs and what is interrupted. -/
def Stack.frames (s : Stack L) : List (Frame L) := s.top :: s.below.map Prod.fst

/-- The acquires that are not yet released. -/
def Stack.held (s : Stack L) : Nat := (s.frames.map Frame.held).sum

/-- A call, the next operation of it, an interrupt whose handler starts with some `cpsr`, or the
return of a handler. -/
inductive Event (L : Type)
  | call (c : LockCall L)
  | next
  | interrupt (v : BitVec 32)
  | iret

/-- A frame that makes a call. -/
def Frame.call (f : Frame L) (flag : Bool) : LockCall L → Option (Frame L)
  | .acquire lk => some { f with
      before := if f.held = 0 then flag else f.before
      code := some (.acquire lk, acquire lk) }
  | .release lk =>
      if f.held = 0 then none
      else some { f with held := f.held - 1, code := some (.release lk, release lk) }

/-- A frame whose call has returned. -/
def Frame.returned (f : Frame L) : LockCall L → Frame L
  | .acquire _ => { f with held := f.held + 1, code := none }
  | .release _ => { f with code := none }

/-- The frame of a handler. -/
def Frame.handler : Frame L := { held := 0, before := false, code := none }

variable [DecidableEq L]

/-- The next operation of the call that runs. -/
def Stack.next (s : Stack L) : Option (Stack L) :=
  match s.top.code with
  | none => none
  | some (c, .ret _) => some { s with top := s.top.returned c }
  | some (_, .panic _) => none
  | some (c, .op o k) =>
      match access o s.cpu with
      | .ok (r, cpu) => some { s with cpu := cpu, top := { s.top with code := some (c, k r) } }
      | _ => none

/-- A step.  A program releases what it has acquired, and a handler returns when it has released
all; it starts with interrupts off and the `cpsr` is restored when it returns. -/
def Stack.step : Event L → Stack L → Option (Stack L)
  | .call c, s =>
      if s.top.code.isNone then
        (s.top.call (enabled s.cpu.cpsr) c).map fun f => { s with top := f }
      else none
  | .next, s => s.next
  | .interrupt v, s =>
      if enabled s.cpu.cpsr then
        some { cpu := { s.cpu with cpsr := v ||| DIS_INT }, top := .handler,
               below := (s.top, s.cpu.cpsr) :: s.below }
      else none
  | .iret, s =>
      match s.below with
      | [] => none
      | (f, v) :: below =>
          if s.top.code.isNone ∧ s.top.held = 0 then
            some { cpu := { s.cpu with cpsr := v }, top := f, below := below }
          else none

/-- A program starts with `ncli = 0`, and with interrupts on or off. -/
def Stack.start (c : Cpu L) : Stack L where
  cpu := { c with ncli := 0 }
  top := { held := 0, before := enabled c.cpsr, code := none }
  below := []

/-! ## The flag and the counter -/

theorem enabled_eq (v : BitVec 32) : enabled v = !v.getLsbD 7 := by
  have hbit := and_sourceBit_ne_zero (v := v) (i := 7) (by decide)
  have hmask : DIS_INT = sourceBit 7 := by decide
  unfold enabled
  rw [hmask, Bool.eq_iff_iff, decide_eq_true_eq, Bool.not_eq_true', ← Bool.not_eq_true, ← hbit,
    not_not]

@[simp] theorem enabled_or (v : BitVec 32) : enabled (v ||| DIS_INT) = false := by
  rw [enabled_eq, BitVec.getLsbD_or, show DIS_INT.getLsbD 7 = true from rfl]
  simp

@[simp] theorem enabled_and_not (v : BitVec 32) : enabled (v &&& ~~~DIS_INT) = true := by
  rw [enabled_eq, BitVec.getLsbD_and, show (~~~DIS_INT).getLsbD 7 = false from rfl]
  simp

section Counter

variable {n : Int32} {h : Nat}

theorem toInt_succ (hn : n.toInt = h) (hroom : h + 1 < 2 ^ 31) : (n + 1).toInt = h + 1 := by
  rw [Int32.toInt_add, hn]
  exact Int.bmod_eq_of_le (by simp; omega) (by simp; omega)

theorem toInt_pred (hn : n.toInt = h + 1) : (n - 1).toInt = h := by
  have hlt := n.toInt_lt
  rw [Int32.toInt_sub, hn, Int32.toInt_one, Int.add_sub_cancel]
  exact Int.bmod_eq_of_le (by omega) (by omega)

theorem eq_zero_iff (hn : n.toInt = h) : n = 0 ↔ h = 0 := by
  rw [← Int32.toInt_inj, hn]
  simp

end Counter

/-! ## Assertions -/

/-- What an interrupt can change: its handler leaves `cpsr` and `ncli` as they were. -/
def Interrupted (c d : Cpu L) : Prop :=
  d = c ∨ enabled c.cpsr = true ∧ d.cpsr = c.cpsr ∧ d.ncli = c.ncli

/-- Between two calls, with `h` acquires not yet released and the flag `e` before them. -/
structure Level (h : Nat) (e : Bool) (c : Cpu L) : Prop where
  ncli : c.ncli.toInt = h
  zero : h = 0 → enabled c.cpsr = e
  pos : 0 < h → enabled c.cpsr = false ∧ c.intena = e

/-- In a call, which counts one more acquire or not. -/
structure Between (h : Nat) (c : Cpu L) : Prop where
  off : enabled c.cpsr = true → c.ncli.toInt = 0
  ncli : c.ncli.toInt = h ∨ c.ncli.toInt = h + 1

section Assertions

variable {h : Nat} {e : Bool} {c d : Cpu L} {P : Cpu L → Prop}

omit [DecidableEq L]

theorem Interrupted.trans {a b c : Cpu L} (h : Interrupted a b) (h' : Interrupted b c) :
    Interrupted a c := by
  rcases h with rfl | ⟨hon, hcpsr, hncli⟩
  · exact h'
  · rcases h' with rfl | ⟨_, hcpsr', hncli'⟩
    · exact .inr ⟨hon, hcpsr, hncli⟩
    · exact .inr ⟨hon, hcpsr'.trans hcpsr, hncli'.trans hncli⟩

theorem stable_of (h : ∀ c d, enabled c.cpsr = true → d.cpsr = c.cpsr → d.ncli = c.ncli →
    P c → P d) : Stable Interrupted P := by
  intro c d hcd hc
  rcases hcd with rfl | ⟨hon, hcpsr, hncli⟩
  · exact hc
  · exact h c d hon hcpsr hncli hc

/-- While interrupts are off, nothing changes. -/
theorem stable_off (hoff : enabled c.cpsr = false) : Stable Interrupted (· = c) := by
  apply stable_of
  rintro _ d hon - - rfl
  rw [hoff] at hon
  cases hon

theorem Level.stable (h : Nat) (e : Bool) : Stable Interrupted (Level (L := L) h e) := by
  apply stable_of
  intro c d hon hcpsr hncli hc
  refine ⟨by rw [hncli]; exact hc.ncli, fun hzero => by rw [hcpsr]; exact hc.zero hzero,
    fun hpos => ?_⟩
  rw [(hc.pos hpos).1] at hon
  cases hon

theorem Between.stable (h : Nat) : Stable Interrupted (Between (L := L) h) := by
  apply stable_of
  intro c d hon hcpsr hncli hc
  exact ⟨fun _ => by rw [hncli]; exact hc.off hon, by rw [hncli]; exact hc.ncli⟩

theorem Level.off (hc : Level h e c) (hon : enabled c.cpsr = true) : h = 0 := by
  rcases Nat.eq_zero_or_pos h with hzero | hpos
  · exact hzero
  · rw [(hc.pos hpos).1] at hon
    cases hon

theorem Level.between (hc : Level h e c) : Between h c where
  off hon := by rw [hc.ncli, hc.off hon]; rfl
  ncli := .inl hc.ncli

theorem Level.between_succ (hc : Level (h + 1) e c) : Between h c where
  off hon := absurd (hc.off hon) (Nat.succ_ne_zero h)
  ncli := .inr (by rw [hc.ncli]; push_cast; rfl)

/-- A state with interrupts off. -/
theorem between_off (hoff : enabled c.cpsr = false)
    (hncli : c.ncli.toInt = h ∨ c.ncli.toInt = h + 1) : Between h c :=
  ⟨fun hon => (by rw [hoff] at hon; cases hon), hncli⟩

end Assertions

/-! ## What each function does -/

section Functions

variable {h : Nat} {e : Bool} {c : Cpu L} {P G : Cpu L → Prop}

/-- An operation while interrupts are off. -/
theorem safe_access (o : Access L) {r : Access.Value o} {d : Cpu L}
    {Q : Access.Value o → Cpu L → Prop} (hoff : enabled c.cpsr = false) (hG : G c)
    (hd : access o c = .ok (r, d)) (hGd : G d) (hQ : Q r d) :
    (Prog.call (I := cpuOps L) o).Safe access Interrupted G c Q := by
  refine Prog.safe_call (stable_off hoff) (fun _ hc => hc ▸ hG) rfl ?_
  rintro _ rfl
  exact ⟨r, d, hd, hGd, hQ⟩

theorem loadNcli_safe (hoff : enabled c.cpsr = false) (hG : G c) :
    loadNcli.Safe access Interrupted G c fun n d => n = c.ncli ∧ d = c :=
  safe_access .loadNcli hoff hG rfl hG ⟨rfl, rfl⟩

theorem storeNcli_safe {n : Int32} (hoff : enabled c.cpsr = false) (hG : G c)
    (hG' : G { c with ncli := n }) :
    (storeNcli n).Safe access Interrupted G c fun _ d => d = { c with ncli := n } :=
  safe_access (.storeNcli n) hoff hG rfl hG' rfl

theorem loadIntena_safe (hoff : enabled c.cpsr = false) (hG : G c) :
    loadIntena.Safe access Interrupted G c fun b d => b = c.intena ∧ d = c :=
  safe_access .loadIntena hoff hG rfl hG ⟨rfl, rfl⟩

theorem storeIntena_safe {b : Bool} (hoff : enabled c.cpsr = false) (hG : G c)
    (hG' : G { c with intena := b }) :
    (storeIntena b).Safe access Interrupted G c fun _ d => d = { c with intena := b } :=
  safe_access (.storeIntena b) hoff hG rfl hG' rfl

theorem storeLocked_safe {lk : L} {b : Bool} (hc : Level (h + 1) e c) :
    (storeLocked lk b).Safe access Interrupted (Between h) c fun _ d => Level (h + 1) e d := by
  have hd : Level (h + 1) e { c with locked := Function.update c.locked lk b } :=
    ⟨hc.ncli, hc.zero, hc.pos⟩
  exact safe_access (.storeLocked lk b) (hc.pos (Nat.succ_pos h)).1 hc.between_succ rfl
    hd.between_succ hd

theorem mrs_safe (hP : Stable Interrupted P) (hG : ∀ c, P c → G c) (hc : P c) :
    mrs.Safe access Interrupted G c fun v d => P d ∧ d.cpsr = v :=
  Prog.safe_call hP hG hc fun d hd => ⟨d.cpsr, d, rfl, hG d hd, hd, rfl⟩

theorem intEnabled_safe (hP : Stable Interrupted P) (hG : ∀ c, P c → G c) (hc : P c) :
    intEnabled.Safe access Interrupted G c fun b d => P d ∧ enabled d.cpsr = b := by
  refine (mrs_safe hP hG hc).bind ?_
  rintro v d ⟨hd, rfl⟩
  exact Prog.safe_pure (hG d hd) ⟨hd, rfl⟩

/-- An interrupt between the read and the write of `cpsr` restores what was read. -/
theorem cli_safe (hP : Stable Interrupted P) (hG : ∀ c, P c → G c)
    (hG' : ∀ c, P c → G { c with cpsr := c.cpsr ||| DIS_INT }) (hc : P c) :
    cli.Safe access Interrupted G c fun _ d =>
      ∃ d₀, P d₀ ∧ d = { d₀ with cpsr := d₀.cpsr ||| DIS_INT } := by
  refine (mrs_safe hP hG hc).bind ?_
  intro v d hd
  have hstable : Stable Interrupted fun c : Cpu L => P c ∧ c.cpsr = v := by
    rintro a b hab ⟨ha, hv⟩
    refine ⟨hP a b hab ha, ?_⟩
    rcases hab with rfl | ⟨-, hcpsr, -⟩
    · exact hv
    · exact hcpsr.trans hv
  refine Prog.safe_call hstable (fun c hc => hG c hc.1) hd ?_
  rintro d ⟨hP, rfl⟩
  exact ⟨(), _, rfl, hG' d hP, d, hP, rfl⟩

theorem sti_safe (hoff : enabled c.cpsr = false) (hG : G c)
    (hG' : G { c with cpsr := c.cpsr &&& ~~~DIS_INT }) :
    sti.Safe access Interrupted G c fun _ d => d = { c with cpsr := c.cpsr &&& ~~~DIS_INT } := by
  refine (mrs_safe (stable_off hoff) (fun _ hc => hc ▸ hG) rfl).bind ?_
  rintro v d ⟨rfl, rfl⟩
  exact safe_access (.msr _) hoff hG rfl hG' rfl

/-- `pushcli` counts one more acquire. -/
theorem pushcli_safe (hc : Level h e c) (hroom : h + 1 < 2 ^ 31) :
    pushcli.Safe access Interrupted (Between h) c fun _ d => Level (h + 1) e d := by
  refine (intEnabled_safe (Level.stable h e) (fun _ hc => hc.between) hc).bind ?_
  intro flag c hc
  -- The flag that was read stays valid: an interrupt restores `cpsr`.
  have hstable : Stable Interrupted fun c : Cpu L => Level h e c ∧ enabled c.cpsr = flag := by
    rintro a b hab ⟨ha, hflag⟩
    refine ⟨Level.stable h e a b hab ha, ?_⟩
    rcases hab with rfl | ⟨-, hcpsr, -⟩
    · exact hflag
    · rw [hcpsr]
      exact hflag
  refine (cli_safe hstable (fun _ hc => hc.1.between)
    (fun c hc => between_off (enabled_or c.cpsr) (.inl hc.1.ncli)) hc).bind ?_
  rintro - _ ⟨c, ⟨hc, hflag⟩, rfl⟩
  -- From here on interrupts are off.
  have hoff := enabled_or c.cpsr
  have hsucc := toInt_succ hc.ncli hroom
  have hbefore : Between h { c with cpsr := c.cpsr ||| DIS_INT } :=
    between_off hoff (.inl hc.ncli)
  have hafter : Between h { c with cpsr := c.cpsr ||| DIS_INT, ncli := c.ncli + 1 } :=
    between_off hoff (.inr hsucc)
  refine (loadNcli_safe hoff hbefore).bind ?_
  rintro n _ ⟨rfl, rfl⟩
  refine (storeNcli_safe hoff hbefore hafter).bind ?_
  rintro - _ rfl
  split
  · next hzero =>
    have hh : h = 0 := (eq_zero_iff hc.ncli).mp hzero
    refine (storeIntena_safe (b := flag) hoff hafter ⟨hafter.off, hafter.ncli⟩).mono ?_
    rintro - _ rfl
    exact ⟨hsucc, fun h => absurd h (Nat.succ_ne_zero _),
      fun _ => ⟨hoff, hflag.symm.trans (hc.zero hh)⟩⟩
  · next hpos =>
    have hh : 0 < h := Nat.pos_of_ne_zero fun hh => hpos ((eq_zero_iff hc.ncli).mpr hh)
    exact Prog.safe_pure hafter
      ⟨hsucc, fun h => absurd h (Nat.succ_ne_zero _), fun _ => ⟨hoff, (hc.pos hh).2⟩⟩

/-- The end of `popcli` gives the flag back when it was the last. -/
theorem restore_safe (hoff : enabled c.cpsr = false) (hncli : c.ncli.toInt = h)
    (hintena : c.intena = e) :
    restore.Safe access Interrupted (Between h) c fun _ d => Level h e d := by
  have hc : Between h c := between_off hoff (.inl hncli)
  refine (loadNcli_safe hoff hc).bind ?_
  rintro n _ ⟨rfl, rfl⟩
  split
  · next hzero =>
    obtain rfl : h = 0 := (eq_zero_iff hncli).mp hzero
    refine (loadIntena_safe hoff hc).bind ?_
    rintro b d ⟨rfl, rfl⟩
    rw [hintena]
    cases e with
    | true =>
        have hrestored : Level 0 true { d with cpsr := d.cpsr &&& ~~~DIS_INT } :=
          ⟨hncli, fun _ => enabled_and_not d.cpsr, fun h => absurd h (Nat.lt_irrefl 0)⟩
        refine (sti_safe hoff hc hrestored.between).mono ?_
        rintro - _ rfl
        exact hrestored
    | false =>
        exact Prog.safe_pure hc ⟨hncli, fun _ => hoff, fun h => absurd h (Nat.lt_irrefl 0)⟩
  · next hpos =>
    have hh : h ≠ 0 := fun hh => hpos ((eq_zero_iff hncli).mpr hh)
    exact Prog.safe_pure hc ⟨hncli, fun h => absurd h hh, fun _ => ⟨hoff, hintena⟩⟩

/-- `popcli` counts one acquire less, and does not panic. -/
theorem popcli_safe (hc : Level (h + 1) e c) :
    popcli.Safe access Interrupted (Between h) c fun _ d => Level h e d := by
  obtain ⟨hoff, hintena⟩ := hc.pos (Nat.succ_pos h)
  have hbetween : Between h c := hc.between_succ
  have hpred : (c.ncli - 1).toInt = h := toInt_pred (by rw [hc.ncli]; push_cast; rfl)
  refine (intEnabled_safe (stable_off hoff) (fun _ hc => hc ▸ hbetween) rfl).bind ?_
  rintro flag c ⟨rfl, hflag⟩
  obtain rfl : false = flag := hoff.symm.trans hflag
  refine (loadNcli_safe hoff hbetween).bind ?_
  rintro n c ⟨rfl, rfl⟩
  have hafter : Between h { c with ncli := c.ncli - 1 } := between_off hoff (.inl hpred)
  refine (storeNcli_safe hoff hbetween hafter).bind ?_
  rintro - _ rfl
  split
  · next hneg =>
    rw [Int32.lt_iff_toInt_lt, hpred] at hneg
    exact absurd hneg (by simp)
  · exact restore_safe hoff hpred hintena

theorem acquire_safe (lk : L) (hc : Level h e c) (hroom : h + 1 < 2 ^ 31) :
    (acquire lk).Safe access Interrupted (Between h) c fun _ d => Level (h + 1) e d :=
  (pushcli_safe hc hroom).bind fun _ _ hd => storeLocked_safe hd

theorem release_safe (lk : L) (hc : Level (h + 1) e c) :
    (release lk).Safe access Interrupted (Between h) c fun _ d => Level h e d :=
  (storeLocked_safe hc).bind fun _ _ hd => popcli_safe hd

end Functions

/-! ## Runs -/

/-- A frame that runs on `c`. -/
def Frame.Ok (f : Frame L) (c : Cpu L) : Prop :=
  match f.code with
  | none => Level f.held f.before c
  | some (call, pr) => pr.Safe access Interrupted (Between f.held) c fun _ d =>
      Level (f.returned call).held f.before d

/-- A frame that is interrupted has nothing acquired, and can go on with whatever its handler
leaves. -/
structure Stack.Inv (s : Stack L) : Prop where
  top : s.top.Ok s.cpu
  below : ∀ x ∈ s.below, enabled x.2 = true ∧ x.1.held = 0 ∧
    ∀ c : Cpu L, c.cpsr = x.2 → c.ncli = 0 → x.1.Ok c

/-- An `acquire` is called only while `ncli` can count it. -/
def Stack.Room (s : Stack L) : Event L → Prop
  | .call (.acquire _) => s.top.held + 1 < 2 ^ 31
  | _ => True

instance (s : Stack L) : ∀ l, Decidable (s.Room l)
  | .call (.acquire _) => Nat.decLt _ _
  | .call (.release _) | .next | .interrupt _ | .iret => .isTrue trivial

section Run

variable {f g : Frame L} {c d : Cpu L} {s t : Stack L}

theorem Frame.Ok.between (h : f.Ok c) : Between f.held c := by
  unfold Frame.Ok at h
  split at h
  · exact h.between
  · exact h.guarantee

theorem Frame.Ok.change (h : f.Ok c) (hcd : Interrupted c d) : f.Ok d := by
  unfold Frame.Ok at h ⊢
  split at h
  · exact Level.stable _ _ c d hcd h
  · exact h.change (Between.stable _) (fun _ => Level.stable _ _) (fun _ _ _ => .trans) hcd

/-- A frame in which interrupts are on has nothing acquired. -/
theorem Frame.Ok.on (h : f.Ok c) (hon : enabled c.cpsr = true) : c.ncli = 0 ∧ f.held = 0 := by
  have hzero := h.between.off hon
  constructor
  · exact Int32.toInt_inj.mp (hzero.trans Int32.toInt_zero.symm)
  · rcases h.between.ncli with hncli | hncli <;> omega

theorem Frame.Ok.call (h : f.Ok c) (hidle : f.code = none) {lk : LockCall L}
    (hg : f.call (enabled c.cpsr) lk = some g)
    (hroom : ∀ l, lk = .acquire l → f.held + 1 < 2 ^ 31) : g.Ok c := by
  unfold Frame.Ok at h
  rw [hidle] at h
  cases lk with
  | acquire l =>
      obtain rfl := Option.some.inj hg
      have hbefore : (if f.held = 0 then enabled c.cpsr else f.before) = f.before := by
        split
        · next hzero => exact h.zero hzero
        · rfl
      show (Irq.acquire l).Safe access Interrupted (Between f.held) c fun _ d =>
        Level (f.held + 1) (if f.held = 0 then enabled c.cpsr else f.before) d
      rw [hbefore]
      exact acquire_safe l h (hroom l rfl)
  | release l =>
      change (if f.held = 0 then none else _) = some g at hg
      split at hg
      · cases hg
      · next hpos =>
        obtain rfl := Option.some.inj hg
        obtain ⟨n, hn⟩ := Nat.exists_eq_succ_of_ne_zero hpos
        rw [hn] at h
        show (Irq.release l).Safe access Interrupted (Between (f.held - 1)) c fun _ d =>
          Level (f.held - 1) f.before d
        rw [hn]
        exact release_safe l h

theorem Stack.Inv.next (h : s.Inv) (hnext : s.next = some t) : t.Inv := by
  have htop := h.top
  unfold Frame.Ok at htop
  unfold Stack.next at hnext
  split at hnext
  · cases hnext
  · next lk a hcode =>
    cases hnext
    rw [hcode] at htop
    refine ⟨?_, h.below⟩
    cases lk with
    | acquire l => exact htop.2
    | release l => exact htop.2
  · cases hnext
  · next lk o k hcode =>
    rw [hcode] at htop
    obtain ⟨r, d, hd, hsafe⟩ := htop.2 s.cpu (.inl rfl)
    simp only [hd] at hnext
    cases hnext
    exact ⟨hsafe, h.below⟩

theorem Stack.Inv.step {l : Event L} (h : s.Inv) (hroom : s.Room l) (hstep : s.step l = some t) :
    t.Inv := by
  cases l with
  | call lk =>
      change (if s.top.code.isNone then _ else _) = some t at hstep
      split at hstep
      · next hidle =>
        obtain ⟨g, hg, rfl⟩ := Option.map_eq_some_iff.mp hstep
        refine ⟨h.top.call (Option.isNone_iff_eq_none.mp hidle) hg ?_, h.below⟩
        rintro l rfl
        exact hroom
      · cases hstep
  | next => exact h.next hstep
  | interrupt v =>
      change (if enabled s.cpu.cpsr then _ else _) = some t at hstep
      split at hstep
      · next hon =>
        cases hstep
        obtain ⟨hncli, hheld⟩ := h.top.on hon
        constructor
        · exact ⟨congrArg Int32.toInt hncli, fun _ => enabled_or v,
            fun hpos => absurd hpos (Nat.lt_irrefl 0)⟩
        · intro x hx
          rcases List.mem_cons.mp hx with rfl | hx
          · exact ⟨hon, hheld, fun c hcpsr hzero =>
              h.top.change (.inr ⟨hon, hcpsr, hzero.trans hncli.symm⟩)⟩
          · exact h.below x hx
      · cases hstep
  | iret =>
      change (match s.below with | [] => none | (f, v) :: below => _) = some t at hstep
      split at hstep
      · cases hstep
      · next f v below hbelow =>
        split at hstep
        · next hidle =>
          cases hstep
          have htop := h.top
          unfold Frame.Ok at htop
          rw [Option.isNone_iff_eq_none.mp hidle.1, hidle.2] at htop
          have hncli : s.cpu.ncli = 0 := (eq_zero_iff htop.ncli).mpr rfl
          have hf := h.below (f, v) (hbelow ▸ List.mem_cons_self)
          exact ⟨hf.2.2 _ rfl hncli,
            fun x hx => h.below x (hbelow ▸ List.mem_cons_of_mem _ hx)⟩
        · cases hstep

theorem Stack.start_inv (c : Cpu L) : (Stack.start c).Inv where
  top := ⟨rfl, fun _ => rfl, fun hpos => absurd hpos (Nat.lt_irrefl 0)⟩
  below _ hx := absurd hx List.not_mem_nil

theorem Stack.Inv.held (h : s.Inv) : s.held = s.top.held := by
  have hsum : ((s.below.map Prod.fst).map Frame.held).sum = 0 := by
    rw [List.sum_eq_zero_iff_forall_eq_nat]
    intro n hn
    obtain ⟨f, hf, rfl⟩ := List.mem_map.mp hn
    obtain ⟨x, hx, rfl⟩ := List.mem_map.mp hf
    exact (h.below x hx).2.1
  unfold Stack.held Stack.frames
  rw [List.map_cons, List.sum_cons, hsum, Nat.add_zero]

/-- A frame does not panic. -/
theorem Frame.Ok.no_panic (h : f.Ok c) (lk : LockCall L) (msg : String) :
    f.code ≠ some (lk, .panic msg) := by
  intro hcode
  unfold Frame.Ok at h
  rw [hcode] at h
  exact h

theorem Stack.Inv.no_panic (h : s.Inv) (hf : f ∈ s.frames) (lk : LockCall L) (msg : String) :
    f.code ≠ some (lk, .panic msg) := by
  rcases List.mem_cons.mp hf with rfl | hf
  · exact h.top.no_panic lk msg
  · obtain ⟨x, hx, rfl⟩ := List.mem_map.mp hf
    exact ((h.below x hx).2.2 { s.cpu with cpsr := x.2, ncli := 0 } rfl rfl).no_panic lk msg

end Run

/-- In every state of every run, `ncli` is the number of acquires not yet released; while a call
runs it may be one more.  Interrupts are off while it is positive, they are as before the outermost
acquire when nothing is acquired, and nothing panics. -/
theorem ncli_held (c : Cpu L) {tr : List (Stack L × Event L)} {u : Stack L}
    (hrun : Run Stack.step (Stack.start c) tr u) (hroom : EveryStep Stack.Room tr) :
    (u.cpu.ncli.toInt = u.held ∨ u.top.code ≠ none ∧ u.cpu.ncli.toInt = u.held + 1) ∧
    (0 < u.cpu.ncli → enabled u.cpu.cpsr = false) ∧
    (u.top.code = none → u.held = 0 → enabled u.cpu.cpsr = u.top.before) ∧
    ∀ f ∈ u.frames, ∀ lk msg, f.code ≠ some (lk, .panic msg) := by
  have h : u.Inv := (hrun.invariant_of (fun _ _ _ hs hok hstep => hs.step hok hstep)
    (Stack.start_inv c) hroom).2
  have htop := h.top
  rw [h.held]
  refine ⟨?_, fun hpos => ?_, fun hidle hzero => ?_, fun f hf => h.no_panic hf⟩
  · unfold Frame.Ok at htop
    split at htop
    · exact .inl htop.ncli
    · next lk pr hcode =>
      refine htop.guarantee.ncli.imp_right fun hncli => ⟨?_, hncli⟩
      rw [hcode]
      exact Option.some_ne_none _
  · by_contra hon
    rw [(htop.on (Bool.not_eq_false _ ▸ hon)).1] at hpos
    exact absurd hpos (by decide)
  · unfold Frame.Ok at htop
    rw [hidle] at htop
    exact htop.zero hzero

/-- A handler runs between the read of the flag and `cli`, and the locks are released in the order
in which they were acquired. -/
def window : List (Event Bool) :=
  let run (c : LockCall Bool) (n : Nat) : List (Event Bool) := .call c :: List.replicate n .next
  List.flatten [run (.acquire true) 1, [.interrupt 0x12#32], run (.acquire false) 8,
    run (.release false) 7, [.iret], List.replicate 7 .next, run (.acquire false) 7,
    run (.release true) 6, run (.release false) 9]

theorem ncli_held_window :
    ∃ tr u, Run Stack.step (Stack.start ⟨0x13#32, 0, false, fun _ : Bool => false⟩) tr u ∧
      tr.map Prod.snd = window ∧ u.top.code = none ∧ u.held = 0 ∧
      enabled u.cpu.cpsr = u.top.before ∧
      ∀ f ∈ u.frames, ∀ lk msg, f.code ≠ some (lk, .panic msg) := by
  have hall : ((exec (fun l s => if Stack.Room s l then Stack.step l s else none) window
      (Stack.start ⟨0x13#32, 0, false, fun _ : Bool => false⟩)).map
        fun u => (u.top.code.isNone, u.held)) = some (true, 0) := by
    decide +kernel
  obtain ⟨u, hu, hend⟩ := Option.map_eq_some_iff.mp hall
  obtain ⟨hidle, hheld⟩ := Prod.mk.inj hend
  obtain ⟨tr, hrun, hroom, hlabels⟩ := run_of_exec_if hu
  obtain ⟨-, -, hflag, hpanic⟩ := ncli_held _ hrun hroom
  have hidle := Option.isNone_iff_eq_none.mp hidle
  exact ⟨tr, u, hrun, hlabels, hidle, hheld, hflag hidle hheld, hpanic⟩

/-! ## More acquires than `ncli` can count -/

section Overflow

variable {s t : Stack L} {f : Frame L} {c d : Cpu L}

/-- A call that is not interrupted runs to its end. -/
theorem run_next {lk : LockCall L} {pr : Prog (cpuOps L) Unit} {a : Unit}
    (hcode : s.top.code = some (lk, pr)) (hexec : pr.exec access s.cpu = .ok (a, d)) :
    ∃ tr, Run Stack.step s tr { s with cpu := d, top := s.top.returned lk } := by
  induction pr generalizing s with
  | ret b =>
      cases hexec
      refine ⟨[(s, .next)], .cons ?_ (.nil _)⟩
      simp only [Stack.step, Stack.next, hcode]
  | panic msg => cases hexec
  | op o k ih =>
      rw [Prog.exec] at hexec
      split at hexec
      · next r c hc =>
        obtain ⟨t, ht⟩ : ∃ t : Stack L, t =
          { s with cpu := c, top := { s.top with code := some (lk, k r) } } := ⟨_, rfl⟩
        have hstep : Stack.step .next s = some t := by
          simp only [Stack.step, Stack.next, hcode, hc, ht]
        obtain ⟨tr, htr⟩ := ih r (s := t) (by rw [ht]) (by rw [ht]; exact hexec)
        refine ⟨(s, .next) :: tr, .cons hstep ?_⟩
        rw [ht] at htr ⊢
        cases lk <;> exact htr
      · cases hexec
      · cases hexec

/-- An `acquire` does not panic. -/
theorem acquire_exec (lk : L) (c : Cpu L) : ∃ d, (acquire lk).exec access c = .ok ((), d) := by
  have hstart : (acquire lk).exec access c =
      ((if c.ncli = 0 then storeIntena (enabled c.cpsr) else pure ()) >>= fun _ =>
        storeLocked lk true).exec access
          { c with cpsr := c.cpsr ||| DIS_INT, ncli := c.ncli + 1 } := rfl
  rw [hstart]
  split
  · exact ⟨_, rfl⟩
  · exact ⟨_, rfl⟩

/-- A program that only acquires. -/
theorem run_acquires (lk : L) (n : Nat) (hidle : s.top.code = none) :
    ∃ tr t, Run Stack.step s tr t ∧ t.top.code = none ∧ t.top.held = s.top.held + n ∧
      t.below = s.below := by
  induction n with
  | zero => exact ⟨[], s, .nil s, hidle, rfl, rfl⟩
  | succ n ih =>
      obtain ⟨tr, t, hrun, hidle, hheld, hbelow⟩ := ih
      obtain ⟨f, hf⟩ : ∃ f, t.top.call (enabled t.cpu.cpsr) (.acquire lk) = some f := ⟨_, rfl⟩
      have hcall : Stack.step (.call (.acquire lk)) t = some { t with top := f } := by
        simp only [Stack.step, hidle, hf, Option.isNone_none, if_true, Option.map_some]
      obtain ⟨d, hd⟩ := acquire_exec lk t.cpu
      have hcode : f.code = some (.acquire lk, acquire lk) := by
        cases hf
        rfl
      obtain ⟨tr', hrun'⟩ := run_next (s := { t with top := f }) hcode hd
      refine ⟨_, _, (hrun.snoc hcall).append hrun', rfl, ?_, hbelow⟩
      cases hf
      show t.top.held + 1 = _
      rw [hheld, Nat.add_assoc]

end Overflow

/-- `ncli` cannot count 2^31 acquires. -/
theorem acquires_not_ncli_held :
    ∃ tr u, Run Stack.step (Stack.start ⟨0x13#32, 0, false, fun _ : Unit => false⟩) tr u ∧
      u.top.code = none ∧ u.held = 2 ^ 31 ∧ u.cpu.ncli.toInt ≠ u.held := by
  obtain ⟨tr, u, hrun, hidle, hheld, hbelow⟩ := run_acquires () (2 ^ 31)
    (s := Stack.start ⟨0x13#32, 0, false, fun _ : Unit => false⟩) rfl
  have hall : u.held = 2 ^ 31 := by
    unfold Stack.held Stack.frames
    rw [hbelow, List.map_cons, List.sum_cons, hheld]
    rfl
  refine ⟨tr, u, hrun, hidle, hall, ?_⟩
  have hlt := u.cpu.ncli.toInt_lt
  rw [hall]
  omega

end Xv6Arm.Irq
