import Mathlib.Logic.Function.Basic
import Xv6Arm.Lib.Runs

/-!
# Pipes

The model of `pipe.c`.  A pipe is a ring of `PIPESIZE` bytes with two 32-bit
counters and a flag for each end.  Any number of processes call `pipewrite`,
`piperead` and `pipeclose` on it.

The system is a step function.  A process that is in a call first takes
`p->lock`.  While it holds the lock each of its steps is one round of a loop of
the source, up to the step that returns or goes to sleep, which gives the lock
back.  Steps of the other processes come between any two of its steps, but they
cannot touch the pipe.  A kill may come at any time.

* `sleep` gives the lock back and marks the process asleep on a channel, in one
  step.  A process that was woken takes the lock again before it goes on, at
  the test of the loop it slept in.
* `wakeup` makes every sleeper on a channel runnable.
* `pipeclose` of the second end frees the page of the pipe.  The pipe is gone
  then, and no process takes its lock any more.

`stored`, `delivered` and `sent` are history variables.  The code does not read
them.
-/

namespace Xv6Arm.Pipes

/-! ## The ring -/

/-- `PIPESIZE`: the bytes of the ring. -/
def PIPESIZE : Nat := 512

/-- `struct pipe`, without its lock.  Every index into `data` is taken modulo
`PIPESIZE`. -/
structure Pipe where
  /-- The bytes of the ring. -/
  data : Nat → UInt8
  /-- Number of bytes read. -/
  nread : UInt32
  /-- Number of bytes written. -/
  nwrite : UInt32
  /-- The read end is still open. -/
  readopen : Bool
  /-- The write end is still open. -/
  writeopen : Bool

/-- The test `p->nwrite == p->nread + PIPESIZE`. -/
def Pipe.full (p : Pipe) : Bool := p.nwrite == p.nread + UInt32.ofNat PIPESIZE

/-- The test `p->nread == p->nwrite`. -/
def Pipe.empty (p : Pipe) : Bool := p.nread == p.nwrite

/-- `p->data[p->nwrite++ % PIPESIZE] = b`. -/
def Pipe.put (p : Pipe) (b : UInt8) : Pipe :=
  { p with
    data := Function.update p.data (p.nwrite.toNat % PIPESIZE) b
    nwrite := p.nwrite + 1 }

/-- The byte `p->data[p->nread % PIPESIZE]`. -/
def Pipe.front (p : Pipe) : UInt8 := p.data (p.nread.toNat % PIPESIZE)

/-- `p->nread++`. -/
def Pipe.drop (p : Pipe) : Pipe := { p with nread := p.nread + 1 }

/-! ## Processes -/

/-- The two channels a process sleeps on, `&p->nread` and `&p->nwrite`. -/
inductive Chan
  | nread
  | nwrite
deriving DecidableEq

/-- A call on the pipe, with its arguments.  `addr` is the buffer of the
writer. -/
inductive Call
  | pipewrite (addr : Nat → UInt8) (n : Int)
  | piperead (n : Int)
  | pipeclose (writable : Bool)

/-- What a process does with the pipe. -/
inductive Act
  /-- Nothing yet. -/
  | idle
  /-- In `pipewrite`, with `i` bytes stored. -/
  | write (addr : Nat → UInt8) (n : Int) (i : Nat)
  /-- In `piperead`, with the bytes of `buf` copied.  `copying` says that the
  first loop is left. -/
  | read (n : Int) (copying : Bool) (buf : List UInt8)
  /-- In `pipeclose`. -/
  | close (writable : Bool)
  /-- The last call returned `r`. -/
  | ret (r : Int)

/-- A process that is in a call. -/
def Act.inCall : Act → Bool
  | .idle => false
  | .ret _ => false
  | _ => true

/-- The start of a call. -/
def Call.start : Call → Act
  | .pipewrite addr n => .write addr n 0
  | .piperead n => .read n false []
  | .pipeclose writable => .close writable

/-- The fields of `struct proc` the pipe code uses.  `chan` is the channel the
process is asleep on. -/
structure Proc where
  /-- What the process does with the pipe. -/
  act : Act
  /-- `proc->killed`. -/
  killed : Bool
  /-- The channel the process sleeps on. -/
  chan : Option Chan

/-- A pipe and its processes. -/
structure State (Pid : Type) where
  /-- The pipe. -/
  pipe : Pipe
  /-- The holder of `p->lock`. -/
  lock : Option Pid
  /-- The page of the pipe was freed. -/
  freed : Bool
  /-- The processes. -/
  procs : Pid → Proc
  /-- Every byte stored so far, with the process that stored it. -/
  stored : List (Pid × UInt8)
  /-- Every byte delivered so far. -/
  delivered : List UInt8
  /-- The bytes stored by the finished `pipewrite` calls of a process. -/
  sent : Pid → List UInt8

variable {Pid : Type}

/-- `wakeup(chan)`: every sleeper on the channel becomes runnable. -/
def wakeup (c : Chan) (s : State Pid) : State Pid :=
  { s with
    procs := fun q =>
      if (s.procs q).chan = some c then { s.procs q with chan := none } else s.procs q }

@[simp] theorem wakeup_pipe (c : Chan) (s : State Pid) : (wakeup c s).pipe = s.pipe := rfl
@[simp] theorem wakeup_lock (c : Chan) (s : State Pid) : (wakeup c s).lock = s.lock := rfl
@[simp] theorem wakeup_stored (c : Chan) (s : State Pid) : (wakeup c s).stored = s.stored := rfl
@[simp] theorem wakeup_delivered (c : Chan) (s : State Pid) :
    (wakeup c s).delivered = s.delivered := rfl
@[simp] theorem wakeup_sent (c : Chan) (s : State Pid) : (wakeup c s).sent = s.sent := rfl

@[simp] theorem wakeup_act (c : Chan) (s : State Pid) (q : Pid) :
    ((wakeup c s).procs q).act = (s.procs q).act := by
  by_cases h : (s.procs q).chan = some c
  · simp [wakeup, h]
  · simp [wakeup, h]

/-- After a wakeup nobody sleeps on the channel, and nobody else woke up. -/
@[simp] theorem wakeup_chan (c d : Chan) (s : State Pid) (q : Pid) :
    ((wakeup c s).procs q).chan = some d ↔ d ≠ c ∧ (s.procs q).chan = some d := by
  by_cases h : (s.procs q).chan = some c
  · simp only [wakeup, h, if_true]
    constructor
    · intro he; cases he
    · rintro ⟨hne, he⟩; cases he; exact absurd rfl hne
  · simp only [wakeup, h, if_false]
    constructor
    · intro he; exact ⟨fun hdc => h (hdc ▸ he), he⟩
    · exact fun he => he.2

variable [DecidableEq Pid]

/-- Changes what a process does. -/
def State.setAct (s : State Pid) (p : Pid) (a : Act) : State Pid :=
  { s with procs := Function.update s.procs p { s.procs p with act := a } }

/-- `sleep(chan, &p->lock)`: gives the lock back and blocks. -/
def sleep (p : Pid) (c : Chan) (s : State Pid) : State Pid :=
  { s with
    lock := none
    procs := Function.update s.procs p { s.procs p with chan := some c } }

/-- `release(&p->lock)` and the return of `r`. -/
def leave (p : Pid) (r : Int) (s : State Pid) : State Pid :=
  { s.setAct p (.ret r) with lock := none }

/-- The return of a `pipewrite` that stored `i` bytes. -/
def leaveWrite (p : Pid) (addr : Nat → UInt8) (i : Nat) (r : Int) (s : State Pid) : State Pid :=
  { leave p r s with sent := Function.update s.sent p (s.sent p ++ (List.range i).map addr) }

/-! ## The calls -/

/-- One round of `pipewrite`. -/
def pipewrite (p : Pid) (addr : Nat → UInt8) (n : Int) (i : Nat) (s : State Pid) : State Pid :=
  if (i : Int) < n then
    if s.pipe.full then
      if s.pipe.readopen = false ∨ (s.procs p).killed then
        leaveWrite p addr i (-1) s
      else
        sleep p .nwrite (wakeup .nread s)
    else
      { s.setAct p (.write addr n (i + 1)) with
        pipe := s.pipe.put (addr i)
        stored := s.stored ++ [(p, addr i)] }
  else
    leaveWrite p addr i n (wakeup .nread s)

/-- One round of `piperead`.  The first loop waits for a byte, the second copies
bytes until `n` are copied or the ring is empty. -/
def piperead (p : Pid) (n : Int) (copying : Bool) (buf : List UInt8) (s : State Pid) :
    State Pid :=
  if copying then
    if (buf.length : Int) < n ∧ s.pipe.empty = false then
      { s.setAct p (.read n true (buf ++ [s.pipe.front])) with
        pipe := s.pipe.drop
        delivered := s.delivered ++ [s.pipe.front] }
    else
      leave p buf.length (wakeup .nwrite s)
  else if s.pipe.empty ∧ s.pipe.writeopen then
    if (s.procs p).killed then
      leave p (-1) s
    else
      sleep p .nread s
  else
    s.setAct p (.read n true [])

/-- The first half of `pipeclose`: marks an end closed and wakes the processes
that wait for the other one. -/
def closeEnd (writable : Bool) (s : State Pid) : State Pid :=
  if writable then
    wakeup .nread { s with pipe := { s.pipe with writeopen := false } }
  else
    wakeup .nwrite { s with pipe := { s.pipe with readopen := false } }

/-- `pipeclose`.  The second close frees the page. -/
def pipeclose (p : Pid) (writable : Bool) (s : State Pid) : State Pid :=
  let s1 := closeEnd writable s
  if s1.pipe.readopen = false ∧ s1.pipe.writeopen = false then
    { leave p 0 s1 with freed := true }
  else
    leave p 0 s1

/-! ## The system -/

/-- A step of the system. -/
inductive Label (Pid : Type)
  /-- A process begins a call. -/
  | call (p : Pid) (c : Call)
  /-- A process takes `p->lock`. -/
  | acquire (p : Pid)
  /-- The holder of the lock takes its next step. -/
  | run (p : Pid)
  /-- A process is killed. -/
  | kill (p : Pid)

/-- The next step of a process in its critical section. -/
def runHolder (p : Pid) (s : State Pid) : Option (State Pid) :=
  match (s.procs p).act with
  | .write addr n i => some (pipewrite p addr n i s)
  | .read n copying buf => some (piperead p n copying buf s)
  | .close writable => some (pipeclose p writable s)
  | .idle => none
  | .ret _ => none

/-- The step function. -/
def step : Label Pid → State Pid → Option (State Pid)
  | .call p c, s => if (s.procs p).act.inCall then none else some (s.setAct p c.start)
  | .acquire p, s =>
      if s.freed = false ∧ s.lock = none ∧ (s.procs p).act.inCall ∧ (s.procs p).chan = none then
        some { s with lock := some p }
      else none
  | .run p, s => if s.lock = some p then runHolder p s else none
  | .kill p, s =>
      some { s with
        procs := Function.update s.procs p { s.procs p with killed := true, chan := none } }

/-- A pipe as `pipealloc` leaves it, with every process outside its calls.  The
bytes of the page are whatever `kalloc` handed out. -/
structure Initial (s : State Pid) : Prop where
  nread : s.pipe.nread = 0
  nwrite : s.pipe.nwrite = 0
  readopen : s.pipe.readopen = true
  writeopen : s.pipe.writeopen = true
  lock : s.lock = none
  freed : s.freed = false
  idle : ∀ p, (s.procs p).act = .idle
  awake : ∀ p, (s.procs p).chan = none
  stored : s.stored = []
  delivered : s.delivered = []
  sent : ∀ p, s.sent p = []

/-- A fresh pipe with two processes. -/
def freshPipe : State Bool where
  pipe := ⟨fun _ => 5, 0, 0, true, true⟩
  lock := none
  freed := false
  procs := fun _ => ⟨.idle, false, none⟩
  stored := []
  delivered := []
  sent := fun _ => []

theorem freshPipe_initial : Initial freshPipe :=
  ⟨rfl, rfl, rfl, rfl, rfl, rfl, fun _ => rfl, fun _ => rfl, rfl, rfl, fun _ => rfl⟩

/-! ## Frame lemmas -/

@[simp] theorem setAct_pipe (s : State Pid) (p : Pid) (a : Act) :
    (s.setAct p a).pipe = s.pipe := rfl
@[simp] theorem setAct_lock (s : State Pid) (p : Pid) (a : Act) :
    (s.setAct p a).lock = s.lock := rfl
@[simp] theorem setAct_stored (s : State Pid) (p : Pid) (a : Act) :
    (s.setAct p a).stored = s.stored := rfl
@[simp] theorem setAct_delivered (s : State Pid) (p : Pid) (a : Act) :
    (s.setAct p a).delivered = s.delivered := rfl
@[simp] theorem setAct_sent (s : State Pid) (p : Pid) (a : Act) :
    (s.setAct p a).sent = s.sent := rfl

@[simp] theorem setAct_act_self (s : State Pid) (p : Pid) (a : Act) :
    ((s.setAct p a).procs p).act = a := by
  simp [State.setAct]

@[simp] theorem setAct_act_ne (s : State Pid) {p q : Pid} (a : Act) (h : q ≠ p) :
    ((s.setAct p a).procs q).act = (s.procs q).act := by
  simp [State.setAct, h]

@[simp] theorem setAct_chan (s : State Pid) (p q : Pid) (a : Act) :
    ((s.setAct p a).procs q).chan = (s.procs q).chan := by
  by_cases h : q = p
  · subst h; simp [State.setAct]
  · simp [State.setAct, h]

/-- Who is killed goes on with the same call. -/
theorem kill_act (s : State Pid) (p q : Pid) : ((Function.update s.procs p
    { s.procs p with killed := true, chan := none }) q).act = (s.procs q).act := by
  by_cases h : q = p
  · subst h; simp
  · simp [h]

/-- What the holder of the lock can do. -/
theorem step_run_cases {s t : State Pid} {p : Pid} (h : step (.run p) s = some t) :
    s.lock = some p ∧
    ((∃ addr n i, (s.procs p).act = .write addr n i ∧ t = pipewrite p addr n i s) ∨
      (∃ n copying buf, (s.procs p).act = .read n copying buf ∧ t = piperead p n copying buf s) ∨
      ∃ writable, (s.procs p).act = .close writable ∧ t = pipeclose p writable s) := by
  simp only [step] at h
  split at h
  next hlock =>
    refine ⟨hlock, ?_⟩
    unfold runHolder at h
    cases hact : (s.procs p).act with
    | write addr n i =>
        rw [hact] at h
        cases h
        exact .inl ⟨addr, n, i, rfl, rfl⟩
    | read n copying buf =>
        rw [hact] at h
        cases h
        exact .inr (.inl ⟨n, copying, buf, rfl, rfl⟩)
    | close writable =>
        rw [hact] at h
        cases h
        exact .inr (.inr ⟨writable, rfl, rfl⟩)
    | idle => rw [hact] at h; cases h
    | ret r => rw [hact] at h; cases h
  · cases h

end Xv6Arm.Pipes
