import Mathlib.Data.List.FinRange
import Xv6Arm.Lib.Bytes
import Xv6Arm.Lib.Linked
import Xv6Arm.Lib.Runs

/-!
# The buffer cache

The model of `bio.c` over the memory disk of `memide.c`, for any number of
processes.  In `bio.c` the bodies of `bget`, `bread`, `bwrite` and `brelse` stand
in comments; the log and the file system are written against them.

The buffers and `bcache.head` are linked in both directions.  `bget` searches
this list twice, along `next` for the sector and along `prev` for a buffer to
recycle, and goes to sleep when another process has the sector.  One pass of its
loop runs under `bcache.lock` and so is one step of the system (`pass`).  The
rest of `bread` runs without the lock (`fetch`), and so do the writes of a
process to a buffer that `bread` gave to it.

A process uses a buffer only between `bread` and `brelse`: `held` is the buffers
a process has, which is a fact about its local variables and not about the
cache.  A sleeping process may be woken by `kill` at any time (`wake`).
-/

namespace Xv6Arm.Bio

open Bytes Linked Circles

/-- `NBUF`: the number of buffers. -/
def NBUF : Nat := 10

/-- A `uint`. -/
abbrev Word := BitVec 32

/-- The contents of a sector. -/
abbrev Block := Buf 512

/-- An element of the list of buffers. -/
inductive Node
  /-- `bcache.head`. -/
  | head
  /-- `bcache.buf[i]`. -/
  | buf (i : Fin NBUF)
deriving DecidableEq

/-- `struct buf`, without its links.  `flags` is one field for each flag. -/
structure Buffer where
  /-- `B_BUSY`. -/
  busy : Bool
  /-- `B_VALID`. -/
  valid : Bool
  /-- `B_DIRTY`. -/
  dirty : Bool
  /-- The device. -/
  dev : Word
  /-- The sector. -/
  sector : Word
  /-- The data. -/
  data : Block

/-- `bcache`, without its lock. -/
structure Bcache where
  /-- `prev` and `next` of the buffers and of `bcache.head`. -/
  links : Links Node
  /-- `bcache.buf`. -/
  buf : Fin NBUF → Buffer

/-- The cache with another buffer `b`. -/
def Bcache.set (c : Bcache) (b : Fin NBUF) (x : Buffer) : Bcache :=
  { c with buf := Function.update c.buf b x }

/-- The body of the loop of `b_init`. -/
def Bcache.insert (c : Bcache) (b : Fin NBUF) : Bcache :=
  { c.set b { c.buf b with dev := -1 } with links := c.links.push .head (.buf b) }

/-- `b_init`. -/
def bInit (c : Bcache) : Bcache :=
  let c : Bcache :=
    { c with links := { c.links with prev := Function.update c.links.prev .head .head } }
  let c : Bcache :=
    { c with links := { c.links with next := Function.update c.links.next .head .head } }
  (List.finRange NBUF).foldl Bcache.insert c

/-! ## The memory disk -/

/-- The variables of `memide.c`. -/
structure Drive where
  /-- `disksize`. -/
  disksize : Nat
  /-- `memdisk`, by sector. -/
  memdisk : Word → Block

/-- `iderw`. -/
def iderw (d : Drive) (b : Buffer) : Except String (Drive × Buffer) :=
  if !b.busy then .error "iderw: buf not busy"
  else if b.valid && !b.dirty then .error "iderw: nothing to do"
  else if b.dev ≠ 1 then .error "iderw: request not for disk 1"
  else if d.disksize ≤ b.sector.toNat then .error "iderw: sector out of range"
  else if b.dirty then
    .ok ({ d with memdisk := Function.update d.memdisk b.sector b.data },
      { b with dirty := false, valid := true })
  else .ok (d, { b with data := d.memdisk b.sector, valid := true })

/-! ## The searches of `bget` -/

/-- A test of the buffers, for the elements of the list. -/
def Node.test (p : Fin NBUF → Bool) : Node → Bool
  | .head => false
  | .buf b => p b

/-- Where a `for` loop over the list ends that starts behind `bcache.head`: at a
buffer with `p`, or at `bcache.head`.  A loop that goes on after `NBUF` buffers
has met one of them twice, and so never ends. -/
def scan (next : Node → Node) (p : Fin NBUF → Bool) : Option Node :=
  walk next (fun a => a == .head || a.test p) (NBUF + 1) (next .head)

/-- How one pass of the loop of `bget` ends. -/
inductive Pass
  /-- The sector is cached in `b`, which nobody uses. -/
  | hit (b : Fin NBUF)
  /-- The sector is cached in `b`, which is busy. -/
  | sleep (b : Fin NBUF)
  /-- The sector is not cached, and `b` can be recycled. -/
  | recycle (b : Fin NBUF)
  /-- There is no buffer to recycle. -/
  | noBuffers
  /-- A search does not end. -/
  | endless
deriving DecidableEq

/-- The buffer holds the sector. -/
def Bcache.holds (c : Bcache) (dev sector : Word) (b : Fin NBUF) : Bool :=
  (c.buf b).dev == dev && (c.buf b).sector == sector

/-- The buffer is neither busy nor dirty. -/
def Bcache.free (c : Bcache) (b : Fin NBUF) : Bool := !(c.buf b).busy && !(c.buf b).dirty

/-- One pass of the loop of `bget`. -/
def Bcache.pass (c : Bcache) (dev sector : Word) : Pass :=
  match scan c.links.next (c.holds dev sector) with
  | none => .endless
  | some (.buf b) => if (c.buf b).busy then .sleep b else .hit b
  | some .head =>
    match scan c.links.prev c.free with
    | none => .endless
    | some (.buf b) => .recycle b
    | some .head => .noBuffers

/-! ## The system -/

/-- Where a process is. -/
inductive Pc
  /-- Outside of `bio.c`. -/
  | out
  /-- In `bget`, before a pass of its loop. -/
  | loop (dev sector : Word)
  /-- In `bget`, asleep on `b`. -/
  | asleep (b : Fin NBUF) (dev sector : Word)
  /-- In `bread`, with the buffer `bget` returned. -/
  | got (b : Fin NBUF)
deriving DecidableEq

/-- A process. -/
structure Proc where
  /-- Where it is. -/
  pc : Pc
  /-- The buffers that `bread` returned and that are not passed to `brelse`. -/
  held : List (Fin NBUF)

/-- Why the system does not go on. -/
inductive Halt
  /-- The kernel calls `panic`. -/
  | panic (msg : String)
  /-- A loop does not end. -/
  | endless
deriving DecidableEq

/-- The cache, the disk and the processes. -/
structure State (Pid : Type) where
  /-- The cache. -/
  cache : Bcache
  /-- The disk. -/
  drive : Drive
  /-- The processes. -/
  procs : Pid → Proc
  /-- Set when the system has stopped. -/
  halt : Option Halt

/-- A step of the system. -/
inductive Label (Pid : Type)
  /-- A process calls `bread`. -/
  | call (p : Pid) (dev sector : Word)
  /-- One pass of the loop of `bget`. -/
  | pass (p : Pid)
  /-- `bread` after `bget` has returned. -/
  | fetch (p : Pid)
  /-- A process asleep in `bget` is woken by `kill`. -/
  | wake (p : Pid)
  /-- A process writes the data of a buffer. -/
  | store (p : Pid) (b : Fin NBUF) (data : Block)
  /-- A process sets `B_DIRTY`, as `log_write` does. -/
  | mark (p : Pid) (b : Fin NBUF)
  /-- A process calls `bwrite`. -/
  | bwrite (p : Pid) (b : Fin NBUF)
  /-- A process calls `brelse`. -/
  | brelse (p : Pid) (b : Fin NBUF)

variable {Pid : Type}

/-- A buffer of the state. -/
def State.buf (s : State Pid) (b : Fin NBUF) : Buffer := s.cache.buf b

/-- The state with another buffer `b`. -/
def State.setBuf (s : State Pid) (b : Fin NBUF) (x : Buffer) : State Pid :=
  { s with cache := s.cache.set b x }

/-- The state with another disk. -/
def State.setDrive (s : State Pid) (d : Drive) : State Pid := { s with drive := d }

/-- The state with other links of the buffers. -/
def State.relink (s : State Pid) (links : Links Node) : State Pid :=
  { s with cache := { s.cache with links := links } }

/-- The state that has stopped. -/
def State.stop (s : State Pid) (h : Halt) : State Pid := { s with halt := some h }

/-- `wakeup(b)`: the sleepers on `b` go back to the loop of `bget`. -/
def Proc.wakeup (b : Fin NBUF) (q : Proc) : Proc :=
  match q.pc with
  | .asleep b' dev sector => if b' = b then { q with pc := .loop dev sector } else q
  | _ => q

/-- The state after `wakeup(b)`. -/
def State.wakeup (s : State Pid) (b : Fin NBUF) : State Pid :=
  { s with procs := fun q => (s.procs q).wakeup b }

section

variable (s : State Pid) (a b : Fin NBUF) (x : Buffer) (d : Drive) (links : Links Node) (h : Halt)

@[simp] theorem buf_setBuf : (s.setBuf b x).buf a = if a = b then x else s.buf a :=
  Function.update_apply s.cache.buf b x a

@[simp] theorem setBuf_setBuf (y : Buffer) : (s.setBuf b x).setBuf b y = s.setBuf b y := by
  simp only [State.setBuf, Bcache.set, Function.update_idem]

@[simp] theorem procs_setBuf : (s.setBuf b x).procs = s.procs := rfl

@[simp] theorem drive_setBuf : (s.setBuf b x).drive = s.drive := rfl

@[simp] theorem halt_setBuf : (s.setBuf b x).halt = s.halt := rfl

@[simp] theorem links_setBuf : (s.setBuf b x).cache.links = s.cache.links := rfl

@[simp] theorem buf_setDrive : (s.setDrive d).buf b = s.buf b := rfl

@[simp] theorem procs_setDrive : (s.setDrive d).procs = s.procs := rfl

@[simp] theorem drive_setDrive : (s.setDrive d).drive = d := rfl

@[simp] theorem halt_setDrive : (s.setDrive d).halt = s.halt := rfl

@[simp] theorem cache_setDrive : (s.setDrive d).cache = s.cache := rfl

@[simp] theorem buf_relink : (s.relink links).buf b = s.buf b := rfl

@[simp] theorem procs_relink : (s.relink links).procs = s.procs := rfl

@[simp] theorem drive_relink : (s.relink links).drive = s.drive := rfl

@[simp] theorem halt_relink : (s.relink links).halt = s.halt := rfl

@[simp] theorem links_relink : (s.relink links).cache.links = links := rfl

@[simp] theorem buf_wakeup : (s.wakeup b).buf a = s.buf a := rfl

@[simp] theorem procs_wakeup (p : Pid) : (s.wakeup b).procs p = (s.procs p).wakeup b := rfl

@[simp] theorem drive_wakeup : (s.wakeup b).drive = s.drive := rfl

@[simp] theorem halt_wakeup : (s.wakeup b).halt = s.halt := rfl

@[simp] theorem cache_wakeup : (s.wakeup b).cache = s.cache := rfl

@[simp] theorem buf_stop : (s.stop h).buf b = s.buf b := rfl

@[simp] theorem procs_stop : (s.stop h).procs = s.procs := rfl

@[simp] theorem held_wakeup (q : Proc) : (q.wakeup b).held = q.held := by
  unfold Proc.wakeup
  split
  · split <;> rfl
  · rfl

end

variable [DecidableEq Pid]

/-- The state with another process `p`. -/
def State.setProc (s : State Pid) (p : Pid) (q : Proc) : State Pid :=
  { s with procs := Function.update s.procs p q }

/-- The state with process `p` at another place. -/
def State.goto (s : State Pid) (p : Pid) (pc : Pc) : State Pid :=
  s.setProc p { s.procs p with pc := pc }

/-- `bread` returns `b` to `p`. -/
def State.give (s : State Pid) (p : Pid) (b : Fin NBUF) : State Pid :=
  s.setProc p { pc := .out, held := b :: (s.procs p).held }

section

variable (s : State Pid) (p r : Pid) (q : Proc) (b : Fin NBUF)

@[simp] theorem procs_setProc : (s.setProc p q).procs r = if r = p then q else s.procs r :=
  Function.update_apply s.procs p q r

@[simp] theorem cache_setProc : (s.setProc p q).cache = s.cache := rfl

@[simp] theorem buf_setProc : (s.setProc p q).buf b = s.buf b := rfl

@[simp] theorem drive_setProc : (s.setProc p q).drive = s.drive := rfl

@[simp] theorem halt_setProc : (s.setProc p q).halt = s.halt := rfl

@[simp] theorem buf_goto (pc : Pc) : (s.goto p pc).buf b = s.buf b := rfl

@[simp] theorem procs_goto (pc : Pc) :
    (s.goto p pc).procs r = if r = p then { s.procs p with pc := pc } else s.procs r :=
  procs_setProc s p r _

@[simp] theorem buf_give (a : Fin NBUF) : (s.give p b).buf a = s.buf a := rfl

@[simp] theorem procs_give :
    (s.give p b).procs r = if r = p then ⟨.out, b :: (s.procs p).held⟩ else s.procs r :=
  procs_setProc s p r _

end

/-! ## The functions of `bio.c` -/

/-- One pass of the loop of `bget`, for the process `p` that looks for a sector. -/
def runPass (p : Pid) (dev sector : Word) (s : State Pid) : State Pid :=
  match s.cache.pass dev sector with
  | .hit b => (s.setBuf b { s.buf b with busy := true }).goto p (.got b)
  | .sleep b => s.goto p (.asleep b dev sector)
  | .recycle b =>
    (s.setBuf b { s.buf b with
      dev := dev, sector := sector, busy := true, valid := false, dirty := false }).goto p (.got b)
  | .noBuffers => s.stop (.panic "bget: no buffers")
  | .endless => s.stop .endless

/-- `iderw(b)` on the disk of the state, and then `k`. -/
def sync (b : Fin NBUF) (s : State Pid) (k : State Pid → State Pid) : State Pid :=
  match iderw s.drive (s.buf b) with
  | .ok (d, x) => k ((s.setBuf b x).setDrive d)
  | .error msg => s.stop (.panic msg)

/-- `bread` after `bget` has returned `b`. -/
def finishRead (p : Pid) (b : Fin NBUF) (s : State Pid) : State Pid :=
  if (s.buf b).valid then s.give p b else sync b s fun s => s.give p b

/-- `bwrite(b)`. -/
def bwrite (b : Fin NBUF) (s : State Pid) : State Pid :=
  if !(s.buf b).busy then s.stop (.panic "bwrite")
  else sync b (s.setBuf b { s.buf b with dirty := true }) id

/-- `brelse(b)`. -/
def brelse (b : Fin NBUF) (s : State Pid) : State Pid :=
  if !(s.buf b).busy then s.stop (.panic "brelse")
  else
    let s := s.relink ((s.cache.links.unlink (.buf b)).push .head (.buf b))
    let s := s.setBuf b { s.buf b with busy := false }
    s.wakeup b

/-- A step in a state that has not stopped. -/
def act : Label Pid → State Pid → Option (State Pid)
  | .call p dev sector, s =>
    if (s.procs p).pc = .out then some (s.goto p (.loop dev sector)) else none
  | .pass p, s =>
    match (s.procs p).pc with
    | .loop dev sector => some (runPass p dev sector s)
    | _ => none
  | .fetch p, s =>
    match (s.procs p).pc with
    | .got b => some (finishRead p b s)
    | _ => none
  | .wake p, s =>
    match (s.procs p).pc with
    | .asleep _ dev sector => some (s.goto p (.loop dev sector))
    | _ => none
  | .store p b data, s =>
    if (s.procs p).pc = .out ∧ b ∈ (s.procs p).held then
      some (s.setBuf b { s.buf b with data := data })
    else none
  | .mark p b, s =>
    if (s.procs p).pc = .out ∧ b ∈ (s.procs p).held then
      some (s.setBuf b { s.buf b with dirty := true })
    else none
  | .bwrite p b, s =>
    if (s.procs p).pc = .out ∧ b ∈ (s.procs p).held then some (bwrite b s) else none
  | .brelse p b, s =>
    if (s.procs p).pc = .out ∧ b ∈ (s.procs p).held then
      some (brelse b (s.setProc p { s.procs p with held := (s.procs p).held.erase b }))
    else none

/-- One step of the system. -/
def step (l : Label Pid) (s : State Pid) : Option (State Pid) :=
  match s.halt with
  | none => act l s
  | some _ => none

/-- The system after `b_init`: no flag is set, and no process has a buffer. -/
structure Initial (s : State Pid) : Prop where
  /-- The cache is what `b_init` makes of one without flags. -/
  cache : ∃ c : Bcache,
    (∀ b, (c.buf b).busy = false ∧ (c.buf b).valid = false ∧ (c.buf b).dirty = false) ∧
      s.cache = bInit c
  /-- The processes are outside of `bio.c`. -/
  procs : ∀ p, s.procs p = { pc := .out, held := [] }
  /-- The system runs. -/
  halt : s.halt = none

end Xv6Arm.Bio
