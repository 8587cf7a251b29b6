import Xv6Arm.Lib.Ring
import Xv6Arm.Pipe.Model

/-!
# A pipe is a queue

`Fifo` says that the ring and its counters hold exactly the bytes stored and not
yet delivered, and that the bytes each writer stored are its own, in its order.
Every step keeps it, so it holds in every state of every run, past any number of
wraps of the 32-bit counters: `PIPESIZE` divides `2 ^ 32` and is smaller.

The end of file is a property of one step.  A reader leaves its first loop only
when the ring is not empty or the write end is closed, and nobody touches the
pipe while it copies.  So a `piperead` that returns 0 for a positive count found
the ring empty and the write end closed (`piperead_zero`).

A reader copies while it holds the lock.  So the bytes of one call stand together in
what was delivered, and the whole of it is what the calls returned, in the order in
which they returned (`Fifo.run_copied`).
-/

namespace Xv6Arm.Pipes

variable {Pid : Type}

/-- The bytes stored so far. -/
def State.bytes (s : State Pid) : List UInt8 := s.stored.map Prod.snd

/-- The bytes stored so far by one process. -/
def State.bytesOf [DecidableEq Pid] (s : State Pid) (w : Pid) : List UInt8 :=
  (s.stored.filter fun x => x.1 = w).map Prod.snd

/-- The bytes the running `pipewrite` of a process has stored, in the order of
its buffer. -/
def Act.written : Act → List UInt8
  | .write addr _ i => (List.range i).map addr
  | _ => []

theorem Act.written_of_not_inCall {a : Act} (h : ¬ a.inCall = true) : a.written = [] := by
  cases a with
  | write addr n i => exact absurd rfl h
  | _ => rfl

theorem Call.written_start (c : Call) : c.start.written = [] := by
  cases c <;> rfl

/-- The bytes a process handed to `pipewrite` that were stored, call after call,
each call in the order of its buffer. -/
def State.sentBy (s : State Pid) (w : Pid) : List UInt8 :=
  s.sent w ++ (s.procs w).act.written

/-- The bytes a `piperead` has copied into the buffer of its caller. -/
def Act.taken : Act → List UInt8
  | .read _ true buf => buf
  | _ => []

theorem Act.taken_of_not_inCall {a : Act} (h : ¬ a.inCall = true) : a.taken = [] := by
  cases a with
  | read n copying buf => exact absurd rfl h
  | _ => rfl

theorem Call.taken_start (c : Call) : c.start.taken = [] := by
  cases c <;> rfl

/-- The bytes that the holder of the lock has copied so far. -/
def State.copied (s : State Pid) : List UInt8 :=
  match s.lock with
  | some p => (s.procs p).act.taken
  | none => []

theorem copied_of_lock {s : State Pid} {p : Pid} (h : s.lock = some p) :
    s.copied = (s.procs p).act.taken := by
  rw [State.copied, h]

theorem copied_of_free {s : State Pid} (h : s.lock = none) : s.copied = [] := by
  rw [State.copied, h]

/-- A step that leaves the lock and every reader's buffer alone. -/
theorem copied_congr {s t : State Pid} (hlock : t.lock = s.lock)
    (htaken : ∀ q, (t.procs q).act.taken = (s.procs q).act.taken) : t.copied = s.copied := by
  unfold State.copied
  rw [hlock]
  cases s.lock with
  | none => rfl
  | some q => exact htaken q

/-- The bytes in the ring, oldest first. -/
def Pipe.contents (p : Pipe) : List UInt8 :=
  (List.range (p.nwrite - p.nread).toNat).map fun k => p.data ((p.nread.toNat + k) % PIPESIZE)

/-! ## The ring of the pipe -/

/-- The ring of a pipe after the bytes of `log` were stored and `r` of them
delivered. -/
def Pipe.Holds (p : Pipe) (log : List UInt8) (r : Nat) : Prop :=
  Ring.Holds PIPESIZE (2 ^ 32) p.data p.nread.toNat p.nwrite.toNat log r

theorem pipesize_dvd : PIPESIZE ∣ 2 ^ 32 := by decide

theorem pipesize_lt : PIPESIZE < 2 ^ 32 := by decide

theorem Pipe.Holds.empty_iff {p : Pipe} {log : List UInt8} {r : Nat} (h : p.Holds log r) :
    p.empty = true ↔ r = log.length := by
  rw [Pipe.empty, beq_iff_eq, ← UInt32.toNat_inj]
  exact Ring.Holds.empty_iff h pipesize_lt

theorem Pipe.Holds.full_iff {p : Pipe} {log : List UInt8} {r : Nat} (h : p.Holds log r) :
    p.full = true ↔ log.length = r + PIPESIZE := by
  rw [Pipe.full, beq_iff_eq, ← UInt32.toNat_inj, UInt32.toNat_add]
  exact Ring.Holds.full_iff h pipesize_lt

theorem Pipe.Holds.length_sub {p : Pipe} {log : List UInt8} {r : Nat} (h : p.Holds log r) :
    (p.nwrite - p.nread).toNat = log.length - r := by
  rw [UInt32.toNat_sub, Nat.add_comm]
  exact Ring.Holds.distance h pipesize_lt

theorem Pipe.Holds.contents {p : Pipe} {log : List UInt8} {r : Nat} (h : p.Holds log r) :
    p.contents = log.drop r := by
  rw [Pipe.contents, h.length_sub]
  exact Ring.Holds.contents h pipesize_dvd

theorem Pipe.Holds.put {p : Pipe} {log : List UInt8} {r : Nat} (h : p.Holds log r)
    (hfull : p.full = false) (b : UInt8) : (p.put b).Holds (log ++ [b]) r := by
  have hroom : log.length < r + PIPESIZE := by
    have hne : log.length ≠ r + PIPESIZE := by
      intro he
      rw [h.full_iff.mpr he] at hfull
      cases hfull
    have hle : log.length ≤ r + PIPESIZE := Ring.Holds.room h
    omega
  have hpush := Ring.Holds.push h pipesize_dvd hroom b
  unfold Pipe.Holds Pipe.put
  rw [UInt32.toNat_add]
  exact hpush

theorem Pipe.Holds.lt_of_nonempty {p : Pipe} {log : List UInt8} {r : Nat} (h : p.Holds log r)
    (hempty : p.empty = false) : r < log.length := by
  have hne : r ≠ log.length := by
    intro he
    rw [h.empty_iff.mpr he] at hempty
    cases hempty
  have hle : r ≤ log.length := Ring.Holds.taken h
  omega

theorem Pipe.Holds.front {p : Pipe} {log : List UInt8} {r : Nat} (h : p.Holds log r)
    (hr : r < log.length) : p.front = log[r] :=
  Ring.Holds.front h pipesize_dvd hr

theorem Pipe.Holds.drop {p : Pipe} {log : List UInt8} {r : Nat} (h : p.Holds log r)
    (hr : r < log.length) : p.drop.Holds log (r + 1) := by
  have hpop := Ring.Holds.pop h hr
  unfold Pipe.Holds Pipe.drop
  rw [UInt32.toNat_add]
  exact hpop

/-! ## The invariant -/

variable [DecidableEq Pid]

/-- The invariant of a pipe. -/
structure Fifo (s : State Pid) : Prop where
  /-- The ring holds what was stored and not yet delivered. -/
  ring : s.pipe.Holds s.bytes s.delivered.length
  /-- What was delivered is what was stored first. -/
  order : s.delivered = s.bytes.take s.delivered.length
  /-- What a writer stored is what it sent. -/
  own : ∀ w, s.bytesOf w = s.sentBy w
  /-- A reader that copies found a byte, or the write end closed, and nobody
  changed the pipe since it looked. -/
  eof : ∀ p n, (s.procs p).act = .read n true [] → s.pipe.empty = true →
    s.pipe.writeopen = false
  /-- A reader copies only while it holds the lock. -/
  copier : ∀ p n buf, (s.procs p).act = .read n true buf → s.lock = some p

theorem Initial.fifo {s : State Pid} (h : Initial s) : Fifo s where
  ring := by
    have hz : (0 : UInt32).toNat = 0 := rfl
    rw [Pipe.Holds, State.bytes, h.stored, h.delivered, h.nread, h.nwrite, hz]
    exact Ring.holds_nil _
  order := by rw [h.delivered]; rfl
  own := by
    intro w
    rw [State.bytesOf, State.sentBy, h.stored, h.sent, h.idle]
    rfl
  eof := by
    intro p n hp
    rw [h.idle] at hp
    cases hp
  copier := by
    intro p n buf hp
    rw [h.idle] at hp
    cases hp

/-- A step that leaves the ring and the history alone, starts no copying and
lets nobody's written bytes change keeps the invariant. -/
theorem Fifo.frame {s t : State Pid} (h : Fifo s)
    (hdata : t.pipe.data = s.pipe.data) (hrd : t.pipe.nread = s.pipe.nread)
    (hwr : t.pipe.nwrite = s.pipe.nwrite) (hst : t.stored = s.stored)
    (hdel : t.delivered = s.delivered) (hown : ∀ w, t.sentBy w = s.sentBy w)
    (hread : ∀ p n buf, (t.procs p).act = .read n true buf →
      (s.procs p).act = .read n true buf ∧ t.lock = s.lock ∧ t.pipe.writeopen = s.pipe.writeopen) :
    Fifo t where
  ring := by
    have hr := h.ring
    unfold Pipe.Holds State.bytes at hr ⊢
    rw [hdata, hrd, hwr, hst, hdel]
    exact hr
  order := by rw [State.bytes, hst, hdel]; exact h.order
  own := by
    intro w
    rw [hown w, ← h.own w, State.bytesOf, State.bytesOf, hst]
  eof := by
    intro p n hp he
    obtain ⟨hs, -, hwo⟩ := hread p n [] hp
    rw [hwo]
    refine h.eof p n hs ?_
    rw [Pipe.empty, ← hrd, ← hwr]
    exact he
  copier := by
    intro p n buf hp
    obtain ⟨hs, hlock, -⟩ := hread p n buf hp
    rw [hlock]
    exact h.copier p n buf hs

/-- Nobody but the holder of the lock copies. -/
theorem Fifo.not_copying {s : State Pid} (h : Fifo s) {p q : Pid} (hlock : s.lock = some p)
    (hne : q ≠ p) {n : Int} {buf : List UInt8} : (s.procs q).act ≠ .read n true buf := by
  intro hq
  have := h.copier q n buf hq
  rw [hlock] at this
  exact hne (Option.some.inj this).symm

/-- Nobody copies while the lock is free. -/
theorem Fifo.taken_of_free {s : State Pid} (h : Fifo s) (hfree : s.lock = none) (p : Pid) :
    (s.procs p).act.taken = [] := by
  cases hact : (s.procs p).act with
  | read n copying buf =>
      cases copying with
      | true =>
          have hlock := h.copier p n buf hact
          rw [hfree] at hlock
          cases hlock
      | false => rfl
  | _ => rfl

/-! ## One step -/

theorem sentBy_setAct (s : State Pid) (p : Pid) (a : Act)
    (ha : a.written = (s.procs p).act.written) (w : Pid) :
    (s.setAct p a).sentBy w = s.sentBy w := by
  by_cases hw : w = p
  · subst hw
    rw [State.sentBy, State.sentBy, setAct_sent, setAct_act_self, ha]
  · rw [State.sentBy, State.sentBy, setAct_sent, setAct_act_ne s a hw]

omit [DecidableEq Pid] in
theorem sentBy_wakeup (c : Chan) (s : State Pid) (w : Pid) :
    (wakeup c s).sentBy w = s.sentBy w := by
  rw [State.sentBy, State.sentBy, wakeup_sent, wakeup_act]

theorem sentBy_leaveWrite {s : State Pid} {p : Pid} {addr : Nat → UInt8} {n : Int} {i : Nat}
    (hact : (s.procs p).act = .write addr n i) (r : Int) (w : Pid) :
    (leaveWrite p addr i r s).sentBy w = s.sentBy w := by
  by_cases hw : w = p
  · subst hw
    simp [State.sentBy, leaveWrite, leave, State.setAct, Act.written, hact]
  · simp [State.sentBy, leaveWrite, leave, State.setAct, hw]

theorem Fifo.wakeup {s : State Pid} (h : Fifo s) (c : Chan) : Fifo (wakeup c s) :=
  h.frame rfl rfl rfl rfl rfl (sentBy_wakeup c s) fun p n buf hp => by
    rw [wakeup_act] at hp
    exact ⟨hp, rfl, rfl⟩

/-- Going to sleep keeps the invariant, for a process that is not copying. -/
theorem Fifo.sleep {s : State Pid} (h : Fifo s) {p : Pid} (c : Chan) (hlock : s.lock = some p)
    (hact : ∀ n buf, (s.procs p).act ≠ .read n true buf) : Fifo (sleep p c s) := by
  have hacts : ∀ q, ((Pipes.sleep p c s).procs q).act = (s.procs q).act := by
    intro q
    by_cases hq : q = p
    · subst hq; simp [Pipes.sleep]
    · simp [Pipes.sleep, hq]
  refine h.frame rfl rfl rfl rfl rfl (fun w => ?_) fun q n buf hq => ?_
  · rw [State.sentBy, State.sentBy, hacts]; rfl
  · rw [hacts] at hq
    by_cases hqp : q = p
    · subst hqp
      exact absurd hq (hact n buf)
    · exact absurd hq (h.not_copying hlock hqp)

/-- A return that leaves the pipe alone keeps the invariant, whether it counts
the bytes of the call as sent (`leaveWrite`) or there are none (`leave`). -/
theorem Fifo.returned {s t : State Pid} (h : Fifo s) {p : Pid} {r : Int}
    (hlock : s.lock = some p) (hpipe : t.pipe = s.pipe) (hst : t.stored = s.stored)
    (hdel : t.delivered = s.delivered) (hown : ∀ w, t.sentBy w = s.sentBy w)
    (hact : (t.procs p).act = .ret r) (hother : ∀ q, q ≠ p → (t.procs q).act = (s.procs q).act) :
    Fifo t := by
  refine h.frame (by rw [hpipe]) (by rw [hpipe]) (by rw [hpipe]) hst hdel hown
    fun q n buf hq => ?_
  by_cases hqp : q = p
  · subst hqp
    rw [hact] at hq
    cases hq
  · rw [hother q hqp] at hq
    exact absurd hq (h.not_copying hlock hqp)

theorem Fifo.leave {s : State Pid} (h : Fifo s) {p : Pid} (r : Int) (hlock : s.lock = some p)
    (hact : (s.procs p).act.written = []) : Fifo (leave p r s) :=
  h.returned hlock rfl rfl rfl (sentBy_setAct s p (.ret r) hact.symm)
    (setAct_act_self s p _) fun _ hq => setAct_act_ne s _ hq

theorem Fifo.leaveWrite {s : State Pid} (h : Fifo s) {p : Pid} {addr : Nat → UInt8} {n : Int}
    {i : Nat} (r : Int) (hlock : s.lock = some p) (hact : (s.procs p).act = .write addr n i) :
    Fifo (leaveWrite p addr i r s) :=
  h.returned hlock rfl rfl rfl (sentBy_leaveWrite hact r)
    (setAct_act_self s p _) fun _ hq => setAct_act_ne s _ hq

/-- Storing a byte adds it at the end of what was stored, and at the end of what
the writer sent. -/
theorem Fifo.store {s : State Pid} (h : Fifo s) {p : Pid} {addr : Nat → UInt8} {n : Int}
    {i : Nat} (hlock : s.lock = some p) (hact : (s.procs p).act = .write addr n i)
    (hfull : s.pipe.full = false) :
    Fifo { s.setAct p (.write addr n (i + 1)) with
      pipe := s.pipe.put (addr i)
      stored := s.stored ++ [(p, addr i)] } where
  ring := by
    have hb : ((s.stored ++ [(p, addr i)]).map Prod.snd) = s.bytes ++ [addr i] := by
      rw [List.map_append]; rfl
    show (s.pipe.put (addr i)).Holds ((s.stored ++ [(p, addr i)]).map Prod.snd) s.delivered.length
    rw [hb]
    exact h.ring.put hfull (addr i)
  order := by
    show s.delivered = ((s.stored ++ [(p, addr i)]).map Prod.snd).take s.delivered.length
    have hle : s.delivered.length ≤ (s.stored.map Prod.snd).length := Ring.Holds.taken h.ring
    rw [List.map_append, List.take_append_of_le_length hle]
    exact h.order
  own := by
    intro w
    have hw := h.own w
    by_cases hwp : w = p
    · subst hwp
      simp only [State.bytesOf, State.sentBy, Act.written, hact] at hw
      simp [State.bytesOf, State.sentBy, Act.written, State.setAct, List.filter_append,
        List.range_succ, hw]
    · have hpw : ¬ p = w := fun he => hwp he.symm
      simp only [State.bytesOf, State.sentBy] at hw
      simp [State.bytesOf, State.sentBy, State.setAct, List.filter_append, hwp, hpw, hw]
  eof := by
    intro q m hq
    by_cases hqp : q = p
    · subst hqp
      rw [setAct_act_self] at hq
      cases hq
    · rw [setAct_act_ne s _ hqp] at hq
      exact absurd hq (h.not_copying hlock hqp)
  copier := by
    intro q m buf hq
    by_cases hqp : q = p
    · subst hqp
      exact hlock
    · rw [setAct_act_ne s _ hqp] at hq
      exact absurd hq (h.not_copying hlock hqp)

/-- Delivering a byte delivers the oldest one in the ring. -/
theorem Fifo.deliver {s : State Pid} (h : Fifo s) {p : Pid} {n : Int} {buf : List UInt8}
    (hlock : s.lock = some p) (hact : (s.procs p).act = .read n true buf)
    (hempty : s.pipe.empty = false) :
    Fifo { s.setAct p (.read n true (buf ++ [s.pipe.front])) with
      pipe := s.pipe.drop
      delivered := s.delivered ++ [s.pipe.front] } where
  ring := by
    show s.pipe.drop.Holds s.bytes (s.delivered ++ [s.pipe.front]).length
    rw [List.length_append, List.length_singleton]
    exact h.ring.drop (h.ring.lt_of_nonempty hempty)
  order := by
    have hlt := h.ring.lt_of_nonempty hempty
    show s.delivered ++ [s.pipe.front] = s.bytes.take (s.delivered ++ [s.pipe.front]).length
    rw [List.length_append, List.length_singleton, List.take_succ_eq_append_getElem hlt,
      ← h.order, h.ring.front hlt]
  own := by
    intro w
    have ha : (Act.read n true (buf ++ [s.pipe.front])).written = (s.procs p).act.written := by
      rw [hact]; rfl
    exact (h.own w).trans (sentBy_setAct s p _ ha w).symm
  eof := by
    intro q m hq
    by_cases hqp : q = p
    · subst hqp
      rw [setAct_act_self] at hq
      simp at hq
    · rw [setAct_act_ne s _ hqp] at hq
      exact absurd hq (h.not_copying hlock hqp)
  copier := by
    intro q m buf' hq
    by_cases hqp : q = p
    · subst hqp
      exact hlock
    · rw [setAct_act_ne s _ hqp] at hq
      exact absurd hq (h.not_copying hlock hqp)

/-- Leaving the first loop of `piperead`. -/
theorem Fifo.beginCopy {s : State Pid} (h : Fifo s) {p : Pid} {n : Int}
    (hlock : s.lock = some p) (hact : (s.procs p).act.written = [])
    (hready : ¬ (s.pipe.empty ∧ s.pipe.writeopen)) : Fifo (s.setAct p (.read n true [])) where
  ring := h.ring
  order := h.order
  own := fun w => (h.own w).trans (sentBy_setAct s p (.read n true []) hact.symm w).symm
  eof := by
    intro q m _ he
    rw [setAct_pipe] at he ⊢
    cases hw : s.pipe.writeopen with
    | false => rfl
    | true => exact absurd ⟨he, hw⟩ hready
  copier := by
    intro q m buf hq
    by_cases hqp : q = p
    · subst hqp
      exact hlock
    · rw [setAct_act_ne s _ hqp] at hq
      exact absurd hq (h.not_copying hlock hqp)

theorem pipewrite_fifo {s : State Pid} (h : Fifo s) {p : Pid} {addr : Nat → UInt8} {n : Int}
    {i : Nat} (hlock : s.lock = some p) (hact : (s.procs p).act = .write addr n i) :
    Fifo (pipewrite p addr n i s) := by
  unfold pipewrite
  by_cases hn : (i : Int) < n
  · rw [if_pos hn]
    by_cases hf : s.pipe.full = true
    · rw [if_pos hf]
      by_cases hk : s.pipe.readopen = false ∨ (s.procs p).killed = true
      · rw [if_pos hk]
        exact h.leaveWrite (-1) hlock hact
      · rw [if_neg hk]
        refine (h.wakeup .nread).sleep .nwrite hlock fun m buf hb => ?_
        rw [wakeup_act, hact] at hb
        cases hb
    · rw [if_neg hf]
      exact h.store hlock hact (Bool.eq_false_iff.mpr hf)
  · rw [if_neg hn]
    exact (h.wakeup .nread).leaveWrite n hlock ((wakeup_act .nread s p).trans hact)

theorem piperead_fifo {s : State Pid} (h : Fifo s) {p : Pid} {n : Int} {copying : Bool}
    {buf : List UInt8} (hlock : s.lock = some p)
    (hact : (s.procs p).act = .read n copying buf) : Fifo (piperead p n copying buf s) := by
  have hwritten : (s.procs p).act.written = [] := by rw [hact]; rfl
  unfold piperead
  cases copying with
  | true =>
      rw [if_pos rfl]
      by_cases hmore : (buf.length : Int) < n ∧ s.pipe.empty = false
      · rw [if_pos hmore]
        exact h.deliver hlock hact hmore.2
      · rw [if_neg hmore]
        refine (h.wakeup .nwrite).leave _ hlock ?_
        rw [wakeup_act]
        exact hwritten
  | false =>
      rw [if_neg (by decide)]
      by_cases hwait : s.pipe.empty = true ∧ s.pipe.writeopen = true
      · rw [if_pos hwait]
        by_cases hk : (s.procs p).killed = true
        · rw [if_pos hk]
          exact h.leave (-1) hlock hwritten
        · rw [if_neg hk]
          refine h.sleep .nread hlock fun m buf' hb => ?_
          rw [hact] at hb
          cases hb
      · rw [if_neg hwait]
        exact h.beginCopy hlock hwritten hwait

/-- Closing an end changes no byte and no counter, and nobody copies meanwhile. -/
theorem Fifo.closeEnd {s : State Pid} (h : Fifo s) {p : Pid} (writable : Bool)
    (hlock : s.lock = some p) (hact : (s.procs p).act = .close writable) :
    Fifo (closeEnd writable s) := by
  have hnone : ∀ q n buf, (s.procs q).act ≠ .read n true buf := by
    intro q n buf hq
    by_cases hqp : q = p
    · subst hqp
      rw [hact] at hq
      cases hq
    · exact h.not_copying hlock hqp hq
  unfold Pipes.closeEnd
  cases writable with
  | true =>
      rw [if_pos rfl]
      have hc : Fifo { s with pipe := { s.pipe with writeopen := false } } :=
        h.frame rfl rfl rfl rfl rfl (fun _ => rfl) fun q n buf hq => absurd hq (hnone q n buf)
      exact hc.wakeup .nread
  | false =>
      rw [if_neg (by decide)]
      have hc : Fifo { s with pipe := { s.pipe with readopen := false } } :=
        h.frame rfl rfl rfl rfl rfl (fun _ => rfl) fun q n buf hq => absurd hq (hnone q n buf)
      exact hc.wakeup .nwrite

omit [DecidableEq Pid] in
@[simp] theorem closeEnd_lock (writable : Bool) (s : State Pid) :
    (closeEnd writable s).lock = s.lock := by
  cases writable <;> rfl

omit [DecidableEq Pid] in
@[simp] theorem closeEnd_act (writable : Bool) (s : State Pid) (q : Pid) :
    ((closeEnd writable s).procs q).act = (s.procs q).act := by
  cases writable with
  | true => exact wakeup_act .nread _ q
  | false => exact wakeup_act .nwrite _ q

theorem pipeclose_fifo {s : State Pid} (h : Fifo s) {p : Pid} {writable : Bool}
    (hlock : s.lock = some p) (hact : (s.procs p).act = .close writable) :
    Fifo (pipeclose p writable s) := by
  have hl : Fifo (Pipes.leave p 0 (Pipes.closeEnd writable s)) := by
    refine (h.closeEnd writable hlock hact).leave 0 ((closeEnd_lock writable s).trans hlock) ?_
    rw [closeEnd_act, hact]
    rfl
  unfold pipeclose
  dsimp only
  split
  · exact hl.frame rfl rfl rfl rfl rfl (fun _ => rfl) fun q n buf hq => ⟨hq, rfl, rfl⟩
  · exact hl

/-- Every step keeps the invariant. -/
theorem step_fifo (s : State Pid) (l : Label Pid) (t : State Pid) (h : Fifo s)
    (hs : step l s = some t) : Fifo t := by
  cases l with
  | call p c =>
      simp only [step] at hs
      split at hs
      · cases hs
      next hidle =>
        cases hs
        have hwritten : c.start.written = (s.procs p).act.written := by
          rw [Call.written_start, Act.written_of_not_inCall hidle]
        refine h.frame rfl rfl rfl rfl rfl (sentBy_setAct s p _ hwritten) fun q n buf hq => ?_
        by_cases hqp : q = p
        · subst hqp
          rw [setAct_act_self] at hq
          cases c <;> cases hq
        · rw [setAct_act_ne s _ hqp] at hq
          exact ⟨hq, rfl, rfl⟩
  | acquire p =>
      simp only [step] at hs
      split at hs
      next hfree =>
        cases hs
        refine h.frame rfl rfl rfl rfl rfl (fun _ => rfl) fun q n buf hq => ?_
        have hq' := h.copier q n buf hq
        rw [hfree.2.1] at hq'
        cases hq'
      · cases hs
  | run p =>
      obtain ⟨hlock, ⟨addr, n, i, hact, rfl⟩ | ⟨n, copying, buf, hact, rfl⟩ |
        ⟨writable, hact, rfl⟩⟩ := step_run_cases hs
      · exact pipewrite_fifo h hlock hact
      · exact piperead_fifo h hlock hact
      · exact pipeclose_fifo h hlock hact
  | kill p =>
      cases hs
      have hacts := kill_act s p
      refine h.frame rfl rfl rfl rfl rfl (fun w => ?_) fun q n buf hq => ?_
      · rw [State.sentBy, State.sentBy, hacts]
      · exact ⟨(hacts q).symm.trans hq, rfl, rfl⟩

/-- A `piperead` of a positive count returns 0 only with the ring empty and the
write end closed. -/
theorem piperead_zero {s : State Pid} (h : Fifo s) {p : Pid} {n : Int} {copying : Bool}
    {buf : List UInt8} (hact : (s.procs p).act = .read n copying buf) (hn : 0 < n)
    (hret : ((piperead p n copying buf s).procs p).act = .ret 0) :
    s.pipe.empty = true ∧ s.pipe.writeopen = false := by
  unfold piperead at hret
  cases copying with
  | true =>
      rw [if_pos rfl] at hret
      split at hret
      · rw [setAct_act_self] at hret
        cases hret
      next hdone =>
        rw [leave, setAct_act_self, Act.ret.injEq, Int.natCast_eq_zero,
          List.length_eq_zero_iff] at hret
        subst hret
        have he : s.pipe.empty = true := by
          by_contra hne
          exact hdone ⟨hn, Bool.eq_false_iff.mpr hne⟩
        exact ⟨he, h.eof p n hact he⟩
  | false =>
      rw [if_neg (by decide)] at hret
      split at hret
      · split at hret
        · rw [leave, setAct_act_self] at hret
          cases hret
        · simp [Pipes.sleep, hact] at hret
      · rw [setAct_act_self] at hret
        cases hret

/-! ## What the readers get -/

/-- The bytes that a `piperead` leaves in the buffer of its caller, at the step in
which it returns. -/
def received (s : State Pid) (l : Label Pid) : List UInt8 :=
  match l, step l s with
  | .run p, some t =>
      match (t.procs p).act with
      | .ret _ => (s.procs p).act.taken
      | _ => []
  | _, _ => []

theorem received_run {s t : State Pid} {p : Pid} (hs : step (.run p) s = some t) :
    received s (.run p) = match (t.procs p).act with
      | .ret _ => (s.procs p).act.taken
      | _ => [] := by
  simp only [received, hs]

/-- A call that has copied nothing leaves nothing. -/
theorem received_nil {s : State Pid} {p : Pid} (h : (s.procs p).act.taken = []) :
    received s (.run p) = [] := by
  cases hs : step (.run p) s with
  | none => simp only [received, hs]
  | some t =>
      rw [received_run hs]
      split
      · exact h
      · rfl

/-- `pipewrite` delivers nothing. -/
theorem pipewrite_copied {s : State Pid} {p : Pid} (hlock : s.lock = some p)
    (addr : Nat → UInt8) (n : Int) (i : Nat) : (pipewrite p addr n i s).delivered = s.delivered ∧
      (pipewrite p addr n i s).copied = [] := by
  unfold pipewrite
  split
  · split
    · split
      · exact ⟨rfl, copied_of_free rfl⟩
      · exact ⟨rfl, copied_of_free rfl⟩
    · refine ⟨rfl, ?_⟩
      simp only [State.copied, setAct_lock, hlock, setAct_act_self, Act.taken]
  · exact ⟨rfl, copied_of_free rfl⟩

/-- `pipeclose` delivers nothing. -/
theorem pipeclose_copied (s : State Pid) (p : Pid) (writable : Bool) :
    (pipeclose p writable s).delivered = s.delivered ∧ (pipeclose p writable s).copied = [] := by
  have hdel : (closeEnd writable s).delivered = s.delivered := by cases writable <;> rfl
  unfold pipeclose
  dsimp only
  split
  · exact ⟨hdel, copied_of_free rfl⟩
  · exact ⟨hdel, copied_of_free rfl⟩

/-- The bytes that a step of `piperead` delivers are in the buffer of its caller, or
go on being copied. -/
theorem piperead_copied {s : State Pid} {p : Pid} {n : Int} {copying : Bool} {buf : List UInt8}
    (hlock : s.lock = some p) (hact : (s.procs p).act = .read n copying buf)
    (hs : step (.run p) s = some (piperead p n copying buf s)) :
    ∃ d, (piperead p n copying buf s).delivered = s.delivered ++ d ∧
      s.copied ++ d = received s (.run p) ++ (piperead p n copying buf s).copied := by
  rw [copied_of_lock hlock, received_run hs, hact]
  unfold piperead
  cases copying with
  | true =>
      rw [if_pos rfl]
      split
      · refine ⟨[s.pipe.front], rfl, ?_⟩
        simp only [State.copied, setAct_lock, hlock, setAct_act_self, Act.taken, List.nil_append]
      · refine ⟨[], (List.append_nil _).symm, ?_⟩
        simp only [State.copied, leave, setAct_act_self]
  | false =>
      rw [if_neg (by decide)]
      refine ⟨[], ?_⟩
      split
      · split
        · simp [State.copied, leave, Act.taken]
        · simp [State.copied, Pipes.sleep, hact, Act.taken]
      · simp [State.copied, hlock, Act.taken]

/-- A step that delivers nothing, in a call that has copied nothing. -/
theorem step_copied_of_nil {s t : State Pid} {l : Label Pid} (hdel : t.delivered = s.delivered)
    (hrec : received s l = []) (hcop : t.copied = s.copied) :
    ∃ d, t.delivered = s.delivered ++ d ∧ s.copied ++ d = received s l ++ t.copied :=
  ⟨[], by rw [hdel, List.append_nil], by rw [hrec, hcop, List.append_nil, List.nil_append]⟩

/-- Every byte that a step delivers is in the buffer of a reader. -/
theorem Fifo.step_copied {s t : State Pid} {l : Label Pid} (h : Fifo s)
    (hs : step l s = some t) :
    ∃ d, t.delivered = s.delivered ++ d ∧ s.copied ++ d = received s l ++ t.copied := by
  cases l with
  | call p c =>
      simp only [step] at hs
      split at hs
      · cases hs
      next hidle =>
        cases hs
        refine step_copied_of_nil rfl rfl (copied_congr rfl fun q => ?_)
        by_cases hq : q = p
        · subst hq
          rw [setAct_act_self, Call.taken_start, Act.taken_of_not_inCall hidle]
        · rw [setAct_act_ne s _ hq]
  | acquire p =>
      simp only [step] at hs
      split at hs
      next hfree =>
        cases hs
        refine step_copied_of_nil rfl rfl ?_
        rw [copied_of_free hfree.2.1, copied_of_lock rfl]
        exact h.taken_of_free hfree.2.1 p
      · cases hs
  | run p =>
      obtain ⟨hlock, ⟨addr, n, i, hact, rfl⟩ | ⟨n, copying, buf, hact, rfl⟩ |
        ⟨writable, hact, rfl⟩⟩ := step_run_cases hs
      · have htaken : (s.procs p).act.taken = [] := by rw [hact]; rfl
        obtain ⟨hdel, hcop⟩ := pipewrite_copied hlock addr n i
        exact step_copied_of_nil hdel (received_nil htaken)
          (by rw [hcop, copied_of_lock hlock, htaken])
      · exact piperead_copied hlock hact hs
      · have htaken : (s.procs p).act.taken = [] := by rw [hact]; rfl
        obtain ⟨hdel, hcop⟩ := pipeclose_copied s p writable
        exact step_copied_of_nil hdel (received_nil htaken)
          (by rw [hcop, copied_of_lock hlock, htaken])
  | kill p =>
      cases hs
      exact step_copied_of_nil rfl rfl (copied_congr rfl fun q => by rw [kill_act])

/-- Along a run the bytes delivered are the ones that the calls of `piperead` leave
with their callers, call after call, and those that are being copied. -/
theorem Fifo.run_copied {s u : State Pid} {tr : List (State Pid × Label Pid)} (h : Fifo s)
    (hr : Runs.Run step s tr u) :
    ∃ d, u.delivered = s.delivered ++ d ∧
      s.copied ++ d = (tr.flatMap fun x => received x.1 x.2) ++ u.copied := by
  induction hr with
  | nil s => exact ⟨[], (List.append_nil _).symm, List.append_nil _⟩
  | @cons s t u l tr hs _ ih =>
      obtain ⟨d, hdel, hcop⟩ := h.step_copied hs
      obtain ⟨d', hdel', hcop'⟩ := ih (step_fifo s l t h hs)
      refine ⟨d ++ d', by rw [hdel', hdel, List.append_assoc], ?_⟩
      rw [← List.append_assoc, hcop, List.append_assoc, hcop', List.flatMap_cons,
        List.append_assoc]

/-- A `piperead` returns the number of bytes that it leaves with its caller, or -1 and
leaves none. -/
theorem piperead_count {s : State Pid} {p : Pid} {n r : Int} {copying : Bool}
    {buf : List UInt8} (hact : (s.procs p).act = .read n copying buf)
    (hs : step (.run p) s = some (piperead p n copying buf s))
    (hret : ((piperead p n copying buf s).procs p).act = .ret r) :
    r = (received s (.run p)).length ∨ r = -1 ∧ received s (.run p) = [] := by
  have hrec : received s (.run p) = (s.procs p).act.taken := by rw [received_run hs, hret]
  rw [hrec, hact]
  unfold piperead at hret
  cases copying with
  | true =>
      rw [if_pos rfl] at hret
      split at hret
      · rw [setAct_act_self] at hret
        cases hret
      · rw [leave, setAct_act_self] at hret
        cases hret
        exact .inl rfl
  | false =>
      rw [if_neg (by decide)] at hret
      split at hret
      · split at hret
        · rw [leave, setAct_act_self] at hret
          cases hret
          exact .inr ⟨rfl, rfl⟩
        · simp [Pipes.sleep, hact] at hret
      · rw [setAct_act_self] at hret
        cases hret

/-! ## Every run -/

/-- A pipe is a queue, in every state of every run: the counters are at most
`PIPESIZE` apart, the bytes delivered are the first ones stored, the bytes of
each writer are stored in its own order, and the ring holds the bytes between.
The bytes delivered are the ones in the buffers of the callers of `piperead`, call
after call, and each call returns how many it left there.  A `piperead` of a positive
count returns 0 only with the write end closed and everything delivered. -/
theorem pipe_queue {s₀ s : State Pid} {tr : List (State Pid × Label Pid)} (h₀ : Initial s₀)
    (hr : Runs.Run step s₀ tr s) :
    (s.pipe.nwrite - s.pipe.nread).toNat ≤ PIPESIZE ∧
    s.delivered <+: s.bytes ∧
    (∀ w, s.bytesOf w = s.sentBy w) ∧
    s.bytes = s.delivered ++ s.pipe.contents ∧
    s.delivered = (tr.flatMap fun x => received x.1 x.2) ++ s.copied ∧
    ∀ p n copying buf t, (s.procs p).act = .read n copying buf → step (.run p) s = some t →
      (∀ r, (t.procs p).act = .ret r →
        r = (received s (.run p)).length ∨ r = -1 ∧ received s (.run p) = []) ∧
      (0 < n → (t.procs p).act = .ret 0 → s.pipe.writeopen = false ∧ s.delivered = s.bytes) := by
  have h : Fifo s := hr.invariant_last step_fifo h₀.fifo
  have htaken : s.delivered.length ≤ s.bytes.length := Ring.Holds.taken h.ring
  have hroom : s.bytes.length ≤ s.delivered.length + PIPESIZE := Ring.Holds.room h.ring
  refine ⟨?_, ?_, h.own, ?_, ?_, ?_⟩
  · rw [h.ring.length_sub]
    omega
  · rw [h.order]
    exact List.take_prefix _ _
  · calc s.bytes = s.bytes.take s.delivered.length ++ s.bytes.drop s.delivered.length :=
          (List.take_append_drop _ _).symm
      _ = s.delivered ++ s.pipe.contents := by rw [← h.order, h.ring.contents]
  · obtain ⟨d, hdel, hcop⟩ := h₀.fifo.run_copied hr
    rw [copied_of_free h₀.lock, List.nil_append] at hcop
    rw [hdel, h₀.delivered, List.nil_append, hcop]
  · intro p n copying buf t hact hs
    have ht : t = piperead p n copying buf s := by
      have hrun := hs
      simp only [step, runHolder, hact] at hrun
      split at hrun
      · exact (Option.some.inj hrun).symm
      · cases hrun
    subst ht
    refine ⟨fun r hret => piperead_count hact hs hret, fun hn hret => ?_⟩
    obtain ⟨he, hwo⟩ := piperead_zero h hact hn hret
    refine ⟨hwo, ?_⟩
    rw [h.order, h.ring.empty_iff.mp he, List.take_length]

/-- One process writes two bytes and the other reads one. -/
def writeThenRead : List (Label Bool) :=
  [.call true (.pipewrite (fun k => 7 + UInt8.ofNat k) 2), .acquire true, .run true, .run true,
    .run true, .call false (.piperead 1), .acquire false, .run false, .run false, .run false]

theorem pipe_queue_writeThenRead :
    ∃ tr s, Runs.Run step freshPipe tr s ∧ tr.map Prod.snd = writeThenRead ∧
      s.bytes = s.delivered ++ s.pipe.contents ∧
      s.delivered = (tr.flatMap fun x => received x.1 x.2) ++ s.copied := by
  obtain ⟨s, hs⟩ : ∃ s, Runs.exec step writeThenRead freshPipe = some s :=
    Option.isSome_iff_exists.mp (by decide)
  obtain ⟨tr, hr, hl⟩ := Runs.run_of_exec hs
  have h := pipe_queue freshPipe_initial hr
  exact ⟨tr, s, hr, hl, h.2.2.2.1, h.2.2.2.2.1⟩

example : (Runs.exec step writeThenRead freshPipe).map (fun s => (s.delivered, s.pipe.contents)) =
    some ([7], [8]) := by decide

end Xv6Arm.Pipes
