import Xv6Arm.Pipe.Model

/-!
# Sleepers on a pipe

When nobody is in a critical section, a reader should be asleep only on an empty
pipe with its write end open, and a writer only on a full pipe with its read end
open (`Settled`).  Every exit of the two loops issues the wakeup this needs,
with one exception.  A `pipewrite` that finds the ring full and its read end
closed, or its process killed, returns without waking the readers, although it
may have filled the ring itself.  A reader that was asleep then stays asleep on
a full pipe.

`Sleepers` is the invariant.  It lets the holder of the lock be in the middle of
a transfer.  `settled_iff` is the exact condition: the sleepers are right in
every state of a run exactly when no step of the run is such a return with a
reader asleep (`Woken`).
-/

namespace Xv6Arm.Pipes

variable {Pid : Type}

/-- A process is asleep on a channel. -/
def State.Asleep (s : State Pid) (q : Pid) (c : Chan) : Prop := (s.procs q).chan = some c

/-- When no process is in a critical section, the sleepers wait for something
that has not happened. -/
def Settled (s : State Pid) : Prop :=
  s.lock = none →
    (∀ q, s.Asleep q .nread → s.pipe.empty = true ∧ s.pipe.writeopen = true) ∧
    (∀ q, s.Asleep q .nwrite → s.pipe.full = true ∧ s.pipe.readopen = true)

/-- The holder of the lock is in `pipewrite`. -/
def State.Writing (s : State Pid) : Prop :=
  ∃ p addr n i, s.lock = some p ∧ (s.procs p).act = .write addr n i

/-- The holder of the lock copies bytes in `piperead`. -/
def State.Copying (s : State Pid) : Prop :=
  ∃ p n buf, s.lock = some p ∧ (s.procs p).act = .read n true buf

/-- The invariant: a sleeper waits for something that has not happened, or the
holder of the lock is about to wake it. -/
structure Sleepers (s : State Pid) : Prop where
  readers : ∀ q, s.Asleep q .nread →
    s.pipe.writeopen = true ∧ (s.pipe.empty = true ∨ s.Writing)
  writers : ∀ q, s.Asleep q .nwrite →
    s.pipe.readopen = true ∧ (s.pipe.full = true ∨ s.Copying)
  /-- The holder of the lock is in a call. -/
  holder : ∀ p, s.lock = some p → (s.procs p).act.inCall = true

/-- A step leaves no reader asleep that it should have woken: it is not the
return of a `pipewrite` from a full ring, for a closed read end or a kill, while
a reader is asleep. -/
def Woken (s : State Pid) : Label Pid → Prop
  | .run p => ∀ addr n i, s.lock = some p → (s.procs p).act = .write addr n i → (i : Int) < n →
      s.pipe.full = true → (s.pipe.readopen = false ∨ (s.procs p).killed = true) →
      ∀ q, ¬ s.Asleep q .nread
  | _ => True

theorem Pipe.not_full_of_empty {p : Pipe} (h : p.empty = true) : p.full = false := by
  rw [Pipe.empty, beq_iff_eq] at h
  rw [Pipe.full, h, beq_eq_false_iff_ne, Ne, ← UInt32.toNat_inj, UInt32.toNat_add]
  have := p.nwrite.toNat_lt
  have hsize : (UInt32.ofNat PIPESIZE).toNat = 512 := rfl
  omega

/-! ## The invariant and the property -/

theorem Sleepers.settled {s : State Pid} (h : Sleepers s) : Settled s := by
  intro hlock
  constructor
  · intro q hq
    obtain ⟨hwo, he | ⟨p, addr, n, i, hp, -⟩⟩ := h.readers q hq
    · exact ⟨he, hwo⟩
    · rw [hlock] at hp
      cases hp
  · intro q hq
    obtain ⟨hro, hf | ⟨p, n, buf, hp, -⟩⟩ := h.writers q hq
    · exact ⟨hf, hro⟩
    · rw [hlock] at hp
      cases hp

/-- A state in which nobody holds the lock is settled or not. -/
theorem Sleepers.of_settled {s : State Pid} (hlock : s.lock = none)
    (hr : ∀ q, s.Asleep q .nread → s.pipe.empty = true ∧ s.pipe.writeopen = true)
    (hw : ∀ q, s.Asleep q .nwrite → s.pipe.full = true ∧ s.pipe.readopen = true) : Sleepers s where
  readers := fun q hq => ⟨(hr q hq).2, Or.inl (hr q hq).1⟩
  writers := fun q hq => ⟨(hw q hq).2, Or.inl (hw q hq).1⟩
  holder := by
    intro p hp
    rw [hlock] at hp
    cases hp

/-- While the holder of the lock does not write, the sleeping readers are right. -/
theorem Sleepers.readers_empty {s : State Pid} (h : Sleepers s) {p : Pid}
    (hlock : s.lock = some p) (hact : ∀ addr n i, (s.procs p).act ≠ .write addr n i) (q : Pid)
    (hq : s.Asleep q .nread) : s.pipe.empty = true ∧ s.pipe.writeopen = true := by
  obtain ⟨hwo, he | ⟨p', addr, n, i, hp, ha⟩⟩ := h.readers q hq
  · exact ⟨he, hwo⟩
  · rw [hlock] at hp
    cases hp
    exact absurd ha (hact addr n i)

/-- While the holder of the lock does not copy, the sleeping writers are right. -/
theorem Sleepers.writers_full {s : State Pid} (h : Sleepers s) {p : Pid}
    (hlock : s.lock = some p) (hact : ∀ n buf, (s.procs p).act ≠ .read n true buf) (q : Pid)
    (hq : s.Asleep q .nwrite) : s.pipe.full = true ∧ s.pipe.readopen = true := by
  obtain ⟨hro, hf | ⟨p', n, buf, hp, ha⟩⟩ := h.writers q hq
  · exact ⟨hf, hro⟩
  · rw [hlock] at hp
    cases hp
    exact absurd ha (hact n buf)

theorem Initial.sleepers {s : State Pid} (h : Initial s) : Sleepers s :=
  .of_settled h.lock (fun q hq => by rw [State.Asleep, h.awake] at hq; cases hq)
    (fun q hq => by rw [State.Asleep, h.awake] at hq; cases hq)

theorem asleep_wakeup {s : State Pid} {q : Pid} {c d : Chan} :
    (wakeup c s).Asleep q d ↔ d ≠ c ∧ s.Asleep q d := wakeup_chan c d s q

variable [DecidableEq Pid]

theorem asleep_leave {s : State Pid} {p q : Pid} {r : Int} {c : Chan} :
    (leave p r s).Asleep q c ↔ s.Asleep q c := by
  rw [State.Asleep, State.Asleep, leave, setAct_chan]

theorem asleep_leaveWrite {s : State Pid} {p q : Pid} {addr : Nat → UInt8} {i : Nat} {r : Int}
    {c : Chan} : (leaveWrite p addr i r s).Asleep q c ↔ s.Asleep q c := asleep_leave

/-- Who sleeps after `sleep`: the process itself on its channel, and who slept
before. -/
theorem asleep_sleep {s : State Pid} {p q : Pid} {c d : Chan} (h : (sleep p c s).Asleep q d) :
    d = c ∨ s.Asleep q d := by
  by_cases hq : q = p
  · subst hq
    simp only [State.Asleep, sleep, Function.update_self, Option.some.injEq] at h
    exact Or.inl h.symm
  · simp only [State.Asleep, sleep, Function.update_of_ne hq] at h
    exact Or.inr h

/-! ## One step -/

theorem pipewrite_sleepers {s : State Pid} (h : Sleepers s) {p : Pid} {addr : Nat → UInt8}
    {n : Int} {i : Nat} (hlock : s.lock = some p) (hact : (s.procs p).act = .write addr n i)
    (hok : Woken s (.run p)) : Sleepers (pipewrite p addr n i s) := by
  have hfull := h.writers_full hlock (fun m buf hb => by rw [hact] at hb; cases hb)
  unfold pipewrite
  by_cases hn : (i : Int) < n
  · rw [if_pos hn]
    by_cases hf : s.pipe.full = true
    · rw [if_pos hf]
      by_cases hk : s.pipe.readopen = false ∨ (s.procs p).killed = true
      · rw [if_pos hk]
        refine .of_settled rfl (fun q hq => ?_) (fun q hq => ?_)
        · exact absurd (asleep_leaveWrite.mp hq) (hok addr n i hlock hact hn hf hk q)
        · exact hfull q (asleep_leaveWrite.mp hq)
      · rw [if_neg hk]
        have hro : s.pipe.readopen = true := by
          rw [← Bool.not_eq_false]
          exact fun hc => hk (Or.inl hc)
        refine .of_settled rfl (fun q hq => ?_) (fun _ _ => ⟨hf, hro⟩)
        cases asleep_sleep hq with
        | inl hc => cases hc
        | inr hs => exact absurd rfl (asleep_wakeup.mp hs).1
    · rw [if_neg hf]
      refine ⟨fun q hq => ?_, fun q hq => ?_, fun q hq => ?_⟩
      · have hs : s.Asleep q .nread := by
          rw [State.Asleep, setAct_chan] at hq
          exact hq
        refine ⟨(h.readers q hs).1, Or.inr ⟨p, addr, n, i + 1, hlock, ?_⟩⟩
        exact setAct_act_self s p _
      · have hs : s.Asleep q .nwrite := by
          rw [State.Asleep, setAct_chan] at hq
          exact hq
        exact absurd (hfull q hs).1 hf
      · have hqp : p = q := Option.some.inj (hlock.symm.trans hq)
        subst hqp
        rw [setAct_act_self]
        rfl
  · rw [if_neg hn]
    refine .of_settled rfl (fun q hq => ?_) (fun q hq => ?_)
    · exact absurd rfl (asleep_wakeup.mp (asleep_leaveWrite.mp hq)).1
    · exact hfull q (asleep_wakeup.mp (asleep_leaveWrite.mp hq)).2

theorem piperead_sleepers {s : State Pid} (h : Sleepers s) {p : Pid} {n : Int} {copying : Bool}
    {buf : List UInt8} (hlock : s.lock = some p)
    (hact : (s.procs p).act = .read n copying buf) : Sleepers (piperead p n copying buf s) := by
  have hempty := h.readers_empty hlock (fun addr m i hb => by rw [hact] at hb; cases hb)
  unfold piperead
  cases copying with
  | true =>
      rw [if_pos rfl]
      by_cases hmore : (buf.length : Int) < n ∧ s.pipe.empty = false
      · rw [if_pos hmore]
        refine ⟨fun q hq => ?_, fun q hq => ?_, fun q hq => ?_⟩
        · have hs : s.Asleep q .nread := by
            rw [State.Asleep, setAct_chan] at hq
            exact hq
          rw [(hempty q hs).1] at hmore
          cases hmore.2
        · have hs : s.Asleep q .nwrite := by
            rw [State.Asleep, setAct_chan] at hq
            exact hq
          refine ⟨(h.writers q hs).1, Or.inr ⟨p, n, buf ++ [s.pipe.front], hlock, ?_⟩⟩
          exact setAct_act_self s p _
        · have hqp : p = q := Option.some.inj (hlock.symm.trans hq)
          subst hqp
          rw [setAct_act_self]
          rfl
      · rw [if_neg hmore]
        refine .of_settled rfl (fun q hq => ?_) (fun q hq => ?_)
        · exact hempty q (asleep_wakeup.mp (asleep_leave.mp hq)).2
        · exact absurd rfl (asleep_wakeup.mp (asleep_leave.mp hq)).1
  | false =>
      have hfull := h.writers_full hlock (fun m buf hb => by rw [hact] at hb; cases hb)
      rw [if_neg (by decide)]
      by_cases hwait : s.pipe.empty = true ∧ s.pipe.writeopen = true
      · rw [if_pos hwait]
        by_cases hk : (s.procs p).killed = true
        · rw [if_pos hk]
          exact .of_settled rfl (fun q hq => hempty q (asleep_leave.mp hq))
            (fun q hq => hfull q (asleep_leave.mp hq))
        · rw [if_neg hk]
          refine .of_settled rfl (fun _ _ => hwait) (fun q hq => ?_)
          cases asleep_sleep hq with
          | inl hc => cases hc
          | inr hs => exact hfull q hs
      · rw [if_neg hwait]
        refine ⟨fun q hq => ?_, fun q hq => ?_, fun q hq => ?_⟩
        · rw [State.Asleep, setAct_chan] at hq
          exact ⟨(hempty q hq).2, Or.inl (hempty q hq).1⟩
        · rw [State.Asleep, setAct_chan] at hq
          exact ⟨(hfull q hq).2, Or.inl (hfull q hq).1⟩
        · have hqp : p = q := Option.some.inj (hlock.symm.trans hq)
          subst hqp
          rw [setAct_act_self]
          rfl

theorem pipeclose_sleepers {s : State Pid} (h : Sleepers s) {p : Pid} {writable : Bool}
    (hlock : s.lock = some p) (hact : (s.procs p).act = .close writable) :
    Sleepers (pipeclose p writable s) := by
  have hempty := h.readers_empty hlock (fun addr m i hb => by rw [hact] at hb; cases hb)
  have hfull := h.writers_full hlock (fun m buf hb => by rw [hact] at hb; cases hb)
  have hleft : Sleepers (leave p 0 (closeEnd writable s)) := by
    cases writable with
    | true =>
        refine .of_settled rfl (fun q hq => ?_) (fun q hq => ?_)
        · exact absurd rfl (asleep_wakeup.mp (asleep_leave.mp hq)).1
        · exact hfull q (asleep_wakeup.mp (asleep_leave.mp hq)).2
    | false =>
        refine .of_settled rfl (fun q hq => ?_) (fun q hq => ?_)
        · exact hempty q (asleep_wakeup.mp (asleep_leave.mp hq)).2
        · exact absurd rfl (asleep_wakeup.mp (asleep_leave.mp hq)).1
  unfold pipeclose
  dsimp only
  split
  · exact ⟨hleft.readers, hleft.writers, hleft.holder⟩
  · exact hleft

/-- A `Woken` step keeps the invariant. -/
theorem step_sleepers (s : State Pid) (l : Label Pid) (t : State Pid) (h : Sleepers s)
    (hok : Woken s l) (hs : step l s = some t) : Sleepers t := by
  cases l with
  | call p c =>
      simp only [step] at hs
      split at hs
      · cases hs
      next hidle =>
        cases hs
        -- the caller is outside its calls, so it does not hold the lock
        have hne : ∀ q, s.lock = some q → q ≠ p := by
          intro q hq hqp
          subst hqp
          exact hidle (h.holder q hq)
        refine ⟨fun q hq => ?_, fun q hq => ?_, fun q hq => ?_⟩
        · rw [State.Asleep, setAct_chan] at hq
          obtain ⟨hwo, he | ⟨p', addr, n, i, hp', ha⟩⟩ := h.readers q hq
          · exact ⟨hwo, Or.inl he⟩
          · exact ⟨hwo, Or.inr ⟨p', addr, n, i, hp', by
              rw [setAct_act_ne s _ (hne p' hp')]; exact ha⟩⟩
        · rw [State.Asleep, setAct_chan] at hq
          obtain ⟨hro, hf | ⟨p', n, buf, hp', ha⟩⟩ := h.writers q hq
          · exact ⟨hro, Or.inl hf⟩
          · exact ⟨hro, Or.inr ⟨p', n, buf, hp', by
              rw [setAct_act_ne s _ (hne p' hp')]; exact ha⟩⟩
        · rw [setAct_act_ne s _ (hne q hq)]
          exact h.holder q hq
  | acquire p =>
      simp only [step] at hs
      split at hs
      next hfree =>
        cases hs
        obtain ⟨hr, hw⟩ := h.settled hfree.2.1
        refine ⟨fun q hq => ⟨(hr q hq).2, Or.inl (hr q hq).1⟩,
          fun q hq => ⟨(hw q hq).2, Or.inl (hw q hq).1⟩, fun q hq => ?_⟩
        cases hq
        exact hfree.2.2.1
      · cases hs
  | run p =>
      obtain ⟨hlock, ⟨addr, n, i, hact, rfl⟩ | ⟨n, copying, buf, hact, rfl⟩ |
        ⟨writable, hact, rfl⟩⟩ := step_run_cases hs
      · exact pipewrite_sleepers h hlock hact hok
      · exact piperead_sleepers h hlock hact
      · exact pipeclose_sleepers h hlock hact
  | kill p =>
      cases hs
      have hacts := kill_act s p
      have hsleep : ∀ q c, ((Function.update s.procs p
          { s.procs p with killed := true, chan := none }) q).chan = some c → s.Asleep q c := by
        intro q c hq
        by_cases hqp : q = p
        · subst hqp; simp at hq
        · rw [Function.update_of_ne hqp] at hq
          exact hq
      refine ⟨fun q hq => ?_, fun q hq => ?_, fun q hq => ?_⟩
      · obtain ⟨hwo, he | ⟨p', addr, n, i, hp', ha⟩⟩ := h.readers q (hsleep q _ hq)
        · exact ⟨hwo, Or.inl he⟩
        · exact ⟨hwo, Or.inr ⟨p', addr, n, i, hp', (hacts p').trans ha⟩⟩
      · obtain ⟨hro, hf | ⟨p', n, buf, hp', ha⟩⟩ := h.writers q (hsleep q _ hq)
        · exact ⟨hro, Or.inl hf⟩
        · exact ⟨hro, Or.inr ⟨p', n, buf, hp', (hacts p').trans ha⟩⟩
      · exact (congrArg Act.inCall (hacts q)).trans (h.holder q hq)

/-- A step that is not `Woken` leaves a reader asleep on a full pipe. -/
theorem step_not_settled (s : State Pid) (l : Label Pid) (t : State Pid)
    (hok : ¬ Woken s l) (hs : step l s = some t) : ¬ Settled t := by
  cases l with
  | run p =>
      unfold Woken at hok
      push Not at hok
      obtain ⟨addr, n, i, hlock, hact, hn, hf, hk, q, hq⟩ := hok
      have ht : t = leaveWrite p addr i (-1) s := by
        simp only [step, hlock, if_true, runHolder, hact, pipewrite, if_pos hn, if_pos hf,
          if_pos hk, Option.some.injEq] at hs
        exact hs.symm
      subst ht
      intro hset
      have he : s.pipe.empty = true := ((hset rfl).1 q (asleep_leaveWrite.mpr hq)).1
      rw [Pipe.not_full_of_empty he] at hf
      cases hf
  | call p c => exact absurd trivial hok
  | acquire p => exact absurd trivial hok
  | kill p => exact absurd trivial hok

/-! ## Every run -/

/-- The sleepers are right in every state of a run exactly when no `pipewrite` of
the run returns from a full ring, for a closed read end or a kill, while a reader
is asleep. -/
theorem settled_iff {s₀ s : State Pid} {tr : List (State Pid × Label Pid)} (h₀ : Initial s₀)
    (hr : Runs.Run step s₀ tr s) : Runs.Along Settled tr s ↔ Runs.EveryStep Woken tr :=
  hr.forall_iff (fun _ h => h.settled) step_sleepers
    (fun s l t _ hok hs => step_not_settled s l t hok hs) h₀.sleepers

/-- A reader goes to sleep, and a writer stores one byte and returns. -/
def readerFirst : List (Label Bool) :=
  [.call false (.piperead 1), .acquire false, .run false,
    .call true (.pipewrite (fun _ => 7) 1), .acquire true, .run true, .run true]

theorem settled_iff_readerFirst :
    ∃ tr s, Runs.Run step freshPipe tr s ∧ tr.map Prod.snd = readerFirst ∧
      (Runs.Along Settled tr s ↔ Runs.EveryStep Woken tr) := by
  obtain ⟨s, hs⟩ : ∃ s, Runs.exec step readerFirst freshPipe = some s :=
    Option.isSome_iff_exists.mp (by decide)
  obtain ⟨tr, hr, hl⟩ := Runs.run_of_exec hs
  exact ⟨tr, s, hr, hl, settled_iff freshPipe_initial hr⟩

/-- A reader goes to sleep on the empty pipe.  A killed writer fills the ring and
returns `-1` when it finds it full. -/
def lostWakeup : List (Label Bool) :=
  [.call false (.piperead 1), .acquire false, .run false, .kill true,
    .call true (.pipewrite (fun _ => 7) 513), .acquire true] ++ List.replicate 513 (.run true)

set_option maxRecDepth 100000 in
/-- The reader of `lostWakeup` is still asleep, on a full pipe that nobody
holds. -/
theorem lostWakeup_not_settled :
    Initial freshPipe ∧
    ∃ tr s, Runs.Run step freshPipe tr s ∧ tr.map Prod.snd = lostWakeup ∧ ¬ Settled s := by
  refine ⟨freshPipe_initial, ?_⟩
  have hend : (Runs.exec step lostWakeup freshPipe).map
      (fun s => (s.lock, (s.procs false).chan, s.pipe.empty)) = some (none, some .nread, false) := by
    decide +kernel
  rw [Option.map_eq_some_iff] at hend
  obtain ⟨s, hs, heq⟩ := hend
  simp only [Prod.mk.injEq] at heq
  obtain ⟨tr, hr, hl⟩ := Runs.run_of_exec hs
  refine ⟨tr, s, hr, hl, fun hset => ?_⟩
  have he := ((hset heq.1).1 false heq.2.1).1
  rw [heq.2.2] at he
  cases he

end Xv6Arm.Pipes
