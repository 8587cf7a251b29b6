import Xv6Arm.Pipe.Fifo

/-!
# Writing to a pipe nobody can read

`pipewrite` looks at `readopen` only while the ring is full.  A writer that holds the
lock after the read end was closed does not sleep, so the lock stays with it until it
returns (`Storing`), and nobody takes a byte out of the ring meanwhile.  Its result is
then settled by the free room of the ring (`outcome`): it stores its bytes, and returns
-1 only if it finds the ring full before the last one.
-/

namespace Xv6Arm.Pipes

open Runs

/-- The number of bytes in the ring. -/
def Pipe.count (p : Pipe) : Nat := (p.nwrite - p.nread).toNat

theorem Pipe.full_iff (p : Pipe) : p.full = true ↔ p.count = PIPESIZE := by
  have hw := p.nwrite.toNat_lt
  have hr := p.nread.toNat_lt
  have hsize : (UInt32.ofNat PIPESIZE).toNat = 512 := rfl
  rw [Pipe.full, beq_iff_eq, ← UInt32.toNat_inj, UInt32.toNat_add, hsize, Pipe.count,
    UInt32.toNat_sub, PIPESIZE]
  omega

theorem Pipe.count_put {p : Pipe} (h : p.count < PIPESIZE) (b : UInt8) :
    (p.put b).count = p.count + 1 := by
  have hw := p.nwrite.toNat_lt
  have hr := p.nread.toNat_lt
  have hone : (1 : UInt32).toNat = 1 := rfl
  rw [Pipe.count, UInt32.toNat_sub, PIPESIZE] at h
  simp only [Pipe.count, Pipe.put, UInt32.toNat_sub, UInt32.toNat_add, hone]
  omega

variable {Pid : Type} [DecidableEq Pid] {p : Pid} {addr : Nat → UInt8} {n : Int} {j : Nat}
  {s t : State Pid}

/-- A writer that holds the lock after the read end was closed, with `j` bytes stored. -/
structure Storing (p : Pid) (addr : Nat → UInt8) (n : Int) (j : Nat) (s : State Pid) : Prop where
  lock : s.lock = some p
  act : (s.procs p).act = .write addr n j
  le : (j : Int) ≤ n
  closed : s.pipe.readopen = false
  room : s.pipe.count ≤ PIPESIZE

/-- What a writer returns that has stored `j` bytes when `count` bytes are in the ring and
nobody reads. -/
def outcome (n : Int) (j count : Nat) : Int :=
  if (PIPESIZE : Int) < count + (n - j) then -1 else n

/-- One round of the writer. -/
theorem Storing.run (h : Storing p addr n j s) : ∃ t, step (.run p) s = some t ∧
    ((t.procs p).act = .ret (outcome n j s.pipe.count) ∨
      (j < n ∧ Storing p addr n (j + 1) t ∧
        outcome n (j + 1) t.pipe.count = outcome n j s.pipe.count)) := by
  have hle := h.le
  have hroom := h.room
  refine ⟨pipewrite p addr n j s, ?_, ?_⟩
  · rw [step, if_pos h.lock, runHolder, h.act]
  · rw [pipewrite]
    split_ifs with hj hfull hstop
    · -- the ring is full, and the read end is closed
      have hcount := (Pipe.full_iff _).mp hfull
      left
      rw [outcome, if_pos (by omega), leaveWrite, leave]
      exact setAct_act_self s p _
    · exact absurd (.inl h.closed) hstop
    · have hne : s.pipe.count ≠ PIPESIZE := fun he => hfull ((Pipe.full_iff _).mpr he)
      have hput := Pipe.count_put (p := s.pipe) (by omega) (addr j)
      refine .inr ⟨hj, ⟨h.lock, setAct_act_self s p _, by push_cast; omega, h.closed, ?_⟩, ?_⟩
      · dsimp only
        omega
      · simp only [outcome, hput]
        push_cast
        congr 2
        omega
    · left
      rw [outcome, if_neg (by omega), leaveWrite, leave]
      exact setAct_act_self _ p _

/-- The writer is on its way to the result `r`, or has returned it. -/
def Bound (p : Pid) (addr : Nat → UInt8) (n r : Int) (s : State Pid) : Prop :=
  (∃ j, Storing p addr n j s ∧ outcome n j s.pipe.count = r) ∨ (s.procs p).act = .ret r

omit [DecidableEq Pid] in
/-- A step of another process that takes nothing from the writer. -/
theorem Bound.frame {r : Int} (h : Bound p addr n r s) (hact : (t.procs p).act = (s.procs p).act)
    (hpipe : s.lock = some p → t.lock = some p ∧ t.pipe = s.pipe) : Bound p addr n r t := by
  rcases h with ⟨j, hj, hout⟩ | hret
  · obtain ⟨hlock, hpipe⟩ := hpipe hj.lock
    refine .inl ⟨j, ⟨hlock, hact.trans hj.act, hj.le, ?_, ?_⟩, ?_⟩
    · rw [hpipe, hj.closed]
    · rw [hpipe]
      exact hj.room
    · rw [hpipe, hout]
  · exact .inr (hact.trans hret)

/-- Nobody but the holder of the lock changes what a process does, once it is in a call. -/
theorem run_act {q : Pid} (hq : p ≠ q) (h : step (.run q) s = some t) :
    s.lock = some q ∧ (t.procs p).act = (s.procs p).act := by
  obtain ⟨hlock, ⟨addr, n, i, -, rfl⟩ | ⟨n, copying, buf, -, rfl⟩ | ⟨writable, -, rfl⟩⟩ :=
    step_run_cases h
  · rw [pipewrite]
    split_ifs <;> simp [leaveWrite, leave, sleep, setAct_act_ne, hq, hlock]
  · rw [piperead]
    split_ifs <;> simp [leave, sleep, setAct_act_ne, hq, hlock]
  · rw [pipeclose]
    split_ifs <;> simp [leave, setAct_act_ne, hq, hlock]

/-- Every step but a new call of the writer keeps its result. -/
theorem Bound.step {r : Int} {l : Label Pid} (h : Bound p addr n r s)
    (hl : ∀ c, l ≠ .call p c) (hstep : step l s = some t) : Bound p addr n r t := by
  cases l with
  | call q c =>
      have hq : p ≠ q := by
        rintro rfl
        exact hl c rfl
      rw [Pipes.step] at hstep
      split_ifs at hstep
      cases hstep
      exact h.frame (setAct_act_ne s _ hq) fun hlock => ⟨hlock, rfl⟩
  | acquire q =>
      rw [Pipes.step] at hstep
      split_ifs at hstep with hfree
      cases hstep
      refine h.frame rfl fun hlock => ?_
      rw [hfree.2.1] at hlock
      cases hlock
  | run q =>
      by_cases hq : p = q
      · subst hq
        rcases h with ⟨j, hj, rfl⟩ | hret
        · obtain ⟨t', hrun, hcases⟩ := hj.run
          rw [hstep] at hrun
          cases hrun
          rcases hcases with hret | ⟨-, hj', hout⟩
          · exact .inr hret
          · exact .inl ⟨j + 1, hj', hout⟩
        · rw [Pipes.step] at hstep
          split_ifs at hstep
          rw [runHolder, hret] at hstep
          cases hstep
      · obtain ⟨hlock, hact⟩ := run_act hq hstep
        refine h.frame hact fun hlock' => ?_
        rw [hlock] at hlock'
        exact absurd (Option.some.inj hlock').symm hq
  | kill q =>
      cases hstep
      exact h.frame (kill_act s q p) fun hlock => ⟨hlock, rfl⟩

theorem Bound.run {r : Int} {u v : State Pid} {tr : List (State Pid × Label Pid)}
    (h : Bound p addr n r u) (hrun : Run Pipes.step u tr v) (hcall : ∀ x ∈ tr, ∀ c, x.2 ≠ .call p c) :
    Bound p addr n r v :=
  (hrun.invariant_of (fun _ _ _ hs hl hstep => Bound.step hs hl hstep) h hcall).2

/-- Left alone, the writer returns. -/
theorem Storing.returns : ∀ {k j : Nat} {s : State Pid}, Storing p addr n j s → (n - j).toNat = k →
    ∃ tr t, Run step s tr t ∧ (∀ x ∈ tr, x.2 = .run p) ∧
      (t.procs p).act = .ret (outcome n j s.pipe.count) := by
  intro k
  induction k with
  | zero =>
      intro j s h hk
      obtain ⟨t, hstep, hret | ⟨hj, -, -⟩⟩ := h.run
      · exact ⟨[(s, .run p)], t, .cons hstep (.nil t), by simp, hret⟩
      · omega
  | succ k ih =>
      intro j s h hk
      obtain ⟨t, hstep, hret | ⟨hj, ht, hout⟩⟩ := h.run
      · exact ⟨[(s, .run p)], t, .cons hstep (.nil t), by simp, hret⟩
      · obtain ⟨tr, v, hrun, hlabels, hret⟩ := ih ht (by push_cast; omega)
        rw [hout] at hret
        exact ⟨(s, .run p) :: tr, v, .cons hstep hrun, by simpa using hlabels, hret⟩

/-- The call that a process is in fails: it returns -1 when the process runs, and in
whatever order the others move, it returns nothing else. -/
def Fails (p : Pid) (u : State Pid) : Prop :=
  (∃ tr v, Run step u tr v ∧ (∀ x ∈ tr, x.2 = .run p) ∧ (v.procs p).act = .ret (-1)) ∧
    ∀ tr v r, Run step u tr v → (∀ x ∈ tr, ∀ c, x.2 ≠ .call p c) → (v.procs p).act = .ret r →
      r = -1

/-- A `pipewrite` that holds the lock after the read end was closed fails exactly if the
bytes it still has to store do not fit into the ring. -/
theorem closedPipe_fails_iff {s₀ u : State Pid} {tr : List (State Pid × Label Pid)}
    (h₀ : Initial s₀) (hrun : Run step s₀ tr u) (hlock : u.lock = some p) {i : Nat}
    (hact : (u.procs p).act = .write addr n i) (hi : (i : Int) < n)
    (hclosed : u.pipe.readopen = false) :
    Fails p u ↔ (PIPESIZE : Int) < (u.pipe.nwrite - u.pipe.nread).toNat + (n - i) := by
  have hfifo : Fifo u := hrun.invariant_last step_fifo h₀.fifo
  have hroom : u.pipe.count ≤ PIPESIZE := by
    rw [Pipe.count, hfifo.ring.length_sub]
    have hle : u.bytes.length ≤ u.delivered.length + PIPESIZE := Ring.Holds.room hfifo.ring
    omega
  have hstoring : Storing p addr n i u := ⟨hlock, hact, hi.le, hclosed, hroom⟩
  obtain ⟨tr', v, hrun', hlabels, hret⟩ := hstoring.returns rfl
  constructor
  · rintro ⟨-, honly⟩
    by_contra hfits
    have hout : outcome n i u.pipe.count = n := if_neg hfits
    rw [hout] at hret
    have hn : n = -1 := by
      refine honly tr' v n hrun' (fun x hx c => ?_) hret
      rw [hlabels x hx]
      simp
    omega
  · intro hmore
    have hout : outcome n i u.pipe.count = -1 := if_pos hmore
    refine ⟨⟨tr', v, hrun', hlabels, hout ▸ hret⟩, ?_⟩
    intro tr₁ v₁ r hrun₁ hcall hret₁
    rcases Bound.run (.inl ⟨i, hstoring, hout⟩) hrun₁ hcall with ⟨j, hj, -⟩ | hret₂
    · rw [hj.act] at hret₁
      cases hret₁
    · rw [hret₂] at hret₁
      cases hret₁
      rfl

/-- One process closes the read end, and the other one starts to write `n` bytes. -/
def closeThenWrite (n : Int) : List (Label Bool) :=
  [.call true (.pipeclose false), .acquire true, .run true,
    .call false (.pipewrite (fun _ => 7) n), .acquire false]

theorem closeThenWrite_run (n : Int) : ∃ tr u, Run step freshPipe tr u ∧ u.lock = some false ∧
    (u.procs false).act = .write (fun _ => 7) n 0 ∧ u.pipe.readopen = false ∧
    (u.pipe.nwrite - u.pipe.nread).toNat = 0 := by
  obtain ⟨u, hu⟩ : ∃ u, Runs.exec step (closeThenWrite n) freshPipe = some u := ⟨_, rfl⟩
  obtain ⟨tr, hrun, -⟩ := run_of_exec hu
  cases hu
  have hcount : ((0 : UInt32) - 0).toNat = 0 := by decide
  exact ⟨tr, _, hrun, rfl, rfl, rfl, hcount⟩

/-- More bytes than the ring takes. -/
theorem closedPipe_fails_iff_overflow : ∃ tr u, Run step freshPipe tr u ∧
    u.pipe.readopen = false ∧ Fails false u := by
  obtain ⟨tr, u, hrun, hlock, hact, hclosed, hcount⟩ := closeThenWrite_run 513
  refine ⟨tr, u, hrun, hclosed, ?_⟩
  rw [closedPipe_fails_iff freshPipe_initial hrun hlock hact (by decide) hclosed, hcount]
  decide

/-- One byte for an empty ring. -/
theorem closedPipe_reports_written : ∃ tr u tr' v, Initial freshPipe ∧ Run step freshPipe tr u ∧
    u.lock = some false ∧ (u.procs false).act = .write (fun _ => 7) 1 0 ∧
    u.pipe.readopen = false ∧ Run step u tr' v ∧ (∀ x ∈ tr', x.2 = .run false) ∧
    (v.procs false).act = .ret 1 := by
  obtain ⟨tr, u, hrun, hlock, hact, hclosed, hcount⟩ := closeThenWrite_run 1
  have hroom : u.pipe.count ≤ PIPESIZE := by
    rw [Pipe.count, hcount]
    decide
  have hstoring : Storing false (fun _ => 7) 1 0 u := ⟨hlock, hact, by decide, hclosed, hroom⟩
  obtain ⟨tr', v, hrun', hlabels, hret⟩ := hstoring.returns rfl
  rw [Pipe.count, hcount] at hret
  exact ⟨tr, u, tr', v, freshPipe_initial, hrun, hlock, hact, hclosed, hrun', hlabels, hret⟩

end Xv6Arm.Pipes
