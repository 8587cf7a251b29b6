import Xv6Arm.Lib.Runs
import Xv6Arm.Log.Crash

/-!
# Isolation of transactions

Any number of processes run transactions at the same time.  A step is the locked
test-and-set of `begin_trans`, a `log_write`, a sector write of `commit_trans`,
or the locked clearing of `log.busy`.  `log.lh` is read and written without the
lock.

`sleep` gives the lock back and marks the process asleep in one step, and a
process that was woken tests `log.busy` again, in any order with the others.

`logged` and `installed` are history variables: what a process logged since its
last `begin_trans` returned, and the sector writes of `install_trans` in its
`commit_trans` since.
-/

namespace Xv6Arm.Log

open Bytes RedoLog Runs

/-! ## The steps of a commit -/

/-- One round of `install_trans`. -/
def installRound (recycle : Recycle) (tail : Nat) : Kernel Unit := do
  let m ← get
  checkIndex tail
  let lbuf ← bread recycle (m.log.slot tail)
  let _ ← bread recycle (m.log.lh.sector tail)
  bwrite (m.log.lh.sector tail) lbuf

/-- The end of the first branch of `commit_trans`. -/
def eraseHead (recycle : Recycle) : Kernel Unit := do
  setN 0
  writeHead recycle

/-! ## Processes -/

/-- Where a process is. -/
inductive Phase
  /-- Between two transactions. -/
  | outside
  /-- In `begin_trans`, before its test of `log.busy`. -/
  | waiting
  /-- Asleep on `&log`. -/
  | asleep
  /-- Between the return of `begin_trans` and the call of `commit_trans`. -/
  | inside
  /-- In `commit_trans`, before its test of `log.lh.n`. -/
  | committing
  /-- In the loop of `install_trans`. -/
  | installing (tail : Nat)
  /-- Before `log.busy` is cleared. -/
  | clearing
deriving DecidableEq

/-- Between the return of `begin_trans` and the clearing of `log.busy`. -/
def Phase.holds : Phase → Bool
  | .outside | .waiting | .asleep => false
  | .inside | .committing | .installing _ | .clearing => true

/-- The machine and its processes.  A panic stops all of them. -/
structure System (Pid : Type) where
  machine : Machine
  phase : Pid → Phase
  logged : Pid → Transaction
  installed : Pid → Transaction
  stopped : Option Stop

/-- The steps of a process. -/
inductive Label (Pid : Type)
  /-- Calls `begin_trans`. -/
  | begin (p : Pid)
  /-- Tests and sets `log.busy`. -/
  | test (p : Pid)
  /-- Calls `log_write`. -/
  | logWrite (p : Pid) (s : Sector) (data : Block)
  /-- Calls `commit_trans`. -/
  | commit (p : Pid)
  /-- Takes the next step of `commit_trans`. -/
  | next (p : Pid)

variable {Pid : Type} [DecidableEq Pid]

/-- A system after a step of one process. -/
def System.put (s : System Pid) (p : Pid) (m : Machine) (phase : Phase)
    (logged installed : Transaction) : System Pid where
  machine := m
  phase := Function.update s.phase p phase
  logged := Function.update s.logged p logged
  installed := Function.update s.installed p installed
  stopped := s.stopped

/-- A system in which a process moves on. -/
def System.move (s : System Pid) (p : Pid) (phase : Phase) : System Pid :=
  s.put p s.machine phase (s.logged p) (s.installed p)

/-- A system after a process ran kernel code. -/
def System.kernel (s : System Pid) (code : Kernel Unit) (after : Machine → System Pid) :
    System Pid :=
  match code.run s.machine with
  | .ok (_, m) => after m
  | .error e => { s with stopped := some e }

/-- `wakeup(&log)`. -/
def System.wakeup (s : System Pid) : System Pid :=
  { s with phase := fun q => if s.phase q = .asleep then .waiting else s.phase q }

/-- The test of `begin_trans`. -/
def System.test (s : System Pid) (p : Pid) : System Pid :=
  match beginTrans.run s.machine with
  | .ok (_, m) => s.put p m .inside [] []
  | .error _ => s.move p .asleep

/-- The next step of `commit_trans`. -/
def System.next (recycle : Recycle) (s : System Pid) (p : Pid) : Option (System Pid) :=
  match s.phase p with
  | .committing =>
      if 0 < s.machine.log.lh.n then
        some (s.kernel (writeHead recycle) fun m =>
          s.put p m (.installing 0) (s.logged p) (s.installed p))
      else some (s.move p .clearing)
  | .installing tail =>
      if tail < s.machine.log.lh.n then
        some (s.kernel (installRound recycle tail) fun m =>
          s.put p m (.installing (tail + 1)) (s.logged p)
            (s.installed p ++ m.writes.drop s.machine.writes.length))
      else
        some (s.kernel (eraseHead recycle) fun m =>
          s.put p m .clearing (s.logged p) (s.installed p))
  | .clearing =>
      some (s.kernel (setBusy false) fun m =>
        (s.put p m .outside (s.logged p) (s.installed p)).wakeup)
  | _ => none

/-- A step. -/
def step (recycle : Recycle) (l : Label Pid) (s : System Pid) : Option (System Pid) :=
  match s.stopped, l with
  | some _, _ => none
  | none, .begin p => if s.phase p = .outside then some (s.move p .waiting) else none
  | none, .test p => if s.phase p = .waiting then some (s.test p) else none
  | none, .logWrite p sector data =>
      if s.phase p = .inside then
        some (s.kernel (logWrite recycle sector data) fun m =>
          s.put p m .inside (s.logged p ++ [(sector, data)]) (s.installed p))
      else none
  | none, .commit p => if s.phase p = .inside then some (s.move p .committing) else none
  | none, .next p => s.next recycle p

/-- No process is in a transaction. -/
def System.start (m : Machine) : System Pid where
  machine := m
  phase _ := .outside
  logged _ := []
  installed _ := []
  stopped := none

/-- A `log_write` is called within the capacity of the log. -/
def InCapacity (s : System Pid) : Label Pid → Prop
  | .logWrite _ _ _ => s.machine.log.lh.n < LOGSIZE ∧ s.machine.log.lh.n < s.machine.log.size - 1
  | _ => True

/-- A `log_write` is called on a sector outside of the log. -/
def OutsideLog (start : Sector) (size : Int) (_ : System Pid) : Label Pid → Prop
  | .logWrite _ sector _ => ¬ logArea start size sector
  | _ => True

/-! ## The log that a commit installs -/

variable {recycle : Recycle} {start : Sector} {size : Int} {m m₁ : Machine}
  {table : List (Sector × Block)}

/-- The header in memory names the sectors of the table, which lie outside of the log, and the
slots hold its blocks. -/
structure Tabled (start : Sector) (size : Int) (table : List (Sector × Block)) (m : Machine) :
    Prop where
  coherent : Coherent start size m
  busy : m.log.busy = true
  n_eq : m.log.lh.n = table.length
  fits : table.length ≤ (layout start size).cap
  home : ∀ e ∈ table, ¬ logArea start size e.1
  entry : ∀ i e, table[i]? = some e → m.log.lh.sector i = e.1 ∧ m.disk (slotOf start i) = e.2

omit [DecidableEq Pid] in
theorem Logging.tabled {m₀ : Machine} (h : Logging start size m₀ table m)
    (hhome : ∀ e ∈ table, ¬ logArea start size e.1) : Tabled start size table m :=
  ⟨h.coherent, h.busy, h.n_eq, h.fits, hhome, h.entry⟩

/-- Writes outside of the slots keep the table. -/
theorem Tabled.issues {w : Sector × Block} (h : Tabled start size table m)
    (hcoh : Coherent start size m₁) (hlog : m₁.log = m.log) (hiss : Issues [w] m m₁)
    (hw : ∀ i, i < (layout start size).cap → w.1 ≠ slotOf start i) : Tabled start size table m₁ where
  coherent := hcoh
  busy := by rw [hlog]; exact h.busy
  n_eq := by rw [hlog]; exact h.n_eq
  fits := h.fits
  home := h.home
  entry i e he := by
    have hi : i < table.length := (List.getElem?_eq_some_iff.mp he).1
    have hne := hw i (Nat.lt_of_lt_of_le hi h.fits)
    rw [hlog, hiss.disk_eq, replay_cons, replay_nil, Function.update_of_ne hne.symm]
    exact h.entry i e he

/-- The header of a commit. -/
theorem Tabled.writeHead_run (recycle : Recycle) (h : Tabled start size table m) :
    ∃ m₁, (writeHead recycle).run m = .ok ((), m₁) ∧ Tabled start size table m₁ := by
  have hn : m.log.lh.n ≤ LOGSIZE := by
    rw [h.n_eq]
    exact Int.ofNat_le.mpr (Nat.le_trans h.fits (Nat.min_le_left _ _))
  obtain ⟨m₁, hrun, hcoh, hlog, hiss⟩ := Log.writeHead_run recycle h.coherent hn
  exact ⟨m₁, hrun, h.issues hcoh hlog hiss
    fun i hi => ((layout start size).slot_ne_header i hi).symm⟩

/-- A round of `install_trans` writes one entry of the table. -/
theorem Tabled.installRound_run (recycle : Recycle) (h : Tabled start size table m) {tail : Nat}
    (ht : tail < table.length) :
    ∃ m₁, (installRound recycle tail).run m = .ok ((), m₁) ∧ Tabled start size table m₁ ∧
      m₁.writes = m.writes ++ [table[tail]] := by
  obtain ⟨hsec, hslot⟩ := h.entry tail table[tail] (List.getElem?_eq_getElem ht)
  have hhome := h.home table[tail] (List.getElem_mem ht)
  have hcap : tail < (layout start size).cap := Nat.lt_of_lt_of_le ht h.fits
  obtain ⟨m₁, hrun, hcoh, hlog, hiss⟩ := install_loop recycle h.coherent.start_eq (l := [tail])
    h.coherent rfl (fun i hi => by
      obtain rfl := List.mem_singleton.mp hi
      exact ⟨hcap, hsec ▸ hhome⟩)
  rw [List.map_singleton, hsec, hslot] at hiss
  refine ⟨m₁, ?_, h.issues hcoh hlog hiss fun i hi =>
    Layout.ne_slot (L := layout start size) hhome hi, hiss.writes_eq⟩
  rw [installRound, run_bind_ok (a := m) rfl]
  simpa using hrun

/-- Erasing the header. -/
theorem eraseHead_run (recycle : Recycle) (h : Coherent start size m) :
    ∃ m₁, (eraseHead recycle).run m = .ok ((), m₁) ∧ Coherent start size m₁ ∧
      m₁.log.busy = m.log.busy ∧ m₁.log.lh.n = 0 := by
  have herased : Coherent start size (m.setLh { n := 0, sector := m.log.lh.sector }) := h.setLh
  obtain ⟨m₁, hrun, hcoh, hlog, -⟩ := Log.writeHead_run recycle herased
    (Int.natCast_nonneg LOGSIZE)
  refine ⟨m₁, ?_, hcoh, by rw [hlog]; rfl, by rw [hlog]; rfl⟩
  rw [eraseHead, run_bind_ok setN_run]
  exact hrun

/-! ## The invariant -/

/-- What a process has logged and installed, by its phase. -/
def Own (start : Sector) (size : Int) (m : Machine) : Phase → Transaction → Transaction → Prop
  | .inside, ws, is | .committing, ws, is =>
      (∃ m₀, Logging start size m₀ (absorbAll [] ws) m) ∧
        (∀ w ∈ ws, ¬ logArea start size w.1) ∧ is = []
  | .installing tail, ws, is =>
      Tabled start size (absorbAll [] ws) m ∧ tail ≤ (absorbAll [] ws).length ∧
        is = (absorbAll [] ws).take tail
  | .clearing, ws, is => m.log.lh.n = 0 ∧ is = absorbAll [] ws
  | .outside, ws, is | .waiting, ws, is | .asleep, ws, is => is = absorbAll [] ws

/-- One process holds the log, and the table in the log is its own. -/
structure Inv (start : Sector) (size : Int) (s : System Pid) : Prop where
  running : s.stopped = none
  coherent : Coherent start size s.machine
  busy : ∀ p, (s.phase p).holds = true → s.machine.log.busy = true
  alone : ∀ p q, (s.phase p).holds = true → (s.phase q).holds = true → p = q
  free : s.machine.log.busy = false → s.machine.log.lh.n = 0
  own : ∀ p, Own start size s.machine (s.phase p) (s.logged p) (s.installed p)

section Inv

variable {s t : System Pid} {p : Pid} {phase : Phase} {logged installed : Transaction}

omit [DecidableEq Pid] in
/-- A process that does not hold the log has installed what it logged. -/
theorem own_iff (hphase : phase.holds = false) :
    Own start size m phase logged installed ↔ installed = absorbAll [] logged := by
  cases phase with
  | outside => rfl
  | waiting => rfl
  | asleep => rfl
  | inside => cases hphase
  | committing => cases hphase
  | installing tail => cases hphase
  | clearing => cases hphase

omit [DecidableEq Pid] in
theorem Inv.others (h : Inv start size s) (hp : (s.phase p).holds = true) :
    ∀ q, q ≠ p → (s.phase q).holds = false := by
  intro q hq
  by_contra hhold
  exact hq (h.alone q p (Bool.not_eq_false _ ▸ hhold) hp)

/-- A step of the only process that holds the log, or comes to hold it. -/
theorem Inv.put (h : Inv start size s) (hothers : ∀ q, q ≠ p → (s.phase q).holds = false)
    (hcoh : Coherent start size m) (hbusy : phase.holds = true → m.log.busy = true)
    (hfree : m.log.busy = false → m.log.lh.n = 0)
    (hown : Own start size m phase logged installed) :
    Inv start size (s.put p m phase logged installed) := by
  have hphase : ∀ q, q ≠ p → ((s.put p m phase logged installed).phase q).holds = false := by
    intro q hq
    simp only [System.put, Function.update_of_ne hq]
    exact hothers q hq
  have hself : ∀ q, ((s.put p m phase logged installed).phase q).holds = true → q = p := by
    intro q hhold
    by_contra hq
    rw [hphase q hq] at hhold
    cases hhold
  refine ⟨h.running, hcoh, fun q hq => ?_, fun q r hq hr => (hself q hq).trans (hself r hr).symm,
    hfree, fun q => ?_⟩
  · obtain rfl := hself q hq
    simp only [System.put, Function.update_self] at hq
    exact hbusy hq
  · rcases eq_or_ne q p with rfl | hq
    · simp only [System.put, Function.update_self]
      exact hown
    · simp only [System.put, Function.update_of_ne hq]
      exact (own_iff (hothers q hq)).mpr ((own_iff (hothers q hq)).mp (h.own q))

/-- A step of a process that does not hold the log. -/
theorem Inv.move (h : Inv start size s) (hp : (s.phase p).holds = false)
    (hphase : phase.holds = false) : Inv start size (s.move p phase) := by
  have hsame : ∀ q, ((s.move p phase).phase q).holds = (s.phase q).holds := by
    intro q
    rcases eq_or_ne q p with rfl | hq
    · simp only [System.move, System.put, Function.update_self]
      rw [hp, hphase]
    · simp only [System.move, System.put, Function.update_of_ne hq]
  refine ⟨h.running, h.coherent, fun q hq => h.busy q (hsame q ▸ hq),
    fun q r hq hr => h.alone q r (hsame q ▸ hq) (hsame r ▸ hr), h.free, fun q => ?_⟩
  rcases eq_or_ne q p with rfl | hq
  · simp only [System.move, System.put, Function.update_self]
    exact (own_iff hphase).mpr ((own_iff hp).mp (h.own q))
  · simp only [System.move, System.put, Function.update_of_ne hq]
    exact h.own q

omit [DecidableEq Pid] in
theorem Inv.wakeup (h : Inv start size s) : Inv start size s.wakeup := by
  have hsame : ∀ q, (s.wakeup.phase q).holds = (s.phase q).holds := by
    intro q
    simp only [System.wakeup]
    split
    · next hq => rw [hq]; rfl
    · rfl
  refine ⟨h.running, h.coherent, fun q hq => h.busy q (hsame q ▸ hq),
    fun q r hq hr => h.alone q r (hsame q ▸ hq) (hsame r ▸ hr), h.free, fun q => ?_⟩
  have hown := h.own q
  simp only [System.wakeup]
  split
  · next hq =>
    rw [hq] at hown
    exact hown
  · exact hown

theorem Inv.test (h : Inv start size s) (hp : s.phase p = .waiting) :
    Inv start size (s.test p) := by
  have hrest : (s.phase p).holds = false := by rw [hp]; rfl
  have hrun : beginTrans.run s.machine = if s.machine.log.busy then .error .asleep
      else .ok ((), { s.machine with log := { s.machine.log with busy := true } }) := by
    rw [beginTrans, run_bind_ok (a := s.machine) rfl]
    cases s.machine.log.busy <;> rfl
  unfold System.test
  rw [hrun]
  cases hbusy : s.machine.log.busy with
  | true => exact h.move hrest rfl
  | false =>
      have hlogging := logging_nil h.coherent (h.free hbusy)
      refine h.put (fun q _ => ?_) hlogging.coherent (fun _ => rfl) (fun hfree => by cases hfree)
        ⟨⟨s.machine, hlogging⟩, (fun w hw => absurd hw List.not_mem_nil), rfl⟩
      by_contra hq
      rw [h.busy q (Bool.not_eq_false _ ▸ hq)] at hbusy
      cases hbusy

theorem Inv.logWrite (h : Inv start size s) (hp : s.phase p = .inside) {sector : Sector}
    {data : Block} (hcap : InCapacity s (.logWrite p sector data))
    (hhome : ¬ logArea start size sector) :
    Inv start size (s.kernel (Log.logWrite recycle sector data) fun m =>
      s.put p m .inside (s.logged p ++ [(sector, data)]) (s.installed p)) := by
  have hown := h.own p
  rw [hp] at hown
  obtain ⟨⟨m₀, hlog⟩, hall, hnone⟩ := hown
  have hindex : s.machine.log.lh.index sector ≤ (absorbAll [] (s.logged p)).length := by
    rw [LogHeader.index, hlog.sectors_eq, ← List.length_map (f := Prod.fst)]
    exact List.idxOf_le_length
  have hlt : s.machine.log.lh.index sector < LOGSIZE := by
    have hn := hcap.1
    rw [hlog.n_eq] at hn
    omega
  obtain ⟨m₁, hrun, hcoh, -, hbusy, -⟩ := logWrite_run recycle data h.coherent hhome hcap.1 hcap.2
    hlog.busy hlt
  unfold System.kernel
  rw [hrun]
  refine h.put (h.others (by rw [hp]; rfl)) hcoh (fun _ => hbusy) (fun hfree => ?_)
    ⟨⟨m₀, ?_⟩, ?_, hnone⟩
  · rw [hbusy] at hfree
    cases hfree
  · rw [absorbAll_append_singleton]
    exact hlog.step hhome hrun
  · intro w hw
    rcases List.mem_append.mp hw with hw | hw
    · exact hall w hw
    · rw [List.mem_singleton.mp hw]
      exact hhome

theorem Inv.next (h : Inv start size s) (hstep : s.next recycle p = some t) : Inv start size t := by
  have hown := h.own p
  unfold System.next at hstep
  split at hstep
  · next hp =>
    rw [hp] at hown
    obtain ⟨⟨m₀, hlog⟩, hall, hnone⟩ := hown
    have hothers := h.others (p := p) (by rw [hp]; rfl)
    have htabled := hlog.tabled fun e he => (mem_absorbAll he).elim (hall e) (fun he => nomatch he)
    split at hstep
    · cases hstep
      obtain ⟨m₁, hrun, htabled₁⟩ := htabled.writeHead_run recycle
      unfold System.kernel
      rw [hrun]
      exact h.put hothers htabled₁.coherent (fun _ => htabled₁.busy)
        (fun hfree => by rw [htabled₁.busy] at hfree; cases hfree)
        ⟨htabled₁, Nat.zero_le _, hnone⟩
    · next hzero =>
      cases hstep
      have hn : s.machine.log.lh.n = 0 := by
        rw [hlog.n_eq] at hzero ⊢
        omega
      have hempty : absorbAll [] (s.logged p) = [] := by
        apply List.eq_nil_of_length_eq_zero
        rw [hlog.n_eq] at hn
        omega
      exact h.put hothers h.coherent (fun _ => hlog.busy) (fun _ => hn)
        ⟨hn, hnone.trans hempty.symm⟩
  · next tail hp =>
    rw [hp] at hown
    obtain ⟨htabled, htail, hinstalled⟩ := hown
    have hothers := h.others (p := p) (by rw [hp]; rfl)
    split at hstep
    · next hlt =>
      cases hstep
      have hlt : tail < (absorbAll [] (s.logged p)).length := by
        rw [htabled.n_eq] at hlt
        omega
      obtain ⟨m₁, hrun, htabled₁, hwrites⟩ := htabled.installRound_run recycle hlt
      unfold System.kernel
      rw [hrun]
      refine h.put hothers htabled₁.coherent (fun _ => htabled₁.busy)
        (fun hfree => by rw [htabled₁.busy] at hfree; cases hfree) ⟨htabled₁, hlt, ?_⟩
      rw [hwrites, List.drop_left, hinstalled, List.take_append_getElem]
    · next hend =>
      cases hstep
      have hall : tail = (absorbAll [] (s.logged p)).length := by
        rw [htabled.n_eq] at hend
        omega
      obtain ⟨m₁, hrun, hcoh, hbusy, hn⟩ := eraseHead_run recycle h.coherent
      unfold System.kernel
      rw [hrun]
      refine h.put hothers hcoh (fun _ => hbusy.trans htabled.busy) (fun _ => hn) ⟨hn, ?_⟩
      rw [hinstalled, hall, List.take_length]
  · next hp =>
    cases hstep
    rw [hp] at hown
    have hput : Inv start size (s.put p
        { s.machine with log := { s.machine.log with busy := false } } .outside (s.logged p)
        (s.installed p)) :=
      h.put (h.others (by rw [hp]; rfl)) (h.coherent.congr rfl rfl rfl rfl)
        (fun hhold => by cases hhold) (fun _ => hown.1) hown.2
    exact hput.wakeup
  · cases hstep

theorem Inv.step {l : Label Pid} (h : Inv start size s) (hcap : InCapacity s l)
    (hhome : OutsideLog start size s l) (hstep : step recycle l s = some t) :
    Inv start size t := by
  unfold Log.step at hstep
  rw [h.running] at hstep
  cases l with
  | begin p =>
      simp only [Option.ite_none_right_eq_some, Option.some.injEq] at hstep
      obtain ⟨hp, rfl⟩ := hstep
      exact h.move (by rw [hp]; rfl) rfl
  | test p =>
      simp only [Option.ite_none_right_eq_some, Option.some.injEq] at hstep
      obtain ⟨hp, rfl⟩ := hstep
      exact h.test hp
  | logWrite p sector data =>
      simp only [Option.ite_none_right_eq_some, Option.some.injEq] at hstep
      obtain ⟨hp, rfl⟩ := hstep
      exact h.logWrite hp hcap hhome
  | commit p =>
      simp only [Option.ite_none_right_eq_some, Option.some.injEq] at hstep
      obtain ⟨hp, rfl⟩ := hstep
      have hown := h.own p
      rw [hp] at hown
      have hhold : (s.phase p).holds = true := by rw [hp]; rfl
      exact h.put (h.others hhold) h.coherent (fun _ => h.busy p hhold) h.free hown
  | next p => exact h.next hstep

omit [DecidableEq Pid] in
theorem start_inv (h : Booted m) :
    Inv m.log.start m.log.size (System.start m : System Pid) where
  running := rfl
  coherent := h.ready.coherent
  busy _ hp := by cases hp
  alone _ _ hp := by cases hp
  free _ := h.n_eq
  own _ := rfl

end Inv

/-- In every state of every run, at most one process is between the return of its `begin_trans` and
the clearing of `log.busy`, and a process whose `commit_trans` is about to clear `log.busy` or has
returned has installed the last block it logged for each sector, and nothing else. -/
theorem isolation (h : Booted m) {tr : List (System Pid × Label Pid)} {u : System Pid}
    (hrun : Run (step recycle) (System.start m) tr u) (hcap : EveryStep InCapacity tr)
    (hhome : EveryStep (OutsideLog m.log.start m.log.size) tr) :
    u.stopped = none ∧
    (∀ p q, (u.phase p).holds = true → (u.phase q).holds = true → p = q) ∧
    ∀ p, u.phase p = .clearing ∨ (u.phase p).holds = false →
      ∀ s b, (s, b) ∈ u.installed p ↔ lastWrite s (u.logged p) = some b := by
  have hok : EveryStep (fun s l => InCapacity s l ∧ OutsideLog m.log.start m.log.size s l) tr :=
    fun x hx => ⟨hcap x hx, hhome x hx⟩
  have hinv : Inv m.log.start m.log.size u :=
    (hrun.invariant_of (fun _ _ _ hs hok hstep => hs.step hok.1 hok.2 hstep) (start_inv h) hok).2
  refine ⟨hinv.running, hinv.alone, fun p hp s b => ?_⟩
  have hinstalled : u.installed p = absorbAll [] (u.logged p) := by
    have hown := hinv.own p
    rcases hp with hp | hp
    · rw [hp] at hown
      exact hown.2
    · exact (own_iff hp).mp hown
  rw [hinstalled]
  exact mem_absorbAll_iff _

/-- Two processes race for the log, and each logs a sector twice. -/
def race : List (Label Bool) :=
  [.begin true, .begin false, .test false, .test true, .logWrite false 50 (fun _ => 1),
    .logWrite false 51 (fun _ => 2), .logWrite false 50 (fun _ => 3), .commit false, .next false,
    .next false, .next false, .next false, .next false, .test true, .begin false, .test false,
    .logWrite true 51 (fun _ => 4), .commit true, .next true, .next true, .next true]

instance (s : System Pid) : ∀ l, Decidable (InCapacity s l)
  | .logWrite _ _ _ => inferInstanceAs (Decidable (_ ∧ _))
  | .begin _ | .test _ | .commit _ | .next _ => .isTrue trivial

instance (s : System Pid) : ∀ l, Decidable (OutsideLog start size s l)
  | .logWrite _ _ _ => inferInstanceAs (Decidable (¬ _))
  | .begin _ | .test _ | .commit _ | .next _ => .isTrue trivial

theorem isolation_race :
    ∃ tr u, Run (step fun _ _ _ => true) (System.start freshMachine) tr u ∧
      tr.map Prod.snd = race ∧ u.phase true = .clearing ∧
      (∀ s b, (s, b) ∈ u.installed true ↔ lastWrite s (u.logged true) = some b) ∧
      ∀ s b, (s, b) ∈ u.installed false ↔ lastWrite s (u.logged false) = some b := by
  have hall : ((exec (fun l s => if InCapacity s l ∧ OutsideLog 1014 10 s l then
      step (fun _ _ _ => true) l s else none) race (System.start freshMachine)).map
        fun u => (u.phase true, (u.phase false).holds)) = some (.clearing, false) := by
    decide +kernel
  obtain ⟨u, hu, hend⟩ := Option.map_eq_some_iff.mp hall
  obtain ⟨hclearing, hrest⟩ := Prod.mk.inj hend
  obtain ⟨tr, hrun, hok, hlabels⟩ := run_of_exec_if hu
  obtain ⟨-, -, hinstalled⟩ := isolation freshMachine_booted hrun (fun x hx => (hok x hx).1)
    (fun x hx => (hok x hx).2)
  exact ⟨tr, u, hrun, hlabels, hclearing, hinstalled true (.inl hclearing),
    hinstalled false (.inr hrest)⟩

/-- A process logs the sector of the second slot, and then another sector. -/
def logsSlot : List (Label Unit) :=
  [.begin (), .test (), .logWrite () 1016 (fun _ => 1), .logWrite () 50 (fun _ => 2), .commit (),
    .next (), .next (), .next (), .next ()]

/-- The first installed block overwrites the second slot. -/
theorem logsSlot_not_isolated :
    ∃ tr u, Run (step fun _ _ _ => true) (System.start freshMachine) tr u ∧
      EveryStep InCapacity tr ∧ tr.map Prod.snd = logsSlot ∧ u.phase () = .clearing ∧
      ¬ ∀ s b, (s, b) ∈ u.installed () ↔ lastWrite s (u.logged ()) = some b := by
  have hall : ((exec (fun l s => if InCapacity s l then step (fun _ _ _ => true) l s else none)
      logsSlot (System.start freshMachine)).map fun u =>
        (u.phase (), (lastWrite 50 (u.logged ())).map (· 0),
          (u.installed ()).all fun w => w.1 != 50 || w.2 0 != 2)) =
      some (.clearing, some 2, true) := by
    decide +kernel
  obtain ⟨u, hu, hend⟩ := Option.map_eq_some_iff.mp hall
  simp only [Prod.mk.injEq] at hend
  obtain ⟨hclearing, hlast, hno⟩ := hend
  obtain ⟨tr, hrun, hok, hlabels⟩ := run_of_exec_if hu
  refine ⟨tr, u, hrun, hok, hlabels, hclearing, fun hiff => ?_⟩
  obtain ⟨b, hb, hzero⟩ := Option.map_eq_some_iff.mp hlast
  have hmem := List.all_eq_true.mp hno _ ((hiff 50 b).mpr hb)
  simp [hzero] at hmem

/-! ## A process that commits alone

The steps of a process that no other interrupts are the calls of `commit_trans` that the crashes
of the log are about. -/

section Alone

variable {s t : System Pid} {p : Pid}

omit [DecidableEq Pid] in
theorem writeHead_log (h : (writeHead recycle).run m = .ok ((), m₁)) : m₁.log = m.log := by
  rw [writeHead, run_bind_ok (a := m) rfl, run_bind_ok bread_run, checkIndex] at h
  split at h
  · cases h
    simp [Machine.write]
  · cases h

omit [DecidableEq Pid] in
theorem installRound_log {i : Nat} (h : (installRound recycle i).run m = .ok ((), m₁)) :
    m₁.log = m.log := by
  rw [installRound, run_bind_ok (a := m) rfl, checkIndex] at h
  split at h
  · cases h
    simp [Machine.write]
  · cases h

omit [DecidableEq Pid] in
/-- `install_trans` is its rounds: they leave `log` alone. -/
theorem installTrans_eq : (installTrans recycle).run m =
    ((List.range m.log.lh.n.toNat).forM (installRound recycle)).run m := by
  have hloop : ∀ (l : List Nat) (m₁ : Machine), m₁.log = m.log →
      (l.forM fun tail => do
        checkIndex tail
        let lbuf ← bread recycle (m.log.slot tail)
        let _ ← bread recycle (m.log.lh.sector tail)
        bwrite (m.log.lh.sector tail) lbuf : Kernel Unit).run m₁ =
      (l.forM (installRound recycle)).run m₁ := by
    intro l
    induction l with
    | nil => exact fun _ _ => rfl
    | cons i l ih =>
        intro m₁ hm₁
        have hround : (do
            checkIndex i
            let lbuf ← bread recycle (m.log.slot i)
            let _ ← bread recycle (m.log.lh.sector i)
            bwrite (m.log.lh.sector i) lbuf : Kernel Unit).run m₁ =
              (installRound recycle i).run m₁ := by
          rw [installRound, run_bind_ok (a := m₁) rfl, hm₁]
        rw [List.forM_eq_forM, List.forM_cons, List.forM_cons]
        cases hrun : (installRound recycle i).run m₁ with
        | error e => rw [run_bind_error (hround.trans hrun), run_bind_error hrun]
        | ok x =>
            obtain ⟨⟨⟩, m₂⟩ := x
            rw [run_bind_ok (hround.trans hrun), run_bind_ok hrun]
            exact ih m₂ ((installRound_log hrun).trans hm₁)
  rw [installTrans, run_bind_ok (a := m) rfl]
  exact hloop _ m rfl

omit [DecidableEq Pid] in
theorem installRounds_log {l : List Nat} (h : (l.forM (installRound recycle)).run m = .ok ((), m₁)) :
    m₁.log = m.log := by
  induction l generalizing m with
  | nil =>
      cases h
      rfl
  | cons i l ih =>
      rw [List.forM_eq_forM, List.forM_cons] at h
      obtain ⟨_, m₂, hround, hrest⟩ := run_bind_inv h
      exact (ih hrest).trans (installRound_log hround)

/-- The rounds of one process. -/
theorem run_rounds {k tail : Nat} (hrunning : s.stopped = none) (hp : s.phase p = .installing tail)
    (hn : s.machine.log.lh.n = (tail + k : Nat))
    (hrun : ((List.range' tail k).forM (installRound recycle)).run s.machine = .ok ((), m)) :
    ∃ tr t, Run (step recycle) s tr t ∧ t.stopped = none ∧ t.machine = m ∧
      t.phase p = .installing (tail + k) := by
  induction k generalizing s tail with
  | zero =>
      cases hrun
      exact ⟨[], s, .nil s, hrunning, rfl, hp⟩
  | succ k ih =>
      rw [List.range'_succ, List.forM_eq_forM, List.forM_cons] at hrun
      obtain ⟨_, m₁, hround, hrest⟩ := run_bind_inv hrun
      have hlog := installRound_log hround
      have hlt : (tail : Int) < s.machine.log.lh.n := by omega
      obtain ⟨u, hu⟩ : ∃ u, u = s.put p m₁ (.installing (tail + 1)) (s.logged p)
          (s.installed p ++ m₁.writes.drop s.machine.writes.length) := ⟨_, rfl⟩
      have hnext : step recycle (.next p) s = some u := by
        simp only [step, hrunning, System.next, hp, if_pos hlt, System.kernel, hround, hu]
      have hphase : u.phase p = .installing (tail + 1) := by
        rw [hu]
        exact Function.update_self ..
      have hmachine : u.machine = m₁ := by rw [hu]; rfl
      have hcount : u.machine.log.lh.n = (tail + 1 + k : Nat) := by
        rw [hmachine, hlog, hn]
        omega
      obtain ⟨tr, t, htr, hstopped, hm, hend⟩ := ih (by rw [hu]; exact hrunning) hphase hcount
        (by rw [hmachine]; exact hrest)
      refine ⟨_, t, .cons hnext htr, hstopped, hm, ?_⟩
      rw [hend, Nat.add_assoc, Nat.add_comm 1 k]

/-- The clearing of `log.busy`. -/
theorem run_clearing (hrunning : s.stopped = none) (hp : s.phase p = .clearing)
    (hm : (setBusy false).run s.machine = .ok ((), m)) :
    ∃ tr t, Run (step recycle) s tr t ∧ t.machine = m ∧ t.phase p = .outside := by
  refine ⟨[(s, .next p)], (s.put p m .outside (s.logged p) (s.installed p)).wakeup,
    .cons ?_ (.nil _), rfl, ?_⟩
  · simp only [step, hrunning, System.next, hp, System.kernel, hm]
  · simp only [System.wakeup, System.put, Function.update_self]
    rfl

/-- A process that runs alone leaves the machine as `commit_trans` does. -/
theorem run_commit (hrunning : s.stopped = none) (hp : s.phase p = .committing)
    (hcommit : (commitTrans recycle).run s.machine = .ok ((), m)) :
    ∃ tr t, Run (step recycle) s tr t ∧ t.machine = m ∧ t.phase p = .outside := by
  rw [commitTrans, run_bind_ok (a := s.machine) rfl] at hcommit
  by_cases hpos : 0 < s.machine.log.lh.n
  · rw [if_pos hpos] at hcommit
    obtain ⟨_, m₁, hhead, hcommit⟩ := run_bind_inv hcommit
    obtain ⟨_, m₂, hinstall, hcommit⟩ := run_bind_inv hcommit
    have hassoc : (do setN 0; writeHead recycle; setBusy false : Kernel Unit) =
        eraseHead recycle >>= fun _ => setBusy false := by
      simp only [eraseHead, bind_assoc]
    rw [hassoc] at hcommit
    obtain ⟨_, m₃, herase, hclear⟩ := run_bind_inv hcommit
    obtain ⟨n, hn⟩ := Int.eq_ofNat_of_zero_le (Int.le_of_lt hpos)
    -- The header.
    obtain ⟨u, hu⟩ : ∃ u, u = s.put p m₁ (.installing 0) (s.logged p) (s.installed p) := ⟨_, rfl⟩
    have hfirst : step recycle (.next p) s = some u := by
      simp only [step, hrunning, System.next, hp, if_pos hpos, System.kernel, hhead, hu]
    have hmachine : u.machine = m₁ := by rw [hu]; rfl
    have hcount : m₁.log.lh.n = (0 + n : Nat) := by
      rw [writeHead_log hhead, hn, Nat.zero_add]
    -- The rounds.
    rw [installTrans_eq, hcount, Int.toNat_natCast, Nat.zero_add, List.range_eq_range'] at hinstall
    obtain ⟨tr, v, htr, hvrunning, hvmachine, hvphase⟩ := run_rounds (s := u) (k := n)
      (by rw [hu]; exact hrunning) (by rw [hu]; exact Function.update_self ..)
      (by rw [hmachine]; exact hcount) (by rw [hmachine]; exact hinstall)
    -- The erased header.
    have hdone : ¬ ((0 + n : Nat) : Int) < m₂.log.lh.n := by
      rw [installRounds_log hinstall, hcount]
      omega
    obtain ⟨w, hw⟩ : ∃ w, w = v.put p m₃ .clearing (v.logged p) (v.installed p) := ⟨_, rfl⟩
    have hlast : step recycle (.next p) v = some w := by
      simp only [step, hvrunning, System.next, hvphase, if_neg hdone, System.kernel, hvmachine,
        herase, hw]
    obtain ⟨tr', t, htr', hend⟩ := run_clearing (s := w)
      (by rw [hw]; exact hvrunning) (by rw [hw]; exact Function.update_self ..)
      (by rw [hw]; exact hclear)
    exact ⟨_, t, .cons hfirst ((htr.snoc hlast).append htr'), hend⟩
  · rw [if_neg hpos] at hcommit
    have hnext : step recycle (.next p) s = some (s.move p .clearing) := by
      simp only [step, hrunning, System.next, hp, if_neg hpos]
    obtain ⟨tr, t, htr, hend⟩ := run_clearing (s := s.move p .clearing)
      hrunning (Function.update_self ..) hcommit
    exact ⟨_, t, .cons hnext htr, hend⟩

end Alone

end Xv6Arm.Log
