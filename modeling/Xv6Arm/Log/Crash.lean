import Xv6Arm.Log.Spec

/-!
# Crash atomicity of the log

Transactions that run one after the other issue a history of the redo log: a
crash after any of their sector writes leaves a disk that recovers to the
committed transactions.

`Logging` is the invariant of a transaction before it commits.  Its table holds
the logged blocks, one for each sector: the header in memory names them, the
slots on the disk hold them, and the header on the disk is still clean.

`initlog` finds the log through the super block.  So recovery looks for the log
where the transactions wrote it only if none of them moves it, and the theorem
asks for that.
-/

namespace Xv6Arm.Log

open Bytes RedoLog

variable {recycle : Recycle} {m m₀ m₁ : Machine} {start : Sector} {size : Int}
  {P : Sector → Block → Prop}

/-! ## Logging -/

/-- A machine in a transaction that started at `m₀` and has logged `table`. -/
structure Logging (start : Sector) (size : Int) (m₀ : Machine) (table : List (Sector × Block))
    (m : Machine) : Prop where
  coherent : Coherent start size m
  busy : m.log.busy = true
  n_eq : m.log.lh.n = table.length
  fits : table.length ≤ (layout start size).cap
  nodup : (table.map Prod.fst).Nodup
  entry : ∀ i e, table[i]? = some e →
    m.log.lh.sector i = e.1 ∧ m.disk (slotOf start i) = e.2
  fill : ∃ fill, Issues fill m₀ m ∧ ∀ w ∈ fill, ∃ i, i < (layout start size).cap ∧
    w.1 = slotOf start i

/-- A transaction starts with nothing logged. -/
theorem logging_nil (h : Coherent start size m) (hn : m.log.lh.n = 0) :
    Logging start size m [] { m with log := { m.log with busy := true } } where
  coherent := h.congr rfl rfl rfl rfl
  busy := rfl
  n_eq := hn
  fits := Nat.zero_le _
  nodup := List.nodup_nil
  entry i e he := by
    rw [List.getElem?_nil] at he
    cases he
  fill := ⟨[], Issues.refl rfl rfl, fun w hw => by cases hw⟩

/-- The sectors the header in memory names. -/
theorem Logging.sectors_eq {table : List (Sector × Block)} (h : Logging start size m₀ table m) :
    (List.range m.log.lh.n.toNat).map m.log.lh.sector = table.map Prod.fst := by
  rw [h.n_eq, Int.toNat_natCast]
  apply List.ext_getElem
  · simp
  · intro i h₁ h₂
    rw [List.length_map] at h₂
    have he := (h.entry i table[i] (List.getElem?_eq_getElem h₂)).1
    simpa using he

/-- A `log_write` that does not panic leaves room for its block. -/
theorem logWrite_guard {s : Sector} {data : Block}
    (hrun : (logWrite recycle s data).run m = .ok ((), m₁)) :
    m.log.lh.n < LOGSIZE ∧ m.log.lh.n < m.log.size - 1 ∧ m.log.busy = true := by
  rw [logWrite, run_bind_ok (a := m) rfl] at hrun
  by_cases hbig : m.log.lh.n ≥ LOGSIZE ∨ m.log.lh.n ≥ m.log.size - 1
  · rw [if_pos hbig] at hrun
    cases hrun
  · rw [if_neg hbig] at hrun
    push Not at hbig
    cases hbusy : m.log.busy with
    | true => exact ⟨hbig.1, hbig.2, rfl⟩
    | false =>
        rw [hbusy] at hrun
        cases hrun

/-- The machine after a `log_write` with room for its block. -/
def Machine.logged (recycle : Recycle) (s : Sector) (data : Block) (m : Machine) : Machine :=
  let i := m.log.lh.index s
  let m₁ := ((m.setLh { n := m.log.lh.n, sector := Function.update m.log.lh.sector i s }).fetch
    recycle (m.log.slot i)).write (m.log.slot i) data
  (if i = m.log.lh.n then m₁.setLh { n := m.log.lh.n + 1, sector := m₁.log.lh.sector }
    else m₁).setDirty s data

theorem logged_log (recycle : Recycle) (s : Sector) (data : Block) (m : Machine) :
    (m.logged recycle s data).log = { m.log with
      lh := {
        n := if m.log.lh.index s = m.log.lh.n then m.log.lh.n + 1 else m.log.lh.n
        sector := Function.update m.log.lh.sector (m.log.lh.index s) s } } := by
  simp only [Machine.logged]
  split_ifs <;> simp [Machine.setDirty, Machine.write, Machine.setLh]

theorem logged_issues (recycle : Recycle) (s : Sector) (data : Block) (m : Machine) :
    Issues [(m.log.slot (m.log.lh.index s), data)] m (m.logged recycle s data) := by
  simp only [Machine.logged]
  split_ifs <;> exact ⟨by simp [Machine.setDirty, Machine.write],
    by simp [Machine.setDirty, Machine.write]⟩

theorem Coherent.logged (h : Coherent start size m) {s : Sector} (hs : ¬ logArea start size s)
    (data : Block) : Coherent start size (m.logged recycle s data) := by
  simp only [Machine.logged]
  split_ifs
  · exact h.setLh.fetch.write.setLh.setDirty hs
  · exact h.setLh.fetch.write.setDirty hs

/-- A `log_write` with room for its block. -/
theorem logWrite_eq (recycle : Recycle) (s : Sector) (data : Block) (hn : m.log.lh.n < LOGSIZE)
    (hsize : m.log.lh.n < m.log.size - 1) (hbusy : m.log.busy = true)
    (hi : m.log.lh.index s < LOGSIZE) :
    (logWrite recycle s data).run m = .ok ((), m.logged recycle s data) := by
  have hbig : ¬ (m.log.lh.n ≥ LOGSIZE ∨ m.log.lh.n ≥ m.log.size - 1) := by omega
  rw [logWrite, run_bind_ok (a := m) rfl, if_neg hbig]
  beta_reduce
  rw [hbusy, if_neg (by decide)]
  beta_reduce
  rw [run_bind_ok (setSector_run hi), run_bind_ok bread_run, run_bind_ok bwrite_run]
  by_cases hnew : (m.log.lh.index s : Int) = m.log.lh.n
  · rw [if_pos hnew, run_bind_ok setN_run, Machine.logged, if_pos hnew]
    rfl
  · rw [if_neg hnew, Machine.logged, if_neg hnew]
    rfl

/-- A `log_write` with room for its block writes one log block. -/
theorem logWrite_run (recycle : Recycle) (data : Block) (h : Coherent start size m) {s : Sector}
    (hs : ¬ logArea start size s) (hn : m.log.lh.n < LOGSIZE) (hsize : m.log.lh.n < m.log.size - 1)
    (hbusy : m.log.busy = true) (hi : m.log.lh.index s < LOGSIZE) :
    ∃ m₁, (logWrite recycle s data).run m = .ok ((), m₁) ∧ Coherent start size m₁ ∧
      Issues [(slotOf start (m.log.lh.index s), data)] m m₁ ∧ m₁.log.busy = true ∧
      m₁.log.lh.sector = Function.update m.log.lh.sector (m.log.lh.index s) s ∧
      m₁.log.lh.n = if (m.log.lh.index s : Int) = m.log.lh.n then m.log.lh.n + 1
        else m.log.lh.n := by
  have hiss := logged_issues recycle s data m
  rw [LogState.slot_eq, h.start_eq] at hiss
  refine ⟨m.logged recycle s data, logWrite_eq recycle s data hn hsize hbusy hi, h.logged hs data,
    hiss, ?_, ?_, ?_⟩
  · rw [logged_log, hbusy]
  · rw [logged_log]
  · rw [logged_log]

/-- `log_write` adds its block to the table. -/
theorem Logging.step {table : List (Sector × Block)} (h : Logging start size m₀ table m)
    {s : Sector} {data : Block} (hs : ¬ logArea start size s)
    (hrun : (logWrite recycle s data).run m = .ok ((), m₁)) :
    Logging start size m₀ (absorb table s data) m₁ := by
  obtain ⟨hn, hsize, hbusy⟩ := logWrite_guard hrun
  have hidx : m.log.lh.index s = (table.map Prod.fst).idxOf s := by
    rw [LogHeader.index, h.sectors_eq]
  have hle : (table.map Prod.fst).idxOf s ≤ table.length := by
    have := List.idxOf_le_length (a := s) (l := table.map Prod.fst)
    rwa [List.length_map] at this
  have hnlen := h.n_eq
  have hsz := h.coherent.size_eq
  have hcap : table.length < (layout start size).cap := by
    show table.length < min LOGSIZE (size - 1).toNat
    omega
  have hcapL : (layout start size).cap ≤ LOGSIZE := Nat.min_le_left _ _
  obtain ⟨m₂, hrun₂, hcoh, hiss, hbusy₂, hsec, hn₂⟩ := logWrite_run recycle data
    h.coherent hs hn hsize hbusy (by omega)
  obtain rfl : m₂ = m₁ := by
    rw [hrun] at hrun₂
    injection hrun₂ with hrun₂
    exact (congrArg Prod.snd hrun₂).symm
  rw [hidx] at hiss hsec hn₂
  have hlen := length_absorb s data table
  have hd : m₂.disk = Function.update m.disk (slotOf start ((table.map Prod.fst).idxOf s)) data :=
    hiss.disk_eq
  refine ⟨hcoh, hbusy₂, ?_, ?_, nodup_absorb h.nodup, ?_, ?_⟩
  · rw [hn₂, hlen, hnlen]
    by_cases hnew : (table.map Prod.fst).idxOf s = table.length
    · rw [if_pos hnew, if_pos (by rw [hnew])]
      rfl
    · rw [if_neg hnew, if_neg (by omega)]
  · rw [hlen]
    split <;> omega
  · intro i e he
    rw [absorb_getElem?] at he
    by_cases hi : i = (table.map Prod.fst).idxOf s
    · rw [if_pos hi] at he
      rw [hsec, hd, hi, Function.update_self, Function.update_self, ← Option.some.inj he]
      exact ⟨rfl, rfl⟩
    · rw [if_neg hi] at he
      have hlt : i < table.length := (List.getElem?_eq_some_iff.mp he).1
      have hne : slotOf start i ≠ slotOf start ((table.map Prod.fst).idxOf s) :=
        fun hs => hi (slotOf_inj (by omega) (by omega) hs)
      rw [hsec, hd, Function.update_of_ne hi, Function.update_of_ne hne]
      exact h.entry i e he
  · obtain ⟨fill, hfill, hslots⟩ := h.fill
    refine ⟨_, hfill.trans hiss, ?_⟩
    intro w hw
    rw [List.mem_append, List.mem_singleton] at hw
    cases hw with
    | inl hw => exact hslots w hw
    | inr hw => exact ⟨_, by omega, congrArg Prod.fst hw⟩

/-- The `log_write` calls of a transaction. -/
theorem Logging.run : ∀ {T : Transaction} {table : List (Sector × Block)} {m : Machine},
    Logging start size m₀ table m → (∀ w ∈ T, ¬ logArea start size w.1) →
    (T.forM fun w => logWrite recycle w.1 w.2).run m = .ok ((), m₁) →
    Logging start size m₀ (absorbAll table T) m₁
  | [], _, _, h, _, hrun => by
      cases hrun
      exact h
  | w :: T, table, m, h, hT, hrun => by
      rw [List.forM_eq_forM, List.forM_cons] at hrun
      obtain ⟨_, m₂, hrun₁, hrun₂⟩ := run_bind_inv hrun
      rw [absorbAll]
      exact Logging.run (h.step (hT w (List.mem_cons_self ..)) hrun₁)
        (fun v hv => hT v (List.mem_cons_of_mem _ hv)) hrun₂

/-! ## Committing -/

section Commit

variable {table : List (Sector × Block)}

/-- The count of the header that a commit writes. -/
theorem Logging.headN_eq (h : Logging start size m₀ table m) (b : Block) :
    headN (putHead m.log.lh b) = table.length :=
  headN_putHead h.n_eq (Nat.le_trans h.fits (Nat.min_le_left _ _)) b

/-- The sectors of the header that a commit writes. -/
theorem Logging.headSector_eq (h : Logging start size m₀ table m) (b : Block) {i : Nat}
    (hi : i < table.length) : headSector (putHead m.log.lh b) i = m.log.lh.sector i :=
  headSector_putHead h.n_eq (Nat.le_trans h.fits (Nat.min_le_left _ _)) b hi

/-- The disk as the header is written: its log is the table. -/
theorem Logging.entries_eq (h : Logging start size m₀ table m) (b : Block) :
    (layout start size).entries (Function.update m.disk start (putHead m.log.lh b)) = table := by
  have hcount : (headN (putHead m.log.lh b)).toNat = table.length := by
    rw [h.headN_eq, Int.toNat_natCast]
  show (List.range (headN (Function.update m.disk start _ start)).toNat).map _ = _
  rw [Function.update_self, hcount]
  apply List.ext_getElem
  · rw [List.length_map, List.length_range]
  · intro i h₁ h₂
    have hne : slotOf start i ≠ start :=
      (layout start size).slot_ne_header i (Nat.lt_of_lt_of_le h₂ h.fits)
    obtain ⟨hsec, hslot⟩ := h.entry i table[i] (List.getElem?_eq_getElem h₂)
    rw [List.getElem_map, List.getElem_range]
    show (headSector (Function.update m.disk start _ start) i,
      Function.update m.disk start _ (slotOf start i)) = _
    rw [Function.update_self, Function.update_of_ne hne, h.headSector_eq b h₂, hsec, hslot]

/-- Its log is well formed. -/
theorem Logging.wf (h : Logging start size m₀ table m)
    (hstore : ∀ x, ¬ logArea start size x → P x (m₀.disk x))
    (htable : ∀ e ∈ table, ¬ logArea start size e.1 ∧ P e.1 e.2) (b : Block) :
    (layout start size).Wf P (Function.update m.disk start (putHead m.log.lh b)) := by
  have hent := h.entries_eq b
  obtain ⟨fill, hfill, hslots⟩ := h.fill
  have hcount : (layout start size).count (Function.update m.disk start (putHead m.log.lh b)
      (layout start size).header) = table.length := by
    rw [← hent, Layout.entries, List.length_map, List.length_range]
  refine ⟨?_, ?_, ?_, ?_⟩
  · rw [hcount]
    exact h.fits
  · intro i hi
    rw [hcount] at hi
    have hmem := (htable table[i] (List.getElem_mem hi)).1
    rw [← (h.entry i table[i] (List.getElem?_eq_getElem hi)).1, ← h.headSector_eq b hi] at hmem
    show ¬ logArea start size (headSector (Function.update m.disk start _ start) i)
    rw [Function.update_self]
    exact hmem
  · intro x hx
    have hne : x ≠ start := Layout.ne_header (L := layout start size) hx
    rw [Function.update_of_ne hne, hfill.disk_eq,
      (Layout.replay_slots (L := layout start size) hslots).2 x hx]
    exact hstore x hx
  · rw [hent]
    exact fun e he => (htable e he).2

/-- A commit with a table that is not empty issues the writes of one transaction
of the redo log. -/
theorem Logging.commit (recycle : Recycle) (h : Logging start size m₀ table m)
    (hstore : ∀ x, ¬ logArea start size x → P x (m₀.disk x))
    (htable : ∀ e ∈ table, ¬ logArea start size e.1 ∧ P e.1 e.2) (hne : 0 < table.length) :
    ∃ m₁ h₀, (commitTrans recycle).run m = .ok ((), m₁) ∧ Coherent start size m₁ ∧
      m₁.log.busy = false ∧ m₁.log.lh.n = 0 ∧ (layout start size).count h₀ = 0 ∧
      Issues ((start, putHead m.log.lh (m.disk start)) :: (layout start size).redo
        (Function.update m.disk start (putHead m.log.lh (m.disk start))) h₀) m m₁ := by
  have hpos : 0 < m.log.lh.n := by
    rw [h.n_eq]
    omega
  have hfits : m.log.lh.n ≤ LOGSIZE := by
    rw [h.n_eq]
    exact Int.ofNat_le.mpr (Nat.le_trans h.fits (Nat.min_le_left _ _))
  obtain ⟨m₂, hrun₂, hcoh₂, hlog₂, hiss₂⟩ := writeHead_run recycle h.coherent hfits
  have hd₂ : m₂.disk = Function.update m.disk start (putHead m.log.lh (m.disk start)) :=
    hiss₂.disk_eq
  have hhead : m₂.disk start = putHead m.log.lh (m.disk start) := by
    rw [hd₂, Function.update_self]
  obtain ⟨m₃, h₀, hrun₃, hcoh₃, hn₃, hbusy₃, herased, hiss₃⟩ := redo_run recycle
    (P := P) hcoh₂ (hd₂ ▸ h.wf hstore htable _)
    (by rw [hhead, h.headN_eq, hlog₂, h.n_eq])
    (by
      rw [hhead, h.headN_eq, Int.toNat_natCast, hlog₂]
      exact fun i hi => (h.headSector_eq _ hi).symm)
  rw [hd₂] at hiss₃
  refine ⟨{ m₃ with log := { m₃.log with busy := false } }, h₀, ?_,
    hcoh₃.congr rfl rfl rfl rfl, rfl, hn₃, count_eq_zero herased, ?_⟩
  · rw [commitTrans, run_bind_ok (a := m) rfl, if_pos hpos, run_bind_ok hrun₂]
    have hassoc : (do installTrans recycle; setN 0; writeHead recycle; setBusy false :
        Kernel Unit) = (do installTrans recycle; setN 0; writeHead recycle) >>=
          fun _ => setBusy false := by
      simp only [bind_assoc]
    exact (congrArg (fun x => StateT.run x m₂) hassoc).trans (run_bind_ok hrun₃)
  · exact hiss₂.trans ⟨hiss₃.disk_eq, hiss₃.writes_eq⟩

end Commit

/-! ## Transactions -/

/-- A machine between transactions. -/
structure Ready (start : Sector) (size : Int) (P : Sector → Block → Prop) (m : Machine) :
    Prop where
  coherent : Coherent start size m
  busy : m.log.busy = false
  n_eq : m.log.lh.n = 0
  clean : (layout start size).Clean m.disk
  store : ∀ x, ¬ logArea start size x → P x (m.disk x)

/-- The machine after `begin_trans`. -/
theorem Ready.beginTrans_run (h : Ready start size P m) :
    beginTrans.run m = .ok ((), { m with log := { m.log with busy := true } }) := by
  rw [beginTrans, run_bind_ok (a := m) rfl, h.busy]
  rfl

theorem Ready.logging (h : Ready start size P m) :
    Logging start size m [] { m with log := { m.log with busy := true } } :=
  logging_nil h.coherent h.n_eq

/-- A transaction that logs nothing writes nothing. -/
theorem Ready.transaction_nil (h : Ready start size P m)
    (hrun : (transaction recycle []).run m = .ok ((), m₁)) :
    Ready start size P m₁ ∧ Issues [] m m₁ := by
  have hidle : ¬ (0 : Int) < m.log.lh.n := by
    rw [h.n_eq]
    decide
  have hm : (transaction recycle []).run m =
      .ok ((), { m with log := { m.log with busy := false } }) := by
    rw [transaction, run_bind_ok h.beginTrans_run, List.forM_eq_forM, List.forM_nil, pure_bind,
      commitTrans, run_bind_ok (a := { m with log := { m.log with busy := true } }) rfl,
      if_neg hidle]
    rfl
  rw [hm] at hrun
  cases hrun
  exact ⟨⟨h.coherent.congr rfl rfl rfl rfl, rfl, h.n_eq, h.clean, h.store⟩, Issues.refl rfl rfl⟩

/-- A transaction that logs something is a history of the redo log. -/
theorem Ready.transaction_cons (h : Ready start size P m) {T : Transaction} (hne : T ≠ [])
    (hT : ∀ w ∈ T, ¬ logArea start size w.1 ∧ P w.1 w.2)
    (hrun : (transaction recycle T).run m = .ok ((), m₁)) :
    ∃ ws, Issues ws m m₁ ∧ Ready start size P m₁ ∧
      (layout start size).History P m.disk [T] ws := by
  rw [transaction, run_bind_ok h.beginTrans_run] at hrun
  obtain ⟨_, m₂, hrun₂, hrun₃⟩ := run_bind_inv hrun
  have hlog := h.logging.run (fun w hw => (hT w hw).1) hrun₂
  have htable : ∀ e ∈ absorbAll [] T, ¬ logArea start size e.1 ∧ P e.1 e.2 := by
    intro e he
    cases mem_absorbAll he with
    | inl he => exact hT e he
    | inr he => cases he
  have hpos : 0 < (absorbAll [] T).length := by
    cases T with
    | nil => exact absurd rfl hne
    | cons w T => exact length_le_absorbAll T [(w.1, w.2)]
  obtain ⟨m₃, h₀, hrun₄, hcoh, hbusy, hn, hclean, hiss⟩ := hlog.commit recycle
    h.store htable hpos
  rw [hrun₄] at hrun₃
  cases hrun₃
  obtain ⟨fill, hfill, hslots⟩ := hlog.fill
  have hwf := hlog.wf h.store htable (m₂.disk start)
  have hent := hlog.entries_eq (m₂.disk start)
  have hhead := hlog.headN_eq (m₂.disk start)
  rw [hfill.disk_eq] at hwf hent hhead hiss
  have hhist := h.clean.history_transaction (P := P) (T := T) h.store hslots hwf
    (by
      show 0 < (headN _).toNat
      rw [hhead]
      omega)
    (fun e => (congrArg (replay · e) hent).trans (replay_absorbAll List.nodup_nil))
    hclean
  have hall : Issues ((layout start size).transaction m.disk fill
      (putHead m₂.log.lh (replay fill m.disk start)) h₀) m m₁ := hfill.trans hiss
  refine ⟨_, hall, ⟨hcoh, hbusy, hn, ?_, ?_⟩, hhist⟩
  · rw [hall.disk_eq]
    exact hhist.clean
  · have hend := hhist.wf ((layout start size).transaction m.disk fill
      (putHead m₂.log.lh (replay fill m.disk start)) h₀).length
    rw [List.take_length, ← hall.disk_eq] at hend
    exact hend.store

/-- The transactions that log something. -/
def effective (Ts : List Transaction) : List Transaction := Ts.filter fun T => !T.isEmpty

/-- A run of transactions is a history of the redo log. -/
theorem Ready.transactions_run : ∀ {Ts : List Transaction} {m : Machine},
    Ready start size P m → (∀ T ∈ Ts, ∀ w ∈ T, ¬ logArea start size w.1 ∧ P w.1 w.2) →
    (transactions recycle Ts).run m = .ok ((), m₁) →
    ∃ ws, Issues ws m m₁ ∧ (layout start size).History P m.disk (effective Ts) ws
  | [], m, h, _, hrun => by
      cases hrun
      exact ⟨[], Issues.refl rfl rfl, h.clean.history_nil h.store⟩
  | T :: Ts, m, h, hT, hrun => by
      rw [transactions, List.forM_eq_forM, List.forM_cons] at hrun
      obtain ⟨_, m₂, hrun₂, hrun₃⟩ := run_bind_inv hrun
      have hrest : ∀ U ∈ Ts, ∀ w ∈ U, ¬ logArea start size w.1 ∧ P w.1 w.2 :=
        fun U hU => hT U (List.mem_cons_of_mem T hU)
      by_cases hne : T = []
      · subst hne
        obtain ⟨hready, hiss⟩ := h.transaction_nil hrun₂
        obtain ⟨vs, hissv, hhist⟩ := hready.transactions_run hrest hrun₃
        have hd : m₂.disk = m.disk := hiss.disk_eq
        rw [hd] at hhist
        exact ⟨vs, hiss.trans hissv, hhist⟩
      · obtain ⟨ws, hiss, hready, hhist⟩ := h.transaction_cons hne
          (hT T (List.mem_cons_self ..)) hrun₂
        obtain ⟨vs, hissv, hhistv⟩ := hready.transactions_run hrest hrun₃
        rw [hiss.disk_eq] at hhistv
        have heff : effective (T :: Ts) = [T] ++ effective Ts := by
          rw [effective, effective, List.filter_cons_of_pos (by simpa using hne)]
          rfl
        rw [heff]
        exact ⟨ws ++ vs, hiss.trans hissv, hhist.append hhistv⟩

/-! ## Reboots -/

/-- What a sector may hold: the super block keeps the place of the log. -/
def KeepsLog (start : Sector) (size : Int) (s : Sector) (b : Block) : Prop :=
  s = 1 → LogAt start size b

/-- Recovery, cut short any number of times and then run to its end, makes of the
home sectors what the log on the disk says. -/
theorem reboots_run (recycle : Recycle) (hsb : ¬ logArea start size 1) : ∀ (ks : List Nat) {d : Disk},
    (layout start size).Wf (KeepsLog start size) d →
    ∃ e, reboots recycle ks d = .ok e ∧
      ∀ s, ¬ logArea start size s → e s = (layout start size).recovered d s
  | [], d, h => by
      obtain ⟨m, h₀, hrun, -, -, -, herased, -, hd⟩ := initlog_run recycle (h.store 1 hsb rfl) h
      refine ⟨m.disk, ?_, ?_⟩
      · rw [reboots, hrun]
        rfl
      · intro s hs
        rw [hd]
        exact (Layout.redo_complete (count_eq_zero herased)).2 s hs
  | k :: ks, d, h => by
      obtain ⟨m, h₀, hrun, -, -, -, herased, hw, -⟩ := initlog_run recycle (h.store 1 hsb rfl) h
      obtain ⟨hwf, hrec⟩ := h.redo_crash (count_eq_zero herased) k
      obtain ⟨e, hreb, he⟩ := reboots_run recycle hsb ks hwf
      refine ⟨e, ?_, ?_⟩
      · rw [reboots, hrun]
        show reboots recycle ks (replay (m.writes.take k) d) = .ok e
        rw [hw]
        exact hreb
      · intro s hs
        rw [he s hs, hrec s hs]

/-! ## Crash atomicity -/

/-- A machine after `initlog`, before any transaction.  Its log is where its
super block says, and the header on the disk is erased. -/
structure Booted (m : Machine) : Prop where
  place : LogAt m.log.start m.log.size (m.disk 1)
  cached : ∀ s, logArea m.log.start m.log.size s → m.block s = m.disk s
  busy : m.log.busy = false
  n_eq : m.log.lh.n = 0
  erased : headN (m.disk m.log.start) = 0
  writes_eq : m.writes = []

/-- `initlog` makes such a machine of every disk with a well-formed log, with the transactions of
that log installed. -/
theorem initlog_booted (recycle : Recycle) (hsb : ¬ logArea start size 1) {d : Disk}
    (h : (layout start size).Wf (KeepsLog start size) d) :
    ∃ m, (initlog recycle).run (boot d) = .ok ((), m) ∧ Booted { m with writes := [] } ∧
      m.log.start = start ∧ m.log.size = size ∧
      ∀ s, ¬ logArea start size s → m.disk s = (layout start size).recovered d s := by
  obtain ⟨m, h₀, hrun, hcoh, hbusy, hn, herased, -, hd⟩ :=
    initlog_run recycle (h.store 1 hsb rfl) h
  have hclean : (layout start size).count h₀ = 0 := count_eq_zero herased
  have hhead : m.disk start = h₀ := by
    rw [hd, Layout.redo, replay_append, replay_cons, replay_nil]
    exact Function.update_self ..
  have hplace : LogAt start size (m.disk 1) := by
    obtain ⟨hwf, -⟩ := h.redo_crash hclean ((layout start size).redo d h₀).length
    rw [List.take_length, ← hd] at hwf
    exact hwf.store 1 hsb rfl
  refine ⟨m, hrun, ⟨?_, ?_, hbusy, hn, ?_, rfl⟩, hcoh.start_eq, hcoh.size_eq, fun s hs => ?_⟩
  · rw [hcoh.start_eq, hcoh.size_eq]
    exact hplace
  · rw [hcoh.start_eq, hcoh.size_eq]
    exact hcoh.block_eq
  · rw [hcoh.start_eq, hhead, herased]
  · rw [hd]
    exact (Layout.redo_complete hclean).2 s hs

/-- The number of sector writes that are the first `write_head` of a commit: the
header, with a count that is not 0. -/
def commitCount (start : Sector) (ws : List (Sector × Block)) : Nat :=
  ws.countP fun w => decide (w.1 = start ∧ 0 < headN w.2)

/-- The writes of the transactions that committed among the sector writes `ws`. -/
def committed (start : Sector) (ws : List (Sector × Block)) (Ts : List Transaction) :
    List (Sector × Block) :=
  ((effective Ts).take (commitCount start ws)).flatten

/-- The transactions `Ts` are atomic over a crash after `k` sector writes,
followed by recoveries that crash after `ks` sector writes each and one that runs
to its end: recovery ends, and every sector outside of the log holds what the
committed transactions made of it. -/
def CrashAtomic (recycle : Recycle) (m : Machine) (Ts : List Transaction) (k : Nat)
    (ks : List Nat) : Prop :=
  ∀ m₁, (transactions recycle Ts).run m = .ok ((), m₁) →
    ∃ d, reboots recycle ks (replay (m₁.writes.take k) m.disk) = .ok d ∧
      ∀ s, ¬ logArea m.log.start m.log.size s →
        d s = replay (committed m.log.start (m₁.writes.take k) Ts) m.disk s ∧
        (s ∉ (committed m.log.start (m₁.writes.take k) Ts).map Prod.fst → d s = m.disk s)

theorem commits_layout (start : Sector) (size : Int) (ws : List (Sector × Block)) :
    (layout start size).commits ws = commitCount start ws := by
  apply List.countP_congr
  intro w _
  rw [decide_eq_true_eq, decide_eq_true_eq]
  show w.1 = start ∧ 0 < (headN w.2).toNat ↔ _
  rw [Int.lt_toNat]
  rfl

theorem Booted.ready (h : Booted m) :
    Ready m.log.start m.log.size (KeepsLog m.log.start m.log.size) m where
  coherent := ⟨rfl, rfl, h.cached⟩
  busy := h.busy
  n_eq := h.n_eq
  clean := by
    show (headN (m.disk m.log.start)).toNat = 0
    rw [h.erased]
    rfl
  store x _ hx := hx ▸ h.place

/-- Transactions are atomic over any crash and any number of crashes during
recovery, if the super block lies outside of the log and no transaction changes
the place of the log in it. -/
theorem crash_atomicity (h : Booted m) (hsb : ¬ logArea m.log.start m.log.size 1)
    {Ts : List Transaction}
    (hT : ∀ T ∈ Ts, ∀ w ∈ T, ¬ logArea m.log.start m.log.size w.1 ∧
      KeepsLog m.log.start m.log.size w.1 w.2) (k : Nat) (ks : List Nat) :
    CrashAtomic recycle m Ts k ks := by
  intro m₁ hrun
  obtain ⟨ws, hiss, hhist⟩ := h.ready.transactions_run hT hrun
  have hws : m₁.writes = ws := by
    rw [hiss.writes_eq, h.writes_eq, List.nil_append]
  rw [hws]
  obtain ⟨d, hreb, hd⟩ := reboots_run recycle hsb ks (hhist.wf k)
  refine ⟨d, hreb, ?_⟩
  intro s hs
  have hval : d s = replay (committed m.log.start (ws.take k) Ts) m.disk s := by
    rw [hd s hs, hhist.crash k s hs, commits_layout]
    rfl
  refine ⟨hval, fun hnot => ?_⟩
  rw [hval]
  exact replay_of_notMem hnot

/-- A super block with the given `size` and `nlog`. -/
def superBlock (size nlog : Nat) : Block := putLe (putLe (zeroBuf 512) 0 4 size) 12 4 nlog

/-- A machine on an empty image of 1024 sectors, the last 10 of them the log. -/
def freshMachine : Machine where
  disk := fun s => if s = 1 then superBlock 1024 10 else zeroBuf 512
  cache := fun _ => none
  log := { start := 1014, size := 10, busy := false, lh := { n := 0, sector := fun _ => 0 } }
  writes := []

theorem freshMachine_booted : Booted freshMachine where
  place := by decide +kernel
  cached _ _ := rfl
  busy := rfl
  n_eq := rfl
  erased := by decide +kernel
  writes_eq := rfl

/-- Two transactions on the same sectors, and crashes at two places. -/
theorem crash_atomicity_overwrite :
    ((transactions (fun _ _ _ => true)
      [[(50, fun _ => 1), (51, fun _ => 2), (50, fun _ => 3)], [(51, fun _ => 4)]]).run
        freshMachine).isOk = true ∧
    CrashAtomic (fun _ _ _ => true) freshMachine
      [[(50, fun _ => 1), (51, fun _ => 2), (50, fun _ => 3)], [(51, fun _ => 4)]] 9 [1, 0] := by
  refine ⟨by decide +kernel, crash_atomicity freshMachine_booted (by decide +kernel) ?_ 9 [1, 0]⟩
  intro T hT w hw
  simp only [List.mem_cons, List.not_mem_nil, or_false] at hT
  rcases hT with rfl | rfl <;> simp only [List.mem_cons, List.not_mem_nil, or_false] at hw
  · rcases hw with rfl | rfl | rfl <;> exact ⟨by decide +kernel, fun h => absurd h (by decide)⟩
  · subst hw
    exact ⟨by decide +kernel, fun h => absurd h (by decide)⟩

/-- A transaction that logs a super block of a smaller image, and another
sector. -/
def movesLog : Transaction := [(1, superBlock 1000 10), (50, fun _ => 7)]

/-- What is left of `movesLog` after a crash right after the new super block is
installed, and recovery: one transaction committed, but sector 50 is unchanged. -/
theorem movesLog_run :
    (match (transactions (fun _ _ _ => false) [movesLog]).run freshMachine with
      | .error _ => false
      | .ok (_, m) =>
          match reboots (fun _ _ _ => false) [] (replay (m.writes.take 4) freshMachine.disk) with
          | .error _ => false
          | .ok d => d 50 0 == 0 && commitCount 1014 (m.writes.take 4) == 1) = true := by
  decide +kernel

/-- Recovery does not find the log of a transaction that moves it. -/
theorem movesLog_not_crashAtomic :
    Booted freshMachine ∧ (∀ w ∈ movesLog, ¬ logArea 1014 10 w.1) ∧
      ¬ CrashAtomic (fun _ _ _ => false) freshMachine [movesLog] 4 [] := by
  have houtside : ∀ w ∈ movesLog, ¬ logArea 1014 10 w.1 := by
    intro w hw
    simp only [movesLog, List.mem_cons, List.not_mem_nil, or_false] at hw
    rcases hw with rfl | rfl <;> decide +kernel
  refine ⟨freshMachine_booted, houtside, ?_⟩
  intro hatomic
  have hrun := movesLog_run
  cases h₁ : (transactions (fun _ _ _ => false) [movesLog]).run freshMachine with
  | error e =>
      rw [h₁] at hrun
      cases hrun
  | ok p =>
      obtain ⟨d, hreb, hd⟩ := hatomic p.2 h₁
      rw [h₁] at hrun
      simp only [hreb, Bool.and_eq_true, beq_iff_eq] at hrun
      have h50 := congrFun (hd 50 (by decide +kernel)).1 0
      have hcommit : commitCount freshMachine.log.start (p.2.writes.take 4) = 1 := hrun.2
      rw [hrun.1, committed, hcommit] at h50
      exact absurd h50 (by decide +kernel)

end Xv6Arm.Log
