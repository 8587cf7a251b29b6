import Mathlib.Data.Finset.Card
import Mathlib.Data.Finset.Dedup
import Xv6Arm.Log.Isolation

/-!
# The limits of the log

The table `log.lh.sector` has `LOGSIZE` elements, and the log on the disk has
`log.size - 1` blocks behind its header.

In a transaction the table holds each sector that was logged once (`Recorded`), so
`log.lh.n` counts the distinct sectors.  `log_write` compares it with the limits
before it looks for the sector in the table, and so a full log takes no block, not
even one that it already has.
-/

namespace Xv6Arm.Log

open Bytes

variable {recycle : Recycle} {m m₁ m₂ : Machine}

/-! ## Transactions -/

/-- The logged sectors. -/
def LogHeader.table (lh : LogHeader) : List Sector := (List.range lh.n.toNat).map lh.sector

/-- The states of the log from boot on, and which sectors were logged since
`begin_trans`, in a transaction.  Other code of the kernel changes the disk and the
buffers, but not `log`. -/
inductive Reached (recycle : Recycle) : Option (List Sector) → Machine → Prop
  | init {d : Disk} {m : Machine} :
      (initlog recycle).run (boot d) = .ok ((), m) → Reached recycle none m
  | other {l : Option (List Sector)} {m m₁ : Machine} :
      Reached recycle l m → m₁.log = m.log → Reached recycle l m₁
  | begin {m m₁ : Machine} :
      Reached recycle none m → beginTrans.run m = .ok ((), m₁) → Reached recycle (some []) m₁
  | write {l : List Sector} {m m₁ : Machine} {s : Sector} {data : Block} :
      Reached recycle (some l) m → (logWrite recycle s data).run m = .ok ((), m₁) →
      Reached recycle (some (l ++ [s])) m₁
  | commit {l : List Sector} {m m₁ : Machine} :
      Reached recycle (some l) m → (commitTrans recycle).run m = .ok ((), m₁) →
      Reached recycle none m₁

/-- The table holds the sectors of the transaction, each once. -/
structure Recorded (l : List Sector) (log : LogState) : Prop where
  busy : log.busy = true
  nonneg : 0 ≤ log.lh.n
  nodup : log.lh.table.Nodup
  mem : ∀ s, s ∈ log.lh.table ↔ s ∈ l

section Recorded

variable {l : List Sector} {log : LogState}

theorem length_table (lh : LogHeader) : lh.table.length = lh.n.toNat := by
  simp [LogHeader.table]

theorem index_eq (lh : LogHeader) (s : Sector) : lh.index s = lh.table.idxOf s := rfl

/-- `log.lh.n` counts the distinct sectors. -/
theorem Recorded.n_eq (h : Recorded l log) : log.lh.n = l.toFinset.card := by
  have hset : l.toFinset = log.lh.table.toFinset := by
    ext s
    rw [List.mem_toFinset, List.mem_toFinset, h.mem]
  rw [hset, List.toFinset_card_of_nodup h.nodup, length_table, Int.toNat_of_nonneg h.nonneg]

/-- A logged sector has its place in the table. -/
theorem Recorded.index_of_mem (h : Recorded l log) {s : Sector} (hs : s ∈ l) :
    (log.lh.index s : Int) < log.lh.n ∧ log.lh.sector (log.lh.index s) = s := by
  have hlt : log.lh.table.idxOf s < log.lh.table.length :=
    List.idxOf_lt_length_iff.mpr ((h.mem s).mpr hs)
  constructor
  · rw [length_table] at hlt
    have hnonneg := h.nonneg
    rw [index_eq]
    omega
  · have hget : log.lh.table[log.lh.index s]? = some s := List.getElem?_idxOf ((h.mem s).mpr hs)
    have hrange : (List.range log.lh.n.toNat)[log.lh.index s]? = some (log.lh.index s) :=
      List.getElem?_range (by rwa [length_table] at hlt)
    rw [LogHeader.table, List.getElem?_map, hrange] at hget
    exact Option.some.inj hget

/-- Another one goes to the end. -/
theorem Recorded.index_of_notMem (h : Recorded l log) {s : Sector} (hs : s ∉ l) :
    (log.lh.index s : Int) = log.lh.n := by
  rw [index_eq, List.idxOf_eq_length_iff.mpr (fun hmem => hs ((h.mem s).mp hmem)), length_table,
    Int.toNat_of_nonneg h.nonneg]

theorem Recorded.index_le (h : Recorded l log) (s : Sector) : (log.lh.index s : Int) ≤ log.lh.n := by
  by_cases hs : s ∈ l
  · exact (h.index_of_mem hs).1.le
  · exact (h.index_of_notMem hs).le

theorem table_append {lh : LogHeader} (hn : 0 ≤ lh.n) (s : Sector) :
    LogHeader.table ⟨lh.n + 1, Function.update lh.sector lh.n.toNat s⟩ = lh.table ++ [s] := by
  have hsucc : (lh.n + 1).toNat = lh.n.toNat + 1 := by omega
  simp only [LogHeader.table, hsucc, List.range_succ, List.map_append, List.map_singleton,
    Function.update_self, List.append_cancel_right_eq]
  apply List.map_congr_left
  intro i hi
  exact Function.update_of_ne (List.mem_range.mp hi).ne _ _

/-- `log` after a block of a sector that is logged. -/
theorem Recorded.absorb (h : Recorded l m.log) {s : Sector} (hs : s ∈ l) (data : Block) :
    (m.logged recycle s data).log = m.log := by
  obtain ⟨hlt, hsector⟩ := h.index_of_mem hs
  rw [logged_log, if_neg hlt.ne, Function.update_eq_self_iff.mpr hsector.symm]

/-- The buffer keeps the block until the commit. -/
theorem logged_block (recycle : Recycle) (s : Sector) (data : Block) (m : Machine) :
    (m.logged recycle s data).block s = data := by
  simp [Machine.logged, Machine.block, Machine.setDirty]

/-- `log` after a block of another sector. -/
theorem Recorded.append (h : Recorded l m.log) {s : Sector} (hs : s ∉ l) (data : Block) :
    Recorded (l ++ [s]) (m.logged recycle s data).log := by
  have hindex := h.index_of_notMem hs
  have htoNat : m.log.lh.index s = m.log.lh.n.toNat := by omega
  have htable := table_append h.nonneg s
  rw [logged_log, if_pos hindex, htoNat]
  constructor
  · exact h.busy
  · have hnonneg := h.nonneg
    dsimp only
    omega
  · rw [htable]
    refine List.Nodup.append h.nodup (List.nodup_singleton s) ?_
    rw [List.disjoint_singleton]
    exact fun hmem => hs ((h.mem s).mp hmem)
  · intro t
    rw [htable, List.mem_append, h.mem, List.mem_append]

theorem Recorded.congr {l' : List Sector} (h : Recorded l log) (hmem : ∀ s, s ∈ l ↔ s ∈ l') :
    Recorded l' log :=
  ⟨h.busy, h.nonneg, h.nodup, fun s => (h.mem s).trans (hmem s)⟩

theorem Recorded.logged (h : Recorded l m.log) (s : Sector) (data : Block) :
    Recorded (l ++ [s]) (m.logged recycle s data).log := by
  by_cases hs : s ∈ l
  · rw [h.absorb hs]
    refine h.congr fun t => ?_
    rw [List.mem_append, List.mem_singleton]
    exact ⟨.inl, fun ht => ht.elim id fun ht => ht ▸ hs⟩
  · exact h.append hs data

end Recorded

/-! ## What a `log_write` does at the limits -/

section Writes

variable {l : List Sector}

/-- The number of distinct sectors that a transaction may log. -/
def capacity (log : LogState) : Int := min LOGSIZE (log.size - 1)

/-- A full log. -/
theorem Recorded.logWrite_full (h : Recorded l m.log) (hfull : capacity m.log ≤ l.toFinset.card)
    (recycle : Recycle) (s : Sector) (data : Block) :
    (logWrite recycle s data).run m = .error (.panic "too big a transaction") := by
  rw [← h.n_eq, capacity] at hfull
  rw [logWrite, run_bind_ok (a := m) rfl, if_pos (by omega)]
  rfl

/-- A log that is not full. -/
theorem Recorded.logWrite_ok (h : Recorded l m.log) (hroom : l.toFinset.card < capacity m.log)
    (recycle : Recycle) (s : Sector) (data : Block) :
    (logWrite recycle s data).run m = .ok ((), m.logged recycle s data) := by
  have hindex := h.index_le s
  rw [← h.n_eq, capacity] at hroom
  exact logWrite_eq recycle s data (by omega) (by omega) h.busy (by omega)

theorem Recorded.logWrite_run (h : Recorded l m.log) {s : Sector} {data : Block}
    (hrun : (logWrite recycle s data).run m = .ok ((), m₁)) : Recorded (l ++ [s]) m₁.log := by
  rcases lt_or_ge (l.toFinset.card : Int) (capacity m.log) with hroom | hfull
  · rw [h.logWrite_ok hroom] at hrun
    cases hrun
    exact h.logged s data
  · rw [h.logWrite_full hfull] at hrun
    cases hrun

/-- `m₁` comes from `m` by another block for a sector that is logged.  The table is as before, and
the block is in the buffer of the sector and in the place that the sector has in the log. -/
structure Absorbs (s : Sector) (data : Block) (m m₁ : Machine) : Prop where
  log_eq : m₁.log = m.log
  place : ∃ i : Nat, i < m.log.lh.n ∧ m.log.lh.sector i = s ∧ Issues [(m.log.slot i, data)] m m₁
  buffer : m₁.block s = data

/-- `log_write` tells a transaction that is too big by its distinct sectors.  It panics
only where it needs a block and there is none, and absorbs a sector that is logged. -/
def CountsDistinct (recycle : Recycle) (l : List Sector) (s : Sector) (data : Block)
    (m : Machine) : Prop :=
  ((logWrite recycle s data).run m = .error (.panic "too big a transaction") →
      s ∉ l ∧ min (LOGSIZE : Int) (m.log.size - 1) ≤ l.toFinset.card) ∧
    (s ∈ l → ∃ m₁, (logWrite recycle s data).run m = .ok ((), m₁) ∧ Absorbs s data m m₁)

end Writes

/-! ## Between transactions -/

section Between

/-- The end of `recover_from_log` and of a commit: the log is empty. -/
theorem eraseHead_n (h : (eraseHead recycle).run m = .ok ((), m₁)) : m₁.log.lh.n = 0 := by
  rw [eraseHead, run_bind_ok setN_run] at h
  rw [writeHead_log h, setLh_lh]

theorem initlog_n {d : Disk} (h : (initlog recycle).run (boot d) = .ok ((), m)) :
    m.log.lh.n = 0 := by
  rw [initlog, if_neg (by decide)] at h
  obtain ⟨_, m₁, -, h⟩ := run_bind_inv h
  obtain ⟨_, m₂, -, h⟩ := run_bind_inv h
  obtain ⟨_, m₃, -, h⟩ := run_bind_inv h
  obtain ⟨_, m₄, -, h⟩ := run_bind_inv h
  exact eraseHead_n h

theorem beginTrans_log (h : beginTrans.run m = .ok ((), m₁)) :
    m₁.log = { m.log with busy := true } := by
  rw [beginTrans, run_bind_ok (a := m) rfl] at h
  cases hbusy : m.log.busy with
  | true =>
      rw [hbusy] at h
      cases h
  | false =>
      rw [hbusy] at h
      cases h
      rfl

theorem commitTrans_n (hn : 0 ≤ m.log.lh.n) (h : (commitTrans recycle).run m = .ok ((), m₁)) :
    m₁.log.lh.n = 0 := by
  rw [commitTrans, run_bind_ok (a := m) rfl] at h
  split_ifs at h with hpos
  · obtain ⟨_, m₂, -, h⟩ := run_bind_inv h
    obtain ⟨_, m₃, -, h⟩ := run_bind_inv h
    obtain ⟨_, m₄, hset, h⟩ := run_bind_inv h
    obtain ⟨_, m₅, hhead, h⟩ := run_bind_inv h
    have herase : (eraseHead recycle).run m₃ = .ok ((), m₅) := by
      rw [eraseHead, run_bind_ok hset, hhead]
    have hn := eraseHead_n herase
    cases h
    exact hn
  · cases h
    exact le_antisymm (not_lt.mp hpos) hn

/-- What holds of `log` in every state. -/
def Tracks : Option (List Sector) → LogState → Prop
  | none, log => log.lh.n = 0
  | some l, log => Recorded l log

theorem Reached.tracks {l : Option (List Sector)} (h : Reached recycle l m) : Tracks l m.log := by
  induction h with
  | init hrun => exact initlog_n hrun
  | other _ hlog ih => exact hlog ▸ ih
  | @begin m _ _ hrun ih =>
      have hn : m.log.lh.n = 0 := ih
      rw [beginTrans_log hrun]
      constructor
      · rfl
      · exact hn.ge
      · simp [LogHeader.table, hn]
      · simp [LogHeader.table, hn]
  | write _ hrun ih => exact Recorded.logWrite_run ih hrun
  | commit _ hrun ih => exact commitTrans_n (Recorded.nonneg ih) hrun

end Between

/-- In every transaction: `log_write` counts distinct sectors exactly where it is not asked
to absorb a block in a full log. -/
theorem countsDistinct_iff {l : List Sector} (h : Reached recycle (some l) m) (s : Sector)
    (data : Block) : CountsDistinct recycle l s data m ↔
      ¬ (s ∈ l ∧ min (LOGSIZE : Int) (m.log.size - 1) ≤ l.toFinset.card) := by
  have hrec : Recorded l m.log := h.tracks
  constructor
  · rintro ⟨honly, -⟩ ⟨hs, hfull⟩
    exact (honly (hrec.logWrite_full hfull recycle s data)).1 hs
  · intro hnot
    rcases lt_or_ge (l.toFinset.card : Int) (capacity m.log) with hroom | hfull
    · have hrun := hrec.logWrite_ok hroom recycle s data
      constructor
      · intro hpanic
        rw [hrun] at hpanic
        cases hpanic
      · intro hs
        obtain ⟨hlt, hsector⟩ := hrec.index_of_mem hs
        exact ⟨_, hrun, hrec.absorb hs data, ⟨_, hlt, hsector, logged_issues recycle s data m⟩,
          logged_block recycle s data m⟩
    · have hs : s ∉ l := fun hs => hnot ⟨hs, hfull⟩
      exact ⟨fun _ => ⟨hs, hfull⟩, fun h => absurd h hs⟩

/-- A transaction of blocks that all have room. -/
theorem Reached.writes (ss : List Sector) (data : Block) : ∀ {l : List Sector} {m : Machine},
    Reached recycle (some l) m → ((l.length + ss.length : Nat) : Int) ≤ capacity m.log →
    ∃ m₁, Reached recycle (some (l ++ ss)) m₁ ∧ m₁.log.size = m.log.size := by
  induction ss with
  | nil =>
      intro l m h _
      exact ⟨m, by rwa [List.append_nil], rfl⟩
  | cons s ss ih =>
      intro l m h hroom
      have hcard := l.toFinset_card_le
      rw [List.length_cons] at hroom
      have hrun := Recorded.logWrite_ok h.tracks (by omega) recycle s data
      have hsize : (m.logged recycle s data).log.size = m.log.size := by rw [logged_log]
      obtain ⟨m₁, hm₁, hsize₁⟩ := ih (h.write hrun) (by
        rw [capacity, hsize, List.length_append, List.length_singleton]
        rw [capacity] at hroom
        omega)
      exact ⟨m₁, by rwa [List.append_assoc] at hm₁, hsize₁.trans hsize⟩

/-- A transaction starts on an image whose log has 10 sectors. -/
theorem reached_start : ∃ m, Reached (fun _ _ _ => false) (some []) m ∧ m.log.size = 10 := by
  have hinit : ((initlog fun _ _ _ => false).run (boot freshMachine.disk)).toOption.any
      (fun r => r.2.log.size == 10 && !r.2.log.busy) = true := by
    decide +kernel
  cases hrun : (initlog fun _ _ _ => false).run (boot freshMachine.disk) with
  | error e =>
      rw [hrun] at hinit
      cases hinit
  | ok r =>
      obtain ⟨⟨⟩, m⟩ := r
      rw [hrun] at hinit
      have hinit : (m.log.size == 10 && !m.log.busy) = true := hinit
      simp only [Bool.and_eq_true, beq_iff_eq, Bool.not_eq_true'] at hinit
      have hbegin : beginTrans.run m = .ok ((), { m with log := { m.log with busy := true } }) := by
        rw [beginTrans, run_bind_ok (a := m) rfl, hinit.2]
        rfl
      exact ⟨_, (Reached.init hrun).begin hbegin, hinit.1⟩

/-- The second block of a sector, in a transaction of two sectors. -/
theorem countsDistinct_iff_again : ∃ m, Reached (fun _ _ _ => false) (some [50, 51]) m ∧
    CountsDistinct (fun _ _ _ => false) [50, 51] 50 (fun _ => 7) m := by
  obtain ⟨m₀, hm₀, hsize₀⟩ := reached_start
  obtain ⟨m, hm, hsize⟩ := hm₀.writes [50, 51] (zeroBuf 512) (by
    rw [capacity, hsize₀]
    decide)
  refine ⟨m, hm, (countsDistinct_iff hm 50 _).mpr fun h => ?_⟩
  have hfull := h.2
  rw [hsize, hsize₀] at hfull
  exact absurd hfull (by decide)

/-- Nine sectors fill the log of an image that `mkfs` makes, and one of them is logged
again. -/
theorem fullLog_not_absorbs : ∃ m,
    Reached (fun _ _ _ => false) (some [50, 51, 52, 53, 54, 55, 56, 57, 58]) m ∧
      (logWrite (fun _ _ _ => false) 50 (zeroBuf 512)).run m =
        .error (.panic "too big a transaction") ∧
      ¬ CountsDistinct (fun _ _ _ => false) [50, 51, 52, 53, 54, 55, 56, 57, 58] 50
        (zeroBuf 512) m := by
  obtain ⟨m₀, hm₀, hsize₀⟩ := reached_start
  obtain ⟨m, hm, hsize⟩ := hm₀.writes [50, 51, 52, 53, 54, 55, 56, 57, 58] (zeroBuf 512) (by
    rw [capacity, hsize₀]
    decide)
  have hfull : capacity m.log ≤
      ([50, 51, 52, 53, 54, 55, 56, 57, 58] : List Sector).toFinset.card := by
    rw [capacity, hsize, hsize₀]
    decide
  have hrun := Recorded.logWrite_full hm.tracks hfull (fun _ _ _ => false) 50 (zeroBuf 512)
  exact ⟨m, hm, hrun, fun h => (h.1 hrun).1 (by decide)⟩

end Xv6Arm.Log
