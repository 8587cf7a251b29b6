import Xv6Arm.Log.Model

/-!
# What the functions of the log do

One lemma for each function of `log.c`, over a machine whose buffers of the log
area hold what the disk holds.  `Issues` says that a machine comes from another
one by sector writes.  `write_head` issues one, `install_trans` one for each
entry, and recovery the redo writes of the library.
-/

namespace Xv6Arm.Log

open Bytes RedoLog

variable {recycle : Recycle} {m m₁ m₂ : Machine} {start s t : Sector} {size : Int}

/-! ## Runs of kernel code -/

@[simp] theorem bread_run : (bread recycle s).run m = .ok (m.block s, m.fetch recycle s) := rfl

@[simp] theorem bwrite_run {b : Block} : (bwrite s b).run m = .ok ((), m.write s b) := rfl

@[simp] theorem setN_run {n : Int} :
    (setN n).run m = .ok ((), m.setLh { n := n, sector := m.log.lh.sector }) := rfl

@[simp] theorem setBusy_run {busy : Bool} : (setBusy busy).run m =
    .ok ((), { m with log := { m.log with busy := busy } }) := rfl

theorem checkIndex_of_lt {i : Nat} (h : i < LOGSIZE) : checkIndex i = pure () := if_pos h

theorem setSector_run {i : Nat} (h : i < LOGSIZE) : (setSector i s).run m = .ok ((),
    m.setLh { n := m.log.lh.n, sector := Function.update m.log.lh.sector i s }) := by
  rw [setSector, checkIndex_of_lt h]
  rfl

section Bind

variable {σ α β : Type} {x : StateT σ (Except Stop) α} {f : α → StateT σ (Except Stop) β}
  {u u₁ u₂ : σ}

/-- Code that runs after code that succeeds. -/
theorem run_bind_ok {a : α} (h : x.run u = .ok (a, u₁)) : (x >>= f).run u = (f a).run u₁ := by
  rw [StateT.run_bind, h]
  rfl

/-- Code that fails ends what comes after it. -/
theorem run_bind_error {e : Stop} (h : x.run u = .error e) : (x >>= f).run u = .error e := by
  rw [StateT.run_bind, h]
  rfl

/-- Code that succeeds has parts that succeed. -/
theorem run_bind_inv {c : β} (h : (x >>= f).run u = .ok (c, u₂)) :
    ∃ a u₁, x.run u = .ok (a, u₁) ∧ (f a).run u₁ = .ok (c, u₂) := by
  rw [StateT.run_bind] at h
  cases hx : x.run u with
  | error e =>
      rw [hx] at h
      cases h
  | ok p =>
      rw [hx] at h
      exact ⟨p.1, p.2, rfl, h⟩

end Bind

/-! ## The log area -/

/-- The header and the sectors of the log. -/
def logArea (start : Sector) (size : Int) (s : Sector) : Prop :=
  s = start ∨ ((s - start).toNat : Int) < size

instance (start : Sector) (size : Int) (s : Sector) : Decidable (logArea start size s) :=
  inferInstanceAs (Decidable (_ ∨ _))

/-- The sector of log block `i`. -/
def slotOf (start : Sector) (i : Nat) : Sector := start + BitVec.ofNat 32 (i + 1)

theorem LogState.slot_eq (log : LogState) (i : Nat) : log.slot i = slotOf log.start i := rfl

theorem toNat_slotOf_sub (start : Sector) {i : Nat} (h : i < LOGSIZE) :
    (slotOf start i - start).toNat = i + 1 := by
  rw [LOGSIZE] at h
  rw [slotOf]
  bv_omega

/-- The on-disk log as a redo log. -/
def layout (start : Sector) (size : Int) : Layout Sector Block where
  header := start
  slot := slotOf start
  cap := min LOGSIZE (size - 1).toNat
  area := logArea start size
  count b := (headN b).toNat
  target := headSector
  header_area := Or.inl rfl
  slot_area i hi := by
    right
    rw [toNat_slotOf_sub start (by omega)]
    omega
  slot_ne_header i hi he := by
    have hsub := toNat_slotOf_sub start (i := i) (by omega)
    rw [he, BitVec.sub_self] at hsub
    simp at hsub

theorem slotOf_inj {i j : Nat} (hi : i < LOGSIZE) (hj : j < LOGSIZE)
    (h : slotOf start i = slotOf start j) : i = j := by
  have hsub := toNat_slotOf_sub start hi
  rw [h, toNat_slotOf_sub start hj] at hsub
  omega

/-! ## The cache -/

@[simp] theorem fetch_disk : (m.fetch recycle s).disk = m.disk := by
  unfold Machine.fetch
  split <;> rfl

@[simp] theorem fetch_log : (m.fetch recycle s).log = m.log := by
  unfold Machine.fetch
  split <;> rfl

@[simp] theorem fetch_writes : (m.fetch recycle s).writes = m.writes := by
  unfold Machine.fetch
  split <;> rfl

/-- A buffer that holds what the disk holds does so after any `bread`. -/
theorem fetch_block (h : m.block t = m.disk t) : (m.fetch recycle s).block t = m.disk t := by
  unfold Machine.fetch
  cases hs : m.cache s with
  | some b => exact h
  | none =>
      by_cases hts : t = s
      · subst hts
        simp [Machine.block]
      · cases ht : m.cache t with
        | none => simp [Machine.block, hts, ht]
        | some b =>
            simp only [Machine.block, ht] at h
            by_cases hd : (recycle m.cache s t && !b.dirty) = true
            · simp [Machine.block, hts, ht, hd]
            · simp [Machine.block, hts, ht, hd, h]

/-- The log lies where `start` and `size` say, and the buffers of its area hold
what the disk holds. -/
structure Coherent (start : Sector) (size : Int) (m : Machine) : Prop where
  start_eq : m.log.start = start
  size_eq : m.log.size = size
  block_eq : ∀ s, logArea start size s → m.block s = m.disk s

theorem Coherent.fetch (h : Coherent start size m) :
    Coherent start size (m.fetch recycle s) where
  start_eq := by rw [fetch_log]; exact h.start_eq
  size_eq := by rw [fetch_log]; exact h.size_eq
  block_eq t ht := by rw [fetch_disk]; exact fetch_block (h.block_eq t ht)

theorem Coherent.write (h : Coherent start size m) {b : Block} :
    Coherent start size (m.write s b) where
  start_eq := h.start_eq
  size_eq := h.size_eq
  block_eq t ht := by
    have hb := h.block_eq t ht
    unfold Machine.block at hb
    by_cases hts : t = s
    · subst hts
      simp [Machine.block, Machine.write]
    · simp only [Machine.block, Machine.write, Function.update_of_ne hts]
      exact hb

/-- The buffer of a home sector may hold anything. -/
theorem Coherent.setDirty (h : Coherent start size m) (hs : ¬ logArea start size s) {b : Block} :
    Coherent start size (m.setDirty s b) where
  start_eq := h.start_eq
  size_eq := h.size_eq
  block_eq t ht := by
    have hts : t ≠ s := fun he => hs (he ▸ ht)
    have hb := h.block_eq t ht
    unfold Machine.block at hb
    simp only [Machine.block, Machine.setDirty, Function.update_of_ne hts]
    exact hb

@[simp] theorem setLh_disk {lh : LogHeader} : (m.setLh lh).disk = m.disk := rfl
@[simp] theorem setLh_cache {lh : LogHeader} : (m.setLh lh).cache = m.cache := rfl
@[simp] theorem setLh_writes {lh : LogHeader} : (m.setLh lh).writes = m.writes := rfl
@[simp] theorem setLh_lh {lh : LogHeader} : (m.setLh lh).log.lh = lh := rfl

/-- Changes of the other fields of the log. -/
theorem Coherent.congr (h : Coherent start size m) (hd : m₁.disk = m.disk)
    (hc : m₁.cache = m.cache) (hstart : m₁.log.start = m.log.start)
    (hsize : m₁.log.size = m.log.size) : Coherent start size m₁ where
  start_eq := hstart.trans h.start_eq
  size_eq := hsize.trans h.size_eq
  block_eq t ht := by
    have hb := h.block_eq t ht
    unfold Machine.block at hb ⊢
    rw [hd, hc]
    exact hb

theorem Coherent.setLh (h : Coherent start size m) {lh : LogHeader} :
    Coherent start size (m.setLh lh) := h.congr rfl rfl rfl rfl

/-- `m₁` comes from `m` by the sector writes `ws`. -/
structure Issues (ws : List (Sector × Block)) (m m₁ : Machine) : Prop where
  disk_eq : m₁.disk = replay ws m.disk
  writes_eq : m₁.writes = m.writes ++ ws

theorem Issues.refl (hd : m₁.disk = m.disk) (hw : m₁.writes = m.writes) : Issues [] m m₁ :=
  ⟨hd, by rw [hw, List.append_nil]⟩

theorem Issues.trans {ws vs : List (Sector × Block)} (h : Issues ws m m₁) (g : Issues vs m₁ m₂) :
    Issues (ws ++ vs) m m₂ where
  disk_eq := by rw [g.disk_eq, h.disk_eq, replay_append]
  writes_eq := by rw [g.writes_eq, h.writes_eq, List.append_assoc]

theorem issues_fetch_write {b : Block} :
    Issues [(t, b)] m ((m.fetch recycle s).write t b) := by
  refine ⟨?_, ?_⟩
  · simp [Machine.write]
  · simp [Machine.write]

/-! ## The header block -/

/-- The loop of `write_head` over the first `n` sectors. -/
theorem getLe_putSectors (f : Nat → Sector) (b : Block) : ∀ {n : Nat}, n ≤ LOGSIZE →
    getLe ((List.range n).foldl (fun b i => putLe b (4 + 4 * i) 4 (f i).toNat) b) 0 4 =
        getLe b 0 4 ∧
      ∀ i, i < n → getLe ((List.range n).foldl
        (fun b i => putLe b (4 + 4 * i) 4 (f i).toNat) b) (4 + 4 * i) 4 = (f i).toNat
  | 0, _ => ⟨rfl, by omega⟩
  | n + 1, h => by
      rw [LOGSIZE] at h
      obtain ⟨h0, hs⟩ := getLe_putSectors f b (n := n) (by rw [LOGSIZE]; omega)
      rw [List.range_succ, List.foldl_append, List.foldl_cons, List.foldl_nil]
      constructor
      · rw [getLe_putLe_of_disjoint _ (by omega) (by omega), h0]
      · intro i hi
        by_cases hin : i = n
        · subst hin
          exact getLe_putLe_of_lt _ (by omega) (f i).isLt
        · rw [getLe_putLe_of_disjoint _ (by omega) (by omega), hs i (by omega)]

/-- The count of a header block that `write_head` filled in. -/
theorem headN_putHead {lh : LogHeader} {n : Nat} (hn : lh.n = n) (h : n ≤ LOGSIZE) (b : Block) :
    headN (putHead lh b) = n := by
  have hbound : n ≤ 10 := h
  rw [putHead, headN, hn, Int.toNat_natCast, (getLe_putSectors lh.sector _ h).1,
    getLe_putLe_of_lt b (by omega) (BitVec.isLt _), BitVec.ofNat_toNat, BitVec.setWidth_eq,
    BitVec.ofInt_natCast, BitVec.toInt_eq_toNat_of_lt (by rw [BitVec.toNat_ofNat]; omega),
    BitVec.toNat_ofNat]
  omega

/-- Its sectors. -/
theorem headSector_putHead {lh : LogHeader} {n : Nat} (hn : lh.n = n) (h : n ≤ LOGSIZE)
    (b : Block) {i : Nat} (hi : i < n) : headSector (putHead lh b) i = lh.sector i := by
  rw [putHead, headSector, hn, Int.toNat_natCast, (getLe_putSectors lh.sector _ h).2 i hi,
    BitVec.ofNat_toNat, BitVec.setWidth_eq]

/-! ## The functions -/

variable (recycle)

/-- `write_head` writes the header, and nothing else. -/
theorem writeHead_run (h : Coherent start size m) (hn : m.log.lh.n ≤ LOGSIZE) :
    ∃ m₁, (writeHead recycle).run m = .ok ((), m₁) ∧ Coherent start size m₁ ∧
      m₁.log = m.log ∧ Issues [(start, putHead m.log.lh (m.disk start))] m m₁ := by
  have hidx : m.log.lh.n.toNat - 1 < LOGSIZE := by
    rw [LOGSIZE] at hn ⊢
    omega
  refine ⟨(m.fetch recycle start).write start (putHead m.log.lh (m.disk start)), ?_,
    h.fetch.write, ?_, issues_fetch_write⟩
  · have hblock := h.block_eq start (Or.inl rfl)
    rw [writeHead, run_bind_ok (a := m) rfl, run_bind_ok bread_run, checkIndex_of_lt hidx,
      h.start_eq, hblock]
    rfl
  · simp [Machine.write]

/-- The loop of `install_trans` over a list of log blocks. -/
theorem install_loop {log : LogState} (hlog : log.start = start) : ∀ {l : List Nat} {m : Machine},
    Coherent start size m → m.log = log →
    (∀ i ∈ l, i < (layout start size).cap ∧ ¬ logArea start size (log.lh.sector i)) →
    ∃ m₁, (l.forM fun tail => do
        checkIndex tail
        let lbuf ← bread recycle (log.slot tail)
        let _ ← bread recycle (log.lh.sector tail)
        bwrite (log.lh.sector tail) lbuf : Kernel Unit).run m = .ok ((), m₁) ∧
      Coherent start size m₁ ∧ m₁.log = log ∧
      Issues (l.map fun i => (log.lh.sector i, m.disk (slotOf start i))) m m₁
  | [], m, h, hm, _ => ⟨m, rfl, h, hm, Issues.refl rfl rfl⟩
  | i :: l, m, h, hm, hl => by
      obtain ⟨hcap, hhome⟩ := hl i (List.mem_cons_self ..)
      have hi : i < LOGSIZE := Nat.lt_of_lt_of_le hcap (Nat.min_le_left _ _)
      have hslot := (layout start size).slot_area i hcap
      have hblock : m.block (log.slot i) = m.disk (slotOf start i) := by
        rw [LogState.slot_eq, hlog]
        exact h.block_eq _ hslot
      have hc : Coherent start size
          (((m.fetch recycle (log.slot i)).fetch recycle (log.lh.sector i)).write
            (log.lh.sector i) (m.disk (slotOf start i))) := h.fetch.fetch.write
      obtain ⟨m₁, hrun, hcoh, hlog₁, hiss⟩ := install_loop hlog (l := l) hc
        (by simp [Machine.write, hm]) (fun j hj => hl j (List.mem_cons_of_mem _ hj))
      refine ⟨m₁, ?_, hcoh, hlog₁, ?_⟩
      · have hbody : (do
            checkIndex i
            let lbuf ← bread recycle (log.slot i)
            let _ ← bread recycle (log.lh.sector i)
            bwrite (log.lh.sector i) lbuf : Kernel Unit).run m =
              .ok ((), ((m.fetch recycle (log.slot i)).fetch recycle (log.lh.sector i)).write
                (log.lh.sector i) (m.disk (slotOf start i))) := by
          rw [checkIndex_of_lt hi, pure_bind, run_bind_ok bread_run, run_bind_ok bread_run,
            bwrite_run, hblock]
        rw [List.forM_eq_forM, List.forM_cons, run_bind_ok hbody]
        exact hrun
      · have hfirst : Issues [(log.lh.sector i, m.disk (slotOf start i))] m
            (((m.fetch recycle (log.slot i)).fetch recycle (log.lh.sector i)).write
              (log.lh.sector i) (m.disk (slotOf start i))) :=
          ⟨by simp [Machine.write], by simp [Machine.write]⟩
        have hall := hfirst.trans hiss
        have hsame : ∀ j ∈ l, (((m.fetch recycle (log.slot i)).fetch recycle
            (log.lh.sector i)).write (log.lh.sector i) (m.disk (slotOf start i))).disk
              (slotOf start j) = m.disk (slotOf start j) := by
          intro j hj
          have hjslot := (layout start size).slot_area j (hl j (List.mem_cons_of_mem _ hj)).1
          have hne : slotOf start j ≠ log.lh.sector i := fun he => hhome (he ▸ hjslot)
          simp [Machine.write, Function.update_of_ne hne]
        rw [List.map_congr_left fun j hj => by rw [hsame j hj]] at hall
        exact hall

/-- `install_trans` copies the log blocks to their home sectors. -/
theorem installTrans_run (h : Coherent start size m) {n : Nat} (hn : m.log.lh.n.toNat = n)
    (hcap : n ≤ (layout start size).cap)
    (hhome : ∀ i, i < n → ¬ logArea start size (m.log.lh.sector i)) :
    ∃ m₁, (installTrans recycle).run m = .ok ((), m₁) ∧ Coherent start size m₁ ∧
      m₁.log = m.log ∧
      Issues ((List.range n).map fun i => (m.log.lh.sector i, m.disk (slotOf start i))) m m₁ := by
  rw [installTrans, run_bind_ok (a := m) rfl, hn]
  apply install_loop recycle h.start_eq h rfl
  intro i hi
  have hlt : i < n := List.mem_range.mp hi
  exact ⟨by omega, hhome i hlt⟩

/-- The loop of `read_head`. -/
theorem setSector_loop {g : Nat → Sector} : ∀ {l : List Nat} {m : Machine},
    (∀ i ∈ l, i < LOGSIZE) → ∃ f, (l.forM fun i => setSector i (g i)).run m =
        .ok ((), m.setLh { n := m.log.lh.n, sector := f }) ∧
      ∀ i, f i = if i ∈ l then g i else m.log.lh.sector i
  | [], m, _ => ⟨m.log.lh.sector, rfl, fun i => by simp⟩
  | i :: l, m, h => by
      obtain ⟨f, hrun, hf⟩ := setSector_loop (g := g) (l := l)
        (m := m.setLh { n := m.log.lh.n, sector := Function.update m.log.lh.sector i (g i) })
        (fun j hj => h j (List.mem_cons_of_mem _ hj))
      refine ⟨f, ?_, ?_⟩
      · rw [List.forM_eq_forM, List.forM_cons,
          run_bind_ok (setSector_run (h i (List.mem_cons_self ..)))]
        exact hrun
      · intro j
        rw [hf j, setLh_lh]
        by_cases hji : j = i
        · subst hji
          simp
        · simp [hji]

/-- `read_head` where the table has room for the entries of the header. -/
theorem readHead_eq {b : Block} (hb : m.block m.log.start = b) (hcap : (headN b).toNat ≤ LOGSIZE) :
    ∃ f, (readHead recycle).run m =
        .ok ((), (m.fetch recycle m.log.start).setLh { n := headN b, sector := f }) ∧
      ∀ i, i < (headN b).toNat → f i = headSector b i := by
  obtain ⟨f, hrun, hf⟩ := setSector_loop (g := headSector b) (l := List.range (headN b).toNat)
    (m := (m.fetch recycle m.log.start).setLh
      { n := headN b, sector := (m.fetch recycle m.log.start).log.lh.sector })
    (fun i hi => Nat.lt_of_lt_of_le (List.mem_range.mp hi) hcap)
  refine ⟨f, ?_, fun i hi => (hf i).trans (if_pos (List.mem_range.mpr hi))⟩
  rw [readHead, run_bind_ok (a := m) rfl, run_bind_ok bread_run, run_bind_ok setN_run, hb]
  exact hrun

/-- `read_head` reads the entries that the header on the disk names. -/
theorem readHead_run (h : Coherent start size m) (hcap : (headN (m.disk start)).toNat ≤ LOGSIZE) :
    ∃ m₁, (readHead recycle).run m = .ok ((), m₁) ∧ Coherent start size m₁ ∧
      Issues [] m m₁ ∧ m₁.log.busy = m.log.busy ∧ m₁.log.lh.n = headN (m.disk start) ∧
      ∀ i, i < (headN (m.disk start)).toNat →
        m₁.log.lh.sector i = headSector (m.disk start) i := by
  have hblock : m.block m.log.start = m.disk start := by
    rw [h.start_eq]
    exact h.block_eq start (Or.inl rfl)
  obtain ⟨f, hrun, hf⟩ := readHead_eq recycle hblock hcap
  refine ⟨_, hrun, h.fetch.setLh, Issues.refl fetch_disk fetch_writes, ?_, rfl, hf⟩
  show (m.fetch recycle m.log.start).log.busy = m.log.busy
  rw [fetch_log]

/-- An erased header. -/
theorem count_eq_zero {b : Block} (h : headN b = 0) : (layout start size).count b = 0 := by
  show (headN b).toNat = 0
  rw [h]
  rfl

/-- The end that a commit and a recovery share: install, then erase the header.
Together they are the redo writes of the log on the disk. -/
theorem redo_run {P : Sector → Block → Prop} (h : Coherent start size m)
    (hwf : (layout start size).Wf P m.disk) (hn : m.log.lh.n = headN (m.disk start))
    (hsec : ∀ i, i < (headN (m.disk start)).toNat →
      m.log.lh.sector i = headSector (m.disk start) i) :
    ∃ m₁ h₀, (do installTrans recycle; setN 0; writeHead recycle : Kernel Unit).run m =
        .ok ((), m₁) ∧ Coherent start size m₁ ∧ m₁.log.lh.n = 0 ∧ m₁.log.busy = m.log.busy ∧
      headN h₀ = 0 ∧ Issues ((layout start size).redo m.disk h₀) m m₁ := by
  have hent : (layout start size).entries m.disk =
      (List.range (headN (m.disk start)).toNat).map
        fun i => (m.log.lh.sector i, m.disk (slotOf start i)) := by
    apply List.map_congr_left
    intro i hi
    rw [hsec i (List.mem_range.mp hi)]
    rfl
  obtain ⟨m₁, hrun₁, hcoh₁, hlog₁, hiss₁⟩ := installTrans_run recycle h
    (congrArg Int.toNat hn) hwf.fits (by
      intro i hi
      rw [hsec i hi]
      exact hwf.home i hi)
  have hcoh₂ : Coherent start size (m₁.setLh { n := 0, sector := m₁.log.lh.sector }) := hcoh₁.setLh
  obtain ⟨m₃, hrun₃, hcoh₃, hlog₃, hiss₃⟩ := writeHead_run recycle hcoh₂
    (Int.natCast_nonneg LOGSIZE)
  refine ⟨m₃, putHead { n := 0, sector := m₁.log.lh.sector } (m₁.disk start), ?_, hcoh₃, ?_, ?_,
    ?_, ?_⟩
  · rw [run_bind_ok hrun₁, run_bind_ok setN_run]
    exact hrun₃
  · rw [hlog₃, setLh_lh]
  · rw [hlog₃, ← hlog₁]
    rfl
  · exact headN_putHead (n := 0) rfl (Nat.zero_le _) _
  · rw [Layout.redo, hent]
    exact hiss₁.trans ⟨hiss₃.disk_eq, hiss₃.writes_eq⟩

/-- The super block says where the log is. -/
def LogAt (start : Sector) (size : Int) (sb : Block) : Prop :=
  sbSize sb - sbNlog sb = start ∧ (sbNlog sb).toInt = size

instance (start : Sector) (size : Int) (sb : Block) : Decidable (LogAt start size sb) :=
  inferInstanceAs (Decidable (_ ∧ _))

/-- `initlog` on a disk with a well-formed log issues the redo writes. -/
theorem initlog_run {P : Sector → Block → Prop} {d : Disk} (hsb : LogAt start size (d 1))
    (hwf : (layout start size).Wf P d) :
    ∃ m h₀, (initlog recycle).run (boot d) = .ok ((), m) ∧ Coherent start size m ∧
      m.log.busy = false ∧ m.log.lh.n = 0 ∧ headN h₀ = 0 ∧
      m.writes = (layout start size).redo d h₀ ∧
      m.disk = replay ((layout start size).redo d h₀) d := by
  have hboot : Coherent start size (((boot d).fetch recycle 1).placeLog (d 1)) := by
    refine ⟨hsb.1, hsb.2, fun s _ => ?_⟩
    show ((boot d).fetch recycle 1).block s = ((boot d).fetch recycle 1).disk s
    rw [fetch_disk]
    exact fetch_block rfl
  have hdboot : (((boot d).fetch recycle 1).placeLog (d 1)).disk = d := fetch_disk
  have hbusy : (((boot d).fetch recycle 1).placeLog (d 1)).log.busy = false := by
    show ((boot d).fetch recycle 1).log.busy = false
    rw [fetch_log]
    rfl
  obtain ⟨m₁, hrun₁, hcoh₁, hiss₁, hbusy₁, hn₁, hsec₁⟩ := readHead_run recycle hboot
    (by rw [hdboot]; exact Nat.le_trans hwf.fits (Nat.min_le_left _ _))
  have hd₁ : m₁.disk = d := hiss₁.disk_eq.trans hdboot
  rw [hdboot] at hn₁ hsec₁
  obtain ⟨m₂, h₀, hrun₂, hcoh₂, hn₂, hbusy₂, herased, hiss₂⟩ := redo_run recycle hcoh₁
    (hd₁.symm ▸ hwf) (hd₁.symm ▸ hn₁) (hd₁.symm ▸ hsec₁)
  rw [hd₁] at hiss₂
  refine ⟨m₂, h₀, ?_, hcoh₂, hbusy₂.trans (hbusy₁.trans hbusy), hn₂, herased, ?_, ?_⟩
  · have hsmall : ¬ 4 + 4 * LOGSIZE ≥ BSIZE := by decide
    have hplace : (modify (Machine.placeLog (d 1)) : Kernel Unit).run ((boot d).fetch recycle 1) =
        .ok ((), ((boot d).fetch recycle 1).placeLog (d 1)) := rfl
    have hsb₁ : (boot d).block 1 = d 1 := rfl
    rw [initlog, if_neg hsmall]
    beta_reduce
    rw [run_bind_ok bread_run, hsb₁, run_bind_ok hplace, recoverFromLog, run_bind_ok hrun₁]
    exact hrun₂
  · have hwboot : (((boot d).fetch recycle 1).placeLog (d 1)).writes = [] := fetch_writes
    rw [hiss₂.writes_eq, hiss₁.writes_eq, hwboot]
    rfl
  · rw [hiss₂.disk_eq, hd₁]

end Xv6Arm.Log
