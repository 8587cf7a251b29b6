import Xv6Arm.Blocks.Calls
import Xv6Arm.Log.Limits

/-!
# Crashes of the file system

The kernel runs system calls on an image of `mkfs`, and the log writes the blocks of
their transactions.  After a crash at any sector write, and any number of crashes during
recovery, a reader finds the inodes that the specification names after one of the
transactions: the last one that committed (`recovers_committed`).

The transactions of calls that do one operation, and all those of `filewrite`, fit into
the log (`calls_fit_log`).
-/

namespace Xv6Arm.Blocks

open Bytes Fs Mkfs Fallible RedoLog

variable {Z : Zone} {s : Core} {A A₀ : Files} {As : List Files} {fs : Nat → File}
  {disk : Image} {Ts : List (List (Nat × Block))}

/-! ## Sectors -/

/-- What a transaction of the log is for the blocks that a call logged. -/
def toTransaction (T : List (Nat × Block)) : Log.Transaction :=
  T.map fun w => (BitVec.ofNat 32 w.1, w.2)

/-- The image on a disk. -/
def imageOf (d : Log.Disk) : Image := fun b => d (BitVec.ofNat 32 b)

theorem flatten_toTransaction (Ts : List (List (Nat × Block))) :
    (Ts.map toTransaction).flatten = toTransaction Ts.flatten := by
  unfold toTransaction
  rw [List.map_flatten]

/-- Writes on the disk are those on the image. -/
theorem replay_toTransaction {d : Log.Disk} {T : List (Nat × Block)} {b : Nat} (hb : b < 2 ^ 32)
    (hT : ∀ w ∈ T, w.1 < 2 ^ 32) (hd : imageOf d b = disk b) :
    imageOf (replay (toTransaction T) d) b = replay T disk b := by
  refine replay_map (BitVec.ofNat 32) (fun w hw heq => ?_) hd
  have hval := congrArg BitVec.toNat heq
  rwa [BitVec.toNat_ofNat, BitVec.toNat_ofNat, Nat.mod_eq_of_lt (hT w hw),
    Nat.mod_eq_of_lt hb] at hval

/-! ## Transactions -/

theorem Journal.home (h : Journal Z disk Ts As) : ∀ T ∈ Ts, ∀ w ∈ T, Loggable Z w.1 := by
  induction h with
  | nil => exact fun T hT => absurd hT List.not_mem_nil
  | cons hhome _ _ _ ih =>
    intro T hT
    rcases List.mem_cons.mp hT with rfl | hT
    · exact hhome
    · exact ih T hT

/-- The volume after the first `j` transactions. -/
theorem Journal.take (h : Journal Z disk Ts As) :
    ∀ {s₀ : Core} {A₀ : Files} {fs₀ : Nat → File}, Holds Z s₀ A₀ fs₀ → s₀.vol.disk = disk →
    ∀ j, j ≤ Ts.length → ∃ s A fs, (A₀ :: As)[j]? = some A ∧ Holds Z s A fs ∧
      s.vol.disk = replay (Ts.take j).flatten disk := by
  induction h with
  | nil =>
    intro s₀ A₀ fs₀ h₀ hdisk j hj
    obtain rfl : j = 0 := Nat.le_zero.mp hj
    exact ⟨s₀, A₀, fs₀, rfl, h₀, hdisk⟩
  | cons _ hs hs' _ ih =>
    intro s₀ A₀ fs₀ h₀ hdisk j hj
    cases j with
    | zero => exact ⟨s₀, A₀, fs₀, rfl, h₀, hdisk⟩
    | succ j =>
      obtain ⟨s, A, fs, hA, hs, hd⟩ := ih hs hs' j (Nat.le_of_succ_le_succ hj)
      refine ⟨s, A, fs, hA, hs, ?_⟩
      rw [List.take_succ_cons, List.flatten_cons, replay_append]
      exact hd

/-- The first committed transactions are the first transactions. -/
theorem exists_effective_take (Ts : List Log.Transaction) : ∀ c, ∃ j, j ≤ Ts.length ∧
    Log.effective (Ts.take j) = (Log.effective Ts).take c := by
  induction Ts with
  | nil => exact fun c => ⟨0, Nat.le_refl 0, List.take_nil.symm⟩
  | cons T Ts ih =>
    intro c
    by_cases hT : T = []
    · subst hT
      obtain ⟨j, hj, heq⟩ := ih c
      exact ⟨j + 1, Nat.succ_le_succ hj, heq⟩
    · have hcons : ∀ Us, Log.effective (T :: Us) = T :: Log.effective Us := fun Us =>
        List.filter_cons_of_pos (by simpa using hT)
      cases c with
      | zero => exact ⟨0, Nat.zero_le _, rfl⟩
      | succ c =>
        obtain ⟨j, hj, heq⟩ := ih c
        refine ⟨j + 1, Nat.succ_le_succ hj, ?_⟩
        rw [List.take_succ_cons, hcons, hcons, List.take_succ_cons, heq]

/-! ## The log of an image -/

/-- What may be logged lies between the super block and the log. -/
theorem Loggable.bounds {x : Nat} (h : Loggable (mkfsZone (size - nlog)) x) :
    1 < x ∧ x < size - nlog := by
  show 1 < x ∧ x < 1014
  rcases h with ⟨b, hb, rfl⟩ | ⟨i, hi, rfl⟩ | ⟨hlt, hnot⟩
  · have hb : b < 1024 := hb
    have hblock : BBLOCK b (mkfsZone (size - nlog)).sb.ninodes = 28 := by
      show b / 4096 + 25 + 3 = 28
      omega
    rw [hblock]
    decide
  · have hi : i < 200 := hi
    have hblock : IBLOCK i = i / 8 + 2 := rfl
    omega
  · have hlt : x < 1014 := hlt
    have hnot : ¬ x < 29 := hnot
    omega

/-- Only the blocks before the limit matter. -/
theorem Holds.of_disk {lim : Nat} (h : Holds (mkfsZone lim) s A fs) (hlim : usedBefore ≤ lim)
    (hsame : ∀ b, b < lim → disk b = s.vol.disk b) :
    Holds (mkfsZone lim) (Core.boot disk) A fs where
  fixed := h.fixed
  super := (superblock_congr (hsame 1 (Nat.lt_of_lt_of_le (by decide) hlim))).trans h.super
  owns i hi := by
    have howns := h.owns i hi
    have hbelow : ∀ x, (mkfsZone lim).taken x → x < lim := fun x hx =>
      Nat.lt_of_lt_of_le hx hlim
    refine ⟨howns.uses.congr (h.fixed.others fs i) ?_ fun x hx => ?_, howns.ind_ne_zero,
      filled_congr howns.filled fun x hx => hsame x (howns.uses.own x hx).1⟩
    · exact hsame 1 (hbelow 1 h.fixed.super)
    · exact hsame x (hbelow x (h.fixed.bitmap x hx))
  lies i hi := by
    have hlie := h.lies i hi
    have hblock : disk (IBLOCK i) = s.vol.disk (IBLOCK i) :=
      hsame _ (Nat.lt_of_lt_of_le (h.fixed.inodes i hi) hlim)
    refine ⟨hlie.wf, hlie.data, hlie.short, ?_, hlie.unused⟩
    rw [← hlie.inode]
    show Inode.load i (slice (disk (IBLOCK i)) _ 64) = Inode.load i (slice _ _ 64)
    rw [hblock]
  cache _ _ h := by cases h

section Machine

variable {m : Log.Machine} {img : Image}

/-- A machine that has booted from an image knows where the log is. -/
theorem booted_place (hm : Log.Booted m) (hdisk : ∀ b, b < size - nlog → imageOf m.disk b = img b)
    (hsuper : superblock img = (mkfsZone (size - nlog)).sb) :
    m.log.start = 1014 ∧ m.log.size = 10 := by
  have hone : m.disk 1 = img 1 := hdisk 1 (by decide)
  have hsize : getLe (img 1) 0 4 = 1024 := congrArg Superblock.size hsuper
  have hnlog : getLe (img 1) 12 4 = 10 := congrArg Superblock.nlog hsuper
  obtain ⟨hstart, hlen⟩ := hm.place
  rw [Log.sbSize, Log.sbNlog, hone, hsize, hnlog] at hstart
  rw [Log.sbNlog, hone, hnlog] at hlen
  exact ⟨hstart.symm, hlen.symm⟩

/-- The log lies behind the blocks of files. -/
theorem not_logArea {b : Nat} (hb : b < size - nlog) : ¬ Log.logArea 1014 10 (BitVec.ofNat 32 b) := by
  have hb : b < 1014 := hb
  rintro (heq | hlt)
  · bv_omega
  · have hfar : 10 ≤ (BitVec.ofNat 32 b - 1014).toNat := by bv_omega
    omega

/-- The transactions of calls keep out of the log and leave the super block alone. -/
theorem Journal.outside (h : Journal (mkfsZone (size - nlog)) disk Ts As) :
    ∀ T ∈ Ts.map toTransaction, ∀ w ∈ T, ¬ Log.logArea 1014 10 w.1 ∧
      Log.KeepsLog 1014 10 w.1 w.2 := by
  intro T hT w hw
  obtain ⟨T, hT', rfl⟩ := List.mem_map.mp hT
  obtain ⟨w, hw', rfl⟩ := List.mem_map.mp hw
  obtain ⟨hlow, hhigh⟩ := (h.home T hT' w hw').bounds
  refine ⟨not_logArea hhigh, fun heq => ?_⟩
  have hhigh : w.1 < 1014 := hhigh
  have hval := congrArg BitVec.toNat heq
  rw [BitVec.toNat_ofNat, Nat.mod_eq_of_lt (by omega)] at hval
  have hval : w.1 = 1 := hval
  omega

/-- The blocks of transactions are numbers of sectors. -/
theorem Journal.flatten_lt (h : Journal (mkfsZone (size - nlog)) disk Ts As) (j : Nat) :
    ∀ w ∈ (Ts.take j).flatten, w.1 < 2 ^ 32 := by
  intro w hw
  obtain ⟨T, hT, hw⟩ := List.mem_flatten.mp hw
  have hbound : w.1 < 1014 := (h.home T (List.mem_of_mem_take hT) w hw).bounds.2
  omega

/-- Every sector before the log after a crash and recovery. -/
theorem recovered_replay {recycle : Log.Recycle} {m₁ : Log.Machine} {Ts : List Log.Transaction}
    (hm : Log.Booted m) (hstart : m.log.start = 1014) (hsize : m.log.size = 10)
    (hTs : ∀ T ∈ Ts, ∀ w ∈ T, ¬ Log.logArea 1014 10 w.1 ∧ Log.KeepsLog 1014 10 w.1 w.2)
    (hrun : (Log.transactions recycle Ts).run m = .ok ((), m₁)) (n : Nat) (ns : List Nat) :
    ∃ d j, Log.reboots recycle ns (replay (m₁.writes.take n) m.disk) = .ok d ∧ j ≤ Ts.length ∧
      (Log.effective (Ts.take j)).length = Log.commitCount m.log.start (m₁.writes.take n) ∧
      ∀ s, ¬ Log.logArea 1014 10 s → d s = replay (Ts.take j).flatten m.disk s := by
  have hready := hm.ready
  rw [hstart, hsize] at hready
  obtain ⟨ws, hiss, hhist⟩ := hready.transactions_run hTs hrun
  have hws : m₁.writes = ws := by rw [hiss.writes_eq, hm.writes_eq, List.nil_append]
  obtain ⟨d, hreb, hd⟩ := Log.reboots_run recycle (by decide +kernel) ns (hhist.wf n)
  have hle := Layout.commits_take_le (L := Log.layout 1014 10) ws n
  rw [hhist.commits_eq, Log.commits_layout] at hle
  obtain ⟨j, hj, htake⟩ := exists_effective_take Ts (Log.commitCount 1014 (ws.take n))
  refine ⟨d, j, by rwa [hws], hj, ?_, fun s hs => ?_⟩
  · rw [htake, hstart, hws, List.length_take, Nat.min_eq_left hle]
  · have hflat : (Log.effective (Ts.take j)).flatten = (Ts.take j).flatten :=
      List.flatten_filter_not_isEmpty
    rw [hd s hs, hhist.crash n s hs, Log.commits_layout, ← htake, hflat]

/-- A machine that has booted from an image. -/
def bootMachine (img : Image) : Log.Machine where
  disk := fun s => if s.toNat < size - nlog then img s.toNat else zeroBuf 512
  cache := fun _ => none
  log := { start := 1014, size := 10, busy := false, lh := { n := 0, sector := fun _ => 0 } }
  writes := []

theorem bootMachine_booted {lim : Nat} (hsuper : superblock img = (mkfsZone lim).sb) :
    Log.Booted (bootMachine img) where
  place := by
    have hsize : getLe (img 1) 0 4 = 1024 := congrArg Superblock.size hsuper
    have hnlog : getLe (img 1) 12 4 = 10 := congrArg Superblock.nlog hsuper
    show Log.LogAt 1014 10 (img 1)
    rw [Log.LogAt, Log.sbSize, Log.sbNlog, hsize, hnlog]
    decide
  cached _ _ := rfl
  busy := rfl
  n_eq := rfl
  erased := by
    show Log.headN (zeroBuf 512) = 0
    decide +kernel
  writes_eq := rfl

theorem imageOf_bootMachine {b : Nat} (hb : b < size - nlog) :
    imageOf (bootMachine img).disk b = img b := by
  have hlt : b < 1014 := hb
  have hval : (BitVec.ofNat 32 b).toNat = b := by
    rw [BitVec.toNat_ofNat]
    exact Nat.mod_eq_of_lt (by omega)
  show (if (BitVec.ofNat 32 b).toNat < size - nlog then img (BitVec.ofNat 32 b).toNat
    else zeroBuf 512) = img b
  rw [hval, if_pos hb]

end Machine

/-! ## The size of transactions -/

section Fits

variable {m : Log.Machine} {start : Log.Sector} {length : Int} {P : Log.Sector → Block → Prop}

/-- `log_write` of blocks for which the log has room. -/
theorem logWrites_ok (recycle : Log.Recycle) : ∀ {T : Log.Transaction} {l : List Log.Sector}
    {m : Log.Machine}, Log.Recorded l m.log →
    ((l ++ T.map Prod.fst).toFinset.card : Int) < Log.capacity m.log →
    ∃ m₁, (T.forM fun w => Log.logWrite recycle w.1 w.2).run m = .ok ((), m₁)
  | [], _, m, _, _ => ⟨m, rfl⟩
  | w :: T, l, m, h, hroom => by
    have hcard : l.toFinset.card ≤ (l ++ (w :: T).map Prod.fst).toFinset.card :=
      Finset.card_le_card fun s hs => by
        rw [List.mem_toFinset] at hs ⊢
        exact List.mem_append_left _ hs
    have hrun := h.logWrite_ok (by omega) recycle w.1 w.2
    have hcap : Log.capacity (m.logged recycle w.1 w.2).log = Log.capacity m.log := by
      rw [Log.capacity, Log.capacity, Log.logged_log]
    have hlogged : Log.Recorded (l ++ [w.1]) (m.logged recycle w.1 w.2).log := h.logged w.1 w.2
    obtain ⟨m₁, hm₁⟩ := logWrites_ok recycle (T := T) hlogged (by
      rw [hcap, List.append_assoc]
      exact hroom)
    refine ⟨m₁, ?_⟩
    rw [List.forM_eq_forM, List.forM_cons, Log.run_bind_ok hrun]
    exact hm₁

/-- A transaction of few sectors does not panic. -/
theorem transaction_ok (recycle : Log.Recycle) (h : Log.Ready start length P m)
    {T : Log.Transaction} (hT : ∀ w ∈ T, ¬ Log.logArea start length w.1 ∧ P w.1 w.2)
    (hcard : ((T.map Prod.fst).toFinset.card : Int) < Log.capacity m.log) :
    ∃ m₁, (Log.transaction recycle T).run m = .ok ((), m₁) := by
  have hrec : Log.Recorded [] { m.log with busy := true } :=
    ⟨rfl, h.n_eq.ge, by simp [Log.LogHeader.table, h.n_eq], by simp [Log.LogHeader.table, h.n_eq]⟩
  obtain ⟨m₂, hm₂⟩ := logWrites_ok recycle
    (m := { m with log := { m.log with busy := true } }) hrec hcard
  have hlog := h.logging.run (fun w hw => (hT w hw).1) hm₂
  rw [Log.transaction, Log.run_bind_ok h.beginTrans_run]
  by_cases hne : T = []
  · subst hne
    have hidle : ¬ (0 : Int) < m.log.lh.n := by
      rw [h.n_eq]
      decide
    refine ⟨{ m with log := { m.log with busy := false } }, ?_⟩
    rw [List.forM_eq_forM, List.forM_nil, pure_bind, Log.commitTrans,
      Log.run_bind_ok (a := { m with log := { m.log with busy := true } }) rfl, if_neg hidle]
    rfl
  · have htable : ∀ e ∈ absorbAll [] T, ¬ Log.logArea start length e.1 ∧ P e.1 e.2 := fun e he =>
      (mem_absorbAll he).elim (hT e) fun hnil => absurd hnil List.not_mem_nil
    have hpos : 0 < (absorbAll [] T).length := by
      cases T with
      | nil => exact absurd rfl hne
      | cons w T => exact length_le_absorbAll T [(w.1, w.2)]
    obtain ⟨m₃, -, hcommit, -⟩ := hlog.commit recycle h.store htable hpos
    exact ⟨m₃, (Log.run_bind_ok hm₂).trans hcommit⟩

/-- Transactions of few sectors do not panic. -/
theorem transactions_ok (recycle : Log.Recycle) : ∀ {Ts : List Log.Transaction} {m : Log.Machine},
    Log.Ready start length P m →
    (∀ T ∈ Ts, ∀ w ∈ T, ¬ Log.logArea start length w.1 ∧ P w.1 w.2) →
    (∀ T ∈ Ts, ((T.map Prod.fst).toFinset.card : Int) < min (Log.LOGSIZE : Int) (length - 1)) →
    ∃ m₁, (Log.transactions recycle Ts).run m = .ok ((), m₁)
  | [], m, _, _, _ => ⟨m, rfl⟩
  | T :: Ts, m, h, hT, hcard => by
    have hroom := hcard T List.mem_cons_self
    rw [← h.coherent.size_eq] at hroom
    obtain ⟨m₁, hm₁⟩ := transaction_ok recycle h (hT T List.mem_cons_self) hroom
    have hready : Log.Ready start length P m₁ := by
      by_cases hne : T = []
      · subst hne
        exact (h.transaction_nil hm₁).1
      · obtain ⟨-, -, hready, -⟩ := h.transaction_cons hne (hT T List.mem_cons_self) hm₁
        exact hready
    obtain ⟨m₂, hm₂⟩ := transactions_ok recycle hready
      (fun U hU => hT U (List.mem_cons_of_mem _ hU)) fun U hU => hcard U (List.mem_cons_of_mem _ hU)
    refine ⟨m₂, ?_⟩
    rw [Log.transactions, List.forM_eq_forM, List.forM_cons, Log.run_bind_ok hm₁]
    exact hm₂

end Fits

/-- The distinct sectors of a transaction are no more than its distinct blocks. -/
theorem card_toTransaction (T : List (Nat × Block)) :
    ((toTransaction T).map Prod.fst).toFinset.card ≤ (T.map Prod.fst).toFinset.card := by
  have himage : ((toTransaction T).map Prod.fst).toFinset =
      (T.map Prod.fst).toFinset.image (BitVec.ofNat 32) := by
    ext s
    simp [toTransaction]
  rw [himage]
  exact Finset.card_image_le

/-- The log runs the transactions of calls that do one operation each, and those of `filewrite` with
any number of bytes. -/
theorem Holds.log_runs {img : Image} (h : Holds (mkfsZone (size - nlog)) (Core.boot img) A fs)
    {m : Log.Machine} (hm : Log.Booted m) (hdisk : ∀ b, b < size - nlog → imageOf m.disk b = img b)
    (devsw : Devsw) {t t' : Nat → OpenFile} {calls : List Call} (hsmall : ∀ call ∈ calls, call.Small)
    (hcalls : AllowedCalls ninodes (size - nlog - usedBefore) calls (A, t))
    {rs : List (List Result)} {A' : Files}
    (hspec : specCalls ninodes (size - nlog - usedBefore) calls (A, t) = .ok (rs, A', t'))
    (recycle : Log.Recycle) :
    ∃ k Ts m₁, (Blocks.runCalls devsw calls).run ⟨Core.boot img, t, []⟩ = .ok (rs, k) ∧ k.done = Ts ∧
      Journal (mkfsZone (size - nlog)) img Ts
        (statesCalls ninodes (size - nlog - usedBefore) calls (A, t)) ∧
      k.core.vol.disk = replay Ts.flatten img ∧
      (Log.transactions recycle (Ts.map toTransaction)).run m = .ok ((), m₁) := by
  obtain ⟨hstart, hsize⟩ := booted_place hm hdisk h.super
  rw [← room_mkfsZone] at hcalls hspec ⊢
  obtain ⟨k, hrun, -, fs, Ts, -, hdone, hjournal, hend, hcard⟩ :=
    (h.runCalls (k := ⟨Core.boot img, t, []⟩) devsw calls hcalls).1 rs A' t' hspec
  rw [List.nil_append] at hdone
  have hready := hm.ready
  rw [hstart, hsize] at hready
  obtain ⟨m₁, hm₁⟩ := transactions_ok recycle hready hjournal.outside fun T hT => by
    obtain ⟨T, hT', rfl⟩ := List.mem_map.mp hT
    have hle := Nat.le_trans (card_toTransaction T) (hcard hsmall (by decide) T hT')
    show ((_ : Nat) : Int) < 9
    omega
  exact ⟨k, Ts, m₁, hrun, hdone, hjournal, hend, hm₁⟩

theorem writeEntry_small : ∀ call ∈ writeEntry, call.Small :=
  List.forall_mem_cons.mpr ⟨trivial, List.forall_mem_singleton.mpr trivial⟩

/-! ## Recovery -/

/-- A crash after any number of sector writes and any number of recoveries that crash leave the
inodes after one of the transactions that the calls make, the last one that committed. -/
theorem recovers_committed {files : List Input} {m₀ : Mkfs.State} (h : mkfs files = .ok m₀)
    (hfew : files.length + 2 ≤ ninodes) (hholes : (files.length + 2) % 32 ≠ 0)
    (hroom : usedBefore + blocksNeeded files ≤ size - nlog) (devsw : Devsw) (t : Nat → OpenFile)
    {calls : List Call}
    (hcalls : AllowedCalls ninodes (size - nlog - usedBefore) calls (nodesOf m₀.img, t))
    {rs : List (List Result)} {A : Files} {t' : Nat → OpenFile}
    (hspec : specCalls ninodes (size - nlog - usedBefore) calls (nodesOf m₀.img, t) =
      .ok (rs, A, t')) {m : Log.Machine} (hm : Log.Booted m)
    (hdisk : ∀ b, b < size - nlog → imageOf m.disk b = m₀.img b) :
    ∃ k, (runCalls devsw calls).run ⟨Core.boot m₀.img, t, []⟩ = .ok (rs, k) ∧
      ∀ recycle m₁, (Log.transactions recycle (k.done.map toTransaction)).run m = .ok ((), m₁) →
      ∀ n ns, ∃ d j A', Log.reboots recycle ns (replay (m₁.writes.take n) m.disk) = .ok d ∧
        (Log.effective ((k.done.map toTransaction).take j)).length =
          Log.commitCount m.log.start (m₁.writes.take n) ∧
        (nodesOf m₀.img :: statesCalls ninodes (size - nlog - usedBefore) calls
          (nodesOf m₀.img, t))[j]? = some A' ∧
        Consistent (size - nlog) (imageOf d) A' := by
  have hholds := mkfs_holds h hfew hholes (Nat.sub_le size nlog) hroom
  obtain ⟨hstart, hsize⟩ := booted_place hm hdisk hholds.super
  rw [← room_mkfsZone] at hcalls hspec ⊢
  obtain ⟨k, hrun, -, fs, Ts, -, hdone, hjournal, -, -⟩ :=
    (hholds.runCalls (k := ⟨Core.boot m₀.img, t, []⟩) devsw calls hcalls).1 rs A t' hspec
  rw [List.nil_append] at hdone
  refine ⟨k, hrun, fun recycle m₁ htrans n ns => ?_⟩
  rw [hdone] at htrans ⊢
  obtain ⟨d, j, hreb, hj, hcount, hd⟩ := recovered_replay hm hstart hsize hjournal.outside htrans n ns
  rw [List.length_map] at hj
  obtain ⟨s, A', fs', hA', hs, hs'⟩ := hjournal.take hholds rfl j hj
  refine ⟨d, j, A', hreb, hcount, hA', ?_⟩
  refine Holds.consistent (s := Core.boot (imageOf d)) (hs.of_disk (by decide) fun b hb => ?_)
  have hlt : b < 1014 := hb
  have hs' : s.vol.disk = replay (Ts.take j).flatten m₀.img := hs'
  rw [hs', ← replay_toTransaction (d := m.disk) (by omega) (hjournal.flatten_lt j) (hdisk b hb),
    ← flatten_toTransaction, List.map_take]
  exact hd _ (not_logArea hb)

/-- A crash after five sector writes, and one after three sector writes of the recovery. -/
theorem recovers_committed_writeEntry : ∃ m₀ k m₁, mkfs [] = .ok m₀ ∧
    (runCalls ⟨fun _ => none, fun _ => none⟩ writeEntry).run
      ⟨Core.boot m₀.img, fun _ => rootFile, []⟩ =
        .ok ([[(16, [])], [(16, dirent 2 [97])]], k) ∧
    (Log.transactions (fun _ _ _ => false) (k.done.map toTransaction)).run
      (bootMachine m₀.img) = .ok ((), m₁) ∧ ∃ (d : Log.Disk) (j : Nat) (A' : Files),
        Log.reboots (fun _ _ _ => false) [3]
          (replay (m₁.writes.take 5) (bootMachine m₀.img).disk) = .ok d ∧
        (nodesOf m₀.img :: statesCalls ninodes (size - nlog - usedBefore)
          writeEntry (nodesOf m₀.img, fun _ => rootFile))[j]? = some A' ∧
        Consistent (size - nlog) (imageOf d) A' := by
  obtain ⟨m₀, hm₀⟩ := mkfs_empty
  obtain ⟨hallowed, A, t, hspec⟩ := writeEntry_spec hm₀
    (show 1 ≤ size - nlog - usedBefore by decide)
  have hholds := mkfs_holds hm₀ (by decide) (by decide) (Nat.sub_le size nlog) (by decide)
  have hbooted := bootMachine_booted hholds.super
  have hdisk : ∀ b, b < size - nlog → imageOf (bootMachine m₀.img).disk b = m₀.img b :=
    fun b hb => imageOf_bootMachine hb
  obtain ⟨k, hrun, hcrash⟩ := recovers_committed hm₀ (by decide) (by decide) (by decide)
    ⟨fun _ => none, fun _ => none⟩ _ hallowed hspec hbooted hdisk
  obtain ⟨k', Ts, m₁, hrun', hdone, -, -, htrans⟩ := hholds.log_runs hbooted hdisk
    ⟨fun _ => none, fun _ => none⟩ writeEntry_small hallowed hspec fun _ _ _ => false
  rw [hrun] at hrun'
  cases hrun'
  rw [← hdone] at htrans
  obtain ⟨d, j, A', hreb, -, hA', hcons⟩ := hcrash _ m₁ htrans 5 [3]
  exact ⟨m₀, k, m₁, hm₀, hrun, htrans, d, j, A', hreb, hA', hcons⟩

/-! ## The log -/

/-- The transactions of calls that do one operation each, and those of `filewrite` with any
number of bytes, fit into the log.  The log then writes to the disk what the calls made of the
blocks. -/
theorem calls_fit_log {files : List Input} {m₀ : Mkfs.State} (h : mkfs files = .ok m₀)
    (hfew : files.length + 2 ≤ ninodes) (hholes : (files.length + 2) % 32 ≠ 0)
    (hroom : usedBefore + blocksNeeded files ≤ size - nlog) (devsw : Devsw) (t : Nat → OpenFile)
    {calls : List Call} (hsmall : ∀ call ∈ calls, call.Small)
    (hcalls : AllowedCalls ninodes (size - nlog - usedBefore) calls (nodesOf m₀.img, t))
    {rs : List (List Result)} {A : Files} {t' : Nat → OpenFile}
    (hspec : specCalls ninodes (size - nlog - usedBefore) calls (nodesOf m₀.img, t) =
      .ok (rs, A, t')) {m : Log.Machine} (hm : Log.Booted m)
    (hdisk : ∀ b, b < size - nlog → imageOf m.disk b = m₀.img b) (recycle : Log.Recycle) :
    ∃ k m₁, (runCalls devsw calls).run ⟨Core.boot m₀.img, t, []⟩ = .ok (rs, k) ∧
      (Log.transactions recycle (k.done.map toTransaction)).run m = .ok ((), m₁) ∧
      ∀ b, b < size - nlog → imageOf m₁.disk b = k.core.vol.disk b := by
  have hholds := mkfs_holds h hfew hholes (Nat.sub_le size nlog) hroom
  obtain ⟨hstart, hsize⟩ := booted_place hm hdisk hholds.super
  obtain ⟨k, Ts, m₁, hrun, hdone, hjournal, hend, hm₁⟩ :=
    hholds.log_runs hm hdisk devsw hsmall hcalls hspec recycle
  have hready := hm.ready
  rw [hstart, hsize] at hready
  refine ⟨k, m₁, hrun, by rwa [hdone], fun b hb => ?_⟩
  obtain ⟨ws, hiss, hhist⟩ := hready.transactions_run hjournal.outside hm₁
  have hlt : b < 1014 := hb
  have hflat : (Log.effective (Ts.map toTransaction)).flatten = (Ts.map toTransaction).flatten :=
    List.flatten_filter_not_isEmpty
  have hhome := hhist.home (not_logArea hb)
  rw [← hiss.disk_eq, hflat, flatten_toTransaction] at hhome
  have hbits := hjournal.flatten_lt Ts.length
  rw [List.take_length] at hbits
  rw [hend, ← replay_toTransaction (d := m.disk) (by omega) hbits (hdisk b hb)]
  exact hhome

theorem calls_fit_log_writeEntry : ∃ m₀ k m₁, mkfs [] = .ok m₀ ∧
    (runCalls ⟨fun _ => none, fun _ => none⟩ writeEntry).run
      ⟨Core.boot m₀.img, fun _ => rootFile, []⟩ =
        .ok ([[(16, [])], [(16, dirent 2 [97])]], k) ∧
    (Log.transactions (fun _ _ _ => false) (k.done.map toTransaction)).run
      (bootMachine m₀.img) = .ok ((), m₁) := by
  obtain ⟨m₀, hm₀⟩ := mkfs_empty
  obtain ⟨hallowed, A, t, hspec⟩ := writeEntry_spec hm₀
    (show 1 ≤ size - nlog - usedBefore by decide)
  have hholds := mkfs_holds hm₀ (by decide) (by decide) (Nat.le_refl size) (by decide)
  obtain ⟨k, m₁, hrun, htrans, -⟩ := calls_fit_log hm₀ (by decide) (by decide) (by decide)
    ⟨fun _ => none, fun _ => none⟩ _ writeEntry_small hallowed hspec (bootMachine_booted hholds.super)
    (fun b hb => imageOf_bootMachine hb) fun _ _ _ => false
  exact ⟨m₀, k, m₁, hm₀, hrun, htrans⟩

end Xv6Arm.Blocks
