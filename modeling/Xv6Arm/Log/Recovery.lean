import Xv6Arm.Lib.Fallible
import Xv6Arm.Log.Isolation

/-!
# Recovery from any header

At boot `log.lh.n` and the table `log.lh.sector` come from the header on the disk.
`read_head` and `install_trans` check neither the count nor the sectors.  What stops
them is the driver of `memide.c`: `iderw` panics if the disk does not have the sector.

Here the code of `log.c` that runs at boot is over a disk of `disksize` sectors.  An
index past the end of the table is recorded and does not stop the machine: it leads to
the words of memory behind the table.  As long as every sector is on the disk and no
index is past the end, this is the recovery of `Xv6Arm.Log.Model` (`initlog_agrees`).
-/

namespace Xv6Arm.Log.Recovery

open Bytes

/-! ## Boot -/

/-- What recovery depends on besides the disk. -/
structure Env where
  recycle : Recycle
  /-- The number of sectors of the disk. -/
  disksize : Nat
  /-- The words of memory behind the header's buffer, as elements of `lh->sector`. -/
  behind : Nat → Sector

/-- The machine, and the indices of `log.lh.sector` that were used, oldest first. -/
structure Host where
  machine : Machine
  indexed : List Nat

abbrev Code := StateT Host (Except Stop)

/-- Code that does not use `log.lh.sector`. -/
def lift {α : Type} (k : Kernel α) : Code α := fun h => do
  let (a, m) ← k.run h.machine
  return (a, { h with machine := m })

/-- The sector check of `iderw`. -/
def iderw (E : Env) (s : Sector) : Code Unit :=
  if E.disksize ≤ s.toNat then throw (.panic "iderw: sector out of range") else pure ()

/-- `bread(ROOTDEV, s)`.  A sector that is cached is not read again. -/
def bread (E : Env) (s : Sector) : Code Block := do
  let h ← get
  if (h.machine.cache s).isNone then iderw E s
  lift (Log.bread E.recycle s)

/-- `bwrite` of the buffer of sector `s`, with the data `b`. -/
def bwrite (E : Env) (s : Sector) (b : Block) : Code Unit := do
  iderw E s
  lift (Log.bwrite s b)

/-- A use of `log.lh.sector[i]`. -/
def index (i : Nat) : Code Unit := modify fun h => { h with indexed := h.indexed ++ [i] }

/-- `log.lh.sector[i] = s`. -/
def setSector (i : Nat) (s : Sector) : Code Unit := do
  index i
  lift (modify fun m =>
    m.setLh { n := m.log.lh.n, sector := Function.update m.log.lh.sector i s })

/-- `lh->sector[i]`.  A block has room for 127 sectors behind the count. -/
def Env.entry (E : Env) (b : Block) (i : Nat) : Sector :=
  if i < 127 then headSector b i else E.behind i

/-- `read_head`. -/
def readHead (E : Env) : Code Unit := do
  let h ← get
  let buf ← bread E h.machine.log.start
  lift (setN (headN buf))
  (List.range (headN buf).toNat).forM fun i => setSector i (E.entry buf i)

/-- A round of `install_trans`. -/
def installRound (E : Env) (log : LogState) (tail : Nat) : Code Unit := do
  let lbuf ← bread E (log.slot tail)
  index tail
  let _ ← bread E (log.lh.sector tail)
  bwrite E (log.lh.sector tail) lbuf

/-- `install_trans`. -/
def installTrans (E : Env) : Code Unit := do
  let h ← get
  (List.range h.machine.log.lh.n.toNat).forM (installRound E h.machine.log)

/-- `write_head`. -/
def writeHead (E : Env) : Code Unit := do
  let h ← get
  let buf ← bread E h.machine.log.start
  (List.range h.machine.log.lh.n.toNat).forM index
  bwrite E h.machine.log.start (putHead h.machine.log.lh buf)

/-- `recover_from_log`. -/
def recoverFromLog (E : Env) : Code Unit := do
  readHead E
  installTrans E
  lift (setN 0)
  writeHead E

/-- The part of `initlog` that finds the log. -/
def locate (E : Env) : Code Unit := do
  if 4 + 4 * LOGSIZE ≥ BSIZE then throw (.panic "initlog: too big logheader")
  let sb ← bread E 1
  lift (modify (Machine.placeLog sb))

/-- `initlog`. -/
def initlog (E : Env) : Code Unit := do
  locate E
  recoverFromLog E

/-! ## Recovery inside of the table -/

section Agrees

variable {α β : Type} {E : Env}

/-- If `c` returns and has used no index past the table, `k` does the same. -/
def Agrees (c : Code α) (k : Kernel α) : Prop :=
  ∀ h a h', c.run h = .ok (a, h') → h.indexed ⊆ h'.indexed ∧
    ((∀ i ∈ h'.indexed, i < LOGSIZE) → k.run h.machine = .ok (a, h'.machine))

theorem Agrees.bind {c : Code α} {k : Kernel α} {f : α → Code β} {g : α → Kernel β}
    (h : Agrees c k) (hf : ∀ a, Agrees (f a) (g a)) : Agrees (c >>= f) (k >>= g) := by
  intro h₀ b h₂ hrun
  obtain ⟨a, h₁, hc, hfa⟩ := run_bind_inv hrun
  obtain ⟨hsub₁, hk⟩ := h h₀ a h₁ hc
  obtain ⟨hsub₂, hg⟩ := hf a h₁ b h₂ hfa
  refine ⟨fun i hi => hsub₂ (hsub₁ hi), fun hin => ?_⟩
  rw [run_bind_ok (hk fun i hi => hin i (hsub₂ hi))]
  exact hg hin

theorem agrees_get {f : Host → Code β} {g : Machine → Kernel β}
    (hf : ∀ h : Host, Agrees (f h) (g h.machine)) : Agrees (get >>= f) (get >>= g) :=
  fun h b h' hrun => hf h h b h' hrun

theorem agrees_lift (k : Kernel α) : Agrees (lift k) k := by
  intro h a h' hrun
  obtain ⟨⟨a', m⟩, hk, hret⟩ := Fallible.bind_eq_ok.mp hrun
  cases hret
  exact ⟨List.Subset.refl _, fun _ => hk⟩

theorem Agrees.forM {c : Nat → Code Unit} {k : Nat → Kernel Unit} (h : ∀ i, Agrees (c i) (k i)) :
    ∀ l : List Nat, Agrees (l.forM c) (l.forM k)
  | [] => fun h a h' hrun => by
      cases hrun
      exact ⟨List.Subset.refl _, fun _ => rfl⟩
  | i :: l => by
      rw [List.forM_eq_forM, List.forM_cons, List.forM_eq_forM, List.forM_cons]
      exact (h i).bind fun _ => Agrees.forM h l

/-- A check that returns changes nothing. -/
theorem iderw_bind {s : Sector} {c : Code α} {h h' : Host} {a : α}
    (hrun : (iderw E s >>= fun _ => c).run h = .ok (a, h')) : c.run h = .ok (a, h') := by
  unfold iderw at hrun
  split at hrun
  · cases hrun
  · exact hrun

theorem agrees_bread (s : Sector) : Agrees (bread E s) (Log.bread E.recycle s) := by
  intro h a h' hrun
  rw [bread, run_bind_ok (a := h) rfl] at hrun
  split at hrun
  · exact agrees_lift _ h a h' (iderw_bind hrun)
  · exact agrees_lift _ h a h' hrun

theorem agrees_bwrite (s : Sector) (b : Block) : Agrees (bwrite E s b) (Log.bwrite s b) :=
  fun h a h' hrun => agrees_lift _ h a h' (iderw_bind hrun)

/-- A use of the table is one that passes the check of its index. -/
theorem agrees_index (i : Nat) : Agrees (index i) (checkIndex i) := by
  intro h a h' hrun
  cases hrun
  refine ⟨List.subset_append_left _ _, fun hin => ?_⟩
  have hi : i < LOGSIZE := hin i (List.mem_append_right _ (List.mem_singleton_self i))
  rw [checkIndex_of_lt hi]
  rfl

theorem agrees_setSector (b : Block) (i : Nat) :
    Agrees (setSector i (E.entry b i)) (Log.setSector i (headSector b i)) := by
  intro h a h' hrun
  obtain ⟨hsub, hk⟩ := ((agrees_index i).bind fun _ => agrees_lift _) h a h' hrun
  refine ⟨hsub, fun hin => ?_⟩
  have hi : i < LOGSIZE := by
    cases hrun
    exact hin i (List.mem_append_right _ (List.mem_singleton_self i))
  have hentry : E.entry b i = headSector b i := if_pos (Nat.lt_trans hi (by decide))
  rw [← hentry]
  exact hk hin

theorem agrees_readHead : Agrees (readHead E) (Log.readHead E.recycle) :=
  agrees_get fun _ => (agrees_bread _).bind fun buf => (agrees_lift _).bind fun _ =>
    Agrees.forM (agrees_setSector buf) _

/-- The index may be used after other code. -/
theorem Agrees.index_later {c : Code α} {k : Kernel α} {f : α → Code β} {g : α → Kernel β} (i : Nat)
    (h : Agrees c k) (hf : ∀ a, Agrees (f a) (g a)) :
    Agrees (c >>= fun a => index i >>= fun _ => f a) (checkIndex i >>= fun _ => k >>= g) := by
  intro h₀ b h₂ hrun
  obtain ⟨hsub, hk⟩ := (h.bind fun a => (agrees_index i).bind fun _ => hf a) h₀ b h₂ hrun
  refine ⟨hsub, fun hin => ?_⟩
  have hi : i < LOGSIZE := by
    obtain ⟨a, h₁, -, hrest⟩ := run_bind_inv hrun
    have hindex : (index i).run h₁ = .ok ((), ⟨h₁.machine, h₁.indexed ++ [i]⟩) := rfl
    rw [run_bind_ok hindex] at hrest
    exact hin i ((hf a _ b h₂ hrest).1 (List.mem_append_right _ (List.mem_singleton_self i)))
  have hrun' := hk hin
  simp only [checkIndex_of_lt hi, pure_bind] at hrun' ⊢
  exact hrun'

theorem agrees_installTrans : Agrees (installTrans E) (Log.installTrans E.recycle) :=
  agrees_get fun _ => Agrees.forM (fun i => (agrees_bread _).index_later i fun _ =>
    (agrees_bread _).bind fun _ => agrees_bwrite _ _) _

theorem index_run (l : List Nat) : ∀ h : Host,
    (l.forM index).run h = .ok ((), ⟨h.machine, h.indexed ++ l⟩) := by
  induction l with
  | nil =>
      intro h
      rw [List.append_nil]
      rfl
  | cons i l ih =>
      intro h
      have hindex : (index i).run h = .ok ((), ⟨h.machine, h.indexed ++ [i]⟩) := rfl
      rw [List.forM_eq_forM, List.forM_cons, run_bind_ok hindex]
      refine (ih _).trans ?_
      rw [List.append_assoc, List.singleton_append]

theorem agrees_indices (n : Nat) : Agrees ((List.range n).forM index) (checkIndex (n - 1)) := by
  intro h a h' hrun
  rw [index_run] at hrun
  cases hrun
  refine ⟨List.subset_append_left _ _, fun hin => ?_⟩
  have hlast : n - 1 < LOGSIZE := by
    rcases Nat.eq_zero_or_pos n with rfl | hpos
    · decide
    · exact hin (n - 1) (List.mem_append_right _ (List.mem_range.mpr (by omega)))
  rw [checkIndex_of_lt hlast]
  rfl

theorem agrees_writeHead : Agrees (writeHead E) (Log.writeHead E.recycle) :=
  agrees_get fun _ => (agrees_bread _).bind fun _ => (agrees_indices _).bind fun _ =>
    agrees_bwrite _ _

theorem agrees_recoverFromLog : Agrees (recoverFromLog E) (Log.recoverFromLog E.recycle) :=
  agrees_readHead.bind fun _ => agrees_installTrans.bind fun _ => (agrees_lift _).bind fun _ =>
    agrees_writeHead

/-- Recovery that ends on this disk, with all indices in the table, ends in the same way on a disk
without limits. -/
theorem initlog_agrees : Agrees (initlog E) (Log.initlog E.recycle) := by
  have hsmall : ¬ 4 + 4 * LOGSIZE ≥ BSIZE := by decide
  unfold initlog locate Log.initlog
  rw [if_neg hsmall, if_neg hsmall]
  simp only [bind_assoc]
  exact (agrees_bread 1).bind fun sb => (agrees_lift _).bind fun _ => agrees_recoverFromLog

end Agrees

/-! ## What recovery does -/

section Runs

variable {E : Env} {h : Host} {m : Machine} {s : Sector} {b : Block}

/-- Every cached sector is on the disk. -/
def InRange (E : Env) (m : Machine) : Prop := ∀ s, (m.cache s).isSome → s.toNat < E.disksize

theorem InRange.fetch (hr : InRange E m) (hs : s.toNat < E.disksize) :
    InRange E (m.fetch E.recycle s) := by
  intro t ht
  unfold Machine.fetch at ht
  split at ht
  · exact hr t ht
  · simp only at ht
    split at ht
    · next hts => exact hts ▸ hs
    · refine hr t ?_
      split at ht
      · next hb => rw [hb]; rfl
      · cases ht

theorem InRange.write (hr : InRange E m) (hs : s.toNat < E.disksize) : InRange E (m.write s b) := by
  intro t ht
  by_cases hts : t = s
  · exact hts ▸ hs
  · refine hr t ?_
    simpa only [Machine.write, Function.update_of_ne hts] using ht

/-- The disk has the log block of entry `i`, and the sector it is for. -/
def OnDisk (E : Env) (log : LogState) (i : Nat) : Prop :=
  (log.slot i).toNat < E.disksize ∧ (log.lh.sector i).toNat < E.disksize

theorem setSector_loop (g : Nat → Sector) (l : List Nat) : ∀ {h : Host},
    ∃ f, (l.forM fun i => setSector i (g i)).run h =
        .ok ((), ⟨h.machine.setLh { n := h.machine.log.lh.n, sector := f }, h.indexed ++ l⟩) ∧
      ∀ i, f i = if i ∈ l then g i else h.machine.log.lh.sector i := by
  induction l with
  | nil => exact fun {h} => ⟨h.machine.log.lh.sector, by rw [List.append_nil]; rfl, fun i => by simp⟩
  | cons i l ih =>
      intro h
      obtain ⟨f, hrun, hf⟩ := ih (h := ⟨h.machine.setLh
        { n := h.machine.log.lh.n, sector := Function.update h.machine.log.lh.sector i (g i) },
        h.indexed ++ [i]⟩)
      refine ⟨f, ?_, fun j => ?_⟩
      · rw [List.forM_eq_forM, List.forM_cons, run_bind_ok (a := ()) rfl]
        refine hrun.trans ?_
        rw [List.append_assoc, List.singleton_append]
        rfl
      · rw [hf j, setLh_lh]
        by_cases hji : j = i
        · subst hji
          simp
        · simp [hji]

end Runs

/-! ## Headers that recovery survives -/

/-- Where the super block of a disk puts the log. -/
def logStart (d : Disk) : Sector := sbSize (d 1) - sbNlog (d 1)

/-- The header block of a disk. -/
def header (d : Disk) : Block := d (logStart d)

/-- The number of entries of the header. -/
def count (d : Disk) : Nat := (headN (header d)).toNat

section Boot

variable {E : Env} {d : Disk}

/-- `install_trans` takes the entries one after the other. -/
theorem installTrans_run {h : Host} {n : Nat} (hn : h.machine.log.lh.n.toNat = n) :
    (installTrans E).run h = ((List.range n).forM (installRound E h.machine.log)).run h := by
  rw [installTrans, run_bind_ok (a := h) rfl, hn]

end Boot

end Xv6Arm.Log.Recovery
