import Mathlib.Algebra.Order.BigOperators.Group.Finset
import Xv6Arm.Blocks.Start
import Xv6Arm.Log.Model

/-!
# System calls on open files

`fileread` and `filewrite` of `file.c` on open files of inodes, and system calls
whose operations make one transaction.  `filewrite` cuts what it writes into pieces, so
that each piece fits into the log, and makes a transaction of each.

A run of system calls returns what its specification says (`Call.spec`).  The
specification also tells the inodes after each transaction (`Call.states`): these
are what a crash may leave.
-/

namespace Xv6Arm.Blocks

open Bytes Fs Mkfs Fallible Splice RedoLog

/-! ## The calls -/

/-- `struct file` of an inode. -/
structure OpenFile where
  readable : Bool
  writable : Bool
  inum : Nat
  off : Nat

/-- The volume, the open files, and what each transaction logged, oldest first. -/
structure Kernel where
  core : Core
  ftable : Nat → OpenFile
  done : List (List (Nat × Block))

/-- Code of system calls. -/
abbrev CallM := StateT Kernel (Except String)

/-- The core with nothing logged. -/
def Core.idle (s : Core) : Core := { s with vol := { s.vol with logged := [] } }

/-- `begin_trans`, some code, and `commit_trans`. -/
def inTrans {α : Type} (x : CoreM α) : CallM α := fun k => do
  let (a, s) ← x.run k.core.idle
  return (a, { k with core := s, done := k.done ++ [s.vol.logged] })

/-- Code outside of transactions, where `log_write` panics. -/
def noTrans {α : Type} (x : CoreM α) : CallM α := fun k => do
  let (a, s) ← x.run k.core.idle
  if s.vol.logged.isEmpty then return (a, { k with core := s })
  else throw "write outside of trans"

/-- `if(r > 0) f->off += r`. -/
def OpenFile.advance (file : OpenFile) (r : Int) : OpenFile :=
  if r > 0 then { file with off := (file.off + r.toNat) % 2 ^ 32 } else file

/-- Changes an open file. -/
def modifyFile (f : Nat) (g : OpenFile → OpenFile) : CallM Unit :=
  modify fun k => { k with ftable := Function.update k.ftable f (g (k.ftable f)) }

/-- `fileread`: its value and the bytes it copied. -/
def fileread (devsw : Devsw) (f n : Nat) : CallM Result := do
  let k ← get
  if (k.ftable f).readable then do
    let (r, bytes) ← noTrans ((Op.read (k.ftable f).inum (k.ftable f).off n).run devsw)
    modifyFile f (·.advance r)
    return (r, bytes)
  else return (-1, [])

/-- `max` of `filewrite`. -/
def maxWrite : Nat := (Log.LOGSIZE - 1 - 1 - 2) / 2 * 512

/-- The loop of `filewrite`, with the bytes `src` left: how many of them it wrote. -/
def filewriteLoop (devsw : Devsw) (f : Nat) (src : List UInt8) : CallM Nat :=
  if src = [] then return 0
  else do
    let k ← get
    let n1 := min src.length maxWrite
    let (r, _) ← inTrans ((Op.write (k.ftable f).inum (src.take n1) (k.ftable f).off).run devsw)
    modifyFile f (·.advance r)
    if r < 0 then return 0
    else if r ≠ n1 then throw "short filewrite"
    else do
      let n ← filewriteLoop devsw f (src.drop n1)
      return n1 + n
termination_by src.length
decreasing_by
  have hpos : 0 < src.length := List.length_pos_of_ne_nil ‹_›
  have hmax : 0 < maxWrite := by decide
  rw [List.length_drop]
  omega

/-- `filewrite`. -/
def filewrite (devsw : Devsw) (f : Nat) (src : List UInt8) : CallM Result := do
  let k ← get
  if (k.ftable f).writable then do
    let i ← filewriteLoop devsw f src
    if i = src.length then return (src.length, [])
    else return (-1, [])
  else return (-1, [])

/-- A system call. -/
inductive Call
  /-- `sys_read`. -/
  | read (f n : Nat)
  /-- `sys_write`. -/
  | write (f : Nat) (src : List UInt8)
  /-- A call that makes one transaction of its operations. -/
  | trans (ops : List Op)

def Call.run (devsw : Devsw) : Call → CallM (List Result)
  | .read f n => do
    let r ← fileread devsw f n
    return [r]
  | .write f src => do
    let r ← filewrite devsw f src
    return [r]
  | .trans ops => inTrans (runOps devsw ops)

/-! ## The specification -/

/-- How many of `n` bytes `filewrite` writes at `off` to a file of `len` bytes: all of them,
or those of the pieces that do not reach beyond the longest file. -/
def fitting (len off n : Nat) : Nat :=
  if len < off then 0
  else if off + n ≤ MAXFILE * BSIZE then n
  else (MAXFILE * BSIZE - off) / maxWrite * maxWrite

/-- The number of transactions of `filewrite`.  The last one may write nothing. -/
def rounds (len off n : Nat) : Nat :=
  if fitting len off n = n then (n + maxWrite - 1) / maxWrite
  else fitting len off n / maxWrite + 1

/-- The first `p` bytes of `src` are written at `off`. -/
def written (A : Files) (i off : Nat) (src : List UInt8) (p : Nat) : Files :=
  Function.update A i { A i with data := splice (A i).data off (src.take p) }

/-- The inodes and the open files. -/
abbrev Specified := Files × (Nat → OpenFile)

/-- What a call does. -/
def Call.spec (ninodes cap : Nat) : Call → Specified → Except String (List Result × Specified)
  | .read f n, (A, t) =>
    if (t f).readable then
      .ok ([readAt (A (t f).inum).data (t f).off n], A,
        Function.update t f ((t f).advance (readAt (A (t f).inum).data (t f).off n).1))
    else .ok ([(-1, [])], A, t)
  | .write f src, (A, t) =>
    let p := fitting (A (t f).inum).data.length (t f).off src.length
    if (t f).writable then
      if usedBlocks ninodes (written A (t f).inum (t f).off src p) ≤ cap then
        .ok ([(if p = src.length then (p : Int) else -1, [])],
          written A (t f).inum (t f).off src p, Function.update t f ((t f).advance p))
      else .error "balloc: out of blocks"
    else .ok ([(-1, [])], A, t)
  | .trans ops, (A, t) => (specOps ninodes cap ops A).map fun x => (x.1, x.2, t)

/-- The inodes after each transaction of `filewrite`. -/
def pieces (A : Files) (i off : Nat) (src : List UInt8) : List Files :=
  (List.range (rounds (A i).data.length off src.length)).map fun j =>
    written A i off src
      (min ((j + 1) * maxWrite) (fitting (A i).data.length off src.length))

/-- The inodes after each transaction of a call. -/
def Call.states (ninodes cap : Nat) : Call → Specified → List Files
  | .read _ _, _ => []
  | .write f src, (A, t) =>
    if (t f).writable then pieces A (t f).inum (t f).off src else []
  | .trans ops, (A, _) => (specOps ninodes cap ops A).toOption.toList.map Prod.snd

/-- The open file is one of an inode in use that is not a device. -/
structure OpenFile.Usable (ninodes : Nat) (A : Files) (file : OpenFile) : Prop where
  inum : file.inum < ninodes
  type : (A file.inum).type ≠ 0
  dev : (A file.inum).type ≠ T_DEV
  off : file.off < 2 ^ 32

/-- The calls that processes make.  The number of bytes to read is an `int`. -/
def Call.Allowed (ninodes cap : Nat) : Call → Specified → Prop
  | .read f n, (A, t) => (t f).Usable ninodes A ∧ n < 2 ^ 31
  | .write f _, (A, t) => (t f).Usable ninodes A
  | .trans ops, (A, _) => AllowedOps ninodes cap ops A

/-- The calls that make transactions of one operation and write no more than `filewrite` writes
at once. -/
def Call.Small : Call → Prop
  | .trans ops => ∃ op, ops = [op] ∧ op.bytes ≤ maxWrite
  | _ => True

/-! ## Pieces -/

section Pieces

variable {len off n : Nat}

theorem maxWrite_eq : maxWrite = 1536 := rfl

theorem maxFile_eq : MAXFILE * BSIZE = 71680 := rfl

/-- The first piece is too much. -/
theorem fitting_eq_zero (hn : 0 < n)
    (h : len < off ∨ MAXFILE * BSIZE < off + min n maxWrite) :
    fitting len off n = 0 ∧ rounds len off n = 1 := by
  have hzero : fitting len off n = 0 := by
    unfold fitting
    rw [maxWrite_eq, maxFile_eq] at *
    split
    · rfl
    · split <;> omega
  refine ⟨hzero, ?_⟩
  rw [rounds, hzero, if_neg (Nat.ne_of_lt hn), Nat.zero_div]

/-- The first piece is written. -/
theorem fitting_eq_add (hn : 0 < n) (hle : off ≤ len)
    (h : off + min n maxWrite ≤ MAXFILE * BSIZE) :
    fitting len off n = min n maxWrite +
        fitting (max len (off + min n maxWrite)) (off + min n maxWrite) (n - min n maxWrite) ∧
      rounds len off n = 1 +
        rounds (max len (off + min n maxWrite)) (off + min n maxWrite) (n - min n maxWrite) := by
  have hfit : fitting len off n = min n maxWrite +
      fitting (max len (off + min n maxWrite)) (off + min n maxWrite) (n - min n maxWrite) := by
    unfold fitting
    rw [maxWrite_eq, maxFile_eq] at *
    rw [if_neg (Nat.not_lt_of_le hle), if_neg (Nat.not_lt_of_le (Nat.le_max_right _ _))]
    split <;> split <;> omega
  refine ⟨hfit, ?_⟩
  have hlast : n ≤ maxWrite → fitting (max len (off + min n maxWrite)) (off + min n maxWrite)
      (n - min n maxWrite) = 0 := by
    intro hn
    rw [Nat.min_eq_left hn, Nat.sub_self, fitting]
    rw [Nat.min_eq_left hn] at h
    rw [if_neg (by omega), Nat.add_zero, if_pos h]
  unfold rounds
  rw [hfit]
  generalize fitting (max len (off + min n maxWrite)) (off + min n maxWrite)
    (n - min n maxWrite) = q at *
  rw [maxWrite_eq] at *
  by_cases hall : q = n - min n 1536
  · rw [if_pos hall, if_pos (by omega)]
    omega
  · rw [if_neg hall, if_neg (by omega)]
    omega

end Pieces

/-! ## Transactions -/

/-- Transactions that log only blocks that are not in the way of others, with the inodes that the
volume holds after each. -/
inductive Journal (Z : Zone) : Image → List (List (Nat × Block)) → List Files → Prop
  | nil {disk : Image} : Journal Z disk [] []
  | cons {disk : Image} {T : List (Nat × Block)} {Ts : List (List (Nat × Block))} {s : Core}
      {A : Files} {As : List Files} {fs : Nat → File} : (∀ w ∈ T, Loggable Z w.1) →
      Holds Z s A fs → s.vol.disk = replay T disk → Journal Z (replay T disk) Ts As →
      Journal Z disk (T :: Ts) (A :: As)

theorem Journal.append {Z : Zone} {disk : Image} {Ts Ts' : List (List (Nat × Block))}
    {As As' : List Files} (h : Journal Z disk Ts As)
    (h' : Journal Z (replay Ts.flatten disk) Ts' As') : Journal Z disk (Ts ++ Ts') (As ++ As') := by
  induction h with
  | nil => exact h'
  | cons hhome hs hdisk _ ih =>
    rw [List.flatten_cons, replay_append] at h'
    exact .cons hhome hs hdisk (ih h')

variable {Z : Zone} {k k' : Kernel} {s : Core} {A A' : Files} {As As' : List Files}
  {fs : Nat → File}

/-- The kernel went from `k` to `k'`, which holds the inodes `A'`.  It made a transaction for
each of `As`.  They fit into the log if `small` holds. -/
def Commits (Z : Zone) (small : Prop) (k k' : Kernel) (A' : Files) (As : List Files) : Prop :=
  ∃ fs Ts, Holds Z k'.core A' fs ∧ k'.done = k.done ++ Ts ∧ Journal Z k.core.vol.disk Ts As ∧
    k'.core.vol.disk = replay Ts.flatten k.core.vol.disk ∧
    (small → Z.sb.size ≤ BPB → ∀ T ∈ Ts, (T.map Prod.fst).toFinset.card ≤ 7)

theorem Commits.trans {k'' : Kernel} {A'' : Files} {p q : Prop} (h : Commits Z p k k' A' As)
    (h' : Commits Z q k' k'' A'' As') : Commits Z (p ∧ q) k k'' A'' (As ++ As') := by
  obtain ⟨-, Ts, -, hdone, hjournal, hdisk, hfew⟩ := h
  obtain ⟨fs, Ts', hs, hdone', hjournal', hdisk', hfew'⟩ := h'
  rw [hdisk] at hjournal' hdisk'
  refine ⟨fs, Ts ++ Ts', hs, ?_, hjournal.append hjournal', ?_, fun hpq hsize T hT => ?_⟩
  · rw [hdone', hdone, List.append_assoc]
  · rw [hdisk', List.flatten_append, replay_append]
  · exact (List.mem_append.mp hT).elim (hfew hpq.1 hsize T) (hfew' hpq.2 hsize T)

theorem Commits.imp {p q : Prop} (h : Commits Z p k k' A' As) (hpq : q → p) :
    Commits Z q k k' A' As := by
  obtain ⟨fs, Ts, hs, hdone, hjournal, hdisk, hfew⟩ := h
  exact ⟨fs, Ts, hs, hdone, hjournal, hdisk, fun hq => hfew (hpq hq)⟩

/-- Only the core and the transactions matter. -/
theorem Commits.ftable {p : Prop} (h : Commits Z p k k' A' As) (t : Nat → OpenFile) :
    Commits Z p k { k' with ftable := t } A' As := h

theorem commits_refl (p : Prop) (h : Holds Z k.core A fs) : Commits Z p k k A [] :=
  ⟨fs, [], h, by simp, .nil, rfl, nofun⟩

theorem Holds.idle (h : Holds Z s A fs) : Holds Z s.idle A fs :=
  ⟨h.fixed, h.super, h.owns, h.lies, h.cache⟩

section Run

variable {α : Type} {x : CoreM α} {a : α} {msg : String}

theorem inTrans_run (h : x.run k.core.idle = .ok (a, s)) :
    (inTrans x).run k = .ok (a, { k with core := s, done := k.done ++ [s.vol.logged] }) := by
  show x.run k.core.idle >>= _ = _
  rw [h]
  rfl

theorem inTrans_error (h : x.run k.core.idle = .error msg) : (inTrans x).run k = .error msg := by
  show x.run k.core.idle >>= _ = _
  rw [h]
  rfl

theorem noTrans_run (h : x.run k.core.idle = .ok (a, s)) (hs : s.vol.logged = []) :
    (noTrans x).run k = .ok (a, { k with core := s }) := by
  show x.run k.core.idle >>= _ = _
  rw [h, ok_bind]
  simp only [hs, List.isEmpty_nil, if_true]
  rfl

@[simp] theorem modifyFile_run (f : Nat) (g : OpenFile → OpenFile) : (modifyFile f g).run k =
    .ok ((), { k with ftable := Function.update k.ftable f (g (k.ftable f)) }) := rfl

end Run

/-- One transaction. -/
theorem commits_one {p : Prop} {l : List (Nat × Block)} (h : Holds Z s A' fs)
    (hl : Logged Z k.core.idle.vol s.vol l)
    (hfew : p → Z.sb.size ≤ BPB → (l.map Prod.fst).toFinset.card ≤ 7) :
    Commits Z p k { k with core := s, done := k.done ++ [s.vol.logged] } A' [A'] := by
  have hlogged : s.vol.logged = l := hl.logged
  have hdisk : s.vol.disk = replay l k.core.vol.disk := hl.disk
  refine ⟨fs, [l], h, by rw [hlogged], .cons hl.home h hdisk .nil, ?_, fun hp hsize T hT => ?_⟩
  · rw [List.flatten_singleton]
    exact hdisk
  · rw [List.mem_singleton.mp hT]
    exact hfew hp hsize

/-! ## Writing -/

section Loop

variable {devsw : Devsw} {f : Nat} {src : List UInt8} {file : OpenFile} {r : Result}

theorem advance_zero : file.advance (0 : Nat) = file := rfl

theorem advance_add (file : OpenFile) (m n : Nat) :
    (file.advance m).advance n = file.advance ((m + n : Nat) : Int) := by
  unfold OpenFile.advance
  rcases Nat.eq_zero_or_pos m with rfl | hm
  · simp
  · rcases Nat.eq_zero_or_pos n with rfl | hn
    · simp [hm]
    · have hm' : (m : Int) > 0 := by omega
      have hn' : (n : Int) > 0 := by omega
      have hmn : ((m + n : Nat) : Int) > 0 := by omega
      simp only [if_pos hm', if_pos hn', if_pos hmn, Int.toNat_natCast, Nat.mod_add_mod,
        Nat.add_assoc]

theorem advance_pos {m : Nat} (hm : 0 < m) (hlt : file.off + m < 2 ^ 32) :
    (file.advance m).inum = file.inum ∧ (file.advance m).off = file.off + m := by
  have hm' : (m : Int) > 0 := by omega
  rw [OpenFile.advance, if_pos hm']
  exact ⟨rfl, Nat.mod_eq_of_lt (by rwa [Int.toNat_natCast])⟩

/-- The kernel after a transaction of `filewrite`. -/
def Kernel.wrote (k : Kernel) (f : Nat) (r : Int) (s : Core) : Kernel where
  core := s
  ftable := Function.update k.ftable f ((k.ftable f).advance r)
  done := k.done ++ [s.vol.logged]

theorem wrote_ftable (r : Int) : (k.wrote f r s).ftable =
    Function.update k.ftable f ((k.ftable f).advance r) := rfl

theorem filewriteLoop_nil : (filewriteLoop devsw f []).run k = .ok (0, k) := by
  rw [filewriteLoop, if_pos rfl]
  rfl

/-- A round of the loop in which `writei` fails. -/
theorem filewriteLoop_fail (hsrc : src ≠ [])
    (hrun : ((Op.write (k.ftable f).inum (src.take (min src.length maxWrite))
      (k.ftable f).off).run devsw).run k.core.idle = .ok ((-1, []), s)) :
    (filewriteLoop devsw f src).run k = .ok (0, k.wrote f (-1) s) := by
  rw [filewriteLoop, if_neg hsrc]
  simp only [StateT.run_bind, StateT.run_get, pure_bind, inTrans_run hrun, ok_bind, modifyFile_run]
  rfl

/-- A round of the loop in which `writei` writes everything. -/
theorem filewriteLoop_next (hsrc : src ≠ [])
    (hrun : ((Op.write (k.ftable f).inum (src.take (min src.length maxWrite))
      (k.ftable f).off).run devsw).run k.core.idle =
        .ok (((min src.length maxWrite : Nat), []), s)) :
    (filewriteLoop devsw f src).run k =
      (filewriteLoop devsw f (src.drop (min src.length maxWrite))).run
        (k.wrote f (min src.length maxWrite : Nat) s) >>= fun x =>
          .ok (min src.length maxWrite + x.1, x.2) := by
  rw [filewriteLoop, if_neg hsrc]
  simp only [StateT.run_bind, StateT.run_get, pure_bind, inTrans_run hrun, ok_bind, modifyFile_run]
  rw [if_neg (by omega), if_neg (by simp)]
  rfl

theorem filewriteLoop_error {msg : String} (hsrc : src ≠ [])
    (hrun : ((Op.write (k.ftable f).inum (src.take (min src.length maxWrite))
      (k.ftable f).off).run devsw).run k.core.idle = .error msg) :
    (filewriteLoop devsw f src).run k = .error msg := by
  rw [filewriteLoop, if_neg hsrc]
  simp only [StateT.run_bind, StateT.run_get, pure_bind, inTrans_error hrun, error_bind]

end Loop

section Written

variable {i off m n : Nat} {src : List UInt8}

theorem written_zero : written A i off src 0 = A := by
  rw [written, List.take_zero, splice_nil, Function.update_eq_self]

/-- The bytes of a piece and of those behind it. -/
theorem written_written (hoff : off ≤ (A i).data.length) (hm : m ≤ src.length) :
    written (written A i off src m) i (off + m) (src.drop m) n = written A i off src (m + n) := by
  have hlen : (src.take m).length = m := List.length_take_of_le hm
  have hsplice := splice_append (p := src.take m) (q := (src.drop m).take n) hoff
  rw [hlen, ← List.take_add] at hsplice
  unfold written
  rw [Function.update_idem, Function.update_self, ← hsplice]

theorem length_written (hoff : off ≤ (A i).data.length) (hm : m ≤ src.length) :
    (written A i off src m i).data.length = max (A i).data.length (off + m) := by
  rw [written, Function.update_self, length_splice hoff, List.length_take_of_le hm]

theorem usedBlocks_written_mono (ninodes : Nat) (src : List UInt8)
    (hoff : off ≤ (A i).data.length) (hmn : m ≤ n) (hn : n ≤ src.length) :
    usedBlocks ninodes (written A i off src m) ≤ usedBlocks ninodes (written A i off src n) := by
  refine Finset.sum_le_sum fun j _ => blocksFor_mono ?_
  by_cases hj : j = i
  · subst hj
    rw [length_written hoff (Nat.le_trans hmn hn), length_written hoff hn]
    omega
  · rw [written, written, Function.update_of_ne hj, Function.update_of_ne hj]

theorem fitting_le (len off n : Nat) : fitting len off n ≤ n := by
  unfold fitting
  rw [maxFile_eq, maxWrite_eq]
  split
  · exact Nat.zero_le n
  · split <;> omega

theorem fitting_zero (len off : Nat) : fitting len off 0 = 0 := Nat.le_zero.mp (fitting_le len off 0)

end Written

/-- What the loop of `filewrite` does. -/
structure WritesPieces (Z : Zone) (devsw : Devsw) (f : Nat) (src : List UInt8) (k : Kernel)
    (A : Files) (i off p : Nat) : Prop where
  ok : usedBlocks Z.sb.ninodes (written A i off src p) ≤ room Z →
    ∃ k', (filewriteLoop devsw f src).run k = .ok (p, k') ∧
      k'.ftable = Function.update k.ftable f ((k.ftable f).advance p) ∧
      Commits Z True k k' (written A i off src p) (pieces A i off src)
  error : ¬ usedBlocks Z.sb.ninodes (written A i off src p) ≤ room Z → Z.lim = Z.sb.size →
    (filewriteLoop devsw f src).run k = .error "balloc: out of blocks"

section Pieces

variable {i off p : Nat} {src : List UInt8}

theorem pieces_nil : pieces A i off [] = [] := by
  rw [pieces, rounds, List.length_nil, fitting_zero, if_pos rfl]
  rfl

theorem pieces_fail (hsrc : 0 < src.length)
    (h : (A i).data.length < off ∨ MAXFILE * BSIZE < off + min src.length maxWrite) :
    pieces A i off src = [A] := by
  obtain ⟨hfit, hrounds⟩ := fitting_eq_zero hsrc h
  rw [pieces, hrounds, hfit]
  simp [written_zero]

theorem pieces_next (hsrc : 0 < src.length) (hoff : off ≤ (A i).data.length)
    (h : off + min src.length maxWrite ≤ MAXFILE * BSIZE) :
    pieces A i off src = written A i off src (min src.length maxWrite) ::
      pieces (written A i off src (min src.length maxWrite)) i (off + min src.length maxWrite)
        (src.drop (min src.length maxWrite)) := by
  obtain ⟨hfit, hrounds⟩ := fitting_eq_add hsrc hoff h
  have hle : min src.length maxWrite ≤ src.length := Nat.min_le_left ..
  unfold pieces
  rw [length_written hoff hle, List.length_drop, hrounds, Nat.add_comm 1, List.range_succ_eq_map,
    List.map_cons, List.map_map, hfit]
  generalize hq : fitting (max (A i).data.length (off + min src.length maxWrite))
    (off + min src.length maxWrite) (src.length - min src.length maxWrite) = q
  have hqle : q ≤ src.length - min src.length maxWrite := hq ▸ fitting_le ..
  rw [maxWrite_eq] at *
  congr 1
  · congr 1
    omega
  · refine List.map_congr_left fun j _ => ?_
    rw [written_written hoff hle]
    show written A i off src (min ((j + 1 + 1) * 1536) _) = _
    congr 1
    omega

end Pieces

section Filewrite

variable {devsw : Devsw} {f m : Nat} {src : List UInt8} {file : OpenFile}

theorem Holds.meetsPiece (devsw : Devsw) (h : Holds Z s A fs)
    (hfile : file.Usable Z.sb.ninodes A) (hlen : (src.take m).length = m) (hmax : m ≤ maxWrite) :
    Meets Z devsw (.write file.inum (src.take m) file.off) s A := by
  refine h.write hfile.inum hfile.type hfile.dev hfile.off ?_
  rw [hlen]
  exact Nat.lt_of_le_of_lt hmax (by decide)

/-- `writei` of a piece. -/
theorem Holds.writePiece (devsw : Devsw) (h : Holds Z s A fs) (hfile : file.Usable Z.sb.ninodes A)
    (hm : m ≤ src.length) (hmax : m ≤ maxWrite) (hoff : file.off ≤ (A file.inum).data.length)
    (hfits : file.off + m ≤ MAXFILE * BSIZE) :
    (usedBlocks Z.sb.ninodes (written A file.inum file.off src m) ≤ room Z →
      Does Z devsw (.write file.inum (src.take m) file.off) s (m, [])
        (written A file.inum file.off src m)) ∧
    (¬ usedBlocks Z.sb.ninodes (written A file.inum file.off src m) ≤ room Z →
      Z.lim = Z.sb.size → ((Op.write file.inum (src.take m) file.off).run devsw).run s =
        .error "balloc: out of blocks") := by
  have hlen : (src.take m).length = m := List.length_take_of_le hm
  have hmeets := h.meetsPiece devsw hfile hlen hmax
  have hwrite : writeAt (A file.inum).data file.off (src.take m) =
      ((m : Int), splice (A file.inum).data file.off (src.take m)) := by
    rw [writeAt, hlen, if_neg (by omega)]
  have hspec : (Op.write file.inum (src.take m) file.off).spec Z.sb.ninodes (room Z) A =
      if usedBlocks Z.sb.ninodes (written A file.inum file.off src m) ≤ room Z then
        .ok ((m, []), written A file.inum file.off src m)
      else .error "balloc: out of blocks" := by
    rw [Op.spec, hwrite]
    rfl
  exact ⟨fun hroom => hmeets.ok _ _ (hspec.trans (if_pos hroom)),
    fun hroom => hmeets.error _ (hspec.trans (if_neg hroom))⟩

/-- `writei` of a piece that reaches beyond the longest file, or at an offset beyond the end. -/
theorem Holds.failPiece (devsw : Devsw) (h : Holds Z s A fs) (hfile : file.Usable Z.sb.ninodes A)
    (hm : m ≤ src.length) (hmax : m ≤ maxWrite)
    (hbad : (A file.inum).data.length < file.off ∨ MAXFILE * BSIZE < file.off + m) :
    Does Z devsw (.write file.inum (src.take m) file.off) s (-1, []) A := by
  have hlen : (src.take m).length = m := List.length_take_of_le hm
  have hmeets := h.meetsPiece devsw hfile hlen hmax
  have hwrite : writeAt (A file.inum).data file.off (src.take m) = (-1, (A file.inum).data) := by
    rw [writeAt, hlen, if_pos hbad]
  have hsame : Function.update A file.inum
      { A file.inum with data := (A file.inum).data } = A := Function.update_eq_self ..
  refine hmeets.ok _ _ ?_
  rw [Op.spec, hwrite, hsame, if_pos (h.usedBlocks_le hfile.inum)]

/-- The transaction of a piece. -/
theorem commits_piece {i off : Nat} {l : List (Nat × Block)} (r : Int) (hm : m ≤ maxWrite)
    (hs : Holds Z s A' fs) (hl : Logs Z (.write i (src.take m) off) k.core.idle.vol s.vol l) :
    Commits Z True k (k.wrote f r s) A' [A'] := by
  refine (commits_one hs hl.toLogged fun _ hsize => hl.few hsize ?_).ftable _
  rw [Op.bytes, List.length_take]
  exact Nat.le_trans (Nat.min_le_left ..) hm

theorem OpenFile.Usable.written {n i off : Nat} (h : file.Usable n A) (hm : 0 < m)
    (hlt : file.off + m < 2 ^ 32) :
    (file.advance m).Usable n (written A i off src m) := by
  obtain ⟨hinum, hoff⟩ := advance_pos hm hlt
  have htype : ∀ j, (Blocks.written A i off src m j).type = (A j).type := by
    intro j
    by_cases hj : j = i
    · subst hj
      rw [Blocks.written, Function.update_self]
    · rw [Blocks.written, Function.update_of_ne hj]
  exact ⟨hinum ▸ h.inum, by rw [htype, hinum]; exact h.type, by rw [htype, hinum]; exact h.dev,
    hoff ▸ hlt⟩

/-- The loop of `filewrite` writes the pieces that fit into the file. -/
theorem Holds.writesPieces (devsw : Devsw) (f : Nat) : ∀ (n : Nat) {src : List UInt8} {k : Kernel}
    {A : Files} {fs : Nat → File} {file : OpenFile}, src.length = n → Holds Z k.core A fs →
    k.ftable f = file → file.Usable Z.sb.ninodes A →
    WritesPieces Z devsw f src k A file.inum file.off
      (fitting (A file.inum).data.length file.off src.length) := by
  intro n
  induction n using Nat.strong_induction_on with
  | _ n ih =>
    intro src k A fs file hn h hf hfile
    by_cases hsrc : src = []
    · subst hsrc
      rw [List.length_nil, fitting_zero]
      refine ⟨fun _ => ⟨k, filewriteLoop_nil, ?_, ?_⟩, fun hnot => absurd ?_ hnot⟩
      · rw [advance_zero, Function.update_eq_self]
      · rw [written_zero, pieces_nil]
        exact commits_refl True h
      · rw [written_zero]
        exact h.usedBlocks_le hfile.inum
    · have hpos : 0 < src.length := List.length_pos_of_ne_nil hsrc
      have hle : min src.length maxWrite ≤ src.length := Nat.min_le_left ..
      have hmax : min src.length maxWrite ≤ maxWrite := Nat.min_le_right ..
      by_cases hgo : file.off ≤ (A file.inum).data.length ∧
          file.off + min src.length maxWrite ≤ MAXFILE * BSIZE
      · obtain ⟨hoff, hfits⟩ := hgo
        obtain ⟨hok, herror⟩ := h.idle.writePiece devsw hfile hle hmax hoff hfits
        obtain ⟨hfit, -⟩ := fitting_eq_add hpos hoff hfits
        have hmono := usedBlocks_written_mono (A := A) Z.sb.ninodes src hoff
          (Nat.le.intro hfit.symm) (fitting_le ..)
        by_cases hroom : usedBlocks Z.sb.ninodes (written A file.inum file.off src
            (min src.length maxWrite)) ≤ room Z
        · obtain ⟨s, fs', l, hrun, hs, hl⟩ := hok hroom
          have hrest := filewriteLoop_next hsrc (k := k) (by rw [hf]; exact hrun)
          have hpos' : 0 < min src.length maxWrite := Nat.lt_min.mpr ⟨hpos, by decide⟩
          have hft : (k.wrote f (min src.length maxWrite : Nat) s).ftable f =
              file.advance (min src.length maxWrite : Nat) := by
            rw [wrote_ftable, Function.update_self, hf]
          obtain ⟨hinum, hoff'⟩ := advance_pos hpos' (Nat.lt_of_le_of_lt hfits (by decide))
          have hnext := ih (src.length - min src.length maxWrite) (by omega) List.length_drop hs hft
            (hfile.written hpos' (Nat.lt_of_le_of_lt hfits (by decide)))
          rw [hinum, hoff', length_written hoff hle, List.length_drop] at hnext
          rw [hfit]
          refine ⟨fun hroom' => ?_, fun hroom' hlim => ?_⟩ <;>
            rw [← written_written hoff hle] at hroom'
          · obtain ⟨k', hrun', hft', hcommits⟩ := hnext.ok hroom'
            refine ⟨k', ?_, ?_, ?_⟩
            · rw [hrest, hrun', ok_bind]
            · rw [hft', hft, advance_add, wrote_ftable, Function.update_idem, hf]
            · rw [pieces_next hpos hoff hfits, ← written_written hoff hle]
              exact ((commits_piece _ hmax hs hl).trans hcommits).imp fun _ => ⟨trivial, trivial⟩
          · rw [hrest, hnext.error hroom' hlim, error_bind]
        · exact ⟨fun hroom' => absurd (Nat.le_trans hmono hroom') hroom,
            fun _ hlim => filewriteLoop_error hsrc (by rw [hf]; exact herror hroom hlim)⟩
      · have hbad : (A file.inum).data.length < file.off ∨
            MAXFILE * BSIZE < file.off + min src.length maxWrite := by omega
        obtain ⟨s, fs', l, hrun, hs, hl⟩ := h.idle.failPiece devsw hfile hle hmax hbad
        rw [(fitting_eq_zero hpos hbad).1]
        refine ⟨fun _ => ⟨_, filewriteLoop_fail hsrc (by rw [hf]; exact hrun), rfl, ?_⟩,
          fun hnot => absurd ?_ hnot⟩
        · rw [written_zero, pieces_fail hpos hbad]
          exact commits_piece (-1) hmax hs hl
        · rw [written_zero]
          exact h.usedBlocks_le hfile.inum

end Filewrite

/-! ## Calls -/

/-- What a call does: it returns what its specification says and makes the transactions of the
specification.  A panic that this names is certain where the limit is the end of the disk. -/
structure Call.Meets (Z : Zone) (devsw : Devsw) (call : Call) (k : Kernel) (A : Files) : Prop where
  ok : ∀ r A' t, call.spec Z.sb.ninodes (room Z) (A, k.ftable) = .ok (r, A', t) →
    ∃ k', (call.run devsw).run k = .ok (r, k') ∧ k'.ftable = t ∧
      Commits Z call.Small k k' A' (call.states Z.sb.ninodes (room Z) (A, k.ftable))
  error : ∀ msg, call.spec Z.sb.ninodes (room Z) (A, k.ftable) = .error msg →
    Z.lim = Z.sb.size → (call.run devsw).run k = .error msg

section Calls

variable {devsw : Devsw} {f n : Nat} {src : List UInt8} {ops : List Op}

theorem fileread_run {r : Result} (hr : (k.ftable f).readable = true)
    (h : ((Op.read (k.ftable f).inum (k.ftable f).off n).run devsw).run k.core.idle = .ok (r, s))
    (hs : s.vol.logged = []) :
    ((Call.read f n).run devsw).run k = .ok ([r], { k with
      core := s, ftable := Function.update k.ftable f ((k.ftable f).advance r.1) }) := by
  unfold Call.run fileread
  simp only [StateT.run_bind, StateT.run_get, pure_bind, hr, if_true, noTrans_run h hs, ok_bind,
    modifyFile_run]
  rfl

/-- `fileread` makes no transaction. -/
theorem Holds.fileread (h : Holds Z k.core A fs) (hfile : (k.ftable f).Usable Z.sb.ninodes A)
    (hn : n < 2 ^ 31) : (Call.read f n).Meets Z devsw k A where
  ok r A' t hspec := by
    rw [Call.spec] at hspec
    by_cases hr : (k.ftable f).readable = true
    · rw [if_pos hr] at hspec
      cases hspec
      have hrun := fileread_run hr (h.idle.read_run devsw hfile.inum hfile.type hfile.dev hfile.off
        (Nat.lt_trans hn (by decide) : n < 2 ^ 32)) rfl
      exact ⟨_, hrun, rfl, fs, [], h.idle.copy_inode hfile.inum hfile.type, by simp, .nil, rfl, nofun⟩
    · rw [if_neg hr] at hspec
      cases hspec
      refine ⟨k, ?_, rfl, commits_refl _ h⟩
      rw [Call.run, Blocks.fileread]
      simp only [StateT.run_bind, StateT.run_get, pure_bind, if_neg hr]
      rfl
  error msg hspec := by
    rw [Call.spec] at hspec
    split at hspec <;> cases hspec

theorem Holds.filewrite (h : Holds Z k.core A fs) (hfile : (k.ftable f).Usable Z.sb.ninodes A) :
    (Call.write f src).Meets Z devsw k A := by
  have hloop := h.writesPieces devsw f src.length rfl rfl hfile
  by_cases hw : (k.ftable f).writable = true
  · by_cases hroom : usedBlocks Z.sb.ninodes (written A (k.ftable f).inum (k.ftable f).off src
        (fitting (A (k.ftable f).inum).data.length (k.ftable f).off src.length)) ≤ room Z
    · obtain ⟨k', hrun, hft, hcommits⟩ := hloop.ok hroom
      refine ⟨fun r A' t hspec => ?_, fun msg hspec => ?_⟩
      · rw [Call.spec, if_pos hw, if_pos hroom] at hspec
        cases hspec
        refine ⟨k', ?_, hft, ?_⟩
        · rw [Call.run, Blocks.filewrite]
          simp only [StateT.run_bind, StateT.run_get, pure_bind, hw, if_true, hrun, ok_bind]
          split
          · next heq =>
            rw [heq]
            rfl
          · rfl
        · rw [Call.states, if_pos hw]
          exact hcommits.imp fun _ => trivial
      · rw [Call.spec, if_pos hw, if_pos hroom] at hspec
        cases hspec
    · refine ⟨fun r A' t hspec => ?_, fun msg hspec hlim => ?_⟩
      · rw [Call.spec, if_pos hw, if_neg hroom] at hspec
        cases hspec
      · rw [Call.spec, if_pos hw, if_neg hroom] at hspec
        cases hspec
        rw [Call.run, Blocks.filewrite]
        simp only [StateT.run_bind, StateT.run_get, pure_bind, hw, if_true, hloop.error hroom hlim,
          error_bind]
  · refine ⟨fun r A' t hspec => ?_, fun msg hspec => ?_⟩
    · rw [Call.spec, if_neg hw] at hspec
      cases hspec
      refine ⟨k, ?_, rfl, ?_⟩
      · rw [Call.run, Blocks.filewrite]
        simp only [StateT.run_bind, StateT.run_get, pure_bind, if_neg hw]
        rfl
      · rw [Call.states, if_neg hw]
        exact commits_refl _ h
    · rw [Call.spec, if_neg hw] at hspec
      cases hspec

/-- A run of one operation logs what the operation logs. -/
theorem Holds.run_few (devsw : Devsw) (h : Holds Z s A fs)
    (hops : AllowedOps Z.sb.ninodes (room Z) ops A) {rs : List Result}
    (hspec : specOps Z.sb.ninodes (room Z) ops A = .ok (rs, A')) :
    ∃ s' fs' l, (runOps devsw ops).run s = .ok (rs, s') ∧ Holds Z s' A' fs' ∧
      Logged Z s.vol s'.vol l ∧ ((Call.trans ops).Small → Z.sb.size ≤ BPB →
        (l.map Prod.fst).toFinset.card ≤ 7) := by
  by_cases hsmall : (Call.trans ops).Small
  · obtain ⟨op, rfl, hbytes⟩ := hsmall
    obtain ⟨r, A₁, rs', hop, hnil, rfl⟩ := specOps_cons hspec
    cases hnil
    obtain ⟨s', fs', l, hrun, hs, hl⟩ := (h.step devsw hops.1).ok r A' hop
    exact ⟨s', fs', l, runOps_cons hrun rfl, hs, hl.toLogged, fun _ hsize => hl.few hsize hbytes⟩
  · obtain ⟨s', fs', l, hrun, hs, hl⟩ := (h.run devsw ops hops).1 rs A' hspec
    exact ⟨s', fs', l, hrun, hs, hl, fun hs => absurd hs hsmall⟩

theorem Holds.trans (h : Holds Z k.core A fs) (hops : AllowedOps Z.sb.ninodes (room Z) ops A) :
    (Call.trans ops).Meets Z devsw k A := by
  cases hspecs : specOps Z.sb.ninodes (room Z) ops A with
  | error e =>
    refine ⟨fun r A' t hspec => ?_, fun msg hspec hlim => ?_⟩
    · rw [Call.spec, hspecs] at hspec
      cases hspec
    · rw [Call.spec, hspecs] at hspec
      cases hspec
      exact inTrans_error ((h.idle.run devsw ops hops).2 _ hspecs hlim)
  | ok x =>
    obtain ⟨rs, A₁⟩ := x
    refine ⟨fun r A' t hspec => ?_, fun msg hspec => ?_⟩
    · rw [Call.spec, hspecs] at hspec
      cases hspec
      obtain ⟨s', fs', l, hrun, hs, hl, hfew⟩ := h.idle.run_few devsw hops hspecs
      refine ⟨_, inTrans_run hrun, rfl, ?_⟩
      rw [Call.states, hspecs]
      exact commits_one hs hl hfew
    · rw [Call.spec, hspecs] at hspec
      cases hspec

/-- Every call does what its specification says. -/
theorem Holds.call (devsw : Devsw) (h : Holds Z k.core A fs) {call : Call}
    (hcall : call.Allowed Z.sb.ninodes (room Z) (A, k.ftable)) : call.Meets Z devsw k A := by
  cases call with
  | read f n => exact h.fileread hcall.1 hcall.2
  | write f src => exact h.filewrite hcall
  | trans ops => exact h.trans hcall

end Calls

/-! ## Runs -/

/-- Calls one after the other. -/
def runCalls (devsw : Devsw) : List Call → CallM (List (List Result))
  | [] => return []
  | call :: calls => do
    let r ← call.run devsw
    let rs ← runCalls devsw calls
    return r :: rs

/-- What calls one after the other do. -/
def specCalls (ninodes cap : Nat) :
    List Call → Specified → Except String (List (List Result) × Specified)
  | [], x => .ok ([], x)
  | call :: calls, x => do
    let (r, x) ← call.spec ninodes cap x
    let (rs, x) ← specCalls ninodes cap calls x
    return (r :: rs, x)

/-- The inodes after each transaction of the calls. -/
def statesCalls (ninodes cap : Nat) : List Call → Specified → List Files
  | [], _ => []
  | call :: calls, x =>
    call.states ninodes cap x ++
      match call.spec ninodes cap x with
      | .ok (_, x) => statesCalls ninodes cap calls x
      | .error _ => []

/-- Each call is allowed when it comes. -/
def AllowedCalls (ninodes cap : Nat) : List Call → Specified → Prop
  | [], _ => True
  | call :: calls, x => call.Allowed ninodes cap x ∧
    ∀ r x', call.spec ninodes cap x = .ok (r, x') → AllowedCalls ninodes cap calls x'

theorem specCalls_cons {ninodes cap : Nat} {call : Call} {calls : List Call} {x x' : Specified}
    {rs : List (List Result)} (h : specCalls ninodes cap (call :: calls) x = .ok (rs, x')) :
    ∃ r x₁ rs', call.spec ninodes cap x = .ok (r, x₁) ∧
      specCalls ninodes cap calls x₁ = .ok (rs', x') ∧ rs = r :: rs' := by
  rw [specCalls] at h
  obtain ⟨⟨r, x₁⟩, hspec, h⟩ := bind_eq_ok.mp h
  obtain ⟨⟨rs', x₂⟩, hrest, h⟩ := bind_eq_ok.mp h
  cases h
  exact ⟨r, x₁, rs', hspec, hrest, rfl⟩

theorem statesCalls_cons {ninodes cap : Nat} {call : Call} {calls : List Call} {x x₁ : Specified}
    {r : List Result} (h : call.spec ninodes cap x = .ok (r, x₁)) :
    statesCalls ninodes cap (call :: calls) x =
      call.states ninodes cap x ++ statesCalls ninodes cap calls x₁ := by
  rw [statesCalls, h]

theorem specCalls_cons_error {ninodes cap : Nat} {call : Call} {calls : List Call} {x : Specified}
    {msg : String} (h : specCalls ninodes cap (call :: calls) x = .error msg) :
    call.spec ninodes cap x = .error msg ∨ ∃ r x₁, call.spec ninodes cap x = .ok (r, x₁) ∧
      specCalls ninodes cap calls x₁ = .error msg := by
  rw [specCalls] at h
  cases hspec : call.spec ninodes cap x with
  | error msg' =>
    rw [hspec] at h
    cases h
    exact .inl rfl
  | ok y =>
    obtain ⟨r, x₁⟩ := y
    rw [hspec, ok_bind] at h
    refine .inr ⟨r, x₁, rfl, ?_⟩
    cases hrest : specCalls ninodes cap calls x₁ with
    | error msg' =>
      simp only [hrest, error_bind] at h
      cases h
      rfl
    | ok z =>
      simp only [hrest, ok_bind] at h
      cases h

/-- A run of calls returns what the specification says and makes its transactions.  Where the
limit is the end of the disk, the run panics where the specification does. -/
theorem Holds.runCalls (devsw : Devsw) (calls : List Call) :
    ∀ {k : Kernel} {A : Files} {fs : Nat → File}, Holds Z k.core A fs →
    AllowedCalls Z.sb.ninodes (room Z) calls (A, k.ftable) →
    (∀ rs A' t, specCalls Z.sb.ninodes (room Z) calls (A, k.ftable) = .ok (rs, A', t) →
      ∃ k', (Blocks.runCalls devsw calls).run k = .ok (rs, k') ∧ k'.ftable = t ∧
        Commits Z (∀ call ∈ calls, call.Small) k k' A'
          (statesCalls Z.sb.ninodes (room Z) calls (A, k.ftable))) ∧
    (∀ msg, specCalls Z.sb.ninodes (room Z) calls (A, k.ftable) = .error msg →
      Z.lim = Z.sb.size → (Blocks.runCalls devsw calls).run k = .error msg) := by
  induction calls with
  | nil =>
    intro k A fs h _
    refine ⟨fun rs A' t hspec => ?_, fun msg hspec => by cases hspec⟩
    cases hspec
    exact ⟨k, rfl, rfl, commits_refl _ h⟩
  | cons call calls ih =>
    intro k A fs h hcalls
    have hmeets := h.call devsw hcalls.1
    refine ⟨fun rs A' t hspec => ?_, fun msg hspec hlim => ?_⟩
    · obtain ⟨r, ⟨A₁, t₁⟩, rs', hcall, hspec', rfl⟩ := specCalls_cons hspec
      obtain ⟨k₁, hrun, rfl, hcommits⟩ := hmeets.ok r A₁ t₁ hcall
      obtain ⟨fs₁, -, h₁, -⟩ := id hcommits
      obtain ⟨k', hrun', hft, hcommits'⟩ := (ih h₁ (hcalls.2 _ _ hcall)).1 rs' A' t hspec'
      refine ⟨k', ?_, hft, ?_⟩
      · rw [Blocks.runCalls, StateT.run_bind, hrun, ok_bind, StateT.run_bind, hrun']
        rfl
      · rw [statesCalls_cons hcall]
        exact (hcommits.trans hcommits').imp fun hsmall =>
          ⟨hsmall call List.mem_cons_self, fun c hc => hsmall c (List.mem_cons_of_mem _ hc)⟩
    · rw [Blocks.runCalls, StateT.run_bind]
      rcases specCalls_cons_error hspec with hcall | ⟨r, ⟨A₁, t₁⟩, hcall, hspec'⟩
      · rw [hmeets.error msg hcall hlim, error_bind]
      · obtain ⟨k₁, hrun, rfl, hcommits⟩ := hmeets.ok r A₁ t₁ hcall
        obtain ⟨fs₁, -, h₁, -⟩ := hcommits
        rw [hrun, ok_bind, StateT.run_bind,
          (ih h₁ (hcalls.2 _ _ hcall)).2 msg hspec' hlim, error_bind]

/-- Calls on an image of `mkfs` do what the specification says, with the bytes of open files in
any number of pieces.  They return the same results and leave the same offsets and inodes, or
panic with the same message. -/
theorem calls_refine_files {files : List Input} {m : Mkfs.State} (h : mkfs files = .ok m)
    (hfew : files.length + 2 ≤ ninodes) (hholes : (files.length + 2) % 32 ≠ 0)
    (devsw : Devsw) (t : Nat → OpenFile) (calls : List Call)
    (hcalls : AllowedCalls ninodes (size - usedBefore) calls (nodesOf m.img, t)) :
    (∀ rs A t', specCalls ninodes (size - usedBefore) calls (nodesOf m.img, t) = .ok (rs, A, t') →
      ∃ k, (runCalls devsw calls).run ⟨Core.boot m.img, t, []⟩ = .ok (rs, k) ∧ k.ftable = t' ∧
        Consistent size k.core.vol.disk A) ∧
    (∀ msg, specCalls ninodes (size - usedBefore) calls (nodesOf m.img, t) = .error msg →
      (runCalls devsw calls).run ⟨Core.boot m.img, t, []⟩ = .error msg) := by
  have hholds := mkfs_holds h hfew hholes (Nat.le_refl size) (mkfs_room h hfew)
  rw [← room_mkfsZone size] at hcalls ⊢
  obtain ⟨hok, herror⟩ := hholds.runCalls (k := ⟨Core.boot m.img, t, []⟩) devsw calls hcalls
  refine ⟨fun rs A t' hspec => ?_, fun msg hspec => herror msg hspec rfl⟩
  obtain ⟨k, hrun, hft, fs, -, hs, -⟩ := hok rs A t' hspec
  exact ⟨k, hrun, hft, hs.consistent⟩

/-- A file open at the first free entry of the root directory of an empty image. -/
def rootFile : OpenFile := { readable := true, writable := true, inum := ROOTINO, off := 32 }

/-- Writes an entry through one open file and reads it through another one. -/
def writeEntry : List Call := [.write 0 (dirent 2 [97]), .read 1 16]

theorem writeEntry_spec {m : Mkfs.State} (h : mkfs [] = .ok m) {cap : Nat} (hcap : 1 ≤ cap) :
    AllowedCalls ninodes cap writeEntry (nodesOf m.img, fun _ => rootFile) ∧
      ∃ A t, specCalls ninodes cap writeEntry (nodesOf m.img, fun _ => rootFile) =
        .ok ([[(16, [])], [(16, dirent 2 [97])]], A, t) := by
  obtain ⟨htype, -, -⟩ := nodesOf_empty h
  have hlen := length_root h
  have husable : ∀ A : Files, (A ROOTINO).type = T_DIR → rootFile.Usable ninodes A := fun A hA =>
    ⟨by decide, by rw [show (A rootFile.inum).type = T_DIR from hA]; decide,
      by rw [show (A rootFile.inum).type = T_DIR from hA]; decide, by decide⟩
  generalize hA : written (nodesOf m.img) ROOTINO 32 (dirent 2 [97]) 16 = A
  have hroot : A ROOTINO = { nodesOf m.img ROOTINO with
      data := splice (nodesOf m.img ROOTINO).data 32 (dirent 2 [97]) } := by
    rw [← hA, written, Function.update_self, List.take_of_length_le (by rw [length_dirent])]
  have helen : (A ROOTINO).data.length = 512 := by
    rw [hroot]
    show (splice _ _ _).length = _
    rw [length_splice (by omega), hlen, length_dirent]
    rfl
  have hupdate : A = Function.update (nodesOf m.img) ROOTINO (A ROOTINO) := by
    rw [← hA, written, Function.update_self]
  have hused : usedBlocks ninodes A = 1 := by
    rw [hupdate]
    exact usedBlocks_root (nodesOf_empty h).2.2 helen
  have hwrite : (Call.write 0 (dirent 2 [97])).spec ninodes cap (nodesOf m.img, fun _ => rootFile) =
      .ok ([(16, [])], A, Function.update (fun _ => rootFile) 0 (rootFile.advance 16)) := by
    have hfit : fitting (nodesOf m.img ROOTINO).data.length 32 16 = 16 := by
      rw [hlen]
      decide
    simp only [Call.spec, rootFile, hfit, hA, hused, length_dirent, if_true, if_pos hcap]
    rfl
  have hread : readAt (A ROOTINO).data 32 16 = (16, dirent 2 [97]) := by
    rw [hroot]
    exact readAt_entry (by omega)
  have hother : Function.update (fun _ => rootFile) 0 (rootFile.advance 16) 1 = rootFile :=
    Function.update_of_ne (by decide) _ _
  refine ⟨⟨husable _ htype, fun r x' heq => ?_⟩, A,
    Function.update (Function.update (fun _ => rootFile) 0 (rootFile.advance 16)) 1
      (rootFile.advance 16), ?_⟩
  · rw [hwrite] at heq
    cases heq
    refine ⟨⟨?_, by decide⟩, fun _ _ _ => trivial⟩
    rw [hother]
    exact husable A (by rw [hroot]; exact htype)
  · have hreadable : rootFile.readable = true := rfl
    have hplace : readAt (A rootFile.inum).data rootFile.off 16 = (16, dirent 2 [97]) := hread
    rw [writeEntry, specCalls, hwrite, ok_bind]
    simp only [specCalls, Call.spec, hother, hreadable, hplace, if_true, ok_bind]
    rfl

theorem calls_refine_files_writeEntry : ∃ m k A, mkfs [] = .ok m ∧
    (runCalls ⟨fun _ => none, fun _ => none⟩ writeEntry).run
      ⟨Core.boot m.img, fun _ => rootFile, []⟩ =
        .ok ([[(16, [])], [(16, dirent 2 [97])]], k) ∧
    Consistent size k.core.vol.disk A := by
  obtain ⟨m, hm⟩ := mkfs_empty
  obtain ⟨hallowed, A, t, hspec⟩ := writeEntry_spec hm (show 1 ≤ size - usedBefore by decide)
  obtain ⟨k, hrun, -, hk⟩ := (calls_refine_files hm (by decide) (by decide)
    ⟨fun _ => none, fun _ => none⟩ _ _ hallowed).1 _ A t hspec
  exact ⟨m, k, A, hm, hrun, hk⟩

end Xv6Arm.Blocks
