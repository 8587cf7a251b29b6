import Xv6Arm.Sys.LinkCounts

/-!
# Whose transaction a write belongs to

The processes run their calls in any interleaving.  `log_write` only looks at the flag
`log.busy`, so it cannot tell whose transaction is active.  The calls write inside of their
own transactions, except for `iput`: the last reference to an inode without links frees
the inode, and many calls of `iput` are outside of a transaction.
-/

namespace Xv6Arm.Sys

open Fs Programs Prog Runs

/-- The message of the panic in `log_write`. -/
def outside : String := "write outside of trans"

/-- The effect of a step, with the check of `log_write`. -/
def logged (p : Pid) : Handler layer Kernel := fun o k =>
  if o.logs k = true ∧ k.logBusy = false then .panic outside else handle p o k

/-- The file system calls of the processes. -/
abbrev System := Machine layer Kernel Pid Int

/-- A step of the system. -/
def System.step : Label Pid Call → System → Option System := Machine.step logged Call.body

/-! ## The transactions of the calls -/

/-- The monitor of a process that is in its own transaction or not.  The steps that always write
are allowed in a transaction only. -/
def transactions : Monitor layer Bool where
  allows
    | .beginTrans, m => m = false
    | .commitTrans, m => m = true
    | .iupdate _, m => m = true
    | .ialloc _, m => m = true
    | .writei .., m => m = true
    | _, _ => True
  next
    | .beginTrans, _, _ => true
    | .commitTrans, _, _ => false
    | _, _, m => m
  fails msg := msg ≠ outside

/-- A program that neither begins nor ends a transaction. -/
def Keeps {α : Type} (pr : Code α) (m : Bool) : Prop := pr.Obeys transactions m fun _ m' => m' = m

section Calls

variable {m : Bool}

theorem keeps_pure {α : Type} (a : α) : Keeps (pure a) m := rfl

theorem Keeps.bind {α β : Type} {pr : Code α} {f : α → Code β} (h : Keeps pr m)
    (hf : ∀ a, Keeps (f a) m) : Keeps (pr >>= f) m :=
  Obeys.bind h fun a _ hm => hm ▸ hf a

theorem keeps_iget (i : Nat) : Keeps (iget i) m := ⟨trivial, fun _ => rfl⟩
theorem keeps_idup (i : Nat) : Keeps (idup i) m := ⟨trivial, fun _ => rfl⟩
theorem keeps_ilock (i : Nat) : Keeps (ilock i) m := ⟨trivial, fun _ => rfl⟩
theorem keeps_iunlock (i : Nat) : Keeps (iunlock i) m := ⟨trivial, fun _ => rfl⟩
theorem keeps_iput (i : Nat) : Keeps (iput i) m := ⟨trivial, fun _ => rfl⟩
theorem keeps_load (i : Nat) : Keeps (load i) m := ⟨trivial, fun _ => rfl⟩
theorem keeps_readi (i : Nat) : Keeps (readi i) m := ⟨trivial, fun _ => rfl⟩
theorem keeps_getCwd : Keeps getCwd m := ⟨trivial, fun _ => rfl⟩
theorem keeps_setCwd (i : Nat) : Keeps (setCwd i) m := ⟨trivial, fun _ => rfl⟩
theorem keeps_filealloc : Keeps filealloc m := ⟨trivial, fun _ => rfl⟩
theorem keeps_fdalloc (f : Nat) : Keeps (fdalloc f) m := ⟨trivial, fun _ => rfl⟩
theorem keeps_fileput (f : Nat) : Keeps (fileput f) m := ⟨trivial, fun _ => rfl⟩
theorem keeps_setFile (f ip : Nat) (r w : Bool) : Keeps (setFile f ip r w) m :=
  ⟨trivial, fun _ => rfl⟩
theorem keeps_ialloc (type : Nat) : Keeps (ialloc type) true := ⟨rfl, fun _ => rfl⟩
theorem keeps_writei (i off : Nat) (e : Entry) : Keeps (writei i off e) true := ⟨rfl, fun _ => rfl⟩
theorem keeps_assign (i : Nat) (n : Inode) : Keeps (assign i n) true :=
  ⟨trivial, fun _ => ⟨rfl, fun _ => rfl⟩⟩

theorem keeps_panic {α : Type} {msg : String} (h : msg ≠ outside) : Keeps (.panic msg : Code α) m := h

theorem keeps_iunlockput (i : Nat) : Keeps (iunlockput i) m :=
  (keeps_iunlock i).bind fun _ => keeps_iput i

theorem keeps_dirlookup (dp : Nat) (name : Name) : Keeps (dirlookup dp name) m := by
  refine (keeps_load dp).bind fun d => ?_
  split
  · exact keeps_panic (by decide)
  · refine (keeps_readi dp).bind fun es => ?_
    split
    · exact keeps_pure _
    · exact (keeps_iget _).bind fun _ => keeps_pure _

theorem keeps_dirlink (dp : Nat) (name : Name) (inum : Nat) : Keeps (dirlink dp name inum) true := by
  refine (keeps_dirlookup dp name).bind fun r => ?_
  split
  · exact (keeps_iput _).bind fun _ => keeps_pure _
  · refine (keeps_readi dp).bind fun es => ?_
    refine (keeps_writei _ _ _).bind fun r => ?_
    split
    · exact keeps_pure _
    · exact keeps_panic (by decide)

theorem keeps_namexLoop (parent : Bool) (names : List Name) (name : Name) (ip : Nat) :
    Keeps (namexLoop parent names name ip) m := by
  induction names generalizing name ip with
  | nil =>
      unfold namexLoop
      split
      · exact (keeps_iput ip).bind fun _ => keeps_pure _
      · exact keeps_pure _
  | cons x rest ih =>
      refine (keeps_ilock ip).bind fun _ => ?_
      refine (keeps_load ip).bind fun n => ?_
      split
      · exact (keeps_iunlockput ip).bind fun _ => keeps_pure _
      split
      · exact (keeps_iunlock ip).bind fun _ => keeps_pure _
      refine (keeps_dirlookup ip x).bind fun r => ?_
      split
      · exact (keeps_iunlockput ip).bind fun _ => keeps_pure _
      · exact (keeps_iunlockput ip).bind fun _ => ih _ _

theorem keeps_namex (parent : Bool) (path : List UInt8) : Keeps (namex parent path) m := by
  unfold namex
  split
  · exact (keeps_iget _).bind fun _ => keeps_namexLoop ..
  · exact keeps_getCwd.bind fun cwd => (keeps_idup cwd).bind fun _ => keeps_namexLoop ..

theorem keeps_namei (path : List UInt8) : Keeps (namei path) m :=
  (keeps_namex false path).bind fun _ => keeps_pure _

/-- The rest of a call in a transaction, which it ends. -/
def Closes {α : Type} (pr : Code α) : Prop := pr.Obeys transactions true fun _ m => m = false

theorem Keeps.closes {α β : Type} {pr : Code α} {f : α → Code β} (h : Keeps pr true)
    (hf : ∀ a, Closes (f a)) : Closes (pr >>= f) :=
  Obeys.bind h fun a _ hm => hm ▸ hf a

theorem closes_panic {α : Type} {msg : String} (h : msg ≠ outside) :
    Closes (.panic msg : Code α) := h

theorem closes_commit {α : Type} {f : Unit → Code α} (hf : Keeps (f ()) false) :
    Closes (commitTrans >>= f) :=
  ⟨rfl, fun _ => hf⟩

theorem keeps_begin {α : Type} {f : Unit → Code α} (hf : Closes (f ())) :
    Keeps (beginTrans >>= f) false :=
  ⟨rfl, fun _ => hf⟩

theorem closes_linkBad (ip : Nat) : Closes (linkBad ip) := by
  refine (keeps_ilock ip).closes fun _ => ?_
  refine (keeps_load ip).closes fun n => ?_
  refine (keeps_assign ip _).closes fun _ => ?_
  refine (keeps_iunlockput ip).closes fun _ => ?_
  exact closes_commit (keeps_pure _)

theorem keeps_link (old new : List UInt8) : Keeps (link old new) false := by
  refine (keeps_namei old).bind fun r => ?_
  split
  · exact keeps_pure _
  next ip =>
  refine keeps_begin ?_
  refine (keeps_ilock ip).closes fun _ => ?_
  refine (keeps_load ip).closes fun n => ?_
  split
  · exact (keeps_iunlockput ip).closes fun _ => closes_commit (keeps_pure _)
  refine (keeps_assign ip _).closes fun _ => ?_
  refine (keeps_iunlock ip).closes fun _ => ?_
  refine (keeps_namex true new).closes fun r => ?_
  split
  · exact closes_linkBad ip
  next dp name =>
  refine (keeps_ilock dp).closes fun _ => ?_
  refine (keeps_dirlink dp name ip).closes fun r => ?_
  split
  · refine (keeps_iunlockput dp).closes fun _ => ?_
    exact (keeps_iput ip).closes fun _ => closes_commit (keeps_pure _)
  · exact (keeps_iunlockput dp).closes fun _ => closes_linkBad ip

theorem closes_unlinkBad (dp : Nat) : Closes (unlinkBad dp) :=
  (keeps_iunlockput dp).closes fun _ => closes_commit (keeps_pure _)

theorem closes_removeEntry (dp off ip : Nat) (n : Inode) : Closes (removeEntry dp off ip n) := by
  have hdots : Keeps (removeDotdot dp n) true := by
    unfold removeDotdot
    split
    · exact (keeps_load dp).bind fun d => keeps_assign dp _
    · exact keeps_pure _
  refine (keeps_writei _ _ _).closes fun r => ?_
  split
  · refine hdots.closes fun _ => ?_
    refine (keeps_iunlockput dp).closes fun _ => ?_
    refine (keeps_load ip).closes fun n => ?_
    refine (keeps_assign ip _).closes fun _ => ?_
    exact (keeps_iunlockput ip).closes fun _ => closes_commit (keeps_pure _)
  · exact closes_panic (by decide)

theorem keeps_removable (ip : Nat) (n : Inode) : Keeps (removable ip n) m := by
  unfold removable
  split
  · exact (keeps_readi ip).bind fun es => keeps_pure _
  · exact keeps_pure _

theorem keeps_unlink (path : List UInt8) : Keeps (unlink path) false := by
  refine (keeps_namex true path).bind fun r => ?_
  split
  · exact keeps_pure _
  next dp name =>
  refine keeps_begin ?_
  refine (keeps_ilock dp).closes fun _ => ?_
  split
  · exact closes_unlinkBad dp
  refine (keeps_dirlookup dp name).closes fun r => ?_
  split
  · exact closes_unlinkBad dp
  next ip off =>
  refine (keeps_ilock ip).closes fun _ => ?_
  refine (keeps_load ip).closes fun n => ?_
  split
  · exact closes_panic (by decide)
  refine (keeps_removable ip n).closes fun r => ?_
  split
  · exact closes_removeEntry dp off ip n
  · exact (keeps_iunlockput ip).closes fun _ => closes_unlinkBad dp

theorem keeps_createDots (ip dp type : Nat) : Keeps (createDots ip dp type) true := by
  unfold createDots
  split
  · refine (keeps_load dp).bind fun d => ?_
    refine (keeps_assign dp _).bind fun _ => ?_
    refine (keeps_dirlink ip dot ip).bind fun r => ?_
    split
    · refine (keeps_dirlink ip dotdot dp).bind fun r => ?_
      split
      · exact keeps_pure _
      · exact keeps_panic (by decide)
    · exact keeps_panic (by decide)
  · exact keeps_pure _

theorem keeps_create (path : List UInt8) (type : Nat) (major minor : Int) :
    Keeps (create path type major minor) true := by
  refine (keeps_namex true path).bind fun r => ?_
  split
  · exact keeps_pure _
  next dp name =>
  refine (keeps_ilock dp).bind fun _ => ?_
  refine (keeps_dirlookup dp name).bind fun r => ?_
  split
  · next ip off =>
    refine (keeps_iunlockput dp).bind fun _ => ?_
    refine (keeps_ilock ip).bind fun _ => ?_
    refine (keeps_load ip).bind fun n => ?_
    split
    · exact keeps_pure _
    · exact (keeps_iunlockput ip).bind fun _ => keeps_pure _
  · refine (keeps_ialloc type).bind fun ip => ?_
    refine (keeps_ilock ip).bind fun _ => ?_
    refine (keeps_load ip).bind fun n => ?_
    refine (keeps_assign ip _).bind fun _ => ?_
    refine (keeps_createDots ip dp type).bind fun _ => ?_
    refine (keeps_dirlink dp name ip).bind fun r => ?_
    split
    · exact (keeps_iunlockput dp).bind fun _ => keeps_pure _
    · exact keeps_panic (by decide)

theorem keeps_fileclose (f : Nat) : Keeps (fileclose f) false := by
  refine (keeps_fileput f).bind fun r => ?_
  split
  · exact keeps_pure _
  split
  · exact keeps_begin ((keeps_iput _).closes fun _ => ⟨rfl, fun _ => rfl⟩)
  · exact keeps_pure _

theorem keeps_openInode (ip omode : Nat) : Keeps (openInode ip omode) false := by
  refine keeps_filealloc.bind fun r => ?_
  split
  · exact (keeps_iunlockput ip).bind fun _ => keeps_pure _
  next f =>
  refine (keeps_fdalloc f).bind fun r => ?_
  split
  · refine (keeps_fileclose f).bind fun _ => ?_
    exact (keeps_iunlockput ip).bind fun _ => keeps_pure _
  · refine (keeps_iunlock ip).bind fun _ => ?_
    exact (keeps_setFile _ _ _ _).bind fun _ => keeps_pure _

theorem keeps_sysOpen (path : Option (List UInt8)) (omode : Option Nat) :
    Keeps (sysOpen path omode) false := by
  unfold sysOpen
  split
  · next path omode =>
    split
    · refine keeps_begin ((keeps_create _ _ _ _).closes fun r => closes_commit ?_)
      split
      · exact keeps_pure _
      · exact keeps_openInode _ _
    · refine (keeps_namei path).bind fun r => ?_
      split
      · exact keeps_pure _
      next ip =>
      refine (keeps_ilock ip).bind fun _ => ?_
      refine (keeps_load ip).bind fun n => ?_
      split
      · exact (keeps_iunlockput ip).bind fun _ => keeps_pure _
      · exact keeps_openInode _ _
  · exact keeps_pure _

theorem closes_created (r : Option Nat) : Closes (created r) := by
  cases r with
  | none => exact closes_commit (keeps_pure _)
  | some ip => exact (keeps_iunlockput ip).closes fun _ => closes_commit (keeps_pure _)

theorem keeps_sysChdir (path : Option (List UInt8)) : Keeps (sysChdir path) false := by
  unfold sysChdir
  split
  · exact keeps_pure _
  next path =>
  refine (keeps_namei path).bind fun r => ?_
  split
  · exact keeps_pure _
  next ip =>
  refine (keeps_ilock ip).bind fun _ => ?_
  refine (keeps_load ip).bind fun n => ?_
  split
  · exact (keeps_iunlockput ip).bind fun _ => keeps_pure _
  refine (keeps_iunlock ip).bind fun _ => ?_
  refine keeps_getCwd.bind fun cwd => ?_
  refine (keeps_iput cwd).bind fun _ => ?_
  exact (keeps_setCwd ip).bind fun _ => keeps_pure _

/-- Every call ends the transactions it begins, and the steps that always write are in one. -/
theorem keeps_body (c : Call) : Keeps c.body false := by
  cases c with
  | link old new =>
      change Keeps (sysLink old new) false
      unfold sysLink
      split
      · exact keeps_link _ _
      · exact keeps_pure _
  | unlink path =>
      cases path with
      | none => exact keeps_pure _
      | some path => exact keeps_unlink path
  | openFile path omode => exact keeps_sysOpen path omode
  | mkdir path =>
      refine keeps_begin ?_
      cases path with
      | none => exact closes_created none
      | some path => exact (keeps_create _ _ _ _).closes closes_created
  | mknod path major minor =>
      refine keeps_begin ?_
      split
      · exact (keeps_create _ _ _ _).closes closes_created
      · exact closes_created none
  | chdir path => exact keeps_sysChdir path

end Calls

/-! ## The flag of the log -/

section Flag

variable {p : Pid} {o : Op} {k t : Kernel} {r : Op.Resp o}

/-- A step that neither begins nor ends a transaction leaves the transactions as they are. -/
theorem handle_frame (hbegin : o ≠ .beginTrans) (hcommit : o ≠ .commitTrans)
    (h : handle p o k = .ok (r, t)) : t.logBusy = k.logBusy ∧ t.inTrans = k.inTrans := by
  refine (handle_part h).log_eq ?_
  cases o with
  | beginTrans => exact absurd rfl hbegin
  | commitTrans => exact absurd rfl hcommit
  | _ => exact nofun

/-- What a step does to the transactions. -/
theorem handle_trans (h : handle p o k = .ok (r, t)) :
    (o = .beginTrans ∧ k.logBusy = false ∧ t.logBusy = true ∧
      t.inTrans = Function.update k.inTrans p true) ∨
    (o = .commitTrans ∧ t.inTrans = Function.update k.inTrans p false) ∨
    (o ≠ .beginTrans ∧ o ≠ .commitTrans ∧ t.logBusy = k.logBusy ∧ t.inTrans = k.inTrans) := by
  by_cases hbegin : o = .beginTrans
  · subst hbegin
    change k.beginTrans p = _ at h
    unfold Kernel.beginTrans at h
    split at h
    · cases h
    · next hidle =>
      cases h
      exact .inl ⟨rfl, Bool.eq_false_iff.mpr hidle, rfl, rfl⟩
  by_cases hcommit : o = .commitTrans
  · subst hcommit
    cases h
    exact .inr (.inl ⟨rfl, rfl⟩)
  · obtain ⟨hbusy, htrans⟩ := handle_frame hbegin hcommit h
    exact .inr (.inr ⟨hbegin, hcommit, hbusy, htrans⟩)

/-- The message of `log_write` is its own. -/
theorem handle_panic {msg : String} (h : handle p o k = .panic msg) : msg ≠ outside := by
  have higet : ∀ {i : Nat} {k : Kernel}, k.iget i = .panic msg → msg ≠ outside := by
    intro i k h
    unfold Kernel.iget at h
    split at h
    · cases h
    split at h
    · cases h
      decide
    · cases h
  cases o with
  | beginTrans =>
      change k.beginTrans p = _ at h
      unfold Kernel.beginTrans at h
      split at h <;> cases h
  | iget i => exact higet h
  | ilock i =>
      change k.ilock i = _ at h
      unfold Kernel.ilock at h
      split at h
      · cases h
        decide
      split at h
      · cases h
      split at h
      · cases h
      split at h
      · cases h
        decide
      · cases h
  | iunlock i =>
      change k.iunlock i = _ at h
      unfold Kernel.iunlock at h
      split at h
      · cases h
        decide
      · cases h
  | iput i =>
      change k.iput i = _ at h
      unfold Kernel.iput at h
      split at h
      · split at h
        · cases h
          decide
        · cases h
      · cases h
  | ialloc type =>
      change k.ialloc type = _ at h
      unfold Kernel.ialloc at h
      split at h
      · cases h
        decide
      · split at h
        · cases h
        · cases h
        · next heq =>
          cases h
          exact higet heq
  | writei i off e =>
      change k.writei i off e = _ at h
      unfold Kernel.writei at h
      split at h <;> cases h
  | filealloc =>
      change k.filealloc = _ at h
      unfold Kernel.filealloc at h
      split at h <;> cases h
  | fdalloc f =>
      change k.fdalloc p f = _ at h
      unfold Kernel.fdalloc at h
      split at h <;> cases h
  | fileput f =>
      change k.fileput f = _ at h
      unfold Kernel.fileput at h
      split at h
      · cases h
        decide
      split at h <;> cases h
  | commitTrans | idup | load | store | iupdate | readi | getCwd | setCwd | setFile => cases h

/-- A step that `log_write` lets through. -/
theorem logged_ok (h : logged p o k = .ok (r, t)) : handle p o k = .ok (r, t) := by
  unfold logged at h
  split at h
  · cases h
  · exact h

end Flag

/-! ## The system -/

/-- At most one process is in a transaction, and the log is busy then. -/
structure Solo (k : Kernel) : Prop where
  busy : ∀ p, k.inTrans p = true → k.logBusy = true
  one : ∀ p q, k.inTrans p = true → k.inTrans q = true → p = q

/-- Every process keeps to its own transactions, and they do not overlap. -/
structure Sound (M : System) : Prop where
  watched : M.Watched transactions (fun k p => k.inTrans p) false
  solo : Solo M.shared
  running : M.halted ≠ some outside

/-- The step frees an inode outside of a transaction: it puts the last reference to an inode
without links. -/
def Stray (M : System) : Label Pid Call → Prop
  | .call _ _ => False
  | .step p => M.shared.inTrans p = false ∧
      ∃ i, M.Next p (.iput i) ∧ M.shared.lastPut i = true ∧ M.shared.busy i = false

/-- If the step calls `log_write`, its process is in a transaction, and no other process is. -/
def OwnWrite (M : System) : Label Pid Call → Prop
  | .call _ _ => True
  | .step p => ∀ o, M.Next p o → Op.logs o M.shared = true →
      M.shared.inTrans p = true ∧ ∀ q, M.shared.inTrans q = true → q = p

section System

variable {M N : System} {l : Label Pid Call} {p : Pid} {o : Op}

/-- The step of a process that is not stray writes in a transaction. -/
theorem Sound.inTrans (h : Sound M) (hstray : ¬ Stray M (.step p)) (hnext : M.Next p o)
    (hlogs : Op.logs o M.shared = true) : M.shared.inTrans p = true := by
  have hallows := h.watched.allows hnext
  cases o with
  | iput i =>
      by_contra hout
      have hlogs : (M.shared.lastPut i && !M.shared.busy i) = true := hlogs
      rw [Bool.and_eq_true, Bool.not_eq_true'] at hlogs
      exact hstray ⟨Bool.eq_false_iff.mpr hout, i, hnext, hlogs.1, hlogs.2⟩
  | iupdate i => exact hallows
  | ialloc type => exact hallows
  | writei i off e => exact hallows
  | beginTrans | commitTrans | iget | idup | ilock | iunlock | load | store | readi | getCwd
  | setCwd | filealloc | fdalloc | fileput | setFile => cases hlogs

theorem Sound.ownWrite (h : Sound M) (hstray : ¬ Stray M l) : OwnWrite M l := by
  cases l with
  | call p c => trivial
  | step p =>
      intro o hnext hlogs
      have hin := h.inTrans hstray hnext hlogs
      exact ⟨hin, fun q hq => h.solo.one q p hq hin⟩

theorem Solo.step (h : Solo M.shared)
    (hwatched : M.Watched transactions (fun k p => k.inTrans p) false)
    (hstep : System.step l M = some N) : Solo N.shared := by
  rcases Machine.shared_step hstep with hsame | ⟨p, o, r, hnext, ho⟩
  · rw [hsame]
    exact h
  rcases handle_trans (logged_ok ho) with ⟨-, hidle, hbusy, htrans⟩ | ⟨rfl, htrans⟩ |
    ⟨-, -, hbusy, htrans⟩
  · -- Nobody was in a transaction, as the log was not busy.
    have hnone : ∀ q, q ≠ p → N.shared.inTrans q = true → False := by
      intro q hq hin
      rw [htrans, Function.update_of_ne hq] at hin
      have := h.busy q hin
      rw [hidle] at this
      cases this
    refine ⟨fun _ _ => hbusy, fun q q' hq hq' => ?_⟩
    obtain rfl : q = p := by_contra fun hne => hnone q hne hq
    obtain rfl : q' = q := by_contra fun hne => hnone q' hne hq'
    rfl
  · -- Only the process that commits was in a transaction.
    have hin : M.shared.inTrans p = true := hwatched.allows hnext
    have hnone : ∀ q, N.shared.inTrans q = true → False := by
      intro q hq
      rw [htrans] at hq
      rcases eq_or_ne q p with rfl | hne
      · rw [Function.update_self] at hq
        cases hq
      · rw [Function.update_of_ne hne] at hq
        exact hne (h.one q p hq hin)
    exact ⟨fun q hq => (hnone q hq).elim, fun q _ hq _ => (hnone q hq).elim⟩
  · refine ⟨fun q hq => ?_, fun q q' hq hq' => ?_⟩
    · rw [htrans] at hq
      rw [hbusy]
      exact h.busy q hq
    · rw [htrans] at hq hq'
      exact h.one q q' hq hq'

theorem watched_step (h : M.Watched transactions (fun k p => k.inTrans p) false)
    (hstep : System.step l M = some N) :
    N.Watched transactions (fun k p => k.inTrans p) false := by
  refine h.step ?_ keeps_body hstep
  intro p o s r t ho
  rcases handle_trans (logged_ok ho) with ⟨rfl, -, -, htrans⟩ | ⟨rfl, htrans⟩ |
    ⟨hbegin, hcommit, -, htrans⟩
  · rw [htrans]
    exact ⟨Function.update_self .., fun q hq => Function.update_of_ne hq ..⟩
  · rw [htrans]
    exact ⟨Function.update_self .., fun q hq => Function.update_of_ne hq ..⟩
  · rw [htrans]
    refine ⟨?_, fun _ _ => rfl⟩
    cases o <;> first | rfl | exact absurd rfl hbegin | exact absurd rfl hcommit

theorem Sound.step (h : Sound M) (hstray : ¬ Stray M l) (hstep : System.step l M = some N) :
    Sound N := by
  refine ⟨watched_step h.watched hstep, h.solo.step h.watched hstep, fun hpanic => ?_⟩
  obtain ⟨p, rfl, hprog | ⟨o, hnext, ho⟩⟩ := Machine.halted_step hstep hpanic
  · have hp := h.watched p
    rw [hprog] at hp
    exact hp rfl
  · unfold logged at ho
    split at ho
    · next hlogs =>
      have hbusy := h.solo.busy p (h.inTrans hstray hnext hlogs.1)
      rw [hlogs.2] at hbusy
      cases hbusy
    · exact handle_panic ho rfl

theorem start_sound {k : Kernel} (hidle : ∀ p, k.inTrans p = false) :
    Sound (Machine.start k) where
  watched p := hidle p
  solo := by
    have hnone : ∀ p, k.inTrans p = true → False := by
      intro p hp
      rw [hidle p] at hp
      cases hp
    exact ⟨fun p hp => (hnone p hp).elim, fun p _ hp _ => (hnone p hp).elim⟩
  running h := by cases h

theorem OwnWrite.not_stray (h : OwnWrite M l) : ¬ Stray M l := by
  intro hstray
  cases l with
  | call p c => exact hstray
  | step p =>
      obtain ⟨hout, i, hnext, hlast, hbusy⟩ := hstray
      have hlogs : Op.logs (.iput i) M.shared = true := by
        show (M.shared.lastPut i && !M.shared.busy i) = true
        rw [hlast, hbusy]
        rfl
      have hin := (h _ hnext hlogs).1
      rw [hout] at hin
      cases hin

theorem Sound.along (h : Sound M) {tr : List (System × Label Pid Call)}
    (hrun : Run System.step M tr N) (hok : EveryStep (fun M l => ¬ Stray M l) tr) :
    Along Sound tr N :=
  hrun.invariant_of (fun _ _ _ h hok hs => h.step hok hs) h hok

end System

/-- In a run of the calls from a state in which no process is in a transaction, every write is in
the writer's own transaction, and the panic of `log_write` is not reached, exactly when no step
frees an inode outside of a transaction. -/
theorem ownWrites_iff {k : Kernel} (hidle : ∀ p, k.inTrans p = false)
    {tr : List (System × Label Pid Call)} {N : System}
    (hrun : Run System.step (Machine.start k) tr N) :
    EveryStep OwnWrite tr ∧ N.halted ≠ some outside ↔ EveryStep (fun M l => ¬ Stray M l) tr := by
  constructor
  · rintro ⟨hown, -⟩ x hx
    exact (hown x hx).not_stray
  · intro hok
    have hall := (start_sound hidle).along hrun hok
    exact ⟨fun x hx => (hall.1 x hx).ownWrite (hok x hx), hall.2.running⟩

/-- The path `/`. -/
def pathRoot : List UInt8 := [47]

theorem removal_chdir : ∃ k, exec (Machine.callStep logged Call.body) removal
    (boot (imageDisk [])) = some k ∧
      (Call.chdir (some pathRoot)).body.exec (logged procA) k = .panic outside := by
  have htest : ((exec (Machine.callStep logged Call.body) removal (boot (imageDisk []))).any
      fun k => match (Call.chdir (some pathRoot)).body.exec (logged procA) k with
        | .panic msg => msg == outside
        | _ => false) = true := by decide +kernel
  cases hk : exec (Machine.callStep logged Call.body) removal (boot (imageDisk [])) with
  | none =>
      rw [hk] at htest
      cases htest
  | some k =>
      rw [hk, Option.any_some] at htest
      refine ⟨k, rfl, ?_⟩
      split at htest
      · next msg hmsg =>
        rw [hmsg, eq_of_beq htest]
      · cases htest

theorem ownWrites_iff_removal : ∃ tr k,
    exec (Machine.callStep logged Call.body) removal (boot (imageDisk [])) = some k ∧
      Run System.step (Machine.start (boot (imageDisk []))) tr (Machine.start k) ∧
      (EveryStep OwnWrite tr ∧ (Machine.start k : System).halted ≠ some outside ↔
        EveryStep (fun M l => ¬ Stray M l) tr) := by
  obtain ⟨k, hk, -⟩ := removal_chdir
  obtain ⟨tr, hrun⟩ := Machine.run_calls hk
  exact ⟨tr, k, hk, hrun, ownWrites_iff (fun _ => rfl) hrun⟩

/-- A process that leaves a directory which another process has removed frees it outside of a
transaction. -/
theorem removal_not_ownWrites : ∃ tr N, Run System.step (Machine.start (boot (imageDisk []))) tr N ∧
    N.halted = some outside ∧ ¬ EveryStep OwnWrite tr := by
  obtain ⟨k, hk, hpanic⟩ := removal_chdir
  obtain ⟨tr, hrun⟩ := Machine.run_calls hk
  obtain ⟨tr', N, hrun', hmsg⟩ := Machine.run_panic hpanic
  have hrun := hrun.append hrun'
  have hsound : Sound (Machine.start (boot (imageDisk []))) := start_sound fun _ => rfl
  refine ⟨tr ++ tr', N, hrun, hmsg, fun hown => ?_⟩
  exact (hsound.along hrun fun x hx => (hown x hx).not_stray).2.running hmsg

end Xv6Arm.Sys
