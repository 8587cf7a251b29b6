import Mathlib.Data.Multiset.AddSub
import Xv6Arm.Lib.Account
import Xv6Arm.Sys.Calls

/-!
# What the calls give back

The account of a call: the transaction it is in, the inodes it has locked, and
the references it has taken and not released.  Every path through a call that
returns gives all of it back, whatever the functions it calls answer: any names
that are found or not, any types and link counts, any files and descriptors that
are left or not.  One reference stays in the file of a new descriptor, and
`sys_chdir` gives back the reference of the old directory for the new one.
-/

namespace Xv6Arm.Sys

open Fs Programs Prog

/-- What a process has in hand in a call.  `refs` starts with the reference that `proc->cwd`
holds, and `stored` are the references that the call has stored in files. -/
structure Ledger where
  trans : Bool
  locked : Multiset Nat
  refs : Multiset Nat
  cwd : Nat
  stored : Multiset Nat

/-- The account of a call.

* A process that locks an inode that it has locked waits for itself.
* The only file that a call closes is one that `filealloc` has just given, whose type is
  `FD_NONE`. -/
def ledger : Account layer Ledger
  | .beginTrans, _, m => if m.trans then .broken else .ok { m with trans := true }
  | .commitTrans, _, m => if m.trans then .ok { m with trans := false } else .broken
  | .iget i, _, m => .ok { m with refs := i ::ₘ m.refs }
  | .idup i, _, m => .ok { m with refs := i ::ₘ m.refs }
  | .ialloc _, i, m => .ok { m with refs := (show Nat from i) ::ₘ m.refs }
  | .iput i, _, m => if i ∈ m.refs then .ok { m with refs := m.refs.erase i } else .broken
  | .ilock i, _, m => if i ∈ m.locked then .never else .ok { m with locked := i ::ₘ m.locked }
  | .iunlock i, _, m => if i ∈ m.locked then .ok { m with locked := m.locked.erase i } else .broken
  | .getCwd, i, m => if m.cwd = (show Nat from i) then .ok m else .never
  | .setCwd i, _, m => .ok { m with cwd := i }
  | .setFile _ i _ _, _, m => .ok { m with stored := i ::ₘ m.stored }
  | .fileput _, f, m =>
      match f with
      | some f => if f.type = .none then .ok m else .never
      | none => .ok m
  | _, _, m => .ok m

/-- The account at the start of a call. -/
def Ledger.start (cwd : Nat) : Ledger := ⟨false, 0, {cwd}, cwd, 0⟩

/-- A call that gives everything back: no transaction, no lock, and no reference but the one of
`proc->cwd` and the one of a new file. -/
structure Settled (c : Call) (cwd : Nat) (r : Int) (m : Ledger) : Prop where
  trans : m.trans = false
  locked : m.locked = 0
  refs : m.refs = m.cwd ::ₘ m.stored
  cwd : m.cwd = cwd ∨ ∃ path, c = .chdir path ∧ r = 0
  stored : m.stored = 0 ∨ ∃ path omode i, c = .openFile path omode ∧ 0 ≤ r ∧ m.stored = {i}

/-! ## Single steps -/

section Steps

variable {t : Bool} {L R S : Multiset Nat} {c : Nat} {m : Ledger}

/-- A step that the account does not read. -/
theorem settles_same {o : Op} (h : ∀ r, ledger o r m = .ok m) :
    (@Prog.call layer o).Settles ledger m fun _ m' => m' = m :=
  settles_call fun r => .inr ⟨m, h r, rfl⟩

theorem settles_load (i : Nat) : (load i).Settles ledger m fun _ m' => m' = m :=
  settles_same fun _ => rfl

theorem settles_readi (i : Nat) : (readi i).Settles ledger m fun _ m' => m' = m :=
  settles_same fun _ => rfl

theorem settles_writei (i off : Nat) (e : Entry) :
    (writei i off e).Settles ledger m fun _ m' => m' = m :=
  settles_same fun _ => rfl

theorem settles_filealloc : filealloc.Settles ledger m fun _ m' => m' = m :=
  settles_same fun _ => rfl

theorem settles_fdalloc (f : Nat) : (fdalloc f).Settles ledger m fun _ m' => m' = m :=
  settles_same fun _ => rfl

theorem settles_assign (i : Nat) (n : Inode) : (assign i n).Settles ledger m fun _ m' => m' = m :=
  Settles.bind (settles_same (o := .store i n) fun _ => rfl) fun _ _ hm =>
    hm ▸ settles_same (o := .iupdate i) fun _ => rfl

theorem settles_beginTrans : beginTrans.Settles ledger ⟨false, L, R, c, S⟩
    fun _ m => m = ⟨true, L, R, c, S⟩ :=
  settles_call fun _ => .inr ⟨_, rfl, rfl⟩

theorem settles_commitTrans : commitTrans.Settles ledger ⟨true, L, R, c, S⟩
    fun _ m => m = ⟨false, L, R, c, S⟩ :=
  settles_call fun _ => .inr ⟨_, rfl, rfl⟩

theorem settles_iget (i : Nat) : (iget i).Settles ledger ⟨t, L, R, c, S⟩
    fun _ m => m = ⟨t, L, i ::ₘ R, c, S⟩ :=
  settles_call fun _ => .inr ⟨_, rfl, rfl⟩

theorem settles_idup (i : Nat) : (idup i).Settles ledger ⟨t, L, R, c, S⟩
    fun _ m => m = ⟨t, L, i ::ₘ R, c, S⟩ :=
  settles_call fun _ => .inr ⟨_, rfl, rfl⟩

theorem settles_ialloc (type : Nat) : (ialloc type).Settles ledger ⟨t, L, R, c, S⟩
    fun i m => m = ⟨t, L, i ::ₘ R, c, S⟩ :=
  settles_call fun _ => .inr ⟨_, rfl, rfl⟩

theorem settles_iput (i : Nat) : (iput i).Settles ledger ⟨t, L, i ::ₘ R, c, S⟩
    fun _ m => m = ⟨t, L, R, c, S⟩ := by
  refine settles_call fun _ => .inr ⟨⟨t, L, (i ::ₘ R).erase i, c, S⟩, ?_, ?_⟩
  · exact if_pos (Multiset.mem_cons_self i R)
  · rw [Multiset.erase_cons_head]

theorem settles_ilock (i : Nat) : (ilock i).Settles ledger ⟨t, L, R, c, S⟩
    fun _ m => m = ⟨t, i ::ₘ L, R, c, S⟩ := by
  refine settles_call fun _ => ?_
  by_cases hi : i ∈ L
  · exact .inl (if_pos hi)
  · exact .inr ⟨_, if_neg hi, rfl⟩

theorem settles_iunlock (i : Nat) : (iunlock i).Settles ledger ⟨t, i ::ₘ L, R, c, S⟩
    fun _ m => m = ⟨t, L, R, c, S⟩ := by
  refine settles_call fun _ => .inr ⟨⟨t, (i ::ₘ L).erase i, R, c, S⟩, ?_, ?_⟩
  · exact if_pos (Multiset.mem_cons_self i L)
  · rw [Multiset.erase_cons_head]

theorem settles_iunlockput (i : Nat) : (iunlockput i).Settles ledger ⟨t, i ::ₘ L, i ::ₘ R, c, S⟩
    fun _ m => m = ⟨t, L, R, c, S⟩ :=
  (settles_iunlock i).bind fun _ _ hm => hm ▸ settles_iput i

theorem settles_getCwd : getCwd.Settles ledger ⟨t, L, R, c, S⟩
    fun i m => c = i ∧ m = ⟨t, L, R, c, S⟩ := by
  refine settles_call fun i => ?_
  by_cases hi : c = i
  · exact .inr ⟨_, if_pos hi, hi, rfl⟩
  · exact .inl (if_neg hi)

theorem settles_setCwd (i : Nat) : (setCwd i).Settles ledger ⟨t, L, R, c, S⟩
    fun _ m => m = ⟨t, L, R, i, S⟩ :=
  settles_call fun _ => .inr ⟨_, rfl, rfl⟩

theorem settles_setFile (f i : Nat) (r w : Bool) :
    (setFile f i r w).Settles ledger ⟨t, L, R, c, S⟩ fun _ m => m = ⟨t, L, R, c, i ::ₘ S⟩ :=
  settles_call fun _ => .inr ⟨_, rfl, rfl⟩

theorem settles_fileclose (f : Nat) : (fileclose f).Settles ledger m fun _ m' => m' = m := by
  have hput : (fileput f).Settles ledger m fun r m' => m' = m ∧ ∀ ff, r = some ff →
      ff.type = .none := by
    refine settles_call fun r => ?_
    cases r with
    | none => exact .inr ⟨m, rfl, rfl, fun ff hff => nomatch hff⟩
    | some ff =>
        by_cases htype : ff.type = .none
        · refine .inr ⟨m, if_pos htype, rfl, fun gg hgg => ?_⟩
          cases hgg
          exact htype
        · exact .inl (if_neg htype)
  refine hput.bind fun r m' hm => ?_
  obtain ⟨rfl, htype⟩ := hm
  cases r with
  | none => exact settles_pure rfl
  | some ff =>
      have hne : ff.type ≠ .inode := by rw [htype ff rfl]; decide
      show (if ff.type = .inode then _ else _ : Code Unit).Settles ledger m' _
      rw [if_neg hne]
      exact settles_pure rfl

end Steps

/-! ## Names and paths -/

/-- The references after an inode was found or not. -/
def found : Option Nat → Multiset Nat → Multiset Nat
  | none, R => R
  | some i, R => i ::ₘ R

section Names

variable {t : Bool} {L R S : Multiset Nat} {c : Nat} {m : Ledger}

theorem settles_dirlookup (dp : Nat) (name : Name) :
    (dirlookup dp name).Settles ledger ⟨t, L, R, c, S⟩
      fun r m => m = ⟨t, L, found (r.map Prod.fst) R, c, S⟩ := by
  refine (settles_load dp).bind ?_
  rintro d _ rfl
  split
  · exact settles_panic
  refine (settles_readi dp).bind ?_
  rintro es _ rfl
  split
  · exact settles_pure rfl
  · refine (settles_iget _).bind ?_
    rintro - _ rfl
    exact settles_pure rfl

theorem settles_dirlink (dp : Nat) (name : Name) (inum : Nat) :
    (dirlink dp name inum).Settles ledger m fun _ m' => m' = m := by
  obtain ⟨t, L, R, c, S⟩ := m
  refine (settles_dirlookup dp name).bind ?_
  rintro r _ rfl
  split
  · refine (settles_iput _).bind ?_
    rintro - _ rfl
    exact settles_pure rfl
  · refine (settles_readi dp).bind ?_
    rintro es _ rfl
    refine (settles_writei _ _ _).bind ?_
    rintro written _ rfl
    split
    · exact settles_pure rfl
    · exact settles_panic

/-- The loop of `namex` releases each directory that it goes through. -/
theorem settles_namexLoop (parent : Bool) (names : List Name) (name : Name) (ip : Nat) :
    (namexLoop parent names name ip).Settles ledger ⟨t, L, ip ::ₘ R, c, S⟩
      fun r m => m = ⟨t, L, found (r.map Prod.fst) R, c, S⟩ := by
  induction names generalizing name ip with
  | nil =>
      unfold namexLoop
      split
      · refine (settles_iput ip).bind ?_
        rintro - _ rfl
        exact settles_pure rfl
      · exact settles_pure rfl
  | cons x rest ih =>
      refine (settles_ilock ip).bind ?_
      rintro - _ rfl
      refine (settles_load ip).bind ?_
      rintro n _ rfl
      split
      · refine (settles_iunlockput ip).bind ?_
        rintro - _ rfl
        exact settles_pure rfl
      split
      · refine (settles_iunlock ip).bind ?_
        rintro - _ rfl
        exact settles_pure rfl
      refine (settles_dirlookup ip x).bind ?_
      rintro r _ rfl
      split
      · refine (settles_iunlockput ip).bind ?_
        rintro - _ rfl
        exact settles_pure rfl
      · next next off =>
        -- The reference to the next inode was taken while that to `ip` was held.
        show Settles ledger _ ⟨t, ip ::ₘ L, next ::ₘ ip ::ₘ R, c, S⟩ _
        rw [Multiset.cons_swap]
        refine (settles_iunlockput ip).bind ?_
        rintro - _ rfl
        exact ih x next

theorem settles_namex (parent : Bool) (path : List UInt8) :
    (namex parent path).Settles ledger ⟨t, L, R, c, S⟩
      fun r m => m = ⟨t, L, found (r.map Prod.fst) R, c, S⟩ := by
  unfold namex
  split
  · refine (settles_iget ROOTINO).bind ?_
    rintro - _ rfl
    exact settles_namexLoop _ _ _ _
  · refine settles_getCwd.bind ?_
    rintro i _ ⟨rfl, rfl⟩
    refine (settles_idup _).bind ?_
    rintro - _ rfl
    exact settles_namexLoop _ _ _ _

theorem settles_namei (path : List UInt8) :
    (namei path).Settles ledger ⟨t, L, R, c, S⟩ fun r m => m = ⟨t, L, found r R, c, S⟩ := by
  refine (settles_namex false path).bind ?_
  rintro r _ rfl
  exact settles_pure rfl

theorem settles_nameiparent (path : List UInt8) :
    (nameiparent path).Settles ledger ⟨t, L, R, c, S⟩
      fun r m => m = ⟨t, L, found (r.map Prod.fst) R, c, S⟩ :=
  settles_namex true path

end Names

/-! ## The calls -/

section Calls

variable {R S : Multiset Nat} {c : Nat}

theorem settles_linkBad (ip : Nat) : (linkBad ip).Settles ledger ⟨true, 0, ip ::ₘ R, c, S⟩
    fun _ m => m = ⟨false, 0, R, c, S⟩ := by
  refine (settles_ilock ip).bind ?_
  rintro - _ rfl
  refine (settles_load ip).bind ?_
  rintro n _ rfl
  refine (settles_assign _ _).bind ?_
  rintro - _ rfl
  refine (settles_iunlockput ip).bind ?_
  rintro - _ rfl
  refine settles_commitTrans.bind ?_
  rintro - _ rfl
  exact settles_pure rfl

theorem settles_link (old new : List UInt8) : (link old new).Settles ledger ⟨false, 0, R, c, S⟩
    fun _ m => m = ⟨false, 0, R, c, S⟩ := by
  refine (settles_namei old).bind ?_
  rintro r _ rfl
  split
  · exact settles_pure rfl
  · next ip =>
    refine settles_beginTrans.bind ?_
    rintro - _ rfl
    refine (settles_ilock ip).bind ?_
    rintro - _ rfl
    refine (settles_load ip).bind ?_
    rintro n _ rfl
    split
    · refine (settles_iunlockput ip).bind ?_
      rintro - _ rfl
      refine settles_commitTrans.bind ?_
      rintro - _ rfl
      exact settles_pure rfl
    refine (settles_assign _ _).bind ?_
    rintro - _ rfl
    refine (settles_iunlock ip).bind ?_
    rintro - _ rfl
    refine (settles_nameiparent new).bind ?_
    rintro r _ rfl
    split
    · exact settles_linkBad ip
    · next dp name =>
      refine (settles_ilock dp).bind ?_
      rintro - _ rfl
      refine (settles_dirlink dp name ip).bind ?_
      rintro added _ rfl
      split
      · refine (settles_iunlockput dp).bind ?_
        rintro - _ rfl
        refine (settles_iput ip).bind ?_
        rintro - _ rfl
        refine settles_commitTrans.bind ?_
        rintro - _ rfl
        exact settles_pure rfl
      · refine (settles_iunlockput dp).bind ?_
        rintro - _ rfl
        exact settles_linkBad ip

theorem settles_unlinkBad (dp : Nat) :
    (unlinkBad dp).Settles ledger ⟨true, dp ::ₘ 0, dp ::ₘ R, c, S⟩
      fun _ m => m = ⟨false, 0, R, c, S⟩ := by
  refine (settles_iunlockput dp).bind ?_
  rintro - _ rfl
  refine settles_commitTrans.bind ?_
  rintro - _ rfl
  exact settles_pure rfl

theorem settles_removable {m : Ledger} (ip : Nat) (n : Inode) :
    (removable ip n).Settles ledger m fun _ m' => m' = m := by
  unfold removable isdirempty
  split
  · refine (settles_readi ip).bind ?_
    rintro es _ rfl
    exact settles_pure rfl
  · exact settles_pure rfl

theorem settles_removeDotdot {m : Ledger} (dp : Nat) (n : Inode) :
    (removeDotdot dp n).Settles ledger m fun _ m' => m' = m := by
  unfold removeDotdot
  split
  · refine (settles_load dp).bind ?_
    rintro d _ rfl
    exact settles_assign _ _
  · exact settles_pure rfl

theorem settles_removeEntry (dp off ip : Nat) (n : Inode) :
    (removeEntry dp off ip n).Settles ledger ⟨true, ip ::ₘ dp ::ₘ 0, ip ::ₘ dp ::ₘ R, c, S⟩
      fun _ m => m = ⟨false, 0, R, c, S⟩ := by
  refine (settles_writei _ _ _).bind ?_
  rintro written _ rfl
  split
  · refine (settles_removeDotdot dp n).bind ?_
    rintro - _ rfl
    -- `dp` is released before `ip`, which was locked later.
    rw [Multiset.cons_swap ip dp 0, Multiset.cons_swap ip dp R]
    refine (settles_iunlockput dp).bind ?_
    rintro - _ rfl
    refine (settles_load ip).bind ?_
    rintro n _ rfl
    refine (settles_assign _ _).bind ?_
    rintro - _ rfl
    refine (settles_iunlockput ip).bind ?_
    rintro - _ rfl
    refine settles_commitTrans.bind ?_
    rintro - _ rfl
    exact settles_pure rfl
  · exact settles_panic

theorem settles_unlink (path : List UInt8) : (unlink path).Settles ledger ⟨false, 0, R, c, S⟩
    fun _ m => m = ⟨false, 0, R, c, S⟩ := by
  refine (settles_nameiparent path).bind ?_
  rintro r _ rfl
  split
  · exact settles_pure rfl
  · next dp name =>
    refine settles_beginTrans.bind ?_
    rintro - _ rfl
    refine (settles_ilock dp).bind ?_
    rintro - _ rfl
    split
    · exact settles_unlinkBad dp
    refine (settles_dirlookup dp name).bind ?_
    rintro r _ rfl
    split
    · exact settles_unlinkBad dp
    · next ip off =>
      refine (settles_ilock ip).bind ?_
      rintro - _ rfl
      refine (settles_load ip).bind ?_
      rintro n _ rfl
      split
      · exact settles_panic
      refine (settles_removable ip n).bind ?_
      rintro can _ rfl
      split
      · exact settles_removeEntry dp off ip n
      · refine (settles_iunlockput ip).bind ?_
        rintro - _ rfl
        exact settles_unlinkBad dp

theorem settles_createDots {m : Ledger} (ip dp type : Nat) :
    (createDots ip dp type).Settles ledger m fun _ m' => m' = m := by
  unfold createDots
  split
  · refine (settles_load dp).bind ?_
    rintro d _ rfl
    refine (settles_assign _ _).bind ?_
    rintro - _ rfl
    refine (settles_dirlink ip dot ip).bind ?_
    rintro first _ rfl
    split
    · refine (settles_dirlink ip dotdot dp).bind ?_
      rintro second _ rfl
      split
      · exact settles_pure rfl
      · exact settles_panic
    · exact settles_panic
  · exact settles_pure rfl

/-- The inode that `create` returns is locked. -/
theorem settles_create {t : Bool} (path : List UInt8) (type : Nat) (major minor : Int) :
    (create path type major minor).Settles ledger ⟨t, 0, R, c, S⟩
      fun r m => m = ⟨t, found r 0, found r R, c, S⟩ := by
  refine (settles_nameiparent path).bind ?_
  rintro r _ rfl
  split
  · exact settles_pure rfl
  · next dp name =>
    refine (settles_ilock dp).bind ?_
    rintro - _ rfl
    refine (settles_dirlookup dp name).bind ?_
    rintro r _ rfl
    split
    · next ip off =>
      show Settles ledger _ ⟨t, dp ::ₘ 0, ip ::ₘ dp ::ₘ R, c, S⟩ _
      rw [Multiset.cons_swap]
      refine (settles_iunlockput dp).bind ?_
      rintro - _ rfl
      refine (settles_ilock ip).bind ?_
      rintro - _ rfl
      refine (settles_load ip).bind ?_
      rintro n _ rfl
      split
      · exact settles_pure rfl
      · refine (settles_iunlockput ip).bind ?_
        rintro - _ rfl
        exact settles_pure rfl
    · refine (settles_ialloc type).bind ?_
      rintro ip _ rfl
      refine (settles_ilock ip).bind ?_
      rintro - _ rfl
      refine (settles_load ip).bind ?_
      rintro n _ rfl
      refine (settles_assign _ _).bind ?_
      rintro - _ rfl
      refine (settles_createDots ip dp type).bind ?_
      rintro - _ rfl
      refine (settles_dirlink dp name ip).bind ?_
      rintro added _ rfl
      split
      · show Settles ledger _ ⟨t, ip ::ₘ dp ::ₘ 0, ip ::ₘ dp ::ₘ R, c, S⟩ _
        rw [Multiset.cons_swap ip dp 0, Multiset.cons_swap ip dp R]
        refine (settles_iunlockput dp).bind ?_
        rintro - _ rfl
        exact settles_pure rfl
      · exact settles_panic

theorem settles_created (r : Option Nat) :
    (created r).Settles ledger ⟨true, found r 0, found r R, c, S⟩
      fun _ m => m = ⟨false, 0, R, c, S⟩ := by
  cases r with
  | none =>
      refine settles_commitTrans.bind ?_
      rintro - _ rfl
      exact settles_pure rfl
  | some ip =>
      show Settles ledger _ ⟨true, ip ::ₘ 0, ip ::ₘ R, c, S⟩ _
      refine (settles_iunlockput ip).bind ?_
      rintro - _ rfl
      refine settles_commitTrans.bind ?_
      rintro - _ rfl
      exact settles_pure rfl

/-- A new descriptor keeps the reference, and nothing keeps it when there is none. -/
theorem settles_openInode (ip omode : Nat) :
    (openInode ip omode).Settles ledger ⟨false, ip ::ₘ 0, ip ::ₘ R, c, 0⟩ fun r m =>
      m = ⟨false, 0, R, c, 0⟩ ∨ 0 ≤ r ∧ m = ⟨false, 0, ip ::ₘ R, c, {ip}⟩ := by
  refine settles_filealloc.bind ?_
  rintro r _ rfl
  split
  · refine (settles_iunlockput ip).bind ?_
    rintro - _ rfl
    exact settles_pure (.inl rfl)
  · next f =>
    refine (settles_fdalloc f).bind ?_
    rintro r _ rfl
    split
    · refine (settles_fileclose f).bind ?_
      rintro - _ rfl
      refine (settles_iunlockput ip).bind ?_
      rintro - _ rfl
      exact settles_pure (.inl rfl)
    · next fd =>
      refine (settles_iunlock ip).bind ?_
      rintro - _ rfl
      refine (settles_setFile _ _ _ _).bind ?_
      rintro - _ rfl
      exact settles_pure (.inr ⟨Int.natCast_nonneg fd, rfl⟩)

theorem settles_sysOpen (path : Option (List UInt8)) (omode : Option Nat) :
    (sysOpen path omode).Settles ledger ⟨false, 0, R, c, 0⟩ fun r m =>
      m = ⟨false, 0, R, c, 0⟩ ∨ ∃ i, 0 ≤ r ∧ m = ⟨false, 0, i ::ₘ R, c, {i}⟩ := by
  unfold sysOpen
  split
  · next path omode =>
    split
    · refine settles_beginTrans.bind ?_
      rintro - _ rfl
      refine (settles_create path T_FILE 0 0).bind ?_
      rintro r _ rfl
      refine settles_commitTrans.bind ?_
      rintro - _ rfl
      split
      · exact settles_pure (.inl rfl)
      · next ip => exact (settles_openInode ip omode).mono fun r m hm => hm.imp_right fun h => ⟨ip, h⟩
    · refine (settles_namei path).bind ?_
      rintro r _ rfl
      split
      · exact settles_pure (.inl rfl)
      · next ip =>
        refine (settles_ilock ip).bind ?_
        rintro - _ rfl
        refine (settles_load ip).bind ?_
        rintro n _ rfl
        split
        · refine (settles_iunlockput ip).bind ?_
          rintro - _ rfl
          exact settles_pure (.inl rfl)
        · exact (settles_openInode ip omode).mono fun r m hm => hm.imp_right fun h => ⟨ip, h⟩
  · exact settles_pure (.inl rfl)

theorem settles_sysMkdir (path : Option (List UInt8)) :
    (sysMkdir path).Settles ledger ⟨false, 0, R, c, S⟩ fun _ m => m = ⟨false, 0, R, c, S⟩ := by
  refine settles_beginTrans.bind ?_
  rintro - _ rfl
  split
  · exact settles_created none
  · next path =>
    refine (settles_create path T_DIR 0 0).bind ?_
    rintro r _ rfl
    exact settles_created r

theorem settles_sysMknod (path : Option (List UInt8)) (major minor : Option Int) :
    (sysMknod path major minor).Settles ledger ⟨false, 0, R, c, S⟩
      fun _ m => m = ⟨false, 0, R, c, S⟩ := by
  refine settles_beginTrans.bind ?_
  rintro - _ rfl
  split
  · next path major minor =>
    refine (settles_create path T_DEV major minor).bind ?_
    rintro r _ rfl
    exact settles_created r
  · exact settles_created none

/-- The reference of the old directory is released for that of the new one. -/
theorem settles_sysChdir (path : Option (List UInt8)) :
    (sysChdir path).Settles ledger ⟨false, 0, c ::ₘ R, c, S⟩ fun r m =>
      m = ⟨false, 0, c ::ₘ R, c, S⟩ ∨ ∃ i, r = 0 ∧ m = ⟨false, 0, i ::ₘ R, i, S⟩ := by
  unfold sysChdir
  split
  · exact settles_pure (.inl rfl)
  · next path =>
    refine (settles_namei path).bind ?_
    rintro r _ rfl
    split
    · exact settles_pure (.inl rfl)
    · next ip =>
      refine (settles_ilock ip).bind ?_
      rintro - _ rfl
      refine (settles_load ip).bind ?_
      rintro n _ rfl
      split
      · refine (settles_iunlockput ip).bind ?_
        rintro - _ rfl
        exact settles_pure (.inl rfl)
      · refine (settles_iunlock ip).bind ?_
        rintro - _ rfl
        refine settles_getCwd.bind ?_
        rintro i _ ⟨rfl, rfl⟩
        show Settles ledger _ ⟨false, 0, ip ::ₘ c ::ₘ R, c, S⟩ _
        rw [Multiset.cons_swap]
        refine (settles_iput c).bind ?_
        rintro - _ rfl
        refine (settles_setCwd ip).bind ?_
        rintro - _ rfl
        exact settles_pure (.inr ⟨ip, rfl, rfl⟩)

end Calls

/-- A call that leaves the account as it was. -/
theorem settled_start (c : Call) (cwd : Nat) (r : Int) : Settled c cwd r (.start cwd) :=
  ⟨rfl, rfl, rfl, .inl rfl, .inl rfl⟩

theorem settles_body (c : Call) (cwd : Nat) :
    c.body.Settles ledger (.start cwd) fun r m => Settled c cwd r m := by
  cases c with
  | link old new =>
      have hsame : (sysLink old new).Settles ledger (.start cwd) fun _ m => m = .start cwd := by
        unfold sysLink
        split
        · exact settles_link _ _
        · exact settles_pure rfl
      exact hsame.mono fun r m hm => hm ▸ settled_start _ cwd r
  | unlink path =>
      have hsame : (sysUnlink path).Settles ledger (.start cwd) fun _ m => m = .start cwd := by
        unfold sysUnlink
        split
        · exact settles_unlink _
        · exact settles_pure rfl
      exact hsame.mono fun r m hm => hm ▸ settled_start _ cwd r
  | openFile path omode =>
      refine (settles_sysOpen path omode).mono fun r m hm => ?_
      rcases hm with rfl | ⟨i, hr, rfl⟩
      · exact settled_start _ cwd r
      · exact ⟨rfl, rfl, Multiset.cons_swap i cwd 0, .inl rfl, .inr ⟨path, omode, i, rfl, hr, rfl⟩⟩
  | mkdir path => exact (settles_sysMkdir path).mono fun r m hm => hm ▸ settled_start _ cwd r
  | mknod path major minor =>
      exact (settles_sysMknod path major minor).mono fun r m hm => hm ▸ settled_start _ cwd r
  | chdir path =>
      refine (settles_sysChdir path).mono fun r m hm => ?_
      rcases hm with rfl | ⟨i, hr, rfl⟩
      · exact settled_start _ cwd r
      · exact ⟨rfl, rfl, rfl, .inr ⟨path, rfl, hr⟩, .inl rfl⟩

/-- On every path of a call that returns, the account is never broken, and everything is given back
at the end. -/
theorem calls_balanced (c : Call) (cwd : Nat) {tr : List layer.Event} {r : Int}
    (hpath : Path c.body tr r) :
    ledger.run tr (.start cwd) ≠ .broken ∧
      ∀ m, ledger.run tr (.start cwd) = .ok m → Settled c cwd r m :=
  (settles_body c cwd).path hpath

/-- The path of `unlink("/a")` when `a` is the file 2, with one link. -/
def unlinkFile : List layer.Event :=
  [⟨.iget 1, ()⟩, ⟨.ilock 1, ()⟩, ⟨.load 1, (⟨T_DIR, 0, 0, 1⟩ : Inode)⟩, ⟨.iunlock 1, ()⟩,
    ⟨.beginTrans, ()⟩, ⟨.ilock 1, ()⟩, ⟨.load 1, (⟨T_DIR, 0, 0, 1⟩ : Inode)⟩,
    ⟨.readi 1, ([⟨2, [97]⟩] : List Entry)⟩, ⟨.iget 2, ()⟩, ⟨.ilock 2, ()⟩,
    ⟨.load 2, (⟨T_FILE, 0, 0, 1⟩ : Inode)⟩, ⟨.writei 1 0 ⟨0, []⟩, true⟩, ⟨.iunlock 1, ()⟩,
    ⟨.iput 1, ()⟩, ⟨.load 2, (⟨T_FILE, 0, 0, 1⟩ : Inode)⟩, ⟨.store 2 ⟨T_FILE, 0, 0, 0⟩, ()⟩,
    ⟨.iupdate 2, ()⟩, ⟨.iunlock 2, ()⟩, ⟨.iput 2, ()⟩, ⟨.commitTrans, ()⟩]

theorem unlinkFile_path : Path (Call.unlink (some [47, 97])).body unlinkFile 0 := by
  repeat' constructor

theorem calls_balanced_unlinkFile :
    ∃ m, ledger.run unlinkFile (.start 5) = .ok m ∧ Settled (.unlink (some [47, 97])) 5 0 m := by
  have hrun : ledger.run unlinkFile (.start 5) = .ok (.start 5) := rfl
  exact ⟨_, hrun, (calls_balanced _ 5 unlinkFile_path).2 _ hrun⟩

end Xv6Arm.Sys
